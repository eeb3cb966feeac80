import HoprApi.Lib.Parallel
import HoprApi.Node.OperationOutcomes

/-!
# Channel operations at the same time

A node is asked for channel operations while others are under way.  They share the events of the
chain, and none of them disturbs another (`view_runOperations`).  An event completes every operation
that waits for it (`event_completes_all`), so two operations are completed by different events if
their goals differ, and by the same one if they have one goal and wait at the same time
(`returned_with_events`).
-/

namespace HoprApi.Node

open HoprApi.Rust HoprApi.Chain HoprApi.Lib.Waiters

variable {X η ω : Type}

/-! ### Goals -/

/-- What is to be seen on the chain for an operation to return. -/
inductive Goal where
  | opened (channelId : ChannelId)
  | funded (channelId : ChannelId) (amount : HoprBalance)
  | closed (channelId : ChannelId)
  deriving DecidableEq

section Goal

def Goal.met : Goal → ChainEvent X → Bool
  | opened channelId => isOpened channelId
  | funded channelId amount => isFunded channelId amount
  | closed channelId => isClosed channelId

def ChainEvent.goal? : ChainEvent X → Option Goal
  | .channelOpened c => some (.opened c.id)
  | .channelBalanceIncreased c amount => some (.funded c.id amount)
  | .channelClosureInitiated c => some (.closed c.id)
  | .channelClosed c => some (.closed c.id)
  | .other _ => none

theorem Goal.met_iff {goal : Goal} {event : ChainEvent X} :
    goal.met event = true ↔ event.goal? = some goal := by
  cases goal with
  | opened channelId => cases event <;> simp [Goal.met, isOpened, ChainEvent.goal?]
  | funded channelId amount => cases event <;> simp [Goal.met, isFunded, ChainEvent.goal?]
  | closed channelId => cases event <;> simp [Goal.met, isClosed, ChainEvent.goal?]

theorem Goal.eq_of_met {goal goal' : Goal} {event : ChainEvent X} (h : goal.met event = true)
    (h' : goal'.met event = true) : goal = goal' := by
  rw [Goal.met_iff] at h h'
  exact Option.some.inj (h.symm.trans h')

namespace Request

variable [GenerateChannelId] (nodeAddress : Address)

def goal : Request → Goal
  | openChannel destination _ => .opened (generateChannelId nodeAddress destination)
  | fundChannel channelId amount => .funded channelId amount
  | closeChannelById channelId => .closed channelId

theorem completes_eq (request : Request) :
    (request.completes nodeAddress : ChainEvent X → Bool) = (request.goal nodeAddress).met := by
  cases request <;> rfl

theorem finish_returned {request : Request} {event : ChainEvent X}
    (hevent : request.completes nodeAddress event = true) (txHash : Hash) :
    ∃ output, (request.finish nodeAddress txHash event : Outcome η ω request.Output) =
      .returned (.ok output) := by
  cases request with
  | openChannel destination amount => exact ⟨_, rfl⟩
  | fundChannel channelId amount => exact ⟨_, rfl⟩
  | closeChannelById channelId =>
    obtain ⟨c, rfl | rfl, -⟩ := isClosed_iff.1 hevent
    · exact ⟨_, rfl⟩
    · exact ⟨_, rfl⟩

theorem txHash_of_finish {request : Request} {txHash : Hash} {event : ChainEvent X}
    {output : ChainOutput request.Output}
    (h : (request.finish nodeAddress txHash event : Outcome η ω request.Output) =
      .returned (.ok output)) : output.txHash = txHash := by
  cases request with
  | openChannel destination amount =>
    cases h
    rfl
  | fundChannel channelId amount =>
    cases h
    rfl
  | closeChannelById channelId =>
    cases event with
    | channelClosureInitiated c =>
      cases h
      rfl
    | channelClosed c =>
      cases h
      rfl
    | _ => cases h

end Request

end Goal

/-! ### Runs of several operations -/

section Concurrent

variable {ι : Type} [DecidableEq ι] [GenerateChannelId] {requests : ι → Request}

abbrev OperationsState (X η ω : Type) {ι : Type} (requests : ι → Request) :=
  Concurrent ChainCall (ChainCall.Answer η) (ChainEvent X) Duration η (EitherErr η ω)
    fun i => Outcome η ω (requests i).Output

/-- A run of operations; `env i` is what the chain answers to the operation `i`. -/
def runOperations (env : ι → ChainEnv η ω) (nodeAddress : Address) (requests : ι → Request)
    (log : List (ChainEvent X)) (actions : List (Action ι (ChainEvent X) (EitherErr η ω))) :
    OperationsState X η ω requests :=
  (Concurrent.start log fun i => (requests i).operation nodeAddress).run env actions

variable (env : ι → ChainEnv η ω) (nodeAddress : Address)

/-- **The operations do not disturb each other.** -/
theorem view_runOperations (log : List (ChainEvent X))
    (actions : List (Action ι (ChainEvent X) (EitherErr η ω))) (i : ι) :
    (runOperations env nodeAddress requests log actions).view i =
      runOperation (env i) ((requests i).operation nodeAddress) log (movesOf i actions) :=
  view_run _ actions i

/-- The transaction of the operation `i` is submitted and will be confirmed, and its waiter has not
expired. -/
structure Awaits (s : OperationsState X η ω requests) (i : ι) : Prop where
  succeeds : Succeeds (env i) (requests i).tx
  submitted : .submit (requests i).tx ∈ (s.parts i).calls
  inTime : InTime (s.view i)

/-- **An event completes every operation that waits for it**, whatever the others do: each of them
returns its output within three more steps of its own. -/
theorem event_completes_all (log : List (ChainEvent X))
    (before after : List (Action ι (ChainEvent X) (EitherErr η ω))) (event : ChainEvent X) :
    ∀ i, Awaits env (runOperations env nodeAddress requests log before) i →
      ((requests i).goal nodeAddress).met event = true → 3 ≤ polls (movesOf i after) →
      ∃ output, ((runOperations env nodeAddress requests log
        (before ++ .append event :: after)).parts i).proc = .done (.returned (.ok output)) := by
  intro i hawaits hmet hpolls
  have halone : NeverMisses (env i) ((requests i).operation nodeAddress) (requests i).tx
      (fun event : ChainEvent X => (requests i).completes nodeAddress event = true) := by
    rw [Request.operation_eq]
    exact neverMisses (fun _ h => h) fun txHash event h => Request.finish_returned nodeAddress h txHash
  obtain ⟨hsucceeds, hsubmitted, hintime⟩ := hawaits
  change .submit (requests i).tx ∈
    ((runOperations env nodeAddress requests log before).view i).calls at hsubmitted
  rw [view_runOperations] at hsubmitted hintime
  have hmoves : movesOf i (before ++ .append event :: after) =
      movesOf i before ++ .append event :: movesOf i after := movesOf_append i before _
  have hevent : (requests i).completes nodeAddress event = true := by
    rw [Request.completes_eq, hmet]
  obtain ⟨output, hdone⟩ := halone hsucceeds log (movesOf i before) event (movesOf i after)
    hsubmitted hintime hevent hpolls
  refine ⟨output, ?_⟩
  show ((runOperations env nodeAddress requests log (before ++ .append event :: after)).view i).proc
    = _
  rw [view_runOperations, hmoves, hdone]

omit [DecidableEq ι] [GenerateChannelId] in
/-- Two fundings of a channel by the same amount are completed by one event. -/
theorem event_completes_all_fundings :
    letI : GenerateChannelId := ⟨fun source _ => source.setWidth 256⟩
    ∃ outputs : Bool → ChainOutput Unit, ∀ i,
      ((runOperations (X := Unit) (fun _ : Bool => confirmingChain) 1
        (fun _ => .fundChannel 3 10) []
        ([.poll true, .poll false, .poll true, .poll false, .poll true, .poll false] ++
          .append (.channelBalanceIncreased ⟨3, 2, .open, 3⟩ 10) ::
          [.poll true, .poll false, .poll true, .poll false, .poll true, .poll false])).parts i).proc =
        .done (.returned (.ok (outputs i))) := by
  let : GenerateChannelId := ⟨fun source _ => source.setWidth 256⟩
  have hawaits : ∀ i, Awaits (fun _ : Bool => confirmingChain) (runOperations (X := Unit)
      (fun _ : Bool => confirmingChain) 1 (fun _ => .fundChannel 3 10) []
      [.poll true, .poll false, .poll true, .poll false, .poll true, .poll false]) i := by
    intro i
    refine ⟨⟨⟨rfl, rfl⟩, 7, rfl, rfl⟩, ?_, ?_⟩
    · cases i <;> exact .tail _ (.head _)
    · cases i <;> exact inTime_of_running rfl rfl
  choose outputs houtputs using fun i => event_completes_all (fun _ => confirmingChain) 1 []
    [.poll true, .poll false, .poll true, .poll false, .poll true, .poll false]
    [.poll true, .poll false, .poll true, .poll false, .poll true, .poll false]
    (.channelBalanceIncreased ⟨3, 2, .open, 3⟩ 10) i (hawaits i) rfl (by cases i <;> decide)
  exact ⟨outputs, houtputs⟩

/-- The operation `i` has returned an output with its confirmed transaction and the first event for
its goal since its subscription, when the log had `since` events; that event is at `k`. -/
structure ReturnedWith (s : OperationsState X η ω requests) (i : ι)
    (output : ChainOutput (requests i).Output) (since k : ℕ) : Prop where
  returned : (s.parts i).proc = .done (.returned (.ok output))
  confirmed : .confirm (requests i).tx ∈ (s.parts i).calls ∧
    (env i).Answers (.confirm (requests i).tx) (.ok output.txHash)
  subscribed : ∃ w ∈ (s.parts i).waiters, w.since = since
  seen : ∃ event, FirstAt s.log ((requests i).goal nodeAddress).met since k event ∧
    ((requests i).finish nodeAddress output.txHash event : Outcome η ω _) = .returned (.ok output)

variable {env nodeAddress} in
theorem returnedWith_of_done {log : List (ChainEvent X)}
    {actions : List (Action ι (ChainEvent X) (EitherErr η ω))} {i : ι}
    {output : ChainOutput (requests i).Output}
    (hdone : ((runOperations env nodeAddress requests log actions).parts i).proc =
      .done (.returned (.ok output))) :
    ∃ since k, ReturnedWith env nodeAddress (runOperations env nodeAddress requests log actions) i
      output since k := by
  have hview : (runOperations env nodeAddress requests log actions).view i = _ :=
    view_runOperations env nodeAddress log actions i
  rw [Request.operation_eq] at hview
  have hdone' : (runOperation (env i) (channelOperation ((requests i).completes nodeAddress)
      (requests i).tx ((requests i).finish nodeAddress)) log (movesOf i actions)).proc =
      .done (.returned (.ok output)) := by
    rw [← hview]
    exact hdone
  obtain ⟨txHash, event, hout, hcompleted⟩ := completedBy_of_done hdone'
    (fun err h => by cases h) (fun h => by cases h)
  rw [← hview] at hcompleted
  obtain ⟨⟨hcall, hconfirm⟩, w, hw, -, hfind⟩ := hcompleted
  obtain rfl := Request.txHash_of_finish nodeAddress hout.symm
  rw [Request.completes_eq] at hfind
  obtain ⟨k, hk⟩ := firstAt_of_find hfind
  exact ⟨w.since, k, hdone, ⟨hcall, hconfirm⟩, ⟨w, hw, rfl⟩, event, hk, hout.symm⟩

/-- **Each output comes with an event of its own goal**: two operations never share an event unless
they have one goal, and then they do if the later one has subscribed before the event. -/
theorem returned_with_events (log : List (ChainEvent X))
    (actions : List (Action ι (ChainEvent X) (EitherErr η ω))) :
    let s := runOperations env nodeAddress requests log actions
    (∀ i output, (s.parts i).proc = .done (.returned (.ok output)) →
      ∃ since k, ReturnedWith env nodeAddress s i output since k) ∧
    ∀ i j output output' since since' k k', ReturnedWith env nodeAddress s i output since k →
      ReturnedWith env nodeAddress s j output' since' k' →
      ((requests i).goal nodeAddress ≠ (requests j).goal nodeAddress → k ≠ k') ∧
      ((requests i).goal nodeAddress = (requests j).goal nodeAddress →
        since ≤ since' → since' ≤ k → k = k') := by
  intro s
  refine ⟨fun i output hdone => returnedWith_of_done hdone, ?_⟩
  intro i j output output' since since' k k' hi hj
  obtain ⟨event, hfirst, -⟩ := hi.seen
  obtain ⟨event', hfirst', -⟩ := hj.seen
  refine ⟨fun hne => ?_, fun heq => ?_⟩
  · refine hfirst.ne hfirst' fun e he => ?_
    by_contra he'
    exact hne (Goal.eq_of_met he (Bool.eq_true_of_not_eq_false he'))
  · rw [← heq] at hfirst'
    exact hfirst.eq hfirst'

end Concurrent

end HoprApi.Node
