import HoprApi.Node.ChannelOperations

/-!
# The event waits of the channel operations

A channel operation subscribes to its event before it submits its transaction, so it does not miss
it, and it succeeds only with it (`operations_follow_event`).  It leaves its waiter running where
the submission fails, and nowhere else (`no_waiter_left_iff`).
-/

namespace HoprApi.Node

open HoprApi.Rust HoprApi.Chain HoprApi.Lib.Waiters

variable {X η ω T : Type}

def runOperation (env : ChainEnv η ω) (op : ChannelOperation X η ω T) (log : List (ChainEvent X))
    (moves : List (Move (ChainEvent X) (EitherErr η ω))) : OperationState X η ω T :=
  (System.start log op).run env moves

theorem stage_runOperation (env : ChainEnv η ω) (predicate : ChainEvent X → Bool)
    (tx : Transaction) (finish : Hash → ChainEvent X → Outcome η ω T) (log : List (ChainEvent X))
    (moves : List (Move (ChainEvent X) (EitherErr η ω))) :
    Stage env predicate tx finish
      (runOperation env (channelOperation predicate tx finish) log moves) ∧
    Sound (runOperation env (channelOperation predicate tx finish) log moves) :=
  ⟨stage_run env predicate tx finish log moves, sound_run env log _ moves⟩

/-! ### What is left of a failed operation -/

/-- Where the operation has returned an error, its waiters have stopped. -/
def LeavesNoWaiter (env : ChainEnv η ω) (op : ChannelOperation X η ω T) : Prop :=
  ∀ log moves err, (runOperation env op log moves).proc = .done (.returned (.error err)) →
    ∀ w ∈ (runOperation env op log moves).waiters, w.Stopped

/-- The waiter is spawned, and then the transaction is not submitted. -/
def SubmissionFails (env : ChainEnv η ω) (tx : Transaction) : Prop :=
  Spawns env ∧ ∃ err, env.Answers (.submit tx) (.error err)

section Leaks

variable {env : ChainEnv η ω} {predicate : ChainEvent X → Bool} {tx : Transaction}
  {finish : Hash → ChainEvent X → Outcome η ω T}

variable (predicate finish) in
theorem run_of_submissionFails (h : SubmissionFails env tx) :
    ∃ timeout err, runOperation env (channelOperation predicate tx finish) []
      [.poll, .poll, .poll] =
        ⟨[], [⟨0, predicate, timeout, .running⟩], [.typicalResolutionTime, .submit tx],
          .done (.returned (.error (.left err)))⟩ := by
  obtain ⟨⟨time, timeout, ⟨hasked, htime⟩, htimeout, hadmits⟩, err, ⟨hanswered, hsubmit⟩⟩ := h
  refine ⟨timeout, err, ?_⟩
  simp only [runOperation, run_cons, System.step, System.start, System.poll, channelOperation,
    waitForEvent, submitTransaction, hasked, htime, htimeout, hadmits, hanswered, hsubmit, if_true,
    System.resume, System.spawn]
  rfl

theorem leavesNoWaiter_iff :
    LeavesNoWaiter env (channelOperation predicate tx finish) ↔ ¬ SubmissionFails env tx := by
  constructor
  · intro h hfails
    obtain ⟨timeout, err, hrun⟩ := run_of_submissionFails predicate finish hfails
    have hstopped := h [] [.poll, .poll, .poll] (.left err)
    rw [hrun] at hstopped
    exact hstopped rfl _ (List.mem_singleton_self _) rfl
  · intro hfails log moves err hdone
    obtain ⟨hstage, -⟩ := stage_runOperation env predicate tx finish log moves
    generalize runOperation env (channelOperation predicate tx finish) log moves = s at *
    intro w hw
    cases hstage with
    | asking | spawning | submitting | confirming | aborting | waiting | overflown => cases hdone
    | refused => cases hw
    | unsubmitted _ hspawns _ hsubmit => exact absurd ⟨hspawns, _, hsubmit⟩ hfails
    | unconfirmed _ hstopped _ =>
      rw [List.mem_singleton.1 hw]
      exact hstopped
    | unseen _ _ hfailed _ =>
      rw [List.mem_singleton.1 hw]
      exact stopped_of_failed hfailed
    | seen _ _ hresolved _ =>
      rw [List.mem_singleton.1 hw]
      exact stopped_of_resolved hresolved

end Leaks

section NoWaiter

/-- **When a failed channel operation leaves no waiter behind.** -/
theorem no_waiter_left_iff [GenerateChannelId] (env : ChainEnv η ω) (nodeAddress destination : Address)
    (channelId : ChannelId) (amount : HoprBalance) :
    (LeavesNoWaiter (X := X) env (openChannel nodeAddress destination amount) ↔
      ¬ SubmissionFails env (.openChannel destination amount)) ∧
    (LeavesNoWaiter (X := X) env (fundChannel channelId amount) ↔
      ¬ SubmissionFails env (.fundChannel channelId amount)) ∧
    (LeavesNoWaiter (X := X) env (closeChannelById channelId) ↔
      ¬ SubmissionFails env (.closeChannel channelId)) :=
  ⟨leavesNoWaiter_iff, leavesNoWaiter_iff, leavesNoWaiter_iff⟩

/-- A chain that resolves within a nanosecond and takes no transaction. -/
def refusingChain : ChainEnv Unit Unit where
  resolves _ := true
  answer
    | .typicalResolutionTime => .ok 1
    | .submit _ => .error ()
    | .confirm _ => .error ()
  admits _ := .ok ()
  aborted := .right ()

theorem refused_submission_leaves_waiter :
    letI : GenerateChannelId := ⟨fun source _ => source.setWidth 256⟩
    ¬ LeavesNoWaiter (X := Unit) refusingChain (openChannel 1 2 10) ∧
    ¬ LeavesNoWaiter (X := Unit) refusingChain (fundChannel 1 10) ∧
    ¬ LeavesNoWaiter (X := Unit) refusingChain (closeChannelById 1) := by
  let : GenerateChannelId := ⟨fun source _ => source.setWidth 256⟩
  refine ⟨fun h => ?_, fun h => ?_, fun h => ?_⟩
  · exact h [] [.poll, .poll, .poll] (.left ()) rfl _ (List.mem_singleton_self _) rfl
  · exact h [] [.poll, .poll, .poll] (.left ()) rfl _ (List.mem_singleton_self _) rfl
  · exact h [] [.poll, .poll, .poll] (.left ()) rfl _ (List.mem_singleton_self _) rfl

end NoWaiter

/-! ### What completes an operation -/

def Succeeds (env : ChainEnv η ω) (tx : Transaction) : Prop :=
  env.Answers (.submit tx) (.ok ()) ∧ ∃ txHash, env.Answers (.confirm tx) (.ok txHash)

def InTime (s : OperationState X η ω T) : Prop :=
  ∀ w ∈ s.waiters, ∀ err, w.progress ≠ .failed err

theorem inTime_of_running {s : OperationState X η ω T}
    {w : Waiter (ChainEvent X) Duration (EitherErr η ω)}
    (hw : s.waiters = [w]) (h : w.progress = .running) : InTime s := by
  intro w' hw' err hfailed
  rw [hw, List.mem_singleton] at hw'
  rw [hw', h] at hfailed
  cases hfailed

/-- Where the transaction succeeds, a completing event that is appended at any time after the
submission and before the timeout has the operation return within three more steps. -/
def NeverMisses (env : ChainEnv η ω) (op : ChannelOperation X η ω T) (tx : Transaction)
    (Completes : ChainEvent X → Prop) : Prop :=
  Succeeds env tx → ∀ log before event after,
    .submit tx ∈ (runOperation env op log before).calls → InTime (runOperation env op log before) →
    Completes event → 3 ≤ polls after →
    ∃ output, (runOperation env op log (before ++ .append event :: after)).proc =
      .done (.returned (.ok output))

/-- The transaction was confirmed with the given hash, and the given event was the first one
appended since the subscription for which the operation waits. -/
def CompletedBy (env : ChainEnv η ω) (tx : Transaction) (predicate : ChainEvent X → Bool)
    (s : OperationState X η ω T) (txHash : Hash) (event : ChainEvent X) : Prop :=
  (.confirm tx ∈ s.calls ∧ env.Answers (.confirm tx) (.ok txHash)) ∧
    ∃ w ∈ s.waiters, w.progress = .resolved event ∧
      (s.log.drop w.since).find? predicate = some event

/-- Every output that the operation returns comes with its confirmed transaction and an event, which
give it. -/
def SucceedsOnlyWith (env : ChainEnv η ω) (op : ChannelOperation X η ω T) (tx : Transaction)
    (predicate : ChainEvent X → Bool) (Gives : ChainEvent X → Option T → Prop) : Prop :=
  ∀ log moves output, (runOperation env op log moves).proc = .done (.returned (.ok output)) →
    ∃ event, CompletedBy env tx predicate (runOperation env op log moves) output.txHash event ∧
      Gives event output.output

theorem CompletedBy.satisfied {env : ChainEnv η ω} {tx : Transaction}
    {predicate : ChainEvent X → Bool} {s : OperationState X η ω T} {txHash : Hash}
    {event : ChainEvent X} (h : CompletedBy env tx predicate s txHash event) :
    predicate event = true := by
  obtain ⟨-, w, -, -, hfind⟩ := h
  exact List.find?_some hfind

section Completion

variable {env : ChainEnv η ω} {predicate : ChainEvent X → Bool} {tx : Transaction}
  {finish : Hash → ChainEvent X → Outcome η ω T}

/-- An operation that has returned an output, or has panicked at its last step, has been completed
by an event. -/
theorem completedBy_of_done {log : List (ChainEvent X)}
    {moves : List (Move (ChainEvent X) (EitherErr η ω))} {r : Outcome η ω T}
    (hdone : (runOperation env (channelOperation predicate tx finish) log moves).proc = .done r)
    (herr : ∀ err, r ≠ .returned (.error err)) (hoverflow : r ≠ .overflow) :
    ∃ txHash event, r = finish txHash event ∧
      CompletedBy env tx predicate
        (runOperation env (channelOperation predicate tx finish) log moves) txHash event := by
  obtain ⟨hstage, hsound⟩ := stage_runOperation env predicate tx finish log moves
  generalize runOperation env (channelOperation predicate tx finish) log moves = s at *
  cases hstage with
  | asking | spawning | submitting | confirming | aborting | waiting => cases hdone
  | refused | unsubmitted | unconfirmed | unseen =>
    cases hdone
    exact absurd rfl (herr _)
  | overflown =>
    cases hdone
    exact absurd rfl hoverflow
  | @seen log w event txHash hw hresolved hconfirm =>
    cases hdone
    refine ⟨txHash, event, rfl, ⟨?_, hconfirm⟩, w, List.mem_singleton_self w, hresolved, ?_⟩
    · exact .tail _ (.tail _ (.head _))
    · exact hw.find (hsound w (List.mem_singleton_self w)) hresolved

/-- The steps that an operation has left once its waiter has resolved. -/
inductive Left (tx : Transaction) (finish : Hash → ChainEvent X → Outcome η ω T)
    (event : ChainEvent X) : ℕ → ChannelOperation X η ω T → Prop
  | submitting : Left tx finish event 3 (submitTransaction tx finish 0)
  | confirming : Left tx finish event 2 (awaitConfirmation tx finish 0)
  | waiting (txHash) : Left tx finish event 1 (awaitEvent finish 0 txHash)
  | done (txHash) : Left tx finish event 0 (.done (finish txHash event))

structure Due (tx : Transaction) (finish : Hash → ChainEvent X → Outcome η ω T)
    (event : ChainEvent X) (n : ℕ) (s : OperationState X η ω T) : Prop where
  resolved : ∃ w, s.waiters = [w] ∧ w.progress = .resolved event
  left : Left tx finish event n s.proc

namespace Due

variable {event : ChainEvent X} {n : ℕ} {s s' : OperationState X η ω T}

theorem interfere (h : Due tx finish event n s) (hs : Interferes s s') :
    Due tx finish event n s' := by
  obtain ⟨w, hw, hresolved⟩ := h.resolved
  obtain ⟨w', hw', hev⟩ := hs.singleton hw
  rw [hev.eq_of_stopped (stopped_of_resolved hresolved)] at hw'
  exact ⟨⟨w, hw', hresolved⟩, hs.proc ▸ h.left⟩

theorem poll (hsucceeds : Succeeds env tx) (h : Due tx finish event n s) :
    Due tx finish event (n - 1) (s.poll env) := by
  obtain ⟨hsubmit, txHash, hconfirm⟩ := hsucceeds
  obtain ⟨log, waiters, calls, proc⟩ := s
  obtain ⟨⟨w, rfl, hresolved⟩, hleft⟩ := h
  cases hleft with
  | submitting =>
    rw [poll_call rfl hsubmit]
    exact ⟨⟨w, rfl, hresolved⟩, .confirming⟩
  | confirming =>
    rw [poll_call rfl hconfirm]
    exact ⟨⟨w, rfl, hresolved⟩, .waiting txHash⟩
  | waiting txHash =>
    rw [poll_await (w := w) rfl rfl]
    simp only [Waiter.output, hresolved]
    exact ⟨⟨w, rfl, hresolved⟩, .done txHash⟩
  | done txHash => exact ⟨⟨w, rfl, hresolved⟩, .done txHash⟩

theorem done (h : Due tx finish event 0 s) :
    ∃ txHash, s.proc = .done (finish txHash event) := by
  obtain ⟨log, waiters, calls, proc⟩ := s
  obtain ⟨-, hleft⟩ := h
  cases hleft with
  | done txHash => exact ⟨txHash, rfl⟩

end Due

theorem due_of_append (hsucceeds : Succeeds env tx) {log : List (ChainEvent X)}
    {moves : List (Move (ChainEvent X) (EitherErr η ω))}
    (hsubmitted : .submit tx ∈
      (runOperation env (channelOperation predicate tx finish) log moves).calls)
    (hintime : InTime (runOperation env (channelOperation predicate tx finish) log moves))
    {event : ChainEvent X} (hevent : predicate event = true) :
    ∃ n ≤ 3, ∃ event', predicate event' = true ∧ Due tx finish event' n
      ((runOperation env (channelOperation predicate tx finish) log moves).step env
        (.append event)) := by
  obtain ⟨hstage, hsound⟩ := stage_runOperation env predicate tx finish log moves
  generalize runOperation env (channelOperation predicate tx finish) log moves = s at *
  obtain ⟨⟨-, hsubmit⟩, txHash, ⟨-, hconfirm⟩⟩ := hsucceeds
  -- what the waiter has resolved with, if it has not been aborted
  have hsees : ∀ w ∈ s.waiters, Watches predicate w →
      ∃ event', predicate event' = true ∧ (w.see event).progress = .resolved event' := by
    intro w hw hwatches
    have hpred : w.predicate event = true := by rw [hwatches.predicate_eq, hevent]
    obtain ⟨event', hresolved⟩ := see_resolved (hintime w hw) hwatches.not_aborted hpred
    refine ⟨event', ?_, hresolved⟩
    exact (hwatches.evolves (.see event)).satisfied ((hsound w hw).see event) hresolved
  cases hstage with
  | asking | spawning | refused | overflown => simp at hsubmitted
  | submitting _ _ hw =>
    obtain ⟨event', hevent', hresolved⟩ := hsees _ (List.mem_singleton_self _) hw
    exact ⟨3, by omega, event', hevent', ⟨_, rfl, hresolved⟩, .submitting⟩
  | confirming _ hw _ =>
    obtain ⟨event', hevent', hresolved⟩ := hsees _ (List.mem_singleton_self _) hw
    exact ⟨2, by omega, event', hevent', ⟨_, rfl, hresolved⟩, .confirming⟩
  | waiting _ hw _ =>
    obtain ⟨event', hevent', hresolved⟩ := hsees _ (List.mem_singleton_self _) hw
    exact ⟨1, by omega, event', hevent', ⟨_, rfl, hresolved⟩, .waiting _⟩
  | @seen _ w event' _ hw hresolved _ =>
    have hsee : (w.see event).progress = .resolved event' := by
      rw [see_of_stopped (stopped_of_resolved hresolved), hresolved]
    exact ⟨0, by omega, event', hw.satisfied (hsound w (List.mem_singleton_self w)) hresolved,
      ⟨_, rfl, hsee⟩, .done _⟩
  | aborting _ _ herr | unconfirmed _ _ herr =>
    have := hconfirm.symm.trans herr.2
    cases this
  | unsubmitted _ _ _ herr =>
    have := hsubmit.symm.trans herr.2
    cases this
  | unseen _ _ hfailed _ => exact absurd hfailed (hintime _ (List.mem_singleton_self _) _)

theorem neverMisses {Completes : ChainEvent X → Prop}
    (hcompletes : ∀ event, Completes event → predicate event = true)
    (hfinish : ∀ txHash event, predicate event = true →
      ∃ output, finish txHash event = .returned (.ok output)) :
    NeverMisses env (channelOperation predicate tx finish) tx Completes := by
  intro hsucceeds log before event after hsubmitted hintime hevent hpolls
  obtain ⟨n, hn, event', hevent', hdue⟩ :=
    due_of_append hsucceeds hsubmitted hintime (hcompletes event hevent)
  have hlast := run_countdown (P := Due tx finish event') (fun _ _ h => h.poll hsucceeds)
    (fun _ _ _ hs h => h.interfere hs) hdue after
  have hzero : n - polls after = 0 := by omega
  rw [hzero] at hlast
  unfold runOperation at hlast ⊢
  rw [run_append, run_cons]
  obtain ⟨txHash, hdone⟩ := hlast.done
  obtain ⟨output, hout⟩ := hfinish txHash event' hevent'
  exact ⟨output, by rw [hdone, hout]⟩

theorem succeedsOnlyWith {Gives : ChainEvent X → Option T → Prop}
    (hgives : ∀ txHash event output, predicate event = true →
      finish txHash event = .returned (.ok output) →
        output.txHash = txHash ∧ Gives event output.output) :
    SucceedsOnlyWith env (channelOperation predicate tx finish) tx predicate Gives := by
  intro log moves output hdone
  obtain ⟨txHash, event, hout, hcompleted⟩ := completedBy_of_done hdone
    (fun err h => by cases h) (fun h => by cases h)
  obtain ⟨rfl, hgiven⟩ := hgives txHash event output hcompleted.satisfied hout.symm
  exact ⟨event, hcompleted, hgiven⟩

end Completion

section FollowEvent

theorem closeChannelById_not_unreachable (env : ChainEnv η ω) (channelId : ChannelId)
    (log : List (ChainEvent X)) (moves : List (Move (ChainEvent X) (EitherErr η ω))) :
    (runOperation env (closeChannelById channelId) log moves).proc ≠ .done .unreachable := by
  intro hdone
  obtain ⟨txHash, event, hout, hcompleted⟩ := completedBy_of_done hdone
    (fun err h => by cases h) (fun h => by cases h)
  -- the predicate and the match agree on the events
  obtain ⟨c, rfl | rfl, -⟩ := isClosed_iff.1 hcompleted.satisfied
  · cases hout
  · cases hout

/-- **Channel operations neither miss their own event nor succeed without it.** -/
theorem operations_follow_event [GenerateChannelId] (env : ChainEnv η ω)
    (nodeAddress destination : Address) (channelId : ChannelId) (amount : HoprBalance) :
    -- an event in time completes the operation
    NeverMisses (X := X) env (openChannel nodeAddress destination amount)
      (.openChannel destination amount)
      (fun event => ∃ c, event = .channelOpened c ∧
        c.id = generateChannelId nodeAddress destination) ∧
    NeverMisses (X := X) env (fundChannel channelId amount) (.fundChannel channelId amount)
      (fun event => ∃ c, event = .channelBalanceIncreased c amount ∧ c.id = channelId) ∧
    NeverMisses (X := X) env (closeChannelById channelId) (.closeChannel channelId)
      (fun event => ∃ c, (event = .channelClosureInitiated c ∨ event = .channelClosed c) ∧
        c.id = channelId) ∧
    -- and nothing else does
    SucceedsOnlyWith (X := X) env (openChannel nodeAddress destination amount)
      (.openChannel destination amount) (isOpened (generateChannelId nodeAddress destination))
      (fun event output => (∃ c, event = .channelOpened c ∧
        c.id = generateChannelId nodeAddress destination) ∧
          output = some (generateChannelId nodeAddress destination)) ∧
    SucceedsOnlyWith (X := X) env (fundChannel channelId amount) (.fundChannel channelId amount)
      (isFunded channelId amount)
      (fun event output => (∃ c, event = .channelBalanceIncreased c amount ∧
        c.id = channelId) ∧ output = none) ∧
    SucceedsOnlyWith (X := X) env (closeChannelById channelId) (.closeChannel channelId)
      (isClosed channelId)
      (fun event output => ∃ c, (event = .channelClosureInitiated c ∨ event = .channelClosed c) ∧
        c.id = channelId ∧ output = some c.status) ∧
    ∀ (log : List (ChainEvent X)) moves,
      (runOperation env (closeChannelById channelId) log moves).proc ≠ .done .unreachable := by
  refine ⟨?_, ?_, ?_, ?_, ?_, ?_, closeChannelById_not_unreachable env channelId⟩
  · exact neverMisses (fun _ => isOpened_iff.2) fun txHash _ _ => ⟨_, rfl⟩
  · exact neverMisses (fun _ => isFunded_iff.2) fun txHash _ _ => ⟨_, rfl⟩
  · refine neverMisses (fun _ => isClosed_iff.2) fun txHash event hevent => ?_
    obtain ⟨c, rfl | rfl, -⟩ := isClosed_iff.1 hevent
    · exact ⟨_, rfl⟩
    · exact ⟨_, rfl⟩
  · refine succeedsOnlyWith fun txHash event output hevent hout => ?_
    cases hout
    exact ⟨rfl, isOpened_iff.1 hevent, rfl⟩
  · refine succeedsOnlyWith fun txHash event output hevent hout => ?_
    cases hout
    exact ⟨rfl, isFunded_iff.1 hevent, rfl⟩
  · refine succeedsOnlyWith fun txHash event output hevent hout => ?_
    obtain ⟨c, hc, hid⟩ := isClosed_iff.1 hevent
    refine ⟨?_, c, hc, hid, ?_⟩
    · rcases hc with rfl | rfl <;> cases hout <;> rfl
    · rcases hc with rfl | rfl <;> cases hout <;> rfl

/-- A chain that confirms every transaction. -/
def confirmingChain : ChainEnv Unit Unit where
  resolves _ := true
  answer
    | .typicalResolutionTime => .ok 1
    | .submit _ => .ok ()
    | .confirm _ => .ok 7
  admits _ := .ok ()
  aborted := .right ()

/-- An event that is there before the transaction is confirmed completes the operation, and is what
completes it. -/
theorem operations_follow_event_confirming :
    letI : GenerateChannelId := ⟨fun source _ => source.setWidth 256⟩
    let inTime : ChainEvent Unit → List (Move (ChainEvent Unit) (EitherErr Unit Unit)) := fun event =>
      [.poll, .poll] ++ .append event :: [.poll, .poll, .expire 0 (.right ()), .poll]
    (∃ output, (runOperation confirmingChain (openChannel 1 2 10) []
      (inTime (.channelOpened ⟨1, 2, .open, 1⟩))).proc = .done (.returned (.ok output))) ∧
    (∃ output, (runOperation confirmingChain (fundChannel 1 10) []
      (inTime (.channelBalanceIncreased ⟨1, 2, .open, 1⟩ 10))).proc =
        .done (.returned (.ok output))) ∧
    (∃ output, (runOperation confirmingChain (closeChannelById 1) []
      (inTime (.channelClosed ⟨1, 2, .closed, 1⟩))).proc = .done (.returned (.ok output))) ∧
    ∃ event, CompletedBy confirmingChain (.openChannel 2 10) (isOpened 1)
      (runOperation confirmingChain (openChannel 1 2 10) []
        (inTime (.channelOpened ⟨1, 2, .open, 1⟩))) 7 event := by
  let : GenerateChannelId := ⟨fun source _ => source.setWidth 256⟩
  intro inTime
  obtain ⟨hopen, hfund, hclose, honly, -⟩ :=
    operations_follow_event (X := Unit) confirmingChain 1 2 1 10
  have hsucceeds : ∀ tx, Succeeds confirmingChain tx := fun tx => ⟨⟨rfl, rfl⟩, 7, rfl, rfl⟩
  refine ⟨?_, ?_, ?_, ?_⟩
  · exact hopen (hsucceeds _) [] [.poll, .poll] _ _ (.tail _ (.head _)) (inTime_of_running rfl rfl)
      ⟨_, rfl, rfl⟩ (by decide)
  · exact hfund (hsucceeds _) [] [.poll, .poll] _ _ (.tail _ (.head _)) (inTime_of_running rfl rfl)
      ⟨_, rfl, rfl⟩ (by decide)
  · exact hclose (hsucceeds _) [] [.poll, .poll] _ _ (.tail _ (.head _)) (inTime_of_running rfl rfl)
      ⟨_, Or.inr rfl, rfl⟩ (by decide)
  · obtain ⟨event, hcompleted, -⟩ :=
      honly [] (inTime (.channelOpened ⟨1, 2, .open, 1⟩)) ⟨7, some 1⟩ rfl
    exact ⟨event, hcompleted⟩

end FollowEvent

end HoprApi.Node
