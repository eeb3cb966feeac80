import HoprApi.Lib.Waiters
import HoprApi.Node.Redeem

/-!
# Opening, funding and closing channels

`open_channel`, `fund_channel` and `close_channel_by_id` spawn a waiter for the event of the chain
that completes them, submit a transaction, await its confirmation and then the event.  They differ
in the transaction, the event and what they return, so they are instances of one process.  `Stage`
says what holds at each of its suspensions; the rest is read off it.
-/

namespace HoprApi.Node

open HoprApi.Rust HoprApi.Chain HoprApi.Lib.Waiters

/-! ### The chain -/

abbrev Hash := BitVec 256

/-- The events of the chain that the operations wait for, and the others. -/
inductive ChainEvent (X : Type) where
  | channelOpened (channel : ChannelEntry)
  | channelBalanceIncreased (channel : ChannelEntry) (amount : HoprBalance)
  | channelClosureInitiated (channel : ChannelEntry)
  | channelClosed (channel : ChannelEntry)
  | other (x : X)

/-- The transactions of `ChainWriteChannelOperations`. -/
inductive Transaction where
  | openChannel (dst : Address) (amount : HoprBalance)
  | fundChannel (channelId : ChannelId) (amount : HoprBalance)
  | closeChannel (channelId : ChannelId)
  deriving DecidableEq

/-- The calls of the chain that an operation awaits, each for as long as it is pending.  A transaction
is awaited twice: until it is submitted, and then until it is confirmed. -/
inductive ChainCall where
  | typicalResolutionTime
  | submit (tx : Transaction)
  | confirm (tx : Transaction)
  deriving DecidableEq

abbrev ChainCall.Answer (η : Type) : ChainCall → Type
  | .typicalResolutionTime => Except η Duration
  | .submit _ => Except η Unit
  | .confirm _ => Except η Hash

structure ChainOutput (T : Type) where
  txHash : Hash
  output : Option T
  deriving DecidableEq

def ChainOutput.new {T : Type} (txHash : Hash) (output : T) : ChainOutput T := ⟨txHash, some output⟩

def ChainOutput.newEmpty (txHash : Hash) : ChainOutput Unit := ⟨txHash, none⟩

inductive Outcome (η ω T : Type) where
  | returned (result : Except (EitherErr η ω) (ChainOutput T))
  /-- The multiplication of the typical resolution time panics. -/
  | overflow
  /-- The `unreachable!` arm panics. -/
  | unreachable
  deriving DecidableEq

/-- An operation that ends with a `T`, on a chain with errors `η` for a node with errors `ω`. -/
abbrev ChannelOperation (X η ω T : Type) :=
  Proc ChainCall (ChainCall.Answer η) (ChainEvent X) Duration η (EitherErr η ω) (Outcome η ω T)

/-- Which calls the chain answers and what, which waiters the node spawns, and the error of an aborted
one. -/
abbrev ChainEnv (η ω : Type) := Env ChainCall (ChainCall.Answer η) Duration η (EitherErr η ω)

abbrev OperationState (X η ω T : Type) :=
  System ChainCall (ChainCall.Answer η) (ChainEvent X) Duration η (EitherErr η ω) (Outcome η ω T)

variable {X η ω T : Type}

/-! ### The operations -/

/-- Timeout multiplier applied to the typical resolution time. -/
def chainOperationTimeoutMultiplier : ℕ := 2

section Operation

variable (predicate : ChainEvent X → Bool) (tx : Transaction)
  (finish : Hash → ChainEvent X → Outcome η ω T)

def awaitEvent (waiter : ℕ) (txHash : Hash) : ChannelOperation X η ω T :=
  .await waiter fun event =>
    match event with
    | .error err => .done (.returned (.error err))
    | .ok event => .done (finish txHash event)

/-- Awaits the confirmation of a submitted transaction; a failed one aborts the waiter. -/
def awaitConfirmation (waiter : ℕ) : ChannelOperation X η ω T :=
  .call (.confirm tx) fun (confirmation : Except η Hash) =>
    match confirmation with
    | .error err => .abort waiter (.done (.returned (.error (.left err))))
    | .ok txHash => awaitEvent finish waiter txHash

def submitTransaction (waiter : ℕ) : ChannelOperation X η ω T :=
  .call (.submit tx) fun (submission : Except η Unit) =>
    match submission with
    -- here the waiter is left as it is
    | .error err => .done (.returned (.error (.left err)))
    | .ok () => awaitConfirmation tx finish waiter

def waitForEvent (timeout : Duration) : ChannelOperation X η ω T :=
  .spawn predicate timeout fun waiter =>
    match waiter with
    | .error err => .done (.returned (.error (.left err)))
    | .ok waiter => submitTransaction tx finish waiter

/-- The steps that the three operations share. -/
def channelOperation : ChannelOperation X η ω T :=
  .call .typicalResolutionTime fun (time : Except η Duration) =>
    match time with
    | .error err => .done (.returned (.error (.left err)))
    | .ok time =>
      match time.checkedMul chainOperationTimeoutMultiplier with
      | none => .done .overflow
      | some timeout => waitForEvent predicate tx finish timeout

end Operation

section Operations

def isOpened (channelId : ChannelId) : ChainEvent X → Bool
  | .channelOpened c => decide (c.id = channelId)
  | _ => false

def isFunded (channelId : ChannelId) (amount : HoprBalance) : ChainEvent X → Bool
  | .channelBalanceIncreased c a => decide (c.id = channelId) && decide (a = amount)
  | _ => false

def isClosed (channelId : ChannelId) : ChainEvent X → Bool
  | .channelClosed c => decide (c.id = channelId)
  | .channelClosureInitiated c => decide (c.id = channelId)
  | _ => false

def openedOutcome (channelId : ChannelId) (txHash : Hash) (_ : ChainEvent X) :
    Outcome η ω ChannelId :=
  .returned (.ok (.new txHash channelId))

def fundedOutcome (txHash : Hash) (_ : ChainEvent X) : Outcome η ω Unit :=
  .returned (.ok (.newEmpty txHash))

def closedOutcome (txHash : Hash) : ChainEvent X → Outcome η ω ChannelStatus
  | .channelClosureInitiated c => .returned (.ok (.new txHash c.status))
  | .channelClosed c => .returned (.ok (.new txHash c.status))
  | _ => .unreachable

/-- Opens a channel from the node to the given destination. -/
def openChannel [GenerateChannelId] (nodeAddress destination : Address) (amount : HoprBalance) :
    ChannelOperation X η ω ChannelId :=
  let channelId := generateChannelId nodeAddress destination
  channelOperation (isOpened channelId) (.openChannel destination amount) (openedOutcome channelId)

/-- Funds an existing channel. -/
def fundChannel (channelId : ChannelId) (amount : HoprBalance) : ChannelOperation X η ω Unit :=
  channelOperation (isFunded channelId amount) (.fundChannel channelId amount) fundedOutcome

/-- Initiates or finalizes the closure of a channel. -/
def closeChannelById (channelId : ChannelId) : ChannelOperation X η ω ChannelStatus :=
  channelOperation (isClosed channelId) (.closeChannel channelId) closedOutcome

theorem isOpened_iff {channelId : ChannelId} {event : ChainEvent X} :
    isOpened channelId event = true ↔ ∃ c, event = .channelOpened c ∧ c.id = channelId := by
  cases event <;> simp [isOpened]

theorem isFunded_iff {channelId : ChannelId} {amount : HoprBalance} {event : ChainEvent X} :
    isFunded channelId amount event = true ↔
      ∃ c, event = .channelBalanceIncreased c amount ∧ c.id = channelId := by
  cases event with
  | channelBalanceIncreased c a =>
    simp only [isFunded, Bool.and_eq_true, decide_eq_true_eq,
      ChainEvent.channelBalanceIncreased.injEq]
    constructor
    · rintro ⟨hid, rfl⟩
      exact ⟨c, ⟨rfl, rfl⟩, hid⟩
    · rintro ⟨c', ⟨rfl, rfl⟩, hid⟩
      exact ⟨hid, rfl⟩
  | _ => simp [isFunded]

theorem isClosed_iff {channelId : ChannelId} {event : ChainEvent X} :
    isClosed channelId event = true ↔
      ∃ c, (event = .channelClosureInitiated c ∨ event = .channelClosed c) ∧
        c.id = channelId := by
  cases event <;> simp [isClosed]

end Operations

/-! ### The stages of an operation -/

/-- The waiter of an operation, as long as nothing aborts it. -/
structure Watches (predicate : ChainEvent X → Bool)
    (w : Waiter (ChainEvent X) Duration (EitherErr η ω)) : Prop where
  predicate_eq : w.predicate = predicate
  not_aborted : w.progress ≠ .aborted

namespace Watches

variable {predicate : ChainEvent X → Bool} {w w' : Waiter (ChainEvent X) Duration (EitherErr η ω)}
  {log : List (ChainEvent X)} {event : ChainEvent X}

theorem evolves (h : Watches predicate w) (hw : w.Evolves w') : Watches predicate w' :=
  ⟨hw.predicate_eq.trans h.predicate_eq, hw.not_aborted h.not_aborted⟩

theorem find (h : Watches predicate w) (hsound : w.Sound log) (hw : w.progress = .resolved event) :
    (log.drop w.since).find? predicate = some event := by
  have := hsound.find_of_resolved hw
  rwa [h.predicate_eq] at this

theorem satisfied (h : Watches predicate w) (hsound : w.Sound log)
    (hw : w.progress = .resolved event) : predicate event = true :=
  List.find?_some (h.find hsound hw)

end Watches

section Stage

variable (env : ChainEnv η ω) (predicate : ChainEvent X → Bool) (tx : Transaction)
  (finish : Hash → ChainEvent X → Outcome η ω T)

/-- The waiter can be spawned: with the timeout that the typical resolution time gives. -/
def Spawns : Prop :=
  ∃ time timeout, env.Answers .typicalResolutionTime (.ok time) ∧
    time.checkedMul chainOperationTimeoutMultiplier = some timeout ∧ env.admits timeout = .ok ()

inductive Stage : OperationState X η ω T → Prop
  | asking (log) : Stage ⟨log, [], [.typicalResolutionTime], channelOperation predicate tx finish⟩
  | spawning (log) {time timeout : Duration} (htime : env.Answers .typicalResolutionTime (.ok time))
      (htimeout : time.checkedMul chainOperationTimeoutMultiplier = some timeout) :
      Stage ⟨log, [], [.typicalResolutionTime], waitForEvent predicate tx finish timeout⟩
  | submitting (log) {w} (hspawns : Spawns env) (hw : Watches predicate w) :
      Stage ⟨log, [w], [.typicalResolutionTime, .submit tx], submitTransaction tx finish 0⟩
  | confirming (log) {w} (hw : Watches predicate w) (hsubmit : env.Answers (.submit tx) (.ok ())) :
      Stage ⟨log, [w], [.typicalResolutionTime, .submit tx, .confirm tx],
        awaitConfirmation tx finish 0⟩
  | aborting (log) {w err} (hw : Watches predicate w)
      (hconfirm : env.Answers (.confirm tx) (.error err)) :
      Stage ⟨log, [w], [.typicalResolutionTime, .submit tx, .confirm tx],
        .abort 0 (.done (.returned (.error (.left err))))⟩
  | waiting (log) {w txHash} (hw : Watches predicate w)
      (hconfirm : env.Answers (.confirm tx) (.ok txHash)) :
      Stage ⟨log, [w], [.typicalResolutionTime, .submit tx, .confirm tx],
        awaitEvent finish 0 txHash⟩
  -- the ways in which it ends
  | refused (log err) : Stage ⟨log, [], [.typicalResolutionTime],
      .done (.returned (.error (.left err)))⟩
  | overflown (log) : Stage ⟨log, [], [.typicalResolutionTime], .done .overflow⟩
  | unsubmitted (log) {w err} (hspawns : Spawns env) (hw : Watches predicate w)
      (hsubmit : env.Answers (.submit tx) (.error err)) :
      Stage ⟨log, [w], [.typicalResolutionTime, .submit tx],
        .done (.returned (.error (.left err)))⟩
  | unconfirmed (log) {w err} (hw : w.Stopped) (hconfirm : env.Answers (.confirm tx) (.error err)) :
      Stage ⟨log, [w], [.typicalResolutionTime, .submit tx, .confirm tx],
        .done (.returned (.error (.left err)))⟩
  | unseen (log) {w err txHash} (hw : Watches predicate w) (hfailed : w.progress = .failed err)
      (hconfirm : env.Answers (.confirm tx) (.ok txHash)) :
      Stage ⟨log, [w], [.typicalResolutionTime, .submit tx, .confirm tx],
        .done (.returned (.error err))⟩
  | seen (log) {w event txHash} (hw : Watches predicate w)
      (hresolved : w.progress = .resolved event)
      (hconfirm : env.Answers (.confirm tx) (.ok txHash)) :
      Stage ⟨log, [w], [.typicalResolutionTime, .submit tx, .confirm tx],
        .done (finish txHash event)⟩

variable {env predicate tx finish} {s s' : OperationState X η ω T}

theorem Stage.interfere (h : Stage env predicate tx finish s) (hs : Interferes s s') :
    Stage env predicate tx finish s' := by
  obtain ⟨log, waiters, calls, proc⟩ := s'
  obtain ⟨hwaiters, hcalls, hproc⟩ := hs
  -- all but the log and the waiter are as before
  cases hcalls
  cases hproc
  cases h with
  | asking =>
    cases hwaiters
    exact .asking log
  | spawning _ htime htimeout =>
    cases hwaiters
    exact .spawning log htime htimeout
  | submitting _ hspawns hw =>
    obtain _ | ⟨hev, ⟨⟩⟩ := hwaiters
    exact .submitting log hspawns (hw.evolves hev)
  | confirming _ hw hsubmit =>
    obtain _ | ⟨hev, ⟨⟩⟩ := hwaiters
    exact .confirming log (hw.evolves hev) hsubmit
  | aborting _ hw hconfirm =>
    obtain _ | ⟨hev, ⟨⟩⟩ := hwaiters
    exact .aborting log (hw.evolves hev) hconfirm
  | waiting _ hw hconfirm =>
    obtain _ | ⟨hev, ⟨⟩⟩ := hwaiters
    exact .waiting log (hw.evolves hev) hconfirm
  | refused _ err =>
    cases hwaiters
    exact .refused log err
  | overflown =>
    cases hwaiters
    exact .overflown log
  | unsubmitted _ hspawns hw hsubmit =>
    obtain _ | ⟨hev, ⟨⟩⟩ := hwaiters
    exact .unsubmitted log hspawns (hw.evolves hev) hsubmit
  | unconfirmed _ hw hconfirm =>
    obtain _ | ⟨hev, ⟨⟩⟩ := hwaiters
    rw [hev.eq_of_stopped hw]
    exact .unconfirmed log hw hconfirm
  | unseen _ hw hfailed hconfirm =>
    obtain _ | ⟨hev, ⟨⟩⟩ := hwaiters
    rw [hev.eq_of_stopped (stopped_of_failed hfailed)]
    exact .unseen log hw hfailed hconfirm
  | seen _ hw hresolved hconfirm =>
    obtain _ | ⟨hev, ⟨⟩⟩ := hwaiters
    rw [hev.eq_of_stopped (stopped_of_resolved hresolved)]
    exact .seen log hw hresolved hconfirm

theorem Stage.poll (h : Stage env predicate tx finish s) :
    Stage env predicate tx finish (s.poll env) := by
  cases h with
  | asking log =>
    rcases poll_call_cases env (s := ⟨log, [], _, channelOperation predicate tx finish⟩) rfl with
      hhangs | ⟨err | time, htime, hpoll⟩
    · rw [hhangs.poll_eq]
      exact .asking log
    · rw [hpoll]
      exact .refused log err
    · rw [hpoll]
      rcases htimeout : time.checkedMul chainOperationTimeoutMultiplier with _ | timeout
      · simp only [htimeout]
        exact .overflown log
      · simp only [htimeout]
        exact .spawning log htime htimeout
  | @spawning log time timeout htime htimeout =>
    rcases hadmits : env.admits timeout with err | _
    · simp only [System.poll, waitForEvent, hadmits]
      exact .refused log err
    · simp only [System.poll, waitForEvent, hadmits]
      refine .submitting log ⟨time, timeout, htime, htimeout, hadmits⟩ ⟨rfl, ?_⟩
      intro h
      cases h
  | @submitting log w hspawns hw =>
    rcases poll_call_cases env (s := ⟨log, [w], _, submitTransaction tx finish 0⟩) rfl with
      hhangs | ⟨err | _, hsubmit, hpoll⟩
    · rw [hhangs.poll_eq]
      exact .submitting log hspawns hw
    · rw [hpoll]
      exact .unsubmitted log hspawns hw hsubmit
    · rw [hpoll]
      exact .confirming log hw hsubmit
  | @confirming log w hw hsubmit =>
    rcases poll_call_cases env (s := ⟨log, [w], _, awaitConfirmation tx finish 0⟩) rfl with
      hhangs | ⟨err | txHash, hconfirm, hpoll⟩
    · rw [hhangs.poll_eq]
      exact .confirming log hw hsubmit
    · rw [hpoll]
      exact .aborting log hw hconfirm
    · rw [hpoll]
      exact .waiting log hw hconfirm
  | aborting log hw hconfirm => exact .unconfirmed log abort_stopped hconfirm
  | @waiting log w txHash hw hconfirm =>
    rw [poll_await (w := w) rfl rfl]
    rcases hp : w.progress with _ | event | err | _
    · simp only [Waiter.output, hp]
      exact .waiting log hw hconfirm
    · simp only [Waiter.output, hp]
      exact .seen log hw hp hconfirm
    · simp only [Waiter.output, hp]
      exact .unseen log hw hp hconfirm
    · exact absurd hp hw.not_aborted
  | refused log err => exact .refused log err
  | overflown log => exact .overflown log
  | unsubmitted log hspawns hw hsubmit => exact .unsubmitted log hspawns hw hsubmit
  | unconfirmed log hw hconfirm => exact .unconfirmed log hw hconfirm
  | unseen log hw hfailed hconfirm => exact .unseen log hw hfailed hconfirm
  | seen log hw hresolved hconfirm => exact .seen log hw hresolved hconfirm

variable (env predicate tx finish) in
/-- **Every state of a run is at one of the stages.** -/
theorem stage_run (log : List (ChainEvent X)) (moves : List (Move (ChainEvent X) (EitherErr η ω))) :
    Stage env predicate tx finish
      ((System.start log (channelOperation predicate tx finish)).run env moves) :=
  run_invariant (P := Stage env predicate tx finish) (fun _ h => h.poll)
    (fun _ _ hs h => h.interfere hs) (.asking log) moves

end Stage

end HoprApi.Node
