import HoprApi.Lib.StraightLine
import HoprApi.Node.EventWaits

/-!
# How the channel operations end

Read from top to bottom, a channel operation is a sequence of fallible steps, the last of which is
the wait for its event (`reading`).  Whatever happens on the chain in between, a run of an operation
ends as it reads (`operations_read`), and it ends within three steps once the time of its waiter is
up (`operations_end`).
-/

namespace HoprApi.Node

open HoprApi.Rust HoprApi.Chain HoprApi.Lib.Waiters

variable {X η ω T : Type}

/-! ### The operations with their arguments -/

inductive Request where
  | openChannel (destination : Address) (amount : HoprBalance)
  | fundChannel (channelId : ChannelId) (amount : HoprBalance)
  | closeChannelById (channelId : ChannelId)
  deriving DecidableEq

namespace Request

abbrev Output : Request → Type
  | openChannel _ _ => ChannelId
  | fundChannel _ _ => Unit
  | closeChannelById _ => ChannelStatus

def tx : Request → Transaction
  | openChannel destination amount => .openChannel destination amount
  | fundChannel channelId amount => .fundChannel channelId amount
  | closeChannelById channelId => .closeChannel channelId

variable [GenerateChannelId] (nodeAddress : Address)

def operation : (request : Request) → ChannelOperation X η ω request.Output
  | openChannel destination amount => Node.openChannel nodeAddress destination amount
  | fundChannel channelId amount => Node.fundChannel channelId amount
  | closeChannelById channelId => Node.closeChannelById channelId

def completes : Request → ChainEvent X → Bool
  | openChannel destination _ => isOpened (generateChannelId nodeAddress destination)
  | fundChannel channelId amount => isFunded channelId amount
  | closeChannelById channelId => isClosed channelId

def finish : (request : Request) → Hash → ChainEvent X → Outcome η ω request.Output
  | openChannel destination _ => openedOutcome (generateChannelId nodeAddress destination)
  | fundChannel _ _ => fundedOutcome
  | closeChannelById _ => closedOutcome

theorem operation_eq (request : Request) :
    (request.operation nodeAddress : ChannelOperation X η ω request.Output) =
      channelOperation (request.completes nodeAddress) request.tx (request.finish nodeAddress) := by
  cases request <;> rfl

end Request

/-! ### The reading of an operation -/

section Reading

variable (env : ChainEnv η ω) (predicate : ChainEvent X → Bool) (tx : Transaction)
  (finish : Hash → ChainEvent X → Outcome η ω T)

/-- The operation as it reads, where the wait for its event gives `event`. -/
def reading (event : Except (EitherErr η ω) (ChainEvent X)) : Outcome η ω T :=
  match (env.answer .typicalResolutionTime : Except η Duration) with
  | .error err => .returned (.error (.left err))
  | .ok time =>
    match time.checkedMul chainOperationTimeoutMultiplier with
    | none => .overflow
    | some timeout =>
      match env.admits timeout with
      | .error err => .returned (.error (.left err))
      | .ok () =>
        match (env.answer (.submit tx) : Except η Unit) with
        | .error err => .returned (.error (.left err))
        | .ok () =>
          match (env.answer (.confirm tx) : Except η Hash) with
          | .error err => .returned (.error (.left err))
          | .ok txHash =>
            match event with
            | .error err => .returned (.error err)
            | .ok event => finish txHash event

/-- The waiter that a submitted transaction has: for the event of the operation, for twice the
typical resolution time. -/
def Watched (waiters : List ((ChainEvent X → Bool) × Duration)) : Prop :=
  ∃ time timeout, env.answer .typicalResolutionTime = .ok time ∧
    time.checkedMul chainOperationTimeoutMultiplier = some timeout ∧
    waiters = [(predicate, timeout)]

theorem read_submitTransaction (wait : ℕ → Except (EitherErr η ω) (ChainEvent X)) (waiter n : ℕ) :
    let r := (submitTransaction tx finish waiter).read env wait n
    r.result =
      (match (env.answer (.submit tx) : Except η Unit) with
      | .error err => .returned (.error (.left err))
      | .ok () =>
        match (env.answer (.confirm tx) : Except η Hash) with
        | .error err => .returned (.error (.left err))
        | .ok txHash =>
          match wait waiter with
          | .error err => .returned (.error err)
          | .ok event => finish txHash event) ∧
    r.calls <+: [.submit tx, .confirm tx] ∧ r.spawns = [] := by
  intro r
  rcases hsubmit : env.answer (.submit tx) with err | _
  · simp only [r, submitTransaction, Proc.read, hsubmit]
    exact ⟨trivial, ⟨_, rfl⟩, trivial⟩
  · rcases hconfirm : env.answer (.confirm tx) with err | txHash
    · simp only [r, submitTransaction, awaitConfirmation, Proc.read, hsubmit, hconfirm]
      exact ⟨trivial, ⟨_, rfl⟩, trivial⟩
    · rcases hevent : wait waiter with err | event
      all_goals
        simp only [r, submitTransaction, awaitConfirmation, awaitEvent, Proc.read, hsubmit,
          hconfirm, hevent]
        exact ⟨trivial, ⟨_, rfl⟩, trivial⟩

/-- **What a channel operation is, read from top to bottom.** -/
theorem read_channelOperation (wait : ℕ → Except (EitherErr η ω) (ChainEvent X)) :
    let r := (channelOperation predicate tx finish).read env wait 0
    r.result = reading env tx finish (wait 0) ∧
    r.calls <+: [.typicalResolutionTime, .submit tx, .confirm tx] ∧
    (.submit tx ∈ r.calls → Watched env predicate r.spawns) := by
  intro r
  rcases htime : env.answer .typicalResolutionTime with err | time
  · simp only [r, channelOperation, Proc.read, reading, htime]
    exact ⟨trivial, ⟨_, rfl⟩, fun h => by simp at h⟩
  · rcases htimeout : time.checkedMul chainOperationTimeoutMultiplier with _ | timeout
    · simp only [r, channelOperation, Proc.read, reading, htime, htimeout]
      exact ⟨trivial, ⟨_, rfl⟩, fun h => by simp at h⟩
    · rcases hadmits : env.admits timeout with err | _
      · simp only [r, channelOperation, waitForEvent, Proc.read, reading, htime, htimeout, hadmits]
        exact ⟨trivial, ⟨_, rfl⟩, fun h => by simp at h⟩
      · obtain ⟨hresult, hcalls, hspawns⟩ := read_submitTransaction env tx finish wait 0 1
        simp only [r, channelOperation, waitForEvent, Proc.read, reading, htime, htimeout, hadmits]
        refine ⟨hresult, (List.prefix_cons_inj _).2 hcalls, fun _ => ?_⟩
        exact ⟨time, timeout, htime, htimeout, by rw [hspawns]⟩

end Reading

/-! ### Runs -/

/-- The wait of an operation gave its first event since the subscription, or the time was up. -/
def Gave (predicate : ChainEvent X → Bool) (s : OperationState X η ω T)
    (event : Except (EitherErr η ω) (ChainEvent X)) : Prop :=
  ∃ w, s.waiters = [w] ∧
    match event with
    | .ok event => w.progress = .resolved event ∧ ∃ k, FirstAt s.log predicate w.since k event
    | .error err => w.progress = .failed err

def Confirmed (env : ChainEnv η ω) (tx : Transaction) (s : OperationState X η ω T) : Prop :=
  .confirm tx ∈ s.calls ∧ ∃ txHash, env.Answers (.confirm tx) (.ok txHash)

section Runs

variable {env : ChainEnv η ω} {predicate : ChainEvent X → Bool} {tx : Transaction}
  {finish : Hash → ChainEvent X → Outcome η ω T} {s : OperationState X η ω T}

theorem waiter_of_submitted (h : Stage env predicate tx finish s) (hsubmit : .submit tx ∈ s.calls) :
    ∃ w, s.waiters = [w] := by
  cases h with
  | asking | spawning | refused | overflown => simp at hsubmit
  | submitting | confirming | aborting | waiting | unsubmitted | unconfirmed | unseen | seen =>
    exact ⟨_, rfl⟩

theorem gave_of_confirmed (h : Stage env predicate tx finish s) (hsound : Sound s) {r : Outcome η ω T}
    (hdone : s.proc = .done r) (hconfirmed : Confirmed env tx s) :
    Gave predicate s (s.wait env 0) := by
  obtain ⟨hcall, txHash, -, hok⟩ := hconfirmed
  cases h with
  | asking | spawning | submitting | confirming | aborting | waiting => cases hdone
  | refused | overflown | unsubmitted => simp at hcall
  | unconfirmed _ _ hconfirm =>
    have := hok.symm.trans hconfirm.2
    cases this
  | @unseen log w err _ hw hfailed _ =>
    refine ⟨w, rfl, ?_⟩
    simp only [System.wait, List.getElem?_cons_zero, Option.bind_some, Waiter.output, hfailed,
      Option.getD_some]
  | @seen log w event _ hw hresolved _ =>
    obtain ⟨k, hk⟩ := (hsound w (List.mem_singleton_self w)).position hresolved
    rw [hw.predicate_eq] at hk
    refine ⟨w, rfl, ?_⟩
    simp only [System.wait, List.getElem?_cons_zero, Option.bind_some, Waiter.output, hresolved,
      Option.getD_some]
    exact ⟨trivial, k, hk⟩

end Runs

/-- **A run of a channel operation does what the operation reads**: it submits its transaction at
most once, and only under a waiter for its event; and it ends as it reads, with the first such event
since the subscription or the error of a wait whose time was up. -/
theorem operations_read [GenerateChannelId] (env : ChainEnv η ω) (nodeAddress : Address)
    (request : Request) (log : List (ChainEvent X))
    (moves : List (Move (ChainEvent X) (EitherErr η ω))) :
    let s := runOperation env (request.operation nodeAddress) log moves
    s.calls <+: [.typicalResolutionTime, .submit request.tx, .confirm request.tx] ∧
    (.submit request.tx ∈ s.calls →
      Watched env (request.completes nodeAddress) (s.waiters.map (·.key))) ∧
    ∀ r, s.proc = .done r →
      r = reading env request.tx (request.finish nodeAddress) (s.wait env 0) ∧
      (Confirmed env request.tx s → Gave (request.completes nodeAddress) s (s.wait env 0)) := by
  rw [Request.operation_eq]
  set predicate : ChainEvent X → Bool := request.completes nodeAddress
  set finish : Hash → ChainEvent X → Outcome η ω request.Output := request.finish nodeAddress
  intro s
  obtain ⟨hstage, hsound⟩ := stage_runOperation env predicate request.tx finish log moves
  have hagrees : Agrees env (s.wait env) s := agrees_wait env s
  obtain ⟨hresult, hcalls, hwatched⟩ := read_channelOperation env predicate request.tx finish
    (s.wait env)
  have hmade : s.calls <+:
      ((channelOperation predicate request.tx finish).read env (s.wait env) 0).calls :=
    calls_prefix log _ moves hagrees
  refine ⟨hmade.trans hcalls, fun hsubmit => ?_, fun r hdone => ⟨?_, ?_⟩⟩
  · obtain ⟨time, timeout, htime, htimeout, hspawns⟩ := hwatched (hmade.subset hsubmit)
    obtain ⟨w, hw⟩ := waiter_of_submitted hstage hsubmit
    -- the only waiter of the reading is the one of the state
    have hreached := (reached_run log _ moves hagrees).spawns
    change _ = s.waiters.map (·.key) ++ _ at hreached
    rw [hspawns, hw] at hreached
    obtain ⟨hkey, -⟩ := List.cons.inj hreached
    exact ⟨time, timeout, htime, htimeout, by rw [hw, List.map_singleton, hkey]⟩
  · rw [← hresult, read_run hdone hagrees]
  · exact gave_of_confirmed hstage hsound hdone

/-! ### The end of an operation -/

/-- The steps that an operation has left, and where it only waits for its event, `b` of them. -/
inductive StepsLeft (predicate : ChainEvent X → Bool) (tx : Transaction)
    (finish : Hash → ChainEvent X → Outcome η ω T) (b : ℕ) : ℕ → ChannelOperation X η ω T → Prop
  | asking : StepsLeft predicate tx finish b 5 (channelOperation predicate tx finish)
  | spawning (timeout) :
      StepsLeft predicate tx finish b 4 (waitForEvent predicate tx finish timeout)
  | submitting : StepsLeft predicate tx finish b 3 (submitTransaction tx finish 0)
  | confirming : StepsLeft predicate tx finish b 2 (awaitConfirmation tx finish 0)
  | aborting (r) : StepsLeft predicate tx finish b 1 (.abort 0 (.done r))
  | waiting (txHash) : StepsLeft predicate tx finish b b (awaitEvent finish 0 txHash)
  | done (r) : StepsLeft predicate tx finish b 0 (.done r)

section End

variable {env : ChainEnv η ω} {predicate : ChainEvent X → Bool} {tx : Transaction}
  {finish : Hash → ChainEvent X → Outcome η ω T} {s s' : OperationState X η ω T}

theorem StepsLeft.poll {b k : ℕ} (h : StepsLeft predicate tx finish b k s.proc)
    (hhangs : ¬ Hangs env s) (hnone : k = 4 → s.waiters = []) (hb : b ≤ 1)
    (hstopped : b = 1 → ∃ w, s.waiters = [w] ∧ w.Stopped) :
    ∃ k' ≤ k - 1, StepsLeft predicate tx finish b k' (s.poll env).proc := by
  obtain ⟨log, waiters, calls, proc⟩ := s
  cases h with
  | asking =>
    obtain ⟨err | time, -, hpoll⟩ := (poll_call_cases env rfl).resolve_left hhangs
    · rw [hpoll]
      exact ⟨0, by omega, .done _⟩
    · rw [hpoll]
      rcases htimeout : time.checkedMul chainOperationTimeoutMultiplier with _ | timeout
      · simp only [htimeout]
        exact ⟨0, by omega, .done _⟩
      · simp only [htimeout]
        exact ⟨4, by omega, .spawning timeout⟩
  | spawning timeout =>
    simp only [System.poll]
    split
    · exact ⟨0, by omega, .done _⟩
    · have hwaiters : waiters = [] := hnone rfl
      rw [hwaiters]
      exact ⟨3, by omega, .submitting⟩
  | submitting =>
    obtain ⟨err | _, -, hpoll⟩ := (poll_call_cases env rfl).resolve_left hhangs
    · rw [hpoll]
      exact ⟨0, by omega, .done _⟩
    · rw [hpoll]
      exact ⟨2, by omega, .confirming⟩
  | confirming =>
    obtain ⟨err | txHash, -, hpoll⟩ := (poll_call_cases env rfl).resolve_left hhangs
    · rw [hpoll]
      exact ⟨1, by omega, .aborting _⟩
    · rw [hpoll]
      exact ⟨b, by omega, .waiting txHash⟩
  | aborting r => exact ⟨0, by omega, .done r⟩
  | waiting txHash =>
    simp only [System.poll]
    split
    · split
      · exact ⟨0, by omega, .done _⟩
      · exact ⟨0, by omega, .done _⟩
    · next hrunning =>
      -- the waiter is running, so the wait is none of the steps
      obtain rfl | rfl : b = 0 ∨ b = 1 := by omega
      · exact ⟨0, by omega, .waiting txHash⟩
      · obtain ⟨w, hw, hw'⟩ := hstopped rfl
        have hwaiters : waiters = [w] := hw
        have hout : w.output env.aborted = none := by
          simpa only [hwaiters, List.getElem?_cons_zero, Option.bind_some] using hrunning
        exact absurd (output_eq_none hout) hw'
  | done r => exact ⟨0, by omega, .done r⟩

variable (env predicate tx finish) in
/-- The operation hangs, or at most `n` steps are left; the wait for the event is no step. -/
def Within (n : ℕ) (s : OperationState X η ω T) : Prop :=
  Stage env predicate tx finish s ∧
    (Hangs env s ∨ ∃ k ≤ n, StepsLeft predicate tx finish 0 k s.proc)

variable (env predicate tx finish) in
/-- The waiter has been spawned and has stopped; the operation hangs, or at most `n` steps are
left. -/
def Closing (n : ℕ) (s : OperationState X η ω T) : Prop :=
  (∃ w, s.waiters = [w] ∧ w.Stopped) ∧
    (Hangs env s ∨ ∃ k ≤ min n 3, StepsLeft predicate tx finish 1 k s.proc)

theorem Within.poll {n : ℕ} (h : Within env predicate tx finish n s) :
    Within env predicate tx finish (n - 1) (s.poll env) := by
  obtain ⟨hstage, hleft⟩ := h
  refine ⟨hstage.poll, ?_⟩
  by_cases hhangs : Hangs env s
  · rw [hhangs.poll_eq]
    exact Or.inl hhangs
  · obtain ⟨k, hk, hleft⟩ := hleft.resolve_left hhangs
    have hnone : k = 4 → s.waiters = [] := by
      rintro rfl
      obtain ⟨log, waiters, calls, proc⟩ := s
      cases hleft
      cases hstage
      rfl
    obtain ⟨k', hk', hleft'⟩ := hleft.poll hhangs hnone (by omega) (fun h => by cases h)
    exact Or.inr ⟨k', by omega, hleft'⟩

theorem Within.interfere {n : ℕ} (hs : Interferes s s') (h : Within env predicate tx finish n s) :
    Within env predicate tx finish n s' := by
  obtain ⟨hstage, hhangs | hleft⟩ := h
  · exact ⟨hstage.interfere hs, Or.inl (hhangs.interfere hs)⟩
  · exact ⟨hstage.interfere hs, Or.inr (hs.proc ▸ hleft)⟩

theorem Closing.poll {n : ℕ} (h : Closing env predicate tx finish n s) :
    Closing env predicate tx finish (n - 1) (s.poll env) := by
  by_cases hhangs : Hangs env s
  · rw [hhangs.poll_eq]
    exact ⟨h.1, Or.inl hhangs⟩
  · obtain ⟨⟨w, hw, hstopped⟩, hleft⟩ := h
    obtain ⟨k, hk, hleft⟩ := hleft.resolve_left hhangs
    obtain ⟨k', hk', hleft'⟩ :=
      hleft.poll hhangs (fun h => by omega) le_rfl fun _ => ⟨w, hw, hstopped⟩
    refine ⟨⟨w, ?_, hstopped⟩, Or.inr ⟨k', by omega, hleft'⟩⟩
    refine waiters_poll_of_stopped hw hstopped fun predicate timeout next hspawn => ?_
    obtain ⟨log, waiters, calls, proc⟩ := s
    obtain rfl : proc = _ := hspawn
    cases hleft
    omega

theorem Closing.interfere {n : ℕ} (hs : Interferes s s') (h : Closing env predicate tx finish n s) :
    Closing env predicate tx finish n s' := by
  obtain ⟨⟨w, hw, hstopped⟩, hleft⟩ := h
  obtain ⟨w', hw', hev⟩ := hs.singleton hw
  rw [hev.eq_of_stopped hstopped] at hw'
  refine ⟨⟨w, hw', hstopped⟩, ?_⟩
  rcases hleft with hhangs | hleft
  · exact Or.inl (hhangs.interfere hs)
  · exact Or.inr (hs.proc ▸ hleft)

end End

end HoprApi.Node
