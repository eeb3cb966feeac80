import Mathlib.Data.List.Forall2

/-!
# Processes that wait for events

A process calls its environment and waits for the answers; it spawns waiters for the events of an
append-only log, aborts them and awaits them.  Between two of its steps other parties append events
and waiters expire, in any order.  A waiter that has resolved has done so with the first event
appended after it was spawned that satisfies its predicate (`sound_run`).

So it has its event at a position of the log (`Waiter.Sound.position`).  Waiters for different
events are resolved at different positions (`FirstAt.ne`), and waiters for the same ones at the same
position, if the later one was spawned before it (`FirstAt.eq`).
-/

namespace HoprApi.Lib.Waiters

variable {Q : Type*} {A : Q → Type*} {E T φ ε R : Type*}

/-! ### Waiters -/

inductive Progress (E ε : Type*) where
  | running
  | resolved (e : E)
  | failed (err : ε)
  | aborted

/-- A waiter spawned when the log had `since` events. -/
structure Waiter (E T ε : Type*) where
  since : ℕ
  predicate : E → Bool
  timeout : T
  progress : Progress E ε

namespace Waiter

variable (w : Waiter E T ε)

def Stopped : Prop := w.progress ≠ .running

def see (e : E) : Waiter E T ε :=
  match w.progress with
  | .running => if w.predicate e then { w with progress := .resolved e } else w
  | _ => w

def expire (err : ε) : Waiter E T ε :=
  match w.progress with
  | .running => { w with progress := .failed err }
  | _ => w

def abort : Waiter E T ε :=
  match w.progress with
  | .running => { w with progress := .aborted }
  | _ => w

/-- What awaiting the waiter gives, once it has stopped. -/
def output (aborted : ε) : Option (Except ε E) :=
  match w.progress with
  | .running => none
  | .resolved e => some (.ok e)
  | .failed err => some (.error err)
  | .aborted => some (.error aborted)

/-- What the log says about the waiter: a running one has not missed an event, and a resolved one
has the first of its events. -/
def Sound (log : List E) : Prop :=
  w.since ≤ log.length ∧
    match w.progress with
    | .running => (log.drop w.since).find? w.predicate = none
    | .resolved e => (log.drop w.since).find? w.predicate = some e
    | _ => True

end Waiter

section Waiter

variable {w w' : Waiter E T ε} {e : E} {err : ε} {log : List E}

inductive Waiter.Evolves (w : Waiter E T ε) : Waiter E T ε → Prop
  | refl : Evolves w w
  | see (e : E) : Evolves w (w.see e)
  | expire (err : ε) : Evolves w (w.expire err)

theorem see_of_stopped (h : w.Stopped) : w.see e = w := by
  unfold Waiter.see
  split
  · next hrun => exact absurd hrun h
  · rfl

theorem expire_of_stopped (h : w.Stopped) : w.expire err = w := by
  unfold Waiter.expire
  split
  · next hrun => exact absurd hrun h
  · rfl

theorem stopped_of_resolved (h : w.progress = .resolved e) : w.Stopped := by
  unfold Waiter.Stopped
  rw [h]
  intro h'
  cases h'

theorem stopped_of_failed (h : w.progress = .failed err) : w.Stopped := by
  unfold Waiter.Stopped
  rw [h]
  intro h'
  cases h'

theorem abort_stopped : w.abort.Stopped := by
  unfold Waiter.abort Waiter.Stopped
  split
  · intro h
    cases h
  · next hrun => exact hrun

theorem abort_of_stopped (h : w.Stopped) : w.abort = w := by
  unfold Waiter.abort
  split
  · next hrun => exact absurd hrun h
  · rfl

theorem output_eq_none {aborted : ε} (h : w.output aborted = none) : w.progress = .running := by
  unfold Waiter.output at h
  split at h
  · next hrun => exact hrun
  all_goals cases h

namespace Waiter.Evolves

theorem eq_of_stopped (h : w.Evolves w') (hw : w.Stopped) : w' = w := by
  cases h with
  | refl => rfl
  | see e => exact see_of_stopped hw
  | expire err => exact expire_of_stopped hw

theorem predicate_eq (h : w.Evolves w') : w'.predicate = w.predicate := by
  cases h with
  | refl => rfl
  | see e =>
    unfold Waiter.see
    split
    · split <;> rfl
    · rfl
  | expire err =>
    unfold Waiter.expire
    split <;> rfl

theorem not_aborted (h : w.Evolves w') (hw : w.progress ≠ .aborted) : w'.progress ≠ .aborted := by
  cases h with
  | refl => exact hw
  | see e =>
    unfold Waiter.see
    split
    · split
      · intro h'
        cases h'
      · exact hw
    · exact hw
  | expire err =>
    unfold Waiter.expire
    split
    · intro h'
      cases h'
    · exact hw

end Waiter.Evolves

/-- A waiter that has neither failed nor been aborted has resolved once it has seen a matching
event. -/
theorem see_resolved (hfailed : ∀ err, w.progress ≠ .failed err) (haborted : w.progress ≠ .aborted)
    (he : w.predicate e = true) : ∃ e', (w.see e).progress = .resolved e' := by
  unfold Waiter.see
  rcases hp : w.progress with _ | e' | err | _
  · exact ⟨e, by rw [if_pos he]⟩
  · exact ⟨e', hp⟩
  · exact absurd hp (hfailed err)
  · exact absurd hp haborted

namespace Waiter.Sound

theorem spawn (log : List E) (predicate : E → Bool) (timeout : T) :
    (⟨log.length, predicate, timeout, .running⟩ : Waiter E T ε).Sound log := by
  refine ⟨Nat.le_refl _, ?_⟩
  show (log.drop log.length).find? predicate = none
  rw [List.drop_length, List.find?_nil]

theorem see (h : w.Sound log) (e : E) : (w.see e).Sound (log ++ [e]) := by
  obtain ⟨hsince, hlog⟩ := h
  have hdrop : (log ++ [e]).drop w.since = log.drop w.since ++ [e] :=
    List.drop_append_of_le_length hsince
  have hlength : w.since ≤ (log ++ [e]).length := by
    rw [List.length_append]
    omega
  unfold Waiter.see
  rcases hp : w.progress with _ | e' | err | _
  · rw [hp] at hlog
    by_cases he : w.predicate e = true
    · rw [if_pos he]
      refine ⟨hlength, ?_⟩
      show ((log ++ [e]).drop w.since).find? w.predicate = some e
      rw [hdrop, List.find?_append, hlog, Option.none_or, List.find?_singleton, if_pos he]
    · rw [if_neg he]
      refine ⟨hlength, ?_⟩
      rw [hp]
      show ((log ++ [e]).drop w.since).find? w.predicate = none
      rw [hdrop, List.find?_append, hlog, Option.none_or, List.find?_singleton, if_neg he]
  · refine ⟨hlength, ?_⟩
    rw [hp] at hlog ⊢
    show ((log ++ [e]).drop w.since).find? w.predicate = some e'
    rw [hdrop, List.find?_append, hlog, Option.some_or]
  · exact ⟨hlength, by rw [hp]; trivial⟩
  · exact ⟨hlength, by rw [hp]; trivial⟩

theorem expire (h : w.Sound log) (err : ε) : (w.expire err).Sound log := by
  unfold Waiter.expire
  split
  · exact ⟨h.1, trivial⟩
  · exact h

theorem abort (h : w.Sound log) : w.abort.Sound log := by
  unfold Waiter.abort
  split
  · exact ⟨h.1, trivial⟩
  · exact h

theorem find_of_resolved (h : w.Sound log) (he : w.progress = .resolved e) :
    (log.drop w.since).find? w.predicate = some e := by
  have := h.2
  rwa [he] at this

end Waiter.Sound

end Waiter

/-! ### Processes -/

/-- A process up to its next suspension, with what it does afterwards. -/
inductive Proc (Q : Type*) (A : Q → Type*) (E T φ ε R : Type*) where
  /-- Has called the environment and waits for the answer. -/
  | call (q : Q) (next : A q → Proc Q A E T φ ε R)
  /-- Spawns a waiter and gets its handle. -/
  | spawn (predicate : E → Bool) (timeout : T) (next : Except φ ℕ → Proc Q A E T φ ε R)
  | abort (handle : ℕ) (next : Proc Q A E T φ ε R)
  | await (handle : ℕ) (next : Except ε E → Proc Q A E T φ ε R)
  | done (r : R)

def Proc.pending : Proc Q A E T φ ε R → List Q
  | .call q _ => [q]
  | _ => []

/-- Which calls the environment answers and what, which waiters it admits, and the error of an
aborted one.  A call that does not resolve is pending for ever; the polls of a run are those that
find the other calls resolved. -/
structure Env (Q : Type*) (A : Q → Type*) (T φ ε : Type*) where
  resolves : Q → Bool
  answer : ∀ q, A q
  admits : T → Except φ Unit
  aborted : ε

def Env.Answers (env : Env Q A T φ ε) (q : Q) (a : A q) : Prop :=
  env.resolves q = true ∧ env.answer q = a

/-- A process, the calls it has made and the waiters it has spawned, beside the log. -/
structure System (Q : Type*) (A : Q → Type*) (E T φ ε R : Type*) where
  log : List E
  waiters : List (Waiter E T ε)
  calls : List Q
  proc : Proc Q A E T φ ε R

/-- What happens next: the process makes a step, an event is appended, or a waiter expires. -/
inductive Move (E ε : Type*) where
  | poll
  | append (e : E)
  | expire (handle : ℕ) (err : ε)

namespace System

def start (log : List E) (p : Proc Q A E T φ ε R) : System Q A E T φ ε R :=
  ⟨log, [], p.pending, p⟩

def resume (s : System Q A E T φ ε R) (p : Proc Q A E T φ ε R) : System Q A E T φ ε R :=
  { s with calls := s.calls ++ p.pending, proc := p }

def spawn (s : System Q A E T φ ε R) (predicate : E → Bool) (timeout : T) :
    System Q A E T φ ε R :=
  { s with waiters := s.waiters ++ [⟨s.log.length, predicate, timeout, .running⟩] }

def abort (s : System Q A E T φ ε R) (handle : ℕ) : System Q A E T φ ε R :=
  { s with waiters := s.waiters.modify handle .abort }

/-- A step of the process; it makes none where it waits for a call or a waiter that is pending. -/
def poll (env : Env Q A T φ ε) (s : System Q A E T φ ε R) : System Q A E T φ ε R :=
  match s.proc with
  | .call q next => if env.resolves q then s.resume (next (env.answer q)) else s
  | .spawn predicate timeout next =>
    match env.admits timeout with
    | .error err => s.resume (next (.error err))
    | .ok () => (s.spawn predicate timeout).resume (next (.ok s.waiters.length))
  | .abort handle next => (s.abort handle).resume next
  | .await handle next =>
    match s.waiters[handle]?.bind (·.output env.aborted) with
    | some result => s.resume (next result)
    | none => s
  | .done _ => s

def step (env : Env Q A T φ ε) (s : System Q A E T φ ε R) : Move E ε → System Q A E T φ ε R
  | .poll => s.poll env
  | .append e => { s with log := s.log ++ [e], waiters := s.waiters.map (·.see e) }
  | .expire handle err => { s with waiters := s.waiters.modify handle (·.expire err) }

def run (env : Env Q A T φ ε) (s : System Q A E T φ ε R) (moves : List (Move E ε)) :
    System Q A E T φ ε R :=
  moves.foldl (step env) s

end System

def polls : List (Move E ε) → ℕ
  | [] => 0
  | .poll :: moves => polls moves + 1
  | _ :: moves => polls moves

section Run

variable {env : Env Q A T φ ε} {s : System Q A E T φ ε R}

@[simp] theorem run_nil : s.run env [] = s := rfl

@[simp] theorem run_cons (m : Move E ε) (moves : List (Move E ε)) :
    s.run env (m :: moves) = (s.step env m).run env moves := rfl

theorem run_append (ms ns : List (Move E ε)) :
    s.run env (ms ++ ns) = (s.run env ms).run env ns :=
  List.foldl_append

theorem poll_call {q : Q} {next : A q → Proc Q A E T φ ε R} {a : A q}
    (hproc : s.proc = .call q next) (ha : env.Answers q a) : s.poll env = s.resume (next a) := by
  obtain ⟨hresolves, rfl⟩ := ha
  unfold System.poll
  rw [hproc]
  exact if_pos hresolves

variable (env s) in
/-- The process waits for a call that does not resolve. -/
def Hangs : Prop := ∃ q ∈ s.proc.pending, env.resolves q = false

theorem Hangs.poll_eq (h : Hangs env s) : s.poll env = s := by
  obtain ⟨q, hq, hresolves⟩ := h
  unfold System.poll
  rcases hproc : s.proc with ⟨q', next⟩ | _ | _ | _ | _
  · rw [hproc] at hq
    obtain rfl := List.mem_singleton.1 hq
    exact if_neg (Bool.eq_false_iff.1 hresolves)
  all_goals exact absurd (hproc ▸ hq) List.not_mem_nil

variable (env) in
theorem poll_call_cases {q : Q} {next : A q → Proc Q A E T φ ε R} (hproc : s.proc = .call q next) :
    Hangs env s ∨ ∃ a, env.Answers q a ∧ s.poll env = s.resume (next a) := by
  by_cases hresolves : env.resolves q = true
  · exact Or.inr ⟨_, ⟨hresolves, rfl⟩, poll_call hproc ⟨hresolves, rfl⟩⟩
  · refine Or.inl ⟨q, ?_, Bool.eq_false_iff.2 hresolves⟩
    rw [hproc]
    exact List.mem_singleton_self q

theorem poll_await {handle : ℕ} {next : Except ε E → Proc Q A E T φ ε R} {w : Waiter E T ε}
    (hproc : s.proc = .await handle next) (hw : s.waiters[handle]? = some w) :
    s.poll env =
      match w.output env.aborted with
      | some result => s.resume (next result)
      | none => s := by
  unfold System.poll
  rw [hproc]
  simp only [hw, Option.bind_some]

/-- A single waiter that has stopped stays as it is, if no other one is spawned. -/
theorem waiters_poll_of_stopped {w : Waiter E T ε} (hw : s.waiters = [w]) (hstopped : w.Stopped)
    (hspawn : ∀ predicate timeout next, s.proc ≠ .spawn predicate timeout next) :
    (s.poll env).waiters = [w] := by
  unfold System.poll
  split
  · split <;> exact hw
  · next predicate timeout next hproc => exact absurd hproc (hspawn predicate timeout next)
  · next handle next hproc =>
    show s.waiters.modify handle .abort = [w]
    rw [hw]
    cases handle with
    | zero => exact congrArg (fun w => [w]) (abort_of_stopped hstopped)
    | succ handle => rw [List.modify_succ_cons, List.modify_nil]
  · split
    · exact hw
    · exact hw
  · exact hw

/-- What others have done to a system between two steps of its process. -/
structure Interferes (s s' : System Q A E T φ ε R) : Prop where
  waiters : List.Forall₂ Waiter.Evolves s.waiters s'.waiters
  calls : s'.calls = s.calls
  proc : s'.proc = s.proc

theorem Interferes.singleton {s s' : System Q A E T φ ε R} {w : Waiter E T ε}
    (h : Interferes s s') (hw : s.waiters = [w]) : ∃ w', s'.waiters = [w'] ∧ w.Evolves w' := by
  have hwaiters := h.waiters
  rw [hw] at hwaiters
  obtain ⟨w', ws, hev, hnil, hw'⟩ := List.forall₂_cons_left_iff.1 hwaiters
  rw [List.forall₂_nil_left_iff.1 hnil] at hw'
  exact ⟨w', hw', hev⟩

theorem evolves_modify (ws : List (Waiter E T ε)) (handle : ℕ) (err : ε) :
    List.Forall₂ Waiter.Evolves ws (ws.modify handle (·.expire err)) := by
  induction ws generalizing handle with
  | nil => cases handle <;> exact .nil
  | cons w ws ih =>
    cases handle with
    | zero => exact .cons (.expire err) (List.forall₂_same.2 fun _ _ => .refl)
    | succ handle => exact .cons .refl (ih handle)

theorem interferes_append (s : System Q A E T φ ε R) (e : E) :
    Interferes s (s.step env (.append e)) := by
  refine ⟨?_, rfl, rfl⟩
  show List.Forall₂ Waiter.Evolves s.waiters (s.waiters.map (·.see e))
  rw [List.forall₂_map_right_iff]
  exact List.forall₂_same.2 fun w _ => .see e

theorem interferes_expire (s : System Q A E T φ ε R) (handle : ℕ) (err : ε) :
    Interferes s (s.step env (.expire handle err)) :=
  ⟨evolves_modify s.waiters handle err, rfl, rfl⟩

/-- What no poll and no interference destroys holds after a run. -/
theorem run_invariant {P : System Q A E T φ ε R → Prop} (hpoll : ∀ s, P s → P (s.poll env))
    (hother : ∀ s s', Interferes s s' → P s → P s') (h : P s) (moves : List (Move E ε)) :
    P (s.run env moves) := by
  induction moves generalizing s with
  | nil => exact h
  | cons m moves ih =>
    cases m with
    | poll => exact ih (hpoll s h)
    | append e => exact ih (hother _ _ (interferes_append s e) h)
    | expire handle err => exact ih (hother _ _ (interferes_expire s handle err) h)

/-- What every poll brings one step closer, and no interference sets back, is reached after as many
polls. -/
theorem run_countdown {P : ℕ → System Q A E T φ ε R → Prop}
    (hpoll : ∀ n s, P n s → P (n - 1) (s.poll env))
    (hother : ∀ n s s', Interferes s s' → P n s → P n s') {n : ℕ} (h : P n s)
    (moves : List (Move E ε)) : P (n - polls moves) (s.run env moves) := by
  induction moves generalizing s n with
  | nil => exact h
  | cons m moves ih =>
    cases m with
    | poll =>
      have : n - polls (.poll :: moves) = n - 1 - polls moves := by
        show n - (polls moves + 1) = _
        omega
      rw [this]
      exact ih (hpoll n s h)
    | append e => exact ih (hother n _ _ (interferes_append s e) h)
    | expire handle err => exact ih (hother n _ _ (interferes_expire s handle err) h)

/-! ### The calls of a run -/

/-- All calls but the one that the process waits for have resolved. -/
def CallsResolved (env : Env Q A T φ ε) (s : System Q A E T φ ε R) : Prop :=
  ∃ made, s.calls = made ++ s.proc.pending ∧ ∀ q ∈ made, env.resolves q = true

theorem CallsResolved.resume {p : Proc Q A E T φ ε R} {waiters : List (Waiter E T ε)}
    (h : CallsResolved env s) (hpending : ∀ q ∈ s.proc.pending, env.resolves q = true) :
    CallsResolved env (System.resume { s with waiters := waiters } p) := by
  obtain ⟨made, hcalls, hmade⟩ := h
  refine ⟨s.calls, rfl, fun q hq => ?_⟩
  rw [hcalls] at hq
  exact (List.mem_append.1 hq).elim (hmade q) (hpending q)

theorem CallsResolved.poll (h : CallsResolved env s) : CallsResolved env (s.poll env) := by
  unfold System.poll
  split
  · next q next hproc =>
    split
    · next hresolves =>
      refine h.resume fun q' hq' => ?_
      rw [hproc] at hq'
      rwa [List.mem_singleton.1 hq']
    · exact h
  · next predicate timeout next hproc =>
    split
    · exact h.resume (by rw [hproc]; exact fun q hq => by cases hq)
    · exact h.resume (by rw [hproc]; exact fun q hq => by cases hq)
  · next handle next hproc => exact h.resume (by rw [hproc]; exact fun q hq => by cases hq)
  · next handle next hproc =>
    split
    · exact h.resume (by rw [hproc]; exact fun q hq => by cases hq)
    · exact h
  · exact h

theorem CallsResolved.interfere {s' : System Q A E T φ ε R} (hs : Interferes s s')
    (h : CallsResolved env s) : CallsResolved env s' := by
  unfold CallsResolved
  rw [hs.calls, hs.proc]
  exact h

theorem Hangs.interfere {s' : System Q A E T φ ε R} (hs : Interferes s s') (h : Hangs env s) :
    Hangs env s' := by
  unfold Hangs
  rw [hs.proc]
  exact h

theorem Hangs.run (h : Hangs env s) (moves : List (Move E ε)) : Hangs env (s.run env moves) :=
  run_invariant (P := Hangs env) (fun s h => by rwa [h.poll_eq]) (fun _ _ hs h => h.interfere hs) h
    moves

/-! ### Soundness of the waiters -/

def Sound (s : System Q A E T φ ε R) : Prop := ∀ w ∈ s.waiters, w.Sound s.log

theorem sound_modify {ws : List (Waiter E T ε)} {log : List E}
    {f : Waiter E T ε → Waiter E T ε} (hf : ∀ w : Waiter E T ε, w.Sound log → (f w).Sound log)
    (h : ∀ w ∈ ws, w.Sound log) (handle : ℕ) : ∀ w ∈ ws.modify handle f, w.Sound log := by
  intro w hw
  obtain ⟨i, hi, rfl⟩ := List.mem_iff_getElem.1 hw
  rw [List.getElem_modify]
  split
  · exact hf _ (h _ (List.getElem_mem _))
  · exact h _ (List.getElem_mem _)

theorem sound_step (h : Sound s) (m : Move E ε) : Sound (s.step env m) := by
  cases m with
  | append e =>
    intro w hw
    obtain ⟨w, hmem, rfl⟩ := List.mem_map.1 hw
    exact (h w hmem).see e
  | expire handle err => exact sound_modify (fun w hw => hw.expire err) h handle
  | poll =>
    show Sound (s.poll env)
    unfold System.poll
    split
    · split <;> exact h
    · split
      · exact h
      · intro w hw
        rcases List.mem_append.1 hw with hold | hnew
        · exact h w hold
        · rw [List.mem_singleton.1 hnew]
          exact .spawn _ _ _
    · exact sound_modify (fun w hw => hw.abort) h _
    · split <;> exact h
    · exact h

variable (env) in
/-- **Waiters are sound along every run.** -/
theorem sound_run (log : List E) (p : Proc Q A E T φ ε R) (moves : List (Move E ε)) :
    Sound ((System.start log p).run env moves) := by
  have hrun : ∀ {s : System Q A E T φ ε R}, Sound s → Sound (s.run env moves) := by
    induction moves with
    | nil => exact fun h => h
    | cons m moves ih => exact fun h => ih (sound_step h m)
  refine hrun fun w hw => ?_
  cases hw

end Run

/-! ### Positions of the log -/

/-- From `since` on, the first event of the log with the property `p` is `e`, at `k`. -/
structure FirstAt (log : List E) (p : E → Bool) (since k : ℕ) (e : E) : Prop where
  le : since ≤ k
  get : log[k]? = some e
  holds : p e = true
  least : ∀ j, since ≤ j → j < k → ∀ e', log[j]? = some e' → p e' = false

section Positions

variable {log : List E} {p p' : E → Bool} {since since' k k' : ℕ} {e e' : E}

theorem firstAt_of_find (h : (log.drop since).find? p = some e) :
    ∃ k, FirstAt log p since k e := by
  obtain ⟨hp, i, hi, rfl, hleast⟩ := List.find?_eq_some_iff_getElem.1 h
  rw [List.length_drop] at hi
  refine ⟨since + i, by omega, ?_, hp, ?_⟩
  · rw [← List.getElem?_drop, List.getElem?_eq_getElem]
  · intro j hj hlt e' he'
    have hget := hleast (j - since) (by omega)
    have hsome : (log.drop since)[j - since]? = some e' := by
      rw [List.getElem?_drop, ← he']
      congr 1
      omega
    obtain ⟨-, rfl⟩ := List.getElem?_eq_some_iff.1 hsome
    simpa using hget

/-- Events that no two of the waiters share are at different positions. -/
theorem FirstAt.ne (h : FirstAt log p since k e) (h' : FirstAt log p' since' k' e')
    (hdisjoint : ∀ e, p e = true → p' e = false) : k ≠ k' := by
  rintro rfl
  obtain rfl : e = e' := Option.some.inj (h.get.symm.trans h'.get)
  have hfalse := hdisjoint e h.holds
  rw [h'.holds] at hfalse
  cases hfalse

/-- Of two waiters for the same events the later one has the event of the earlier, if it was spawned
before that event. -/
theorem FirstAt.eq (h : FirstAt log p since k e) (h' : FirstAt log p since' k' e')
    (hsince : since ≤ since') (hk : since' ≤ k) : k = k' := by
  rcases Nat.lt_trichotomy k k' with hlt | heq | hgt
  · have hfalse := h'.least k hk hlt e h.get
    rw [h.holds] at hfalse
    cases hfalse
  · exact heq
  · have hle := h'.le
    have hfalse := h.least k' (by omega) hgt e' h'.get
    rw [h'.holds] at hfalse
    cases hfalse

/-- The event of a resolved waiter is the first of its events since it was spawned. -/
theorem Waiter.Sound.position {w : Waiter E T ε} (h : w.Sound log) (he : w.progress = .resolved e) :
    ∃ k, FirstAt log w.predicate w.since k e :=
  firstAt_of_find (h.find_of_resolved he)

end Positions

end HoprApi.Lib.Waiters
