import HoprApi.Lib.Waiters
import Mathlib.Logic.Function.Basic

/-!
# Several processes beside one log

Processes that share an append-only log and nothing else: each makes its own calls and spawns its
own waiters, and all the waiters see every event.  Whatever the interleaving, each process is where
it would be alone beside the same log (`view_run`).
-/

namespace HoprApi.Lib.Waiters

variable {ι : Type*} {Q : Type*} {A : Q → Type*} {E T φ ε : Type*} {R : ι → Type*}

/-! ### Processes beside one log -/

structure Part (Q : Type*) (A : Q → Type*) (E T φ ε R : Type*) where
  waiters : List (Waiter E T ε)
  calls : List Q
  proc : Proc Q A E T φ ε R

/-- Processes `i` with results in `R i`, beside one log. -/
structure Concurrent (Q : Type*) (A : Q → Type*) (E T φ ε : Type*) (R : ι → Type*) where
  log : List E
  parts : ∀ i, Part Q A E T φ ε (R i)

/-- What happens next: a process makes a step, an event is appended, or a waiter expires. -/
inductive Action (ι E ε : Type*) where
  | poll (i : ι)
  | append (e : E)
  | expire (i : ι) (handle : ℕ) (err : ε)

def System.part {R : Type*} (s : System Q A E T φ ε R) : Part Q A E T φ ε R :=
  ⟨s.waiters, s.calls, s.proc⟩

theorem System.log_poll {R : Type*} (env : Env Q A T φ ε) (s : System Q A E T φ ε R) :
    (s.poll env).log = s.log := by
  unfold System.poll
  split
  · split <;> rfl
  · split <;> rfl
  · rfl
  · split <;> rfl
  · rfl

namespace Concurrent

def start (log : List E) (p : ∀ i, Proc Q A E T φ ε (R i)) : Concurrent Q A E T φ ε R :=
  ⟨log, fun i => ⟨[], (p i).pending, p i⟩⟩

/-- The process `i` beside the log. -/
def view (s : Concurrent Q A E T φ ε R) (i : ι) : System Q A E T φ ε (R i) :=
  ⟨s.log, (s.parts i).waiters, (s.parts i).calls, (s.parts i).proc⟩

variable [DecidableEq ι]

def put (s : Concurrent Q A E T φ ε R) (i : ι) (part : Part Q A E T φ ε (R i)) :
    Concurrent Q A E T φ ε R :=
  { s with parts := Function.update s.parts i part }

def step (env : ι → Env Q A T φ ε) (s : Concurrent Q A E T φ ε R) :
    Action ι E ε → Concurrent Q A E T φ ε R
  | .poll i => s.put i ((s.view i).poll (env i)).part
  | .append e =>
    ⟨s.log ++ [e], fun i => { s.parts i with waiters := (s.parts i).waiters.map (·.see e) }⟩
  | .expire i handle err =>
    s.put i { s.parts i with waiters := (s.parts i).waiters.modify handle (·.expire err) }

def run (env : ι → Env Q A T φ ε) (s : Concurrent Q A E T φ ε R) (actions : List (Action ι E ε)) :
    Concurrent Q A E T φ ε R :=
  actions.foldl (step env) s

end Concurrent

section Views

variable [DecidableEq ι]

def Action.move? (i : ι) : Action ι E ε → Option (Move E ε)
  | .poll j => if j = i then some .poll else none
  | .append e => some (.append e)
  | .expire j handle err => if j = i then some (.expire handle err) else none

/-- The moves of a run of all processes that concern the process `i`. -/
def movesOf (i : ι) (actions : List (Action ι E ε)) : List (Move E ε) :=
  actions.filterMap (·.move? i)

theorem movesOf_append (i : ι) (as bs : List (Action ι E ε)) :
    movesOf i (as ++ bs) = movesOf i as ++ movesOf i bs :=
  List.filterMap_append

variable {env : ι → Env Q A T φ ε}

theorem view_put_self (s : Concurrent Q A E T φ ε R) (i : ι) (part : Part Q A E T φ ε (R i)) :
    (s.put i part).view i = ⟨s.log, part.waiters, part.calls, part.proc⟩ := by
  unfold Concurrent.put Concurrent.view
  simp only [Function.update_self]

theorem view_put_of_ne (s : Concurrent Q A E T φ ε R) {i j : ι} (h : i ≠ j)
    (part : Part Q A E T φ ε (R j)) : (s.put j part).view i = s.view i := by
  unfold Concurrent.put Concurrent.view
  simp only [Function.update_of_ne h]

/-- **What a step of all processes is to one of them.** -/
theorem view_step (s : Concurrent Q A E T φ ε R) (a : Action ι E ε) (i : ι) :
    (s.step env a).view i =
      match a.move? i with
      | some m => (s.view i).step (env i) m
      | none => s.view i := by
  cases a with
  | poll j =>
    by_cases h : j = i
    · subst h
      simp only [Action.move?, Concurrent.step, view_put_self, System.step]
      have hlog := System.log_poll (env j) (s.view j)
      generalize (s.view j).poll (env j) = s' at hlog ⊢
      obtain ⟨log, waiters, calls, proc⟩ := s'
      cases hlog
      rfl
    · simp only [Action.move?, if_neg h, Concurrent.step]
      exact view_put_of_ne s (Ne.symm h) _
  | append e => rfl
  | expire j handle err =>
    by_cases h : j = i
    · subst h
      simp only [Action.move?, Concurrent.step, view_put_self, System.step]
      rfl
    · simp only [Action.move?, if_neg h, Concurrent.step]
      exact view_put_of_ne s (Ne.symm h) _

/-- **Each process is where it would be alone**, beside the same log. -/
theorem view_run (s : Concurrent Q A E T φ ε R) (actions : List (Action ι E ε)) (i : ι) :
    (s.run env actions).view i = (s.view i).run (env i) (movesOf i actions) := by
  induction actions generalizing s with
  | nil => rfl
  | cons a actions ih =>
    show ((s.step env a).run env actions).view i = _
    rw [ih, view_step]
    unfold movesOf
    rcases hmove : a.move? i with _ | m
    · rw [List.filterMap_cons_none hmove]
    · rw [List.filterMap_cons_some hmove, run_cons]

end Views

end HoprApi.Lib.Waiters
