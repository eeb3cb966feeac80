import Mathlib.Data.List.Basic
import Mathlib.Data.Nat.Find
import Mathlib.Order.WellFounded

/-!
# Components polled in some order

A concurrent system is a state and a step that polls one of its components.  A run polls the
components in the order of a list; an unending schedule is fair when it polls every component again
and again.  In a system of `Components` a poll moves its own component and no other one, so under a
fair schedule all of them settle (`Components.settle`).
-/

namespace HoprApi.Lib.Schedule

variable {S B α : Type*}

/-! ### Traces of tagged events -/

def eventsOf (k : ℕ) (trace : List (ℕ × α)) : List α :=
  trace.filterMap fun e => if e.1 = k then some e.2 else none

@[simp] theorem eventsOf_nil (k : ℕ) : eventsOf k ([] : List (ℕ × α)) = [] := rfl

theorem eventsOf_append (k : ℕ) (xs ys : List (ℕ × α)) :
    eventsOf k (xs ++ ys) = eventsOf k xs ++ eventsOf k ys :=
  List.filterMap_append

theorem eventsOf_snoc_self (k : ℕ) (xs : List (ℕ × α)) (a : α) :
    eventsOf k (xs ++ [(k, a)]) = eventsOf k xs ++ [a] := by
  rw [eventsOf_append]
  simp [eventsOf]

theorem eventsOf_snoc_of_ne {j k : ℕ} (h : j ≠ k) (xs : List (ℕ × α)) (a : α) :
    eventsOf k (xs ++ [(j, a)]) = eventsOf k xs := by
  rw [eventsOf_append]
  simp [eventsOf, h]

theorem eventsOf_cons_self (k : ℕ) (a : α) (xs : List (ℕ × α)) :
    eventsOf k ((k, a) :: xs) = a :: eventsOf k xs := by
  simp [eventsOf]

theorem eventsOf_cons_of_ne {j k : ℕ} (h : j ≠ k) (a : α) (xs : List (ℕ × α)) :
    eventsOf k ((j, a) :: xs) = eventsOf k xs := by
  simp [eventsOf, h]

theorem mem_eventsOf {k : ℕ} {a : α} {trace : List (ℕ × α)} :
    a ∈ eventsOf k trace ↔ (k, a) ∈ trace := by
  simp only [eventsOf, List.mem_filterMap]
  constructor
  · rintro ⟨⟨j, b⟩, hmem, h⟩
    split at h
    · next hj =>
      cases h
      exact hj ▸ hmem
    · cases h
  · intro hmem
    exact ⟨(k, a), hmem, if_pos rfl⟩

/-! ### Runs -/

/-- The state after the components of `sched` were polled, in this order. -/
def run (step : S → ℕ → S) (s : S) (sched : List ℕ) : S := sched.foldl step s

section Run

variable {step : S → ℕ → S} {s : S}

@[simp] theorem run_nil : run step s [] = s := rfl

@[simp] theorem run_cons (k : ℕ) (sched : List ℕ) :
    run step s (k :: sched) = run step (step s k) sched := rfl

theorem run_append (xs ys : List ℕ) : run step s (xs ++ ys) = run step (run step s xs) ys :=
  List.foldl_append

theorem run_snoc (xs : List ℕ) (k : ℕ) : run step s (xs ++ [k]) = step (run step s xs) k := by
  rw [run_append]
  rfl

/-- What every poll preserves holds after every run. -/
theorem run_invariant {P : S → Prop} (hstep : ∀ s k, P s → P (step s k)) (h : P s)
    (sched : List ℕ) : P (run step s sched) := by
  induction sched generalizing s with
  | nil => exact h
  | cons k sched ih => exact ih (hstep s k h)

end Run

/-! ### Unending schedules -/

/-- The first `N` polls of an unending schedule. -/
def upTo (sched : ℕ → ℕ) (N : ℕ) : List ℕ := (List.range N).map sched

theorem upTo_succ (sched : ℕ → ℕ) (N : ℕ) : upTo sched (N + 1) = upTo sched N ++ [sched N] := by
  unfold upTo
  rw [List.range_succ, List.map_append]
  rfl

theorem run_upTo_succ {step : S → ℕ → S} {s : S} (sched : ℕ → ℕ) (N : ℕ) :
    run step s (upTo sched (N + 1)) = step (run step s (upTo sched N)) (sched N) := by
  rw [upTo_succ, run_snoc]

/-- Every component below `n` is polled again and again. -/
def Fair (n : ℕ) (sched : ℕ → ℕ) : Prop := ∀ k < n, ∀ N, ∃ m, N ≤ m ∧ sched m = k

theorem fair_roundRobin (n : ℕ) : Fair n (· % n) := by
  intro k hk N
  refine ⟨n * N + k, ?_, ?_⟩
  · have := Nat.le_mul_of_pos_left N (Nat.zero_lt_of_lt hk)
    omega
  · show (n * N + k) % n = k
    rw [Nat.mul_add_mod, Nat.mod_eq_of_lt hk]

/-- A system in which a poll moves its own component, down a well-founded relation until it is
final, and leaves the others alone. -/
structure Components (S B : Type*) where
  step : S → ℕ → S
  view : S → ℕ → B
  final : B → Prop
  lt : B → B → Prop
  wf : WellFounded lt
  view_other : ∀ s {j k}, j ≠ k → view (step s j) k = view s k
  view_final : ∀ s k, final (view s k) → view (step s k) k = view s k
  view_lt : ∀ s k, ¬ final (view s k) → lt (view (step s k) k) (view s k)

namespace Components

variable (C : Components S B) {s : S} {k : ℕ} {sched : ℕ → ℕ}

theorem view_unpolled {N m : ℕ} (hNm : N ≤ m) (h : ∀ l, N ≤ l → l < m → sched l ≠ k) :
    C.view (run C.step s (upTo sched m)) k = C.view (run C.step s (upTo sched N)) k := by
  induction m, hNm using Nat.le_induction with
  | base => rfl
  | succ m hNm ih =>
    rw [run_upTo_succ, C.view_other _ (h m hNm (by omega))]
    exact ih fun l hNl hlm => h l hNl (by omega)

theorem final_stays {N m : ℕ} (hNm : N ≤ m)
    (h : C.final (C.view (run C.step s (upTo sched N)) k)) :
    C.final (C.view (run C.step s (upTo sched m)) k) := by
  induction m, hNm using Nat.le_induction with
  | base => exact h
  | succ m hNm ih =>
    rw [run_upTo_succ]
    by_cases hk : sched m = k
    · rw [hk, C.view_final _ k ih]
      exact ih
    · rw [C.view_other _ hk]
      exact ih

/-- A component that is polled again and again becomes final. -/
theorem settles (hk : ∀ N, ∃ m, N ≤ m ∧ sched m = k) :
    ∃ N, C.final (C.view (run C.step s (upTo sched N)) k) := by
  suffices h : ∀ b N, C.view (run C.step s (upTo sched N)) k = b →
      ∃ M, C.final (C.view (run C.step s (upTo sched M)) k) from h _ 0 rfl
  intro b
  induction b using C.wf.induction with
  | _ b ih =>
    intro N hN
    by_cases hb : C.final b
    · exact ⟨N, hN ▸ hb⟩
    · -- the next poll of `k` moves it down, and until then it stays
      classical
      obtain ⟨hNm, hm⟩ := Nat.find_spec (hk N)
      have hleast := fun l => Nat.find_min (m := l) (hk N)
      set m := Nat.find (hk N)
      have hview : C.view (run C.step s (upTo sched m)) k = b := by
        rw [C.view_unpolled hNm fun l hNl hlm hl => hleast l hlm ⟨hNl, hl⟩, hN]
      refine ih _ ?_ (m + 1) rfl
      rw [run_upTo_succ, hm, ← hview]
      exact C.view_lt _ k (hview ▸ hb)

/-- **Under a fair schedule all components settle**, and stay settled. -/
theorem settle {n : ℕ} (hfair : Fair n sched) :
    ∃ N, ∀ M, N ≤ M → ∀ k < n, C.final (C.view (run C.step s (upTo sched M)) k) := by
  have h : ∀ n' ≤ n, ∃ N, ∀ M, N ≤ M → ∀ k < n',
      C.final (C.view (run C.step s (upTo sched M)) k) := by
    intro n'
    induction n' with
    | zero => exact fun _ => ⟨0, fun M _ k hk => absurd hk (Nat.not_lt_zero k)⟩
    | succ n' ih =>
      intro hn
      obtain ⟨N, hN⟩ := ih (by omega)
      obtain ⟨N', hN'⟩ := C.settles (s := s) (hfair n' (by omega))
      refine ⟨max N N', fun M hM k hk => ?_⟩
      rcases Nat.lt_or_ge k n' with hlt | hge
      · exact hN M (le_trans (le_max_left _ _) hM) k hlt
      · obtain rfl : k = n' := by omega
        exact C.final_stays (le_trans (le_max_right _ _) hM) hN'
  exact h n le_rfl

end Components

end HoprApi.Lib.Schedule
