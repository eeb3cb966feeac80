import HoprApi.Graph.Arms
import HoprApi.Lib.FoldCompare

/-!
# Folding a path

The traversal folds a value function over the edges of a path, from its initial value, and hands
each edge its index.  A path is accepted when every prefix value is positive.
-/

namespace HoprApi.Graph

open HoprApi.Rust HoprApi.Lib EdgeObservableRead

variable {t : Target} {W Imm Inter : Type} [ImmediateMeasurement Imm]
  [IntermediateMeasurement Inter] [EdgeObservableRead W Imm Inter]

namespace EdgeValueFn

/-- One step of the fold; an index that is no `usize` has no value. -/
def step (f : EdgeValueFn t ℚ W) : Fold.Step ℚ W := fun value observation index =>
  (Usize.ofNat? t index).bind (f.valueFn value observation)

def fold (f : EdgeValueFn t ℚ W) (value : ℚ) (path : List W) : Option ℚ :=
  Fold.foldFrom f.step 0 value path

/-- The value of the path with non-positive prefixes discarded. -/
def traverse (f : EdgeValueFn t ℚ W) (value : ℚ) (path : List W) : Fold.Verdict ℚ :=
  Fold.prune f.step 0 value path

/-- Every prefix value of the path, from the initial value on, is positive. -/
def Accepts (f : EdgeValueFn t ℚ W) (path : List W) : Prop :=
  Fold.Accepted f.step 0 f.initial path

end EdgeValueFn

namespace Direction

variable (d : Direction) (n : NonZeroUsize t) (penalty minAckRate : ℚ)
  (ticketFaceValue : Option Balance)

theorem initial_build :
    (d.build (W := W) n penalty minAckRate ticketFaceValue).initial = 1 := by
  cases d <;> rfl

theorem step_eq_some_iff {v w : ℚ} {o : W} {k : ℕ} :
    (d.build n penalty minAckRate ticketFaceValue).step v o k = some w ↔
      ∃ i : Usize t, i.toNat = k ∧ d.IndexOk i ∧
        w = d.value n (Config.resolve penalty minAckRate ticketFaceValue) i v o := by
  unfold EdgeValueFn.step
  rw [Option.bind_eq_some_iff]
  constructor
  · rintro ⟨i, hi, hw⟩
    rw [Direction.valueFn_eq] at hw
    split at hw
    · next hok => exact ⟨i, Usize.ofNat?_eq_some.1 hi, hok, (Option.some.inj hw).symm⟩
    · cases hw
  · rintro ⟨i, hi, hok, rfl⟩
    refine ⟨i, Usize.ofNat?_eq_some.2 hi, ?_⟩
    rw [Direction.valueFn_eq, if_pos hok]

theorem step_toNat {v : ℚ} {o : W} {i : Usize t} (hok : d.IndexOk i) :
    (d.build n penalty minAckRate ticketFaceValue).step v o i.toNat =
      some (d.value n (Config.resolve penalty minAckRate ticketFaceValue) i v o) :=
  (d.step_eq_some_iff n penalty minAckRate ticketFaceValue).2 ⟨i, rfl, hok, rfl⟩

/-- **The value functions are positively homogeneous**: a rejection only flips the sign. -/
theorem posHomogeneous :
    Fold.PosHomogeneous (d.build (W := W) n penalty minAckRate ticketFaceValue).step := by
  intro c hc v o k
  unfold EdgeValueFn.step
  rcases Usize.ofNat? t k with _ | i
  · rfl
  · simp only [Option.bind_some, Direction.valueFn_eq]
    split
    · rw [Direction.value_mul _ _ _ _ hc, Option.map_some]
    · rfl

theorem accepts_iff_accepted {path : List W} :
    (d.build n penalty minAckRate ticketFaceValue).Accepts path ↔
      Fold.Accepted (d.build n penalty minAckRate ticketFaceValue).step 0 1 path := by
  unfold EdgeValueFn.Accepts
  rw [initial_build]

/-- A path is accepted exactly when each of its edges has a positive value of its own. -/
theorem accepts_iff {path : List W} :
    (d.build n penalty minAckRate ticketFaceValue).Accepts path ↔
      ∀ (k : ℕ) (hk : k < path.length), ∃ i : Usize t, i.toNat = k ∧ d.IndexOk i ∧
        0 < d.value n (Config.resolve penalty minAckRate ticketFaceValue) i 1 path[k] := by
  rw [accepts_iff_accepted, Fold.accepted_iff (d.posHomogeneous n penalty minAckRate _) zero_lt_one]
  simp only [Nat.zero_add, step_eq_some_iff]
  constructor
  · intro h k hk
    obtain ⟨m, ⟨i, hi, hok, rfl⟩, hpos⟩ := h k hk
    exact ⟨i, hi, hok, hpos⟩
  · intro h k hk
    obtain ⟨i, hi, hok, hpos⟩ := h k hk
    exact ⟨_, ⟨i, hi, hok, rfl⟩, hpos⟩

/-! ### Comparing two paths -/

section Compare

variable {penalty minAckRate ticketFaceValue} {penalty' minAckRate' : ℚ}
  {ticketFaceValue' : Option Balance} {path path' : List W}
  (h : (d.build n penalty minAckRate ticketFaceValue).Accepts path)
  (hlen : path'.length = path.length)
include h hlen

/-- A path whose edges have values of their own at least as large has a value at least as large. -/
theorem fold_le (hown : ∀ (k : ℕ) (hk : k < path.length) (hk' : k < path'.length) (i : Usize t),
      i.toNat = k → 0 < d.value n (Config.resolve penalty minAckRate ticketFaceValue) i 1 path[k] →
      d.value n (Config.resolve penalty minAckRate ticketFaceValue) i 1 path[k] ≤
        d.value n (Config.resolve penalty' minAckRate' ticketFaceValue') i 1 path'[k]) :
    (d.build n penalty' minAckRate' ticketFaceValue').Accepts path' ∧ ∃ value value',
      (d.build n penalty minAckRate ticketFaceValue).fold 1 path = some value ∧
      (d.build n penalty' minAckRate' ticketFaceValue').fold 1 path' = some value' ∧
      value ≤ value' := by
  rw [accepts_iff_accepted] at h ⊢
  refine h.le_of_own (d.posHomogeneous n _ _ _) (d.posHomogeneous n _ _ _) hlen le_rfl ?_
  intro k hk hk' m hm hpos
  rw [Nat.zero_add] at hm ⊢
  obtain ⟨i, rfl, hok, rfl⟩ := (d.step_eq_some_iff n _ _ _).1 hm
  exact ⟨_, d.step_toNat n _ _ _ hok, hown _ hk hk' i rfl hpos⟩

/-- A path whose edges have multiples of the values of their own has the value times the product of
the multiples, `P k` over the first `k` edges. -/
theorem fold_mul {P : ℕ → ℚ} (hP : P 0 = 1)
    (hown : ∀ (k : ℕ) (hk : k < path.length) (hk' : k < path'.length) (i : Usize t),
      i.toNat = k → 0 < d.value n (Config.resolve penalty minAckRate ticketFaceValue) i 1 path[k] →
      ∃ q, 0 < q ∧ P (k + 1) = P k * q ∧
        d.value n (Config.resolve penalty' minAckRate' ticketFaceValue') i 1 path'[k] =
          d.value n (Config.resolve penalty minAckRate ticketFaceValue) i 1 path[k] * q) :
    ∃ value, (d.build n penalty minAckRate ticketFaceValue).fold 1 path = some value ∧
      (d.build n penalty' minAckRate' ticketFaceValue').fold 1 path' =
        some (value * P path.length) := by
  rw [accepts_iff_accepted] at h
  refine h.mul_of_own (d.posHomogeneous n _ _ _) (d.posHomogeneous n _ _ _) hlen hP ?_
  intro k hk hk' m hm hpos
  rw [Nat.zero_add] at hm ⊢
  obtain ⟨i, rfl, hok, rfl⟩ := (d.step_eq_some_iff n _ _ _).1 hm
  obtain ⟨q, hq, hPq, hvalue⟩ := hown _ hk hk' i rfl hpos
  exact ⟨q, hq, hPq, by rw [d.step_toNat n _ _ _ hok, hvalue]⟩

end Compare

end Direction

end HoprApi.Graph
