import HoprApi.Graph.Gates
import HoprApi.Graph.Path

/-!
# The product law and rejection along a path

A value function multiplies a positive incoming value by the edge's own value, so the value of an
accepted path is the product of these (`traverse_eq_product`).  A rejection negates: the traversal
never continues behind one, but a fold that does is turned positive again by the next edge that
fails its gate (`rejection_absorbing`).
-/

namespace HoprApi.Graph

open HoprApi.Rust HoprApi.Lib EdgeObservableRead

variable {t : Target} {W Imm Inter : Type} [ImmediateMeasurement Imm]
  [IntermediateMeasurement Inter] [EdgeObservableRead W Imm Inter]

/-! ### The product law -/

/-- The values `value_fn(1, o_i, i)` of the single edges of a path. -/
def EdgeValueFn.ownValues (f : EdgeValueFn t ℚ W) (path : List W) : List (Option ℚ) :=
  Fold.ownValues f.step 0 path

section Product

variable (d : Direction) (n : NonZeroUsize t) (penalty minAckRate : ℚ)
  (ticketFaceValue : Option Balance)

/-- **A path's value is the product of its edges' own values.** -/
theorem traverse_eq_product (v : ℚ) (hv : 0 < v) (path : List W) :
    let f : EdgeValueFn t ℚ W := d.build n penalty minAckRate ticketFaceValue
    (∀ w, f.traverse v path = .accepted w ↔
      ∃ ms : List ℚ, f.ownValues path = ms.map some ∧ (∀ m ∈ ms, 0 < m) ∧ w = v * ms.prod) ∧
    (∀ k, f.traverse v path = .discarded k ↔
      ∃ (pre : List ℚ) (m : ℚ) (rest : List (Option ℚ)),
        f.ownValues path = pre.map some ++ some m :: rest ∧
        (∀ p ∈ pre, 0 < p) ∧ m ≤ 0 ∧ k = pre.length) ∧
    -- folding edge by edge, or on from a shared prefix, gives the same
    (∀ w, f.traverse v path = .accepted w → f.fold v path = some w) ∧
    (∀ xs ys, path = xs ++ ys → f.traverse v path =
      (f.traverse v xs).andThen fun w => Fold.prune f.step xs.length w ys) ∧
    -- and an edge whose index is in range has a value
    (path.length < 2 ^ t.usizeBits → ∃ ms : List ℚ, f.ownValues path = ms.map some) := by
  intro f
  have hom : Fold.PosHomogeneous f.step := d.posHomogeneous n penalty minAckRate ticketFaceValue
  refine ⟨fun w => Fold.prune_eq_accepted_iff hom hv, fun k => ?_,
    fun w => Fold.foldFrom_of_prune, ?_, ?_⟩
  · refine (Fold.prune_eq_discarded_iff hom hv).trans ?_
    simp only [Nat.zero_add]
    rfl
  · rintro xs ys rfl
    have happend := Fold.prune_append f.step xs ys 0 v
    rwa [Nat.zero_add] at happend
  · intro hlen
    refine Fold.ownValues_eq_map fun k hk => ?_
    let i : Usize t := ⟨k, by omega⟩
    have hok : d.IndexOk i := Or.inr (show k + 1 < 2 ^ t.usizeBits by omega)
    exact ⟨_, by rw [Nat.zero_add]; exact d.step_toNat n penalty minAckRate ticketFaceValue hok⟩

theorem traverse_eq_product_healthy :
    ∃ ms : List ℚ,
      (Direction.forward.build (.wide 2 (by decide)) (1 / 2) (1 / 10) none).ownValues
        [healthy, healthy] = ms.map some ∧
      (∀ m ∈ ms, 0 < m) ∧ (3249 / 4000 : ℚ) = 1 * ms.prod := by
  have h := traverse_eq_product .forward (.wide 2 (by decide)) (1 / 2) (1 / 10)
    none 1 (by decide) [healthy, healthy]
  exact (h.1 (3249 / 4000)).1 (by decide +kernel)

end Product

/-! ### Rejection -/

section Sign

variable (d : Direction) (n : NonZeroUsize t) (cfg : Config) (i : Usize t) {c : ℚ} {o : W}

theorem value_zero : d.value n cfg i 0 o = 0 := by
  have harm : (d.arm n i).value cfg 0 o = 0 := by rw [Arm.value_eq_mul, zero_mul]
  unfold Direction.value
  rw [harm, scaleByHealth_of_nonpos _ le_rfl, ite_self]

/-- Behind an edge that passes its gate a non-positive value stays non-positive. -/
theorem value_nonpos (hc : c ≤ 0) (hg : (d.arm n i).Gate cfg o) : d.value n cfg i c o ≤ 0 := by
  have hown : 0 ≤ (d.arm n i).value cfg 1 o := by
    rw [← not_lt, (Arm.value_one_signedBy cfg o _).2, not_not]
    exact hg
  have harm : (d.arm n i).value cfg c o ≤ 0 := by
    rw [Arm.value_eq_mul]
    exact mul_nonpos_of_nonpos_of_nonneg hc hown
  unfold Direction.value
  split
  · rw [scaleByHealth_of_nonpos _ harm]
    exact harm
  · exact harm

theorem value_pos_of_neg_iff (hc : c < 0) :
    0 < d.value n cfg i c o ↔
      ¬ (d.arm n i).Gate cfg o ∧ (d.Scaled n i → HealthUsable o) := by
  rw [Direction.value_pos_iff, Arm.value_eq_mul, ← (Arm.value_one_signedBy cfg o _).2]
  refine and_congr_left fun _ => ?_
  constructor
  · intro h
    by_contra hneg
    exact absurd h (not_lt.2 (mul_nonpos_of_nonpos_of_nonneg hc.le (not_lt.1 hneg)))
  · intro h
    exact mul_pos_of_neg_of_neg hc h

end Sign

/-- **How rejection is absorbing.** -/
theorem rejection_absorbing (d : Direction) (n : NonZeroUsize t) (penalty minAckRate : ℚ)
    (ticketFaceValue : Option Balance) (path : List W) :
    let f : EdgeValueFn t ℚ W := d.build n penalty minAckRate ticketFaceValue
    let Passes := fun (k : ℕ) (o : W) => ∃ i : Usize t, i.toNat = k ∧
      (d.arm n i).Gate (Config.resolve penalty minAckRate ticketFaceValue) o
    -- the traversal accepts no path with a rejected edge
    ((∃ (k : ℕ) (hk : k < path.length) (m : ℚ), f.step 1 path[k] k = some m ∧ m ≤ 0) →
      ∀ w, f.traverse 1 path ≠ .accepted w) ∧
    -- without the discarding, a non-positive prefix value stays so behind edges that pass
    (∀ j k, j ≤ k → ∀ a b, f.fold 1 (path.take j) = some a → a ≤ 0 →
      (∀ (l : ℕ) (hl : l < path.length), j ≤ l → l < k → Passes l path[l]) →
      f.fold 1 (path.take k) = some b → b ≤ 0) ∧
    -- one that is zero stays zero behind every edge
    (∀ j k, j ≤ k → ∀ b, f.fold 1 (path.take j) = some 0 → f.fold 1 (path.take k) = some b →
      b = 0) ∧
    -- and the next edge makes a negative one positive exactly when it fails
    (∀ (i : Usize t) (o : W) (a b : ℚ), a < 0 → f.valueFn a o i = some b →
      (0 < b ↔ ¬ Passes i.toNat o ∧ (d.Scaled n i → HealthUsable o))) := by
  intro f Passes
  have hpass : ∀ (i : Usize t) (o : W), Passes i.toNat o ↔
      (d.arm n i).Gate (Config.resolve penalty minAckRate ticketFaceValue) o := by
    intro i o
    constructor
    · rintro ⟨i', hi', hg⟩
      rwa [Usize.ext hi'] at hg
    · intro hg
      exact ⟨i, rfl, hg⟩
  refine ⟨?_, ?_, ?_, ?_⟩
  · rintro ⟨k, hk, m, hm, hm0⟩ w hw
    have hacc := (Fold.accepted_iff (d.posHomogeneous n penalty minAckRate ticketFaceValue)
      zero_lt_one).1 (Fold.accepted_iff_prune.2 ⟨zero_lt_one, w, hw⟩) k hk
    obtain ⟨m', hm', hpos⟩ := hacc
    rw [Nat.zero_add, hm, Option.some.injEq] at hm'
    exact absurd hpos (not_lt.2 (hm' ▸ hm0))
  · intro j k hjk a b ha ha0 hgates hb
    refine Fold.foldFrom_take_invariant (fun c => c ≤ 0) hjk ha ha0 ?_ hb
    intro l hl hjl hlk c c' hc hstep
    rw [Nat.zero_add] at hstep
    obtain ⟨i, rfl, -, rfl⟩ := (d.step_eq_some_iff n penalty minAckRate ticketFaceValue).1 hstep
    exact value_nonpos d n _ i hc ((hpass i _).1 (hgates i.toNat hl hjl hlk))
  · intro j k hjk b hzero hb
    refine Fold.foldFrom_take_invariant (fun c => c = 0) hjk hzero rfl ?_ hb
    rintro l hl hjl hlk _ c' rfl hstep
    rw [Nat.zero_add] at hstep
    obtain ⟨i, -, -, rfl⟩ := (d.step_eq_some_iff n penalty minAckRate ticketFaceValue).1 hstep
    exact value_zero d n _ i
  · intro i o a b ha hb
    rw [Direction.valueFn_eq] at hb
    split at hb
    · rw [Option.some.injEq] at hb
      rw [← hb, value_pos_of_neg_iff d n _ i ha, hpass]
    · cases hb

/-- With a penalty of `0` an unknown ack rate takes the value to `0`, where the two rejected edges
behind it leave it. -/
theorem rejection_absorbing_zero :
    let path := [acking none, unobserved, unobserved]
    let f := Direction.forward.build (.wide 3 (by decide)) 0 0 none
    f.fold 1 (path.take 1) = some 0 ∧ (∀ w, f.traverse 1 path ≠ .accepted w) ∧
    ∀ b, f.fold 1 path = some b → b = 0 := by
  intro path f
  have hzero : f.fold 1 (path.take 1) = some 0 := by decide +kernel
  obtain ⟨htraverse, -, hstays, -⟩ :=
    rejection_absorbing .forward (.wide 3 (by decide)) 0 0 none path
  refine ⟨hzero, htraverse ⟨0, by decide, 0, by decide +kernel, le_rfl⟩, fun b hb => ?_⟩
  exact hstays 1 3 (by decide) b hzero hb

/-- Two rejected edges of a three-edge path make the prefix value positive again. -/
theorem rejection_cancels :
    (Direction.forward.build (.wide 3 (by decide)) (1 / 2) (1 / 10) none).fold 1
      ([unobserved, unobserved, healthy].take 1) = some (-1) ∧
    (Direction.forward.build (.wide 3 (by decide)) (1 / 2) (1 / 10) none).fold 1
      ([unobserved, unobserved, healthy].take 2) = some 1 := by
  decide +kernel

end HoprApi.Graph
