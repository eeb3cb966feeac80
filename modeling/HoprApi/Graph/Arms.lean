import HoprApi.Graph.Function
import Mathlib.Algebra.Order.Ring.Rat

/-!
# The arms of the value functions

Which arm of a closure values an edge depends on the constructor, the length and the index alone
(`Direction.arm`).  `Direction.value` is the value an edge gets, as a rational: `valueFn_eq` says
that the closures compute it, except where `path_index + 1` overflows, and the rest of the
development reasons about arms instead of closures.

Every arm is linear in the incoming value (`Arm.value_mul`); only the scaling by health is not, and
it is positively homogeneous.
-/

namespace HoprApi.Graph

open HoprApi.Rust EdgeObservableRead EdgeProtocolObservable EdgeImmediateProtocolObservable

variable {t : Target} {W Imm Inter : Type} [ImmediateMeasurement Imm]
  [IntermediateMeasurement Inter] [EdgeObservableRead W Imm Inter]

/-! ### Which arm values an edge -/

inductive Arm (t : Target) where
  | first (remainingHops : Usize t)
  | funded (remainingHops : Usize t)
  | forwardLast (length : Usize t)
  | returningLast
  | past

def Arm.value (a : Arm t) (cfg : Config) (cost : ℚ) (observation : W) : ℚ :=
  match a with
  | .first hops => firstEdge cfg hops cost observation
  | .funded hops => requireFunding observation cost cfg.penalty hops cfg.ticketFaceValue
  | .forwardLast length => forwardLastEdge cfg length cost observation
  | .returningLast => returningLastEdge cfg cost observation
  | .past => -cost

/-- The number of hops behind the edge of index `i`. -/
def hopsAfter (n : NonZeroUsize t) (i : Usize t) : Usize t :=
  ⟨n.get.toNat - i.toNat - 1, by have := n.get.isLt; omega⟩

/-- The arm of the constructor `d` for the edge of index `i`. -/
def Direction.arm (d : Direction) (n : NonZeroUsize t) (i : Usize t) : Arm t :=
  match d with
  | .forward =>
    if i.toNat + 1 = n.get.toNat then .forwardLast n.get
    else if i.toNat = 0 then .first (hopsAfter n i)
    else if n.get.toNat ≤ i.toNat then .past
    else .funded (hopsAfter n i)
  | .returning =>
    if i.toNat + 1 = n.get.toNat then .returningLast
    else if n.get.toNat ≤ i.toNat then .past
    else .funded (hopsAfter n i)
  | .forwardWithoutSelfLoopback =>
    if i.toNat = 0 then .first (hopsAfter n i)
    else if n.get.toNat ≤ i.toNat then .past
    else .funded (hopsAfter n i)

/-- An index at or past the length is none of the path's edges. -/
theorem arm_of_le {d : Direction} {n : NonZeroUsize t} {i : Usize t}
    (h : n.get.toNat ≤ i.toNat) : d.arm n i = .past := by
  have hpos := n.pos
  have hlast : i.toNat + 1 ≠ n.get.toNat := by omega
  have hfirst : i.toNat ≠ 0 := by omega
  rcases d with _ | _ | _
  · simp only [Direction.arm, if_neg hlast, if_neg hfirst, if_pos h]
  · simp only [Direction.arm, if_neg hlast, if_pos h]
  · simp only [Direction.arm, if_neg hfirst, if_pos h]

/-- The edge at position `k` leads into a relayer. -/
def Direction.LeadsToRelayer (d : Direction) (n : NonZeroUsize t) (k : ℕ) : Prop :=
  d = .forwardWithoutSelfLoopback ∨ k + 1 < n.get.toNat

instance (d : Direction) (n : NonZeroUsize t) : DecidablePred (d.LeadsToRelayer n) := fun k => by
  unfold Direction.LeadsToRelayer
  infer_instance

/-- The value of the edge of index `i` is scaled by health. -/
abbrev Direction.Scaled (d : Direction) (n : NonZeroUsize t) (i : Usize t) : Prop :=
  d.LeadsToRelayer n i.toNat

def Direction.value (d : Direction) (n : NonZeroUsize t) (cfg : Config) (i : Usize t) (cost : ℚ)
    (observation : W) : ℚ :=
  if d.Scaled n i then scaleByHealth ((d.arm n i).value cfg cost observation) (health observation)
  else (d.arm n i).value cfg cost observation

/-! ### The closures compute it -/

section Closures

variable (n : NonZeroUsize t) (cfg : Config) (cost : ℚ) (o : W) (i : Usize t)

theorem sub_one_length : n.get.sub (Usize.one t) = some (hopsAfter n (Usize.zero t)) := by
  rw [Usize.sub_of_le (by rw [Usize.toNat_one]; exact n.pos)]
  rfl

theorem eq_sub_one_length : i = hopsAfter n (Usize.zero t) ↔ i.toNat + 1 = n.get.toNat := by
  have := n.pos
  rw [Usize.ext_iff]
  simp only [hopsAfter, Usize.toNat_zero]
  omega

theorem eq_zero_iff : i = Usize.zero t ↔ i.toNat = 0 := by rw [Usize.ext_iff, Usize.toNat_zero]

theorem sub_sub_one_length (h : i.toNat < n.get.toNat) :
    ((n.get.sub i).bind fun r => r.sub (Usize.one t)) = some (hopsAfter n i) := by
  have h1 : 1 ≤ n.get.toNat - i.toNat := by omega
  rw [Usize.sub_of_le h.le, Option.bind_some, Usize.sub_of_le (by simpa using h1)]
  rfl

theorem forwardEdgeValue_eq :
    forwardEdgeValue cfg n.get cost o i = some ((Direction.forward.arm n i).value cfg cost o) := by
  simp only [forwardEdgeValue, sub_one_length, Option.bind_eq_bind, Option.bind_some,
    eq_sub_one_length, eq_zero_iff, Direction.arm]
  split_ifs with hlast hzero hpast
  · rfl
  · rw [(eq_zero_iff i).2 hzero]
    rfl
  · rfl
  · rw [← Option.bind_assoc, sub_sub_one_length n i (not_le.1 hpast)]
    rfl

theorem returningEdgeValue_eq :
    returningEdgeValue cfg n.get cost o i =
      some ((Direction.returning.arm n i).value cfg cost o) := by
  simp only [returningEdgeValue, sub_one_length, Option.bind_eq_bind, Option.bind_some,
    eq_sub_one_length, Direction.arm]
  split_ifs with hlast hpast
  · rfl
  · rfl
  · rw [← Option.bind_assoc, sub_sub_one_length n i (not_le.1 hpast)]
    rfl

theorem loopbackEdgeValue_eq :
    loopbackEdgeValue cfg n.get cost o i =
      some ((Direction.forwardWithoutSelfLoopback.arm n i).value cfg cost o) := by
  simp only [loopbackEdgeValue, sub_one_length, Option.bind_eq_bind, Option.bind_some,
    eq_zero_iff, Direction.arm]
  split_ifs with hzero hpast
  · rw [(eq_zero_iff i).2 hzero]
    rfl
  · rfl
  · rw [← Option.bind_assoc, sub_sub_one_length n i (not_le.1 hpast)]
    rfl

end Closures

/-- The index arithmetic of the constructor `d` does not overflow at `i`. -/
def Direction.IndexOk (d : Direction) (i : Usize t) : Prop :=
  d = .forwardWithoutSelfLoopback ∨ i.toNat + 1 < 2 ^ t.usizeBits

instance (d : Direction) : DecidablePred (d.IndexOk (t := t)) := fun i => by
  unfold Direction.IndexOk
  infer_instance

theorem Direction.indexOk_of_lt (d : Direction) {n : NonZeroUsize t} {i : Usize t}
    (h : i.toNat < n.get.toNat) : d.IndexOk i := by
  have := n.get.isLt
  exact Or.inr (by omega)

/-- **What the value functions compute.** -/
theorem Direction.valueFn_eq (d : Direction) (n : NonZeroUsize t) (penalty minAckRate : ℚ)
    (ticketFaceValue : Option Balance) (cost : ℚ) (o : W) (i : Usize t) :
    (d.build n penalty minAckRate ticketFaceValue).valueFn cost o i =
      if d.IndexOk i then
        some (d.value n (Config.resolve penalty minAckRate ticketFaceValue) i cost o)
      else none := by
  have hone : i.toNat + (Usize.one t).toNat = i.toNat + 1 := by rw [Usize.toNat_one]
  rcases d with _ | _ | _
  · simp only [Direction.build, EdgeValueFn.forward, forwardEdgeValue_eq, Option.bind_eq_bind,
      Option.bind_some, Direction.IndexOk, reduceCtorEq, false_or, Usize.add, Usize.ofNat?, hone]
    split
    · simp only [Option.bind_some, Direction.value, Direction.LeadsToRelayer, reduceCtorEq, false_or]
      rfl
    · rfl
  · simp only [Direction.build, EdgeValueFn.returning, returningEdgeValue_eq, Option.bind_eq_bind,
      Option.bind_some, Direction.IndexOk, reduceCtorEq, false_or, Usize.add, Usize.ofNat?, hone]
    split
    · simp only [Option.bind_some, Direction.value, Direction.LeadsToRelayer, reduceCtorEq, false_or]
      rfl
    · rfl
  · simp only [Direction.build, EdgeValueFn.forwardWithoutSelfLoopback, loopbackEdgeValue_eq,
      Option.bind_eq_bind, Option.bind_some, Direction.IndexOk, true_or, if_true, Direction.value,
      Direction.LeadsToRelayer]
    rfl

/-! ### Linearity in the incoming value -/

section Linear

variable (cfg : Config) (c cost : ℚ) (o : W)

theorem scoreOrPenalize_mul (score : Option ℚ) (penalty : ℚ) :
    scoreOrPenalize (c * cost) score penalty = c * scoreOrPenalize cost score penalty := by
  unfold scoreOrPenalize
  rw [mul_assoc]

theorem applyAckRate_mul (ackRate : Option ℚ) (minAckRate penalty : ℚ) :
    applyAckRate ackRate (c * cost) minAckRate penalty =
      c * applyAckRate ackRate cost minAckRate penalty := by
  rcases ackRate with _ | rate
  · exact mul_assoc _ _ _
  · simp only [applyAckRate]
    split
    · rw [mul_neg]
    · rw [mul_assoc]

omit [ImmediateMeasurement Imm] in
theorem requireFunding_mul (hops : Usize t) (penalty : ℚ) (ticketFaceValue : Balance) :
    requireFunding o (c * cost) penalty hops ticketFaceValue =
      c * requireFunding o cost penalty hops ticketFaceValue := by
  unfold requireFunding
  split
  · rw [scoreOrPenalize_mul]
  · rw [mul_neg]

/-- **Every arm is linear.** -/
theorem Arm.value_mul (a : Arm t) : a.value cfg (c * cost) o = c * a.value cfg cost o := by
  rcases a with hops | hops | length | _ | _
  · simp only [Arm.value, firstEdge, scoreOrPenalize_mul, applyAckRate_mul]
    split
    · rfl
    · rw [mul_neg]
  · exact requireFunding_mul c cost o hops _ _
  · simp only [Arm.value, forwardLastEdge, scoreOrPenalize_mul, applyAckRate_mul]
    split
    · split_ifs
      · split <;> rfl
      · rfl
    · split
      · split_ifs <;> rfl
      · rw [mul_assoc]
  · simp only [Arm.value, returningLastEdge, scoreOrPenalize_mul, applyAckRate_mul]
    split
    · rfl
    · rw [mul_neg]
  · exact (mul_neg _ _).symm

theorem Arm.value_eq_mul (a : Arm t) : a.value cfg cost o = cost * a.value cfg 1 o := by
  rw [← Arm.value_mul, mul_one]

end Linear

/-! ### Scaling by health -/

/-- The health of `o` is not a judged value that makes a relayer unusable. -/
def HealthUsable (o : W) : Prop := ∀ q, (health o).bind F64.notNan? = some q → 0 < q

theorem scaleByHealth_of_nonpos {v : ℚ} (h : Option F64) (hv : v ≤ 0) : scaleByHealth v h = v :=
  if_pos hv

theorem scaleByHealth_mul {c : ℚ} (hc : 0 < c) (v : ℚ) (h : Option F64) :
    scaleByHealth (c * v) h = c * scaleByHealth v h := by
  unfold scaleByHealth
  have hiff : c * v ≤ 0 ↔ v ≤ 0 := by
    rw [← not_lt, ← not_lt, mul_pos_iff_of_pos_left hc]
  simp only [hiff]
  split_ifs
  · rfl
  · split
    · split_ifs
      · rw [mul_neg]
      · rw [mul_assoc]
    · rfl

omit [ImmediateMeasurement Imm] [IntermediateMeasurement Inter] in
theorem scaleByHealth_pos_iff {v : ℚ} {o : W} :
    0 < scaleByHealth v (health o) ↔ 0 < v ∧ HealthUsable o := by
  unfold scaleByHealth HealthUsable
  by_cases hv : v ≤ 0
  · rw [if_pos hv]
    exact ⟨fun h => absurd h (not_lt.2 hv), fun h => h.1⟩
  · have hv' : 0 < v := not_le.1 hv
    rw [if_neg hv]
    rcases (health o).bind F64.notNan? with _ | q
    · simp [hv']
    · simp only [Option.some.injEq, forall_eq', hv', true_and]
      by_cases hq : q ≤ 0
      · rw [if_pos hq]
        constructor
        · intro h
          linarith
        · intro h
          exact absurd h (not_lt.2 hq)
      · have hmin : 0 < min q 1 := lt_min (not_le.1 hq) zero_lt_one
        rw [if_neg hq]
        exact ⟨fun _ => not_le.1 hq, fun _ => mul_pos hv' hmin⟩

/-- An edge value from a positive incoming value is that value times the edge's own value. -/
theorem Direction.value_mul (d : Direction) (n : NonZeroUsize t) (cfg : Config) (i : Usize t)
    {c : ℚ} (hc : 0 < c) (cost : ℚ) (o : W) :
    d.value n cfg i (c * cost) o = c * d.value n cfg i cost o := by
  unfold Direction.value
  rw [Arm.value_mul]
  split
  · exact scaleByHealth_mul hc _ _
  · rfl

/-- A value is positive exactly when the arm's is and the relayer, if there is one, is usable. -/
theorem Direction.value_pos_iff (d : Direction) (n : NonZeroUsize t) (cfg : Config) (i : Usize t)
    (cost : ℚ) (o : W) :
    0 < d.value n cfg i cost o ↔
      0 < (d.arm n i).value cfg cost o ∧ (d.Scaled n i → HealthUsable o) := by
  unfold Direction.value
  split
  · next h => rw [scaleByHealth_pos_iff, forall_prop_of_true h]
  · next h => simp [h]

end HoprApi.Graph
