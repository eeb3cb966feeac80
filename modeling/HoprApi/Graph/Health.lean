import HoprApi.Graph.Path

/-!
# Health as a factor

The health of an edge into a relayer multiplies the path's value by at most `1`, or rejects the
path; no other edge's health is looked at.  `health_factors` compares the run over a path without
verdicts with the run over the same path with arbitrary ones.
-/

namespace HoprApi.Graph

open HoprApi.Rust HoprApi.Lib EdgeObservableRead

variable {t : Target} {W Imm Inter : Type} [EdgeObservableRead W Imm Inter]

/-! ### Verdicts -/

/-- The judged health of an edge; a NaN is no verdict. -/
def verdict (o : W) : Option ℚ := (health o).bind F64.notNan?

/-- The factor of the judged health; unjudged counts as `1`. -/
def healthFactor (o : W) : ℚ := min 1 ((verdict o).getD 1)

/-- Two observations that differ in their health at most. -/
structure EqExceptHealth (o o' : W) : Prop where
  immediate : immediateQos o = immediateQos o'
  intermediate : intermediateQos o = intermediateQos o'
  score : EdgeObservableRead.score o = EdgeObservableRead.score o'

theorem healthUsable_of_unjudged {o : W} (h : verdict o = none) : HealthUsable o := by
  intro q hq
  rw [show (health o).bind F64.notNan? = none from h] at hq
  cases hq

theorem healthFactor_of_unjudged {o : W} (h : verdict o = none) : healthFactor o = 1 := by
  unfold healthFactor
  rw [h]
  exact min_self 1

theorem healthUsable_iff {o : W} : HealthUsable o ↔ 0 < (verdict o).getD 1 := by
  unfold HealthUsable verdict
  rcases (health o).bind F64.notNan? with _ | q
  · simp
  · simp

theorem healthFactor_pos {o : W} (h : HealthUsable o) : 0 < healthFactor o :=
  lt_min one_pos (healthUsable_iff.1 h)

/-- A usable relayer's health multiplies a positive value by its factor. -/
theorem scaleByHealth_of_usable {v : ℚ} {o : W} (hv : 0 < v) (h : HealthUsable o) :
    scaleByHealth v (health o) = v * healthFactor o := by
  unfold HealthUsable at h
  unfold scaleByHealth healthFactor verdict
  rw [if_neg (not_le.2 hv)]
  rcases hverdict : (health o).bind F64.notNan? with _ | q
  · simp
  · have hq : ¬ q ≤ 0 := not_le.2 (h q hverdict)
    simp only [if_neg hq, Option.getD_some]
    rw [min_comm]

/-! ### The edges into a relayer -/

section Relayers

variable (d : Direction) (n : NonZeroUsize t)

def relayerEdges (path : List W) : List W :=
  (path.zipIdx.filter fun e => d.LeadsToRelayer n e.2).map Prod.fst

theorem mem_relayerEdges {path : List W} {o : W} :
    o ∈ relayerEdges d n path ↔
      ∃ (k : ℕ) (hk : k < path.length), path[k] = o ∧ d.LeadsToRelayer n k := by
  unfold relayerEdges
  simp only [List.mem_map, List.mem_filter, decide_eq_true_eq, Prod.exists,
    List.mem_zipIdx_iff_getElem?, List.getElem?_eq_some_iff]
  constructor
  · rintro ⟨o', k, ⟨⟨hk, ho⟩, hrelayer⟩, rfl⟩
    exact ⟨k, hk, ho, hrelayer⟩
  · rintro ⟨k, hk, ho, hrelayer⟩
    exact ⟨o, k, ⟨⟨hk, ho⟩, hrelayer⟩, rfl⟩

theorem relayerEdges_take_succ {path : List W} {k : ℕ} (hk : k < path.length) :
    relayerEdges d n (path.take (k + 1)) =
      relayerEdges d n (path.take k) ++ if d.LeadsToRelayer n k then [path[k]] else [] := by
  unfold relayerEdges
  rw [List.take_succ_eq_append_getElem hk, List.zipIdx_append, List.filter_append, List.map_append,
    List.length_take_of_le hk.le, Nat.zero_add]
  congr 1
  split
  · next h => simp [h]
  · next h => simp [h]

/-- The product of the health factors of the edges into a relayer. -/
def relayerHealth (path : List W) : ℚ := ((relayerEdges d n path).map healthFactor).prod

theorem relayerHealth_take_succ {path : List W} {k : ℕ} (hk : k < path.length) :
    relayerHealth d n (path.take (k + 1)) =
      relayerHealth d n (path.take k) *
        if d.LeadsToRelayer n k then healthFactor path[k] else 1 := by
  unfold relayerHealth
  rw [relayerEdges_take_succ d n hk, List.map_append, List.prod_append]
  congr 1
  split
  · simp
  · simp

end Relayers

/-! ### One edge -/

variable [ImmediateMeasurement Imm] [IntermediateMeasurement Inter]

theorem Arm.value_congr {o o' : W} (h : EqExceptHealth o o') (a : Arm t) (cfg : Config) (c : ℚ) :
    a.value cfg c o = a.value cfg c o' := by
  rcases a with hops | hops | length | _ | _
  · simp only [Arm.value, firstEdge, h.immediate, h.intermediate, h.score]
  · simp only [Arm.value, requireFunding, h.intermediate]
  · simp only [Arm.value, forwardLastEdge, h.immediate, h.intermediate]
  · simp only [Arm.value, returningLastEdge, h.immediate]
  · rfl

section Edge

variable {d : Direction} {n : NonZeroUsize t} {cfg : Config} {i : Usize t} {o o' : W}

/-- An edge without an unusable relayer is worth what its arm says, times its health. -/
theorem value_of_usable {c : ℚ} (hc : 0 < (d.arm n i).value cfg c o)
    (h : d.LeadsToRelayer n i.toNat → HealthUsable o) :
    d.value n cfg i c o =
      (d.arm n i).value cfg c o * if d.LeadsToRelayer n i.toNat then healthFactor o else 1 := by
  unfold Direction.value
  by_cases hrelayer : d.LeadsToRelayer n i.toNat
  · rw [if_pos hrelayer, if_pos hrelayer, scaleByHealth_of_usable hc (h hrelayer)]
  · rw [if_neg hrelayer, if_neg hrelayer, mul_one]

theorem value_pos_iff_of_unjudged (h : verdict o = none) (hsame : EqExceptHealth o o') {c : ℚ} :
    0 < d.value n cfg i c o' ↔
      0 < d.value n cfg i c o ∧ (d.LeadsToRelayer n i.toNat → HealthUsable o') := by
  rw [Direction.value_pos_iff, Direction.value_pos_iff, Arm.value_congr hsame]
  have hfree : d.Scaled n i → HealthUsable o := fun _ => healthUsable_of_unjudged h
  rw [and_iff_left hfree]

theorem value_judged (h : verdict o = none) (hsame : EqExceptHealth o o') {c : ℚ}
    (hc : 0 < d.value n cfg i c o) (husable : d.LeadsToRelayer n i.toNat → HealthUsable o') :
    d.value n cfg i c o' =
      d.value n cfg i c o * if d.LeadsToRelayer n i.toNat then healthFactor o' else 1 := by
  have harm : 0 < (d.arm n i).value cfg c o := ((d.value_pos_iff n cfg i c o).1 hc).1
  have harm' : 0 < (d.arm n i).value cfg c o' := Arm.value_congr hsame _ cfg c ▸ harm
  rw [value_of_usable harm' husable, value_of_usable harm fun _ => healthUsable_of_unjudged h,
    healthFactor_of_unjudged h, ite_self, mul_one, Arm.value_congr hsame]

theorem value_endpoint (hd : d ≠ .forwardWithoutSelfLoopback) (hi : i.toNat + 1 = n.get.toNat)
    (hsame : EqExceptHealth o o') (c : ℚ) : d.value n cfg i c o = d.value n cfg i c o' := by
  have hscaled : ¬ d.Scaled n i := by
    rintro (h | h)
    · exact hd h
    · omega
  unfold Direction.value
  rw [if_neg hscaled, if_neg hscaled, Arm.value_congr hsame]

end Edge

/-! ### Whole paths -/

section Paths

variable (d : Direction) (n : NonZeroUsize t) (penalty minAckRate : ℚ)
  (ticketFaceValue : Option Balance)

/-- Verdicts only reject: a path with them is accepted exactly when it is accepted without, and no
relayer on it is unusable. -/
theorem accepts_judged_iff {path path' : List W} (hsame : List.Forall₂ EqExceptHealth path path')
    (hunjudged : ∀ o ∈ path, verdict o = none) :
    (d.build n penalty minAckRate ticketFaceValue).Accepts path' ↔
      (d.build n penalty minAckRate ticketFaceValue).Accepts path ∧
        ∀ o ∈ relayerEdges d n path', HealthUsable o := by
  have hlen : path.length = path'.length := hsame.length_eq
  have hedge : ∀ (k : ℕ) (hk : k < path.length) (hk' : k < path'.length),
      verdict path[k] = none ∧ EqExceptHealth path[k] path'[k] := fun k hk hk' =>
    ⟨hunjudged _ (List.getElem_mem hk), hsame.get hk hk'⟩
  rw [Direction.accepts_iff, Direction.accepts_iff]
  constructor
  · intro h
    constructor
    · intro k hk
      obtain ⟨i, hi, hok, hpos⟩ := h k (hlen ▸ hk)
      obtain ⟨hnone, heq⟩ := hedge k hk (hlen ▸ hk)
      exact ⟨i, hi, hok, ((value_pos_iff_of_unjudged hnone heq).1 hpos).1⟩
    · intro o ho
      obtain ⟨k, hk, rfl, hrelayer⟩ := (mem_relayerEdges d n).1 ho
      obtain ⟨i, rfl, -, hpos⟩ := h k hk
      obtain ⟨hnone, heq⟩ := hedge _ (hlen ▸ hk) hk
      exact ((value_pos_iff_of_unjudged hnone heq).1 hpos).2 hrelayer
  · rintro ⟨h, husable⟩ k hk
    obtain ⟨i, rfl, hok, hpos⟩ := h k (hlen ▸ hk)
    obtain ⟨hnone, heq⟩ := hedge _ (hlen ▸ hk) hk
    refine ⟨i, rfl, hok, (value_pos_iff_of_unjudged hnone heq).2 ⟨hpos, fun hrelayer => ?_⟩⟩
    exact husable _ ((mem_relayerEdges d n).2 ⟨_, hk, rfl, hrelayer⟩)

/-- The value of an accepted path is multiplied by the health of its relayers. -/
theorem fold_judged {path path' : List W} (hsame : List.Forall₂ EqExceptHealth path path')
    (hunjudged : ∀ o ∈ path, verdict o = none)
    (h : (d.build n penalty minAckRate ticketFaceValue).Accepts path)
    (husable : ∀ o ∈ relayerEdges d n path', HealthUsable o) {value : ℚ}
    (hvalue : (d.build n penalty minAckRate ticketFaceValue).fold 1 path = some value) :
    (d.build n penalty minAckRate ticketFaceValue).fold 1 path' =
      some (value * relayerHealth d n path') := by
  have hlen : path'.length = path.length := hsame.length_eq.symm
  have hmul : ∃ w, (d.build n penalty minAckRate ticketFaceValue).fold 1 path = some w ∧
      (d.build n penalty minAckRate ticketFaceValue).fold 1 path' =
        some (w * relayerHealth d n (path'.take path.length)) := by
    refine d.fold_mul n h hlen (P := fun k => relayerHealth d n (path'.take k))
      (by simp [relayerHealth, relayerEdges]) ?_
    rintro _ hk hk' i rfl hpos
    have hrelayer : d.LeadsToRelayer n i.toNat → HealthUsable path'[i.toNat] := fun hr =>
      husable _ ((mem_relayerEdges d n).2 ⟨_, hk', rfl, hr⟩)
    refine ⟨_, ?_, relayerHealth_take_succ d n hk', ?_⟩
    · split
      · next hr => exact healthFactor_pos (hrelayer hr)
      · exact one_pos
    · exact value_judged (hunjudged _ (List.getElem_mem hk)) (hsame.get hk hk') hpos hrelayer
  obtain ⟨w, hw, hw'⟩ := hmul
  obtain rfl : w = value := Option.some.inj (hw.symm.trans hvalue)
  rwa [← hlen, List.take_length] at hw'

/-- **Relayer health is an independent factor of a path's value.** -/
theorem health_factors (path path' : List W) (hsame : List.Forall₂ EqExceptHealth path path')
    (hunjudged : ∀ o ∈ path, verdict o = none) :
    let f : EdgeValueFn t ℚ W := d.build n penalty minAckRate ticketFaceValue
    (∀ value, f.Accepts path → f.fold 1 path = some value →
      (f.Accepts path' ↔ ∀ o ∈ relayerEdges d n path', HealthUsable o) ∧
      (f.Accepts path' → f.fold 1 path' = some (value * relayerHealth d n path'))) ∧
    -- a verdict does not resurrect a path
    (¬ f.Accepts path → ¬ f.Accepts path') ∧
    -- and the endpoint's is not looked at
    (d ≠ .forwardWithoutSelfLoopback → ∀ (c : ℚ) (o o' : W), EqExceptHealth o o' →
      ∀ i : Usize t, i.toNat + 1 = n.get.toNat → f.valueFn c o i = f.valueFn c o' i) := by
  intro f
  have hiff : f.Accepts path' ↔ f.Accepts path ∧ ∀ o ∈ relayerEdges d n path', HealthUsable o :=
    accepts_judged_iff d n penalty minAckRate ticketFaceValue hsame hunjudged
  refine ⟨fun value hacc hvalue => ⟨?_, fun hacc' => ?_⟩, fun hrejected hacc' => ?_, ?_⟩
  · rw [hiff, and_iff_right hacc]
  · exact fold_judged d n _ _ _ hsame hunjudged hacc (hiff.1 hacc').2 hvalue
  · exact hrejected (hiff.1 hacc').1
  · intro hd c o o' heq i hi
    show (d.build n _ _ _).valueFn c o i = (d.build n _ _ _).valueFn c o' i
    rw [Direction.valueFn_eq, Direction.valueFn_eq, value_endpoint hd hi heq]

/-- A relayer of health one half before an endpoint that would be unusable as a relayer. -/
def judgedPath : List Observations :=
  [{ healthy with health := some (.rat (1 / 2)) }, { healthy with health := some (.rat (-3)) }]

/-- The relayer halves the value, and the endpoint's verdict does not count. -/
theorem health_factors_judgedPath :
    (Direction.forward.build (.wide 2 (by decide)) (1 / 2) (1 / 10) none).fold 1 judgedPath =
      some (3249 / 4000 * relayerHealth .forward (.wide 2 (by decide)) judgedPath) := by
  have hunjudged : ∀ o ∈ [healthy, healthy], verdict o = none := by
    intro o ho
    obtain rfl : o = healthy := by simpa using ho
    rfl
  have hacc : (Direction.forward.build (.wide 2 (by decide)) (1 / 2) (1 / 10) none).Accepts
      [healthy, healthy] :=
    Fold.accepted_iff_prune.2 ⟨by decide, 3249 / 4000, by decide +kernel⟩
  obtain ⟨hiff, hvalue⟩ := (health_factors .forward (.wide 2 (by decide)) (1 / 2) (1 / 10) none
    [healthy, healthy] judgedPath (.cons ⟨rfl, rfl, rfl⟩ (.cons ⟨rfl, rfl, rfl⟩ .nil))
    hunjudged).1 (3249 / 4000) hacc (by decide +kernel)
  refine hvalue (hiff.2 fun o ho q hq => ?_)
  have hedges : relayerEdges .forward (.wide 2 (by decide)) judgedPath =
      [{ healthy with health := some (.rat (1 / 2)) }] := rfl
  rw [hedges, List.mem_singleton] at ho
  subst ho
  cases hq
  norm_num

end Paths

end HoprApi.Graph
