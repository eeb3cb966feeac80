import HoprApi.Graph.Factors
import HoprApi.Graph.Path
import Mathlib.Algebra.Order.Ring.Abs

/-!
# A path is no better than its weakest edge

With scores and ack rates in their documented range no edge enlarges the value it is handed
(`Direction.abs_value_le`), so the values of the prefixes of an accepted path do not increase, and
the path is worth no more than the score of any of its edges (`weakest_edge`).
-/

namespace HoprApi.Graph

open HoprApi.Rust HoprApi.Lib EdgeObservableRead EdgeNetworkObservableRead EdgeProtocolObservable
  EdgeImmediateProtocolObservable

variable {t : Target} {W Imm Inter : Type} [ImmediateMeasurement Imm]
  [IntermediateMeasurement Inter] [EdgeObservableRead W Imm Inter]

/-! ### The documented ranges -/

/-- A score or a rate, where it is known, lies in `[0, 1]`. -/
def InUnit (x : Option ℚ) : Prop := ∀ q, x = some q → 0 ≤ q ∧ q ≤ 1

/-- The scores and the ack rate of an edge are in range. -/
structure InRange (o : W) : Prop where
  score : InUnit (EdgeObservableRead.score o)
  immediate : ∀ immediate, immediateQos o = some immediate →
    InUnit (EdgeLinkObservable.score immediate) ∧ InUnit (ackRate immediate)
  intermediate : ∀ intermediate, intermediateQos o = some intermediate →
    InUnit (EdgeLinkObservable.score intermediate)

theorem InUnit.getD {x : Option ℚ} (h : InUnit x) {p : ℚ} (hp : 0 ≤ p ∧ p ≤ 1) :
    0 ≤ x.getD p ∧ x.getD p ≤ 1 := by
  rcases x with _ | q
  · exact hp
  · exact h q rfl

section Ranges

variable {cfg : Config} {o : W}

theorem scoreOrPenalize_mem (cfg : Config) {score : Option ℚ} (h : InUnit score) :
    0 ≤ scoreOrPenalize 1 score cfg.penalty ∧ scoreOrPenalize 1 score cfg.penalty ≤ 1 := by
  obtain ⟨h0, h1⟩ := h.getD cfg.penalty_mem
  rw [scoreOrPenalize_one]
  exact ⟨h0.trans (le_max_left _ _), max_le h1 (by norm_num [measuredDeadFloor])⟩

theorem abs_applyAckRate_le {rate : Option ℚ} (h : InUnit rate) (base : ℚ) :
    |applyAckRate rate base cfg.minAckRate cfg.penalty| ≤ |base| := by
  have hscale : ∀ f, 0 ≤ f ∧ f ≤ 1 → |base * f| ≤ |base| := by
    intro f hf
    rw [abs_mul, abs_of_nonneg hf.1]
    exact mul_le_of_le_one_right (abs_nonneg _) hf.2
  rcases rate with _ | r
  · exact hscale _ cfg.penalty_mem
  · simp only [applyAckRate]
    split
    · rw [abs_neg]
    · exact hscale r (h r rfl)

theorem abs_scored_le {score : Option ℚ} (h : InUnit score) :
    |scoreOrPenalize 1 score cfg.penalty| ≤ 1 := by
  obtain ⟨h0, h1⟩ := scoreOrPenalize_mem cfg h
  rwa [abs_of_nonneg h0]

theorem abs_acked_le {score rate : Option ℚ} (hs : InUnit score) (hr : InUnit rate) :
    |applyAckRate rate (scoreOrPenalize 1 score cfg.penalty) cfg.minAckRate cfg.penalty| ≤ 1 :=
  (abs_applyAckRate_le hr _).trans (abs_scored_le hs)

end Ranges

/-! ### No edge enlarges a value -/

theorem abs_neg_one_le : |(-1 : ℚ)| ≤ 1 := by norm_num

theorem abs_forwardLastEdge_le {cfg : Config} {o : W} (h : InRange o) (length : Usize t) :
    |forwardLastEdge cfg length 1 o| ≤ 1 := by
  unfold forwardLastEdge
  rcases hinter : (intermediateQos o).filter fun inter => (balance inter).isSome with _ | inter
  · rcases hlive : (immediateQos o).filter notDisconnected with _ | imm
    · obtain ⟨hp0, hp1⟩ := cfg.penalty_mem
      simp only [one_mul]
      rwa [abs_of_nonneg hp0]
    · have himm := h.immediate imm (Option.filter_eq_some_iff.1 hlive).1
      simp only
      split
      · exact abs_acked_le himm.1 himm.2
      · exact abs_scored_le himm.1
  · have hscore := h.intermediate inter (Option.filter_eq_some_iff.1 hinter).1
    rcases himm : immediateQos o with _ | imm
    · simp only
      split <;> exact abs_scored_le hscore
    · simp only
      split
      · exact abs_acked_le hscore (h.immediate imm himm).2
      · exact abs_scored_le hscore

theorem Arm.abs_value_one_le {cfg : Config} {o : W} (h : InRange o) (a : Arm t) :
    |a.value cfg 1 o| ≤ 1 := by
  rcases a with hops | hops | length | _ | _
  · simp only [Arm.value, firstEdge]
    split
    · next imm _ hlive _ =>
      exact abs_acked_le h.score (h.immediate imm (Option.filter_eq_some_iff.1 hlive).1).2
    · exact abs_neg_one_le
  · simp only [Arm.value, requireFunding]
    split
    · next inter hinter =>
      exact abs_scored_le (h.intermediate inter (Option.filter_eq_some_iff.1 hinter).1)
    · exact abs_neg_one_le
  · exact abs_forwardLastEdge_le h length
  · simp only [Arm.value, returningLastEdge]
    split
    · next imm hlive =>
      have himm := h.immediate imm (Option.filter_eq_some_iff.1 hlive).1
      exact abs_acked_le himm.1 himm.2
    · exact abs_neg_one_le
  · exact abs_neg_one_le

theorem abs_scaleByHealth_le (v : ℚ) (h : Option F64) : |scaleByHealth v h| ≤ |v| := by
  unfold scaleByHealth
  split_ifs with hv
  · exact le_rfl
  · split
    · next q _ =>
      split_ifs with hq
      · rw [abs_neg]
      · have hmin : 0 ≤ min q 1 := le_min (not_le.1 hq).le zero_le_one
        rw [abs_mul, abs_of_nonneg hmin]
        exact mul_le_of_le_one_right (abs_nonneg _) (min_le_right _ _)
    · exact le_rfl

/-- **No edge enlarges the value it is handed.** -/
theorem Direction.abs_value_le (d : Direction) (n : NonZeroUsize t) (cfg : Config) (i : Usize t)
    (c : ℚ) {o : W} (h : InRange o) : |d.value n cfg i c o| ≤ |c| := by
  have harm : |(d.arm n i).value cfg c o| ≤ |c| := by
    rw [Arm.value_eq_mul, abs_mul]
    exact mul_le_of_le_one_right (abs_nonneg _) (Arm.abs_value_one_le h _)
  unfold Direction.value
  split
  · exact (abs_scaleByHealth_le _ _).trans harm
  · exact harm

/-! ### The score that an edge is valued by -/

theorem directFactor_le_one {o : W} (h : InRange o) {immediate : Option Imm}
    (himm : ∀ imm, immediate = some imm → immediateQos o = some imm) (length : Usize t) {p : ℚ}
    (hp : 0 ≤ p ∧ p ≤ 1) : directFactor length immediate p ≤ 1 := by
  unfold directFactor
  split
  · next imm =>
    split
    · exact ((h.immediate imm (himm imm rfl)).2.getD hp).2
    · exact le_rfl
  · exact le_rfl

/-- The factors of an edge multiply up to no more than the score it is valued by. -/
theorem Arm.factor_le_quality {p : ℚ} (hp : 0 ≤ p ∧ p ≤ 1) {o : W} (h : InRange o) {a : Arm t}
    (ha : a ≠ .past) : a.factor p o ≤ max (a.quality p o) measuredDeadFloor := by
  have hfloor : 0 < measuredDeadFloor := by norm_num [measuredDeadFloor]
  have hscored : ∀ (s : Option ℚ) (f : ℚ), f ≤ 1 →
      scoreOrPenalize 1 s p * f ≤ max (s.getD p) measuredDeadFloor := by
    intro s f hf
    rw [scoreOrPenalize_one]
    exact mul_le_of_le_one_right (hfloor.le.trans (le_max_right _ _)) hf
  have hack : ((immediateQos o).bind ackRate).getD p ≤ 1 := by
    rcases himm : immediateQos o with _ | imm
    · exact hp.2
    · exact ((h.immediate imm himm).2.getD hp).2
  rcases a with hops | hops | length | _ | _
  · exact hscored _ _ hack
  · exact (scoreOrPenalize_one _ _).le
  · simp only [Arm.factor, Arm.quality]
    rcases (intermediateQos o).filter fun inter => (balance inter).isSome with _ | inter
    · rcases hlive : (immediateQos o).filter notDisconnected with _ | imm
      · exact le_max_left _ _
      · refine hscored _ _ (directFactor_le_one h ?_ length hp)
        rintro _ ⟨⟩
        exact (Option.filter_eq_some_iff.1 hlive).1
    · exact hscored _ _ (directFactor_le_one h (fun _ himm => himm) length hp)
  · exact hscored _ _ hack
  · exact absurd rfl ha

theorem scaleByHealth_le (v : ℚ) (h : Option F64) : scaleByHealth v h ≤ v := by
  rcases le_or_gt v 0 with hv | hv
  · exact (scaleByHealth_of_nonpos h hv).le
  · have habs := abs_scaleByHealth_le v h
    rw [abs_of_pos hv] at habs
    exact (le_abs_self _).trans habs

/-- The value of an edge is at most the score it is valued by. -/
theorem Direction.value_le_quality (d : Direction) (n : NonZeroUsize t) (cfg : Config)
    (i : Usize t) {o : W} (h : InRange o) (hpos : 0 < d.value n cfg i 1 o) :
    d.value n cfg i 1 o ≤ max ((d.arm n i).quality cfg.penalty o) measuredDeadFloor := by
  have hgate := ((d.value_pos_iff_gate n cfg i one_pos o).1 hpos).1.1
  have hpast : d.arm n i ≠ .past := by
    intro ha
    rw [ha] at hgate
    exact hgate
  have harm : d.value n cfg i 1 o ≤ (d.arm n i).value cfg 1 o := by
    unfold Direction.value
    split
    · exact scaleByHealth_le _ _
    · exact le_rfl
  calc d.value n cfg i 1 o ≤ (d.arm n i).value cfg 1 o := harm
    _ = (d.arm n i).factor cfg.penalty o := Arm.value_of_gate hgate
    _ ≤ max ((d.arm n i).quality cfg.penalty o) measuredDeadFloor :=
      Arm.factor_le_quality cfg.penalty_mem h hpast

/-! ### Whole paths -/

/-- **Extending a path never improves it, and a path is no better than its weakest edge.** -/
theorem weakest_edge (d : Direction) (n : NonZeroUsize t) (penalty minAckRate : ℚ)
    (ticketFaceValue : Option Balance) :
    let f : EdgeValueFn t ℚ W := d.build n penalty minAckRate ticketFaceValue
    (∀ (c : ℚ) (o : W) (i : Usize t) (w : ℚ), InRange o → f.valueFn c o i = some w → |w| ≤ |c|) ∧
    ∀ path : List W, (∀ o ∈ path, InRange o) → f.Accepts path →
      (∀ j k, j ≤ k → k ≤ path.length → ∀ a b, f.fold 1 (path.take j) = some a →
        f.fold 1 (path.take k) = some b → 0 < b ∧ b ≤ a ∧ a ≤ 1) ∧
      ∀ w, f.fold 1 path = some w → ∀ (k : ℕ) (hk : k < path.length) (i : Usize t), i.toNat = k →
        w ≤ max ((d.arm n i).quality (clamp penalty 0 1) path[k]) measuredDeadFloor := by
  intro f
  set cfg := Config.resolve penalty minAckRate ticketFaceValue
  refine ⟨fun c o i w h hw => ?_, fun path hrange hacc => ?_⟩
  · rw [Direction.valueFn_eq] at hw
    split at hw
    · cases hw
      exact d.abs_value_le n _ i c h
    · cases hw
  have hom : Fold.PosHomogeneous f.step := d.posHomogeneous n penalty minAckRate ticketFaceValue
  have hacc' : Fold.Accepted f.step 0 1 path :=
    (d.accepts_iff_accepted n penalty minAckRate ticketFaceValue).1 hacc
  have hone : ∀ (k : ℕ) (hk : k < path.length) (m : ℚ), f.step 1 path[k] (0 + k) = some m →
      m ≤ 1 := by
    intro k hk m hm
    obtain ⟨i, -, -, rfl⟩ := (d.step_eq_some_iff n penalty minAckRate ticketFaceValue).1 hm
    have habs := d.abs_value_le n cfg i 1 (hrange _ (List.getElem_mem hk))
    rw [abs_one] at habs
    exact (le_abs_self _).trans habs
  refine ⟨fun j k hjk hk a b ha hb => ⟨?_, ?_, ?_⟩, fun w hw k hk i hi => ?_⟩
  · obtain ⟨b', hb', hpos⟩ := hacc' k hk
    rw [show b = b' from Option.some.inj (hb.symm.trans hb')]
    exact hpos
  · exact Fold.Accepted.antitone hom hacc' hone hjk hk ha hb
  · exact Fold.Accepted.antitone hom hacc' hone (Nat.zero_le j) (hjk.trans hk) rfl ha
  · obtain ⟨i', hi', hok, hpos⟩ := (d.accepts_iff n penalty minAckRate ticketFaceValue).1 hacc k hk
    obtain rfl : i = i' := Usize.ext (hi.trans hi'.symm)
    subst hi
    have hown : w ≤ d.value n cfg i 1 path[i.toNat] := by
      refine Fold.Accepted.le_own hom hacc' hone hk le_rfl ?_ hw
      rw [Nat.zero_add]
      exact d.step_toNat n penalty minAckRate ticketFaceValue hok
    exact hown.trans (d.value_le_quality n cfg i (hrange _ (List.getElem_mem hk)) hpos)

theorem inRange_healthy : InRange healthy := by
  have hscore : InUnit (some (19 / 20)) := by
    rintro _ ⟨⟩
    norm_num
  have hrate : InUnit (some (9 / 10)) := by
    rintro _ ⟨⟩
    norm_num
  refine ⟨?_, ?_, ?_⟩
  · have hmean : EdgeObservableRead.score healthy = some (19 / 20) := by decide +kernel
    rw [hmean]
    exact hscore
  · rintro _ ⟨⟩
    exact ⟨hscore, hrate⟩
  · rintro _ ⟨⟩
    exact hscore

/-- Two healthy edges are worth no more than the first of them, and no more than their score. -/
theorem weakest_edge_healthy :
    let f := Direction.forward.build (.wide 2 (by decide)) (1 / 2) (1 / 10) none
    f.fold 1 [healthy, healthy] = some (3249 / 4000) ∧
    f.fold 1 ([healthy, healthy].take 1) = some (171 / 200) ∧
    (3249 / 4000 : ℚ) ≤ 171 / 200 ∧ (3249 / 4000 : ℚ) ≤ max (19 / 20) measuredDeadFloor := by
  intro f
  have hacc : f.Accepts [healthy, healthy] :=
    Fold.accepted_iff_prune.2 ⟨by decide, 3249 / 4000, by decide +kernel⟩
  have hfold : f.fold 1 [healthy, healthy] = some (3249 / 4000) := by decide +kernel
  have hprefix : f.fold 1 ([healthy, healthy].take 1) = some (171 / 200) := by decide +kernel
  obtain ⟨hfalls, hedge⟩ := (weakest_edge .forward (.wide 2 (by decide)) (1 / 2) (1 / 10) none).2
    [healthy, healthy] (by simp [inRange_healthy]) hacc
  have hquality : (Direction.forward.arm (.wide 2 (by decide)) (Usize.zero Target.wide)).quality
      (clamp (1 / 2) 0 1) healthy = 19 / 20 := by decide +kernel
  refine ⟨hfold, hprefix, (hfalls 1 2 (by decide) le_rfl _ _ hprefix hfold).2.1, ?_⟩
  rw [← hquality]
  exact hedge _ hfold 0 (by decide) (Usize.zero Target.wide) rfl

end HoprApi.Graph
