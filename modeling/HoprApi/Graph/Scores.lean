import HoprApi.Graph.Bounds
import HoprApi.Graph.Monotone
import Mathlib.Algebra.Order.BigOperators.GroupWithZero.List

/-!
# Scores rank and never reject

The gates of an edge ask for its streams, its connectivity, its funding, its ack rate and its
health.  A score only scales, and the floor keeps its factor positive.  So two paths that differ in
their scores alone are accepted or rejected together, and their values are in the ratio of the
scores (`scores_rank`).
-/

namespace HoprApi.Graph

open HoprApi.Rust HoprApi.Lib EdgeObservableRead EdgeNetworkObservableRead EdgeProtocolObservable
  EdgeImmediateProtocolObservable

variable {t : Target} {W Imm Inter : Type} [ImmediateMeasurement Imm]
  [IntermediateMeasurement Inter] [EdgeObservableRead W Imm Inter]

/-! ### Observations up to scores -/

structure EqExceptScore (immediate immediate' : Imm) : Prop where
  isConnected : EdgeNetworkObservableRead.isConnected immediate =
    EdgeNetworkObservableRead.isConnected immediate'
  ackRate : EdgeImmediateProtocolObservable.ackRate immediate =
    EdgeImmediateProtocolObservable.ackRate immediate'

/-- Two observations that differ at most in the scores of their streams and in the aggregate. -/
structure EqExceptScores (o o' : W) : Prop where
  immediate : Option.Rel EqExceptScore (immediateQos o) (immediateQos o')
  intermediate : Option.Rel (fun inter inter' : Inter => balance inter = balance inter')
    (intermediateQos o) (intermediateQos o')
  health : verdict o = verdict o'

theorem rel_symm {α β : Type} {R : α → β → Prop} {S : β → α → Prop} (hRS : ∀ a b, R a b → S b a)
    {x : Option α} {y : Option β} (h : Option.Rel R x y) : Option.Rel S y x := by
  cases h with
  | none => exact .none
  | some h => exact .some (hRS _ _ h)

theorem EqExceptScores.symm {o o' : W} (h : EqExceptScores o o') : EqExceptScores o' o where
  immediate := rel_symm (fun _ _ h => ⟨h.isConnected.symm, h.ackRate.symm⟩) h.immediate
  intermediate := rel_symm (fun _ _ h => h.symm) h.intermediate
  health := h.health.symm

/-! ### The gates do not look at scores -/

section Gates

variable {cfg : Config} {o o' : W} (h : EqExceptScores o o')
include h

theorem EqExceptScores.funded {hops : ℕ} (hf : Funded cfg hops o) : Funded cfg hops o' := by
  obtain ⟨inter, hinter, hfunds⟩ := hf
  obtain ⟨inter', hinter', heq⟩ := exists_right_of_rel h.intermediate hinter
  exact ⟨inter', hinter', heq ▸ hfunds⟩

theorem EqExceptScores.live {imm : Imm} (hl : Live o imm) :
    ∃ imm', Live o' imm' ∧ ackRate imm = ackRate imm' := by
  obtain ⟨imm', himm', heq⟩ := exists_right_of_rel h.immediate hl.1
  exact ⟨imm', ⟨himm', heq.isConnected ▸ hl.2⟩, heq.ackRate⟩

theorem EqExceptScores.balanceKnown (hk : BalanceKnown o) : BalanceKnown o' := by
  obtain ⟨inter, hinter, hknown⟩ := hk
  obtain ⟨inter', hinter', heq⟩ := exists_right_of_rel h.intermediate hinter
  exact ⟨inter', hinter', heq ▸ hknown⟩

theorem EqExceptScores.ackRateApplies {imm : Imm} (ha : AckRateApplies o imm) :
    ∃ imm', AckRateApplies o' imm' ∧ ackRate imm = ackRate imm' := by
  obtain ⟨imm', himm', heq⟩ := exists_right_of_rel h.immediate ha.1
  exact ⟨imm', ⟨himm', ha.2.imp h.balanceKnown fun hc => heq.isConnected ▸ hc⟩, heq.ackRate⟩

theorem Arm.gate_of_scores {a : Arm t} (hg : a.Gate cfg o) : a.Gate cfg o' := by
  have hpeer : (∃ imm, Live o imm ∧ AckRateOk cfg (ackRate imm)) →
      ∃ imm', Live o' imm' ∧ AckRateOk cfg (ackRate imm') := by
    rintro ⟨imm, hlive, hack⟩
    obtain ⟨imm', hlive', heq⟩ := h.live hlive
    exact ⟨imm', hlive', heq ▸ hack⟩
  rcases a with hops | hops | length | _ | _
  · exact ⟨hpeer hg.1, h.funded hg.2⟩
  · exact h.funded hg
  · intro hl imm' happlies
    obtain ⟨imm, happlies', heq⟩ := h.symm.ackRateApplies happlies
    exact heq ▸ hg hl imm happlies'
  · exact hpeer hg
  · exact hg

theorem Arm.soft_of_scores {a : Arm t} (hs : a.Soft cfg o) : a.Soft cfg o' := by
  have hpeer : (∀ imm, Live o imm → AckFactorPos cfg (ackRate imm)) →
      ∀ imm', Live o' imm' → AckFactorPos cfg (ackRate imm') := by
    intro hall imm' hlive
    obtain ⟨imm, hlive', heq⟩ := h.symm.live hlive
    exact heq ▸ hall imm hlive'
  rcases a with hops | hops | length | _ | _
  · exact hpeer hs
  · exact hs
  · refine ⟨fun hl imm' happlies => ?_, ?_⟩
    · obtain ⟨imm, happlies', heq⟩ := h.symm.ackRateApplies happlies
      exact heq ▸ hs.1 hl imm happlies'
    · rcases hs.2 with hk | ⟨imm, hlive⟩ | hpen
      · exact Or.inl (h.balanceKnown hk)
      · obtain ⟨imm', hlive', -⟩ := h.live hlive
        exact Or.inr (Or.inl ⟨imm', hlive'⟩)
      · exact Or.inr (Or.inr hpen)
  · exact hpeer hs
  · exact hs

theorem EqExceptScores.healthUsable (hu : HealthUsable o) : HealthUsable o' := by
  rw [healthUsable_iff] at hu ⊢
  rwa [← h.health]

theorem EqExceptScores.value_pos {d : Direction} {n : NonZeroUsize t} {i : Usize t}
    (hpos : 0 < d.value n cfg i 1 o) : 0 < d.value n cfg i 1 o' := by
  rw [Direction.value_pos_iff_gate _ _ _ _ one_pos] at hpos ⊢
  obtain ⟨⟨hgate, hsoft⟩, husable⟩ := hpos
  exact ⟨⟨Arm.gate_of_scores h hgate, Arm.soft_of_scores h hsoft⟩, fun hscaled =>
    h.healthUsable (husable hscaled)⟩

end Gates

/-! ### The factors are in the ratio of the scores -/

/-- The floored score that an edge is valued by in the given arm. -/
def Arm.flooredScore (penalty : ℚ) (o : W) (a : Arm t) : ℚ :=
  max (a.quality penalty o) measuredDeadFloor

theorem measuredDeadFloor_pos : 0 < measuredDeadFloor := by norm_num [measuredDeadFloor]

theorem Arm.flooredScore_pos (penalty : ℚ) (o : W) (a : Arm t) : 0 < a.flooredScore penalty o :=
  lt_max_of_lt_right measuredDeadFloor_pos

theorem Arm.quality_le_one {p : ℚ} (hp : 0 ≤ p ∧ p ≤ 1) {o : W} (h : InRange o) (a : Arm t) :
    a.quality p o ≤ 1 := by
  have hinter : ∀ inter, intermediateQos o = some inter →
      (EdgeLinkObservable.score inter).getD p ≤ 1 := fun inter hinter =>
    ((h.intermediate inter hinter).getD hp).2
  have himm : ∀ imm, immediateQos o = some imm → (EdgeLinkObservable.score imm).getD p ≤ 1 :=
    fun imm himm => ((h.immediate imm himm).1.getD hp).2
  rcases a with hops | hops | length | _ | _
  · exact (h.score.getD hp).2
  · rcases hq : intermediateQos o with _ | inter
    · simpa [Arm.quality, hq] using hp.2
    · simpa [Arm.quality, hq] using hinter inter hq
  · simp only [Arm.quality]
    split
    · next hf => exact hinter _ (Option.filter_eq_some_iff.1 hf).1
    · split
      · next hf => exact himm _ (Option.filter_eq_some_iff.1 hf).1
      · exact hp.2
  · rcases hq : immediateQos o with _ | imm
    · simpa [Arm.quality, hq] using hp.2
    · simpa [Arm.quality, hq] using himm imm hq
  · exact hp.2

theorem Arm.flooredScore_le_one {p : ℚ} (hp : 0 ≤ p ∧ p ≤ 1) {o : W} (h : InRange o) (a : Arm t) :
    a.flooredScore p o ≤ 1 :=
  max_le (a.quality_le_one hp h) (by norm_num [measuredDeadFloor])

omit [IntermediateMeasurement Inter] [EdgeObservableRead W Imm Inter] in
theorem directFactor_scores {p : ℚ} {x y : Option Imm} (hxy : Option.Rel EqExceptScore x y)
    (length : Usize t) : directFactor length x p = directFactor length y p := by
  cases hxy with
  | none => rfl
  | some heq => simp only [directFactor, heq.ackRate]

section Factors

variable {p : ℚ} {o o' : W} (h : EqExceptScores o o')
include h

theorem EqExceptScores.bind_ackRate :
    (immediateQos o).bind ackRate = (immediateQos o').bind ackRate := by
  have himm := h.immediate
  generalize immediateQos o = x, immediateQos o' = y at himm ⊢
  cases himm with
  | none => rfl
  | some heq => exact heq.ackRate

/-- **Factors are in the ratio of the scores.** -/
theorem Arm.factor_scores (a : Arm t) :
    a.factor p o * a.flooredScore p o' = a.factor p o' * a.flooredScore p o := by
  -- a scored factor is the floored score times a factor that both edges share
  have hswap : ∀ (s s' : Option ℚ) (f : ℚ),
      scoreOrPenalize 1 s p * f * max (s'.getD p) measuredDeadFloor =
        scoreOrPenalize 1 s' p * f * max (s.getD p) measuredDeadFloor := by
    intro s s' f
    rw [scoreOrPenalize_one, scoreOrPenalize_one, mul_right_comm, mul_comm (max _ _) (max _ _),
      mul_right_comm]
  rcases a with hops | hops | length | _ | _
  · simp only [Arm.factor, h.bind_ackRate]
    exact hswap _ _ _
  · have hfunded := hswap ((intermediateQos o).bind EdgeLinkObservable.score)
      ((intermediateQos o').bind EdgeLinkObservable.score) 1
    rwa [mul_one, mul_one] at hfunded
  · have hinter := rel_filter (p := fun inter => (balance inter).isSome)
      (q := fun inter => (balance inter).isSome) (fun _ _ heq => by rw [heq]) h.intermediate
    have hlive := rel_filter (p := notDisconnected) (q := notDisconnected)
      (fun _ _ heq => by simp only [notDisconnected, heq.isConnected]) h.immediate
    simp only [Arm.factor, Arm.flooredScore, Arm.quality]
    generalize (intermediateQos o).filter (fun inter => (balance inter).isSome) = x,
      (intermediateQos o').filter (fun inter => (balance inter).isSome) = x' at hinter ⊢
    generalize (immediateQos o).filter notDisconnected = y,
      (immediateQos o').filter notDisconnected = y' at hlive ⊢
    cases hinter with
    | some =>
      simp only [directFactor_scores h.immediate length]
      exact hswap _ _ _
    | none =>
      cases hlive with
      | some heq =>
        simp only [directFactor_scores (.some heq) length]
        exact hswap _ _ _
      | none => rfl
  · simp only [Arm.factor, h.bind_ackRate]
    exact hswap _ _ _
  · rfl

/-- The values of an accepted edge are in the ratio of the scores. -/
theorem EqExceptScores.value_mul {d : Direction} {n : NonZeroUsize t} {cfg : Config} {i : Usize t}
    (hpos : 0 < d.value n cfg i 1 o) :
    d.value n cfg i 1 o * (d.arm n i).flooredScore cfg.penalty o' =
      d.value n cfg i 1 o' * (d.arm n i).flooredScore cfg.penalty o := by
  have hpos' := h.value_pos hpos
  obtain ⟨harm, husable⟩ := (d.value_pos_iff n cfg i 1 o).1 hpos
  obtain ⟨harm', husable'⟩ := (d.value_pos_iff n cfg i 1 o').1 hpos'
  have hgate := ((d.value_pos_iff_gate n cfg i one_pos o).1 hpos).1.1
  have hhealth : healthFactor o = healthFactor o' := by
    unfold healthFactor
    rw [h.health]
  rw [value_of_usable harm husable, value_of_usable harm' husable', Arm.value_of_gate hgate,
    Arm.value_of_gate (Arm.gate_of_scores h hgate), hhealth, mul_right_comm, Arm.factor_scores h,
    mul_right_comm]

end Factors

/-! ### The scores along a path -/

section Paths

variable (d : Direction) (n : NonZeroUsize t)

/-- The floored score of the edge at position `k`; a position that is no `usize` has none. -/
def Direction.scoreAt (penalty : ℚ) (o : W) (k : ℕ) : ℚ :=
  match Usize.ofNat? t k with
  | some i => (d.arm n i).flooredScore penalty o
  | none => 1

/-- The product of the floored scores that a path's edges are valued by. -/
def scoreProduct (penalty : ℚ) (path : List W) : ℚ :=
  (path.zipIdx.map fun e => d.scoreAt n penalty e.1 e.2).prod

theorem Direction.scoreAt_toNat (penalty : ℚ) (o : W) (i : Usize t) :
    d.scoreAt n penalty o i.toNat = (d.arm n i).flooredScore penalty o := by
  unfold Direction.scoreAt
  rw [Usize.ofNat?_eq_some.2 rfl]

theorem Direction.floor_le_scoreAt (penalty : ℚ) (o : W) (k : ℕ) :
    measuredDeadFloor ≤ d.scoreAt n penalty o k := by
  unfold Direction.scoreAt
  split
  · exact le_max_right _ _
  · norm_num [measuredDeadFloor]

theorem Direction.scoreAt_le_one {penalty : ℚ} (hp : 0 ≤ penalty ∧ penalty ≤ 1) {o : W}
    (h : InRange o) (k : ℕ) : d.scoreAt n penalty o k ≤ 1 := by
  unfold Direction.scoreAt
  split
  · exact Arm.flooredScore_le_one hp h _
  · exact le_rfl

theorem scoreProduct_take_succ (penalty : ℚ) {path : List W} {k : ℕ} (hk : k < path.length) :
    scoreProduct d n penalty (path.take (k + 1)) =
      scoreProduct d n penalty (path.take k) * d.scoreAt n penalty path[k] k := by
  unfold scoreProduct
  rw [List.take_succ_eq_append_getElem hk, List.zipIdx_append, List.map_append, List.prod_append,
    List.length_take_of_le hk.le, Nat.zero_add]
  simp

theorem pow_le_scoreProduct (penalty : ℚ) (path : List W) :
    measuredDeadFloor ^ path.length ≤ scoreProduct d n penalty path := by
  have hle : (path.zipIdx.map fun _ => measuredDeadFloor).prod ≤
      (path.zipIdx.map fun e => d.scoreAt n penalty e.1 e.2).prod :=
    List.prod_map_le_prod_map₀ _ _ (fun _ _ => measuredDeadFloor_pos.le) fun e _ =>
      d.floor_le_scoreAt n penalty e.1 e.2
  rwa [List.map_const', List.prod_replicate, List.length_zipIdx] at hle

theorem scoreProduct_pos (penalty : ℚ) (path : List W) : 0 < scoreProduct d n penalty path :=
  (pow_pos measuredDeadFloor_pos _).trans_le (pow_le_scoreProduct d n penalty path)

theorem scoreProduct_le_one {penalty : ℚ} (hp : 0 ≤ penalty ∧ penalty ≤ 1) {path : List W}
    (h : ∀ o ∈ path, InRange o) : scoreProduct d n penalty path ≤ 1 := by
  have hle : (path.zipIdx.map fun e => d.scoreAt n penalty e.1 e.2).prod ≤
      (path.zipIdx.map fun _ => (1 : ℚ)).prod := by
    refine List.prod_map_le_prod_map₀ _ _ (fun e _ => ?_) fun e he => ?_
    · exact measuredDeadFloor_pos.le.trans (d.floor_le_scoreAt n penalty e.1 e.2)
    · exact d.scoreAt_le_one n hp (h _ (List.fst_mem_of_mem_zipIdx he)) e.2
  rwa [List.map_const', List.prod_replicate, one_pow] at hle

variable (penalty minAckRate : ℚ) (ticketFaceValue : Option Balance)

theorem accepts_of_scores {path path' : List W} (hsame : List.Forall₂ EqExceptScores path path')
    (h : (d.build n penalty minAckRate ticketFaceValue).Accepts path) :
    (d.build n penalty minAckRate ticketFaceValue).Accepts path' := by
  rw [Direction.accepts_iff] at h ⊢
  intro k hk
  have hk' : k < path.length := hsame.length_eq ▸ hk
  obtain ⟨i, hi, hok, hpos⟩ := h k hk'
  exact ⟨i, hi, hok, (hsame.get hk' hk).value_pos hpos⟩

/-- **Scores rank and never reject.** -/
theorem scores_rank (path path' : List W) (hsame : List.Forall₂ EqExceptScores path path') :
    let f : EdgeValueFn t ℚ W := d.build n penalty minAckRate ticketFaceValue
    (f.Accepts path ↔ f.Accepts path') ∧
    (f.Accepts path → ∃ value value', f.fold 1 path = some value ∧ f.fold 1 path' = some value' ∧
      value' * scoreProduct d n (clamp penalty 0 1) path =
        value * scoreProduct d n (clamp penalty 0 1) path' ∧
      -- within the documented range no score costs an edge more than the floor
      ((∀ o ∈ path', InRange o) → value' * measuredDeadFloor ^ path.length ≤ value)) := by
  intro f
  have hsame' : List.Forall₂ EqExceptScores path' path :=
    List.Forall₂.flip (hsame.imp fun _ _ h => h.symm)
  refine ⟨⟨accepts_of_scores d n _ _ _ hsame, accepts_of_scores d n _ _ _ hsame'⟩, fun hacc => ?_⟩
  set p := clamp penalty 0 1 with hp
  have hpmem : 0 ≤ p ∧ p ≤ 1 := (Config.resolve penalty minAckRate ticketFaceValue).penalty_mem
  have hlen : path'.length = path.length := hsame.length_eq.symm
  obtain ⟨value, hvalue, hvalue'⟩ := d.fold_mul n hacc hlen
    (P := fun k => scoreProduct d n p (path'.take k) / scoreProduct d n p (path.take k))
    (by simp [scoreProduct]) fun k hk hk' i hi hpos => by
      subst hi
      have hedge := (hsame.get hk hk').value_mul hpos
      have h0 := scoreProduct_pos d n p (path.take i.toNat)
      have hs := (d.arm n i).flooredScore_pos p path[i.toNat]
      have hs' := (d.arm n i).flooredScore_pos p path'[i.toNat]
      refine ⟨(d.arm n i).flooredScore p path'[i.toNat] / (d.arm n i).flooredScore p path[i.toNat],
        div_pos hs' hs, ?_, ?_⟩
      · rw [scoreProduct_take_succ d n p hk, scoreProduct_take_succ d n p hk', d.scoreAt_toNat,
          d.scoreAt_toNat, mul_div_mul_comm]
      · rw [← mul_div_assoc, eq_div_iff hs.ne']
        exact hedge.symm
  have hpath := scoreProduct_pos d n p path
  have hratio : value * (scoreProduct d n p path' / scoreProduct d n p path) *
      scoreProduct d n p path = value * scoreProduct d n p path' := by
    rw [mul_assoc, div_mul_cancel₀ _ hpath.ne']
  rw [← hlen, List.take_length, hlen, List.take_length] at hvalue'
  refine ⟨value, _, hvalue, hvalue', hratio, fun hrange => ?_⟩
  have hvalue0 : 0 < value := by
    obtain ⟨w, hw, hpos⟩ := hacc path.length le_rfl
    rw [List.take_length, d.initial_build] at hw
    rwa [show value = w from Option.some.inj (hvalue.symm.trans hw)]
  have hscores' := scoreProduct_pos d n p path'
  calc value * (scoreProduct d n p path' / scoreProduct d n p path) *
        measuredDeadFloor ^ path.length
      ≤ value * (scoreProduct d n p path' / scoreProduct d n p path) * scoreProduct d n p path :=
        mul_le_mul_of_nonneg_left (pow_le_scoreProduct d n p path)
          (mul_pos hvalue0 (div_pos hscores' hpath)).le
    _ = value * scoreProduct d n p path' := hratio
    _ ≤ value := mul_le_of_le_one_right hvalue0.le (scoreProduct_le_one d n hpmem hrange)

/-- A healthy edge both of whose streams were measured dead. -/
def measuredDead : Observations where
  immediate := some { connected := some true, score := some 0, ackRate := some (9 / 10) }
  intermediate := some { balance := some 1000, score := some 0 }
  health := none

/-- A path of measured-dead edges is still accepted. -/
theorem scores_rank_measuredDead :
    (Direction.forward.build (.wide 2 (by decide)) (1 / 2) (1 / 10) none).Accepts
      [measuredDead, measuredDead] := by
  have hdead : EqExceptScores healthy measuredDead :=
    ⟨.some ⟨rfl, rfl⟩, .some rfl, rfl⟩
  exact (scores_rank .forward (.wide 2 (by decide)) (1 / 2) (1 / 10) none [healthy, healthy]
    [measuredDead, measuredDead] (.cons hdead (.cons hdead .nil))).1.1
    (Fold.accepted_iff_prune.2 ⟨by decide, 3249 / 4000, by decide +kernel⟩)

end Paths

end HoprApi.Graph
