import HoprApi.Graph.Gates

/-!
# What an edge is worth

An edge that passes the gate of its arm is worth the product of its factors (`Arm.value_of_gate`),
the score or the penalty in its place, and the ack rate or the penalty in its place.  The factors do
not depend on the thresholds.
-/

namespace HoprApi.Graph

open HoprApi.Rust EdgeObservableRead EdgeNetworkObservableRead EdgeProtocolObservable
  EdgeImmediateProtocolObservable

variable {t : Target} {W Imm Inter : Type} [ImmediateMeasurement Imm]
  [IntermediateMeasurement Inter] [EdgeObservableRead W Imm Inter]

/-! ### The factors -/

/-- The factor of a direct route's ack rate. -/
def directFactor (length : Usize t) (immediate : Option Imm) (penalty : ℚ) : ℚ :=
  match immediate with
  | some immediate => if length.toNat = 1 then (ackRate immediate).getD penalty else 1
  | none => 1

/-- The product of an edge's factors in the given arm. -/
def Arm.factor (penalty : ℚ) (o : W) : Arm t → ℚ
  | .first _ => scoreOrPenalize 1 (score o) penalty * ((immediateQos o).bind ackRate).getD penalty
  | .funded _ => scoreOrPenalize 1 ((intermediateQos o).bind EdgeLinkObservable.score) penalty
  | .forwardLast length =>
    match (intermediateQos o).filter fun intermediate => (balance intermediate).isSome with
    | some intermediate =>
      scoreOrPenalize 1 (EdgeLinkObservable.score intermediate) penalty *
        directFactor length (immediateQos o) penalty
    | none =>
      match (immediateQos o).filter notDisconnected with
      | some immediate =>
        scoreOrPenalize 1 (EdgeLinkObservable.score immediate) penalty *
          directFactor length (some immediate) penalty
      | none => penalty
  | .returningLast =>
    scoreOrPenalize 1 ((immediateQos o).bind EdgeLinkObservable.score) penalty *
      ((immediateQos o).bind ackRate).getD penalty
  | .past => 1

/-- The score that an edge is valued by in the given arm, the penalty where it is absent. -/
def Arm.quality (penalty : ℚ) (o : W) : Arm t → ℚ
  | .first _ => (score o).getD penalty
  | .funded _ => ((intermediateQos o).bind EdgeLinkObservable.score).getD penalty
  | .forwardLast _ =>
    match (intermediateQos o).filter fun intermediate => (balance intermediate).isSome with
    | some intermediate => (EdgeLinkObservable.score intermediate).getD penalty
    | none =>
      match (immediateQos o).filter notDisconnected with
      | some immediate => (EdgeLinkObservable.score immediate).getD penalty
      | none => penalty
  | .returningLast => ((immediateQos o).bind EdgeLinkObservable.score).getD penalty
  | .past => penalty

/-! ### The value of an edge that passes its gate -/

theorem scoreOrPenalize_one (score : Option ℚ) (penalty : ℚ) :
    scoreOrPenalize 1 score penalty = max (score.getD penalty) measuredDeadFloor := by
  unfold scoreOrPenalize
  rw [one_mul]
  cases score <;> rfl

theorem applyAckRate_of_ok {cfg : Config} {rate : Option ℚ} (h : AckRateOk cfg rate) (base : ℚ) :
    applyAckRate rate base cfg.minAckRate cfg.penalty = base * rate.getD cfg.penalty := by
  rcases rate with _ | r
  · rfl
  · exact if_neg (not_lt.2 (h r rfl))

omit [IntermediateMeasurement Inter] in
theorem filter_notDisconnected {o : W} {immediate : Imm} (h : Live o immediate) :
    (immediateQos o).filter notDisconnected = some immediate := by
  rw [h.1, Option.filter_some, if_pos (notDisconnected_iff.2 h.2)]

omit [ImmediateMeasurement Imm] in
theorem filter_balanceSuffices {cfg : Config} {hops : Usize t} {o : W}
    (h : Funded cfg hops.toNat o) :
    ∃ intermediate, intermediateQos o = some intermediate ∧
      (intermediateQos o).filter (fun intermediate =>
        balanceSuffices (balance intermediate) hops cfg.ticketFaceValue) = some intermediate := by
  obtain ⟨inter, hinter, hfunds⟩ := h
  refine ⟨inter, hinter, ?_⟩
  rw [hinter, Option.filter_some, if_pos ((balanceSuffices_iff_funds _ _ _).2 hfunds)]

theorem forwardLastEdge_of_gate {cfg : Config} {length : Usize t} {o : W}
    (h : (Arm.forwardLast length).Gate cfg o) :
    forwardLastEdge cfg length 1 o = (Arm.forwardLast length).factor cfg.penalty o := by
  have hone : length = Usize.one t ↔ length.toNat = 1 := by rw [Usize.ext_iff, Usize.toNat_one]
  simp only [forwardLastEdge, Arm.factor, directFactor, hone]
  rcases hinter : (intermediateQos o).filter fun inter => (balance inter).isSome with _ | inter
  · -- the gate of a direct route is about the stream that the arm scores by
    rcases hlive : (immediateQos o).filter notDisconnected with _ | imm
    · exact one_mul _
    · obtain ⟨himm, hd⟩ := Option.filter_eq_some_iff.1 hlive
      simp only
      split_ifs with hl
      · exact applyAckRate_of_ok (h hl imm ⟨himm, Or.inr (notDisconnected_iff.1 hd)⟩) _
      · exact (mul_one _).symm
  · obtain ⟨hqos, hknown⟩ := Option.filter_eq_some_iff.1 hinter
    rcases himm : immediateQos o with _ | imm
    · simp
    · simp only
      split_ifs with hl
      · exact applyAckRate_of_ok (h hl imm ⟨himm, Or.inl ⟨inter, hqos, hknown⟩⟩) _
      · exact (mul_one _).symm

/-- **The value of an edge that passes its gate is the product of its factors.** -/
theorem Arm.value_of_gate {cfg : Config} {o : W} {a : Arm t} (h : a.Gate cfg o) :
    a.value cfg 1 o = a.factor cfg.penalty o := by
  rcases a with hops | hops | length | _ | _
  · obtain ⟨⟨imm, hlive, hack⟩, hfunded⟩ := h
    obtain ⟨inter, -, hfilter⟩ := filter_balanceSuffices hfunded
    simp only [Arm.value, Arm.factor, firstEdge, filter_notDisconnected hlive, hfilter]
    rw [applyAckRate_of_ok hack, hlive.1, Option.bind_some]
  · obtain ⟨inter, hinter, hfilter⟩ := filter_balanceSuffices h
    simp only [Arm.value, Arm.factor, requireFunding, hfilter]
    rw [hinter, Option.bind_some]
  · exact forwardLastEdge_of_gate h
  · obtain ⟨imm, hlive, hack⟩ := h
    simp only [Arm.value, Arm.factor, returningLastEdge, filter_notDisconnected hlive]
    rw [applyAckRate_of_ok hack, hlive.1, Option.bind_some, Option.bind_some]
  · exact absurd h not_false

end HoprApi.Graph
