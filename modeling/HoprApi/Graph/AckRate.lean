import HoprApi.Graph.Gates
import HoprApi.Graph.Path

/-!
# The ack rate of the edge at this node

Every constructor compares the ack rate of the edge that is incident to this node with the
threshold, and rejects the edge below it (`incident_rejected_iff`).  The one exit that does not is
the fallback of a direct route's single edge, which only multiplies by the penalty.
-/

namespace HoprApi.Graph

open HoprApi.Rust EdgeObservableRead EdgeNetworkObservableRead EdgeProtocolObservable
  EdgeImmediateProtocolObservable

variable {t : Target} {W Imm Inter : Type} [ImmediateMeasurement Imm]
  [IntermediateMeasurement Inter] [EdgeObservableRead W Imm Inter]

/-- The edge of index `i` is the one at this node: the first of an outgoing path, the last of a
return path. -/
def Direction.Incident (d : Direction) (n : NonZeroUsize t) (i : Usize t) : Prop :=
  match d with
  | .forward => i.toNat = 0
  | .returning => i.toNat + 1 = n.get.toNat
  | .forwardWithoutSelfLoopback => i.toNat = 0

instance (d : Direction) (n : NonZeroUsize t) : DecidablePred (d.Incident n) := fun i => by
  unfold Direction.Incident
  cases d <;> infer_instance

/-- A last edge with this immediate stream is left to the fallback: no balance selects the
intermediate stream, and the immediate one was observed disconnected. -/
def FallsBack (o : W) (immediate : Imm) : Prop :=
  ¬ BalanceKnown o ∧ isConnected immediate = some false

section Incident

variable {d : Direction} {n : NonZeroUsize t} {i : Usize t} {cfg : Config} {o : W} {immediate : Imm}

theorem lt_of_incident (h : d.Incident n i) : i.toNat < n.get.toNat := by
  have := n.pos
  rcases d with _ | _ | _ <;> simp only [Direction.Incident] at h <;> omega

theorem arm_of_incident (h : d.Incident n i) :
    d.arm n i = .first (hopsAfter n i) ∨ d.arm n i = .returningLast ∨
      d = .forward ∧ n.get.toNat = 1 ∧ d.arm n i = .forwardLast n.get := by
  rcases d with _ | _ | _
  · have h0 : i.toNat = 0 := h
    by_cases h1 : n.get.toNat = 1
    · have hlast : i.toNat + 1 = n.get.toNat := by omega
      exact Or.inr (Or.inr ⟨rfl, h1, if_pos hlast⟩)
    · have hlast : i.toNat + 1 ≠ n.get.toNat := by omega
      left
      simp only [Direction.arm, if_neg hlast, if_pos h0]
  · exact Or.inr (Or.inl (if_pos h))
  · exact Or.inl (if_pos h)

theorem not_ackRateOk_of_lt {rate : ℚ} (hrate : ackRate immediate = some rate)
    (hlow : rate < cfg.minAckRate) : ¬ AckRateOk cfg (ackRate immediate) :=
  fun hok => absurd hlow (not_lt.2 (hok rate hrate))

/-- On a direct route the gate of the last edge only misses a disconnected stream. -/
theorem gate_forwardLast_iff {length : Usize t} (hl : length.toNat = 1)
    (himm : immediateQos o = some immediate) (hack : ¬ AckRateOk cfg (ackRate immediate)) :
    (Arm.forwardLast length).Gate cfg o ↔ FallsBack o immediate := by
  simp only [Arm.Gate, hl, forall_const, AckRateApplies, FallsBack]
  constructor
  · intro hgate
    refine ⟨fun hknown => hack (hgate immediate ⟨himm, Or.inl hknown⟩), ?_⟩
    by_contra hconn
    exact hack (hgate immediate ⟨himm, Or.inr hconn⟩)
  · rintro ⟨hknown, hconn⟩ immediate' ⟨himm', hexit⟩
    rw [himm, Option.some.injEq] at himm'
    subst himm'
    exact absurd hexit (not_or.2 ⟨hknown, not_not.2 hconn⟩)

/-- That exit keeps the edge exactly where the penalty is positive. -/
theorem soft_forwardLast_iff {length : Usize t} (hl : length.toNat = 1)
    (himm : immediateQos o = some immediate) (hfall : FallsBack o immediate) :
    (Arm.forwardLast length).Soft cfg o ↔ 0 < cfg.penalty := by
  obtain ⟨hknown, hconn⟩ := hfall
  have hexit : ∀ immediate', ¬ AckRateApplies o immediate' := by
    rintro immediate' ⟨himm', hexit⟩
    rw [himm, Option.some.injEq] at himm'
    subst himm'
    exact absurd hexit (not_or.2 ⟨hknown, not_not.2 hconn⟩)
  have hlive : ¬ ∃ immediate', Live o immediate' := by
    rintro ⟨immediate', himm', hconn'⟩
    exact hexit immediate' ⟨himm', Or.inr hconn'⟩
  simp only [Arm.Soft, hl, forall_const, hexit, hknown, hlive, false_or, false_imp_iff,
    implies_true, true_and]

/-- **When an edge at this node with a low ack rate is rejected**: unless it leaves by the fallback
of a direct route. -/
theorem incident_rejected_iff (h : d.Incident n i) (penalty minAckRate : ℚ)
    (ticketFaceValue : Option Balance) {c : ℚ} (hc : 0 < c) (himm : immediateQos o = some immediate)
    {rate : ℚ} (hrate : ackRate immediate = some rate) (hlow : rate < clamp minAckRate 0 1) :
    ∃ w, (d.build n penalty minAckRate ticketFaceValue).valueFn c o i = some w ∧
      (w ≤ 0 ↔ ¬ (d = .forward ∧ n.get.toNat = 1 ∧ FallsBack o immediate ∧
        0 < clamp penalty 0 1)) := by
  set cfg := Config.resolve penalty minAckRate ticketFaceValue with hcfg
  have hack : ¬ AckRateOk cfg (ackRate immediate) := not_ackRateOk_of_lt hrate hlow
  have hlive : ¬ ∃ immediate', Live o immediate' ∧ AckRateOk cfg (ackRate immediate') := by
    rintro ⟨immediate', ⟨himm', -⟩, hok⟩
    rw [himm, Option.some.injEq] at himm'
    subst himm'
    exact hack hok
  refine ⟨d.value n cfg i c o, ?_, ?_⟩
  · rw [Direction.valueFn_eq, if_pos (d.indexOk_of_lt (lt_of_incident h))]
  rw [← not_lt, not_iff_not, Direction.value_pos_iff_gate d n cfg i hc o]
  have hdirect : d.arm n i = .first (hopsAfter n i) ∨ d.arm n i = .returningLast →
      ¬ (d = .forward ∧ n.get.toNat = 1) := by
    rintro harm ⟨rfl, h1⟩
    have h0 : i.toNat = 0 := h
    have hlast : Direction.forward.arm n i = .forwardLast n.get := if_pos (by omega)
    rw [hlast] at harm
    rcases harm with harm | harm <;> cases harm
  rcases arm_of_incident h with ha | ha | ⟨rfl, h1, ha⟩
  · refine iff_of_false ?_ fun hw => hdirect (Or.inl ha) ⟨hw.1, hw.2.1⟩
    rintro ⟨⟨hgate, -⟩, -⟩
    rw [ha] at hgate
    exact hlive hgate.1
  · refine iff_of_false ?_ fun hw => hdirect (Or.inr ha) ⟨hw.1, hw.2.1⟩
    rintro ⟨⟨hgate, -⟩, -⟩
    rw [ha] at hgate
    exact hlive hgate
  · have hscaled : ¬ Direction.forward.Scaled n i := by
      rintro (hd | hlt)
      · cases hd
      · omega
    rw [ha, gate_forwardLast_iff h1 himm hack]
    constructor
    · rintro ⟨⟨hfall, hsoft⟩, -⟩
      exact ⟨rfl, h1, hfall, (soft_forwardLast_iff h1 himm hfall).1 hsoft⟩
    · rintro ⟨-, -, hfall, hpen⟩
      exact ⟨⟨hfall, (soft_forwardLast_iff h1 himm hfall).2 hpen⟩, fun hs => absurd hs hscaled⟩

end Incident

/-! ### A direct route over a disconnected edge -/

/-- An immediate stream that was observed disconnected and acknowledges one message in twenty. -/
def disconnectedPeer : Observations where
  immediate := some { connected := some false, score := none, ackRate := some (1 / 20) }
  intermediate := none
  health := none

theorem incident_rejected_relayed :
    ∃ w, (Direction.forward.build (.wide 2 (by decide)) (1 / 2) (1 / 10) none).valueFn 1
      disconnectedPeer (Usize.zero _) = some w ∧ w ≤ 0 := by
  obtain ⟨w, hw, hrejected⟩ := incident_rejected_iff (d := .forward) (n := .wide 2 (by decide))
    (i := Usize.zero _) rfl (1 / 2) (1 / 10) none one_pos (o := disconnectedPeer) rfl rfl
    (by decide +kernel)
  refine ⟨w, hw, hrejected.2 ?_⟩
  rintro ⟨-, hlen, -⟩
  exact absurd hlen (by decide)

theorem direct_route_kept_disconnected :
    ∃ immediate rate, immediateQos disconnectedPeer = some immediate ∧
      ackRate immediate = some rate ∧ rate < clamp (1 / 10) 0 1 ∧
      ¬ ∃ w, (Direction.forward.build (.wide 1 (by decide)) (1 / 2) (1 / 10) none).valueFn 1
        disconnectedPeer (Usize.zero _) = some w ∧ w ≤ 0 := by
  refine ⟨_, 1 / 20, rfl, rfl, by decide +kernel, ?_⟩
  have hvalue : (Direction.forward.build (.wide 1 (by decide)) (1 / 2) (1 / 10) none).valueFn 1
      disconnectedPeer (Usize.zero _) = some (1 / 2) := by decide +kernel
  rintro ⟨w, hw, hrejected⟩
  rw [hvalue, Option.some.injEq] at hw
  subst hw
  norm_num at hrejected

end HoprApi.Graph
