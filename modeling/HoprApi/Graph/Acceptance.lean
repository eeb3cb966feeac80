import HoprApi.Graph.Gates
import HoprApi.Graph.Path

/-!
# Which paths are accepted

`accepts_sound`: an accepted path is short enough, funded at every hop, connected where it touches
this node, and leads through usable relayers.  `valueFn_pos_iff_soft`: an edge that passes the hard
gates of its position is rejected by a soft signal exactly where a bare factor of zero, an
unfloored penalty or an ack rate, is multiplied in.
-/

namespace HoprApi.Graph

open HoprApi.Rust HoprApi.Lib EdgeObservableRead EdgeNetworkObservableRead EdgeProtocolObservable
  EdgeImmediateProtocolObservable

variable {t : Target} {W Imm Inter : Type} [ImmediateMeasurement Imm]
  [IntermediateMeasurement Inter] [EdgeObservableRead W Imm Inter]

/-! ### The arms by position -/

section Arms

variable {d : Direction} {n : NonZeroUsize t} {i : Usize t}

/-- Before the last edge of a path the remaining hops are funded, whatever else an arm asks. -/
theorem arm_of_lt (h : i.toNat + 1 < n.get.toNat) :
    d.arm n i = .first (hopsAfter n i) ∨ d.arm n i = .funded (hopsAfter n i) := by
  have h1 : i.toNat + 1 ≠ n.get.toNat := by omega
  have h2 : ¬ n.get.toNat ≤ i.toNat := by omega
  rcases d with _ | _ | _
  · simp only [Direction.arm, if_neg h1, if_neg h2]
    exact ite_eq_or_eq _ _ _
  · right
    simp only [Direction.arm, if_neg h1, if_neg h2]
  · simp only [Direction.arm, if_neg h2]
    exact ite_eq_or_eq _ _ _

theorem gate_funded {cfg : Config} {o : W} (h : i.toNat + 1 < n.get.toNat)
    (hg : (d.arm n i).Gate cfg o) : Funded cfg (n.get.toNat - 1 - i.toNat) o := by
  have hops : (hopsAfter n i).toNat = n.get.toNat - 1 - i.toNat := by
    simp only [hopsAfter]
    omega
  rw [← hops]
  rcases arm_of_lt h with ha | ha
  · rw [ha] at hg
    exact hg.2
  · rw [ha] at hg
    exact hg

/-- The edge of index `i` is one that `d` admits by its immediate stream. -/
def Direction.ChecksPeer (d : Direction) (n : NonZeroUsize t) (i : Usize t) : Prop :=
  match d with
  | .forward => i.toNat = 0 ∧ 2 ≤ n.get.toNat
  | .returning => i.toNat + 1 = n.get.toNat
  | .forwardWithoutSelfLoopback => i.toNat = 0

theorem arm_of_checksPeer (h : d.ChecksPeer n i) :
    d.arm n i = .first (hopsAfter n i) ∨ d.arm n i = .returningLast := by
  rcases d with _ | _ | _
  · obtain ⟨h0, h2⟩ := h
    have h1 : i.toNat + 1 ≠ n.get.toNat := by omega
    left
    simp only [Direction.arm, if_neg h1, if_pos h0]
  · right
    exact if_pos h
  · left
    exact if_pos h

theorem gate_live {cfg : Config} {o : W} (h : d.ChecksPeer n i) (hg : (d.arm n i).Gate cfg o)
    (hs : (d.arm n i).Soft cfg o) : ∃ immediate, Live o immediate ∧
      AckRateOk cfg (ackRate immediate) ∧ AckFactorPos cfg (ackRate immediate) := by
  rcases arm_of_checksPeer h with ha | ha
  · rw [ha] at hg hs
    obtain ⟨⟨imm, hlive, hack⟩, -⟩ := hg
    exact ⟨imm, hlive, hack, hs imm hlive⟩
  · rw [ha] at hg hs
    obtain ⟨imm, hlive, hack⟩ := hg
    exact ⟨imm, hlive, hack, hs imm hlive⟩

end Arms

/-! ### Soundness of acceptance -/

section Sound

variable (d : Direction) (n : NonZeroUsize t) (penalty minAckRate : ℚ)
  (ticketFaceValue : Option Balance) (path : List W)

/-- Every edge of an accepted path passes its gate, has positive factors and a usable relayer. -/
theorem gate_of_accepts (h : (d.build n penalty minAckRate ticketFaceValue).Accepts path) {k : ℕ}
    (hk : k < path.length) : ∃ i : Usize t, i.toNat = k ∧
      (d.arm n i).Gate (Config.resolve penalty minAckRate ticketFaceValue) path[k] ∧
      (d.arm n i).Soft (Config.resolve penalty minAckRate ticketFaceValue) path[k] ∧
      (d.Scaled n i → HealthUsable path[k]) := by
  obtain ⟨i, hi, -, hpos⟩ := (d.accepts_iff n penalty minAckRate ticketFaceValue).1 h k hk
  rw [Direction.value_pos_iff_gate _ _ _ _ one_pos] at hpos
  exact ⟨i, hi, hpos.1.1, hpos.1.2, hpos.2⟩

/-- **Soundness of path acceptance.** -/
theorem accepts_sound (h : (d.build n penalty minAckRate ticketFaceValue).Accepts path) :
    path.length ≤ n.get.toNat ∧
    (∀ (k : ℕ) (hk : k < path.length), 1 ≤ n.get.toNat - 1 - k →
      (∃ intermediate b, intermediateQos path[k] = some intermediate ∧
        balance intermediate = some b ∧
        (n.get.toNat - 1 - k) * (ticketFaceValue.getD defaultTicketFaceValue).toNat ≤ b.toNat) ∧
      HealthUsable path[k]) ∧
    (∀ (k : ℕ) (hk : k < path.length),
      (d = .forward ∧ 2 ≤ n.get.toNat ∧ k = 0 ∨ d = .forwardWithoutSelfLoopback ∧ k = 0 ∨
        d = .returning ∧ k = n.get.toNat - 1) →
      ∃ immediate, immediateQos path[k] = some immediate ∧
        isConnected immediate ≠ some false ∧
        ∀ rate, ackRate immediate = some rate → clamp minAckRate 0 1 ≤ rate ∧ 0 < rate) := by
  refine ⟨?_, ?_, ?_⟩
  · -- the edge at index `length` would sit in the arm that rejects everything
    by_contra hlen
    obtain ⟨i, hi, hg, -⟩ := gate_of_accepts d n _ _ _ _ h (not_le.1 hlen)
    rw [arm_of_le hi.ge] at hg
    exact hg
  · intro k hk hhops
    obtain ⟨i, rfl, hg, -, hhealth⟩ := gate_of_accepts d n _ _ _ _ h hk
    have hlt : i.toNat + 1 < n.get.toNat := by omega
    obtain ⟨inter, hinter, hzero | ⟨b, hb, hfund⟩⟩ := gate_funded hlt hg
    · omega
    · exact ⟨⟨inter, b, hinter, hb, hfund⟩, hhealth (Or.inr hlt)⟩
  · intro k hk hpeer
    obtain ⟨i, rfl, hg, hs, -⟩ := gate_of_accepts d n _ _ _ _ h hk
    have hcheck : d.ChecksPeer n i := by
      have hpos := n.pos
      rcases hpeer with ⟨rfl, h2, h0⟩ | ⟨rfl, h0⟩ | ⟨rfl, hlast⟩
      · exact ⟨h0, h2⟩
      · exact h0
      · show i.toNat + 1 = n.get.toNat
        omega
    obtain ⟨imm, hlive, hack, hfactor⟩ := gate_live hcheck hg hs
    refine ⟨imm, hlive.1, hlive.2, fun rate hrate => ⟨hack rate hrate, ?_⟩⟩
    rwa [hrate] at hfactor

end Sound

theorem accepts_sound_healthy :
    (Direction.forward.build (.wide 2 (by decide)) (1 / 2) (1 / 10) none).Accepts
      [healthy, healthy] ∧
    ∃ intermediate b, intermediateQos healthy = some intermediate ∧
      balance intermediate = some b ∧ 1 * 1 ≤ b.toNat := by
  have hacc : (Direction.forward.build (.wide 2 (by decide)) (1 / 2) (1 / 10) none).Accepts
      [healthy, healthy] :=
    Fold.accepted_iff_prune.2 ⟨by decide, 3249 / 4000, by decide +kernel⟩
  have h := accepts_sound .forward (.wide 2 (by decide)) (1 / 2) (1 / 10) none
    [healthy, healthy] hacc
  exact ⟨hacc, (h.2.1 0 (by decide) (by decide)).1⟩

/-! ### Soft signals -/

/-- The hard gates of the arm's position: on a direct route a known ack rate must not be below the
threshold, whichever stream the edge is scored by. -/
def Arm.HardGates (cfg : Config) (o : W) : Arm t → Prop
  | .forwardLast length => length.toNat = 1 →
    ∀ immediate, immediateQos o = some immediate → AckRateOk cfg (ackRate immediate)
  | a => a.Gate cfg o

theorem Arm.gate_of_hardGates {cfg : Config} {o : W} {a : Arm t} (h : a.HardGates cfg o) :
    a.Gate cfg o := by
  rcases a with hops | hops | length | _ | _
  · exact h
  · exact h
  · exact fun hl imm happ => h hl imm happ.1
  · exact h
  · exact h

/-- **Which eligible edges stay positive.** -/
theorem valueFn_pos_iff_soft (d : Direction) (n : NonZeroUsize t) (penalty minAckRate : ℚ)
    (ticketFaceValue : Option Balance) (i : Usize t) (hi : i.toNat < n.get.toNat) (c : ℚ)
    (hc : 0 < c) (o : W)
    (hg : (d.arm n i).HardGates (Config.resolve penalty minAckRate ticketFaceValue) o) :
    ∃ w, (d.build n penalty minAckRate ticketFaceValue).valueFn c o i = some w ∧
      (0 < w ↔ (d.Scaled n i → HealthUsable o) ∧
        (d.arm n i).Soft (Config.resolve penalty minAckRate ticketFaceValue) o) := by
  set cfg := Config.resolve penalty minAckRate ticketFaceValue with hcfg
  refine ⟨d.value n cfg i c o, ?_, ?_⟩
  · rw [Direction.valueFn_eq, if_pos (d.indexOk_of_lt hi)]
  · rw [Direction.value_pos_iff_gate _ _ _ _ hc]
    exact ⟨fun h => ⟨h.2, h.1.2⟩, fun h => ⟨⟨Arm.gate_of_hardGates hg, h.2⟩, h.1⟩⟩

theorem hardGates_connectivityUnknown (penalty : ℚ) :
    (Direction.forward.arm (.wide 3 (by decide)) (Usize.zero _)).HardGates
      (Config.resolve penalty 0 none) connectivityUnknown := by
  refine ⟨⟨_, ⟨rfl, by decide⟩, ?_⟩, _, rfl, Or.inr ⟨_, rfl, ?_⟩⟩
  · intro rate hrate
    cases hrate
  · show 2 * 1 ≤ 1000
    decide

theorem valueFn_pos_iff_soft_unknown : ∃ w,
    (Direction.forward.build (.wide 3 (by decide)) (1 / 2) 0 none).valueFn 1 connectivityUnknown
      (Usize.zero _) = some w ∧
    (0 < w ↔ (Direction.forward.Scaled (.wide 3 (by decide)) (Usize.zero Target.wide) →
        HealthUsable connectivityUnknown) ∧
      (Direction.forward.arm (.wide 3 (by decide)) (Usize.zero _)).Soft
        (Config.resolve (1 / 2) 0 none) connectivityUnknown) :=
  valueFn_pos_iff_soft .forward (.wide 3 (by decide)) (1 / 2) 0 none (Usize.zero _) (by decide) 1
    (by decide) connectivityUnknown (hardGates_connectivityUnknown (1 / 2))

/-- A penalty of `0` prunes an eligible first edge whose ack rate was never measured. -/
theorem eligible_edge_pruned :
    (Direction.forward.arm (.wide 3 (by decide)) (Usize.zero _)).HardGates
      (Config.resolve 0 0 none) connectivityUnknown ∧
    HealthUsable connectivityUnknown ∧
    ¬ ∃ w, (Direction.forward.build (.wide 3 (by decide)) 0 0 none).valueFn 1 connectivityUnknown
      (Usize.zero _) = some w ∧ 0 < w := by
  refine ⟨hardGates_connectivityUnknown 0, ?_, ?_⟩
  · intro q hq
    cases hq
  · rintro ⟨w, hw, hpos⟩
    have h0 : (Direction.forward.build (.wide 3 (by decide)) 0 0 none).valueFn 1 connectivityUnknown
        (Usize.zero _) = some 0 := by decide +kernel
    rw [h0, Option.some.injEq] at hw
    exact absurd hw.symm hpos.ne'

end HoprApi.Graph
