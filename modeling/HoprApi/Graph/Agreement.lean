import HoprApi.Graph.Gates
import HoprApi.Graph.Path

/-!
# Where the three value functions agree

The closures are three copies of each other with their arms in different orders.  Before the last
edge the loopback variant is `forward` (`valueFn_loopback`), and strictly between the two ends so is
`returning` (`valueFn_returning`).  At the ends the gates of one imply those of the other.
-/

namespace HoprApi.Graph

open HoprApi.Rust HoprApi.Lib EdgeObservableRead

variable {t : Target} {W Imm Inter : Type} [ImmediateMeasurement Imm]
  [IntermediateMeasurement Inter] [EdgeObservableRead W Imm Inter]

/-! ### Equal arms, equal values -/

section Equal

variable {d d' : Direction} {n : NonZeroUsize t} {i : Usize t}

/-- A value depends on the constructor through the arm and the health scaling alone. -/
theorem valueFn_congr (harm : d.arm n i = d'.arm n i) (hs : d.Scaled n i ↔ d'.Scaled n i)
    (hok : d.IndexOk i ↔ d'.IndexOk i) (penalty minAckRate : ℚ) (ticketFaceValue : Option Balance)
    (c : ℚ) (o : W) :
    (d.build n penalty minAckRate ticketFaceValue).valueFn c o i =
      (d'.build n penalty minAckRate ticketFaceValue).valueFn c o i := by
  rw [Direction.valueFn_eq, Direction.valueFn_eq]
  simp only [Direction.value, harm, hs, hok]

theorem scaled_of_lt (h : i.toNat + 1 < n.get.toNat) : d.Scaled n i := Or.inr h

theorem indexOk_of_succ_lt (h : i.toNat + 1 < n.get.toNat) : d.IndexOk i :=
  d.indexOk_of_lt (by omega : i.toNat < n.get.toNat)

theorem arm_loopback (h : i.toNat + 1 < n.get.toNat) :
    Direction.forwardWithoutSelfLoopback.arm n i = Direction.forward.arm n i := by
  have hlast : i.toNat + 1 ≠ n.get.toNat := by omega
  simp only [Direction.arm, if_neg hlast]

theorem arm_between (h0 : 0 < i.toNat) (h : i.toNat + 1 < n.get.toNat) :
    d.arm n i = .funded (hopsAfter n i) := by
  have hlast : i.toNat + 1 ≠ n.get.toNat := by omega
  have hpast : ¬ n.get.toNat ≤ i.toNat := by omega
  have hfirst : i.toNat ≠ 0 := by omega
  rcases d with _ | _ | _ <;>
    simp only [Direction.arm, if_neg hlast, if_neg hpast, if_neg hfirst]

variable (penalty minAckRate : ℚ) (ticketFaceValue : Option Balance) (c : ℚ) (o : W)

theorem valueFn_loopback (h : i.toNat + 1 < n.get.toNat) :
    (Direction.forwardWithoutSelfLoopback.build n penalty minAckRate
      ticketFaceValue).valueFn c o i =
      (Direction.forward.build n penalty minAckRate ticketFaceValue).valueFn c o i :=
  valueFn_congr (arm_loopback h) (iff_of_true (scaled_of_lt h) (scaled_of_lt h))
    (iff_of_true (indexOk_of_succ_lt h) (indexOk_of_succ_lt h)) _ _ _ c o

theorem valueFn_returning (h0 : 0 < i.toNat) (h : i.toNat + 1 < n.get.toNat) :
    (Direction.forward.build n penalty minAckRate ticketFaceValue).valueFn c o i =
      (Direction.returning.build n penalty minAckRate ticketFaceValue).valueFn c o i :=
  valueFn_congr ((arm_between h0 h).trans (arm_between h0 h).symm)
    (iff_of_true (scaled_of_lt h) (scaled_of_lt h))
    (iff_of_true (indexOk_of_succ_lt h) (indexOk_of_succ_lt h)) _ _ _ c o

end Equal

/-! ### The ends of a path -/

section Ends

variable {d d' : Direction} {n : NonZeroUsize t} {i : Usize t} {penalty minAckRate c : ℚ}
  {ticketFaceValue : Option Balance} {o : W}

/-- An edge value from a positive incoming value is positive exactly when the gate and the soft
condition hold and the relayer, if there is one, is usable. -/
theorem valueFn_pos_iff (hi : i.toNat < n.get.toNat) (hc : 0 < c) :
    (∃ w, (d.build n penalty minAckRate ticketFaceValue).valueFn c o i = some w ∧ 0 < w) ↔
      ((d.arm n i).Gate (Config.resolve penalty minAckRate ticketFaceValue) o ∧
        (d.arm n i).Soft (Config.resolve penalty minAckRate ticketFaceValue) o) ∧
      (d.Scaled n i → HealthUsable o) := by
  rw [Direction.valueFn_eq, if_pos (d.indexOk_of_lt hi)]
  simp only [Option.some.injEq, exists_eq_left']
  exact Direction.value_pos_iff_gate d n _ i hc o

/-- The return direction's first edge asks for less. -/
theorem returning_pos_of_forward (h2 : 2 ≤ n.get.toNat) (hi : i.toNat = 0) (hc : 0 < c)
    (h : ∃ w, (Direction.forward.build n penalty minAckRate ticketFaceValue).valueFn c o i =
      some w ∧ 0 < w) :
    ∃ w, (Direction.returning.build n penalty minAckRate ticketFaceValue).valueFn c o i =
      some w ∧ 0 < w := by
  have hlt : i.toNat < n.get.toNat := by omega
  have hlast : i.toNat + 1 ≠ n.get.toNat := by omega
  have hpast : ¬ n.get.toNat ≤ i.toNat := by omega
  have hforward : Direction.forward.arm n i = .first (hopsAfter n i) := by
    simp only [Direction.arm, if_neg hlast, if_pos hi]
  have hreturning : Direction.returning.arm n i = .funded (hopsAfter n i) := by
    simp only [Direction.arm, if_neg hlast, if_neg hpast]
  rw [valueFn_pos_iff hlt hc, hforward] at h
  obtain ⟨⟨⟨-, hfunded⟩, -⟩, hhealth⟩ := h
  rw [valueFn_pos_iff hlt hc, hreturning]
  exact ⟨⟨hfunded, trivial⟩, fun _ => hhealth (scaled_of_lt (by omega))⟩

/-- The forward direction's last edge asks for less. -/
theorem forward_pos_of_returning (h2 : 2 ≤ n.get.toNat) (hi : i.toNat + 1 = n.get.toNat)
    (hc : 0 < c)
    (h : ∃ w, (Direction.returning.build n penalty minAckRate ticketFaceValue).valueFn c o i =
      some w ∧ 0 < w) :
    ∃ w, (Direction.forward.build n penalty minAckRate ticketFaceValue).valueFn c o i =
      some w ∧ 0 < w := by
  have hlt : i.toNat < n.get.toNat := by omega
  have hdirect : n.get.toNat ≠ 1 := by omega
  have hforward : Direction.forward.arm n i = .forwardLast n.get := if_pos hi
  have hreturning : Direction.returning.arm n i = .returningLast := if_pos hi
  rw [valueFn_pos_iff hlt hc, hreturning] at h
  obtain ⟨⟨⟨imm, hlive, -⟩, -⟩, -⟩ := h
  rw [valueFn_pos_iff hlt hc, hforward]
  refine ⟨⟨fun h1 => absurd h1 hdirect, fun h1 => absurd h1 hdirect, ?_⟩, ?_⟩
  · exact Or.inr (Or.inl ⟨imm, hlive⟩)
  · -- the last edge leads to the endpoint, whose health does not count
    rintro (hd | hscaled)
    · cases hd
    · omega

end Ends

/-! ### Agreement -/

/-- **The three value functions agree where they claim to.** -/
theorem valueFns_agree (n : NonZeroUsize t) (h2 : 2 ≤ n.get.toNat) (penalty minAckRate : ℚ)
    (ticketFaceValue : Option Balance) :
    let forward := Direction.forward.build n penalty minAckRate ticketFaceValue
    let returning := Direction.returning.build n penalty minAckRate ticketFaceValue
    let loopback :=
      Direction.forwardWithoutSelfLoopback.build n penalty minAckRate ticketFaceValue
    (∀ path : List W, path.length ≤ n.get.toNat - 1 → ∀ v k,
      loopback.fold v (path.take k) = forward.fold v (path.take k)) ∧
    (∀ i : Usize t, 0 < i.toNat → i.toNat < n.get.toNat - 1 → ∀ c o,
      forward.valueFn c o i = returning.valueFn c o i) ∧
    (∀ (c : ℚ) (o : W), 0 < c →
      (∀ i : Usize t, i.toNat = 0 → (∃ w, forward.valueFn c o i = some w ∧ 0 < w) →
        ∃ w, returning.valueFn c o i = some w ∧ 0 < w) ∧
      (∀ i : Usize t, i.toNat = n.get.toNat - 1 →
        (∃ w, returning.valueFn c o i = some w ∧ 0 < w) →
        ∃ w, forward.valueFn c o i = some w ∧ 0 < w)) := by
  intro forward returning loopback
  refine ⟨?_, ?_, ?_⟩
  · intro path hlen v k
    refine Fold.foldFrom_congr fun j hj c => ?_
    rw [List.length_take] at hj
    unfold EdgeValueFn.step
    rcases hi : Usize.ofNat? t (0 + j) with _ | i
    · rfl
    · have hij : i.toNat = 0 + j := Usize.ofNat?_eq_some.1 hi
      exact valueFn_loopback penalty minAckRate ticketFaceValue c _ (by omega)
  · intro i h0 hi c o
    exact valueFn_returning penalty minAckRate ticketFaceValue c o h0 (by omega)
  · intro c o hc
    refine ⟨fun i hi h => ?_, fun i hi h => ?_⟩
    · exact returning_pos_of_forward h2 hi hc h
    · exact forward_pos_of_returning h2 (by omega) hc h

/-- A loopback probe of three hops values a healthy relay as forward traffic does. -/
theorem valueFns_agree_healthy :
    (Direction.forwardWithoutSelfLoopback.build (.wide 3 (by decide)) (1 / 2) (1 / 10) none).fold 1
      ([healthy, healthy].take 1) =
    (Direction.forward.build (.wide 3 (by decide)) (1 / 2) (1 / 10) none).fold 1
      ([healthy, healthy].take 1) :=
  (valueFns_agree (.wide 3 (by decide)) (by decide) (1 / 2) (1 / 10) none).1
    [healthy, healthy] (by decide) 1 1

end HoprApi.Graph
