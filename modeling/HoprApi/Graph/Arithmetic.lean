import HoprApi.Graph.Gates

/-!
# The machine arithmetic of the value functions

The subtractions of the closures never underflow, so `path_index + 1` is the only operation that can
fail, and it does at `usize::MAX` (`index_arithmetic_total_iff`).  The comparison of a balance with a
256-bit product is the comparison with the product of the naturals (`balance_suffices_exact`).
-/

namespace HoprApi.Graph

open HoprApi.Rust EdgeObservableRead

variable {t : Target} {W Imm Inter : Type} [ImmediateMeasurement Imm]
  [IntermediateMeasurement Inter] [EdgeObservableRead W Imm Inter]

/-! ### Indices -/

section Index

variable {d : Direction} {n : NonZeroUsize t} {i : Usize t} {cfg : Config} {c : ℚ} {o : W}

/-- An edge past the length is rejected, whichever way the comparison goes that decides on the scaling: an
addition that wraps instead of failing gives the same value. -/
theorem arm_value_past (h : n.get.toNat ≤ i.toNat) (hc : 0 < c) :
    (d.arm n i).value cfg c o = -c ∧
      scaleByHealth ((d.arm n i).value cfg c o) (health o) = -c := by
  have harm : (d.arm n i).value cfg c o = -c := by
    rw [arm_of_le h]
    rfl
  refine ⟨harm, ?_⟩
  rw [harm]
  exact scaleByHealth_of_nonpos _ (neg_nonpos.2 hc.le)

theorem value_past (h : n.get.toNat ≤ i.toNat) (hc : 0 < c) : d.value n cfg i c o = -c := by
  unfold Direction.value
  split
  · exact (arm_value_past h hc).2
  · exact (arm_value_past h hc).1

theorem indexOk_iff : d.IndexOk i ↔ d = .forwardWithoutSelfLoopback ∨ i ≠ Usize.maxValue t := by
  rw [Ne, Usize.eq_maxValue_iff, not_not]
  rfl

/-- **When the index arithmetic of a value function is total**: for the variant that does not add to
the index, and for every other index than the last `usize`. -/
theorem index_arithmetic_total_iff (d : Direction) (n : NonZeroUsize t) (penalty minAckRate : ℚ)
    (ticketFaceValue : Option Balance) (c : ℚ) (o : W) (i : Usize t) :
    (∃ w, (d.build n penalty minAckRate ticketFaceValue).valueFn c o i = some w ∧
      (n.get.toNat ≤ i.toNat → 0 < c → w = -c)) ↔
      d = .forwardWithoutSelfLoopback ∨ i ≠ Usize.maxValue t := by
  rw [← indexOk_iff, Direction.valueFn_eq]
  constructor
  · rintro ⟨w, hw, -⟩
    by_contra hok
    rw [if_neg hok] at hw
    cases hw
  · intro hok
    exact ⟨_, if_pos hok, fun hpast hc => value_past hpast hc⟩

end Index

/-- At `usize::MAX` the addition overflows, before the value of the rejected edge is returned. -/
theorem last_index_overflows :
    (Direction.forward.build (.wide 1 (by decide)) (1 / 2) (1 / 10) none).valueFn 1 healthy
      (Usize.maxValue _) = none ∧
    (Direction.returning.build (.wide 1 (by decide)) (1 / 2) (1 / 10) none).valueFn 1 healthy
      (Usize.maxValue _) = none := by
  constructor
  · rw [Direction.valueFn_eq, if_neg (by decide)]
  · rw [Direction.valueFn_eq, if_neg (by decide)]

/-! ### Funding -/

/-- **The funding check is the comparison over the naturals.** -/
theorem balance_suffices_exact (balance : Option Balance) (hops : Usize t) (p : Balance) :
    (balanceSuffices balance hops p = true ↔
      hops.toNat = 0 ∨ ∃ b, balance = some b ∧ hops.toNat * p.toNat ≤ b.toNat) ∧
    -- fewer and cheaper hops, or a larger balance
    (∀ (hops' : Usize t) (p' : Balance), hops'.toNat ≤ hops.toNat → p' ≤ p →
      balanceSuffices balance hops p = true → balanceSuffices balance hops' p' = true) ∧
    (∀ b', (∀ b, balance = some b → b ≤ b') →
      balanceSuffices balance hops p = true → balanceSuffices (some b') hops p = true) ∧
    -- the requirement itself suffices, and a unit less does not
    (∀ b : Balance, b.toNat = hops.toNat * p.toNat → balanceSuffices (some b) hops p = true) ∧
    ∀ b : Balance, b.toNat + 1 = hops.toNat * p.toNat →
      balanceSuffices (some b) hops p = false := by
  refine ⟨balanceSuffices_iff_funds balance hops p, fun hops' p' hhops hp => ?_, fun b' hb => ?_,
    fun b hb => ?_, fun b hb => ?_⟩
  · rw [balanceSuffices_iff_funds, balanceSuffices_iff_funds]
    exact Funds.mono (fun x hx => ⟨x, hx, BitVec.le_refl x⟩) hhops hp
  · rw [balanceSuffices_iff_funds, balanceSuffices_iff_funds]
    exact Funds.mono (fun x hx => ⟨b', rfl, hb x hx⟩) le_rfl (BitVec.le_refl p)
  · rw [balanceSuffices_iff_funds]
    exact Or.inr ⟨b, rfl, hb.ge⟩
  · rw [← Bool.not_eq_true, balanceSuffices_iff_funds]
    rintro (h0 | ⟨b', hsome, hle⟩)
    · rw [h0] at hb
      omega
    · cases hsome
      omega

end HoprApi.Graph
