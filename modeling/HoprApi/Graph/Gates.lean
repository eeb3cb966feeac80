import HoprApi.Graph.Arms

/-!
# What an arm asks of an edge

`Arm.Gate` collects the requirements on which an arm rejects an edge: the streams it needs, the
funding of the remaining hops, and the ack rate threshold.  `Arm.Soft` collects what makes the
product of the remaining factors positive.  From a positive incoming value an arm is positive
exactly when both hold, and negative exactly when the gate fails (`Arm.value_one_signedBy`).
-/

namespace HoprApi.Graph

open HoprApi.Rust EdgeObservableRead EdgeNetworkObservableRead EdgeProtocolObservable
  EdgeImmediateProtocolObservable

variable {t : Target} {W Imm Inter : Type} [ImmediateMeasurement Imm]
  [IntermediateMeasurement Inter] [EdgeObservableRead W Imm Inter]

/-! ### Funding -/

/-- The balance is known and pays `hops` tickets of the given face value, unless no hop is left. -/
def Funds (balance : Option Balance) (hops : ℕ) (ticketFaceValue : Balance) : Prop :=
  hops = 0 ∨ ∃ b, balance = some b ∧ hops * ticketFaceValue.toNat ≤ b.toNat

theorem balanceSuffices_iff_funds (balance : Option Balance) (hops : Usize t) (p : Balance) :
    balanceSuffices balance hops p = true ↔ Funds balance hops.toNat p := by
  unfold balanceSuffices Funds
  by_cases h0 : hops.toNat = 0
  · simp [(eq_zero_iff hops).2 h0]
  · rw [if_neg (mt (eq_zero_iff hops).1 h0), or_iff_right h0]
    by_cases hp : p = 0
    · rw [if_pos hp, Option.isSome_iff_exists]
      simp [hp]
    · rw [if_neg hp]
      rcases balance with _ | b
      · simp
      · simp [U256.any_checkedMul_le, U256.toNat_fromU64, Usize.toNat_asU64]

theorem Funds.mono {b b' : Option Balance} (hb : ∀ x, b = some x → ∃ y, b' = some y ∧ x ≤ y)
    {hops hops' : ℕ} (hhops : hops' ≤ hops) {p p' : Balance} (hp : p' ≤ p) (h : Funds b hops p) :
    Funds b' hops' p' := by
  rcases h with h | ⟨x, hknown, hfunds⟩
  · left
    omega
  · obtain ⟨y, hknown', hle⟩ := hb x hknown
    refine Or.inr ⟨y, hknown', ?_⟩
    calc hops' * p'.toNat ≤ hops * p.toNat := Nat.mul_le_mul hhops (BitVec.le_def.1 hp)
      _ ≤ x.toNat := hfunds
      _ ≤ y.toNat := BitVec.le_def.1 hle

/-- The intermediate stream is present and its channel funds `hops` hops. -/
def Funded (cfg : Config) (hops : ℕ) (o : W) : Prop :=
  ∃ intermediate, intermediateQos o = some intermediate ∧
    Funds (balance intermediate) hops cfg.ticketFaceValue

/-! ### The ack rate -/

def AckRateOk (cfg : Config) (rate : Option ℚ) : Prop := ∀ r, rate = some r → cfg.minAckRate ≤ r

/-- The factor that stands for the ack rate, the penalty where it is unknown, is positive. -/
def AckFactorPos (cfg : Config) (rate : Option ℚ) : Prop := 0 < rate.getD cfg.penalty

/-- The immediate stream is present and was not observed disconnected. -/
def Live (o : W) (immediate : Imm) : Prop :=
  immediateQos o = some immediate ∧ isConnected immediate ≠ some false

def BalanceKnown (o : W) : Prop :=
  ∃ intermediate, intermediateQos o = some intermediate ∧ (balance intermediate).isSome

/-- The immediate stream whose ack rate a direct route (one edge) applies. -/
def AckRateApplies (o : W) (immediate : Imm) : Prop :=
  immediateQos o = some immediate ∧ (BalanceKnown o ∨ isConnected immediate ≠ some false)

/-! ### The gates and the soft factors of an arm -/

/-- The requirements on which the arm rejects an edge. -/
def Arm.Gate (cfg : Config) (o : W) : Arm t → Prop
  | .first hops =>
    (∃ immediate, Live o immediate ∧ AckRateOk cfg (ackRate immediate)) ∧ Funded cfg hops.toNat o
  | .funded hops => Funded cfg hops.toNat o
  | .forwardLast length =>
    length.toNat = 1 → ∀ immediate, AckRateApplies o immediate → AckRateOk cfg (ackRate immediate)
  | .returningLast => ∃ immediate, Live o immediate ∧ AckRateOk cfg (ackRate immediate)
  | .past => False

/-- The factors that no floor keeps positive are positive. -/
def Arm.Soft (cfg : Config) (o : W) : Arm t → Prop
  | .first _ => ∀ immediate, Live o immediate → AckFactorPos cfg (ackRate immediate)
  | .funded _ => True
  | .forwardLast length =>
    (length.toNat = 1 →
      ∀ immediate, AckRateApplies o immediate → AckFactorPos cfg (ackRate immediate)) ∧
    (BalanceKnown o ∨ (∃ immediate, Live o immediate) ∨ 0 < cfg.penalty)
  | .returningLast => ∀ immediate, Live o immediate → AckFactorPos cfg (ackRate immediate)
  | .past => True

theorem scoreOrPenalize_pos {cost : ℚ} (hc : 0 < cost) (score : Option ℚ) (penalty : ℚ) :
    0 < scoreOrPenalize cost score penalty := by
  have hfloor : 0 < measuredDeadFloor := by norm_num [measuredDeadFloor]
  exact mul_pos hc (lt_max_of_lt_right hfloor)

theorem notDisconnected_iff {immediate : Imm} :
    notDisconnected immediate = true ↔ isConnected immediate ≠ some false := by
  simp [notDisconnected]

/-- The value `v` is negative exactly when the gate `G` fails, and positive exactly when the gate
and the soft condition `S` hold. -/
def SignedBy (v : ℚ) (G S : Prop) : Prop := (0 < v ↔ G ∧ S) ∧ (v < 0 ↔ ¬ G)

theorem signedBy_of_pos {v : ℚ} {G S : Prop} (hv : 0 < v) (hG : G) (hS : S) : SignedBy v G S :=
  ⟨⟨fun _ => ⟨hG, hS⟩, fun _ => hv⟩, ⟨fun h => absurd h (not_lt.2 hv.le), fun h => absurd hG h⟩⟩

theorem signedBy_of_neg {v : ℚ} {G S : Prop} (hv : v < 0) (hG : ¬ G) : SignedBy v G S :=
  ⟨⟨fun h => absurd h (not_lt.2 hv.le), fun h => absurd h.1 hG⟩, ⟨fun _ => hG, fun _ => hv⟩⟩

theorem SignedBy.congr {v : ℚ} {G S G' S' : Prop} (h : SignedBy v G S) (hG : G ↔ G')
    (hS : S ↔ S') : SignedBy v G' S' := by
  rwa [← propext hG, ← propext hS]

theorem applyAckRate_signedBy (cfg : Config) (rate : Option ℚ) {base : ℚ} (hb : 0 < base) :
    SignedBy (applyAckRate rate base cfg.minAckRate cfg.penalty)
      (AckRateOk cfg rate) (AckFactorPos cfg rate) := by
  have hpen := cfg.penalty_mem.1
  have hmin := cfg.minAckRate_mem.1
  unfold AckRateOk AckFactorPos
  rcases rate with _ | r
  · have h0 : 0 ≤ base * cfg.penalty := mul_nonneg hb.le hpen
    refine ⟨?_, ?_⟩
    · simpa [applyAckRate] using mul_pos_iff_of_pos_left hb
    · simpa [applyAckRate] using h0
  · simp only [applyAckRate, Option.some.injEq, forall_eq', Option.getD_some]
    by_cases hr : r < cfg.minAckRate
    · rw [if_pos hr]
      exact signedBy_of_neg (neg_lt_zero.2 hb) (not_le.2 hr)
    · have hr0 : 0 ≤ r := hmin.trans (not_lt.1 hr)
      have h0 : 0 ≤ base * r := mul_nonneg hb.le hr0
      rw [if_neg hr]
      refine ⟨?_, ?_⟩
      · rw [mul_pos_iff_of_pos_left hb, and_iff_right (not_lt.1 hr)]
      · exact iff_of_false (not_lt.2 h0) (not_not.2 (not_lt.1 hr))

theorem penalty_signedBy (cfg : Config) : SignedBy (1 * cfg.penalty) True (0 < cfg.penalty) := by
  rw [one_mul]
  exact ⟨by rw [true_and], iff_of_false (not_lt.2 cfg.penalty_mem.1) (not_not.2 trivial)⟩

omit [ImmediateMeasurement Imm] in
theorem requireFunding_signedBy (cfg : Config) (hops : Usize t) (o : W) :
    SignedBy (requireFunding o 1 cfg.penalty hops cfg.ticketFaceValue)
      (Funded cfg hops.toNat o) True := by
  unfold requireFunding Funded
  simp only [← balanceSuffices_iff_funds]
  rcases intermediateQos o with _ | inter
  · exact signedBy_of_neg (by norm_num) (by simp)
  · by_cases hf : balanceSuffices (balance inter) hops cfg.ticketFaceValue = true
    · simp only [Option.filter_some, hf, if_true]
      exact signedBy_of_pos (scoreOrPenalize_pos zero_lt_one _ _) ⟨inter, rfl, hf⟩ trivial
    · simp only [Option.filter_some, hf]
      refine signedBy_of_neg (by norm_num) ?_
      rintro ⟨inter', he, hf'⟩
      cases he
      exact hf hf'

omit [IntermediateMeasurement Inter] in
theorem returningLastEdge_signedBy (cfg : Config) (o : W) :
    SignedBy (returningLastEdge cfg 1 o)
      (∃ immediate, Live o immediate ∧ AckRateOk cfg (ackRate immediate))
      (∀ immediate, Live o immediate → AckFactorPos cfg (ackRate immediate)) := by
  unfold returningLastEdge Live
  rcases immediateQos o with _ | imm
  · exact signedBy_of_neg (by norm_num) (by simp)
  · by_cases hd : notDisconnected imm = true
    · have hd' := notDisconnected_iff.1 hd
      simp only [Option.filter_some, hd, if_true]
      refine (applyAckRate_signedBy cfg _ (scoreOrPenalize_pos zero_lt_one _ _)).congr ?_ ?_
      · simp [hd']
      · simp [hd']
    · simp only [Option.filter_some, hd]
      refine signedBy_of_neg (by norm_num) ?_
      rintro ⟨imm', ⟨he, hc⟩, -⟩
      cases he
      exact hd (notDisconnected_iff.2 hc)

theorem firstEdge_signedBy (cfg : Config) (hops : Usize t) (o : W) :
    SignedBy (firstEdge cfg hops 1 o)
      ((∃ immediate, Live o immediate ∧ AckRateOk cfg (ackRate immediate)) ∧
        Funded cfg hops.toNat o)
      (∀ immediate, Live o immediate → AckFactorPos cfg (ackRate immediate)) := by
  unfold firstEdge Live Funded
  simp only [← balanceSuffices_iff_funds]
  rcases immediateQos o with _ | imm
  · exact signedBy_of_neg (by simp) (by simp)
  · by_cases hd : notDisconnected imm = true
    · have hd' := notDisconnected_iff.1 hd
      rcases intermediateQos o with _ | inter
      · exact signedBy_of_neg (by simp) (by simp)
      · by_cases hf : balanceSuffices (balance inter) hops cfg.ticketFaceValue = true
        · simp only [Option.filter_some, hd, hf, if_true]
          refine (applyAckRate_signedBy cfg _ (scoreOrPenalize_pos zero_lt_one _ _)).congr ?_ ?_
          · simp [hd', hf]
          · simp [hd']
        · refine signedBy_of_neg (by simp [hf]) ?_
          rintro ⟨-, inter', he, hf'⟩
          cases he
          exact hf hf'
    · have hneg : (-1 : ℚ) < 0 := by norm_num
      simp only [Option.filter_some, hd, Bool.false_eq_true, if_false]
      refine signedBy_of_neg hneg ?_
      rintro ⟨⟨imm', ⟨he, hc⟩, -⟩, -⟩
      cases he
      exact hd (notDisconnected_iff.2 hc)

theorem forwardLastEdge_signedBy (cfg : Config) (length : Usize t) (o : W) :
    SignedBy (forwardLastEdge cfg length 1 o)
      ((Arm.forwardLast length).Gate cfg o) ((Arm.forwardLast length).Soft cfg o) := by
  have hbase := fun s => scoreOrPenalize_pos (zero_lt_one' ℚ) s cfg.penalty
  have hone : length = Usize.one t ↔ length.toNat = 1 := by rw [Usize.ext_iff, Usize.toNat_one]
  unfold forwardLastEdge
  simp only [Arm.Gate, Arm.Soft, hone]
  by_cases hk : BalanceKnown o
  · -- the balance selects the intermediate stream, the ack rate only applies to a direct route
    obtain ⟨inter, hinter, hb⟩ := id hk
    simp only [hinter, Option.filter_some, hb, if_true, hk, true_or, and_true, AckRateApplies]
    by_cases hl : length.toNat = 1
    · rw [if_pos hl]
      rcases immediateQos o with _ | imm
      · exact signedBy_of_pos (hbase _) (by simp) (by simp)
      · exact (applyAckRate_signedBy cfg _ (hbase _)).congr (by simp [hl]) (by simp [hl])
    · rw [if_neg hl]
      exact signedBy_of_pos (hbase _) (by simp [hl]) (by simp [hl])
  · have hnone : (intermediateQos o).filter (fun inter => (balance inter).isSome) = none := by
      rw [Option.filter_eq_none_iff]
      intro inter hinter hb
      exact hk ⟨inter, hinter, hb⟩
    simp only [hnone, hk, false_or, AckRateApplies, Live]
    rcases immediateQos o with _ | imm
    · exact (penalty_signedBy cfg).congr (by simp) (by simp)
    · by_cases hd : notDisconnected imm = true
      · have hd' := notDisconnected_iff.1 hd
        simp only [Option.filter_some, hd, if_true]
        by_cases hl : length.toNat = 1
        · rw [if_pos hl]
          refine (applyAckRate_signedBy cfg _ (hbase _)).congr ?_ ?_
          · simp [hl, hd']
          · simp [hl, hd']
        · rw [if_neg hl]
          exact signedBy_of_pos (hbase _) (by simp [hl]) (by simp [hl, hd'])
      · have hd' : isConnected imm = some false := not_not.1 (mt notDisconnected_iff.2 hd)
        simp only [Option.filter_some, hd, Bool.false_eq_true, if_false]
        exact (penalty_signedBy cfg).congr (by simp [hd']) (by simp [hd'])

/-- **The sign of an arm's own value.** -/
theorem Arm.value_one_signedBy (cfg : Config) (o : W) (a : Arm t) :
    SignedBy (a.value cfg 1 o) (a.Gate cfg o) (a.Soft cfg o) := by
  rcases a with hops | hops | length | _ | _
  · exact firstEdge_signedBy cfg hops o
  · exact requireFunding_signedBy cfg hops o
  · exact forwardLastEdge_signedBy cfg length o
  · exact returningLastEdge_signedBy cfg o
  · exact signedBy_of_neg (by norm_num [Arm.value]) not_false

/-- **When an edge value is positive**, from a positive incoming value. -/
theorem Direction.value_pos_iff_gate (d : Direction) (n : NonZeroUsize t) (cfg : Config)
    (i : Usize t) {c : ℚ} (hc : 0 < c) (o : W) :
    0 < d.value n cfg i c o ↔
      ((d.arm n i).Gate cfg o ∧ (d.arm n i).Soft cfg o) ∧ (d.Scaled n i → HealthUsable o) := by
  rw [Direction.value_pos_iff, Arm.value_eq_mul, mul_pos_iff_of_pos_left hc,
    (Arm.value_one_signedBy cfg o _).1]

end HoprApi.Graph
