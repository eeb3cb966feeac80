import HoprApi.Graph.Monotone

/-!
# The thresholds of a path

The face value of a ticket and the least ack rate enter the value functions by comparisons alone.
So every path has a largest face value that its channels can fund and a largest ack rate that its
peers meet: up to these two it is accepted and worth the same as at no price and no threshold, and
beyond either it is rejected (`thresholds`).
-/

namespace HoprApi.Graph

open HoprApi.Rust HoprApi.Lib EdgeObservableRead EdgeNetworkObservableRead EdgeProtocolObservable
  EdgeImmediateProtocolObservable

variable {t : Target} {W Imm Inter : Type} [ImmediateMeasurement Imm]
  [IntermediateMeasurement Inter] [EdgeObservableRead W Imm Inter]

/-! ### What an arm compares -/

/-- The largest face value at which the channel funds the hops behind the edge; `none` where the arm
compares no balance. -/
def Arm.affordable (o : W) : Arm t → Option ℕ
  | .first hops | .funded hops =>
    if hops.toNat = 0 then none
    else ((intermediateQos o).bind balance).map fun b => b.toNat / hops.toNat
  | _ => none

/-- The ack rate that the arm compares with the threshold, if it compares one. -/
def Arm.comparedAckRate (o : W) : Arm t → Option ℚ
  | .first _ | .returningLast => (immediateQos o).bind ackRate
  | .forwardLast length =>
    if length.toNat = 1 ∧ (((intermediateQos o).bind balance).isSome ∨
        ((immediateQos o).filter notDisconnected).isSome) then
      (immediateQos o).bind ackRate
    else none
  | _ => none

structure Config.Unrestricted (cfg : Config) : Prop where
  minAckRate : cfg.minAckRate = 0
  ticketFaceValue : cfg.ticketFaceValue = 0

section Arms

variable {cfg cfg₀ : Config} (h₀ : cfg₀.Unrestricted) {o : W}
include h₀

theorem ackRateOk_iff {rate : Option ℚ} :
    AckRateOk cfg rate ↔ AckRateOk cfg₀ rate ∧ ∀ r, rate = some r → cfg.minAckRate ≤ r := by
  constructor
  · intro h
    refine ⟨fun r hr => ?_, h⟩
    rw [h₀.minAckRate]
    exact cfg.minAckRate_mem.1.trans (h r hr)
  · intro h
    exact h.2

omit [ImmediateMeasurement Imm] in
theorem funded_iff {hops : ℕ} :
    Funded cfg hops o ↔ Funded cfg₀ hops o ∧
      (hops ≠ 0 → ∀ b, (intermediateQos o).bind balance = some b →
        cfg.ticketFaceValue.toNat ≤ b.toNat / hops) := by
  have hzero : cfg₀.ticketFaceValue.toNat = 0 := by
    rw [h₀.ticketFaceValue]
    rfl
  constructor
  · rintro ⟨inter, hinter, hfunds⟩
    refine ⟨⟨inter, hinter, hfunds.imp id ?_⟩, fun hhops b hb => ?_⟩
    · rintro ⟨b, hb, -⟩
      exact ⟨b, hb, by rw [hzero]; omega⟩
    · rw [hinter, Option.bind_some] at hb
      obtain hnone | ⟨b', hb', hle⟩ := hfunds
      · exact absurd hnone hhops
      · rw [hb, Option.some.injEq] at hb'
        rw [Nat.le_div_iff_mul_le (by omega), mul_comm, hb']
        exact hle
  · rintro ⟨⟨inter, hinter, hfunds⟩, hprice⟩
    refine ⟨inter, hinter, ?_⟩
    rcases hfunds with hnone | ⟨b, hb, -⟩
    · exact Or.inl hnone
    · by_cases hhops : hops = 0
      · exact Or.inl hhops
      · have hle := hprice hhops b (by rw [hinter, Option.bind_some, hb])
        rw [Nat.le_div_iff_mul_le (by omega), mul_comm] at hle
        exact Or.inr ⟨b, hb, hle⟩

omit [IntermediateMeasurement Inter] in
theorem peer_iff :
    (∃ immediate, Live o immediate ∧ AckRateOk cfg (ackRate immediate)) ↔
      (∃ immediate, Live o immediate ∧ AckRateOk cfg₀ (ackRate immediate)) ∧
        ∀ r, (immediateQos o).bind ackRate = some r → cfg.minAckRate ≤ r := by
  constructor
  · rintro ⟨imm, hlive, hack⟩
    obtain ⟨hack₀, hmin⟩ := (ackRateOk_iff h₀).1 hack
    refine ⟨⟨imm, hlive, hack₀⟩, fun r hr => hmin r ?_⟩
    rwa [hlive.1, Option.bind_some] at hr
  · rintro ⟨⟨imm, hlive, hack₀⟩, hmin⟩
    refine ⟨imm, hlive, (ackRateOk_iff h₀).2 ⟨hack₀, fun r hr => hmin r ?_⟩⟩
    rwa [hlive.1, Option.bind_some]

omit h₀ in
theorem exists_ackRateApplies_iff {r : ℚ} :
    (∃ immediate, AckRateApplies o immediate ∧ ackRate immediate = some r) ↔
      (((intermediateQos o).bind balance).isSome ∨
        ((immediateQos o).filter notDisconnected).isSome) ∧
        (immediateQos o).bind ackRate = some r := by
  have hknown : BalanceKnown o ↔ ((intermediateQos o).bind balance).isSome = true := by
    unfold BalanceKnown
    rcases intermediateQos o with _ | inter <;> simp
  unfold AckRateApplies
  rw [← hknown]
  rcases immediateQos o with _ | imm
  · simp
  · simp only [Option.some.injEq, and_assoc, exists_eq_left', Option.bind_some, Option.filter_some,
      ← notDisconnected_iff]
    by_cases hd : notDisconnected imm = true
    · simp [hd]
    · simp [hd]

/-- **What price and threshold add to a gate.** -/
theorem Arm.gate_iff_thresholds (a : Arm t) :
    a.Gate cfg o ↔ a.Gate cfg₀ o ∧
      (∀ m, a.affordable o = some m → cfg.ticketFaceValue.toNat ≤ m) ∧
      ∀ r, a.comparedAckRate o = some r → cfg.minAckRate ≤ r := by
  have hafford : ∀ hops : Usize t,
      (∀ m, (if hops.toNat = 0 then none else ((intermediateQos o).bind balance).map fun b =>
        b.toNat / hops.toNat) = some m → cfg.ticketFaceValue.toNat ≤ m) ↔
      (hops.toNat ≠ 0 → ∀ b, (intermediateQos o).bind balance = some b →
        cfg.ticketFaceValue.toNat ≤ b.toNat / hops.toNat) := by
    intro hops
    by_cases h0 : hops.toNat = 0
    · simp [h0]
    · rw [if_neg h0, forall_prop_of_true h0]
      simp only [Option.map_eq_some_iff]
      exact ⟨fun h b hb => h _ ⟨b, hb, rfl⟩, fun h m ⟨b, hb, hm⟩ => hm ▸ h b hb⟩
  rcases a with hops | hops | length | _ | _
  · simp only [Arm.Gate, Arm.affordable, Arm.comparedAckRate, hafford]
    rw [peer_iff h₀, funded_iff h₀]
    tauto
  · simp only [Arm.Gate, Arm.affordable, Arm.comparedAckRate, hafford]
    rw [funded_iff h₀]
    simp
  · simp only [Arm.Gate, Arm.affordable, Arm.comparedAckRate, reduceCtorEq, false_imp_iff,
      implies_true, true_and]
    by_cases hl : length.toNat = 1
    · simp only [hl, true_imp_iff, true_and]
      constructor
      · intro h
        refine ⟨fun imm happ => ((ackRateOk_iff h₀).1 (h imm happ)).1, fun r hr => ?_⟩
        rw [Option.ite_none_right_eq_some] at hr
        obtain ⟨imm, happ, hrate⟩ := exists_ackRateApplies_iff.2 hr
        exact h imm happ r hrate
      · rintro ⟨hgate, hmin⟩ imm happ
        refine (ackRateOk_iff h₀).2 ⟨hgate imm happ, fun r hr => hmin r ?_⟩
        rw [Option.ite_none_right_eq_some]
        exact exists_ackRateApplies_iff.1 ⟨imm, happ, hr⟩
    · simp [hl]
  · simp only [Arm.Gate, Arm.affordable, Arm.comparedAckRate, reduceCtorEq, false_imp_iff,
      implies_true, true_and]
    exact peer_iff h₀
  · simp [Arm.Gate]

end Arms

/-! ### Along a path -/

section Paths

variable (d : Direction) (n : NonZeroUsize t)

/-- What the arms along a path yield for its edges. -/
def alongPath {α : Type} (g : Arm t → W → Option α) (path : List W) : List α :=
  path.zipIdx.filterMap fun e => (Usize.ofNat? t e.2).bind fun i => g (d.arm n i) e.1

theorem mem_alongPath {α : Type} {g : Arm t → W → Option α} {path : List W} {a : α} :
    a ∈ alongPath d n g path ↔
      ∃ (i : Usize t) (hi : i.toNat < path.length), g (d.arm n i) path[i.toNat] = some a := by
  unfold alongPath
  simp only [List.mem_filterMap, Prod.exists, List.mem_zipIdx_iff_getElem?, Option.bind_eq_some_iff,
    List.getElem?_eq_some_iff]
  constructor
  · rintro ⟨o, k, ⟨hk, ho⟩, i, hi, ha⟩
    obtain rfl := Usize.ofNat?_eq_some.1 hi
    exact ⟨i, hk, ho ▸ ha⟩
  · rintro ⟨i, hi, ha⟩
    exact ⟨_, i.toNat, ⟨hi, rfl⟩, i, Usize.ofNat?_eq_some.2 rfl, ha⟩

/-- The largest face value that every channel of the path can fund; `none` is no bound. -/
def maxFaceValue (path : List W) : Option ℕ :=
  (alongPath d n (fun a o => a.affordable o) path).min?

/-- The least ack rate along the path that is compared with the threshold. -/
def leastAckRate (path : List W) : Option ℚ :=
  (alongPath d n (fun a o => a.comparedAckRate o) path).min?

theorem forall_min?_iff {α : Type} [LinearOrder α] {l : List α} {x : α} :
    (∀ m, l.min? = some m → x ≤ m) ↔ ∀ b ∈ l, x ≤ b := by
  rcases l with _ | ⟨a, l⟩
  · simp
  · have hmin : (a :: l).min? = some (l.foldl min a) := rfl
    rw [hmin]
    simp only [Option.some.injEq, forall_eq']
    exact List.le_min?_iff hmin

/-- Price and threshold add the comparisons of its arm to what an edge is accepted by. -/
theorem Direction.value_pos_iff_thresholds (cfg : Config) {cfg₀ : Config} (h₀ : cfg₀.Unrestricted)
    (hpenalty : cfg₀.penalty = cfg.penalty) (i : Usize t) (o : W) :
    0 < d.value n cfg i 1 o ↔ 0 < d.value n cfg₀ i 1 o ∧
      (∀ m, (d.arm n i).affordable o = some m → cfg.ticketFaceValue.toNat ≤ m) ∧
      ∀ r, (d.arm n i).comparedAckRate o = some r → cfg.minAckRate ≤ r := by
  have hsoft : (d.arm n i).Soft cfg₀ o ↔ (d.arm n i).Soft cfg o := by
    rcases d.arm n i with hops | hops | length | _ | _ <;>
      simp only [Arm.Soft, AckFactorPos, hpenalty]
  rw [Direction.value_pos_iff_gate _ _ _ _ one_pos, Direction.value_pos_iff_gate _ _ _ _ one_pos,
    Arm.gate_iff_thresholds h₀, hsoft]
  tauto

variable (penalty minAckRate : ℚ) (ticketFaceValue : Option Balance)

theorem unrestricted_resolve : (Config.resolve penalty 0 (some 0)).Unrestricted :=
  ⟨by norm_num [Config.resolve, clamp], rfl⟩

/-- A path is accepted exactly when it is without a price and a threshold, and every comparison
along it comes out well. -/
theorem accepts_iff_alongPath (path : List W) :
    (d.build n penalty minAckRate ticketFaceValue).Accepts path ↔
      (d.build n penalty 0 (some 0)).Accepts path ∧
      (∀ m ∈ alongPath d n (fun a o => a.affordable o) path,
        (ticketFaceValue.getD defaultTicketFaceValue).toNat ≤ m) ∧
      ∀ r ∈ alongPath d n (fun a o => a.comparedAckRate o) path, clamp minAckRate 0 1 ≤ r := by
  have hedge := d.value_pos_iff_thresholds n (W := W)
    (Config.resolve penalty minAckRate ticketFaceValue) (unrestricted_resolve penalty) rfl
  rw [Direction.accepts_iff, Direction.accepts_iff]
  simp only [mem_alongPath]
  constructor
  · intro h
    refine ⟨fun k hk => ?_, fun m ⟨i, hi, hm⟩ => ?_, fun r ⟨i, hi, hr⟩ => ?_⟩
    · obtain ⟨i, hi, hok, hpos⟩ := h k hk
      exact ⟨i, hi, hok, ((hedge i _).1 hpos).1⟩
    · obtain ⟨i', hi', -, hpos⟩ := h i.toNat hi
      obtain rfl : i' = i := Usize.ext hi'
      exact ((hedge i' _).1 hpos).2.1 m hm
    · obtain ⟨i', hi', -, hpos⟩ := h i.toNat hi
      obtain rfl : i' = i := Usize.ext hi'
      exact ((hedge i' _).1 hpos).2.2 r hr
  · rintro ⟨h, hprice, hrate⟩ k hk
    obtain ⟨i, rfl, hok, hpos⟩ := h k hk
    exact ⟨i, rfl, hok, (hedge i _).2 ⟨hpos, fun m hm => hprice m ⟨i, hk, hm⟩,
      fun r hr => hrate r ⟨i, hk, hr⟩⟩⟩

/-- **Up to its thresholds a path is worth the same, and beyond them it is rejected.** -/
theorem thresholds (path : List W) :
    let f : EdgeValueFn t ℚ W := d.build n penalty minAckRate ticketFaceValue
    let f₀ : EdgeValueFn t ℚ W := d.build n penalty 0 (some 0)
    (f.Accepts path ↔ f₀.Accepts path ∧
      (∀ m, maxFaceValue d n path = some m →
        (ticketFaceValue.getD defaultTicketFaceValue).toNat ≤ m) ∧
      ∀ r, leastAckRate d n path = some r → clamp minAckRate 0 1 ≤ r) ∧
    (f.Accepts path → f.fold 1 path = f₀.fold 1 path) := by
  intro f f₀
  constructor
  · rw [accepts_iff_alongPath, maxFaceValue, leastAckRate, forall_min?_iff, forall_min?_iff]
  · intro h
    have h₀ := unrestricted_resolve penalty
    set cfg := Config.resolve penalty minAckRate ticketFaceValue
    have hfree : (Config.resolve penalty 0 (some 0)).ticketFaceValue ≤ cfg.ticketFaceValue := by
      rw [h₀.ticketFaceValue, BitVec.le_def]
      exact Nat.zero_le _
    have hrelaxes : cfg.Relaxes (Config.resolve penalty 0 (some 0)) :=
      ⟨le_rfl, h₀.minAckRate ▸ cfg.minAckRate_mem.1, hfree⟩
    -- the configurations differ in the two thresholds alone, so no factor changes
    obtain ⟨value, hvalue, hvalue₀⟩ := d.fold_mul n h rfl (P := fun _ => 1) rfl
      fun k _ _ i _ hpos => ⟨1, one_pos, (mul_one 1).symm, by
        rw [Direction.value_eq_of_penalty hrelaxes rfl hpos, mul_one]⟩
    rw [mul_one] at hvalue₀
    exact hvalue.trans hvalue₀.symm

end Paths

/-- Two healthy edges bear any face value up to the balance of the first one's channel. -/
example : maxFaceValue .forward (.wide 2 (by decide)) [healthy, healthy] = some 1000 := by decide

end HoprApi.Graph
