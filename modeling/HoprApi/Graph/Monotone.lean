import HoprApi.Graph.Factors
import HoprApi.Graph.Health

/-!
# Better evidence and relaxed configurations

An accepted edge stays accepted and loses no value when its evidence gets better (`Better`) or the
configuration is relaxed (`Config.Relaxes`): both only open gates and enlarge factors
(`Arm.gate_mono`, `Arm.factor_mono`).  The paths follow edge by edge (`better_evidence`,
`relaxed_configuration`).
-/

namespace HoprApi.Graph

open HoprApi.Rust HoprApi.Lib EdgeObservableRead EdgeNetworkObservableRead EdgeProtocolObservable
  EdgeImmediateProtocolObservable

variable {t : Target} {W Imm Inter : Type} [ImmediateMeasurement Imm]
  [IntermediateMeasurement Inter] [EdgeObservableRead W Imm Inter]

/-! ### The two orders -/

/-- Both are unknown, or both are known and the second is at least the first. -/
abbrev KnownLe {α : Type} [LE α] (x y : Option α) : Prop := Option.Rel (· ≤ ·) x y

structure BetterImmediate (immediate immediate' : Imm) : Prop where
  isConnected : EdgeNetworkObservableRead.isConnected immediate =
    EdgeNetworkObservableRead.isConnected immediate'
  score : KnownLe (EdgeLinkObservable.score immediate) (EdgeLinkObservable.score immediate')
  ackRate : KnownLe (EdgeImmediateProtocolObservable.ackRate immediate)
    (EdgeImmediateProtocolObservable.ackRate immediate')

structure BetterIntermediate (intermediate intermediate' : Inter) : Prop where
  balance : KnownLe (EdgeProtocolObservable.balance intermediate)
    (EdgeProtocolObservable.balance intermediate')
  score : KnownLe (EdgeLinkObservable.score intermediate) (EdgeLinkObservable.score intermediate')

/-- The same streams with the same fields known, none of them worse; unjudged health is `1`. -/
structure Better (o o' : W) : Prop where
  immediate : Option.Rel BetterImmediate (immediateQos o) (immediateQos o')
  intermediate : Option.Rel BetterIntermediate (intermediateQos o) (intermediateQos o')
  score : KnownLe (EdgeObservableRead.score o) (EdgeObservableRead.score o')
  health : (verdict o).getD 1 ≤ (verdict o').getD 1

/-- A smaller price, a lower threshold and a milder penalty. -/
structure Config.Relaxes (cfg cfg' : Config) : Prop where
  penalty : cfg.penalty ≤ cfg'.penalty
  minAckRate : cfg'.minAckRate ≤ cfg.minAckRate
  ticketFaceValue : cfg'.ticketFaceValue ≤ cfg.ticketFaceValue

/-! ### Related options -/

section Related

variable {α β : Type} {R : α → β → Prop} {x : Option α} {y : Option β}

theorem exists_right_of_rel (h : Option.Rel R x y) {a : α} (hx : x = some a) :
    ∃ b, y = some b ∧ R a b := by
  subst hx
  cases h with
  | some h => exact ⟨_, rfl, h⟩

theorem exists_left_of_rel (h : Option.Rel R x y) {b : β} (hy : y = some b) :
    ∃ a, x = some a ∧ R a b := by
  subst hy
  cases h with
  | some h => exact ⟨_, rfl, h⟩

theorem rel_filter {p : α → Bool} {q : β → Bool} (hpq : ∀ a b, R a b → p a = q b)
    (h : Option.Rel R x y) : Option.Rel R (x.filter p) (y.filter q) := by
  cases h with
  | none => exact .none
  | @some a b h =>
    rw [Option.filter_some, Option.filter_some, hpq a b h]
    split
    · exact .some h
    · exact .none

theorem isSome_eq_of_rel (h : Option.Rel R x y) : x.isSome = y.isSome := by
  cases h with
  | none => rfl
  | some => rfl

theorem knownLe_refl [Preorder α] (x : Option α) : KnownLe x x := by
  rcases x with _ | a
  · exact .none
  · exact .some le_rfl

theorem knownLe_bind {γ : Type} [LE γ] {f : α → Option γ} {g : β → Option γ}
    (hfg : ∀ a b, R a b → KnownLe (f a) (g b)) (h : Option.Rel R x y) :
    KnownLe (x.bind f) (y.bind g) := by
  cases h with
  | none => exact .none
  | some h => exact hfg _ _ h

theorem KnownLe.getD_le [Preorder α] {x y : Option α} (h : KnownLe x y) {p q : α} (hpq : p ≤ q) :
    x.getD p ≤ y.getD q := by
  cases h with
  | none => exact hpq
  | some h => exact h

end Related

theorem Better.refl (o : W) : Better o o where
  immediate := by
    rcases immediateQos o with _ | imm
    · exact .none
    · exact .some ⟨rfl, knownLe_refl _, knownLe_refl _⟩
  intermediate := by
    rcases intermediateQos o with _ | inter
    · exact .none
    · refine .some ⟨?_, knownLe_refl _⟩
      rcases balance inter with _ | b
      · exact .none
      · exact .some (BitVec.le_refl b)
  score := knownLe_refl _
  health := le_rfl

theorem Config.Relaxes.refl (cfg : Config) : cfg.Relaxes cfg :=
  ⟨le_rfl, le_rfl, BitVec.le_refl _⟩

/-! ### The gates open -/

section Gates

variable {cfg cfg' : Config} {o o' : W}

theorem Funded.mono (hcfg : cfg.Relaxes cfg') (ho : Better o o') {hops : ℕ}
    (h : Funded cfg hops o) : Funded cfg' hops o' := by
  obtain ⟨inter, hinter, hfunds⟩ := h
  obtain ⟨inter', hinter', hbetter⟩ := exists_right_of_rel ho.intermediate hinter
  refine ⟨inter', hinter', hfunds.mono (fun b hb => ?_) le_rfl hcfg.ticketFaceValue⟩
  exact exists_right_of_rel hbetter.balance hb

theorem AckRateOk.mono (hcfg : cfg.Relaxes cfg') {rate rate' : Option ℚ}
    (hrate : KnownLe rate rate') (h : AckRateOk cfg rate) : AckRateOk cfg' rate' := by
  intro r' hr'
  obtain ⟨r, hr, hle⟩ := exists_left_of_rel hrate hr'
  exact (hcfg.minAckRate.trans (h r hr)).trans hle

theorem Live.mono (ho : Better o o') {imm : Imm} (h : Live o imm) :
    ∃ imm', Live o' imm' ∧ BetterImmediate imm imm' := by
  obtain ⟨imm', himm', hbetter⟩ := exists_right_of_rel ho.immediate h.1
  exact ⟨imm', ⟨himm', hbetter.isConnected ▸ h.2⟩, hbetter⟩

theorem balanceKnown_congr (ho : Better o o') : BalanceKnown o' ↔ BalanceKnown o := by
  constructor
  · rintro ⟨inter', hinter', hknown⟩
    obtain ⟨inter, hinter, hbetter⟩ := exists_left_of_rel ho.intermediate hinter'
    exact ⟨inter, hinter, isSome_eq_of_rel hbetter.balance ▸ hknown⟩
  · rintro ⟨inter, hinter, hknown⟩
    obtain ⟨inter', hinter', hbetter⟩ := exists_right_of_rel ho.intermediate hinter
    exact ⟨inter', hinter', isSome_eq_of_rel hbetter.balance ▸ hknown⟩

/-- **Gates stay open.** -/
theorem Arm.gate_mono (hcfg : cfg.Relaxes cfg') (ho : Better o o') {a : Arm t}
    (h : a.Gate cfg o) : a.Gate cfg' o' := by
  have hpeer : (∃ imm, Live o imm ∧ AckRateOk cfg (ackRate imm)) →
      ∃ imm', Live o' imm' ∧ AckRateOk cfg' (ackRate imm') := by
    rintro ⟨imm, hlive, hack⟩
    obtain ⟨imm', hlive', hbetter⟩ := hlive.mono ho
    exact ⟨imm', hlive', hack.mono hcfg hbetter.ackRate⟩
  rcases a with hops | hops | length | _ | _
  · exact ⟨hpeer h.1, h.2.mono hcfg ho⟩
  · exact Funded.mono hcfg ho h
  · rintro hl imm' ⟨himm', hexit⟩
    obtain ⟨imm, himm, hbetter⟩ := exists_left_of_rel ho.immediate himm'
    rw [balanceKnown_congr ho, ← hbetter.isConnected] at hexit
    exact (h hl imm ⟨himm, hexit⟩).mono hcfg hbetter.ackRate
  · exact hpeer h
  · exact h

end Gates

/-! ### The factors grow -/

section Factors

variable {p p' : ℚ} {o o' : W}

theorem scoreOrPenalize_mono {s s' : Option ℚ} (hs : KnownLe s s') (hp : p ≤ p') :
    scoreOrPenalize 1 s p ≤ scoreOrPenalize 1 s' p' := by
  rw [scoreOrPenalize_one, scoreOrPenalize_one]
  exact max_le_max (hs.getD_le hp) le_rfl

/-- A positive product of a score and a further factor grows with both. -/
theorem scored_mul_mono {s s' : Option ℚ} (hs : KnownLe s s') (hp : p ≤ p') {f f' : ℚ}
    (hf : f ≤ f') (hpos : 0 < scoreOrPenalize 1 s p * f) :
    scoreOrPenalize 1 s p * f ≤ scoreOrPenalize 1 s' p' * f' := by
  have hscore : 0 < scoreOrPenalize 1 s p := scoreOrPenalize_pos one_pos s p
  have hf0 : 0 < f := (mul_pos_iff_of_pos_left hscore).1 hpos
  exact mul_le_mul (scoreOrPenalize_mono hs hp) hf hf0.le (scoreOrPenalize_pos one_pos s' p').le

theorem directFactor_mono {x y : Option Imm} (hxy : Option.Rel BetterImmediate x y) (hp : p ≤ p')
    (length : Usize t) : directFactor length x p ≤ directFactor length y p' := by
  cases hxy with
  | none => exact le_rfl
  | some h =>
    simp only [directFactor]
    split
    · exact h.ackRate.getD_le hp
    · exact le_rfl

/-- **Factors grow.** -/
theorem Arm.factor_mono (hp : p ≤ p') (ho : Better o o') {a : Arm t} (hpos : 0 < a.factor p o) :
    a.factor p o ≤ a.factor p' o' := by
  have hack : KnownLe ((immediateQos o).bind ackRate) ((immediateQos o').bind ackRate) :=
    knownLe_bind (fun _ _ h => h.ackRate) ho.immediate
  rcases a with hops | hops | length | _ | _
  · exact scored_mul_mono ho.score hp (hack.getD_le hp) hpos
  · exact scoreOrPenalize_mono (knownLe_bind (fun _ _ h => h.score) ho.intermediate) hp
  · have hinter : Option.Rel BetterIntermediate
        ((intermediateQos o).filter fun inter => (balance inter).isSome)
        ((intermediateQos o').filter fun inter => (balance inter).isSome) :=
      rel_filter (fun _ _ h => isSome_eq_of_rel h.balance) ho.intermediate
    have hlive : Option.Rel BetterImmediate ((immediateQos o).filter notDisconnected)
        ((immediateQos o').filter notDisconnected) :=
      rel_filter (fun _ _ h => by simp only [notDisconnected, h.isConnected]) ho.immediate
    simp only [Arm.factor] at hpos ⊢
    generalize (intermediateQos o).filter (fun inter => (balance inter).isSome) = x,
      (intermediateQos o').filter (fun inter => (balance inter).isSome) = x' at hinter hpos ⊢
    generalize (immediateQos o).filter notDisconnected = y,
      (immediateQos o').filter notDisconnected = y' at hlive hpos ⊢
    cases hinter with
    | some hinter =>
      exact scored_mul_mono hinter.score hp (directFactor_mono ho.immediate hp length) hpos
    | none =>
      cases hlive with
      | some hlive =>
        exact scored_mul_mono hlive.score hp (directFactor_mono (.some hlive) hp length) hpos
      | none => exact hp
  · exact scored_mul_mono (knownLe_bind (fun _ _ h => h.score) ho.immediate) hp (hack.getD_le hp)
      hpos
  · exact le_rfl

end Factors

/-! ### Edges -/

section Edges

variable {d : Direction} {n : NonZeroUsize t} {cfg cfg' : Config} {i : Usize t} {o o' : W}

theorem healthFactor_mono (ho : Better o o') : healthFactor o ≤ healthFactor o' :=
  min_le_min le_rfl ho.health

theorem HealthUsable.mono (ho : Better o o') (h : HealthUsable o) : HealthUsable o' :=
  healthUsable_iff.2 ((healthUsable_iff.1 h).trans_le ho.health)

/-- What a positive edge value says of the same edge under a relaxed configuration and better
evidence: its gate is open, and its relayer usable. -/
theorem gate_of_value_pos (hcfg : cfg.Relaxes cfg') (ho : Better o o')
    (hpos : 0 < d.value n cfg i 1 o) :
    (d.arm n i).Gate cfg o ∧ (d.arm n i).Gate cfg' o' ∧
      (d.LeadsToRelayer n i.toNat → HealthUsable o) ∧
      (d.LeadsToRelayer n i.toNat → HealthUsable o') := by
  obtain ⟨⟨hgate, -⟩, husable⟩ := (d.value_pos_iff_gate n cfg i one_pos o).1 hpos
  exact ⟨hgate, Arm.gate_mono hcfg ho hgate, husable, fun hrelayer => (husable hrelayer).mono ho⟩

/-- **An accepted edge loses no value.** -/
theorem Direction.value_mono (hcfg : cfg.Relaxes cfg') (ho : Better o o')
    (hpos : 0 < d.value n cfg i 1 o) : d.value n cfg i 1 o ≤ d.value n cfg' i 1 o' := by
  obtain ⟨hgate, hgate', husable, husable'⟩ := gate_of_value_pos hcfg ho hpos
  have harm : 0 < (d.arm n i).value cfg 1 o := ((d.value_pos_iff n cfg i 1 o).1 hpos).1
  have hle : (d.arm n i).value cfg 1 o ≤ (d.arm n i).value cfg' 1 o' := by
    rw [Arm.value_of_gate hgate, Arm.value_of_gate hgate']
    exact Arm.factor_mono hcfg.penalty ho (Arm.value_of_gate hgate ▸ harm)
  rw [value_of_usable harm husable, value_of_usable (harm.trans_le hle) husable']
  split
  · next hrelayer =>
    have hhealth : 0 < healthFactor o := healthFactor_pos (husable hrelayer)
    exact mul_le_mul hle (healthFactor_mono ho) hhealth.le (harm.trans_le hle).le
  · rwa [mul_one, mul_one]

/-- The thresholds decide on acceptance alone. -/
theorem Direction.value_eq_of_penalty (hcfg : cfg.Relaxes cfg') (hpen : cfg.penalty = cfg'.penalty)
    (hpos : 0 < d.value n cfg i 1 o) : d.value n cfg' i 1 o = d.value n cfg i 1 o := by
  obtain ⟨hgate, hgate', husable, -⟩ := gate_of_value_pos hcfg (Better.refl o) hpos
  have harm : 0 < (d.arm n i).value cfg 1 o := ((d.value_pos_iff n cfg i 1 o).1 hpos).1
  have heq : (d.arm n i).value cfg' 1 o = (d.arm n i).value cfg 1 o := by
    rw [Arm.value_of_gate hgate, Arm.value_of_gate hgate', hpen]
  rw [value_of_usable (heq ▸ harm) husable, value_of_usable harm husable, heq]

end Edges

/-! ### Paths -/

section Paths

variable (d : Direction) (n : NonZeroUsize t)

/-- **Better evidence never hurts a path.** -/
theorem better_evidence (penalty minAckRate : ℚ) (ticketFaceValue : Option Balance)
    (path path' : List W) (hbetter : List.Forall₂ Better path path')
    (hacc : (d.build n penalty minAckRate ticketFaceValue).Accepts path) :
    let f : EdgeValueFn t ℚ W := d.build n penalty minAckRate ticketFaceValue
    f.Accepts path' ∧ ∃ value value', f.fold 1 path = some value ∧ f.fold 1 path' = some value' ∧
      value ≤ value' := by
  intro f
  refine d.fold_le n hacc hbetter.length_eq.symm fun k hk hk' i _ hpos => ?_
  exact Direction.value_mono (Config.Relaxes.refl _) (hbetter.get hk hk') hpos

theorem better_evidence_acking : ∃ value value',
    (Direction.forward.build (.wide 2 (by decide)) (1 / 2) (1 / 10) none).fold 1
      [acking (some (1 / 2)), healthy] = some value ∧
    (Direction.forward.build (.wide 2 (by decide)) (1 / 2) (1 / 10) none).fold 1
      [acking (some (9 / 10)), healthy] = some value' ∧ value ≤ value' := by
  have hacking : Better (acking (some (1 / 2))) (acking (some (9 / 10))) :=
    ⟨.some ⟨rfl, knownLe_refl _, .some (by norm_num)⟩, (Better.refl healthy).intermediate,
      knownLe_refl _, le_rfl⟩
  exact (better_evidence .forward (.wide 2 (by decide)) (1 / 2) (1 / 10) none
    [acking (some (1 / 2)), healthy] [acking (some (9 / 10)), healthy]
    (.cons hacking (.cons (Better.refl _) .nil))
    (Fold.accepted_iff_prune.2 ⟨by decide, 361 / 800, by decide +kernel⟩)).2

theorem resolve_relaxes {penalty penalty' minAckRate minAckRate' : ℚ} (hpen : penalty ≤ penalty')
    (hmin : minAckRate' ≤ minAckRate) {ticketFaceValue ticketFaceValue' : Option Balance}
    (hface : ticketFaceValue'.getD defaultTicketFaceValue ≤
      ticketFaceValue.getD defaultTicketFaceValue) :
    (Config.resolve penalty minAckRate ticketFaceValue).Relaxes
      (Config.resolve penalty' minAckRate' ticketFaceValue') :=
  ⟨clamp_mono hpen zero_le_one, clamp_mono hmin zero_le_one, hface⟩

/-- **Relaxing the configuration never loses a path.** -/
theorem relaxed_configuration {penalty penalty' minAckRate minAckRate' : ℚ}
    (hpen : penalty ≤ penalty') (hmin : minAckRate' ≤ minAckRate)
    {ticketFaceValue ticketFaceValue' : Option Balance}
    (hface : ticketFaceValue'.getD defaultTicketFaceValue ≤
      ticketFaceValue.getD defaultTicketFaceValue) (path : List W)
    (hacc : (d.build n penalty minAckRate ticketFaceValue).Accepts path) :
    let f : EdgeValueFn t ℚ W := d.build n penalty minAckRate ticketFaceValue
    let f' : EdgeValueFn t ℚ W := d.build n penalty' minAckRate' ticketFaceValue'
    f'.Accepts path ∧ ∃ value value', f.fold 1 path = some value ∧ f'.fold 1 path = some value' ∧
      value ≤ value' ∧ (penalty = penalty' → value = value') := by
  intro f f'
  have hcfg := resolve_relaxes hpen hmin hface
  obtain ⟨hacc', value, value', hvalue, hvalue', hle⟩ :=
    d.fold_le n hacc rfl fun k _ _ i _ hpos => Direction.value_mono hcfg (Better.refl _) hpos
  refine ⟨hacc', value, value', hvalue, hvalue', hle, fun heq => ?_⟩
  have hpenalty : (Config.resolve penalty minAckRate ticketFaceValue).penalty =
      (Config.resolve penalty' minAckRate' ticketFaceValue').penalty := by
    simp only [Config.resolve, heq]
  obtain ⟨w, hw, hw'⟩ := d.fold_mul n hacc rfl (P := fun _ => 1) rfl fun k _ _ i _ hpos =>
    ⟨1, one_pos, (mul_one 1).symm, by
      rw [Direction.value_eq_of_penalty hcfg hpenalty hpos, mul_one]⟩
  rw [mul_one] at hw'
  have hvw : value = w := Option.some.inj (hvalue.symm.trans hw)
  have hvw' : value' = w := Option.some.inj (hvalue'.symm.trans hw')
  rw [hvw, hvw']

/-- With a face value of `0` a funded path keeps its value. -/
theorem relaxed_configuration_unpriced : ∃ value value',
    (Direction.forward.build (.wide 2 (by decide)) (1 / 2) (1 / 10) none).fold 1
      [healthy, healthy] = some value ∧
    (Direction.forward.build (.wide 2 (by decide)) (1 / 2) (1 / 20) (some 0)).fold 1
      [healthy, healthy] = some value' ∧ value = value' := by
  obtain ⟨-, value, value', hvalue, hvalue', -, heq⟩ :=
    relaxed_configuration .forward (.wide 2 (by decide)) (le_refl (1 / 2 : ℚ))
      (show (1 / 20 : ℚ) ≤ 1 / 10 by norm_num)
      (show (some (0 : Balance)).getD defaultTicketFaceValue ≤
        (none : Option Balance).getD defaultTicketFaceValue by decide)
      [healthy, healthy] (Fold.accepted_iff_prune.2 ⟨by decide, 3249 / 4000, by decide +kernel⟩)
  exact ⟨value, value', hvalue, hvalue', heq rfl⟩

end Paths

end HoprApi.Graph
