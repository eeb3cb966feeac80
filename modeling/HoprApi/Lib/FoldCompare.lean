import HoprApi.Lib.Fold

/-!
# Comparing folds

`Accepted.simulate` is the simulation rule for two folds: what relates the initial values and is
kept by the steps from positive values relates the values of all prefixes, and acceptance carries
over.  For positively homogeneous steps it is enough to compare the elements' own values
(`Accepted.le_of_own`).  `Accepted.antitone` and `Accepted.le_own` are about one fold whose own
values do not exceed `1`.
-/

namespace HoprApi.Lib.Fold

variable {K K' E E' : Type*}

/-! ### Simulation -/

section Simulate

variable [Zero K] [LinearOrder K] [Zero K'] [LinearOrder K'] {g : Step K E} {g' : Step K' E'}
  {i : ℕ} {v : K} {v' : K'} {es : List E} {es' : List E'}

/-- **Simulation.**  `R k` relates the values of the two folds after `k` elements. -/
theorem Accepted.simulate (h : Accepted g i v es) (hlen : es'.length = es.length)
    {R : ℕ → K → K' → Prop} (hv' : 0 < v') (hR : R 0 v v')
    (hstep : ∀ (k : ℕ) (hk : k < es.length) (hk' : k < es'.length) (c w : K) (c' : K'), 0 < c →
      0 < c' → R k c c' → g c es[k] (i + k) = some w → 0 < w →
      ∃ w', g' c' es'[k] (i + k) = some w' ∧ 0 < w' ∧ R (k + 1) w w') :
    ∀ k ≤ es.length, ∃ w w', foldFrom g i v (es.take k) = some w ∧ 0 < w ∧
      foldFrom g' i v' (es'.take k) = some w' ∧ 0 < w' ∧ R k w w' := by
  intro k
  induction k with
  | zero =>
    intro hk
    obtain ⟨w, hw, hpos⟩ := h 0 hk
    rw [List.take_zero, foldFrom_nil, Option.some.injEq] at hw
    subst hw
    exact ⟨v, v', by simp, hpos, by simp, hv', hR⟩
  | succ k ih =>
    intro hk
    have hlt : k < es.length := by omega
    have hlt' : k < es'.length := by omega
    obtain ⟨c, c', hc, hcpos, hc', hcpos', hRk⟩ := ih hlt.le
    obtain ⟨w, hw, hpos⟩ := h (k + 1) hk
    have hgw : g c es[k] (i + k) = some w := by
      rwa [foldFrom_take_succ hlt, hc, Option.bind_some] at hw
    obtain ⟨w', hw', hpos', hRw⟩ := hstep k hlt hlt' c w c' hcpos hcpos' hRk hgw hpos
    refine ⟨w, w', hw, hpos, ?_, hpos', hRw⟩
    rw [foldFrom_take_succ hlt', hc', Option.bind_some]
    exact hw'

theorem Accepted.simulate_all (h : Accepted g i v es) (hlen : es'.length = es.length)
    {R : ℕ → K → K' → Prop} (hv' : 0 < v') (hR : R 0 v v')
    (hstep : ∀ (k : ℕ) (hk : k < es.length) (hk' : k < es'.length) (c w : K) (c' : K'), 0 < c →
      0 < c' → R k c c' → g c es[k] (i + k) = some w → 0 < w →
      ∃ w', g' c' es'[k] (i + k) = some w' ∧ 0 < w' ∧ R (k + 1) w w') :
    Accepted g' i v' es' ∧ ∃ w w', foldFrom g i v es = some w ∧
      foldFrom g' i v' es' = some w' ∧ R es.length w w' := by
  have hall := h.simulate hlen hv' hR hstep
  refine ⟨fun k hk => ?_, ?_⟩
  · obtain ⟨-, w', -, -, hw', hpos', -⟩ := hall k (hlen ▸ hk)
    exact ⟨w', hw', hpos'⟩
  · obtain ⟨w, w', hw, -, hw', -, hRw⟩ := hall es.length le_rfl
    rw [List.take_length] at hw
    rw [← hlen, List.take_length] at hw'
    exact ⟨w, w', hw, hw', hRw⟩

end Simulate

/-! ### Positively homogeneous steps -/

section Homogeneous

variable [CommSemiring K] [LinearOrder K] [IsStrictOrderedRing K] {g g' : Step K E} {i : ℕ}
  {v v' : K} {es es' : List E}

/-- **A path whose elements are worth at least as much is worth at least as much.** -/
theorem Accepted.le_of_own (hg : PosHomogeneous g) (hg' : PosHomogeneous g')
    (h : Accepted g i v es) (hlen : es'.length = es.length) (hv : v ≤ v')
    (hown : ∀ (k : ℕ) (hk : k < es.length) (hk' : k < es'.length) (m : K),
      g 1 es[k] (i + k) = some m → 0 < m → ∃ m', g' 1 es'[k] (i + k) = some m' ∧ m ≤ m') :
    Accepted g' i v' es' ∧ ∃ w w', foldFrom g i v es = some w ∧
      foldFrom g' i v' es' = some w' ∧ w ≤ w' := by
  have hpos : 0 < v := by
    obtain ⟨w, hw, hpos⟩ := h 0 (Nat.zero_le _)
    cases hw
    exact hpos
  refine h.simulate_all hlen (R := fun _ c c' => c ≤ c') (hpos.trans_le hv) hv ?_
  intro k hk hk' c w c' hc hc' hle hw hwpos
  rw [hg.eq_map_own hc] at hw
  obtain ⟨m, hm, rfl⟩ := Option.map_eq_some_iff.1 hw
  have hm0 : 0 < m := (mul_pos_iff_of_pos_left hc).1 hwpos
  obtain ⟨m', hm', hmm'⟩ := hown k hk hk' m hm hm0
  refine ⟨c' * m', ?_, mul_pos hc' (hm0.trans_le hmm'), mul_le_mul hle hmm' hm0.le hc'.le⟩
  rw [hg'.eq_map_own hc', hm', Option.map_some]

/-- **A path whose elements are worth a multiple is worth the product of the multiples.**  `P k` is
the product of those of the first `k` elements. -/
theorem Accepted.mul_of_own (hg : PosHomogeneous g) (hg' : PosHomogeneous g')
    (h : Accepted g i v es) (hlen : es'.length = es.length) {P : ℕ → K} (hP : P 0 = 1)
    (hown : ∀ (k : ℕ) (hk : k < es.length) (hk' : k < es'.length) (m : K),
      g 1 es[k] (i + k) = some m → 0 < m →
      ∃ f, 0 < f ∧ P (k + 1) = P k * f ∧ g' 1 es'[k] (i + k) = some (m * f)) :
    ∃ w, foldFrom g i v es = some w ∧ foldFrom g' i v es' = some (w * P es.length) := by
  have hpos : 0 < v := by
    obtain ⟨w, hw, hpos⟩ := h 0 (Nat.zero_le _)
    cases hw
    exact hpos
  have hsim : Accepted g' i v es' ∧ ∃ w w', foldFrom g i v es = some w ∧
      foldFrom g' i v es' = some w' ∧ w' = w * P es.length := by
    refine h.simulate_all hlen (R := fun k c c' => c' = c * P k) hpos (by rw [hP, mul_one]) ?_
    intro k hk hk' c w c' hc hc' hR hw hwpos
    rw [hg.eq_map_own hc] at hw
    obtain ⟨m, hm, rfl⟩ := Option.map_eq_some_iff.1 hw
    have hm0 : 0 < m := (mul_pos_iff_of_pos_left hc).1 hwpos
    obtain ⟨f, hf, hP', hm'⟩ := hown k hk hk' m hm hm0
    refine ⟨c' * (m * f), ?_, mul_pos hc' (mul_pos hm0 hf), ?_⟩
    · rw [hg'.eq_map_own hc', hm', Option.map_some]
    · rw [hR, hP', mul_mul_mul_comm]
  obtain ⟨-, w, w', hw, hw', rfl⟩ := hsim
  exact ⟨w, hw, hw'⟩

section Bounded

variable (hg : PosHomogeneous g) (h : Accepted g i v es)
  (hone : ∀ (k : ℕ) (hk : k < es.length) (m : K), g 1 es[k] (i + k) = some m → m ≤ 1)
include hg h hone

theorem Accepted.antitone {j k : ℕ} (hjk : j ≤ k) (hk : k ≤ es.length) {a b : K}
    (ha : foldFrom g i v (es.take j) = some a) (hb : foldFrom g i v (es.take k) = some b) :
    b ≤ a := by
  induction k, hjk using Nat.le_induction generalizing b with
  | base =>
    rw [ha, Option.some.injEq] at hb
    exact hb.ge
  | succ k hjk ih =>
    have hlt : k < es.length := by omega
    obtain ⟨c, hc, hpos⟩ := h k hlt.le
    rw [foldFrom_take_succ hlt, hc, Option.bind_some, hg.eq_map_own hpos] at hb
    obtain ⟨m, hm, rfl⟩ := Option.map_eq_some_iff.1 hb
    calc c * m ≤ c := mul_le_of_le_one_right hpos.le (hone k hlt m hm)
      _ ≤ a := ih hlt.le hc

/-- **A path is worth no more than any of its elements.** -/
theorem Accepted.le_own {k : ℕ} (hk : k < es.length) (hv : v ≤ 1) {m w : K}
    (hm : g 1 es[k] (i + k) = some m) (hw : foldFrom g i v es = some w) : w ≤ m := by
  obtain ⟨c, hc, hcpos⟩ := h k hk.le
  obtain ⟨b, hb, hbpos⟩ := h (k + 1) hk
  have hcm : b = c * m := by
    rw [foldFrom_take_succ hk, hc, Option.bind_some, hg.eq_map_own hcpos, hm, Option.map_some,
      Option.some.injEq] at hb
    exact hb.symm
  have hm0 : 0 < m := (mul_pos_iff_of_pos_left hcpos).1 (hcm ▸ hbpos)
  have hc1 : c ≤ 1 := by
    refine (Accepted.antitone hg h hone (Nat.zero_le k) hk.le ?_ hc).trans hv
    rw [List.take_zero, foldFrom_nil]
  have hwb : w ≤ b := by
    refine Accepted.antitone hg h hone (Nat.succ_le_of_lt hk) le_rfl hb ?_
    rw [List.take_length]
    exact hw
  calc w ≤ c * m := hcm ▸ hwb
    _ ≤ m := mul_le_of_le_one_left hm0.le hc1

end Bounded

end Homogeneous

end HoprApi.Lib.Fold
