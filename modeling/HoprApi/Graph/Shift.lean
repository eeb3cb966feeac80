import HoprApi.Graph.Path

/-!
# Counting from the destination

An edge is valued by the number of hops behind it, not by the number before it: one edge more in
front moves every index and the length by one and changes no value (`valueFn_shift`).  Only the
first edge of an outgoing path is told apart by its index.
-/

namespace HoprApi.Graph

open HoprApi.Rust HoprApi.Lib EdgeObservableRead

variable {t : Target} {W Imm Inter : Type} [ImmediateMeasurement Imm]
  [IntermediateMeasurement Inter] [EdgeObservableRead W Imm Inter]

/-! ### One edge more in front -/

section Shift

variable {d : Direction} {n n' : NonZeroUsize t} {i i' : Usize t}
  (hn : n'.get.toNat = n.get.toNat + 1) (hi : i'.toNat = i.toNat + 1)
include hn hi

theorem hopsAfter_shift : hopsAfter n' i' = hopsAfter n i := by
  rw [Usize.ext_iff]
  show n'.get.toNat - i'.toNat - 1 = n.get.toNat - i.toNat - 1
  omega

theorem scaled_shift : d.Scaled n' i' ↔ d.Scaled n i := by
  unfold Direction.Scaled Direction.LeadsToRelayer
  exact or_congr Iff.rfl (by omega)

/-- The position is the same, counted from the destination. -/
theorem arm_shift (hd : d = .returning ∨ 0 < i.toNat) :
    d.arm n' i' = d.arm n i ∨
      d.arm n' i' = .forwardLast n'.get ∧ d.arm n i = .forwardLast n.get ∧ 1 < n.get.toNat := by
  have hlast : i'.toNat + 1 = n'.get.toNat ↔ i.toNat + 1 = n.get.toNat := by omega
  have hpast : n'.get.toNat ≤ i'.toNat ↔ n.get.toNat ≤ i.toNat := by omega
  have hfirst : i'.toNat ≠ 0 := by omega
  have hops := hopsAfter_shift hn hi
  rcases d with _ | _ | _
  · have h0 : i.toNat ≠ 0 := by
      rcases hd with hd | hd
      · cases hd
      · omega
    by_cases h : i.toNat + 1 = n.get.toNat
    · exact Or.inr ⟨if_pos (hlast.2 h), if_pos h, by omega⟩
    · left
      simp only [Direction.arm, hlast, hpast, hops, if_neg h, if_neg h0, if_neg hfirst]
  · left
    simp only [Direction.arm, hlast, hpast, hops]
  · have h0 : i.toNat ≠ 0 := by
      rcases hd with hd | hd
      · cases hd
      · omega
    left
    simp only [Direction.arm, hpast, hops, if_neg h0, if_neg hfirst]

omit hi in
/-- A last edge of a route with relays does not look at the length. -/
theorem forwardLastEdge_shift (h : 1 < n.get.toNat) (cfg : Config) (c : ℚ) (o : W) :
    forwardLastEdge cfg n'.get c o = forwardLastEdge cfg n.get c o := by
  have hone : ∀ length : Usize t, 1 < length.toNat → length ≠ Usize.one t := by
    rintro length hl rfl
    exact absurd hl (lt_irrefl 1)
  simp only [forwardLastEdge, if_neg (hone n.get h), if_neg (hone n'.get (by omega))]

theorem value_shift (hd : d = .returning ∨ 0 < i.toNat) (cfg : Config) (c : ℚ) (o : W) :
    d.value n' cfg i' c o = d.value n cfg i c o := by
  have harm : (d.arm n' i').value cfg c o = (d.arm n i).value cfg c o := by
    rcases arm_shift hn hi hd with h | ⟨h', h, hlen⟩
    · rw [h]
    · rw [h', h]
      exact forwardLastEdge_shift hn hlen cfg c o
  simp only [Direction.value, harm, scaled_shift hn hi]

/-- **An edge is valued by its distance to the destination.** -/
theorem valueFn_shift (hd : d = .returning ∨ 0 < i.toNat) (hok : i.toNat + 2 < 2 ^ t.usizeBits)
    (penalty minAckRate : ℚ) (ticketFaceValue : Option Balance) (c : ℚ) (o : W) :
    (d.build n' penalty minAckRate ticketFaceValue).valueFn c o i' =
      (d.build n penalty minAckRate ticketFaceValue).valueFn c o i := by
  have hok' : d.IndexOk i' := Or.inr (by omega)
  have hok'' : d.IndexOk i := Or.inr (by omega)
  rw [Direction.valueFn_eq, Direction.valueFn_eq, if_pos hok', if_pos hok'', value_shift hn hi hd]

omit hi in
theorem step_shift {k : ℕ} (hd : d = .returning ∨ 0 < k) (hk : k + 2 < 2 ^ t.usizeBits)
    (penalty minAckRate : ℚ) (ticketFaceValue : Option Balance) (c : ℚ) (o : W) :
    (d.build n' penalty minAckRate ticketFaceValue).step c o (k + 1) =
      (d.build n penalty minAckRate ticketFaceValue).step c o k := by
  have h1 : k + 1 < 2 ^ t.usizeBits := by omega
  have h0 : k < 2 ^ t.usizeBits := by omega
  unfold EdgeValueFn.step
  rw [Usize.ofNat?_of_lt h1, Usize.ofNat?_of_lt h0, Option.bind_some, Option.bind_some]
  exact valueFn_shift hn rfl hd hk penalty minAckRate ticketFaceValue c o

end Shift

/-! ### The tail of a path -/

/-- **The tail of a path can be valued on its own.** -/
theorem tail_valued_alone (n n' : NonZeroUsize t) (hn : n'.get.toNat = n.get.toNat + 1)
    (penalty minAckRate : ℚ) (ticketFaceValue : Option Balance) :
    let f : Direction → EdgeValueFn t ℚ W := fun d => d.build n penalty minAckRate ticketFaceValue
    let f' : Direction → EdgeValueFn t ℚ W := fun d => d.build n' penalty minAckRate ticketFaceValue
    (∀ (d : Direction) (i i' : Usize t), i'.toNat = i.toNat + 1 →
      i.toNat + 2 < 2 ^ t.usizeBits → d = .returning ∨ 1 ≤ i.toNat →
      ∀ c o, (f' d).valueFn c o i' = (f d).valueFn c o i) ∧
    (∀ v e es, es.length + 1 < 2 ^ t.usizeBits →
      (f' .returning).fold v (e :: es) =
        ((f' .returning).step v e 0).bind fun w => (f .returning).fold w es) ∧
    ∀ (d : Direction) (v : ℚ) (es : List W), es.length + 2 < 2 ^ t.usizeBits →
      Fold.foldFrom (f' d).step 2 v es = Fold.foldFrom (f d).step 1 v es := by
  intro f f'
  refine ⟨fun d i i' hi hok hd c o => ?_, fun v e es hlen => ?_, fun d v es hlen => ?_⟩
  · exact valueFn_shift hn hi hd hok penalty minAckRate ticketFaceValue c o
  · unfold EdgeValueFn.fold
    rw [Fold.foldFrom_cons]
    refine congrArg _ (funext fun w => Fold.foldFrom_congr fun k hk c => ?_)
    rw [show 0 + 1 + k = k + 1 by omega, Nat.zero_add]
    exact step_shift hn (Or.inl rfl) (by omega) penalty minAckRate ticketFaceValue c _
  · refine Fold.foldFrom_congr fun k hk c => ?_
    rw [show 2 + k = 1 + k + 1 by omega]
    exact step_shift hn (Or.inr (by omega)) (by omega) penalty minAckRate ticketFaceValue c _

/-- Two healthy edges behind the first one are worth the same on a path of three as on one of two
edges and a longer front. -/
theorem tail_valued_alone_healthy :
    (Direction.returning.build (.wide 3 (by decide)) (1 / 2) (1 / 10) none).fold 1
      [healthy, healthy, healthy] =
    ((Direction.returning.build (.wide 3 (by decide)) (1 / 2) (1 / 10) none).step 1 healthy
      0).bind fun w =>
        (Direction.returning.build (.wide 2 (by decide)) (1 / 2) (1 / 10) none).fold w
          [healthy, healthy] :=
  (tail_valued_alone (.wide 2 (by decide)) (.wide 3 (by decide)) rfl (1 / 2) (1 / 10) none).2.1 1
    healthy [healthy, healthy] (by decide)

end HoprApi.Graph
