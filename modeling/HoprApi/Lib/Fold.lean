import Mathlib.Algebra.Order.Ring.Defs
import Mathlib.Algebra.BigOperators.Group.List.Basic

/-!
# Folding a value over a path

A path is folded by a step that sees the running value, the element and its index, and that may be
undefined.  `foldFrom` is the plain fold, `Accepted` asks every prefix value to be positive and
`prune` is the fold that stops at the first prefix that is not.

A step is *positively homogeneous* when a positive factor of the incoming value passes through it.
For such a step the three agree with the list of the elements' own values, the values of the single
elements from `1`: `prune_eq_accepted_iff`, `prune_eq_discarded_iff` and `accepted_iff`.
-/

namespace HoprApi.Lib.Fold

variable {K E : Type*}

/-- The value after the element `e` at index `i`, reached with the value `v`. -/
abbrev Step (K E : Type*) := K → E → ℕ → Option K

/-! ### The plain fold -/

/-- The fold of `es`, whose first element has index `i`, from the value `v`. -/
def foldFrom (g : Step K E) : ℕ → K → List E → Option K
  | _, v, [] => some v
  | i, v, e :: es => (g v e i).bind fun w => foldFrom g (i + 1) w es

section Plain

variable {g g' : Step K E} {i : ℕ} {v w : K} {e : E} {es : List E}

@[simp] theorem foldFrom_nil : foldFrom g i v [] = some v := rfl

@[simp] theorem foldFrom_cons :
    foldFrom g i v (e :: es) = (g v e i).bind fun w => foldFrom g (i + 1) w es := rfl

theorem foldFrom_append (g : Step K E) (xs ys : List E) (i : ℕ) (v : K) :
    foldFrom g i v (xs ++ ys) =
      (foldFrom g i v xs).bind fun w => foldFrom g (i + xs.length) w ys := by
  induction xs generalizing i v with
  | nil => simp
  | cons x xs ih =>
    have hidx : i + (x :: xs).length = i + 1 + xs.length := by simp only [List.length_cons]; omega
    simp only [List.cons_append, foldFrom_cons, Option.bind_assoc, ih, hidx]

theorem forall_getElem_cons {P : E → ℕ → Prop} :
    (∀ (k : ℕ) (hk : k < (e :: es).length), P (e :: es)[k] (i + k)) ↔
      P e i ∧ ∀ (k : ℕ) (hk : k < es.length), P es[k] (i + 1 + k) := by
  constructor
  · intro h
    refine ⟨h 0 (by simp), fun k hk => ?_⟩
    have := h (k + 1) (by simpa using hk)
    rwa [List.getElem_cons_succ, show i + (k + 1) = i + 1 + k by omega] at this
  · intro h k hk
    rcases k with _ | k
    · exact h.1
    · have := h.2 k (by simpa using hk)
      rwa [show i + 1 + k = i + (k + 1) by omega] at this

theorem foldFrom_congr {i' : ℕ}
    (h : ∀ (k : ℕ) (hk : k < es.length), ∀ c, g c es[k] (i + k) = g' c es[k] (i' + k)) :
    foldFrom g i v es = foldFrom g' i' v es := by
  induction es generalizing i i' v with
  | nil => rfl
  | cons e es ih =>
    rw [foldFrom_cons, foldFrom_cons, show g v e i = g' v e i' from h 0 (by simp) v]
    refine congrArg _ (funext fun w => ih fun k hk c => ?_)
    have htail := h (k + 1) (by simpa using hk) c
    rwa [List.getElem_cons_succ, show i + (k + 1) = i + 1 + k by omega,
      show i' + (k + 1) = i' + 1 + k by omega] at htail

theorem foldFrom_take_succ {k : ℕ} (hk : k < es.length) :
    foldFrom g i v (es.take (k + 1)) =
      (foldFrom g i v (es.take k)).bind fun w => g w es[k] (i + k) := by
  rw [List.take_succ_eq_append_getElem hk, foldFrom_append, List.length_take_of_le hk.le]
  refine congrArg _ (funext fun w => ?_)
  rw [foldFrom_cons]
  exact Option.bind_fun_some _

/-- A property of the running value that holds after `j` elements and that the steps from there on
preserve holds after `k` elements. -/
theorem foldFrom_take_invariant (P : K → Prop) {j k : ℕ} {a b : K} (hjk : j ≤ k)
    (ha : foldFrom g i v (es.take j) = some a) (hPa : P a)
    (h : ∀ (l : ℕ) (hl : l < es.length), j ≤ l → l < k →
      ∀ c c', P c → g c es[l] (i + l) = some c' → P c')
    (hb : foldFrom g i v (es.take k) = some b) : P b := by
  induction k, hjk using Nat.le_induction generalizing b with
  | base =>
    rw [ha, Option.some.injEq] at hb
    exact hb ▸ hPa
  | succ k hjk ih =>
    have hpre : ∀ (l : ℕ) (hl : l < es.length), j ≤ l → l < k →
        ∀ c c', P c → g c es[l] (i + l) = some c' → P c' :=
      fun l hl hjl hlk => h l hl hjl (by omega)
    rcases Nat.lt_or_ge k es.length with hk | hk
    · rw [foldFrom_take_succ hk, Option.bind_eq_some_iff] at hb
      obtain ⟨c, hc, hb⟩ := hb
      exact h k hk hjk (by omega) c b (ih hpre hc) hb
    · rw [List.take_of_length_le (by omega)] at hb
      exact ih hpre (by rwa [List.take_of_length_le hk])

end Plain

/-! ### Acceptance -/

section Accept

variable [Zero K] [LinearOrder K] {g : Step K E} {i : ℕ} {v w : K} {e : E} {es : List E}

/-- Every prefix value of the fold, the initial one included, is defined and positive. -/
def Accepted (g : Step K E) (i : ℕ) (v : K) (es : List E) : Prop :=
  ∀ k ≤ es.length, ∃ w, foldFrom g i v (es.take k) = some w ∧ 0 < w

theorem accepted_nil : Accepted g i v [] ↔ 0 < v := by
  constructor
  · intro h
    obtain ⟨w, hw, hpos⟩ := h 0 le_rfl
    cases hw
    exact hpos
  · intro hv k _
    exact ⟨v, by simp, hv⟩

theorem accepted_cons :
    Accepted g i v (e :: es) ↔ 0 < v ∧ ∃ w, g v e i = some w ∧ Accepted g (i + 1) w es := by
  constructor
  · intro h
    obtain ⟨v', hv', hv⟩ := h 0 (Nat.zero_le _)
    cases hv'
    obtain ⟨w, hw, -⟩ := h 1 (by simp)
    rw [List.take_succ_cons, List.take_zero, foldFrom_cons, Option.bind_eq_some_iff] at hw
    obtain ⟨c, hc, -⟩ := hw
    refine ⟨hv, c, hc, fun k hk => ?_⟩
    obtain ⟨u, hu, hpos⟩ := h (k + 1) (by simpa using hk)
    rw [List.take_succ_cons, foldFrom_cons, hc, Option.bind_some] at hu
    exact ⟨u, hu, hpos⟩
  · rintro ⟨hv, w, hw, h⟩ k hk
    rcases k with _ | k
    · exact ⟨v, by simp, hv⟩
    · obtain ⟨u, hu, hpos⟩ := h k (by simpa using hk)
      refine ⟨u, ?_, hpos⟩
      rw [List.take_succ_cons, foldFrom_cons, hw, Option.bind_some, hu]

/-- What a fold that discards its path at the first non-positive prefix ends with. -/
inductive Verdict (K : Type*) where
  /-- No prefix was discarded. -/
  | accepted (value : K)
  /-- The prefix that ends with the element of this index was the first discarded one. -/
  | discarded (index : ℕ)
  /-- A step was undefined before any prefix was discarded. -/
  | undefined
  deriving DecidableEq

def prune (g : Step K E) : ℕ → K → List E → Verdict K
  | _, v, [] => .accepted v
  | i, v, e :: es =>
    match g v e i with
    | none => .undefined
    | some w => if w ≤ 0 then .discarded i else prune g (i + 1) w es

def Verdict.andThen (r : Verdict K) (next : K → Verdict K) : Verdict K :=
  match r with
  | .accepted v => next v
  | .discarded k => .discarded k
  | .undefined => .undefined

/-- A prefix can be folded once and shared by every path that continues it. -/
theorem prune_append (g : Step K E) (xs ys : List E) (i : ℕ) (v : K) :
    prune g i v (xs ++ ys) = (prune g i v xs).andThen fun w => prune g (i + xs.length) w ys := by
  induction xs generalizing i v with
  | nil => rfl
  | cons x xs ih =>
    have hidx : i + (x :: xs).length = i + 1 + xs.length := by simp only [List.length_cons]; omega
    simp only [List.cons_append, prune, hidx]
    rcases g v x i with _ | w
    · rfl
    · by_cases hw : w ≤ 0
      · simp only [if_pos hw, Verdict.andThen]
      · simp only [if_neg hw, ih]

theorem accepted_iff_prune : Accepted g i v es ↔ 0 < v ∧ ∃ w, prune g i v es = .accepted w := by
  induction es generalizing i v with
  | nil => simp [accepted_nil, prune]
  | cons e es ih =>
    rw [accepted_cons]
    refine and_congr_right fun _ => ?_
    simp only [prune]
    rcases g v e i with _ | w
    · simp
    · by_cases hw : w ≤ 0
      · simp [ih, hw, not_lt.2 hw]
      · simp [ih, hw, not_le.1 hw]

theorem foldFrom_of_prune (h : prune g i v es = .accepted w) : foldFrom g i v es = some w := by
  induction es generalizing i v with
  | nil =>
    simp only [prune, Verdict.accepted.injEq] at h
    rw [foldFrom_nil, h]
  | cons e es ih =>
    simp only [prune] at h
    rw [foldFrom_cons]
    rcases hg : g v e i with _ | c
    · simp [hg] at h
    · simp only [hg] at h
      split at h
      · cases h
      · rw [Option.bind_some]
        exact ih h

end Accept

/-! ### Positively homogeneous steps -/

def ownValues [One K] (g : Step K E) : ℕ → List E → List (Option K)
  | _, [] => []
  | i, e :: es => g 1 e i :: ownValues g (i + 1) es

theorem ownValues_eq_map [One K] {g : Step K E} {i : ℕ} {es : List E}
    (h : ∀ (k : ℕ) (hk : k < es.length), ∃ m, g 1 es[k] (i + k) = some m) :
    ∃ ms : List K, ownValues g i es = ms.map some := by
  induction es generalizing i with
  | nil => exact ⟨[], rfl⟩
  | cons e es ih =>
    obtain ⟨⟨m, hm⟩, htail⟩ := forall_getElem_cons (P := fun e k => ∃ m, g 1 e k = some m).1 h
    obtain ⟨ms, hms⟩ := ih htail
    exact ⟨m :: ms, by rw [ownValues, hm, hms, List.map_cons]⟩

section Homogeneous

variable [CommSemiring K] [LinearOrder K]

/-- A positive factor of the incoming value passes through the step. -/
def PosHomogeneous (g : Step K E) : Prop :=
  ∀ (c : K), 0 < c → ∀ (v : K) (e : E) (i : ℕ), g (c * v) e i = (g v e i).map (c * ·)

variable {g : Step K E} {i : ℕ} {v w : K} {e : E} {es : List E}

theorem PosHomogeneous.eq_map_own (hg : PosHomogeneous g) (hv : 0 < v) (e : E) (i : ℕ) :
    g v e i = (g 1 e i).map (v * ·) := by
  have := hg v hv 1 e i
  rwa [mul_one] at this

variable [IsStrictOrderedRing K]

/-- A pruning fold from a positive value goes on exactly behind the elements whose own value is
positive. -/
theorem prune_cons_own (hg : PosHomogeneous g) (hv : 0 < v) :
    prune g i v (e :: es) =
      match g 1 e i with
      | none => .undefined
      | some m => if 0 < m then prune g (i + 1) (v * m) es else .discarded i := by
  simp only [prune]
  rw [hg.eq_map_own hv]
  rcases g 1 e i with _ | m
  · rfl
  · simp only [Option.map_some]
    by_cases hm : 0 < m
    · rw [if_pos hm, if_neg (not_le.2 (mul_pos hv hm))]
    · rw [if_neg hm, if_pos (mul_nonpos_of_nonneg_of_nonpos hv.le (not_lt.1 hm))]

/-- **The value of a path is the product of its elements' own values**: it is accepted exactly when
all of these are positive. -/
theorem prune_eq_accepted_iff (hg : PosHomogeneous g) (hv : 0 < v) :
    prune g i v es = .accepted w ↔
      ∃ ms : List K, ownValues g i es = ms.map some ∧ (∀ m ∈ ms, 0 < m) ∧ w = v * ms.prod := by
  induction es generalizing i v with
  | nil =>
    simp only [prune, ownValues, Verdict.accepted.injEq]
    constructor
    · intro h
      exact ⟨[], by simp [h]⟩
    · rintro ⟨ms, hms, -, rfl⟩
      rw [eq_comm, List.map_eq_nil_iff] at hms
      simp [hms]
  | cons e es ih =>
    rw [prune_cons_own hg hv, ownValues]
    rcases g 1 e i with _ | m
    · refine iff_of_false (by simp) ?_
      rintro ⟨_ | ⟨m, ms⟩, hms, -⟩
      · cases hms
      · cases hms
    · by_cases hm : 0 < m
      · simp only [if_pos hm]
        rw [ih (mul_pos hv hm)]
        constructor
        · rintro ⟨ms, hms, hpos, rfl⟩
          exact ⟨m :: ms, by simp [hms], by simpa [hm] using hpos, by simp [mul_assoc]⟩
        · rintro ⟨_ | ⟨m', ms⟩, hms, hpos, rfl⟩
          · cases hms
          · simp only [List.map_cons, List.cons.injEq, Option.some.injEq] at hms
            obtain ⟨rfl, hms⟩ := hms
            exact ⟨ms, hms, fun x hx => hpos x (List.mem_cons_of_mem _ hx), by simp [mul_assoc]⟩
      · refine iff_of_false (by simp [if_neg hm]) ?_
        rintro ⟨_ | ⟨m', ms⟩, hms, hpos, -⟩
        · cases hms
        · simp only [List.map_cons, List.cons.injEq, Option.some.injEq] at hms
          exact hm (hms.1 ▸ hpos m' List.mem_cons_self)

/-- **The first discarded prefix ends with the first element whose own value is not positive.** -/
theorem prune_eq_discarded_iff {k : ℕ} (hg : PosHomogeneous g) (hv : 0 < v) :
    prune g i v es = .discarded k ↔
      ∃ (pre : List K) (m : K) (rest : List (Option K)),
        ownValues g i es = pre.map some ++ some m :: rest ∧
        (∀ p ∈ pre, 0 < p) ∧ m ≤ 0 ∧ k = i + pre.length := by
  induction es generalizing i v with
  | nil => simp [prune, ownValues]
  | cons e es ih =>
    rw [prune_cons_own hg hv, ownValues]
    rcases g 1 e i with _ | m
    · refine iff_of_false (by simp) ?_
      rintro ⟨_ | ⟨p, pre⟩, m, rest, hown, -⟩
      · cases hown
      · cases hown
    · by_cases hm : 0 < m
      · simp only [if_pos hm]
        rw [ih (mul_pos hv hm)]
        constructor
        · rintro ⟨pre, m', rest, hown, hpos, hm', rfl⟩
          refine ⟨m :: pre, m', rest, by simp [hown], by simpa [hm] using hpos, hm', ?_⟩
          simp only [List.length_cons]
          omega
        · rintro ⟨_ | ⟨p, pre⟩, m', rest, hown, hpos, hm', rfl⟩
          · simp only [List.map_nil, List.nil_append, List.cons.injEq, Option.some.injEq] at hown
            exact absurd (hown.1 ▸ hm) (not_lt.2 hm')
          · simp only [List.map_cons, List.cons_append, List.cons.injEq] at hown
            refine ⟨pre, m', rest, hown.2, fun x hx => hpos x (List.mem_cons_of_mem _ hx), hm', ?_⟩
            simp only [List.length_cons]
            omega
      · simp only [if_neg hm, Verdict.discarded.injEq]
        constructor
        · intro h
          exact ⟨[], m, ownValues g (i + 1) es, by simp, by simp, not_lt.1 hm, by simp [h]⟩
        · rintro ⟨_ | ⟨p, pre⟩, m', rest, hown, hpos, hm', rfl⟩
          · simp
          · simp only [List.map_cons, List.cons_append, List.cons.injEq, Option.some.injEq] at hown
            exact absurd (hown.1 ▸ hpos p List.mem_cons_self) hm

/-- A path is accepted from a positive value exactly when every element's own value is positive. -/
theorem accepted_iff (hg : PosHomogeneous g) (hv : 0 < v) :
    Accepted g i v es ↔
      ∀ (k : ℕ) (hk : k < es.length), ∃ m, g 1 es[k] (i + k) = some m ∧ 0 < m := by
  induction es generalizing i v with
  | nil => simpa [accepted_nil] using hv
  | cons e es ih =>
    rw [accepted_cons, forall_getElem_cons (P := fun e k => ∃ m, g 1 e k = some m ∧ 0 < m),
      hg.eq_map_own hv]
    constructor
    · rintro ⟨-, w, hw, hacc⟩
      obtain ⟨m, hm, rfl⟩ := Option.map_eq_some_iff.1 hw
      -- the value behind the element is a prefix value of the rest, so it is positive
      have hvm : 0 < v * m := by
        obtain ⟨u, hu, hpos⟩ := hacc 0 (Nat.zero_le _)
        rw [List.take_zero, foldFrom_nil, Option.some.injEq] at hu
        rwa [hu]
      exact ⟨⟨m, hm, (mul_pos_iff_of_pos_left hv).1 hvm⟩, (ih hvm).1 hacc⟩
    · rintro ⟨⟨m, hm, hpos⟩, htail⟩
      have hvm : 0 < v * m := mul_pos hv hpos
      exact ⟨hv, v * m, by rw [hm, Option.map_some], (ih hvm).2 htail⟩

end Homogeneous

end HoprApi.Lib.Fold
