import Mathlib.Algebra.Order.Field.Rat
import Mathlib.Tactic.Linarith

/-!
# The numbers of the source language

`usize` on a given target with its checked addition and subtraction (`none` is an arithmetic
overflow), the 256-bit `U256` with `checked_mul`, and `f64` read as an exact rational.  Only the
health of an edge can be handed a NaN that the code looks for, so `F64` keeps that one value apart.
-/

namespace HoprApi.Rust

/-! ### `usize` -/

/-- A compilation target: the width of `usize`, which no target has wider than `u64`. -/
structure Target where
  usizeBits : ℕ
  sixteen_le : 16 ≤ usizeBits
  le_sixtyFour : usizeBits ≤ 64

/-- The target with 64-bit pointers. -/
def Target.wide : Target := ⟨64, by decide, by decide⟩

/-- A value of type `usize`. -/
@[ext] structure Usize (t : Target) where
  toNat : ℕ
  isLt : toNat < 2 ^ t.usizeBits
  deriving DecidableEq

/-- `std::num::NonZeroUsize`. -/
structure NonZeroUsize (t : Target) where
  get : Usize t
  pos : 0 < get.toNat

def NonZeroUsize.wide (n : ℕ) (h : 0 < n ∧ n < 2 ^ 64) : NonZeroUsize Target.wide := ⟨⟨n, h.2⟩, h.1⟩

namespace Usize

variable {t : Target}

theorem two_lt_pow (t : Target) : 2 < 2 ^ t.usizeBits :=
  lt_of_lt_of_le (by decide) (Nat.pow_le_pow_right (by decide) t.sixteen_le)

/-- The number `n` as a `usize`, when it is representable. -/
def ofNat? (t : Target) (n : ℕ) : Option (Usize t) :=
  if h : n < 2 ^ t.usizeBits then some ⟨n, h⟩ else none

def zero (t : Target) : Usize t := ⟨0, by have := two_lt_pow t; omega⟩

def one (t : Target) : Usize t := ⟨1, by have := two_lt_pow t; omega⟩

/-- `usize::MAX`. -/
def maxValue (t : Target) : Usize t := ⟨2 ^ t.usizeBits - 1, by have := two_lt_pow t; omega⟩

/-- `a + b`; `none` where it overflows. -/
def add (a b : Usize t) : Option (Usize t) := ofNat? t (a.toNat + b.toNat)

/-- `a - b`; `none` where it underflows. -/
def sub (a b : Usize t) : Option (Usize t) :=
  if b.toNat ≤ a.toNat then ofNat? t (a.toNat - b.toNat) else none

@[simp] theorem toNat_zero : (zero t).toNat = 0 := rfl
@[simp] theorem toNat_one : (one t).toNat = 1 := rfl

theorem ofNat?_of_lt {n : ℕ} (h : n < 2 ^ t.usizeBits) : ofNat? t n = some ⟨n, h⟩ := dif_pos h

theorem ofNat?_eq_some {n : ℕ} {a : Usize t} : ofNat? t n = some a ↔ a.toNat = n := by
  unfold ofNat?
  constructor
  · intro h
    split at h
    · cases h; rfl
    · cases h
  · rintro rfl
    exact dif_pos a.isLt

theorem eq_maxValue_iff {a : Usize t} : a = maxValue t ↔ ¬ a.toNat + 1 < 2 ^ t.usizeBits := by
  have := a.isLt
  rw [Usize.ext_iff]
  show a.toNat = 2 ^ t.usizeBits - 1 ↔ _
  omega

theorem sub_of_le {a b : Usize t} (h : b.toNat ≤ a.toNat) :
    a.sub b = some ⟨a.toNat - b.toNat, by have := a.isLt; omega⟩ := by
  unfold sub
  rw [if_pos h, ofNat?_of_lt]

/-- `a as u64`. -/
def asU64 (a : Usize t) : BitVec 64 := BitVec.ofNat 64 a.toNat

/-- No `usize` is truncated by `as u64`. -/
theorem toNat_asU64 (a : Usize t) : a.asU64.toNat = a.toNat := by
  have h := Nat.pow_le_pow_right (show 0 < 2 by decide) t.le_sixtyFour
  have := a.isLt
  rw [asU64, BitVec.toNat_ofNat, Nat.mod_eq_of_lt (by omega)]

end Usize

/-! ### `U256` -/

/-- The 256-bit unsigned integer of `hopr_types`. -/
abbrev U256 := BitVec 256

namespace U256

def one : U256 := 1#256

/-- `U256::from` on a `u64`. -/
def fromU64 (a : BitVec 64) : U256 := a.setWidth 256

/-- `U256::checked_mul`. -/
def checkedMul (a b : U256) : Option U256 :=
  if a.toNat * b.toNat < 2 ^ 256 then some (a * b) else none

theorem toNat_fromU64 (a : BitVec 64) : (fromU64 a).toNat = a.toNat := by
  have := a.isLt
  rw [fromU64, BitVec.toNat_setWidth, Nat.mod_eq_of_lt (by omega)]

/-- Comparing with a checked product is comparing with the product of the naturals: where it
overflows, no 256-bit value reaches it. -/
theorem any_checkedMul_le (a b c : U256) :
    (checkedMul a b).any (fun m => decide (c ≥ m)) = decide (a.toNat * b.toNat ≤ c.toNat) := by
  have hc := c.isLt
  unfold checkedMul
  split
  · next h =>
    rw [Option.any_some]
    simp only [ge_iff_le, BitVec.le_def, BitVec.toNat_mul, Nat.mod_eq_of_lt h]
  · next h =>
    rw [Option.any_none, eq_comm, decide_eq_false_iff_not]
    omega

end U256

/-! ### `f64` -/

/-- A float that may be NaN; every other float is read as a rational. -/
inductive F64 where
  | nan
  | rat (q : ℚ)
  deriving DecidableEq

def F64.notNan? : F64 → Option ℚ
  | .nan => none
  | .rat q => some q

/-- `f64::clamp`. -/
def clamp (x lo hi : ℚ) : ℚ := if x < lo then lo else if hi < x then hi else x

theorem le_clamp (x : ℚ) {lo hi : ℚ} (h : lo ≤ hi) : lo ≤ clamp x lo hi := by
  unfold clamp
  split_ifs <;> linarith

theorem clamp_le (x : ℚ) {lo hi : ℚ} (h : lo ≤ hi) : clamp x lo hi ≤ hi := by
  unfold clamp
  split_ifs <;> linarith

theorem clamp_mono {x y : ℚ} (hxy : x ≤ y) {lo hi : ℚ} (h : lo ≤ hi) :
    clamp x lo hi ≤ clamp y lo hi := by
  unfold clamp
  split_ifs <;> linarith

end HoprApi.Rust
