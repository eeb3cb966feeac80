import Mathlib.Algebra.Order.Ring.Int

/-!
# Times and ranges

Points in time are counted in nanoseconds from the epoch, durations in nanoseconds.  A range has a
bound on either side, as `std::ops::Bound` has it.
-/

namespace HoprApi.Rust

/-- `std::time::Duration`. -/
abbrev Duration := ℕ

def Duration.fromSecs (secs : ℕ) : Duration := secs * 1000000000

/-- The longest duration, of `u64::MAX` seconds and a nanosecond less than one more. -/
def Duration.longest : Duration := 2 ^ 64 * 1000000000 - 1

/-- `Duration::checked_mul`. -/
def Duration.checkedMul (d : Duration) (rhs : ℕ) : Option Duration :=
  if d * rhs ≤ Duration.longest then some (d * rhs) else none

/-- `chrono::DateTime<chrono::Utc>`, and `std::time::SystemTime`, for dates within the range of the
first; chrono panics where a conversion or an addition leaves it. -/
abbrev DateTime := ℤ

inductive Bound (α : Type*) where
  | included (a : α)
  | excluded (a : α)
  | unbounded
  deriving DecidableEq

abbrev BoundPair (α : Type*) := Bound α × Bound α

namespace BoundPair

variable {α : Type*}

/-- The range `a..`. -/
def startingAt (a : α) : BoundPair α := (.included a, .unbounded)

variable [LinearOrder α]

/-- `RangeBounds::contains`. -/
def contains (r : BoundPair α) (x : α) : Bool :=
  (match r.1 with
    | .included start => decide (start ≤ x)
    | .excluded start => decide (start < x)
    | .unbounded => true) &&
  (match r.2 with
    | .included stop => decide (x ≤ stop)
    | .excluded stop => decide (x < stop)
    | .unbounded => true)

@[simp] theorem contains_startingAt {a x : α} : (startingAt a).contains x = true ↔ a ≤ x := by
  simp [contains, startingAt]

end BoundPair

end HoprApi.Rust
