import Mathlib.Data.Rat.Floor
import Mathlib.Algebra.Order.Floor.Semifield
import Mathlib.Tactic.Ring
import Mathlib.Tactic.Linarith

/-!
# Machine arithmetic, read exactly

Unsigned 64-bit values are natural numbers: sums and products are exact, a subtraction wraps
around zero. Floating-point values are exact rationals together with the special values that a
division by zero produces, with one zero; what is stored in a variable is rounded by a function that the
user gives (`FloatVal.rounded`). Converting a floating-point value to an unsigned integer truncates it
towards zero.
-/

/-- Subtraction of two `unsigned long`: below zero it wraps around `2 ^ 64`. -/
def usub (a b : ℕ) : ℕ := if b ≤ a then a - b else 2 ^ 64 + a - b

@[simp] theorem usub_of_le {a b : ℕ} (h : b ≤ a) : usub a b = a - b := if_pos h

@[simp] theorem usub_zero (a : ℕ) : usub a 0 = a := by simp

theorem usub_self (a : ℕ) : usub a a = 0 := by simp

/-- Wrapped differences telescope: the sum, cut to 64 bits, is the difference of the ends. -/
theorem usub_add_usub {x y z : ℕ} (hx : x < 2 ^ 64) (hy : y < 2 ^ 64) (hz : z < 2 ^ 64) :
    (usub y x + usub z y) % 2 ^ 64 = usub z x := by
  unfold usub
  split <;> split <;> split <;> omega

/-- A difference survives cutting both sides to `m` values exactly when they are in one block of
`m` values. -/
theorem usub_mod_eq_iff {a b m : ℕ} (hab : a ≤ b) (hb : b < 2 ^ 64) :
    usub (b % m) (a % m) = b - a ↔ a / m = b / m := by
  have ha := Nat.div_add_mod a m
  have hb' := Nat.div_add_mod b m
  unfold usub
  constructor
  · intro h
    rcases Nat.eq_zero_or_pos m with rfl | hm
    · simp
    · have hblocks : m * (a / m) = m * (b / m) := by
        split at h <;> omega
      exact Nat.eq_of_mul_eq_mul_left hm hblocks
  · intro h
    rw [h] at ha
    rw [if_pos (by omega)]
    omega

/-- A `float` or `double`, without rounding. The two zeros of a float are one. -/
inductive FloatVal where
  /-- A finite value. -/
  | num (q : ℚ)
  /-- An infinity; `neg` is its sign. -/
  | inf (neg : Bool)
  /-- Not a number. -/
  | nan
  deriving DecidableEq, Repr

namespace FloatVal

instance : Inhabited FloatVal := ⟨num 0⟩

/-- Division. A zero divisor gives an infinity, or `nan` when the dividend is zero too. -/
def div : FloatVal → FloatVal → FloatVal
  | nan, _ => nan
  | _, nan => nan
  | num a, num b =>
    if b = 0 then if a = 0 then nan else inf (decide (a < 0)) else num (a / b)
  | num _, inf _ => num 0
  | inf s, num b => inf (xor s (decide (b < 0)))
  | inf _, inf _ => nan

/-- Multiplication. -/
def mul : FloatVal → FloatVal → FloatVal
  | nan, _ => nan
  | _, nan => nan
  | num a, num b => num (a * b)
  | num a, inf s => if a = 0 then nan else inf (xor s (decide (a < 0)))
  | inf s, num b => if b = 0 then nan else inf (xor s (decide (b < 0)))
  | inf s, inf t => inf (xor s t)

/-- What a rounding makes of a value when it is stored. -/
def rounded (rnd : ℚ → ℚ) : FloatVal → FloatVal
  | num q => num (rnd q)
  | x => x

@[simp] theorem rounded_id (x : FloatVal) : rounded id x = x := by cases x <;> rfl

@[simp] theorem rounded_num (rnd : ℚ → ℚ) (q : ℚ) : rounded rnd (num q) = num (rnd q) := rfl

/-- The comparison `x < y`; it is false as soon as one side is `nan`. -/
def lt : FloatVal → FloatVal → Bool
  | nan, _ => false
  | _, nan => false
  | num a, num b => decide (a < b)
  | num _, inf s => !s
  | inf s, num _ => s
  | inf s, inf t => s && !t

/-- The conversion `(unsigned long) x`: truncation. Negative and infinite values have no result in
C++ and are sent to `0` here. -/
def toULong : FloatVal → ℕ
  | num q => ⌊q⌋₊
  | inf _ => 0
  | nan => 0

@[simp] theorem toULong_num (q : ℚ) : toULong (num q) = ⌊q⌋₊ := rfl

theorem div_num {a b : ℚ} (h : b ≠ 0) : div (num a) (num b) = num (a / b) := by
  simp [div, h]

@[simp] theorem mul_num (a b : ℚ) : mul (num a) (num b) = num (a * b) := rfl

end FloatVal

/-- Truncating an exact quotient of naturals is the integer division. -/
theorem floor_natCast_div (a b : ℕ) : ⌊(a : ℚ) / (b : ℚ)⌋₊ = a / b :=
  Nat.floor_div_eq_div a b

theorem toULong_natCast (a : ℕ) : (FloatVal.num (a : ℚ)).toULong = a := by
  simp
