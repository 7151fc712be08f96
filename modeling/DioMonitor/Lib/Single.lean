import Mathlib.Data.Int.Log
import Mathlib.Data.Rat.Floor
import Mathlib.Algebra.Order.Floor.Semifield
import Mathlib.Tactic.FieldSimp
import Mathlib.Tactic.Linarith
import Mathlib.Tactic.NormNum
import Mathlib.Tactic.Positivity
import Mathlib.Tactic.Ring

/-!
# Rounding to single precision

A real is kept with 24 significant binary digits: it is rounded to the nearest multiple of its last digit,
and to the even one of two that are equally near. The exponent is not bounded. Rounding changes a value by
at most the part `2 ^ -24` of it (`nearest_le`, `le_nearest`), and a whole number up to `2 ^ 24` not at all
(`nearest_natCast`).
-/

namespace Single

/-- Rounding to the nearest integer, ties to even. -/
def roundHalfEven (q : ℚ) : ℕ :=
  let n := ⌊q⌋₊
  if q - n < 1 / 2 then n else if q - n > 1 / 2 then n + 1 else if n % 2 = 0 then n else n + 1

/-- The value of the last digit of a positive real. -/
def lastDigit (q : ℚ) : ℚ := (2 : ℚ) ^ (Int.log 2 q - 23)

/-- The nearest value to a real that is not negative. -/
def nearest (q : ℚ) : ℚ := roundHalfEven (q / lastDigit q) * lastDigit q

/-- The nearest value to a real. -/
def round (q : ℚ) : ℚ := if q < 0 then -nearest (-q) else nearest q

variable {q : ℚ}

theorem round_of_nonneg (hq : 0 ≤ q) : round q = nearest q := if_neg (not_lt.mpr hq)

theorem lastDigit_pos (q : ℚ) : 0 < lastDigit q := zpow_pos (by norm_num) _

/-! ## The rounding error -/

/-- The rounded value is at most half a unit away. -/
theorem roundHalfEven_near (hq : 0 ≤ q) :
    (roundHalfEven q : ℚ) ≤ q + 1 / 2 ∧ q ≤ (roundHalfEven q : ℚ) + 1 / 2 := by
  have hfloor := Nat.floor_le hq
  have hnext := Nat.lt_floor_add_one q
  unfold roundHalfEven
  dsimp only
  split_ifs <;> push_cast <;> constructor <;> linarith

theorem roundHalfEven_natCast (n : ℕ) : roundHalfEven n = n := by
  simp [roundHalfEven]

/-- The last digit of a positive real is at most the part `2 ^ -23` of it. -/
theorem lastDigit_le (hq : 0 < q) : lastDigit q ≤ q / 2 ^ 23 := by
  have hlog : (2 : ℚ) ^ Int.log 2 q ≤ q := by exact_mod_cast Int.zpow_log_le_self one_lt_two hq
  unfold lastDigit
  rw [zpow_sub₀ (by norm_num)]
  exact div_le_div_of_nonneg_right hlog (by norm_num)

theorem nearest_zero : nearest 0 = 0 := by
  simp [nearest, roundHalfEven]

theorem nearest_nonneg (q : ℚ) : 0 ≤ nearest q :=
  mul_nonneg (Nat.cast_nonneg _) (lastDigit_pos q).le

theorem nearest_near (hq : 0 < q) : nearest q ≤ q + lastDigit q / 2 ∧ q ≤ nearest q + lastDigit q / 2 := by
  have hdigit := lastDigit_pos q
  obtain ⟨hle, hge⟩ := roundHalfEven_near (div_nonneg hq.le hdigit.le)
  have hle' := mul_le_mul_of_nonneg_right hle hdigit.le
  have hge' := mul_le_mul_of_nonneg_right hge hdigit.le
  rw [add_mul, div_mul_cancel₀ _ hdigit.ne'] at hle'
  rw [div_mul_cancel₀ _ hdigit.ne', add_mul] at hge'
  unfold nearest
  constructor <;> linarith

theorem nearest_le (hq : 0 ≤ q) : nearest q ≤ q * (1 + 1 / 2 ^ 24) := by
  rcases hq.eq_or_lt with rfl | hpos
  · rw [nearest_zero, zero_mul]
  · have hdigit := lastDigit_le hpos
    have hnear := (nearest_near hpos).1
    linarith

theorem le_nearest (hq : 0 ≤ q) : q * (1 - 1 / 2 ^ 24) ≤ nearest q := by
  rcases hq.eq_or_lt with rfl | hpos
  · rw [nearest_zero, zero_mul]
  · have hdigit := lastDigit_le hpos
    have hnear := (nearest_near hpos).2
    linarith

/-- A whole number of at most 24 binary digits is kept. -/
theorem nearest_natCast {n : ℕ} (hn : n < 2 ^ 24) : nearest n = n := by
  have hlog : Int.log 2 (n : ℚ) ≤ 23 := by
    rw [Int.log_natCast]
    exact_mod_cast Nat.le_of_lt_succ (Nat.log_lt_of_lt_pow' (by norm_num) hn)
  obtain ⟨k, hk⟩ : ∃ k : ℕ, 23 - Int.log 2 (n : ℚ) = k := ⟨_, (Int.toNat_of_nonneg (by omega)).symm⟩
  have hdigit : lastDigit (n : ℚ) = (2 ^ k)⁻¹ := by
    unfold lastDigit
    rw [show Int.log 2 (n : ℚ) - 23 = -(k : ℤ) by omega, zpow_neg, zpow_natCast]
  have hwhole : (n : ℚ) / lastDigit n = ((n * 2 ^ k : ℕ) : ℚ) := by
    rw [hdigit, div_inv_eq_mul]
    push_cast
    ring
  unfold nearest
  rw [hwhole, roundHalfEven_natCast, ← hwhole, div_mul_cancel₀ _ (lastDigit_pos _).ne']

end Single
