import Mathlib.Algebra.BigOperators.Field
import Mathlib.Algebra.Order.BigOperators.Group.Finset
import Mathlib.Algebra.Order.BigOperators.Ring.Finset
import Mathlib.Algebra.Order.Field.Basic
import Mathlib.Tactic.Linarith

/-!
# Least squares

The line `a + b * x` that fits some points best: its slope is a quotient of sums of products of deviations
from the means. The sign of the slope is found by summing over all pairs of points, as in Chebyshev's
inequality on sums.
-/

namespace LeastSquares

open Finset

variable {ι K : Type*} [Field K] (s : Finset ι) (x y : ι → K)

/-- The mean of the values. -/
def mean : K := (∑ i ∈ s, y i) / s.card

/-- The sum of the products of the deviations from the means. -/
def codev : K := ∑ i ∈ s, (x i - mean s x) * (y i - mean s y)

/-- The slope of the line that fits best. -/
def slope : K := codev s x y / codev s x x

/-- The sum of the squared residuals of a line. -/
def residual (a b : K) : K := ∑ i ∈ s, (y i - (a + b * x i)) ^ 2

/-- No line has smaller squared residuals. -/
def Fits [LE K] (a b : K) : Prop := ∀ a' b', residual s x y a b ≤ residual s x y a' b'

variable {s x y}

section

variable [CharZero K]

/-- The deviations from the mean cancel out. -/
theorem sum_sub_mean (hs : s.Nonempty) (y : ι → K) : ∑ i ∈ s, (y i - mean s y) = 0 := by
  have hcard : (s.card : K) ≠ 0 := Nat.cast_ne_zero.mpr hs.card_ne_zero
  rw [sum_sub_distrib, sum_const, nsmul_eq_mul, mean, mul_div_cancel₀ _ hcard, sub_self]

theorem codev_eq_sum (hs : s.Nonempty) (x y : ι → K) :
    codev s x y = ∑ i ∈ s, (x i - mean s x) * y i := by
  simp only [codev, mul_sub, sum_sub_distrib]
  rw [← sum_mul, sum_sub_mean hs x, zero_mul, sub_zero]

/-- An affine map of the values scales the slope. -/
theorem codev_affine (hs : s.Nonempty) {z : ι → K} {a b : K} (h : ∀ i ∈ s, y i = a + b * z i) :
    codev s x y = b * codev s x z := by
  have hterm : ∀ i ∈ s, (x i - mean s x) * y i =
      a * (x i - mean s x) + b * ((x i - mean s x) * z i) := by
    intro i hi
    rw [h i hi]
    ring
  rw [codev_eq_sum hs, codev_eq_sum hs, sum_congr rfl hterm, sum_add_distrib, ← mul_sum, ← mul_sum,
    sum_sub_mean hs x, mul_zero, zero_add]

theorem slope_affine (hs : s.Nonempty) {z : ι → K} {a b : K} (h : ∀ i ∈ s, y i = a + b * z i) :
    slope s x y = b * slope s x z := by
  rw [slope, slope, codev_affine hs h, mul_div_assoc]

/-- The products of the differences, over all pairs of points. -/
theorem sum_sum_sub (hs : s.Nonempty) (x y : ι → K) :
    ∑ i ∈ s, ∑ j ∈ s, (x i - x j) * (y i - y j) = 2 * s.card * codev s x y := by
  have hx := sum_sub_mean hs x
  have hy := sum_sub_mean hs y
  have hinner : ∀ i ∈ s, ∑ j ∈ s, (x i - x j) * (y i - y j) =
      s.card * ((x i - mean s x) * (y i - mean s y)) + codev s x y := by
    intro i _
    have hterm : ∀ j ∈ s, (x i - x j) * (y i - y j) = (x i - mean s x) * (y i - mean s y) -
        (x i - mean s x) * (y j - mean s y) - (y i - mean s y) * (x j - mean s x) +
          (x j - mean s x) * (y j - mean s y) := by
      intro j _
      ring
    rw [sum_congr rfl hterm, sum_add_distrib, sum_sub_distrib, sum_sub_distrib, sum_const,
      ← mul_sum, ← mul_sum, hx, hy, nsmul_eq_mul, codev]
    ring
  rw [sum_congr rfl hinner, sum_add_distrib, ← mul_sum, sum_const, nsmul_eq_mul]
  show s.card * codev s x y + s.card * codev s x y = _
  ring

/-- The squared residuals of a line, by its slope and by its height at the mean. -/
theorem residual_eq (hs : s.Nonempty) (x y : ι → K) (a b : K) :
    residual s x y a b = codev s y y - 2 * b * codev s x y + b ^ 2 * codev s x x +
      s.card * (mean s y - (a + b * mean s x)) ^ 2 := by
  have hx := sum_sub_mean hs x
  have hy := sum_sub_mean hs y
  have hterm : ∀ i ∈ s, (y i - (a + b * x i)) ^ 2 =
      (y i - mean s y) * (y i - mean s y) - 2 * b * ((x i - mean s x) * (y i - mean s y)) +
        b ^ 2 * ((x i - mean s x) * (x i - mean s x)) +
        2 * (mean s y - (a + b * mean s x)) * (y i - mean s y) -
        2 * (mean s y - (a + b * mean s x)) * b * (x i - mean s x) +
        (mean s y - (a + b * mean s x)) ^ 2 := by
    intro i _
    ring
  rw [residual, sum_congr rfl hterm, sum_add_distrib, sum_sub_distrib, sum_add_distrib,
    sum_add_distrib, sum_sub_distrib, ← mul_sum, ← mul_sum, ← mul_sum, ← mul_sum, hx, hy, sum_const,
    nsmul_eq_mul]
  simp only [codev]
  ring

end

section

variable [LinearOrder K] [IsStrictOrderedRing K]

/-- Values that increase together. -/
theorem codev_pos (h : ∀ i ∈ s, ∀ j ∈ s, x i < x j → y i < y j)
    (hne : ∃ i ∈ s, ∃ j ∈ s, x i < x j) : 0 < codev s x y := by
  obtain ⟨i, hi, j, hj, hij⟩ := hne
  have hs : s.Nonempty := ⟨i, hi⟩
  have hnonneg : ∀ k ∈ s, ∀ l ∈ s, 0 ≤ (x k - x l) * (y k - y l) := by
    intro k hk l hl
    rcases lt_trichotomy (x k) (x l) with hlt | heq | hgt
    · exact (mul_pos_of_neg_of_neg (sub_neg.mpr hlt) (sub_neg.mpr (h k hk l hl hlt))).le
    · rw [heq, sub_self, zero_mul]
    · exact (mul_pos (sub_pos.mpr hgt) (sub_pos.mpr (h l hl k hk hgt))).le
  have hrow : ∀ k ∈ s, 0 ≤ ∑ l ∈ s, (x k - x l) * (y k - y l) := fun k hk =>
    sum_nonneg (hnonneg k hk)
  have hpos : 0 < (x i - x j) * (y i - y j) :=
    mul_pos_of_neg_of_neg (sub_neg.mpr hij) (sub_neg.mpr (h i hi j hj hij))
  have hrowpos : 0 < ∑ l ∈ s, (x i - x l) * (y i - y l) :=
    sum_pos' (hnonneg i hi) ⟨j, hj, hpos⟩
  have hsum := sum_pos' hrow ⟨i, hi, hrowpos⟩
  rw [sum_sum_sub hs] at hsum
  exact pos_of_mul_pos_right hsum (mul_nonneg zero_le_two (Nat.cast_nonneg _))

theorem codev_self_pos (hne : ∃ i ∈ s, ∃ j ∈ s, x i < x j) : 0 < codev s x x :=
  codev_pos (fun _ _ _ _ h => h) hne

theorem slope_pos (h : ∀ i ∈ s, ∀ j ∈ s, x i < x j → y i < y j)
    (hne : ∃ i ∈ s, ∃ j ∈ s, x i < x j) : 0 < slope s x y :=
  div_pos (codev_pos h hne) (codev_self_pos hne)

theorem slope_neg (h : ∀ i ∈ s, ∀ j ∈ s, x i < x j → y j < y i)
    (hne : ∃ i ∈ s, ∃ j ∈ s, x i < x j) : slope s x y < 0 := by
  have hs : s.Nonempty := hne.imp fun _ h => h.1
  have hneg : slope s x (fun i => -y i) = -1 * slope s x y := slope_affine hs (a := 0) (by simp)
  have hpos : 0 < slope s x (fun i => -y i) :=
    slope_pos (fun k hk l hl hkl => neg_lt_neg (h k hk l hl hkl)) hne
  linarith

/-- On a line, the slope is that of the line. -/
theorem slope_line (hne : ∃ i ∈ s, ∃ j ∈ s, x i < x j) {a b : K} (h : ∀ i ∈ s, y i = a + b * x i) :
    slope s x y = b := by
  have hs : s.Nonempty := hne.imp fun _ h => h.1
  rw [slope_affine hs h, slope, div_self (codev_self_pos hne).ne', mul_one]

/-- The line of this slope through the mean fits best, and no other line does. -/
theorem fits_iff (hne : ∃ i ∈ s, ∃ j ∈ s, x i < x j) {a b : K} :
    Fits s x y a b ↔ b = slope s x y ∧ a = mean s y - slope s x y * mean s x := by
  have hs : s.Nonempty := hne.imp fun _ h => h.1
  have hpos := codev_self_pos hne
  have hcard : (0 : K) < s.card := Nat.cast_pos.mpr hs.card_pos
  have hcodev : codev s x y = slope s x y * codev s x x := (div_mul_cancel₀ _ hpos.ne').symm
  have hbest : ∀ a b, residual s x y a b =
      residual s x y (mean s y - slope s x y * mean s x) (slope s x y) +
        (codev s x x * (b - slope s x y) ^ 2 + s.card * (mean s y - (a + b * mean s x)) ^ 2) := by
    intro a b
    rw [residual_eq hs, residual_eq hs, hcodev]
    ring
  have hslope : ∀ b, 0 ≤ codev s x x * (b - slope s x y) ^ 2 := fun b =>
    mul_nonneg hpos.le (sq_nonneg _)
  have hheight : ∀ a b, 0 ≤ s.card * (mean s y - (a + b * mean s x)) ^ 2 := fun a b =>
    mul_nonneg hcard.le (sq_nonneg _)
  constructor
  · intro h
    have hle := h (mean s y - slope s x y * mean s x) (slope s x y)
    rw [hbest a b] at hle
    have hslope' := hslope b
    have hheight' := hheight a b
    have hb : b = slope s x y := by
      have hzero : codev s x x * (b - slope s x y) ^ 2 = 0 := by linarith
      have hsq := (mul_eq_zero.mp hzero).resolve_left hpos.ne'
      exact sub_eq_zero.mp (pow_eq_zero_iff two_ne_zero |>.mp hsq)
    have ha : mean s y - (a + b * mean s x) = 0 := by
      have hzero : s.card * (mean s y - (a + b * mean s x)) ^ 2 = 0 := by linarith
      have hsq := (mul_eq_zero.mp hzero).resolve_left hcard.ne'
      exact pow_eq_zero_iff two_ne_zero |>.mp hsq
    refine ⟨hb, ?_⟩
    rw [hb] at ha
    linarith
  · rintro ⟨rfl, rfl⟩ a' b'
    rw [hbest a' b']
    exact le_add_of_nonneg_right (add_nonneg (hslope b') (hheight a' b'))

end

end LeastSquares
