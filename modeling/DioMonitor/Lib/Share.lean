import DioMonitor.Lib.ListSum
import Mathlib.Data.Rat.Cast.Order
import Mathlib.Tactic.Linarith
import Mathlib.Tactic.Ring

/-!
# Proportional shares

Splitting `rest` between claimants `needs`, each getting the integer part of its proportional share:
the shares never exceed `rest`, and what the rounding keeps back is less than one for each claimant. Shares
that are computed with an error exceed `rest` only when the error of all of them is a whole unit.
-/

namespace Share

/-- The rounded shares of `rest` do not exceed it. -/
theorem sum_div_le (needs : List ℕ) (rest : ℕ) :
    (needs.map fun b => b * rest / needs.sum).sum ≤ rest := by
  have key : ∀ (l : List ℕ) (n : ℕ), (l.map fun b => b * rest / n).sum * n ≤ l.sum * rest := by
    intro l n
    induction l with
    | nil => simp
    | cons b l ih =>
      have hb : b * rest / n * n ≤ b * rest := Nat.div_mul_le_self _ _
      simp only [List.map_cons, List.sum_cons]
      calc (b * rest / n + (l.map fun b => b * rest / n).sum) * n
          = b * rest / n * n + (l.map fun b => b * rest / n).sum * n := by ring
        _ ≤ b * rest + l.sum * rest := Nat.add_le_add hb ih
        _ = (b + l.sum) * rest := by ring
  rcases Nat.eq_zero_or_pos needs.sum with h0 | hpos
  · simp [h0]
  · have := key needs needs.sum
    rw [Nat.mul_comm needs.sum rest] at this
    exact Nat.le_of_mul_le_mul_right this hpos

/-- The rounding keeps back less than one unit for each claimant. -/
theorem lt_sum_div (needs : List ℕ) (rest : ℕ) (hpos : 0 < needs.sum) :
    rest < (needs.map fun b => b * rest / needs.sum).sum + needs.length := by
  have key : ∀ (l : List ℕ) (n : ℕ), 0 < n → l ≠ [] →
      l.sum * rest < ((l.map fun b => b * rest / n).sum + l.length) * n := by
    intro l n hn hl
    induction l with
    | nil => exact absurd rfl hl
    | cons b l ih =>
      have hb : b * rest < (b * rest / n + 1) * n := Nat.lt_mul_of_div_lt (Nat.lt_succ_self _) hn
      simp only [List.map_cons, List.sum_cons, List.length_cons]
      rcases List.eq_nil_or_concat l with rfl | ⟨_, _, hcons⟩
      · simpa using hb
      · have hl' : l ≠ [] := by rw [hcons]; simp
        have := ih hl'
        calc (b + l.sum) * rest = b * rest + l.sum * rest := by ring
          _ < (b * rest / n + 1) * n + ((l.map fun b => b * rest / n).sum + l.length) * n :=
            Nat.add_lt_add hb this
          _ = (b * rest / n + (l.map fun b => b * rest / n).sum + (l.length + 1)) * n := by ring
  have hne : needs ≠ [] := by rintro rfl; simp at hpos
  have := key needs needs.sum hpos hne
  rw [Nat.mul_comm needs.sum rest] at this
  exact Nat.lt_of_mul_lt_mul_right this

/-- Shares of at most `c` for each unit of the needs add up to at most `c` for each unit of their sum. -/
theorem sum_le_mul (f : ℕ → ℕ) (c : ℚ) (needs : List ℕ) (hf : ∀ b ∈ needs, (f b : ℚ) ≤ b * c) :
    ((needs.map f).sum : ℚ) ≤ needs.sum * c := by
  induction needs with
  | nil => simp
  | cons b needs ih =>
    have hhead := hf b List.mem_cons_self
    have htail := ih fun b hb => hf b (List.mem_cons_of_mem _ hb)
    simp only [List.map_cons, List.sum_cons, Nat.cast_add, add_mul]
    exact add_le_add hhead htail

/-- Shares that are too large by a factor keep within `rest` as long as the error on `rest` stays below one. -/
theorem sum_le_of_error (f : ℕ → ℕ) (c : ℚ) (needs : List ℕ) (rest : ℕ) (hpos : 0 < needs.sum)
    (hf : ∀ b ∈ needs, (f b : ℚ) ≤ b * (rest / needs.sum * c)) (herror : rest * c < rest + 1) :
    (needs.map f).sum ≤ rest := by
  have hsum : (needs.sum : ℚ) ≠ 0 := by exact_mod_cast hpos.ne'
  have hle := sum_le_mul f _ needs hf
  have heq : (needs.sum : ℚ) * (rest / needs.sum * c) = rest * c := by
    rw [← mul_assoc, mul_div_cancel₀ _ hsum]
  have hlt : ((needs.map f).sum : ℚ) < rest + 1 := by linarith
  exact Nat.lt_succ_iff.mp (by exact_mod_cast hlt)

end Share
