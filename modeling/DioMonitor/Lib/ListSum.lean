import Mathlib.Algebra.BigOperators.Group.List.Basic
import Mathlib.Data.List.GetD
import Mathlib.Algebra.Order.BigOperators.Group.List
import Mathlib.Algebra.Order.Group.Nat
import Mathlib.Algebra.BigOperators.Ring.List
import Mathlib.Algebra.GroupWithZero.Nat

/-!
# Lists updated at one position

Reading a list after `List.modify`, and sums over a list of which one entry changes.
-/

namespace ListSum

variable {α : Type}

theorem getD_modify_self (l : List α) {i : ℕ} (f : α → α) (d : α) (h : i < l.length) :
    (l.modify i f).getD i d = f (l.getD i d) := by
  simp [List.getD_eq_getElem?_getD, List.getElem?_eq_getElem h]

theorem getD_modify_ne (l : List α) {i j : ℕ} (f : α → α) (d : α) (h : i ≠ j) :
    (l.modify i f).getD j d = l.getD j d := by
  simp [List.getD_eq_getElem?_getD, h]

/-- Replacing the entry at `i` changes a sum by the change of that entry. -/
theorem sum_map_modify (g : α → ℕ) (l : List α) {i : ℕ} (f : α → α) (d : α) (h : i < l.length) :
    ((l.modify i f).map g).sum + g (l.getD i d) = (l.map g).sum + g (f (l.getD i d)) := by
  induction l generalizing i with
  | nil => simp at h
  | cons x xs ih =>
    cases i with
    | zero => simp; omega
    | succ i =>
      have hi : i < xs.length := by simpa using h
      have := ih hi
      simp only [List.modify_succ_cons, List.map_cons, List.sum_cons, List.getD_cons_succ]
      omega

/-- Pointwise equal entries have the same sum. -/
theorem sum_map_congr (l : List α) {f g : α → ℕ} (h : ∀ x ∈ l, f x = g x) :
    (l.map f).sum = (l.map g).sum := by
  rw [List.map_congr_left h]

/-- What does not depend on the entry that changed. -/
theorem getD_modify_of {β : Type} (l : List α) {i : ℕ} (f : α → α) (d : α) {g : α → β}
    (h : ∀ x, g (f x) = g x) (j : ℕ) : g ((l.modify i f).getD j d) = g (l.getD j d) := by
  by_cases hij : i = j
  · subst hij
    by_cases hi : i < l.length
    · rw [getD_modify_self l f d hi, h]
    · have hnone : l.getD i d = d := List.getD_eq_default _ _ (by omega)
      have hnone' : (l.modify i f).getD i d = d :=
        List.getD_eq_default _ _ (by rw [List.length_modify]; omega)
      rw [hnone, hnone']
  · rw [getD_modify_ne l f d hij]

end ListSum
