import Mathlib.Data.List.DropRight

/-!
# Sliding windows

A window keeps the last entries of a list, at most `n`. A new entry pushes the first one out of a window
that is full.
-/

namespace SlidingWindow

variable {α : Type*} (n : ℕ)

/-- The last entries of a list. -/
def window (l : List α) : List α := l.rtake (min l.length n)

/-- One more entry. -/
def push (w : List α) (a : α) : List α :=
  if (w ++ [a]).length > n then (w ++ [a]).tail else w ++ [a]

variable {n}

@[simp] theorem length_window (l : List α) : (window n l).length = min l.length n := by
  rw [window, List.rtake, List.length_drop]
  omega

/-- The window moves on with the list. -/
theorem push_window (l : List α) (a : α) : push n (window n l) a = window n (l ++ [a]) := by
  have hle : l.length - min l.length n ≤ l.length := by omega
  unfold push
  rw [List.length_append, length_window, window, window, List.rtake, List.rtake, List.length_append,
    ← List.drop_append_of_le_length hle, List.length_singleton]
  split_ifs with hfull
  · rw [List.tail_drop]
    congr 1
    omega
  · congr 1
    omega

end SlidingWindow
