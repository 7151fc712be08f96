import Mathlib.Data.List.Induction
import Mathlib.Order.Lattice

/-!
# Searching for the best entry

A loop goes through a list and keeps, among the entries that fit, the first one of the smallest value.
-/

namespace Best

variable {ι α : Type*} [LinearOrder α] (f : ι → α) (fits : ι → Prop) [DecidablePred fits]

/-- The better of the best entry so far and the entry `j`. -/
def better (best : Option ι) (j : ι) : Option ι :=
  if fits j then
    match best with
    | none => some j
    | some b => if f b > f j then some j else some b
  else best

/-- The first of the entries of smallest value that fit, if any fits. -/
def Found (is : List ι) : Option ι → Prop
  | none => ∀ j ∈ is, ¬ fits j
  | some b => fits b ∧ ∃ pre post, is = pre ++ b :: post ∧ (∀ j ∈ pre, fits j → f b < f j) ∧
      ∀ j ∈ post, fits j → f b ≤ f j

variable {f fits}

theorem Found.better {is : List ι} {best : Option ι} (h : Found f fits is best) (j : ι) :
    Found f fits (is ++ [j]) (better f fits best j) := by
  cases best with
  | none =>
    by_cases hj : fits j
    · rw [Best.better, if_pos hj]
      exact ⟨hj, is, [], rfl, fun k hk hfits => absurd hfits (h k hk), nofun⟩
    · rw [Best.better, if_neg hj]
      intro k hk
      rcases List.mem_append.mp hk with hk | hk
      · exact h k hk
      · exact List.mem_singleton.mp hk ▸ hj
  | some b =>
    obtain ⟨hb, pre, post, rfl, hpre, hpost⟩ := h
    have hassoc : pre ++ b :: post ++ [j] = pre ++ b :: (post ++ [j]) := by simp
    by_cases hj : fits j
    · rw [Best.better, if_pos hj]
      by_cases hlt : f b > f j
      · -- the new entry is smaller than all the entries so far
        rw [if_pos hlt]
        refine ⟨hj, _, [], rfl, ?_, nofun⟩
        intro k hk hfits
        rcases List.mem_append.mp hk with hk | hk
        · exact lt_trans hlt (hpre k hk hfits)
        · rcases List.mem_cons.mp hk with rfl | hk
          · exact hlt
          · exact lt_of_lt_of_le hlt (hpost k hk hfits)
      · rw [if_neg hlt]
        refine ⟨hb, pre, post ++ [j], hassoc, hpre, ?_⟩
        intro k hk hfits
        rcases List.mem_append.mp hk with hk | hk
        · exact hpost k hk hfits
        · exact List.mem_singleton.mp hk ▸ not_lt.mp hlt
    · rw [Best.better, if_neg hj]
      refine ⟨hb, pre, post ++ [j], hassoc, hpre, ?_⟩
      intro k hk hfits
      rcases List.mem_append.mp hk with hk | hk
      · exact hpost k hk hfits
      · exact absurd (List.mem_singleton.mp hk ▸ hfits) hj

/-- The loop finds the first of the entries of smallest value that fit. -/
theorem found_foldl (is : List ι) : Found f fits is (is.foldl (better f fits) none) := by
  induction is using List.reverseRecOn with
  | nil => exact nofun
  | append_singleton is j ih =>
    rw [List.foldl_append]
    exact ih.better j

end Best
