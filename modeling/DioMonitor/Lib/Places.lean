import Mathlib.Data.List.Basic

/-!
# Places of a list

The elements of a list by their places, after one of them was replaced or one more was added. A list
whose elements act one at a time (threads, handlers) only changes so.
-/

namespace Places

variable {α : Type} {as : List α} {a b c : α} {i j : ℕ}

theorem lt_length (h : as[i]? = some a) : i < as.length := (List.getElem?_eq_some_iff.mp h).1

theorem set_iff (hi : as[i]? = some a) :
    (as.set i b)[j]? = some c ↔ (j = i ∧ c = b) ∨ (j ≠ i ∧ as[j]? = some c) := by
  have hlt := lt_length hi
  rw [List.getElem?_set]
  by_cases hij : i = j
  · subst hij
    simp [hlt, eq_comm]
  · simp [hij, Ne.symm hij]

theorem concat_iff : (as ++ [b])[j]? = some c ↔ as[j]? = some c ∨ (j = as.length ∧ c = b) := by
  rcases Nat.lt_trichotomy j as.length with hlt | rfl | hgt
  · rw [List.getElem?_append_left hlt]
    constructor
    · exact Or.inl
    · rintro (h | ⟨rfl, -⟩)
      · exact h
      · omega
  · simp [eq_comm]
  · rw [List.getElem?_eq_none (by simp; omega), List.getElem?_eq_none (by omega)]
    simp
    omega

/-- `R` relates no two places. -/
def Apart (R : α → α → Prop) (as : List α) : Prop :=
  ∀ (i j : ℕ) (a b : α), as[i]? = some a → as[j]? = some b → R a b → i = j

variable {R : α → α → Prop}

/-- An element replaced by one that `R` relates to no more than it. -/
theorem Apart.set (h : Apart R as) (hi : as[i]? = some a) (hleft : ∀ c, R b c → R a c)
    (hright : ∀ c, R c b → R c a) : Apart R (as.set i b) := by
  intro j k c d hj hk hr
  rcases (set_iff hi).mp hj with ⟨rfl, rfl⟩ | ⟨hji, hj'⟩
  · rcases (set_iff hi).mp hk with ⟨rfl, -⟩ | ⟨-, hk'⟩
    · rfl
    · exact h _ _ _ _ hi hk' (hleft _ hr)
  · rcases (set_iff hi).mp hk with ⟨rfl, rfl⟩ | ⟨-, hk'⟩
    · exact h _ _ _ _ hj' hi (hright _ hr)
    · exact h _ _ _ _ hj' hk' hr

/-- One more element, that `R` relates to none of the others. -/
theorem Apart.concat (h : Apart R as) (hnew : ∀ a ∈ as, ¬ R a b ∧ ¬ R b a) : Apart R (as ++ [b]) := by
  intro j k c d hj hk hr
  rcases concat_iff.mp hj with hj' | ⟨rfl, rfl⟩
  · rcases concat_iff.mp hk with hk' | ⟨rfl, rfl⟩
    · exact h _ _ _ _ hj' hk' hr
    · exact absurd hr (hnew c (List.mem_of_getElem? hj')).1
  · rcases concat_iff.mp hk with hk' | ⟨rfl, -⟩
    · exact absurd hr (hnew d (List.mem_of_getElem? hk')).2
    · rfl

end Places
