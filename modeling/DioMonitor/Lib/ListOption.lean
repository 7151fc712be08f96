import Mathlib.Data.List.Forall2

/-!
# Mapping a function that can fail over a list

`List.mapM` in `Option`: it succeeds exactly when the function succeeds on every element.
-/

namespace ListOption

variable {α β : Type} {f : α → Option β}

theorem mapM_eq_some {l : List α} {l' : List β} :
    l.mapM f = some l' ↔ List.Forall₂ (fun a b => f a = some b) l l' := by
  induction l generalizing l' with
  | nil => simp [eq_comm]
  | cons a l ih =>
    rw [List.forall₂_cons_left_iff]
    simp only [List.mapM_cons, Option.bind_eq_bind, Option.bind_eq_some_iff, Option.pure_def,
      Option.some.injEq, ih]
    constructor
    · rintro ⟨b, hb, l'', hl'', rfl⟩
      exact ⟨b, l'', hb, hl'', rfl⟩
    · rintro ⟨b, l'', hb, hl'', rfl⟩
      exact ⟨b, hb, l'', hl'', rfl⟩

/-- Each result comes from an element. -/
theorem exists_of_mem_mapM {l : List α} {l' : List β} (h : l.mapM f = some l') {b : β} (hb : b ∈ l') :
    ∃ a ∈ l, f a = some b := by
  have hall := mapM_eq_some.mp h
  induction hall with
  | nil => cases hb
  | @cons a b' l l' hab hrest ih =>
    rcases List.mem_cons.mp hb with rfl | hb
    · exact ⟨a, List.mem_cons_self .., hab⟩
    · obtain ⟨a', ha', hf⟩ := ih (mapM_eq_some.mpr hrest) hb
      exact ⟨a', List.mem_cons_of_mem _ ha', hf⟩

/-- Mapping fails when the function fails on some element, and only then. -/
theorem mapM_eq_none {l : List α} : l.mapM f = none ↔ ∃ a ∈ l, f a = none := by
  induction l with
  | nil => simp
  | cons a l ih =>
    cases ha : f a with
    | none => simp [List.mapM_cons, ha]
    | some b =>
      rw [List.mapM_cons, ha, Option.bind_eq_bind, Option.bind_some]
      cases hl : l.mapM f with
      | none => simpa [ha] using ih.mp hl
      | some l' =>
        have hne : ¬ ∃ a ∈ l, f a = none := fun h => by rw [ih.mpr h] at hl; cases hl
        simpa [ha] using hne

end ListOption
