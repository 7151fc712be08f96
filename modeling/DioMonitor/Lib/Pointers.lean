import Mathlib.Data.List.Nodup
import Mathlib.Data.List.GetD

/-!
# A store behind a list of pointers

A pointer is an index into the store. `writeAll` writes a list of values through a list of pointers; what
is read back through the same pointers is these values, when no pointer dangles and none occurs twice.
-/

namespace Pointers

variable {α : Type} {d : α} {store vs : List α} {ps : List ℕ} {p : ℕ}

/-- The values behind the pointers. -/
def readAll (d : α) (store : List α) (ps : List ℕ) : List α := ps.map (store.getD · d)

/-- The store after each value was written through its pointer. -/
def writeAll (store : List α) (ps : List ℕ) (vs : List α) : List α :=
  store.mapIdx fun p v => ((ps.zip vs).lookup p).getD v

@[simp] theorem length_writeAll : (writeAll store ps vs).length = store.length := by
  simp [writeAll]

theorem getD_writeAll (hp : p < store.length) :
    (writeAll store ps vs).getD p d = ((ps.zip vs).lookup p).getD (store.getD p d) := by
  rw [List.getD_eq_getElem _ _ (by simpa using hp), List.getD_eq_getElem _ _ hp]
  simp [writeAll]

/-- The value of a pointer that occurs is the one computed from it. -/
theorem lookup_zip_map {f : ℕ → α} (hp : p ∈ ps) : (ps.zip (ps.map f)).lookup p = some (f p) := by
  induction ps with
  | nil => cases hp
  | cons q ps ih =>
    rw [List.map_cons, List.zip_cons_cons, List.lookup_cons]
    by_cases hpq : p = q
    · subst hpq
      simp
    · rw [beq_eq_false_iff_ne.mpr hpq]
      exact ih ((List.mem_cons.mp hp).resolve_left hpq)

theorem lookup_zip_of_not_mem (hp : p ∉ ps) : (ps.zip vs).lookup p = none := by
  induction ps generalizing vs with
  | nil => rfl
  | cons q ps ih =>
    cases vs with
    | nil => rfl
    | cons v vs =>
      rw [List.mem_cons, not_or] at hp
      rw [List.zip_cons_cons, List.lookup_cons, beq_eq_false_iff_ne.mpr hp.1]
      exact ih hp.2

/-- A pointer that does not occur keeps its value. -/
theorem getD_writeAll_of_not_mem (hp : p ∉ ps) : (writeAll store ps vs).getD p d = store.getD p d := by
  by_cases hlt : p < store.length
  · rw [getD_writeAll hlt, lookup_zip_of_not_mem hp, Option.getD_none]
  · rw [List.getD_eq_default _ _ (by simpa using hlt), List.getD_eq_default _ _ (by simpa using hlt)]

/-- No pointer occurs twice, and none dangles in a store of this size. -/
structure Valid (n : ℕ) (ps : List ℕ) : Prop where
  nodup : ps.Nodup
  lt : ∀ p ∈ ps, p < n

theorem Valid.nil (n : ℕ) : Valid n [] := ⟨List.nodup_nil, by simp⟩

/-- A store may grow. -/
theorem Valid.mono {n m : ℕ} (h : Valid n ps) (hle : n ≤ m) : Valid m ps :=
  ⟨h.nodup, fun p hp => Nat.lt_of_lt_of_le (h.lt p hp) hle⟩

theorem Valid.tail {n : ℕ} (h : Valid n (p :: ps)) : Valid n ps :=
  ⟨(List.nodup_cons.mp h.nodup).2, fun q hq => h.lt q (List.mem_cons_of_mem p hq)⟩

/-- A pointer to a new value. -/
theorem Valid.concat {n : ℕ} (h : Valid n ps) : Valid (n + 1) (ps ++ [n]) := by
  constructor
  · refine List.nodup_append.mpr ⟨h.nodup, by simp, ?_⟩
    intro p hp q hq
    rw [List.mem_singleton.mp hq]
    exact Nat.ne_of_lt (h.lt p hp)
  · intro p hp
    rcases List.mem_append.mp hp with hp | hp
    · exact Nat.lt_succ_of_lt (h.lt p hp)
    · rw [List.mem_singleton.mp hp]
      exact Nat.lt_succ_self n

/-- What is behind a pointer after a function was applied to every value read. -/
theorem getD_writeAll_map {f : ℕ → α} (hlt : p < store.length) (hp : p ∈ ps) :
    (writeAll store ps (ps.map f)).getD p d = f p := by
  rw [getD_writeAll hlt, lookup_zip_map hp, Option.getD_some]

/-- The values written are read back. -/
theorem readAll_writeAll (h : Valid store.length ps) (hlen : ps.length = vs.length) :
    readAll d (writeAll store ps vs) ps = vs := by
  obtain ⟨hnd, hlt⟩ := h
  have hread : readAll d (writeAll store ps vs) ps =
      ps.map fun p => ((ps.zip vs).lookup p).getD (store.getD p d) :=
    List.map_congr_left fun p hp => getD_writeAll (hlt p hp)
  rw [hread]
  clear hread hlt
  induction ps generalizing vs with
  | nil =>
    cases vs with
    | nil => rfl
    | cons v vs => cases hlen
  | cons q ps ih =>
    cases vs with
    | nil => cases hlen
    | cons v vs =>
      obtain ⟨hq, hnd⟩ := List.nodup_cons.mp hnd
      rw [List.map_cons, List.zip_cons_cons, List.lookup_cons, beq_self_eq_true, Option.getD_some]
      refine congrArg (v :: ·) (Eq.trans (List.map_congr_left fun p hp => ?_)
        (ih (by simpa using hlen) hnd))
      have hne : p ≠ q := by
        rintro rfl
        exact hq hp
      rw [List.lookup_cons, beq_eq_false_iff_ne.mpr hne]

end Pointers
