import Mathlib.Data.List.Basic
import Mathlib.Data.List.Nodup
import Mathlib.Order.Basic

/-!
# Dictionaries in insertion order

A dictionary is a list of keys and values in the order in which the keys came; a key that is assigned
again keeps its place. Grouping collects the values of equal keys, and the groups of an ascending list of
keys follow each other in the order of the keys.
-/

namespace Assoc

variable {κ α : Type} [DecidableEq κ]

/-- `d[k] = a`. -/
def set : List (κ × α) → κ → α → List (κ × α)
  | [], k, a => [(k, a)]
  | (k', b) :: d, k, a => if k' = k then (k', a) :: d else (k', b) :: set d k a

/-- The value under a key. -/
def get : List (κ × α) → κ → Option α
  | [], _ => none
  | (k', a) :: d, k => if k' = k then some a else get d k

/-- The keys in their order. -/
def keys (d : List (κ × α)) : List κ := d.map Prod.fst

variable {d : List (κ × α)} {k k' : κ} {a b : α}

theorem get_cons_self (d : List (κ × α)) (k : κ) (a : α) : get ((k, a) :: d) k = some a := if_pos rfl

theorem get_cons_other (d : List (κ × α)) (a : α) (hne : k' ≠ k) : get ((k', a) :: d) k = get d k := if_neg hne

theorem get_set_self (d : List (κ × α)) (k : κ) (a : α) : get (set d k a) k = some a := by
  induction d with
  | nil => exact get_cons_self [] k a
  | cons x d ih =>
    obtain ⟨k', b⟩ := x
    unfold set
    by_cases hk : k' = k
    · rw [if_pos hk, hk, get_cons_self]
    · rw [if_neg hk, get_cons_other _ _ hk]
      exact ih

theorem get_set_other (d : List (κ × α)) (a : α) (hne : k' ≠ k) : get (set d k a) k' = get d k' := by
  induction d with
  | nil => exact get_cons_other [] a hne.symm
  | cons x d ih =>
    obtain ⟨k₁, b⟩ := x
    unfold set
    by_cases hk : k₁ = k
    · subst hk
      rw [if_pos rfl, get_cons_other _ _ hne.symm, get_cons_other _ _ hne.symm]
    · rw [if_neg hk]
      unfold get
      rw [ih]

theorem mem_keys_set : k' ∈ keys (set d k a) ↔ k' = k ∨ k' ∈ keys d := by
  induction d with
  | nil => simp [set, keys]
  | cons x d ih =>
    obtain ⟨k₁, b⟩ := x
    unfold set
    by_cases hk : k₁ = k
    · simp [keys, hk]
    · rw [if_neg hk]
      unfold keys at ih ⊢
      rw [List.map_cons, List.mem_cons, ih, List.map_cons, List.mem_cons]
      tauto

theorem nodup_keys_set (h : (keys d).Nodup) (k : κ) (a : α) : (keys (set d k a)).Nodup := by
  induction d with
  | nil => simp [set, keys]
  | cons x d ih =>
    obtain ⟨k₁, b⟩ := x
    obtain ⟨hnot, hd⟩ := List.nodup_cons.mp h
    unfold set
    by_cases hk : k₁ = k
    · rw [if_pos hk]
      exact List.nodup_cons.mpr ⟨hnot, hd⟩
    · rw [if_neg hk]
      refine List.nodup_cons.mpr ⟨?_, ih hd⟩
      intro hmem
      exact (mem_keys_set.mp hmem).elim hk hnot

/-- The values under a key. -/
theorem mem_set (h : (k', b) ∈ set d k a) : (k' = k ∧ b = a) ∨ (k', b) ∈ d := by
  induction d with
  | nil => exact .inl (by simpa [set] using h)
  | cons x d ih =>
    obtain ⟨k₁, b₁⟩ := x
    unfold set at h
    by_cases hk : k₁ = k
    · rw [if_pos hk, List.mem_cons, Prod.mk.injEq, hk] at h
      exact h.imp_right (List.mem_cons_of_mem _)
    · rw [if_neg hk] at h
      rcases List.mem_cons.mp h with heq | hmem
      · exact .inr (heq ▸ List.mem_cons_self)
      · exact (ih hmem).imp_right (List.mem_cons_of_mem _)

/-- A new value among different ones. -/
theorem nodup_map_set {β : Type} {f : κ × α → β} (h : (d.map f).Nodup) (hnew : f (k, a) ∉ d.map f) :
    ((set d k a).map f).Nodup := by
  induction d with
  | nil => simp [set]
  | cons x d ih =>
    obtain ⟨k₁, b⟩ := x
    obtain ⟨hnot, hd⟩ := List.nodup_cons.mp h
    have hnew' : f (k, a) ∉ d.map f := fun hmem => hnew (List.mem_cons_of_mem _ hmem)
    unfold set
    by_cases hk : k₁ = k
    · subst hk
      rw [if_pos rfl]
      exact List.nodup_cons.mpr ⟨hnew', hd⟩
    · rw [if_neg hk]
      refine List.nodup_cons.mpr ⟨?_, ih hd hnew'⟩
      intro hmem
      obtain ⟨⟨k₂, b₂⟩, hx, heq⟩ := List.mem_map.mp hmem
      rcases mem_set hx with ⟨rfl, rfl⟩ | hx
      · exact hnew (heq ▸ List.mem_cons_self)
      · exact hnot (List.mem_map.mpr ⟨_, hx, heq⟩)

theorem get_of_mem (h : (keys d).Nodup) (hmem : (k, a) ∈ d) : get d k = some a := by
  induction d with
  | nil => cases hmem
  | cons x d ih =>
    obtain ⟨k₁, b⟩ := x
    obtain ⟨hnot, hd⟩ := List.nodup_cons.mp h
    rcases List.mem_cons.mp hmem with heq | hrest
    · cases heq
      exact get_cons_self d k a
    · have hne : k₁ ≠ k := by
        rintro rfl
        exact hnot (List.mem_map.mpr ⟨_, hrest, rfl⟩)
      rw [get_cons_other _ _ hne]
      exact ih hd hrest

theorem mem_of_get (h : get d k = some a) : (k, a) ∈ d := by
  induction d with
  | nil => cases h
  | cons x d ih =>
    obtain ⟨k₁, b⟩ := x
    by_cases hk : k₁ = k
    · rw [hk, get_cons_self] at h
      cases h
      exact hk ▸ List.mem_cons_self
    · rw [get_cons_other _ _ hk] at h
      exact List.mem_cons_of_mem _ (ih h)

theorem get_eq_none_of_not_mem (h : k ∉ keys d) : get d k = none := by
  cases hget : get d k with
  | none => rfl
  | some a => exact absurd (List.mem_map.mpr ⟨_, mem_of_get hget, rfl⟩) h

/-! ## Groups -/

/-- The group of a key. -/
def group (groups : List (κ × List α)) (k : κ) : List α := (get groups k).getD []

/-- A value is added to the group of its key, a new one if there is none. -/
def add (groups : List (κ × List α)) (k : κ) (a : α) : List (κ × List α) :=
  set groups k (group groups k ++ [a])

/-- The groups of some keys and values. -/
def groupAll (xs : List (κ × α)) : List (κ × List α) := xs.foldl (fun g x => add g x.1 x.2) []

theorem group_add (groups : List (κ × List α)) (k k' : κ) (a : α) :
    group (add groups k a) k' = group groups k' ++ if k = k' then [a] else [] := by
  unfold add group
  by_cases hk : k = k'
  · subst hk
    rw [get_set_self, if_pos rfl]
    rfl
  · rw [get_set_other _ _ (Ne.symm hk), if_neg hk, List.append_nil]

theorem group_foldl (xs : List (κ × α)) (groups : List (κ × List α)) (k : κ) :
    group (xs.foldl (fun g x => add g x.1 x.2) groups) k =
      group groups k ++ (xs.filter fun x => x.1 = k).map Prod.snd := by
  induction xs generalizing groups with
  | nil => simp
  | cons x xs ih =>
    rw [List.foldl_cons, ih, group_add, List.append_assoc]
    by_cases hk : x.1 = k
    · simp [hk]
    · simp [hk]

theorem group_groupAll (xs : List (κ × α)) (k : κ) :
    group (groupAll xs) k = (xs.filter fun x => x.1 = k).map Prod.snd := group_foldl xs [] k

theorem keys_foldl (xs : List (κ × α)) {groups : List (κ × List α)} (h : (keys groups).Nodup) :
    (keys (xs.foldl (fun g x => add g x.1 x.2) groups)).Nodup ∧
      ∀ k, k ∈ keys (xs.foldl (fun g x => add g x.1 x.2) groups) ↔ k ∈ keys groups ∨ k ∈ xs.map Prod.fst := by
  induction xs generalizing groups with
  | nil => exact ⟨h, by simp⟩
  | cons x xs ih =>
    obtain ⟨hnodup, hmem⟩ := ih (nodup_keys_set h x.1 (group groups x.1 ++ [x.2]))
    refine ⟨hnodup, ?_⟩
    intro k
    rw [List.foldl_cons]
    refine (hmem k).trans ?_
    rw [mem_keys_set, List.map_cons, List.mem_cons]
    tauto

omit [DecidableEq κ] in
theorem nodup_keys_nil : (keys ([] : List (κ × α))).Nodup := List.nodup_nil

theorem nodup_keys_groupAll (xs : List (κ × α)) : (keys (groupAll xs)).Nodup :=
  (keys_foldl xs nodup_keys_nil).1

theorem mem_keys_groupAll {xs : List (κ × α)} : k ∈ keys (groupAll xs) ↔ k ∈ xs.map Prod.fst := by
  rw [groupAll, (keys_foldl xs nodup_keys_nil).2 k]
  simp [keys]

/-! ## Groups in the order of their keys -/

/-- The values of some keys, with their keys, one group after the other. -/
def inOrder (ks : List κ) (xs : List (κ × α)) : List (κ × α) := ks.flatMap fun k => xs.filter fun x => x.1 = k

theorem filter_inOrder (p : κ × α → Bool) (ks : List κ) (xs : List (κ × α)) :
    (inOrder ks xs).filter p = inOrder ks (xs.filter p) := by
  unfold inOrder
  rw [List.filter_flatMap]
  congr 1
  funext k
  exact List.filter_comm _ _ _

theorem inOrder_none {ks : List κ} {xs : List (κ × α)} (h : ∀ k ∈ ks, xs.filter (fun x => x.1 = k) = []) :
    inOrder ks xs = [] := List.flatMap_eq_nil_iff.mpr h

/-- One key: its group. -/
theorem inOrder_one {ks : List κ} {xs : List (κ × α)} (hks : ks.Nodup) (hk : k ∈ ks)
    (h : ∀ k' ∈ ks, k' ≠ k → xs.filter (fun x => x.1 = k') = []) :
    inOrder ks xs = xs.filter fun x => x.1 = k := by
  induction ks with
  | nil => cases hk
  | cons k₁ ks ih =>
    obtain ⟨hnot, hnodup⟩ := List.nodup_cons.mp hks
    show xs.filter (fun x => x.1 = k₁) ++ inOrder ks xs = _
    have htail : ∀ k' ∈ ks, k' ≠ k → xs.filter (fun x => x.1 = k') = [] :=
      fun k' hk' => h k' (List.mem_cons_of_mem _ hk')
    by_cases hkk : k₁ = k
    · subst hkk
      have hnone : inOrder ks xs = [] := inOrder_none fun k' hk' => htail k' hk' (by
        rintro rfl
        exact hnot hk')
      rw [hnone, List.append_nil]
    · rw [h k₁ List.mem_cons_self hkk, List.nil_append,
        ih hnodup ((List.mem_cons.mp hk).resolve_left (Ne.symm hkk)) htail]

/-- Two keys: the group of the smaller one comes first. -/
theorem inOrder_two [Preorder κ] {ks : List κ} {xs : List (κ × α)} (hks : ks.Pairwise (· < ·))
    (hk : k ∈ ks) (hk' : k' ∈ ks) (hlt : k < k')
    (h : ∀ k₁ ∈ ks, k₁ ≠ k → k₁ ≠ k' → xs.filter (fun x => x.1 = k₁) = []) :
    inOrder ks xs = xs.filter (fun x => x.1 = k) ++ xs.filter fun x => x.1 = k' := by
  induction ks with
  | nil => cases hk
  | cons k₁ ks ih =>
    obtain ⟨hhead, htail⟩ := List.pairwise_cons.mp hks
    show xs.filter (fun x => x.1 = k₁) ++ inOrder ks xs = _
    have hrest : ∀ k₂ ∈ ks, k₂ ≠ k → k₂ ≠ k' → xs.filter (fun x => x.1 = k₂) = [] :=
      fun k₂ hk₂ => h k₂ (List.mem_cons_of_mem _ hk₂)
    rcases List.mem_cons.mp hk with rfl | hk
    · have hk'tail : k' ∈ ks := (List.mem_cons.mp hk').resolve_left hlt.ne'
      rw [inOrder_one (htail.imp ne_of_lt) hk'tail fun k₂ hk₂ => hrest k₂ hk₂ (hhead k₂ hk₂).ne']
    · have hlt₁ := hhead k hk
      have hne' : k₁ ≠ k' := (hlt₁.trans hlt).ne
      rw [h k₁ List.mem_cons_self hlt₁.ne hne', List.nil_append,
        ih htail hk ((List.mem_cons.mp hk').resolve_left hne'.symm) hrest]

end Assoc
