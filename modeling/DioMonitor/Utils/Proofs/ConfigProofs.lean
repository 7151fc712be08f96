import DioMonitor.Utils.Config

/-!
# Proofs: dictionaries

Inserting entries with different names, in any order, gives the dictionary that holds them.
-/

namespace Config.Dict

/-- Of two names that are different one is smaller. -/
theorem lt_of_not_lt {a b : Str} (h : ¬ a < b) (hne : a ≠ b) : b < a := by
  rcases List.le_iff_lt_or_eq.mp (List.not_lt.mp h) with hlt | heq
  · exact hlt
  · exact absurd heq.symm hne

theorem mem_insert {k : Str} {v : Value} {d : Dict} {e : Str × Value} (h : e ∈ d.insert k v) :
    e = (k, v) ∨ e ∈ d := by
  induction d with
  | nil => exact .inl (List.mem_singleton.mp h)
  | cons e' d ih =>
    unfold insert at h
    split_ifs at h
    · rcases List.mem_cons.mp h with h | h
      · exact .inl h
      · exact .inr h
    · rcases List.mem_cons.mp h with h | h
      · exact .inl h
      · exact .inr (List.mem_cons_of_mem _ h)
    · rcases List.mem_cons.mp h with h | h
      · exact .inr (h ▸ List.mem_cons_self)
      · rcases ih h with h | h
        · exact .inl h
        · exact .inr (List.mem_cons_of_mem _ h)

theorem sorted_insert {d : Dict} (hd : d.Sorted) (k : Str) (v : Value) : (d.insert k v).Sorted := by
  induction d with
  | nil => exact List.pairwise_singleton _ _
  | cons e d ih =>
    obtain ⟨hall, hd'⟩ := List.pairwise_cons.mp hd
    unfold insert
    split_ifs with hlt heq
    · refine List.pairwise_cons.mpr ⟨fun e' he' => ?_, hd⟩
      rcases List.mem_cons.mp he' with rfl | he'
      · exact hlt
      · exact List.lt_trans hlt (hall e' he')
    · refine List.pairwise_cons.mpr ⟨fun e' he' => ?_, hd'⟩
      exact heq ▸ hall e' he'
    · refine List.pairwise_cons.mpr ⟨fun e' he' => ?_, ih hd'⟩
      rcases mem_insert he' with rfl | he'
      · exact lt_of_not_lt hlt heq
      · exact hall e' he'

/-- Inserting a new name adds an entry. -/
theorem insert_perm {k : Str} {v : Value} {d : Dict} (hk : ∀ e ∈ d, e.1 ≠ k) :
    (d.insert k v).Perm ((k, v) :: d) := by
  induction d with
  | nil => exact List.Perm.refl _
  | cons e d ih =>
    unfold insert
    split_ifs with hlt heq
    · exact List.Perm.refl _
    · exact absurd heq.symm (hk e (by simp))
    · have hd := ih fun e' he' => hk e' (List.mem_cons_of_mem _ he')
      exact (hd.cons e).trans (List.Perm.swap (k, v) e d)

/-- Two dictionaries with the same entries are equal. -/
theorem eq_of_perm {d d' : Dict} (hd : d.Sorted) (hd' : d'.Sorted) (h : d.Perm d') : d = d' :=
  List.Perm.eq_of_pairwise (fun _ _ _ _ hab hba => absurd hba (List.lt_asymm hab)) hd hd' h

theorem Sorted.nodup {d : Dict} (hd : d.Sorted) : (d.map Prod.fst).Nodup := by
  refine List.pairwise_map.mpr (List.Pairwise.imp ?_ hd)
  intro a b hab heq
  rw [heq] at hab
  exact List.lt_irrefl _ hab

/-- Entries with different names are inserted one after the other. -/
theorem foldl_insert_perm {kvs : List (Str × Value)} {d : Dict} (hkvs : (kvs.map Prod.fst).Nodup)
    (hd : d.Sorted) (hdisj : ∀ e ∈ d, e.1 ∉ kvs.map Prod.fst) :
    (kvs.foldl (fun dic kv => dic.insert kv.1 kv.2) d).Sorted ∧
      (kvs.foldl (fun dic kv => dic.insert kv.1 kv.2) d).Perm (kvs ++ d) := by
  induction kvs generalizing d with
  | nil => exact ⟨hd, List.Perm.refl d⟩
  | cons kv kvs ih =>
    obtain ⟨hnot, hkvs'⟩ := List.nodup_cons.mp hkvs
    have hnew : ∀ e ∈ d, e.1 ≠ kv.1 := fun e he heq => hdisj e he (heq ▸ List.mem_cons_self)
    have hins := insert_perm (v := kv.2) hnew
    obtain ⟨hs, hp⟩ := ih hkvs' (sorted_insert hd kv.1 kv.2) (by
      intro e he
      rcases mem_insert he with rfl | he
      · exact hnot
      · exact fun h => hdisj e he (List.mem_cons_of_mem _ h))
    refine ⟨hs, hp.trans ?_⟩
    exact (hins.append_left kvs).trans List.perm_middle

end Config.Dict
