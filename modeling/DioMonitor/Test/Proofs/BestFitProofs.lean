import DioMonitor.Test.BestFit
import Mathlib.Algebra.BigOperators.Ring.Finset
import Mathlib.Algebra.Order.Group.Int
import Mathlib.Tactic.Abel

/-!
# Proofs: best-fit placement

Each turn places one process into the tightest block, or leaves it when no block has room. The accounts
of the blocks are kept from turn to turn (`Accounts.place`), and room never comes back.
-/

namespace BestFit

variable {α : Type*} {m n : ℕ}

/-! ## Lists -/

theorem get_set {β : Type*} {k : ℕ} (v : Vector β k) (i j : Fin k) (x : β) :
    (v.set i x i.isLt).get j = if i = j then x else v.get j :=
  (Vector.getElem_set i.isLt j.isLt).trans (if_congr Fin.ext_iff.symm rfl rfl)

@[simp] theorem get_replicate {β : Type*} {k : ℕ} (x : β) (i : Fin k) :
    (Vector.replicate k x).get i = x := Vector.getElem_replicate i.isLt

theorem get_count (v : Vector ℕ m) (b j : Fin m) :
    (count v b).get j = v.get j + if b = j then 1 else 0 := by
  rw [count, get_set]
  split_ifs with h
  · rw [h]
  · rfl

theorem load_none {β : Type*} [AddCommMonoid β] (w : Fin n → β) (j : Fin m) :
    load w (Vector.replicate n none) j = 0 := by
  simp [load]

/-- A process that is allocated adds its weight to the load of its block. -/
theorem load_set {β : Type*} [AddCommMonoid β] (w : Fin n → β)
    {allocation : Vector (Option (Fin m)) n} {i : Fin n} (hi : allocation.get i = none) (b j : Fin m) :
    load w (allocation.set i (some b) i.isLt) j = load w allocation j + if b = j then w i else 0 := by
  unfold load
  rw [Finset.sum_filter, Finset.sum_filter]
  have hsplit : ∀ k : Fin n, (if (allocation.set i (some b) i.isLt).get k = some j then w k else 0) =
      (if allocation.get k = some j then w k else 0) + if k = i then (if b = j then w i else 0) else 0 := by
    intro k
    rw [get_set]
    by_cases hk : k = i
    · subst hk
      simp [hi]
    · rw [if_neg (Ne.symm hk), if_neg hk, add_zero]
  rw [Finset.sum_congr rfl fun k _ => hsplit k, Finset.sum_add_distrib, Finset.sum_ite_eq' Finset.univ i,
    if_pos (Finset.mem_univ i)]

/-! ## One turn -/

section

variable [LinearOrder α]

theorem bestIdx_found (blockSize : Vector α m) (size : α) :
    Best.Found blockSize.get (fun j : Fin m => blockSize.get j ≥ size) (List.finRange m)
      (bestIdx blockSize size) := by
  have hloop : bestIdx blockSize size = (List.finRange m).foldl
      (Best.better blockSize.get fun j : Fin m => blockSize.get j ≥ size) none := by
    unfold bestIdx
    congr 1
    funext best j
    cases best with
    | none => rfl
    | some b => rfl
  rw [hloop]
  exact Best.found_foldl (List.finRange m)

/-- The inner loop finds no block when none has room. -/
theorem lt_of_bestIdx {blockSize : Vector α m} {size : α} (h : bestIdx blockSize size = none)
    (j : Fin m) : blockSize.get j < size := by
  have hfound := bestIdx_found blockSize size
  rw [h] at hfound
  exact not_le.mp (hfound j (List.mem_finRange j))

/-- The inner loop finds the first of the tightest blocks. -/
theorem tightest_of_bestIdx {blockSize : Vector α m} {size : α} {b : Fin m}
    (h : bestIdx blockSize size = some b) : Tightest blockSize size b := by
  have hfound := bestIdx_found blockSize size
  rw [h] at hfound
  obtain ⟨hfits, pre, post, hsplit, hpre, hpost⟩ := hfound
  have hmem : ∀ k, k ∈ pre ∨ k = b ∨ k ∈ post := by
    intro k
    have hk := List.mem_finRange k
    rw [hsplit] at hk
    simpa using hk
  refine { fits := hfits, least := ?_, first := ?_ }
  · intro k hk
    rcases hmem k with hkpre | rfl | hkpost
    · exact (hpre k hkpre hk).le
    · exact le_refl _
    · exact hpost k hkpost hk
  · intro k hlt hk
    have hsorted := List.pairwise_lt_finRange m
    rw [hsplit, List.pairwise_append, List.pairwise_cons] at hsorted
    rcases hmem k with hkpre | rfl | hkpost
    · exact hpre k hkpre hk
    · exact absurd hlt (lt_irrefl _)
    · exact absurd hlt (hsorted.2.1.1 k hkpost).not_gt

variable [AddCommGroup α] {processSize : Vector α n} {s : Placement α m n} {i : Fin n}

theorem place_none (h : bestIdx s.blockSize (processSize.get i) = none) : place processSize s i = s := by
  rw [place, h]

/-- What a turn does that places its process into the block `b`. -/
structure Placed (processSize : Vector α n) (s : Placement α m n) (i : Fin n) (b : Fin m)
    (s' : Placement α m n) : Prop where
  blockSize : s'.blockSize = s.blockSize.set b (s.blockSize.get b - processSize.get i) b.isLt
  allocation : s'.allocation = s.allocation.set i (some b) i.isLt
  all : s'.all = count s.all b
  parts : ∀ j : Fin m, s'.small.get j + s'.medium.get j + s'.large.get j =
    s.small.get j + s.medium.get j + s.large.get j + if b = j then 1 else 0

theorem place_some {b : Fin m} (h : bestIdx s.blockSize (processSize.get i) = some b) :
    Placed processSize s i b (place processSize s i) := by
  rw [place, h]
  unfold countProcess
  split_ifs
  all_goals refine ⟨rfl, rfl, rfl, fun j => ?_⟩
  all_goals simp only [get_count]
  all_goals omega

/-! ## All turns -/

/-- The accounts of the blocks, when the processes of `done` had their turn. -/
structure Accounts (blockSize : Vector α m) (processSize : Vector α n) (done : List (Fin n))
    (s : Placement α m n) : Prop where
  remaining : ∀ j : Fin m, s.blockSize.get j = blockSize.get j - load processSize.get s.allocation j
  waiting : ∀ i, i ∉ done → s.allocation.get i = none
  parts : ∀ j : Fin m, s.all.get j = s.small.get j + s.medium.get j + s.large.get j
  all : ∀ j : Fin m, s.all.get j = load (fun _ => 1) s.allocation j

omit [LinearOrder α] in
theorem accounts_start (blockSize : Vector α m) (processSize : Vector α n) :
    Accounts blockSize processSize [] (start blockSize) := by
  refine { remaining := fun j => ?_, waiting := fun i _ => ?_, parts := fun j => ?_, all := fun j => ?_ }
  · simp [start, load_none]
  · simp [start]
  · simp [start]
  · simp [start, load_none]

theorem Accounts.place {blockSize : Vector α m} {done : List (Fin n)}
    (h : Accounts blockSize processSize done s) (hi : i ∉ done) :
    Accounts blockSize processSize (done ++ [i]) (place processSize s i) := by
  have hwait := h.waiting i hi
  cases hbest : bestIdx s.blockSize (processSize.get i) with
  | none =>
    rw [place_none hbest]
    exact { h with waiting := fun k hk => h.waiting k fun hmem => hk (List.mem_append_left _ hmem) }
  | some b =>
    have hplaced := place_some hbest
    refine { remaining := fun j => ?_, waiting := fun k hk => ?_, parts := fun j => ?_, all := fun j => ?_ }
    · rw [hplaced.blockSize, hplaced.allocation, get_set, load_set _ hwait]
      split_ifs with hj
      · subst hj
        rw [h.remaining b]
        abel
      · rw [h.remaining j, add_zero]
    · rw [hplaced.allocation, get_set, if_neg fun hik => hk (by simp [hik])]
      exact h.waiting k fun hmem => hk (List.mem_append_left _ hmem)
    · rw [hplaced.all, get_count, hplaced.parts j, h.parts j]
    · rw [hplaced.all, hplaced.allocation, get_count, load_set _ hwait, h.all j]

theorem accounts_foldl {blockSize : Vector α m} {is : List (Fin n)} (hnd : is.Nodup) :
    Accounts blockSize processSize is (is.foldl (BestFit.place processSize) (start blockSize)) := by
  induction is using List.reverseRecOn with
  | nil => exact accounts_start blockSize processSize
  | append_singleton is i ih =>
    rw [List.foldl_append]
    rw [List.nodup_append] at hnd
    exact (ih hnd.1).place fun hi => hnd.2.2 i hi i List.mem_cons_self rfl

/-- The other turns leave the allocation of a process alone. -/
theorem allocation_foldl {is : List (Fin n)} {k : Fin n} (hk : k ∉ is) (s : Placement α m n) :
    (is.foldl (place processSize) s).allocation.get k = s.allocation.get k := by
  induction is generalizing s with
  | nil => rfl
  | cons i is ih =>
    obtain ⟨hki, hkis⟩ := not_or.mp (List.mem_cons.not.mp hk)
    rw [List.foldl_cons, ih hkis]
    cases hbest : bestIdx s.blockSize (processSize.get i) with
    | none => rw [place_none hbest]
    | some b => rw [(place_some hbest).allocation, get_set, if_neg (Ne.symm hki)]

/-- The processes before and after the process `i`. -/
theorem finRange_split (i : Fin n) :
    List.finRange n = (List.finRange n).take i ++ i :: (List.finRange n).drop (i + 1) := by
  have hdrop : (List.finRange n).drop i = i :: (List.finRange n).drop (i + 1) := by
    rw [List.drop_eq_getElem_cons (by simp), List.getElem_finRange]
    rfl
  rw [← hdrop, List.take_append_drop]

theorem bestFit_eq (blockSize : Vector α m) (processSize : Vector α n) (i : Fin n) :
    bestFit blockSize processSize = ((List.finRange n).drop (i + 1)).foldl (place processSize)
      (place processSize (atTurn blockSize processSize i) i) := by
  have hfold := congrArg (List.foldl (place processSize) (start blockSize)) (finRange_split i)
  rwa [List.foldl_append, List.foldl_cons] at hfold

/-- A process is allocated where the inner loop finds room at its turn. -/
theorem allocation_bestFit (blockSize : Vector α m) (processSize : Vector α n) (i : Fin n) :
    (bestFit blockSize processSize).allocation.get i =
      bestIdx (atTurn blockSize processSize i).blockSize (processSize.get i) := by
  have hnd := List.nodup_finRange n
  rw [finRange_split i, List.nodup_append, List.nodup_cons] at hnd
  obtain ⟨hbefore, ⟨hafter, -⟩, hdisj⟩ := hnd
  have hacc : Accounts blockSize processSize ((List.finRange n).take i)
      (atTurn blockSize processSize i) := accounts_foldl hbefore
  have hwait := hacc.waiting i fun hi => hdisj i hi i List.mem_cons_self rfl
  rw [bestFit_eq blockSize processSize i, allocation_foldl hafter]
  cases hbest : bestIdx (atTurn blockSize processSize i).blockSize (processSize.get i) with
  | none =>
    rw [place_none hbest]
    exact hwait
  | some b => rw [(place_some hbest).allocation, get_set, if_pos rfl]

variable [IsOrderedAddMonoid α]

/-- A turn takes room from the blocks, and no more than they have. -/
theorem place_room (hsize : 0 ≤ processSize.get i) (s : Placement α m n) (j : Fin m) :
    (place processSize s i).blockSize.get j ≤ s.blockSize.get j ∧
      (0 ≤ s.blockSize.get j → 0 ≤ (place processSize s i).blockSize.get j) := by
  cases hbest : bestIdx s.blockSize (processSize.get i) with
  | none =>
    rw [place_none hbest]
    exact ⟨le_refl _, id⟩
  | some b =>
    rw [(place_some hbest).blockSize, get_set]
    split_ifs with hj
    · subst hj
      exact ⟨sub_le_self _ hsize, fun _ => sub_nonneg.mpr (tightest_of_bestIdx hbest).fits⟩
    · exact ⟨le_refl _, id⟩

theorem foldl_room (hsize : ∀ i : Fin n, 0 ≤ processSize.get i) (is : List (Fin n))
    (s : Placement α m n) (j : Fin m) :
    (is.foldl (place processSize) s).blockSize.get j ≤ s.blockSize.get j ∧
      (0 ≤ s.blockSize.get j → 0 ≤ (is.foldl (place processSize) s).blockSize.get j) := by
  induction is generalizing s with
  | nil => exact ⟨le_refl _, id⟩
  | cons i is ih =>
    have hturn := place_room (hsize i) s j
    have hrest := ih (place processSize s i)
    exact ⟨hrest.1.trans hturn.1, fun h => hrest.2 (hturn.2 h)⟩

/-- `bestFit` keeps its accounts, places each process into the first of the tightest blocks, and leaves
one only when no block has room for it, then and at the end. -/
theorem bestFit_sound (blockSize : Vector α m) (processSize : Vector α n)
    (hsize : ∀ i : Fin n, 0 ≤ processSize.get i) :
    Sound blockSize processSize (bestFit blockSize processSize) := by
  have hacc : Accounts blockSize processSize (List.finRange n) (bestFit blockSize processSize) :=
    accounts_foldl (List.nodup_finRange n)
  refine
    { remaining := hacc.remaining
      nonneg := ?_
      tight := ?_
      left := ?_
      counters := fun j => ⟨hacc.parts j, hacc.all j⟩ }
  · intro j hj
    exact (foldl_room hsize _ (start blockSize) j).2 hj
  · intro i j hij
    rw [allocation_bestFit] at hij
    exact tightest_of_bestIdx hij
  · intro i hi j
    rw [allocation_bestFit] at hi
    have hturn := lt_of_bestIdx hi j
    refine ⟨hturn, ?_⟩
    rw [bestFit_eq blockSize processSize i, place_none hi]
    exact (foldl_room hsize _ _ j).1.trans_lt hturn

/-- Four processes and three blocks. -/
theorem bestFit_sound_four : Sound #v[5, 3, 4] #v[2, 3, 9, 4]
    (bestFit (#v[5, 3, 4] : Vector ℤ 3) (#v[2, 3, 9, 4] : Vector ℤ 4)) :=
  bestFit_sound _ _ (by decide)

end

end BestFit
