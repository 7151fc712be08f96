import DioMonitor.Lib.Assoc
import Mathlib.Order.Defs.Unbundled

/-!
# Maps that keep their keys in order

The entries of an ordered map are in increasing order of the keys, each key once. `insertEntry` is where
a new entry goes; at a key that is there already it takes the place of the old entry.
-/

variable {κ α : Type} [LT κ]

/-- Entries in increasing order of the keys. -/
structure OrderedMap (κ α : Type) [LT κ] where
  entries : List (κ × α)
  sorted : entries.Pairwise fun x y => x.1 < y.1

namespace OrderedMap

/-- The map without entries. -/
def empty : OrderedMap κ α := ⟨[], List.Pairwise.nil⟩

variable [DecidableLT κ] [DecidableEq κ]

/-- The entries after `m[k] = a`. -/
def insertEntry (k : κ) (a : α) : List (κ × α) → List (κ × α)
  | [] => [(k, a)]
  | (k', b) :: d =>
    if k < k' then (k, a) :: (k', b) :: d
    else if k = k' then (k, a) :: d
    else (k', b) :: insertEntry k a d

variable {d : List (κ × α)} {k k' : κ} {a : α} {x : κ × α}

theorem mem_insertEntry (h : x ∈ insertEntry k a d) : x = (k, a) ∨ x ∈ d := by
  induction d with
  | nil => exact .inl (List.mem_singleton.mp h)
  | cons y d ih =>
    unfold insertEntry at h
    split_ifs at h
    · exact List.mem_cons.mp h
    · exact (List.mem_cons.mp h).imp_right (List.mem_cons_of_mem y)
    · rcases List.mem_cons.mp h with rfl | h
      · exact .inr List.mem_cons_self
      · exact (ih h).imp_right (List.mem_cons_of_mem y)

section Sorted

variable [IsTrans κ fun x y => x < y] [Std.Trichotomous fun x y : κ => x < y]

theorem sorted_insertEntry (hd : d.Pairwise fun x y => x.1 < y.1) (k : κ) (a : α) :
    (insertEntry k a d).Pairwise fun x y => x.1 < y.1 := by
  induction d with
  | nil => exact List.pairwise_singleton _ _
  | cons y d ih =>
    obtain ⟨hall, hd'⟩ := List.pairwise_cons.mp hd
    unfold insertEntry
    split_ifs with hlt heq
    · refine List.pairwise_cons.mpr ⟨?_, hd⟩
      intro z hz
      rcases List.mem_cons.mp hz with rfl | hz
      · exact hlt
      · exact IsTrans.trans _ _ _ hlt (hall z hz)
    · refine List.pairwise_cons.mpr ⟨?_, hd'⟩
      intro z hz
      exact heq ▸ hall z hz
    · refine List.pairwise_cons.mpr ⟨?_, ih hd'⟩
      intro z hz
      rcases mem_insertEntry hz with rfl | hz
      · by_contra hzk
        exact heq (Std.Trichotomous.trichotomous _ _ hlt hzk)
      · exact hall z hz

/-- `m[k] = a`. -/
def insert (m : OrderedMap κ α) (k : κ) (a : α) : OrderedMap κ α :=
  ⟨insertEntry k a m.entries, sorted_insertEntry m.sorted k a⟩

/-- The value of a key. -/
def find (m : OrderedMap κ α) (k : κ) : Option α := Assoc.get m.entries k

/-- `m.emplace (k, a)`: nothing happens when the key is there. -/
def emplace (m : OrderedMap κ α) (k : κ) (a : α) : OrderedMap κ α :=
  match m.find k with
  | some _ => m
  | none => m.insert k a

end Sorted

end OrderedMap
