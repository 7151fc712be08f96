import DioMonitor.Lib.Best
import Mathlib.Algebra.BigOperators.Group.Finset.Basic
import Mathlib.Algebra.Order.Group.Defs
import Mathlib.Data.Fintype.BigOperators

/-!
# Best-fit placement

The script `bestfit.py` places processes into blocks: each process goes into the block with the least
room that suffices. The lengths `m` and `n` that `bestFit` takes are those of its two lists; the lists
are vectors of these lengths here.
-/

namespace BestFit

/-- The lists that `bestFit` works on. -/
structure Placement (α : Type*) (m n : ℕ) where
  /-- The capacities that are left. -/
  blockSize : Vector α m
  /-- The block of each process; `none` is the `-1` of the script. -/
  allocation : Vector (Option (Fin m)) n
  small : Vector ℕ m
  medium : Vector ℕ m
  large : Vector ℕ m
  all : Vector ℕ m

variable {α : Type*} {m n : ℕ}

def start (blockSize : Vector α m) : Placement α m n :=
  { blockSize
    allocation := Vector.replicate n none
    small := Vector.replicate m 0
    medium := Vector.replicate m 0
    large := Vector.replicate m 0
    all := Vector.replicate m 0 }

/-- One more process in the block `j`. -/
def count (v : Vector ℕ m) (j : Fin m) : Vector ℕ m := v.set j (v.get j + 1) j.isLt

section

variable [LinearOrder α]

/-- The inner loop: the block for a process of the given size. -/
def bestIdx (blockSize : Vector α m) (size : α) : Option (Fin m) :=
  (List.finRange m).foldl
    (fun bestIdx j =>
      if blockSize.get j ≥ size then
        match bestIdx with
        | none => some j
        | some b => if blockSize.get b > blockSize.get j then some j else some b
      else bestIdx)
    none

variable [AddCommGroup α]

/-- The counters of a block with one more process, which is the process `i`. -/
def countProcess (i : Fin n) (b : Fin m) (s : Placement α m n) : Placement α m n :=
  let s :=
    if i.val < 250 then { s with small := count s.small b }
    else if i.val < 300 then { s with medium := count s.medium b }
    else { s with large := count s.large b }
  { s with all := count s.all b }

/-- One turn of the outer loop. -/
def place (processSize : Vector α n) (s : Placement α m n) (i : Fin n) : Placement α m n :=
  match bestIdx s.blockSize (processSize.get i) with
  | none => s
  | some b =>
    countProcess i b
      { s with
        allocation := s.allocation.set i (some b) i.isLt
        blockSize := s.blockSize.set b (s.blockSize.get b - processSize.get i) b.isLt }

def bestFit (blockSize : Vector α m) (processSize : Vector α n) : Placement α m n :=
  (List.finRange n).foldl (place processSize) (start blockSize)

/-- The lists at the turn of the process `i`. -/
def atTurn (blockSize : Vector α m) (processSize : Vector α n) (i : Fin n) : Placement α m n :=
  ((List.finRange n).take i).foldl (place processSize) (start blockSize)

end

/-! ## Sound and tight placements -/

/-- The sum of the weights of the processes in the block `j`. -/
def load {β : Type*} [AddCommMonoid β] (w : Fin n → β) (allocation : Vector (Option (Fin m)) n)
    (j : Fin m) : β :=
  ∑ i with allocation.get i = some j, w i

/-- The block `j` has the least room that suffices, and is the first such block. -/
structure Tightest [LinearOrder α] (blockSize : Vector α m) (size : α) (j : Fin m) : Prop where
  fits : size ≤ blockSize.get j
  least : ∀ k : Fin m, size ≤ blockSize.get k → blockSize.get j ≤ blockSize.get k
  first : ∀ k : Fin m, k < j → size ≤ blockSize.get k → blockSize.get j < blockSize.get k

/-- What is expected of `bestFit`: `s` is what it leaves of the lists. -/
structure Sound [LinearOrder α] [AddCommGroup α] (blockSize : Vector α m) (processSize : Vector α n)
    (s : Placement α m n) : Prop where
  remaining : ∀ j : Fin m, s.blockSize.get j = blockSize.get j - load processSize.get s.allocation j
  nonneg : ∀ j : Fin m, 0 ≤ blockSize.get j → 0 ≤ s.blockSize.get j
  tight : ∀ (i : Fin n) (j : Fin m), s.allocation.get i = some j →
    Tightest (atTurn blockSize processSize i).blockSize (processSize.get i) j
  left : ∀ i : Fin n, s.allocation.get i = none →
    ∀ j : Fin m, (atTurn blockSize processSize i).blockSize.get j < processSize.get i ∧
      s.blockSize.get j < processSize.get i
  counters : ∀ j : Fin m, s.all.get j = s.small.get j + s.medium.get j + s.large.get j ∧
    s.all.get j = load (fun _ => 1) s.allocation j

end BestFit
