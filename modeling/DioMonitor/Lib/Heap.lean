import Mathlib

/-!
# Programs on a heap, and assertions about pieces of it

A heap gives cells to addresses. An assertion is about a piece of a heap; the product of two assertions
holds of a piece that can be split between them, so assertions are a commutative quantale. `Triple`
is about a program that is given the piece it needs and leaves the rest of the heap alone: its rules are
`bind`, `frame`, `conseq` and one for each operation on a cell.
-/

namespace Heap

variable {C ε α β : Type}

/-! ## Parts of a heap -/

/-- A piece of a heap: some addresses, with their cells. -/
abbrev Piece (C : Type) := ℕ → Option C

namespace Piece

variable {f g k : Piece C} {a : ℕ}

/-- No address is in both pieces. -/
def Separate (f g : Piece C) : Prop := ∀ a, f a = none ∨ g a = none

/-- Two pieces put together. -/
def union (f g : Piece C) : Piece C := fun a => (f a).or (g a)

/-- The piece with one cell. -/
def single (a : ℕ) (c : C) : Piece C := fun b => if b = a then some c else none

/-- A piece with the cell `c` at the address `a`. -/
def insert (f : Piece C) (a : ℕ) (c : C) : Piece C := fun b => if b = a then some c else f b

/-- A piece without the address `a`. -/
def erase (f : Piece C) (a : ℕ) : Piece C := fun b => if b = a then none else f b

theorem Separate.symm (h : Separate f g) : Separate g f := fun a => (h a).symm

theorem union_comm (h : Separate f g) : union f g = union g f := by
  funext a
  rcases h a with ha | ha
  · simp [union, ha]
  · simp [union, ha]

theorem union_assoc (f g k : Piece C) : union (union f g) k = union f (union g k) := by
  funext a
  exact Option.or_assoc

theorem union_eq_none : union f g a = none ↔ f a = none ∧ g a = none := Option.or_eq_none_iff

theorem separate_union_left : Separate (union f g) k ↔ Separate f k ∧ Separate g k := by
  constructor
  · intro h
    exact ⟨fun a => (h a).imp_left fun ha => (union_eq_none.mp ha).1,
      fun a => (h a).imp_left fun ha => (union_eq_none.mp ha).2⟩
  · rintro ⟨hf, hg⟩ a
    rcases hf a with ha | ha
    · exact (hg a).imp_left fun hb => union_eq_none.mpr ⟨ha, hb⟩
    · exact .inr ha

theorem separate_union_right : Separate f (union g k) ↔ Separate f g ∧ Separate f k := by
  constructor
  · intro h
    have h' := separate_union_left.mp h.symm
    exact ⟨h'.1.symm, h'.2.symm⟩
  · rintro ⟨hg, hk⟩
    exact (separate_union_left.mpr ⟨hg.symm, hk.symm⟩).symm

theorem insert_self (f : Piece C) (a : ℕ) (c : C) : f.insert a c a = some c := if_pos rfl

theorem erase_self (f : Piece C) (a : ℕ) : f.erase a a = none := if_pos rfl

/-- What `f` has at an address, `g` has there too. -/
def Sub (f g : Piece C) : Prop := ∀ a c, f a = some c → g a = some c

theorem Sub.refl (f : Piece C) : Sub f f := fun _ _ h => h

theorem Sub.trans (h : Sub f g) (h' : Sub g k) : Sub f k := fun a c ha => h' a c (h a c ha)

theorem Sub.union_left (f g : Piece C) : Sub f (f.union g) := by
  intro a c h
  simp [union, h]

theorem erase_sub (f : Piece C) (a : ℕ) : Sub (f.erase a) f := by
  intro b c h
  by_cases hb : b = a
  · rw [hb, erase_self] at h
    cases h
  · exact (if_neg hb).symm.trans h

theorem Sub.union_right (h : Separate f g) : Sub g (f.union g) := by
  rw [union_comm h]
  exact Sub.union_left g f

/-- A piece and what is left when it is taken out. -/
theorem Sub.exists_union (h : Sub f g) : ∃ k : Piece C, f.Separate k ∧ g = f.union k := by
  refine ⟨fun a => if f a = none then g a else none, ?_, ?_⟩
  · intro a
    by_cases ha : f a = none
    · exact .inl ha
    · exact .inr (if_neg ha)
  · funext a
    cases ha : f a with
    | none => simp [union, ha]
    | some c => simp [union, ha, h a c ha]

/-- The addresses of a piece. -/
def support (f : Piece C) : Set ℕ := {a | f a ≠ none}

theorem support_union (f g : Piece C) : (union f g).support = f.support ∪ g.support := by
  ext a
  simp only [support, Set.mem_ofPred_eq, Set.mem_union, ne_eq, union_eq_none, not_and_or]

theorem disjoint_support (h : Separate f g) : Disjoint f.support g.support := by
  rw [Set.disjoint_left]
  intro a hf hg
  exact (h a).elim hf hg

end Piece

/-! ## Assertions -/

/-- A property of a piece of a heap. -/
def Assertion (C : Type) : Type := Piece C → Prop

namespace Assertion

instance : CompleteLattice (Assertion C) := inferInstanceAs (CompleteLattice (Piece C → Prop))

/-- No cell at all. -/
instance : One (Assertion C) := ⟨fun f => ∀ a, f a = none⟩

/-- The piece splits into one with `P` and one with `Q`. -/
instance : Mul (Assertion C) :=
  ⟨fun P Q f => ∃ g k : Piece C, g.Separate k ∧ f = g.union k ∧ P g ∧ Q k⟩

variable {P F : Assertion C} {f g : Piece C} {a : ℕ} {c : C}

theorem one_iff : (1 : Assertion C) f ↔ f = fun _ => none := ⟨fun h => funext h, fun h => congrFun h⟩

private theorem iSup_apply_iff {ι : Sort*} (P : ι → Piece C → Prop) : (⨆ i, P i) f ↔ ∃ i, P i f := by
  rw [iSup_apply, iSup_Prop_eq]

theorem iSup_iff {ι : Sort*} {P : ι → Assertion C} : (⨆ i, P i) f ↔ ∃ i, P i f := iSup_apply_iff P

private theorem mul_comm' (P Q : Assertion C) : P * Q = Q * P := by
  funext f
  apply propext
  constructor
  · rintro ⟨g, k, hsep, rfl, hP, hQ⟩
    exact ⟨k, g, hsep.symm, Piece.union_comm hsep, hQ, hP⟩
  · rintro ⟨g, k, hsep, rfl, hQ, hP⟩
    exact ⟨k, g, hsep.symm, Piece.union_comm hsep, hP, hQ⟩

private theorem one_mul' (P : Assertion C) : 1 * P = P := by
  funext f
  apply propext
  constructor
  · rintro ⟨g, k, -, rfl, hg, hP⟩
    rw [one_iff.mp hg]
    exact hP
  · intro hP
    exact ⟨fun _ => none, f, fun _ => .inl rfl, rfl, fun _ => rfl, hP⟩

private theorem mul_assoc' (P Q R : Assertion C) : P * Q * R = P * (Q * R) := by
  funext f
  apply propext
  constructor
  · rintro ⟨_, k, hsep, rfl, ⟨g₁, g₂, hsep', rfl, hP, hQ⟩, hR⟩
    obtain ⟨h₁, h₂⟩ := Piece.separate_union_left.mp hsep
    exact ⟨g₁, g₂.union k, Piece.separate_union_right.mpr ⟨hsep', h₁⟩, Piece.union_assoc _ _ _, hP,
      g₂, k, h₂, rfl, hQ, hR⟩
  · rintro ⟨g, _, hsep, rfl, hP, k₁, k₂, hsep', rfl, hQ, hR⟩
    obtain ⟨h₁, h₂⟩ := Piece.separate_union_right.mp hsep
    exact ⟨g.union k₁, k₂, Piece.separate_union_left.mpr ⟨h₂, hsep'⟩, (Piece.union_assoc _ _ _).symm,
      ⟨g, k₁, h₁, rfl, hP, hQ⟩, hR⟩

instance : CommMonoid (Assertion C) where
  mul_assoc := mul_assoc'
  one_mul := one_mul'
  mul_one P := (mul_comm' P 1).trans (one_mul' P)
  mul_comm := mul_comm'

private theorem mul_sSup' (P : Assertion C) (s : Set (Assertion C)) : P * sSup s = ⨆ Q ∈ s, P * Q := by
  funext f
  apply propext
  rw [iSup_iff, sSup_eq_iSup]
  constructor
  · rintro ⟨g, k, hsep, rfl, hP, hk⟩
    obtain ⟨Q, hk⟩ := iSup_iff.mp hk
    obtain ⟨hQ, hk⟩ := iSup_iff.mp hk
    exact ⟨Q, iSup_iff.mpr ⟨hQ, g, k, hsep, rfl, hP, hk⟩⟩
  · rintro ⟨Q, hf⟩
    obtain ⟨hQ, g, k, hsep, rfl, hP, hk⟩ := iSup_iff.mp hf
    exact ⟨g, k, hsep, rfl, hP, iSup_iff.mpr ⟨Q, iSup_iff.mpr ⟨hQ, hk⟩⟩⟩

instance : IsQuantale (Assertion C) where
  mul_sSup_distrib := mul_sSup'
  sSup_mul_distrib s Q := by
    rw [mul_comm, mul_sSup']
    simp only [mul_comm]

/-- The piece is the cell `c` at the address `a`. -/
def pointsTo (a : ℕ) (c : C) : Assertion C := fun f => f = Piece.single a c

/-- A cell in front of an assertion: it is there, and the other addresses satisfy the assertion. -/
theorem pointsTo_mul_iff : (pointsTo a c * F) f ↔ f a = some c ∧ F (f.erase a) := by
  constructor
  · rintro ⟨g, k, hsep, rfl, rfl, hF⟩
    have hk : k a = none := (hsep a).resolve_left (by simp [Piece.single])
    have herase : ((Piece.single a c).union k).erase a = k := by
      funext b
      by_cases hb : b = a
      · simp [Piece.erase, hb, hk]
      · simp [Piece.erase, Piece.union, Piece.single, hb]
    rw [herase]
    exact ⟨by simp [Piece.union, Piece.single], hF⟩
  · rintro ⟨hc, hF⟩
    refine ⟨Piece.single a c, f.erase a, ?_, ?_, rfl, hF⟩
    · intro b
      by_cases hb : b = a
      · exact .inr (hb ▸ Piece.erase_self f a)
      · exact .inl (if_neg hb)
    · funext b
      by_cases hb : b = a
      · simp [Piece.union, Piece.single, hb, hc]
      · simp [Piece.union, Piece.single, Piece.erase, hb]

theorem pointsTo_mul_insert (h : F (f.erase a)) : (pointsTo a c * F) (f.insert a c) := by
  refine pointsTo_mul_iff.mpr ⟨Piece.insert_self f a c, ?_⟩
  have herase : (f.insert a c).erase a = f.erase a := by
    funext b
    by_cases hb : b = a
    · simp [Piece.erase, hb]
    · simp [Piece.erase, Piece.insert, hb]
  exact herase ▸ h

theorem mul_top_mono (h : (P * ⊤) f) (hfg : f.Sub g) : (P * ⊤) g := by
  obtain ⟨k, hsep, rfl⟩ := hfg.exists_union
  obtain ⟨f₁, f₂, hsep', rfl, hP, -⟩ := h
  obtain ⟨h₁, -⟩ := Piece.separate_union_left.mp hsep
  exact ⟨f₁, f₂.union k, Piece.separate_union_right.mpr ⟨hsep', h₁⟩, Piece.union_assoc f₁ f₂ k, hP,
    trivial⟩

/-- The piece is `g` and nothing else. -/
def exact (g : Piece C) : Assertion C := fun f => f = g

theorem exact_le {g : Piece C} (h : P g) : exact g ≤ P := by
  rintro f rfl
  exact h

/-- A piece beside any other. -/
theorem mul_top_of_mul (h : (P * F) f) : (P * ⊤) f := mul_le_mul_right le_top P f h

theorem top_mul_of_mul (h : (P * F) f) : (⊤ * F) f := mul_le_mul_left le_top F f h

/-- What is at an address of a piece is there in the heap. -/
theorem exact_mul_apply {g : Piece C} (h : (exact g * F) f) (hg : g a = some c) : f a = some c := by
  obtain ⟨_, k, -, rfl, rfl, -⟩ := h
  simp [Piece.union, hg]

/-- A condition on an assertion that stands beside another one. -/
theorem guard_mul {p : Prop} : (⨆ _ : p, P) * F = ⨆ _ : p, P * F := by
  by_cases hp : p
  · simp only [iSup_pos hp]
  · simp only [iSup_neg hp, Quantale.bot_mul]

theorem guard_mul_iff {p : Prop} : ((⨆ _ : p, P) * F) f ↔ p ∧ (P * F) f := by
  rw [guard_mul, iSup_iff]
  exact exists_prop

end Assertion

/-! ## Programs -/

/-- A heap: cells at some addresses. No address from `next` on has been given out. -/
structure State (C : Type) where
  cells : Piece C
  next : ℕ
  fresh : ∀ a, next ≤ a → cells a = none

namespace State

/-- The heap without a cell. -/
def empty : State C := ⟨fun _ => none, 0, fun _ _ => rfl⟩

theorem lt_next {h : State C} {a : ℕ} (ha : (h.cells a).isSome) : a < h.next := by
  by_contra hle
  rw [h.fresh a (Nat.le_of_not_lt hle)] at ha
  cases ha

/-- The heap with another cell at the next address. -/
def alloc (h : State C) (c : C) : State C where
  cells := h.cells.insert h.next c
  next := h.next + 1
  fresh a ha := by
    have hne : a ≠ h.next := by omega
    exact (if_neg hne).trans (h.fresh a (by omega))

/-- The heap with another cell at an address in use. -/
def store (h : State C) (a : ℕ) (c : C) (ha : (h.cells a).isSome) : State C where
  cells := h.cells.insert a c
  next := h.next
  fresh b hb := by
    have hne : b ≠ a := by
      have := lt_next ha
      omega
    exact (if_neg hne).trans (h.fresh b hb)

/-- The heap without the cell at an address. -/
def dealloc (h : State C) (a : ℕ) : State C where
  cells := h.cells.erase a
  next := h.next
  fresh b hb := by
    by_cases hba : b = a
    · exact if_pos hba
    · exact (if_neg hba).trans (h.fresh b hb)

end State

/-- A program that uses a heap and may fail; a failure does not undo what was done before. -/
abbrev Prog (C ε α : Type) := ExceptT ε (StateM (State C)) α

/-- A new cell, at an address that was never used. -/
def alloc (c : C) : Prog C ε ℕ := fun h => (.ok h.next, h.alloc c)

section Access

-- The failure of an access to an address without a cell.
variable (u : ε)

/-- The cell at an address. -/
def load (a : ℕ) : Prog C ε C := fun h =>
  match h.cells a with
  | some c => (.ok c, h)
  | none => (.error u, h)

/-- Another cell at an address. -/
def store (a : ℕ) (c : C) : Prog C ε Unit := fun h =>
  if ha : (h.cells a).isSome then (.ok (), h.store a c ha) else (.error u, h)

/-- The cell at an address is given back. -/
def dealloc (a : ℕ) : Prog C ε Unit := fun h =>
  if (h.cells a).isSome then (.ok (), h.dealloc a) else (.error u, h)

end Access

section Runs

variable {m : Prog C ε α} {f : α → Prog C ε β} {h h' : State C}

theorem bind_ok {a : α} (hm : m h = (.ok a, h')) : (m >>= f) h = f a h' := by
  show (ExceptT.bindCont f (m h).1) (m h).2 = f a h'
  rw [hm]
  rfl

theorem bind_error {e : ε} (hm : m h = (.error e, h')) : (m >>= f) h = (.error e, h') := by
  show (ExceptT.bindCont f (m h).1) (m h).2 = _
  rw [hm]
  rfl

end Runs

/-! ## Triples -/

/-- Started where `P` holds of a piece of the heap, `m` ends where `Q` holds of that piece's successor,
whatever the rest of the heap is; the rest is as before. -/
def Triple (P : Assertion C) (m : Prog C ε α) (Q : Except ε α → Assertion C) : Prop :=
  ∀ (F : Assertion C) (h : State C), (P * F) h.cells → (Q (m h).1 * F) (m h).2.cells

/-- The postcondition of a program that does not fail. -/
def returns (Q : α → Assertion C) : Except ε α → Assertion C
  | .ok a => Q a
  | .error _ => ⊥

namespace Triple

variable {P P' F : Assertion C} {m : Prog C ε α} {f : α → Prog C ε β} {Q Q' : Except ε α → Assertion C}
  {R : α → Assertion C} {S : Except ε β → Assertion C} {a : ℕ} {c d : C} {u : ε}

theorem conseq (h : Triple P' m Q') (hP : P ≤ P') (hQ : ∀ r, Q' r ≤ Q r) : Triple P m Q := by
  intro F s hs
  have hs' : (P' * F) s.cells := mul_le_mul_left hP F _ hs
  exact mul_le_mul_left (hQ _) F _ (h F s hs')

theorem frame (h : Triple P m Q) (F : Assertion C) : Triple (P * F) m fun r => Q r * F := by
  intro G s hs
  rw [mul_assoc] at hs ⊢
  exact h (F * G) s hs

/-- The run of a program that does not fail. -/
theorem run_returns (h : Triple P m (returns R)) {s : State C} (hs : (P * F) s.cells) :
    ∃ a s', m s = (.ok a, s') ∧ (R a * F) s'.cells := by
  have hs' := h F s hs
  rcases hr : m s with ⟨e | a, s'⟩
  · rw [hr] at hs'
    have hbot : (⊥ * F : Assertion C) s'.cells := hs'
    rw [Quantale.bot_mul] at hbot
    exact hbot.elim
  · rw [hr] at hs'
    exact ⟨a, s', rfl, hs'⟩

theorem frame_returns (h : Triple P m (returns R)) (F : Assertion C) :
    Triple (P * F) m (returns fun a => R a * F) := by
  refine (h.frame F).conseq le_rfl ?_
  rintro (e | a)
  · exact Quantale.bot_mul.le
  · exact le_rfl

theorem frame_left (h : Triple P m (returns R)) (F : Assertion C) :
    Triple (F * P) m (returns fun a => F * R a) := by
  simp only [mul_comm F]
  exact h.frame_returns F

theorem iSup {ι : Sort*} {P : ι → Assertion C} (h : ∀ i, Triple (P i) m Q) : Triple (⨆ i, P i) m Q := by
  intro F s hs
  obtain ⟨g, k, hsep, hs, hP, hF⟩ := hs
  obtain ⟨i, hi⟩ := Assertion.iSup_iff.mp hP
  exact h i F s ⟨g, k, hsep, hs, hi, hF⟩

theorem of_bot : Triple ⊥ m Q := by
  intro F s hs
  rw [Quantale.bot_mul] at hs
  exact hs.elim

/-- What the precondition says beyond the cells. -/
theorem assume {p : Prop} (hp : ∀ f, P f → p) (h : p → Triple P m Q) : Triple P m Q := by
  intro F s hs
  obtain ⟨f, -, -, -, hf, -⟩ := id hs
  exact h (hp f hf) F s hs

theorem pure {a : α} (h : P ≤ Q (.ok a)) : Triple P (Pure.pure a : Prog C ε α) Q :=
  fun F _ hs => mul_le_mul_left h F _ hs

theorem throw {e : ε} (h : P ≤ Q (.error e)) : Triple P (MonadExcept.throw e : Prog C ε α) Q :=
  fun F _ hs => mul_le_mul_left h F _ hs

theorem bind (hm : Triple P m Q) (hf : ∀ a, Triple (Q (.ok a)) (f a) S)
    (he : ∀ e, Q (.error e) ≤ S (.error e)) : Triple P (m >>= f) S := by
  intro F s hs
  have hs' := hm F s hs
  rcases hr : m s with ⟨e | a, s'⟩
  · rw [hr] at hs'
    rw [bind_error hr]
    exact mul_le_mul_left (he e) F _ hs'
  · rw [hr] at hs'
    rw [bind_ok hr]
    exact hf a F s' hs'

/-- A program after one that does not fail. -/
theorem bind_returns (hm : Triple P m (returns R)) (hf : ∀ a, Triple (R a) (f a) S) :
    Triple P (m >>= f) S :=
  hm.bind hf fun _ => bot_le

/-- A program after one that reads what the precondition tells. -/
theorem bind_reads {b : α} (hm : ∀ (F : Assertion C) (s : State C), (P * F) s.cells → m s = (.ok b, s))
    (hf : Triple P (f b) S) : Triple P (m >>= f) S := by
  intro F s hs
  rw [bind_ok (hm F s hs)]
  exact hf F s hs

/-- A loop: the body for the first element, and then the rest. -/
theorem forM_cons {γ : Type} {x : γ} {xs : List γ} {f : γ → Prog C ε Unit} {Q : Except ε PUnit → Assertion C}
    (hx : Triple P (f x) (returns fun _ => P')) (hxs : Triple P' (xs.forM f) Q) :
    Triple P ((x :: xs).forM f) Q :=
  bind_returns hx fun _ => hxs

theorem alloc (c : C) : Triple 1 (alloc c : Prog C ε ℕ) (returns fun a => Assertion.pointsTo a c) := by
  intro F s hs
  rw [one_mul] at hs
  refine Assertion.pointsTo_mul_insert ?_
  have herase : s.cells.erase s.next = s.cells := by
    funext b
    by_cases hb : b = s.next
    · simp [Piece.erase, hb, s.fresh]
    · simp [Piece.erase, hb]
  rw [herase]
  exact hs

theorem load_run {s : State C} (h : s.cells a = some c) : load u a s = (.ok c, s) := by
  unfold load
  rw [h]

theorem store : Triple (Assertion.pointsTo a c) (store u a d)
    (returns fun _ => Assertion.pointsTo a d) := by
  intro F s hs
  obtain ⟨ha, hF⟩ := Assertion.pointsTo_mul_iff.mp hs
  have hsome : (s.cells a).isSome := by rw [ha]; rfl
  have hrun : Heap.store u a d s = (.ok (), s.store a d hsome) := dif_pos hsome
  rw [hrun]
  exact Assertion.pointsTo_mul_insert hF

theorem dealloc : Triple (Assertion.pointsTo a c) (dealloc u a) (returns fun _ => 1) := by
  intro F s hs
  obtain ⟨ha, hF⟩ := Assertion.pointsTo_mul_iff.mp hs
  have hsome : (s.cells a).isSome := by rw [ha]; rfl
  have hrun : Heap.dealloc u a s = (.ok (), s.dealloc a) := if_pos hsome
  rw [hrun]
  exact (one_mul F).symm ▸ hF

end Triple

end Heap
