import DioMonitor.Utils.ConfigCalls
import DioMonitor.Utils.Proofs.ConfigProofs

/-!
# Proofs: objects that hold values

`owns v p` is the part of the heap that the object at `p` is made of when it holds the value `v`: its own
cell and those of its elements, all the way down, no two of them the same. `Holds` says that such a part
is somewhere in the heap, which is what reading needs.
-/

namespace ConfigHeap

open Config Heap

mutual

/-- The cells of the object at `p`, which holds the value. -/
def owns : Value → Addr → Assertion Cell
  | .int i, p => .pointsTo p (.long i)
  | .float x, p => .pointsTo p (.float x)
  | .string s, p => .pointsTo p (.string s)
  | .bool b, p => .pointsTo p (.bool b)
  | .array vs, p => ⨆ content : List (Ty × Addr), .pointsTo p (.array content) * ownsArray vs content
  | .dict kvs, p =>
    ⨆ content : OrderedMap Str (Ty × Addr), .pointsTo p (.dict content) * ownsDict kvs content.entries

/-- The cells of the elements of an array. -/
def ownsArray : List Value → List (Ty × Addr) → Assertion Cell
  | [], [] => 1
  | v :: vs, (type, p) :: content => (⨆ _ : type = v.type, owns v p) * ownsArray vs content
  | _, _ => ⊥

/-- The cells of the values of a dictionary. -/
def ownsDict : List (Str × Value) → List (Str × Ty × Addr) → Assertion Cell
  | [], [] => 1
  | (k, v) :: kvs, (name, type, p) :: content =>
    (⨆ _ : name = k ∧ type = v.type, owns v p) * ownsDict kvs content
  | _, _ => ⊥

end

theorem ownsArray_nil : ownsArray [] [] = 1 := by rw [ownsArray]

theorem ownsArray_nil_cons (x : Ty × Addr) (content : List (Ty × Addr)) :
    ownsArray [] (x :: content) = ⊥ := by
  rw [ownsArray] <;> simp

theorem ownsArray_cons_nil (v : Value) (vs : List Value) : ownsArray (v :: vs) [] = ⊥ := by
  rw [ownsArray] <;> simp

theorem ownsArray_cons (v : Value) (vs : List Value) (x : Ty × Addr) (content : List (Ty × Addr)) :
    ownsArray (v :: vs) (x :: content) = (⨆ _ : x.1 = v.type, owns v x.2) * ownsArray vs content := by
  rw [ownsArray]

theorem ownsDict_nil : ownsDict [] [] = 1 := by rw [ownsDict]

theorem ownsDict_nil_cons (x : Str × Ty × Addr) (content : List (Str × Ty × Addr)) :
    ownsDict [] (x :: content) = ⊥ := by
  rw [ownsDict] <;> simp

theorem ownsDict_cons_nil (kv : Str × Value) (kvs : List (Str × Value)) :
    ownsDict (kv :: kvs) [] = ⊥ := by
  rw [ownsDict] <;> simp

theorem ownsDict_cons (kv : Str × Value) (kvs : List (Str × Value)) (x : Str × Ty × Addr)
    (content : List (Str × Ty × Addr)) : ownsDict (kv :: kvs) (x :: content) =
      (⨆ _ : x.1 = kv.1 ∧ x.2.1 = kv.2.type, owns kv.2 x.2.2) * ownsDict kvs content := by
  rw [ownsDict]

/-- In some part of `g` the object at `p` holds the value. -/
def Holds (g : Piece Cell) (v : Value) (p : Addr) : Prop := (owns v p * ⊤) g

theorem find_cons (k : Str) (v : Value) (d : Dict) (name : Str) :
    Dict.find ((k, v) :: d) name = if name = k then some v else d.find name := by
  unfold Dict.find
  rw [List.lookup_cons]
  by_cases hname : name = k
  · simp [hname]
  · rw [if_neg hname, beq_eq_false_iff_ne.mpr hname]

namespace Holds

variable {f g : Piece Cell} {v : Value} {vs : List Value} {d : Dict} {p q : Addr}

theorem int {i : ℤ} (h : Holds g (.int i) p) : g p = some (.long i) := by
  unfold Holds owns at h
  exact (Assertion.pointsTo_mul_iff.mp h).1

theorem float {x : FloatVal} (h : Holds g (.float x) p) : g p = some (.float x) := by
  unfold Holds owns at h
  exact (Assertion.pointsTo_mul_iff.mp h).1

theorem string {s : Str} (h : Holds g (.string s) p) : g p = some (.string s) := by
  unfold Holds owns at h
  exact (Assertion.pointsTo_mul_iff.mp h).1

theorem bool {b : Bool} (h : Holds g (.bool b) p) : g p = some (.bool b) := by
  unfold Holds owns at h
  exact (Assertion.pointsTo_mul_iff.mp h).1

/-- The elements of an array. -/
theorem of_ownsArray {content : List (Ty × Addr)} (h : (ownsArray vs content * ⊤) g) :
    List.Forall₂ (fun v x => x.1 = v.type ∧ Holds g v x.2) vs content := by
  induction vs generalizing content with
  | nil =>
    cases content with
    | nil => exact List.Forall₂.nil
    | cons x content =>
      rw [ownsArray_nil_cons, Quantale.bot_mul] at h
      exact h.elim
  | cons v vs ih =>
    cases content with
    | nil =>
      rw [ownsArray_cons_nil, Quantale.bot_mul] at h
      exact h.elim
    | cons x content =>
      rw [ownsArray_cons, mul_assoc, Assertion.guard_mul_iff] at h
      obtain ⟨htype, h⟩ := h
      refine List.Forall₂.cons ⟨htype, Assertion.mul_top_of_mul h⟩ (ih ?_)
      rw [mul_left_comm] at h
      exact Assertion.mul_top_of_mul h

/-- The entries of a dictionary. -/
theorem of_ownsDict {content : List (Str × Ty × Addr)} (h : (ownsDict d content * ⊤) g) :
    List.Forall₂ (fun kv x => (x.1 = kv.1 ∧ x.2.1 = kv.2.type) ∧ Holds g kv.2 x.2.2) d content := by
  induction d generalizing content with
  | nil =>
    cases content with
    | nil => exact List.Forall₂.nil
    | cons x content =>
      rw [ownsDict_nil_cons, Quantale.bot_mul] at h
      exact h.elim
  | cons kv d ih =>
    cases content with
    | nil =>
      rw [ownsDict_cons_nil, Quantale.bot_mul] at h
      exact h.elim
    | cons x content =>
      rw [ownsDict_cons, mul_assoc, Assertion.guard_mul_iff] at h
      obtain ⟨hx, h⟩ := h
      refine List.Forall₂.cons ⟨hx, Assertion.mul_top_of_mul h⟩ (ih ?_)
      rw [mul_left_comm] at h
      exact Assertion.mul_top_of_mul h

theorem names_eq {content : List (Str × Ty × Addr)}
    (h : List.Forall₂ (fun kv x => (x.1 = kv.1 ∧ x.2.1 = kv.2.type) ∧ Holds g kv.2 x.2.2) d content) :
    content.map Prod.fst = d.map Prod.fst := by
  induction h with
  | nil => rfl
  | cons hx _ ih => rw [List.map_cons, List.map_cons, ih, hx.1.1]

/-- What the two maps of a dictionary find for a name, and its value. -/
theorem get_entries {content : List (Str × Ty × Addr)} (name : Str)
    (h : List.Forall₂ (fun kv x => (x.1 = kv.1 ∧ x.2.1 = kv.2.type) ∧ Holds g kv.2 x.2.2) d content) :
    (d.find name = none ∧ Assoc.get content name = none) ∨
      ∃ v p, d.find name = some v ∧ Assoc.get content name = some (v.type, p) ∧ Holds g v p := by
  induction h with
  | nil => exact .inl ⟨rfl, rfl⟩
  | @cons kv x d content hx _ ih =>
    obtain ⟨k, v⟩ := kv
    obtain ⟨k', type, p⟩ := x
    dsimp only at hx
    obtain ⟨⟨rfl, rfl⟩, hv⟩ := hx
    rw [find_cons]
    by_cases hname : name = k'
    · subst hname
      rw [if_pos rfl, Assoc.get_cons_self]
      exact .inr ⟨v, p, rfl, rfl, hv⟩
    · rw [if_neg hname, Assoc.get_cons_other _ _ (Ne.symm hname)]
      exact ih

theorem mono (h : Holds f v p) (hfg : f.Sub g) : Holds g v p := Assertion.mul_top_mono h hfg

/-- What a part of the object at `q` holds, or the object itself. -/
theorem of_part {c : Prop} [Decidable c] (h : Holds (if c then g else g.erase q) v p) : Holds g v p := by
  by_cases hc : c
  · rw [if_pos hc] at h
    exact h
  · rw [if_neg hc] at h
    exact h.mono (g.erase_sub q)

theorem array (h : Holds g (.array vs) p) : ∃ content, g p = some (.array content) ∧
    List.Forall₂ (fun v x => x.1 = v.type ∧ Holds g v x.2) vs content := by
  unfold Holds owns at h
  rw [Quantale.iSup_mul_distrib, Assertion.iSup_iff] at h
  obtain ⟨content, h⟩ := h
  rw [mul_assoc] at h
  refine ⟨content, (Assertion.pointsTo_mul_iff.mp h).1, of_ownsArray ?_⟩
  rw [mul_left_comm] at h
  exact Assertion.mul_top_of_mul h

/-- The values of a dictionary are apart from the dictionary itself. -/
theorem dict_parts (h : Holds g (.dict d) p) : ∃ content, g p = some (.dict content) ∧
    List.Forall₂ (fun kv x => (x.1 = kv.1 ∧ x.2.1 = kv.2.type) ∧ Holds (g.erase p) kv.2 x.2.2) d
      content.entries := by
  unfold Holds owns at h
  rw [Quantale.iSup_mul_distrib, Assertion.iSup_iff] at h
  obtain ⟨content, h⟩ := h
  rw [mul_assoc] at h
  obtain ⟨hcell, hrest⟩ := Assertion.pointsTo_mul_iff.mp h
  exact ⟨content, hcell, of_ownsDict hrest⟩

theorem dict (h : Holds g (.dict d) p) : ∃ content, g p = some (.dict content) ∧
    List.Forall₂ (fun kv x => (x.1 = kv.1 ∧ x.2.1 = kv.2.type) ∧ Holds g kv.2 x.2.2) d
      content.entries := by
  obtain ⟨content, hcell, hall⟩ := h.dict_parts
  exact ⟨content, hcell, hall.imp fun _ _ hx => ⟨hx.1, hx.2.mono (g.erase_sub p)⟩⟩

theorem ne_none (h : Holds g v p) : g p ≠ none := by
  cases v with
  | int i => rw [h.int]; exact Option.some_ne_none _
  | float x => rw [h.float]; exact Option.some_ne_none _
  | string s => rw [h.string]; exact Option.some_ne_none _
  | bool b => rw [h.bool]; exact Option.some_ne_none _
  | array vs =>
    obtain ⟨content, hcell, -⟩ := h.array
    rw [hcell]
    exact Option.some_ne_none _
  | dict d =>
    obtain ⟨content, hcell, -⟩ := h.dict
    rw [hcell]
    exact Option.some_ne_none _

theorem sorted (h : Holds g (.dict d) p) : d.Sorted := by
  obtain ⟨content, -, hall⟩ := h.dict
  have hnames : content.entries.map Prod.fst = d.map Prod.fst := names_eq hall
  have hsorted : (content.entries.map Prod.fst).Pairwise (· < ·) := List.pairwise_map.mpr content.sorted
  rw [hnames] at hsorted
  exact List.pairwise_map.mp hsorted

end Holds

/-! ## Sizes -/

mutual

/-- How many objects a value takes. -/
def valueSize : Value → ℕ
  | .array vs => 1 + arraySize vs
  | .dict kvs => 1 + dictSize kvs
  | _ => 1

def arraySize : List Value → ℕ
  | [] => 0
  | v :: vs => valueSize v + arraySize vs

def dictSize : List (Str × Value) → ℕ
  | [] => 0
  | (_, v) :: kvs => valueSize v + dictSize kvs

end

theorem valueSize_le_arraySize {v : Value} {vs : List Value} (h : v ∈ vs) : valueSize v ≤ arraySize vs := by
  induction vs with
  | nil => cases h
  | cons w vs ih =>
    rw [arraySize]
    rcases List.mem_cons.mp h with rfl | h
    · omega
    · have := ih h
      omega

theorem valueSize_le_dictSize {kv : Str × Value} {kvs : List (Str × Value)} (h : kv ∈ kvs) :
    valueSize kv.2 ≤ dictSize kvs := by
  induction kvs with
  | nil => cases h
  | cons w kvs ih =>
    rw [dictSize]
    rcases List.mem_cons.mp h with rfl | h
    · omega
    · have := ih h
      omega

theorem valueSize_le_of_find {v : Value} {d : Dict} {name : Str} (h : d.find name = some v) :
    valueSize v ≤ dictSize d := by
  induction d with
  | nil => cases h
  | cons kv d ih =>
    obtain ⟨k, w⟩ := kv
    rw [find_cons] at h
    rw [dictSize]
    by_cases hname : name = k
    · rw [if_pos hname] at h
      cases h
      omega
    · rw [if_neg hname] at h
      have := ih h
      omega

theorem valueSize_pos (v : Value) : 0 < valueSize v := by
  cases v <;> simp only [valueSize] <;> omega

section Encard

variable {g : Piece Cell}

theorem encard_mul {P Q : Assertion Cell} {a b : ℕ} (hP : ∀ f, P f → f.support.encard = a)
    (hQ : ∀ f, Q f → f.support.encard = b) (h : (P * Q) g) : g.support.encard = (a + b : ℕ) := by
  obtain ⟨f, k, hsep, rfl, hf, hk⟩ := h
  rw [Piece.support_union, Set.encard_union_eq (Piece.disjoint_support hsep), hP f hf, hQ k hk]
  push_cast
  rfl

theorem encard_pointsTo {p : Addr} {c : Cell} (h : Assertion.pointsTo p c g) :
    g.support.encard = (1 : ℕ) := by
  have hsupport : g.support = {p} := by
    ext a
    rw [h]
    simp [Piece.support, Piece.single]
  rw [hsupport]
  exact Set.encard_singleton p

mutual

/-- A value takes as many cells as it has objects. -/
theorem encard_owns {v : Value} {p : Addr} {g : Piece Cell} (h : owns v p g) :
    g.support.encard = valueSize v := by
  cases v with
  | int i =>
    rw [owns] at h
    exact encard_pointsTo h
  | float x =>
    rw [owns] at h
    exact encard_pointsTo h
  | string s =>
    rw [owns] at h
    exact encard_pointsTo h
  | bool b =>
    rw [owns] at h
    exact encard_pointsTo h
  | array vs =>
    rw [owns, Assertion.iSup_iff] at h
    obtain ⟨content, h⟩ := h
    exact encard_mul (fun f => encard_pointsTo) (fun f => encard_ownsArray) h
  | dict kvs =>
    rw [owns, Assertion.iSup_iff] at h
    obtain ⟨content, h⟩ := h
    exact encard_mul (fun f => encard_pointsTo) (fun f => encard_ownsDict) h

theorem encard_ownsArray {vs : List Value} {content : List (Ty × Addr)} {g : Piece Cell}
    (h : ownsArray vs content g) : g.support.encard = arraySize vs := by
  cases vs with
  | nil =>
    cases content with
    | nil =>
      rw [ownsArray_nil] at h
      rw [Assertion.one_iff.mp h]
      simp [Piece.support, arraySize]
    | cons x content =>
      rw [ownsArray_nil_cons] at h
      exact h.elim
  | cons v vs =>
    cases content with
    | nil =>
      rw [ownsArray_cons_nil] at h
      exact h.elim
    | cons x content =>
      rw [ownsArray_cons, Assertion.guard_mul_iff] at h
      exact encard_mul (fun f => encard_owns) (fun f => encard_ownsArray) h.2

theorem encard_ownsDict {kvs : List (Str × Value)} {content : List (Str × Ty × Addr)} {g : Piece Cell}
    (h : ownsDict kvs content g) : g.support.encard = dictSize kvs := by
  cases kvs with
  | nil =>
    cases content with
    | nil =>
      rw [ownsDict_nil] at h
      rw [Assertion.one_iff.mp h]
      simp [Piece.support, dictSize]
    | cons x content =>
      rw [ownsDict_nil_cons] at h
      exact h.elim
  | cons kv kvs =>
    cases content with
    | nil =>
      rw [ownsDict_cons_nil] at h
      exact h.elim
    | cons x content =>
      rw [ownsDict_cons, Assertion.guard_mul_iff] at h
      exact encard_mul (fun f => encard_owns) (fun f => encard_ownsDict) h.2

end

end Encard

/-- A value that the heap holds has no more objects than addresses are in use. -/
theorem Holds.size_le {s : State Cell} {v : Value} {p : Addr} (h : Holds s.cells v p) :
    valueSize v ≤ s.next := by
  obtain ⟨f, k, -, hcells, hf, -⟩ := h
  have hsub : f.support ⊆ (Finset.range s.next : Set ℕ) := by
    intro a ha
    refine Finset.mem_coe.mpr (Finset.mem_range.mpr (s.lt_next ?_))
    refine Option.isSome_iff_ne_none.mpr ?_
    rw [hcells]
    exact fun hnone => ha (Piece.union_eq_none.mp hnone).1
  have hle : (valueSize v : ℕ∞) ≤ s.next := by
    rw [← encard_owns hf]
    refine (Set.encard_le_encard hsub).trans ?_
    rw [Set.encard_coe_eq_coe_finsetCard, Finset.card_range]
  exact_mod_cast hle

end ConfigHeap
