import DioMonitor.Utils.Proofs.ConfigHeapProofs

/-!
# Proofs: adding, copying and clearing

One triple for each function that changes objects. Copying leaves the objects that it copies as they are
and makes new ones that hold the same value (`newCopy_owns`), clearing gives back every cell but the one
of the object itself (`clear_owns`).
-/

namespace ConfigHeap

open Config Heap

variable {s : State Cell} {g : Piece Cell} {v w : Value} {vs ws : List Value} {d : Dict} {p q r : Addr}

/-! ## Access -/

theorem cast_run {α : Type} {as : Cell → Option α} {c : Cell} {x : α} (hp : s.cells p = some c)
    (hc : as c = some x) : cast as p s = (.ok x, s) := by
  unfold cast
  rw [bind_ok (Triple.load_run hp)]
  simp only [hc]
  rfl

/-- A program that first looks at the object at `p`, of which the precondition speaks. -/
theorem cast_bind {α β : Type} {as : Cell → Option α} {c : Cell} {x : α} {P : Assertion Cell}
    {f : α → ObjM β} {Q : Except Fault β → Assertion Cell} (hc : as c = some x)
    (h : Triple (.pointsTo p c * P) (f x) Q) : Triple (.pointsTo p c * P) (cast as p >>= f) Q := by
  refine Triple.bind_reads ?_ h
  intro F s hs
  rw [mul_assoc] at hs
  exact cast_run (Assertion.pointsTo_mul_iff.mp hs).1 hc

/-- A program that first looks at an object of the piece that it must leave as it is. -/
theorem cast_exact_bind {α β : Type} {as : Cell → Option α} {c : Cell} {x : α} {P : Assertion Cell}
    {f : α → ObjM β} {Q : Except Fault β → Assertion Cell} (hg : g p = some c) (hc : as c = some x)
    (h : Triple (.exact g * P) (f x) Q) : Triple (.exact g * P) (cast as p >>= f) Q := by
  refine Triple.bind_reads ?_ h
  intro F s hs
  rw [mul_assoc] at hs
  exact cast_run (Assertion.exact_mul_apply hs hg) hc

/-! ## New objects -/

theorem owns_array_le (content : List (Ty × Addr)) :
    .pointsTo p (.array content) * ownsArray vs content ≤ owns (.array vs) p := by
  rw [owns]
  exact le_iSup (fun content => Assertion.pointsTo p (.array content) * ownsArray vs content) content

theorem owns_dict_le (content : OrderedMap Str (Ty × Addr)) :
    .pointsTo p (.dict content) * ownsDict d content.entries ≤ owns (.dict d) p := by
  rw [owns]
  exact le_iSup (fun content : OrderedMap Str (Ty × Addr) =>
    Assertion.pointsTo p (.dict content) * ownsDict d content.entries) content

theorem pointsTo_le_owns (f : Fresh) : .pointsTo p f.cell ≤ owns f.value p := by
  cases f with
  | float x => rw [Fresh.value, owns]; exact le_rfl
  | long i => rw [Fresh.value, owns]; exact le_rfl
  | string s => rw [Fresh.value, owns]; exact le_rfl
  | bool b => rw [Fresh.value, owns]; exact le_rfl
  | array =>
    have h : Assertion.pointsTo p (Cell.array []) * ownsArray [] [] ≤ owns (.array []) p := owns_array_le []
    rw [ownsArray_nil, mul_one] at h
    exact h
  | dict =>
    have h := owns_dict_le (p := p) (d := []) .empty
    rw [show (OrderedMap.empty : OrderedMap Str (Ty × Addr)).entries = [] from rfl, ownsDict_nil,
      mul_one] at h
    exact h

theorem alloc_owns (f : Fresh) :
    Triple 1 (Heap.alloc f.cell : ObjM Addr) (returns fun p => owns f.value p) := by
  refine (Triple.alloc f.cell).conseq le_rfl ?_
  rintro (e | p)
  · exact le_rfl
  · exact pointsTo_le_owns f

/-! ## Adding elements -/

theorem ownsArray_concat (content : List (Ty × Addr)) :
    ownsArray ws content * owns v r ≤ ownsArray (ws ++ [v]) (content ++ [(v.type, r)]) := by
  induction ws generalizing content with
  | nil =>
    cases content with
    | nil =>
      rw [List.nil_append, List.nil_append, ownsArray_cons, iSup_pos rfl, mul_comm]
    | cons x content =>
      rw [ownsArray_nil_cons, Quantale.bot_mul]
      exact bot_le
  | cons w ws ih =>
    cases content with
    | nil =>
      rw [ownsArray_cons_nil, Quantale.bot_mul]
      exact bot_le
    | cons x content =>
      rw [List.cons_append, List.cons_append, ownsArray_cons, ownsArray_cons, mul_assoc]
      exact mul_le_mul_right (ih content) _

theorem arrayPush_owns : Triple (owns (.array ws) q * owns v r) (arrayPush q r v.type)
    (returns fun _ => owns (.array (ws ++ [v])) q) := by
  rw [owns, Quantale.iSup_mul_distrib]
  apply Triple.iSup
  intro content
  rw [mul_assoc]
  refine cast_bind rfl ((Triple.store.frame_returns _).conseq le_rfl ?_)
  rintro (e | a)
  · exact le_rfl
  · exact (mul_le_mul_right (ownsArray_concat content) _).trans (owns_array_le _)

/-- The cells of the values that no object holds any more. -/
def lost (vs : List Value) : Assertion Cell := (vs.map fun v => ⨆ p, owns v p).prod

theorem lost_nil : lost [] = 1 := rfl

theorem lost_append (vs ws : List Value) : lost (vs ++ ws) = lost vs * lost ws := by
  unfold lost
  rw [List.map_append, List.prod_append]

theorem owns_le_lost : owns v p ≤ lost [v] := by
  unfold lost
  rw [List.map_singleton, List.prod_singleton]
  exact le_iSup (fun p => owns v p) p

theorem find_of_ne {name : Str} (h : ∀ kv ∈ d, name ≠ kv.1) : d.find name = none := by
  induction d with
  | nil => rfl
  | cons kv d ih =>
    rw [find_cons, if_neg (h kv List.mem_cons_self)]
    exact ih fun kv' hkv' => h kv' (List.mem_cons_of_mem kv hkv')

/-- A name greater than the others goes to the end. -/
theorem insert_last {name : Str} (h : ∀ kv ∈ d, kv.1 < name) : d.insert name v = d ++ [(name, v)] := by
  induction d with
  | nil => rfl
  | cons kv d ih =>
    have hlt : kv.1 < name := h kv List.mem_cons_self
    unfold Dict.insert
    rw [if_neg (List.lt_asymm hlt), if_neg (ne_of_lt hlt).symm, ih fun kv' hkv' => h kv' (List.mem_cons_of_mem kv hkv')]
    rfl

theorem ownsDict_insert (name : Str) (content : List (Str × Ty × Addr)) (hd : d.Sorted) :
    ownsDict d content * owns v r ≤
      ownsDict (d.insert name v) (OrderedMap.insertEntry name (v.type, r) content) *
        lost (d.find name).toList := by
  induction d generalizing content with
  | nil =>
    cases content with
    | nil =>
      unfold Dict.insert OrderedMap.insertEntry
      rw [ownsDict_nil, ownsDict_cons, iSup_pos ⟨rfl, rfl⟩, ownsDict_nil]
      simp [Dict.find, lost_nil]
    | cons x content =>
      rw [ownsDict_nil_cons, Quantale.bot_mul]
      exact bot_le
  | cons kv d ih =>
    cases content with
    | nil =>
      rw [ownsDict_cons_nil, Quantale.bot_mul]
      exact bot_le
    | cons x content =>
      obtain ⟨k, w⟩ := kv
      obtain ⟨k', type, q⟩ := x
      obtain ⟨hall, hd'⟩ := List.pairwise_cons.mp hd
      rw [ownsDict_cons, Assertion.guard_mul, Assertion.guard_mul]
      apply iSup_le
      dsimp only at hall ⊢
      rintro ⟨rfl, rfl⟩
      rw [find_cons]
      unfold Dict.insert OrderedMap.insertEntry
      by_cases hlt : name < k'
      · have hfind : Dict.find d name = none :=
          find_of_ne fun kv hkv => ne_of_lt (List.lt_trans hlt (hall kv hkv))
        rw [if_pos hlt, if_pos hlt, if_neg (ne_of_lt hlt), hfind, ownsDict_cons, iSup_pos ⟨rfl, rfl⟩, ownsDict_cons,
          iSup_pos ⟨rfl, rfl⟩]
        exact le_of_eq (by rw [Option.toList_none, lost_nil, mul_one, mul_comm])
      · rw [if_neg hlt, if_neg hlt]
        by_cases heq : name = k'
        · rw [if_pos heq, if_pos heq, if_pos heq, ownsDict_cons, iSup_pos ⟨rfl, rfl⟩, Option.toList_some]
          calc owns w q * ownsDict d content * owns v r
              = owns v r * ownsDict d content * owns w q := by
                rw [mul_comm (owns w q), mul_assoc, mul_comm (owns w q), ← mul_assoc,
                  mul_comm (ownsDict d content)]
            _ ≤ owns v r * ownsDict d content * lost [w] := mul_le_mul_right owns_le_lost _
        · rw [if_neg heq, if_neg heq, if_neg heq, ownsDict_cons, iSup_pos ⟨rfl, rfl⟩, mul_assoc, mul_assoc]
          exact mul_le_mul_right (ih content hd') _

/-- `dict::insert`: the value that the name had is still there, but in no dictionary. -/
theorem dictInsert_owns (name : Str) : Triple (owns (.dict d) q * owns v r) (dictInsert q name r v.type)
    (returns fun _ => owns (.dict (d.insert name v)) q * lost (d.find name).toList) := by
  rw [owns, Quantale.iSup_mul_distrib]
  apply Triple.iSup
  intro content
  rw [mul_assoc]
  refine cast_bind rfl (Triple.assume (p := d.Sorted) ?_ fun hd => ?_)
  · intro f hf
    rw [← mul_assoc] at hf
    exact Holds.sorted (Assertion.mul_top_of_mul (mul_le_mul_left (owns_dict_le content) _ f hf))
  · refine (Triple.store.frame_returns _).conseq le_rfl ?_
    rintro (e | a)
    · exact le_rfl
    · refine (mul_le_mul_right (ownsDict_insert name content.entries hd) _).trans ?_
      rw [← mul_assoc]
      exact mul_le_mul_left (owns_dict_le (content.insert name (v.type, r))) _

/-- `dict::insert<T>`: a value whose name is taken is in no dictionary either. -/
theorem dictEmplace_owns (name : Str) : Triple (owns (.dict d) q * owns v r) (dictEmplace q name r v.type)
    (returns fun _ => owns (.dict (d.emplace name v)) q *
      lost (if (d.find name).isSome then [v] else [])) := by
  rw [owns, Quantale.iSup_mul_distrib]
  apply Triple.iSup
  intro content
  rw [mul_assoc]
  refine cast_bind rfl (Triple.assume
    (p := d.Sorted ∧ (content.find name).isSome = (d.find name).isSome) ?_ ?_)
  · intro f hf
    rw [← mul_assoc] at hf
    have hd := Holds.sorted (Assertion.mul_top_of_mul (mul_le_mul_left (owns_dict_le content) _ f hf))
    refine ⟨hd, ?_⟩
    rw [mul_assoc, mul_left_comm] at hf
    rcases Holds.get_entries name (Holds.of_ownsDict (Assertion.mul_top_of_mul hf)) with ⟨hd, hc⟩ | h
    · rw [hd, OrderedMap.find, hc]
      rfl
    · obtain ⟨v, p, hd, hc, -⟩ := h
      rw [hd, OrderedMap.find, hc]
      rfl
  · rintro ⟨hd, hfind⟩
    refine (Triple.store.frame_returns _).conseq le_rfl ?_
    rintro (e | a)
    · exact le_rfl
    · show Assertion.pointsTo q (Cell.dict (content.emplace name (v.type, r))) * _ ≤ _
      unfold OrderedMap.emplace Dict.emplace
      cases hc : content.find name with
      | some x =>
        rw [hc] at hfind
        obtain ⟨w, hw⟩ := Option.isSome_iff_exists.mp hfind.symm
        simp only [hw]
        show _ ≤ owns (.dict d) q * lost (if (some w).isSome then [v] else [])
        rw [if_pos Option.isSome_some, ← mul_assoc]
        exact mul_le_mul' (owns_dict_le content) owns_le_lost
      | none =>
        rw [hc] at hfind
        have hw : d.find name = none := Option.not_isSome_iff_eq_none.mp (by rw [← hfind]; simp)
        have hins := ownsDict_insert (v := v) (r := r) name content.entries hd
        simp only [hw] at hins ⊢
        show _ ≤ owns (.dict (d.insert name v)) q * lost (if (none : Option Value).isSome then [v] else [])
        rw [if_neg (by simp), lost_nil, mul_one]
        rw [Option.toList_none, lost_nil, mul_one] at hins
        exact (mul_le_mul_right hins _).trans (owns_dict_le (content.insert name (v.type, r)))

/-! ## Copying -/

/-- The loop of `array::clone_content`, after the elements `ws`. -/
theorem arrayClone_loop {copy : Ty → Addr → ObjM Addr} {content : List (Ty × Addr)}
    (hcopy : ∀ v ∈ vs, ∀ p, Holds g v p →
      Triple (.exact g) (copy v.type p) (returns fun r => .exact g * owns v r))
    (h : List.Forall₂ (fun v x => x.1 = v.type ∧ Holds g v x.2) vs content) :
    Triple (.exact g * owns (.array ws) q)
      (content.forM fun x => do arrayPush q (← copy x.1 x.2) x.1)
      (returns fun _ => .exact g * owns (.array (ws ++ vs)) q) := by
  induction h generalizing ws with
  | nil =>
    rw [List.append_nil]
    exact Triple.pure le_rfl
  | @cons v x vs content hx _ ih =>
    obtain ⟨htype, hv⟩ := hx
    have hpush : Triple (.exact g * owns (.array ws) q) (do arrayPush q (← copy x.1 x.2) x.1)
        (returns fun _ => .exact g * owns (.array (ws ++ [v])) q) := by
      rw [htype]
      refine Triple.bind_returns ((hcopy v List.mem_cons_self x.2 hv).frame_returns _) ?_
      intro r
      rw [mul_right_comm, mul_assoc]
      exact arrayPush_owns.frame_left _
    refine Triple.forM_cons hpush ?_
    rw [List.append_cons ws v vs]
    exact ih fun w hw => hcopy w (List.mem_cons_of_mem v hw)

/-- The loop of `dict::clone_content`, after the entries `d`. -/
theorem dictClone_loop {copy : Ty → Addr → ObjM Addr} {kvs : List (Str × Value)}
    {content : List (Str × Ty × Addr)} (hd : Dict.Sorted (d ++ kvs))
    (hcopy : ∀ kv ∈ kvs, ∀ p, Holds g kv.2 p →
      Triple (.exact g) (copy kv.2.type p) (returns fun r => .exact g * owns kv.2 r))
    (h : List.Forall₂ (fun kv x => (x.1 = kv.1 ∧ x.2.1 = kv.2.type) ∧ Holds g kv.2 x.2.2) kvs content) :
    Triple (.exact g * owns (.dict d) q)
      (content.forM fun x => do dictInsert q x.1 (← copy x.2.1 x.2.2) x.2.1)
      (returns fun _ => .exact g * owns (.dict (d ++ kvs)) q) := by
  induction h generalizing d with
  | nil =>
    rw [List.append_nil]
    exact Triple.pure le_rfl
  | @cons kv x kvs content hx _ ih =>
    obtain ⟨⟨hname, htype⟩, hv⟩ := hx
    have hlast : ∀ e ∈ d, e.1 < kv.1 := by
      intro e he
      exact (List.pairwise_append.mp hd).2.2 e he kv List.mem_cons_self
    have hfind : d.find kv.1 = none := find_of_ne fun e he => (ne_of_lt (hlast e he)).symm
    have hinsert : d.insert kv.1 kv.2 = d ++ [kv] := insert_last hlast
    have hput : Triple (.exact g * owns (.dict d) q) (do dictInsert q x.1 (← copy x.2.1 x.2.2) x.2.1)
        (returns fun _ => .exact g * owns (.dict (d ++ [kv])) q) := by
      rw [htype, hname]
      refine Triple.bind_returns ((hcopy kv List.mem_cons_self x.2.2 hv).frame_returns _) ?_
      intro r
      have hins := dictInsert_owns (d := d) (q := q) (v := kv.2) (r := r) kv.1
      rw [hfind, hinsert, Option.toList_none, lost_nil] at hins
      simp only [mul_one] at hins
      rw [mul_right_comm, mul_assoc]
      exact hins.frame_left _
    refine Triple.forM_cons hput ?_
    have hd' : Dict.Sorted ((d ++ [kv]) ++ kvs) := by
      rw [List.append_assoc]
      exact hd
    have hrest := ih hd' fun w hw => hcopy w (List.mem_cons_of_mem kv hw)
    rw [List.append_assoc] at hrest
    exact hrest

theorem arrayCloneContent_owns {copy : Ty → Addr → ObjM Addr} (hp : Holds g (.array vs) p)
    (hcopy : ∀ v ∈ vs, ∀ p, Holds g v p →
      Triple (.exact g) (copy v.type p) (returns fun r => .exact g * owns v r)) :
    Triple (.exact g * owns (.array []) q) (arrayCloneContent copy p q)
      (returns fun _ => .exact g * owns (.array vs) q) := by
  obtain ⟨content, hcontent, hall⟩ := hp.array
  exact cast_exact_bind hcontent rfl (arrayClone_loop hcopy hall)

theorem dictCloneContent_owns {copy : Ty → Addr → ObjM Addr} (hp : Holds g (.dict d) p)
    (hcopy : ∀ kv ∈ d, ∀ p, Holds g kv.2 p →
      Triple (.exact g) (copy kv.2.type p) (returns fun r => .exact g * owns kv.2 r)) :
    Triple (.exact g * owns (.dict []) q) (dictCloneContent copy p q)
      (returns fun _ => .exact g * owns (.dict d) q) := by
  obtain ⟨content, hcontent, hall⟩ := hp.dict
  have hd : Dict.Sorted ([] ++ d) := hp.sorted
  exact cast_exact_bind hcontent rfl (dictClone_loop hd hcopy hall)

/-- `new T (*p)`: an object apart from the others, with the same value. -/
theorem newCopy_owns {n : ℕ} (hn : valueSize v ≤ n) (hp : Holds g v p) :
    Triple (.exact g) (newCopy n v.type p) (returns fun r => .exact g * owns v r) := by
  induction n generalizing v p with
  | zero =>
    have := valueSize_pos v
    omega
  | succ n ih =>
    rw [← mul_one (Assertion.exact g)]
    simp only [mul_assoc, one_mul]
    cases v with
    | int i => exact cast_exact_bind hp.int rfl ((alloc_owns (.long i)).frame_left _)
    | float x => exact cast_exact_bind hp.float rfl ((alloc_owns (.float x)).frame_left _)
    | string s => exact cast_exact_bind hp.string rfl ((alloc_owns (.string s)).frame_left _)
    | bool b => exact cast_exact_bind hp.bool rfl ((alloc_owns (.bool b)).frame_left _)
    | array vs =>
      refine Triple.bind_returns ((alloc_owns .array).frame_left _) fun q => ?_
      refine Triple.bind_returns (arrayCloneContent_owns hp ?_) fun _ => Triple.pure le_rfl
      intro v hv r hr
      have hle := valueSize_le_arraySize hv
      rw [valueSize] at hn
      exact ih (by omega) hr
    | dict d =>
      refine Triple.bind_returns ((alloc_owns .dict).frame_left _) fun q => ?_
      refine Triple.bind_returns (dictCloneContent_owns hp ?_) fun _ => Triple.pure le_rfl
      intro kv hkv r hr
      have hle := valueSize_le_dictSize hkv
      rw [valueSize] at hn
      exact ih (by omega) hr

/-! ## Clearing -/

theorem owns_array_nil : owns (.array []) p = .pointsTo p (.array []) := by
  apply le_antisymm
  · rw [owns]
    apply iSup_le
    intro content
    cases content with
    | nil => rw [ownsArray_nil, mul_one]
    | cons x content =>
      rw [ownsArray_nil_cons, Quantale.mul_bot]
      exact bot_le
  · exact pointsTo_le_owns .array

theorem owns_dict_nil : owns (.dict []) p = .pointsTo p (.dict .empty) := by
  apply le_antisymm
  · rw [owns]
    apply iSup_le
    rintro ⟨content, hsorted⟩
    cases content with
    | nil =>
      rw [ownsDict_nil, mul_one]
      exact le_rfl
    | cons x content =>
      rw [ownsDict_nil_cons, Quantale.mul_bot]
      exact bot_le
  · exact pointsTo_le_owns .dict

theorem deleteElement_owns {clear : Ty → Addr → ObjM Unit}
    (hclear : ∀ e, Values.cleared v = .ok e →
      Triple (owns v p) (clear v.type p) (returns fun _ => owns e p)) :
    Triple (owns v p) (deleteElement clear v.type p) (returns fun _ => 1) := by
  cases v with
  | int i =>
    rw [owns]
    exact Triple.dealloc
  | float x =>
    rw [owns]
    exact Triple.dealloc
  | string s =>
    rw [owns, ← mul_one (Assertion.pointsTo p (Cell.string s))]
    refine cast_bind rfl ?_
    rw [mul_one]
    exact Triple.dealloc
  | bool b =>
    rw [owns]
    exact Triple.dealloc
  | array vs =>
    refine Triple.bind_returns (hclear _ rfl) fun _ => ?_
    rw [owns_array_nil]
    exact Triple.dealloc
  | dict d =>
    refine Triple.bind_returns (hclear _ rfl) fun _ => ?_
    rw [owns_dict_nil]
    exact Triple.dealloc

/-- The loop of `array::clear`. -/
theorem arrayClear_loop {clear : Ty → Addr → ObjM Unit} {content : List (Ty × Addr)}
    (hclear : ∀ v ∈ vs, ∀ p, Triple (owns v p) (deleteElement clear v.type p) (returns fun _ => 1)) :
    Triple (ownsArray vs content) (content.forM fun x => deleteElement clear x.1 x.2)
      (returns fun _ => 1) := by
  induction vs generalizing content with
  | nil =>
    cases content with
    | nil =>
      rw [ownsArray_nil]
      exact Triple.pure le_rfl
    | cons x content =>
      rw [ownsArray_nil_cons]
      exact Triple.of_bot
  | cons v vs ih =>
    cases content with
    | nil =>
      rw [ownsArray_cons_nil]
      exact Triple.of_bot
    | cons x content =>
      rw [ownsArray_cons, Assertion.guard_mul]
      apply Triple.iSup
      intro htype
      have hfirst := (hclear v List.mem_cons_self x.2).frame_returns (ownsArray vs content)
      rw [← htype] at hfirst
      simp only [one_mul] at hfirst
      exact Triple.forM_cons hfirst (ih fun w hw => hclear w (List.mem_cons_of_mem v hw))

/-- The loop of `dict::clear`. -/
theorem dictClear_loop {clear : Ty → Addr → ObjM Unit} {content : List (Str × Ty × Addr)}
    (hclear : ∀ kv ∈ d, ∀ p,
      Triple (owns kv.2 p) (deleteElement clear kv.2.type p) (returns fun _ => 1)) :
    Triple (ownsDict d content) (content.forM fun x => deleteElement clear x.2.1 x.2.2)
      (returns fun _ => 1) := by
  induction d generalizing content with
  | nil =>
    cases content with
    | nil =>
      rw [ownsDict_nil]
      exact Triple.pure le_rfl
    | cons x content =>
      rw [ownsDict_nil_cons]
      exact Triple.of_bot
  | cons kv d ih =>
    cases content with
    | nil =>
      rw [ownsDict_cons_nil]
      exact Triple.of_bot
    | cons x content =>
      rw [ownsDict_cons, Assertion.guard_mul]
      apply Triple.iSup
      rintro ⟨-, htype⟩
      have hfirst := (hclear kv List.mem_cons_self x.2.2).frame_returns (ownsDict d content)
      rw [← htype] at hfirst
      simp only [one_mul] at hfirst
      exact Triple.forM_cons hfirst (ih fun w hw => hclear w (List.mem_cons_of_mem kv hw))

/-- `clear`: the object is empty, and the cells of its elements are given back. -/
theorem clear_owns {n : ℕ} {e : Value} (hn : valueSize v ≤ n) (he : Values.cleared v = .ok e) :
    Triple (owns v p) (clear n v.type p) (returns fun _ => owns e p) := by
  induction n generalizing v p e with
  | zero =>
    have := valueSize_pos v
    omega
  | succ n ih =>
    cases v with
    | array vs =>
      cases he
      rw [owns_array_nil, owns]
      apply Triple.iSup
      intro content
      refine cast_bind rfl ?_
      refine Triple.bind_returns ((arrayClear_loop ?_).frame_left _) fun _ => ?_
      · intro w hw q
        have hle := valueSize_le_arraySize hw
        rw [valueSize] at hn
        exact deleteElement_owns fun e he => ih (by omega) he
      · rw [mul_one]
        exact Triple.store
    | dict d =>
      cases he
      rw [owns_dict_nil, owns]
      apply Triple.iSup
      intro content
      refine cast_bind rfl ?_
      refine Triple.bind_returns ((dictClear_loop ?_).frame_left _) fun _ => ?_
      · intro kv hkv q
        have hle := valueSize_le_dictSize hkv
        rw [valueSize] at hn
        exact deleteElement_owns fun e he => ih (by omega) he
      · rw [mul_one]
        exact Triple.store
    | int i => cases he
    | float x => cases he
    | string s => cases he
    | bool b => cases he

/-- Deleting an object gives back all its cells. -/
theorem delete_owns {n : ℕ} (hn : valueSize v ≤ n) :
    Triple (owns v p) (deleteElement (clear n) v.type p) (returns fun _ => 1) :=
  deleteElement_owns fun _ he => clear_owns hn he

/-! ## Assignment -/

/-- `operator=` from an object that is not part of the one assigned to. -/
theorem assign_owns {n : ℕ} {e : Value} (hn : valueSize v ≤ n) (he : Values.cleared v = .ok e)
    (htype : w.type = v.type) (hw : valueSize w ≤ n) (hq : Holds g w q) :
    Triple (.exact g * owns v p) (assign n v.type p q) (returns fun _ => .exact g * owns w p) := by
  cases v with
  | array vs =>
    cases he
    refine Triple.bind_returns ((clear_owns hn rfl).frame_left _) fun _ => ?_
    cases w <;> cases htype
    refine arrayCloneContent_owns hq fun u hu r hr => newCopy_owns ?_ hr
    have hle := valueSize_le_arraySize hu
    rw [valueSize] at hw
    omega
  | dict d =>
    cases he
    refine Triple.bind_returns ((clear_owns hn rfl).frame_left _) fun _ => ?_
    cases w <;> cases htype
    refine dictCloneContent_owns hq fun kv hkv r hr => newCopy_owns ?_ hr
    have hle := valueSize_le_dictSize hkv
    rw [valueSize] at hw
    omega
  | _ => cases he

/-- `operator=` from the object itself: it has been cleared when it is copied. -/
theorem assign_self {n : ℕ} {e : Value} (hn : valueSize v ≤ n) (he : Values.cleared v = .ok e) :
    Triple (owns v p) (assign n v.type p p) (returns fun _ => owns e p) := by
  cases v with
  | array vs =>
    cases he
    refine Triple.bind_returns (clear_owns hn rfl) fun _ => ?_
    rw [owns_array_nil, ← mul_one (Assertion.pointsTo p (Cell.array []))]
    exact cast_bind rfl (Triple.pure le_rfl)
  | dict d =>
    cases he
    refine Triple.bind_returns (clear_owns hn rfl) fun _ => ?_
    rw [owns_dict_nil, ← mul_one (Assertion.pointsTo p (Cell.dict .empty))]
    exact cast_bind rfl (Triple.pure le_rfl)
  | _ => cases he

theorem cast_none {α : Type} {as : Cell → Option α} (hp : s.cells p = none) :
    cast as p s = (.error .undefined, s) := by
  unfold cast
  refine bind_error ?_
  unfold Heap.load
  rw [hp]

/-- `operator=` from a part of the object: the part is gone when it is copied. -/
theorem assign_part {n : ℕ} {e : Value} {f k : Piece Cell} (hn : valueSize v ≤ n)
    (he : Values.cleared v = .ok e) (hsep : f.Separate k) (hs : s.cells = f.union k) (hf : owns v p f)
    (hq : (f.erase p) q ≠ none) :
    ∃ s', assign n v.type p q s = (.error .undefined, s') ∧ ((⊤ : Assertion Cell) * .exact k) s'.cells := by
  have howns : (owns v p * .exact k) s.cells := ⟨f, k, hsep, hs, hf, rfl⟩
  obtain ⟨_, s', hclear, hs'⟩ := (clear_owns hn he).run_returns howns
  have hne : q ≠ p := by
    rintro rfl
    exact hq (Piece.erase_self f q)
  have hfq : f q ≠ none := by
    intro hnone
    exact hq ((if_neg hne).trans hnone)
  have hkq : k q = none := (hsep q).resolve_left hfq
  have htop := Assertion.top_mul_of_mul hs'
  have hgone : s'.cells q = none := by
    obtain ⟨f', k', -, hunion, hf', rfl⟩ := hs'
    rw [hunion, Piece.union_eq_none]
    refine ⟨?_, hkq⟩
    cases v with
    | array vs =>
      cases he
      rw [owns_array_nil] at hf'
      rw [hf']
      exact if_neg hne
    | dict d =>
      cases he
      rw [owns_dict_nil] at hf'
      rw [hf']
      exact if_neg hne
    | _ => cases he
  refine ⟨s', ?_, htop⟩
  unfold assign
  rw [bind_ok hclear]
  cases v with
  | array vs => exact bind_error (cast_none hgone)
  | dict d => exact bind_error (cast_none hgone)
  | _ => cases he

end ConfigHeap
