import DioMonitor.Utils.Proofs.ConfigObjectsProofs

/-!
# Proofs: one call

Each call does on the heap what it does on values, and what `represents` says of the objects holds again
after it (`call_represents`). An assignment needs most: the object that is assigned to may be the one that
is read, or have it as a part.
-/

namespace ConfigHeap

open Config Heap

variable {st : State Cell} {g : Piece Cell} {F : Assertion Cell} {v w : Value} {p q : Addr}
  {objects : Objects} {values : List (Option Value)} {x n : ℕ} {s : Values}

/-- What is known after a call that does on the heap what it does on values. -/
def After (objects : Objects) (s : Values) (c : Call) :
    Except Fault (Objects × Option Value) → Assertion Cell
  | .ok r => ⨆ s', ⨆ _ : Values.call s c = .ok (s', r.2), represents r.1 s'
  | .error (.throws e) => ⨆ _ : Values.call s c = .error (.throws e), represents objects s
  | .error e => ⨆ _ : Values.call s c = .error e, ⊤

variable {c : Call}

theorem after_ok {s' : Values} {objects' : Objects} {answer : Option Value}
    (hcall : Values.call s c = .ok (s', answer)) (h : (represents objects' s' * F) g) :
    (After objects s c (.ok (objects', answer)) * F) g := by
  refine mul_le_mul_left ?_ F g h
  exact le_iSup_of_le s' (le_iSup_of_le hcall le_rfl)

/-- A call that fails has changed nothing. -/
theorem after_error {e : Fault} (hcall : Values.call s c = .error e)
    (h : (represents objects s * F) g) : (After objects s c (.error e) * F) g := by
  cases e with
  | throws e => exact mul_le_mul_left (le_iSup_of_le hcall le_rfl) F g h
  | _ => exact mul_le_mul_left (le_iSup_of_le hcall le_top) F g h

theorem after_undefined (hcall : Values.call s c = .error .undefined) (h : (⊤ * F) g) :
    (After objects s c (.error .undefined) * F) g := by
  refine mul_le_mul_left ?_ F g h
  exact le_iSup_of_le hcall le_rfl

theorem make_represents (f : Fresh) :
    Triple (represents objects s) (call objects (.make f)) (After objects s (.make f)) := by
  intro F st hst
  have hone : (1 * (represents objects s * F)) st.cells := by
    rw [one_mul]
    exact hst
  obtain ⟨p, st', hrun, hst'⟩ := (alloc_owns f).run_returns hone
  have htype : f.type = f.value.type := by cases f <;> rfl
  have hcall : call objects (.make f) st = (.ok (objects ++ [some (f.type, p)], none), st') :=
    bind_ok hrun
  rw [hcall, htype]
  exact after_ok rfl (represents_concat hst')

/-- A copy is an object of the program like the others. -/
theorem newCopy_represents (hst : (represents objects s * F) st.cells) (hn : valueSize w ≤ n)
    (hq : Holds st.cells w q) : ∃ p st', newCopy n w.type q st = (.ok p, st') ∧
      (represents (objects ++ [some (w.type, p)]) { s with values := s.values ++ [some w] } * F)
        st'.cells := by
  have hexact : (Assertion.exact st.cells * 1) st.cells := by
    rw [mul_one]
    rfl
  obtain ⟨p, st', hcopy, hst'⟩ := (newCopy_owns hn hq).run_returns hexact
  rw [mul_one, mul_comm] at hst'
  exact ⟨p, st', hcopy, represents_concat (mul_le_mul_right (Assertion.exact_le hst) _ _ hst')⟩

theorem copy_represents (r : Ref) :
    Triple (represents objects s) (call objects (.copy r)) (After objects s (.copy r)) := by
  intro F st hst
  have hslots := slots_of_represents hst
  rw [call, bind_ok (depth_run st)]
  rcases refer_slots r hslots with ⟨w, q, hw, hsize, hrefer, hq⟩ | ⟨e, he, hrefer⟩
  · rw [bind_ok hrefer]
    obtain ⟨p, st', hcopy, hst'⟩ := newCopy_represents hst hsize hq
    rw [bind_ok hcopy]
    have hcall : Values.call s (.copy r) = .ok ({ s with values := s.values ++ [some w] }, none) := by
      rw [Values.call, hw]
      rfl
    exact after_ok hcall hst'
  · rw [bind_error hrefer]
    refine after_error ?_ hst
    rw [Values.call, he]
    rfl

theorem copyElement_represents (r : Ref) (type : Ty) (i : ℕ) :
    Triple (represents objects s) (call objects (.copyElement r type i))
      (After objects s (.copyElement r type i)) := by
  intro F st hst
  have hslots := slots_of_represents hst
  rw [call, bind_ok (depth_run st)]
  rcases refer_slots r hslots with ⟨w, q, hw, hsize, hrefer, hq⟩ | ⟨e, he, hrefer⟩
  · rw [bind_ok hrefer]
    cases w with
    | array vs =>
      have htypes : (((Value.array vs).type, q) : Ty × Addr).1 = .array := rfl
      rw [if_pos htypes]
      rcases elementRef_run type i hq with ⟨v, u, hv, htype, helem, hu⟩ | ⟨e, he, helem⟩
      · rw [bind_ok helem]
        obtain ⟨p, st', hcopy, hst'⟩ := newCopy_represents hst hu.size_le hu
        rw [← htype, bind_ok hcopy]
        have hcall : Values.call s (.copyElement r type i) =
            .ok ({ s with values := s.values ++ [some v] }, none) := by
          rw [Values.call, hw]
          show (Values.orThrow (Array.getRef type vs i) >>= _) = _
          rw [hv]
          rfl
        rw [← htype] at hcall
        exact after_ok hcall hst'
      · rw [bind_error helem]
        refine after_error ?_ hst
        rw [Values.call, hw]
        show (Values.orThrow (Array.getRef type vs i) >>= _) = _
        rw [he]
        rfl
    | _ =>
      refine after_error (e := .undefined) ?_ hst
      rw [Values.call, hw]
      rfl
  · rw [bind_error hrefer]
    refine after_error ?_ hst
    rw [Values.call, he]
    rfl

/-! ## Assignment -/

theorem assign_scalar (st : State Cell) (p q : Addr) (hn : valueSize v ≤ n) {e : Fault}
    (he : Values.cleared v = .error e) :
    e = .undefined ∧ assign n v.type p q st = (.error .undefined, st) := by
  have hpos := valueSize_pos v
  obtain ⟨n, rfl⟩ : ∃ m, n = m + 1 := ⟨n - 1, by omega⟩
  cases v with
  | array vs => cases he
  | dict d => cases he
  | _ => exact ⟨(by cases he; rfl), bind_error rfl⟩

theorem call_assign {r : Ref} (hvalue : Values.value s.values x = .ok v)
    (hw : Values.refer s.values r = .ok w) (htype : w.type = v.type) :
    Values.call s (.assign x r) = Values.assign v w (r.object = x) r.path >>= fun e =>
      .ok ({ s with values := s.values.set x (some e) }, none) := by
  rw [Values.call, hvalue]
  show (Values.refer s.values r >>= _) = _
  rw [hw]
  exact if_pos htype

theorem call_assign_type {r : Ref} (hvalue : Values.value s.values x = .ok v)
    (hw : Values.refer s.values r = .ok w) (htype : w.type ≠ v.type) :
    Values.call s (.assign x r) = .error .undefined := by
  rw [Values.call, hvalue]
  show (Values.refer s.values r >>= _) = _
  rw [hw]
  exact if_neg htype

theorem call_assign_error {r : Ref} {e : Fault} (hvalue : Values.value s.values x = .ok v)
    (he : Values.refer s.values r = .error e) : Values.call s (.assign x r) = .error e := by
  rw [Values.call, hvalue]
  show (Values.refer s.values r >>= _) = _
  rw [he]
  rfl

theorem value_assign_error {e : Fault} {aliased : Bool} {path : List (Str × Ty)}
    (he : Values.cleared v = .error e) : Values.assign v w aliased path = .error e := by
  rw [Values.assign, he]
  rfl

/-- An assignment from the object itself or from a part of it. -/
theorem assign_aliased {r : Ref} (hx : r.object = x) (hv : s.values[x]? = some (some v))
    (ho : objects[x]? = some (some (v.type, p))) (hn : valueSize v ≤ st.next)
    (hst : (represents objects s * F) st.cells)
    (hcells : (owns v p * (slots (objects.set x none) (s.values.set x none) * (lost s.lost * F))) st.cells) :
    (After objects s (.assign x r) (call objects (.assign x r) st).1 * F)
      (call objects (.assign x r) st).2.cells := by
  have hvalue : Values.value s.values x = .ok v := value_ok hv
  have hobject : object objects x st = (.ok (v.type, p), st) := object_ok st ho
  obtain ⟨f, k, hsep, hunion, hf, hk⟩ := id hcells
  have hsub : f.Sub st.cells := hunion ▸ Piece.Sub.union_left f k
  have hheld : Holds f v p := Assertion.mul_top_of_mul ((mul_one (owns v p)).symm ▸ hf)
  subst hx
  rw [call, bind_ok (depth_run st), bind_ok hobject]
  rcases refer_run ho hv hsub hn hheld with ⟨w, q, hw, -, hrefer, hq⟩ | ⟨e, he, hrefer⟩
  · rw [bind_ok hrefer]
    by_cases htype : w.type = v.type
    · rw [if_pos htype]
      cases hcleared : Values.cleared v with
      | error e =>
        obtain ⟨rfl, hrun⟩ := assign_scalar st p q hn hcleared
        rw [bind_error hrun]
        refine after_error ?_ hst
        rw [call_assign hvalue hw htype, value_assign_error hcleared]
        rfl
      | ok e =>
        have hassign : Values.assign v w (r.object = r.object) r.path =
            if r.path = [] then .ok e else .error .undefined := by
          rw [Values.assign, hcleared]
          simp only [decide_true]
          rfl
        by_cases hpath : r.path = []
        · have hself : refer st.next objects r st = (.ok (v.type, p), st) := by
            unfold refer
            rw [bind_ok hobject, hpath]
            rfl
          obtain ⟨-, rfl⟩ := Prod.mk.inj (Except.ok.inj (Prod.mk.inj (hrefer.symm.trans hself)).1)
          obtain ⟨_, st', hrun, hst'⟩ := (assign_self hn hcleared).run_returns hcells
          rw [bind_ok hrun]
          have hcall : Values.call s (.assign r.object r) =
              .ok ({ s with values := s.values.set r.object (some e) }, none) := by
            rw [call_assign hvalue hw htype, hassign, if_pos hpath]
            rfl
          have hetype : e.type = v.type := by cases v <;> cases hcleared <;> rfl
          exact after_ok hcall (represents_change ho hv hetype hst')
        · rw [if_neg hpath] at hq
          have hqf : (f.erase p) q ≠ none := hq.ne_none
          obtain ⟨st', hrun, hst'⟩ := assign_part hn hcleared hsep hunion hf hqf
          rw [bind_error hrun]
          refine after_undefined ?_ ?_
          · rw [call_assign hvalue hw htype, hassign, if_neg hpath]
            rfl
          · have hk' := mul_le_mul_right (Assertion.exact_le hk) ⊤ st'.cells hst'
            rw [← mul_assoc, ← mul_assoc] at hk'
            exact Assertion.top_mul_of_mul hk'
    · rw [if_neg htype]
      exact after_error (call_assign_type hvalue hw htype) hst
  · rw [bind_error hrefer]
    exact after_error (call_assign_error hvalue he) hst

/-- An assignment from another object or a part of it. -/
theorem assign_apart {r : Ref} (hx : r.object ≠ x) (hv : s.values[x]? = some (some v))
    (ho : objects[x]? = some (some (v.type, p))) (hn : valueSize v ≤ st.next)
    (hst : (represents objects s * F) st.cells)
    (hcells : (owns v p * (slots (objects.set x none) (s.values.set x none) * (lost s.lost * F))) st.cells) :
    (After objects s (.assign x r) (call objects (.assign x r) st).1 * F)
      (call objects (.assign x r) st).2.cells := by
  have hvalue : Values.value s.values x = .ok v := value_ok hv
  have hobject : object objects x st = (.ok (v.type, p), st) := object_ok st ho
  obtain ⟨f, k, hsep, hunion, hf, hk⟩ := id hcells
  have hsub : k.Sub st.cells := hunion ▸ Piece.Sub.union_right hsep
  have hothers : objects[r.object]? = (objects.set x none)[r.object]? :=
    (List.getElem?_set_ne (Ne.symm hx)).symm
  have hvothers : s.values[r.object]? = (s.values.set x none)[r.object]? :=
    (List.getElem?_set_ne (Ne.symm hx)).symm
  rw [call, bind_ok (depth_run st), bind_ok hobject]
  rcases object_run st r.object hk with ⟨u, b, hu, hb, -, -, hcells'⟩ | ⟨hu, hb⟩
  · have hheld : Holds k u b := Assertion.mul_top_of_mul hcells'
    have hsize : valueSize u ≤ st.next := (hheld.mono hsub).size_le
    rcases refer_run (hothers.trans hb) (hvothers.trans hu) hsub hsize hheld with
      ⟨w, q, hw, hwsize, hrefer, hq⟩ | ⟨e, he, hrefer⟩
    · rw [bind_ok hrefer]
      have hq' : Holds k w q := hq.of_part
      by_cases htype : w.type = v.type
      · rw [if_pos htype]
        cases hcleared : Values.cleared v with
        | error e =>
          obtain ⟨rfl, hrun⟩ := assign_scalar st p q hn hcleared
          rw [bind_error hrun]
          refine after_error ?_ hst
          rw [call_assign hvalue hw htype, value_assign_error hcleared]
          rfl
        | ok e =>
          have hexact : (Assertion.exact k * owns v p * 1) st.cells := by
            rw [mul_one, mul_comm]
            exact ⟨f, k, hsep, hunion, hf, rfl⟩
          obtain ⟨_, st', hrun, hst'⟩ := (assign_owns hn hcleared htype hwsize hq').run_returns hexact
          rw [bind_ok hrun]
          have hcall : Values.call s (.assign x r) =
              .ok ({ s with values := s.values.set x (some w) }, none) := by
            rw [call_assign hvalue hw htype, Values.assign, hcleared]
            simp only [decide_eq_true_eq]
            show ((if r.object = x then _ else _ : Except Fault Value) >>= _) = _
            rw [if_neg hx]
            rfl
          rw [mul_one, mul_comm] at hst'
          exact after_ok hcall (represents_change ho hv htype
            (mul_le_mul_right (Assertion.exact_le hk) (owns w p) st'.cells hst'))
      · rw [if_neg htype]
        exact after_error (call_assign_type hvalue hw htype) hst
    · rw [bind_error hrefer]
      exact after_error (call_assign_error hvalue he) hst
  · have hu' : Values.value s.values r.object = .error .undefined := by
      unfold Values.value at hu ⊢
      rw [hvothers]
      exact hu
    have hb' : object objects r.object st = (.error .undefined, st) := by
      unfold object at hb ⊢
      rw [hothers]
      exact hb
    have hrefer : refer st.next objects r st = (.error .undefined, st) := bind_error hb'
    rw [bind_error hrefer]
    refine after_error (call_assign_error hvalue ?_) hst
    rw [Values.refer, hu']
    rfl

theorem assign_represents (x : ℕ) (r : Ref) :
    Triple (represents objects s) (call objects (.assign x r)) (After objects s (.assign x r)) := by
  intro F st hst
  have hslots := slots_of_represents hst
  rcases object_run st x hslots with ⟨v, p, hv, ho, -, -, hcells⟩ | ⟨hvalue, hobject⟩
  · have hn : valueSize v ≤ st.next := Holds.size_le (Assertion.mul_top_of_mul hcells)
    by_cases hx : r.object = x
    · exact assign_aliased hx hv ho hn hst hcells
    · exact assign_apart hx hv ho hn hst hcells
  · rw [call, bind_ok (depth_run st), bind_error hobject]
    refine after_error ?_ hst
    rw [Values.call, hvalue]
    rfl

/-! ## Handing an object over -/

theorem objectOf_run (st : State Cell) (type : Ty) (x : ℕ) (h : (slots objects values * F) g) :
    (∃ u q, values[x]? = some (some u) ∧ objects[x]? = some (some (u.type, q)) ∧
      Values.value values x = .ok u ∧ u.type = type ∧ objectOf type objects x st = (.ok q, st) ∧
      (owns u q * (slots (objects.set x none) (values.set x none) * F)) g) ∨
    ((∀ u, Values.value values x = .ok u → u.type ≠ type) ∧
      (∀ e, Values.value values x = .error e → e = .undefined) ∧
      objectOf type objects x st = (.error .undefined, st)) := by
  unfold objectOf
  rcases object_run st x h with ⟨u, q, hu, hq, hvalue, hobject, hcells⟩ | ⟨hvalue, hobject⟩
  · rw [bind_ok hobject]
    by_cases htype : u.type = type
    · rw [if_pos htype]
      exact .inl ⟨u, q, hu, hq, hvalue, htype, rfl, hcells⟩
    · rw [if_neg htype]
      refine .inr ⟨?_, ?_, rfl⟩
      · intro u' hu'
        cases hvalue.symm.trans hu'
        exact htype
      · intro e he
        cases hvalue.symm.trans he
  · refine .inr ⟨?_, ?_, bind_error hobject⟩
    · intro u hu
      cases hvalue.symm.trans hu
    · intro e he
      cases hvalue.symm.trans he
      rfl

/-- A call that puts the object `y` into the object `x`: `act` does it on the heap, and `result` is the new
value of `x` and what is lost by it. -/
theorem handOver_represents (act : Addr → Addr → Ty → ObjM Unit) (type : Ty) (x y : ℕ)
    (result : Value → Value → Value × List Value)
    (hheap : call objects c = do
      let o ← object objects y
      act (← objectOf type (objects.set y none) x) o.2 o.1
      return (objects.set y none, none))
    (hact : ∀ u v q p, u.type = type → Triple (owns u q * owns v p) (act q p v.type)
      (returns fun _ => owns (result u v).1 q * lost (result u v).2))
    (htype : ∀ u v, u.type = type → (result u v).1.type = type)
    (hmiss : ∀ e, Values.value s.values y = .error e → Values.call s c = .error e)
    (hfail : ∀ v, Values.value s.values y = .ok v →
      (∀ u, Values.value (s.values.set y none) x = .ok u → u.type ≠ type) →
      (∀ e, Values.value (s.values.set y none) x = .error e → e = .undefined) →
      Values.call s c = .error .undefined)
    (hdone : ∀ u v, Values.value s.values y = .ok v → Values.value (s.values.set y none) x = .ok u →
      u.type = type → Values.call s c =
        .ok (⟨(s.values.set y none).set x (some (result u v).1), s.lost ++ (result u v).2⟩, none)) :
    Triple (represents objects s) (call objects c) (After objects s c) := by
  intro F st hst
  have hslots := slots_of_represents hst
  rw [hheap]
  rcases object_run st y hslots with ⟨v, p, -, -, hv, hobject, hcells⟩ | ⟨hv, hobject⟩
  · rw [bind_ok hobject]
    have hcells' := hcells
    rw [mul_left_comm] at hcells'
    rcases objectOf_run st type x hcells' with
      ⟨u, q, hu, hq, huvalue, hutype, hobjectOf, howns⟩ | ⟨hno, herror, hobjectOf⟩
    · rw [bind_ok hobjectOf]
      have hpair : (owns u q * owns v p * (slots ((objects.set y none).set x none)
          ((s.values.set y none).set x none) * (lost s.lost * F))) st.cells := by
        rw [mul_assoc, mul_left_comm (owns v p)]
        exact howns
      obtain ⟨_, st', hrun, hst'⟩ := (hact u v q p hutype).run_returns hpair
      rw [bind_ok hrun]
      refine after_ok (hdone u v hv huvalue hutype) ?_
      have hnew : (owns (result u v).1 q * (slots ((objects.set y none).set x none)
          ((s.values.set y none).set x none) * (lost (result u v).2 * (lost s.lost * F)))) st'.cells := by
        rw [mul_left_comm (slots _ _), ← mul_assoc]
        exact hst'
      have hafter := slots_change hq hu ((htype u v hutype).trans hutype.symm) hnew
      unfold represents
      rw [lost_append, mul_comm (lost s.lost), mul_assoc, mul_assoc]
      exact hafter
    · rw [bind_error hobjectOf]
      exact after_error (hfail v hv hno herror) hst
  · rw [bind_error hobject]
    exact after_error (hmiss _ hv) hst

theorem asArray_error (h : v.type ≠ .array) : Values.asArray v = .error .undefined := by
  cases v with
  | array vs => exact absurd rfl h
  | _ => rfl

theorem asDict_error (h : v.type ≠ .dict) : Values.asDict v = .error .undefined := by
  cases v with
  | dict d => exact absurd rfl h
  | _ => rfl

/-- What `push`, `insert` and `insert<T>` make of an object, and what they lose. -/
def pushed : Value → Value → Value × List Value
  | .array vs, v => (.array (vs ++ [v]), [])
  | u, _ => (u, [])

def inserted (name : Str) : Value → Value → Value × List Value
  | .dict d, v => (.dict (Dict.insert name v d), (Dict.find d name).toList)
  | u, _ => (u, [])

def emplaced (name : Str) : Value → Value → Value × List Value
  | .dict d, v => (.dict (Dict.emplace name v d), if (Dict.find d name).isSome then [v] else [])
  | u, _ => (u, [])

theorem bind_asArray_error {α : Type} {r : Except Fault Value} (f : List Value → Except Fault α)
    (hno : ∀ u, r = .ok u → u.type ≠ .array) (herror : ∀ e, r = .error e → e = .undefined) :
    (r >>= fun u => Values.asArray u >>= f) = .error .undefined := by
  cases r with
  | error e =>
    rw [herror e rfl]
    rfl
  | ok u =>
    show (Values.asArray u >>= f) = _
    rw [asArray_error (hno u rfl)]
    rfl

theorem bind_asDict_error {α : Type} {r : Except Fault Value} (f : Dict → Except Fault α)
    (hno : ∀ u, r = .ok u → u.type ≠ .dict) (herror : ∀ e, r = .error e → e = .undefined) :
    (r >>= fun u => Values.asDict u >>= f) = .error .undefined := by
  cases r with
  | error e =>
    rw [herror e rfl]
    rfl
  | ok u =>
    show (Values.asDict u >>= f) = _
    rw [asDict_error (hno u rfl)]
    rfl

theorem push_represents (x y : ℕ) :
    Triple (represents objects s) (call objects (.push x y)) (After objects s (.push x y)) := by
  refine handOver_represents arrayPush .array x y pushed rfl ?_ ?_ ?_ ?_ ?_
  · intro u v q p hu
    cases u <;> cases hu
    simp only [pushed, lost_nil, mul_one]
    exact arrayPush_owns
  · intro u v hu
    cases u <;> cases hu
    rfl
  · intro e he
    rw [Values.call, he]
    rfl
  · intro v hv hno herror
    rw [Values.call, hv]
    exact bind_asArray_error _ hno herror
  · intro u v hv hu hutype
    cases u <;> cases hutype
    rw [Values.call, hv, pushed, List.append_nil]
    show (Values.value (s.values.set y none) x >>= fun u => Values.asArray u >>= _) = _
    rw [hu]
    rfl

theorem insert_represents (x : ℕ) (name : Str) (y : ℕ) :
    Triple (represents objects s) (call objects (.insert x name y)) (After objects s (.insert x name y)) := by
  refine handOver_represents (fun q p type => dictInsert q name p type) .dict x y (inserted name) rfl
    ?_ ?_ ?_ ?_ ?_
  · intro u v q p hu
    cases u <;> cases hu
    exact dictInsert_owns name
  · intro u v hu
    cases u <;> cases hu
    rfl
  · intro e he
    rw [Values.call, he]
    rfl
  · intro v hv hno herror
    rw [Values.call, hv]
    exact bind_asDict_error _ hno herror
  · intro u v hv hu hutype
    cases u <;> cases hutype
    rw [Values.call, hv, inserted]
    show (Values.value (s.values.set y none) x >>= fun u => Values.asDict u >>= _) = _
    rw [hu]
    rfl

theorem emplace_represents (x : ℕ) (name : Str) (y : ℕ) :
    Triple (represents objects s) (call objects (.emplace x name y))
      (After objects s (.emplace x name y)) := by
  refine handOver_represents (fun q p type => dictEmplace q name p type) .dict x y (emplaced name) rfl
    ?_ ?_ ?_ ?_ ?_
  · intro u v q p hu
    cases u <;> cases hu
    exact dictEmplace_owns name
  · intro u v hu
    cases u <;> cases hu
    rfl
  · intro e he
    rw [Values.call, he]
    rfl
  · intro v hv hno herror
    rw [Values.call, hv]
    exact bind_asDict_error _ hno herror
  · intro u v hv hu hutype
    cases u <;> cases hutype
    rw [Values.call, hv, emplaced]
    show (Values.value (s.values.set y none) x >>= fun u => Values.asDict u >>= _) = _
    rw [hu]
    rfl

/-! ## The other calls -/

theorem clear_represents (x : ℕ) :
    Triple (represents objects s) (call objects (.clear x)) (After objects s (.clear x)) := by
  intro F st hst
  have hslots := slots_of_represents hst
  rw [call]
  rcases object_run st x hslots with ⟨v, p, hv, ho, hvalue, hobject, hcells⟩ | ⟨hvalue, hobject⟩
  · have hn : valueSize v ≤ st.next := Holds.size_le (Assertion.mul_top_of_mul hcells)
    rw [bind_ok hobject, bind_ok (depth_run st)]
    cases hcleared : Values.cleared v with
    | error e =>
      have hpos := valueSize_pos v
      obtain ⟨m, hm⟩ : ∃ m, st.next = m + 1 := ⟨st.next - 1, by omega⟩
      have hclear : e = .undefined ∧ clear st.next v.type p st = (.error .undefined, st) := by
        rw [hm]
        cases v with
        | array vs => cases hcleared
        | dict d => cases hcleared
        | _ => exact ⟨(by cases hcleared; rfl), rfl⟩
      rw [bind_error hclear.2]
      refine after_error ?_ hst
      rw [Values.call, hvalue]
      show (Values.cleared v >>= _) = _
      rw [hcleared, hclear.1]
      rfl
    | ok e =>
      obtain ⟨_, st', hrun, hst'⟩ := (clear_owns hn hcleared).run_returns hcells
      rw [bind_ok hrun]
      have hcall : Values.call s (.clear x) =
          .ok ({ s with values := s.values.set x (some e) }, none) := by
        rw [Values.call, hvalue]
        show (Values.cleared v >>= _) = _
        rw [hcleared]
        rfl
      have hetype : e.type = v.type := by cases v <;> cases hcleared <;> rfl
      exact after_ok hcall (represents_change ho hv hetype hst')
  · rw [bind_error hobject]
    refine after_error ?_ hst
    rw [Values.call, hvalue]
    rfl

theorem destroy_represents (x : ℕ) :
    Triple (represents objects s) (call objects (.destroy x)) (After objects s (.destroy x)) := by
  intro F st hst
  have hslots := slots_of_represents hst
  rw [call]
  rcases object_run st x hslots with ⟨v, p, hv, ho, hvalue, hobject, hcells⟩ | ⟨hvalue, hobject⟩
  · have hn : valueSize v ≤ st.next := Holds.size_le (Assertion.mul_top_of_mul hcells)
    rw [bind_ok hobject, bind_ok (depth_run st)]
    obtain ⟨_, st', hrun, hst'⟩ := (delete_owns hn).run_returns hcells
    rw [bind_ok hrun]
    have hcall : Values.call s (.destroy x) = .ok ({ s with values := s.values.set x none }, none) := by
      rw [Values.call, hvalue]
      rfl
    refine after_ok hcall ?_
    rw [one_mul, ← mul_assoc] at hst'
    exact hst'
  · rw [bind_error hobject]
    refine after_error ?_ hst
    rw [Values.call, hvalue]
    rfl

theorem ask_represents (r : Ref) (q : Query) :
    Triple (represents objects s) (call objects (.ask r q)) (After objects s (.ask r q)) := by
  intro F st hst
  have hslots := slots_of_represents hst
  rw [call, bind_ok (depth_run st)]
  rcases refer_slots r hslots with ⟨w, p, hw, hsize, hrefer, hp⟩ | ⟨e, he, hrefer⟩
  · rw [bind_ok hrefer]
    have hanswer := answer_run q hsize hp
    have hcall : Values.call s (.ask r q) = Values.answer w q >>= fun a => .ok (s, some a) := by
      rw [Values.call, hw]
      rfl
    by_cases htype : w.type ∈ q.types
    · rw [if_pos htype] at hanswer ⊢
      cases ha : Values.answer w q with
      | error e =>
        rw [ha] at hanswer
        rw [bind_error hanswer]
        refine after_error ?_ hst
        rw [hcall, ha]
        rfl
      | ok a =>
        rw [ha] at hanswer
        rw [bind_ok hanswer]
        refine after_ok ?_ hst
        rw [hcall, ha]
        rfl
    · rw [if_neg htype] at hanswer ⊢
      have ha : Values.answer w q = .error .undefined := (Prod.mk.inj hanswer).1.symm
      refine after_error ?_ hst
      rw [hcall, ha]
      rfl
  · rw [bind_error hrefer]
    refine after_error ?_ hst
    rw [Values.call, he]
    rfl

/-- One call does on the heap what it does on values. -/
theorem call_represents (objects : Objects) (s : Values) (c : Call) :
    Triple (represents objects s) (call objects c) (After objects s c) := by
  cases c with
  | make f => exact make_represents f
  | copy r => exact copy_represents r
  | copyElement r type i => exact copyElement_represents r type i
  | assign x r => exact assign_represents x r
  | push x y => exact push_represents x y
  | insert x name y => exact insert_represents x name y
  | emplace x name y => exact emplace_represents x name y
  | clear x => exact clear_represents x
  | destroy x => exact destroy_represents x
  | ask r q => exact ask_represents r q

end ConfigHeap
