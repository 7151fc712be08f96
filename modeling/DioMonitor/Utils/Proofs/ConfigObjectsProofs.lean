import DioMonitor.Lib.Places
import DioMonitor.Utils.Proofs.ConfigReadProofs

/-!
# Proofs: the objects of a program

`represents` relates the objects of a program to their values: each object owns the cells of its value,
what is lost has cells too, and there are no others. A reference leads to the same part of an object as of
its value (`refer_slots`), and an object can be taken out, changed and put back (`represents_change`).
-/

namespace ConfigHeap

open Config Heap

variable {st : State Cell} {g : Piece Cell} {F : Assertion Cell} {v w : Value} {p q : Addr}
  {objects : Objects} {values : List (Option Value)} {x n : ℕ} {s : Values}

def slot : Option (Ty × Addr) → Option Value → Assertion Cell
  | none, none => 1
  | some o, some v => ⨆ _ : o.1 = v.type, owns v o.2
  | _, _ => ⊥

/-- Every object that is not gone owns the cells of its value. -/
def slots : Objects → List (Option Value) → Assertion Cell
  | [], [] => 1
  | o :: objects, v :: values => slot o v * slots objects values
  | _, _ => ⊥

def represents (objects : Objects) (s : Values) : Assertion Cell := slots objects s.values * lost s.lost

theorem slots_of_represents (h : (represents objects s * F) g) :
    (slots objects s.values * (lost s.lost * F)) g := by
  rw [represents, mul_assoc] at h
  exact h

theorem slots_concat :
    slots objects values * owns v p ≤ slots (objects ++ [some (v.type, p)]) (values ++ [some v]) := by
  induction objects generalizing values with
  | nil =>
    cases values with
    | nil =>
      show 1 * owns v p ≤ (⨆ _ : v.type = v.type, owns v p) * 1
      rw [iSup_pos rfl, mul_comm]
    | cons w values =>
      show ⊥ * owns v p ≤ _
      rw [Quantale.bot_mul]
      exact bot_le
  | cons o objects ih =>
    cases values with
    | nil =>
      show ⊥ * owns v p ≤ _
      rw [Quantale.bot_mul]
      exact bot_le
    | cons w values =>
      show slot o w * slots objects values * owns v p ≤ slot o w * _
      rw [mul_assoc]
      exact mul_le_mul_right ih _

/-- One object of a program, apart from the others. -/
theorem slots_take (objects : Objects) (hv : values[x]? = some (some v)) :
    slots objects values ≤ ⨆ p, ⨆ _ : objects[x]? = some (some (v.type, p)),
      owns v p * slots (objects.set x none) (values.set x none) := by
  induction objects generalizing values x with
  | nil =>
    cases values with
    | nil => cases hv
    | cons w values => exact bot_le
  | cons o objects ih =>
    cases values with
    | nil => exact bot_le
    | cons w values =>
      cases x with
      | zero =>
        cases hv
        cases o with
        | none =>
          show ⊥ * slots objects values ≤ _
          rw [Quantale.bot_mul]
          exact bot_le
        | some o =>
          show (⨆ _ : o.1 = v.type, owns v o.2) * slots objects values ≤ _
          rw [Assertion.guard_mul]
          apply iSup_le
          intro htype
          refine le_iSup_of_le o.2 (le_iSup_of_le ?_ ?_)
          · rw [← htype]
            rfl
          · show _ ≤ owns v o.2 * (1 * slots objects values)
            rw [one_mul]
      | succ x =>
        show slot o w * slots objects values ≤ _
        refine (mul_le_mul_right (ih (x := x) hv) _).trans ?_
        rw [Quantale.mul_iSup_distrib]
        apply iSup_le
        intro p
        rw [mul_comm, Assertion.guard_mul]
        apply iSup_le
        intro hp
        refine le_iSup_of_le p (le_iSup_of_le hp ?_)
        show _ ≤ owns v p * (slot o w * slots (objects.set x none) (values.set x none))
        exact le_of_eq (by rw [mul_comm, mul_left_comm])

/-- An object at the place of one that is gone. -/
theorem slots_put (ho : objects[x]? = some none) (hv : values[x]? = some none) :
    owns v p * slots objects values ≤ slots (objects.set x (some (v.type, p))) (values.set x (some v)) := by
  induction objects generalizing values x with
  | nil => cases ho
  | cons o objects ih =>
    cases values with
    | nil => cases hv
    | cons w values =>
      cases x with
      | zero =>
        cases ho
        cases hv
        show owns v p * (1 * slots objects values) ≤
          (⨆ _ : v.type = v.type, owns v p) * slots objects values
        rw [iSup_pos rfl, one_mul]
      | succ x =>
        show owns v p * (slot o w * slots objects values) ≤ slot o w * _
        rw [mul_left_comm]
        exact mul_le_mul_right (ih (x := x) ho hv) _

/-- An object whose value is gone is gone. -/
theorem object_of_value (h : (slots objects values * F) g) (hv : ∀ v, values[x]? ≠ some (some v))
    (o : Ty × Addr) : objects[x]? ≠ some (some o) := by
  induction objects generalizing values x F with
  | nil =>
    intro ho
    cases ho
  | cons o' objects ih =>
    cases values with
    | nil =>
      have hbot : (⊥ * F : Assertion Cell) g := h
      rw [Quantale.bot_mul] at hbot
      exact hbot.elim
    | cons w values =>
      have h' : (slot o' w * slots objects values * F) g := h
      cases x with
      | zero =>
        intro ho
        cases ho
        cases w with
        | none =>
          have hbot : (⊥ * slots objects values * F) g := h'
          rw [Quantale.bot_mul, Quantale.bot_mul] at hbot
          exact hbot.elim
        | some v => exact hv v rfl
      | succ x =>
        rw [mul_assoc, mul_left_comm] at h'
        exact ih (x := x) h' hv

theorem depth_run (st : State Cell) : depth st = (.ok st.next, st) := rfl

theorem value_ok (hv : values[x]? = some (some v)) : Values.value values x = .ok v := by
  rw [Values.value, hv]

theorem object_ok {o : Ty × Addr} (st : State Cell) (ho : objects[x]? = some (some o)) :
    object objects x st = (.ok o, st) := by
  rw [object, ho]
  rfl

/-- What `objects` has at a place, when something is known to hold of its cells. -/
theorem object_run (st : State Cell) (x : ℕ) (h : (slots objects values * F) g) :
    (∃ v p, values[x]? = some (some v) ∧ objects[x]? = some (some (v.type, p)) ∧
      Values.value values x = .ok v ∧ object objects x st = (.ok (v.type, p), st) ∧
      (owns v p * (slots (objects.set x none) (values.set x none) * F)) g) ∨
    (Values.value values x = .error .undefined ∧ object objects x st = (.error .undefined, st)) := by
  by_cases hv : ∃ v, values[x]? = some (some v)
  · obtain ⟨v, hv⟩ := hv
    have h' := mul_le_mul_left (slots_take objects hv) F g h
    rw [Quantale.iSup_mul_distrib, Assertion.iSup_iff] at h'
    obtain ⟨p, h'⟩ := h'
    rw [Assertion.guard_mul_iff, mul_assoc] at h'
    exact .inl ⟨v, p, hv, h'.1, value_ok hv, object_ok st h'.1, h'.2⟩
  · have hv' : ∀ v, values[x]? ≠ some (some v) := fun v hval => hv ⟨v, hval⟩
    have ho := object_of_value h hv'
    refine .inr ⟨?_, ?_⟩
    · unfold Values.value
      split
      · exact absurd ‹_› (hv' _)
      · rfl
    · have hthrow : object objects x = throw .undefined := by
        unfold object
        split
        · exact absurd ‹_› (ho _)
        · rfl
      rw [hthrow]
      rfl

/-- A reference to an object, or to a part of it. -/
theorem refer_run {r : Ref} (ho : objects[r.object]? = some (some (v.type, p)))
    (hv : values[r.object]? = some (some v)) (hg : g.Sub st.cells) (hn : valueSize v ≤ n)
    (h : Holds g v p) :
    (∃ w q, Values.refer values r = .ok w ∧ valueSize w ≤ n ∧
      refer n objects r st = (.ok (w.type, q), st) ∧
      Holds (if r.path = [] then g else g.erase p) w q) ∨
    ∃ e, Values.refer values r = .error e ∧ refer n objects r st = (.error e, st) := by
  unfold refer Values.refer
  rw [bind_ok (object_ok st ho), value_ok hv]
  exact follow_run hg hn h

/-- A reference, when the cells of all objects are known. -/
theorem refer_slots (r : Ref) (h : (slots objects values * F) st.cells) :
    (∃ w q, Values.refer values r = .ok w ∧ valueSize w ≤ st.next ∧
      refer st.next objects r st = (.ok (w.type, q), st) ∧ Holds st.cells w q) ∨
    ∃ e, Values.refer values r = .error e ∧ refer st.next objects r st = (.error e, st) := by
  rcases object_run st r.object h with ⟨v, p, hv, ho, -, -, hcells⟩ | ⟨hvalue, hobject⟩
  · have hheld : Holds st.cells v p := Assertion.mul_top_of_mul hcells
    rcases refer_run ho hv (.refl _) hheld.size_le hheld with ⟨w, q, hw, hsize, hrun, hq⟩ | herror
    · exact .inl ⟨w, q, hw, hsize, hrun, hq.of_part⟩
    · exact .inr herror
  · refine .inr ⟨.undefined, ?_, bind_error hobject⟩
    rw [Values.refer, hvalue]
    rfl

/-! ## Changes -/

/-- A new object. -/
theorem represents_concat (h : (owns v p * (represents objects s * F)) g) :
    (represents (objects ++ [some (v.type, p)]) { s with values := s.values ++ [some v] } * F) g := by
  have hle : owns v p * (represents objects s * F) ≤
      represents (objects ++ [some (v.type, p)]) { s with values := s.values ++ [some v] } * F := by
    unfold represents
    rw [← mul_assoc, ← mul_assoc, mul_comm (owns v p)]
    exact mul_le_mul_left (mul_le_mul_left slots_concat _) F
  exact hle g h

/-- Another value of the same type in an object. -/
theorem slots_change {e : Value} (ho : objects[x]? = some (some (v.type, p)))
    (hv : values[x]? = some (some v)) (htype : e.type = v.type)
    (h : (owns e p * (slots (objects.set x none) (values.set x none) * F)) g) :
    (slots objects (values.set x (some e)) * F) g := by
  have hset : (objects.set x none).set x (some (e.type, p)) = objects := by
    obtain ⟨hlt, hget⟩ := List.getElem?_eq_some_iff.mp ho
    rw [List.set_set, htype, ← hget]
    exact List.set_getElem_self hlt
  have ho' : (objects.set x none)[x]? = some none := List.getElem?_set_self (Places.lt_length ho)
  have hv' : (values.set x none)[x]? = some none := List.getElem?_set_self (Places.lt_length hv)
  have hput : owns e p * slots (objects.set x none) (values.set x none) ≤ _ := slots_put ho' hv'
  rw [hset, List.set_set] at hput
  rw [← mul_assoc] at h
  exact mul_le_mul_left hput F g h

theorem represents_change {e : Value} (ho : objects[x]? = some (some (v.type, p)))
    (hv : s.values[x]? = some (some v)) (htype : e.type = v.type)
    (h : (owns e p * (slots (objects.set x none) (s.values.set x none) * (lost s.lost * F))) g) :
    (represents objects { s with values := s.values.set x (some e) } * F) g := by
  rw [represents, mul_assoc]
  exact slots_change ho hv htype h

end ConfigHeap
