import DioMonitor.Utils.Proofs.ConfigCopyProofs

/-!
# Proofs: reading

The functions that only read leave the heap as it is, and on an object that holds a value they give what
the functions on values give, errors and their texts included (`answer_run`).
-/

namespace ConfigHeap

open Config Heap

variable {s : State Cell} {g : Piece Cell} {v : Value} {vs : List Value} {d : Dict} {p : Addr} {n : ℕ}
  {name : Str}

theorem name_type (v : Value) : v.type.name = v.typeName := by cases v <;> rfl

/-! ## Printing -/

theorem printArray_run {print : Ty → Addr → ObjM Str} {content : List (Ty × Addr)} {first : Bool}
    (hprint : ∀ v ∈ vs, ∀ p, Holds s.cells v p → print v.type p s = (.ok v.print, s))
    (h : List.Forall₂ (fun v x => x.1 = v.type ∧ Holds s.cells v x.2) vs content) :
    printArray print first content s = (.ok (Config.printArray first vs), s) := by
  induction h generalizing first with
  | nil => rfl
  | @cons v x vs content hx _ ih =>
    have hfirst : print x.1 x.2 s = (.ok v.print, s) := by
      rw [hx.1]
      exact hprint v List.mem_cons_self x.2 hx.2
    have hrest : printArray print false content s = (.ok (Config.printArray false vs), s) :=
      ih fun w hw => hprint w (List.mem_cons_of_mem v hw)
    unfold printArray
    rw [bind_ok hfirst, bind_ok hrest, Config.printArray]
    rfl

theorem printDict_run {print : Ty → Addr → ObjM Str} {content : List (Str × Ty × Addr)} {first : Bool}
    (hprint : ∀ kv ∈ d, ∀ p, Holds s.cells kv.2 p → print kv.2.type p s = (.ok kv.2.print, s))
    (h : List.Forall₂ (fun kv x => (x.1 = kv.1 ∧ x.2.1 = kv.2.type) ∧ Holds s.cells kv.2 x.2.2) d
      content) :
    printDict print first content s = (.ok (Config.printDict first d), s) := by
  induction h generalizing first with
  | nil => rfl
  | @cons kv x d content hx _ ih =>
    have hfirst : print x.2.1 x.2.2 s = (.ok kv.2.print, s) := by
      rw [hx.1.2]
      exact hprint kv List.mem_cons_self x.2.2 hx.2
    have hrest : printDict print false content s = (.ok (Config.printDict false d), s) :=
      ih fun w hw => hprint w (List.mem_cons_of_mem kv hw)
    unfold printDict
    rw [bind_ok hfirst, bind_ok hrest, Config.printDict, hx.1.1]
    rfl

theorem print_run (hn : valueSize v ≤ n) (h : Holds s.cells v p) :
    print n v.type p s = (.ok v.print, s) := by
  induction n generalizing v p with
  | zero =>
    have := valueSize_pos v
    omega
  | succ n ih =>
    cases v with
    | int i => exact bind_ok (cast_run h.int rfl)
    | float x => exact bind_ok (cast_run h.float rfl)
    | string t => exact bind_ok (cast_run h.string rfl)
    | bool b => exact bind_ok (cast_run h.bool rfl)
    | array vs =>
      obtain ⟨content, hcell, hall⟩ := h.array
      have hcast : cast Cell.asArray p s = (.ok content, s) := cast_run hcell rfl
      have hrest : printArray (print n) true content s = (.ok (Config.printArray true vs), s) := by
        refine printArray_run ?_ hall
        intro v hv q hq
        have hle := valueSize_le_arraySize hv
        rw [valueSize] at hn
        exact ih (by omega) hq
      show (cast Cell.asArray p >>= fun content => printArray (print n) true content >>= fun rest =>
        pure ('[' :: rest ++ [']'])) s = _
      rw [bind_ok hcast, bind_ok hrest]
      rfl
    | dict d =>
      obtain ⟨content, hcell, hall⟩ := h.dict
      have hcast : cast Cell.asDict p s = (.ok content, s) := cast_run hcell rfl
      have hrest : printDict (print n) true content.entries s = (.ok (Config.printDict true d), s) := by
        refine printDict_run ?_ hall
        intro kv hkv q hq
        have hle := valueSize_le_dictSize hkv
        rw [valueSize] at hn
        exact ih (by omega) hq
      show (cast Cell.asDict p >>= fun content => printDict (print n) true content.entries >>= fun rest =>
        pure ('\x7b' :: rest ++ ['\x7d'])) s = _
      rw [bind_ok hcast, bind_ok hrest]
      rfl

/-! ## Dictionaries -/

theorem find_run (name : Str) (h : Holds s.cells (.dict d) p) :
    ∃ r, find p name s = (.ok r, s) ∧ ((d.find name = none ∧ r = none) ∨
      ∃ v q, d.find name = some v ∧ r = some (v.type, q) ∧ Holds s.cells v q) := by
  obtain ⟨content, hcell, hall⟩ := h.dict
  refine ⟨content.find name, bind_ok (cast_run hcell rfl), ?_⟩
  exact Holds.get_entries name hall

theorem notFound_run {α : Type} (hn : valueSize (.dict d) ≤ n) (h : Holds s.cells (.dict d) p) :
    (notFound n p name : ObjM α) s = (.error (.throws (d.notFound name)), s) :=
  bind_ok (print_run hn h)

theorem incompatible_run {α : Type} (expected : Str) :
    (incompatible v.type expected name : ObjM α) s =
      (.error (.throws (Dict.incompatible v expected name)), s) := by
  unfold incompatible Dict.incompatible
  rw [name_type]
  rfl

theorem getInt_run (hn : valueSize (.dict d) ≤ n) (h : Holds s.cells (.dict d) p) :
    getInt n p name s = (Values.orThrow (Dict.getInt d name), s) := by
  obtain ⟨r, hr, hcase⟩ := find_run name h
  unfold getInt Dict.getInt
  rw [bind_ok hr]
  rcases hcase with ⟨hd, rfl⟩ | ⟨v, q, hd, rfl, hv⟩
  · rw [hd]
    exact notFound_run hn h
  · rw [hd]
    cases v with
    | int i => exact bind_ok (cast_run hv.int rfl)
    | float x => exact bind_ok (cast_run hv.float rfl)
    | string t => exact incompatible_run (v := .string t) _
    | bool b => exact incompatible_run (v := .bool b) _
    | array vs => exact incompatible_run (v := .array vs) _
    | dict e => exact incompatible_run (v := .dict e) _

theorem getFloat_run (hn : valueSize (.dict d) ≤ n) (h : Holds s.cells (.dict d) p) :
    getFloat n p name s = (Values.orThrow (Dict.getFloat d name), s) := by
  obtain ⟨r, hr, hcase⟩ := find_run name h
  unfold getFloat Dict.getFloat
  rw [bind_ok hr]
  rcases hcase with ⟨hd, rfl⟩ | ⟨v, q, hd, rfl, hv⟩
  · rw [hd]
    exact notFound_run hn h
  · rw [hd]
    cases v with
    | int i => exact bind_ok (cast_run hv.int rfl)
    | float x => exact cast_run hv.float rfl
    | string t => exact incompatible_run (v := .string t) _
    | bool b => exact incompatible_run (v := .bool b) _
    | array vs => exact incompatible_run (v := .array vs) _
    | dict e => exact incompatible_run (v := .dict e) _

theorem getOrInt_run (orVal : ℤ) (h : Holds s.cells (.dict d) p) :
    getOrInt p name orVal s = (Values.orThrow (Dict.getOrInt d name orVal), s) := by
  obtain ⟨r, hr, hcase⟩ := find_run name h
  unfold getOrInt Dict.getOrInt
  rw [bind_ok hr]
  rcases hcase with ⟨hd, rfl⟩ | ⟨v, q, hd, rfl, hv⟩
  · rw [hd]
    rfl
  · rw [hd]
    cases v with
    | int i => exact bind_ok (cast_run hv.int rfl)
    | float x => exact bind_ok (cast_run hv.float rfl)
    | string t => exact incompatible_run (v := .string t) _
    | bool b => exact incompatible_run (v := .bool b) _
    | array vs => exact incompatible_run (v := .array vs) _
    | dict e => exact incompatible_run (v := .dict e) _

theorem getOrFloat_run (orVal : FloatVal) (h : Holds s.cells (.dict d) p) :
    getOrFloat p name orVal s = (Values.orThrow (Dict.getOrFloat d name orVal), s) := by
  obtain ⟨r, hr, hcase⟩ := find_run name h
  unfold getOrFloat Dict.getOrFloat
  rw [bind_ok hr]
  rcases hcase with ⟨hd, rfl⟩ | ⟨v, q, hd, rfl, hv⟩
  · rw [hd]
    rfl
  · rw [hd]
    cases v with
    | int i => exact bind_ok (cast_run hv.int rfl)
    | float x => exact cast_run hv.float rfl
    | string t => exact incompatible_run (v := .string t) _
    | bool b => exact incompatible_run (v := .bool b) _
    | array vs => exact incompatible_run (v := .array vs) _
    | dict e => exact incompatible_run (v := .dict e) _

theorem has_run (type : Ty) (h : Holds s.cells (.dict d) p) :
    has type p name s = (.ok (Dict.has [type] d name), s) := by
  obtain ⟨r, hr, hcase⟩ := find_run name h
  unfold has Dict.has
  rw [bind_ok hr]
  rcases hcase with ⟨hd, rfl⟩ | ⟨v, q, hd, rfl, -⟩
  · rw [hd]
    rfl
  · rw [hd]
    simp only [List.mem_singleton]
    rfl

theorem hasNumber_run (h : Holds s.cells (.dict d) p) :
    hasNumber p name s = (.ok (Dict.has [.long, .float] d name), s) := by
  obtain ⟨r, hr, hcase⟩ := find_run name h
  unfold hasNumber Dict.has
  rw [bind_ok hr]
  rcases hcase with ⟨hd, rfl⟩ | ⟨v, q, hd, rfl, -⟩
  · rw [hd]
    rfl
  · rw [hd]
    simp only [List.mem_cons, List.not_mem_nil, or_false]
    rfl

/-- `getRef`: the part of that name, if it has the type. It is apart from the dictionary itself. -/
theorem getRef_run (type : Ty) (name : Str) (hg : g.Sub s.cells) (hn : valueSize (.dict d) ≤ n)
    (h : Holds g (.dict d) p) :
    (∃ v q, Dict.getRef type d name = .ok v ∧ v.type = type ∧ d.find name = some v ∧
      getRef n type p name s = (.ok q, s) ∧ Holds (g.erase p) v q) ∨
    ∃ e, Dict.getRef type d name = .error e ∧ getRef n type p name s = (.error (.throws e), s) := by
  obtain ⟨content, hcell, hall⟩ := h.dict_parts
  have hfind : find p name s = (.ok (content.find name), s) := bind_ok (cast_run (hg _ _ hcell) rfl)
  unfold getRef Dict.getRef
  rw [bind_ok hfind]
  rcases Holds.get_entries name hall with ⟨hd, hc⟩ | ⟨v, q, hd, hc, hv⟩
  · rw [hd, OrderedMap.find, hc]
    exact .inr ⟨_, rfl, notFound_run hn (h.mono hg)⟩
  · rw [hd, OrderedMap.find, hc]
    by_cases htype : v.type = type
    · refine .inl ⟨v, q, if_pos htype, htype, rfl, ?_, hv⟩
      simp only [if_pos htype]
      rfl
    · refine .inr ⟨_, if_neg htype, ?_⟩
      simp only [if_neg htype]
      exact incompatible_run _

theorem getString_of_error {e : Exn} (h : Dict.getRef .string d name = .error e) :
    Dict.getString d name = .error e := by
  unfold Dict.getRef at h
  unfold Dict.getString
  cases hd : d.find name with
  | none =>
    rw [hd] at h
    cases h
    rfl
  | some v =>
    rw [hd] at h
    cases v <;> cases h <;> rfl

theorem getBool_of_error {e : Exn} (h : Dict.getRef .bool d name = .error e) :
    Dict.getBool d name = .error e := by
  unfold Dict.getRef at h
  unfold Dict.getBool
  cases hd : d.find name with
  | none =>
    rw [hd] at h
    cases h
    rfl
  | some v =>
    rw [hd] at h
    cases v <;> cases h <;> rfl

theorem getString_run (hn : valueSize (.dict d) ≤ n) (h : Holds s.cells (.dict d) p) :
    (getRef n .string p name >>= cast Cell.asString) s = (Values.orThrow (Dict.getString d name), s) := by
  rcases getRef_run .string name (.refl _) hn h with ⟨v, q, -, htype, hd, hrun, hv⟩ | ⟨e, hd, hrun⟩
  · rw [bind_ok hrun, Dict.getString, hd]
    cases v <;> cases htype
    exact cast_run (hv.mono (s.cells.erase_sub p)).string rfl
  · rw [bind_error hrun, getString_of_error hd]
    rfl

theorem getBool_run (hn : valueSize (.dict d) ≤ n) (h : Holds s.cells (.dict d) p) :
    (getRef n .bool p name >>= cast Cell.asBool) s = (Values.orThrow (Dict.getBool d name), s) := by
  rcases getRef_run .bool name (.refl _) hn h with ⟨v, q, -, htype, hd, hrun, hv⟩ | ⟨e, hd, hrun⟩
  · rw [bind_ok hrun, Dict.getBool, hd]
    cases v <;> cases htype
    exact cast_run (hv.mono (s.cells.erase_sub p)).bool rfl
  · rw [bind_error hrun, getBool_of_error hd]
    rfl

theorem getOrString_run (orVal : Str) (h : Holds s.cells (.dict d) p) :
    getOr .string Cell.asString p name orVal s =
      (Values.orThrow (Dict.getOrString d name orVal), s) := by
  obtain ⟨r, hr, hcase⟩ := find_run name h
  unfold getOr Dict.getOrString
  rw [bind_ok hr]
  rcases hcase with ⟨hd, rfl⟩ | ⟨v, q, hd, rfl, hv⟩
  · rw [hd]
    rfl
  · rw [hd]
    cases v with
    | string t => exact cast_run hv.string rfl
    | int i => exact incompatible_run (v := .int i) _
    | float x => exact incompatible_run (v := .float x) _
    | bool b => exact incompatible_run (v := .bool b) _
    | array vs => exact incompatible_run (v := .array vs) _
    | dict e => exact incompatible_run (v := .dict e) _

theorem getOrBool_run (orVal : Bool) (h : Holds s.cells (.dict d) p) :
    getOr .bool Cell.asBool p name orVal s = (Values.orThrow (Dict.getOrBool d name orVal), s) := by
  obtain ⟨r, hr, hcase⟩ := find_run name h
  unfold getOr Dict.getOrBool
  rw [bind_ok hr]
  rcases hcase with ⟨hd, rfl⟩ | ⟨v, q, hd, rfl, hv⟩
  · rw [hd]
    rfl
  · rw [hd]
    cases v with
    | bool b => exact cast_run hv.bool rfl
    | int i => exact incompatible_run (v := .int i) _
    | float x => exact incompatible_run (v := .float x) _
    | string t => exact incompatible_run (v := .string t) _
    | array vs => exact incompatible_run (v := .array vs) _
    | dict e => exact incompatible_run (v := .dict e) _

theorem keys_run (h : Holds s.cells (.dict d) p) : keys p s = (.ok (d.map Prod.fst), s) := by
  obtain ⟨content, hcell, hall⟩ := h.dict
  have hcast : cast Cell.asDict p s = (.ok content, s) := cast_run hcell rfl
  unfold keys
  rw [bind_ok hcast, Holds.names_eq hall]
  rfl

/-! ## Arrays -/

theorem size_run (h : Holds s.cells (.array vs) p) : size p s = (.ok vs.length, s) := by
  obtain ⟨content, hcell, hall⟩ := h.array
  have hcast : cast Cell.asArray p s = (.ok content, s) := cast_run hcell rfl
  unfold size
  rw [bind_ok hcast, hall.length_eq]
  rfl

theorem element_run (i : ℕ) (h : Holds s.cells (.array vs) p) :
    (∃ v q, Array.element vs i = .ok v ∧ element p i s = (.ok (v.type, q), s) ∧ Holds s.cells v q) ∨
    ∃ e, Array.element vs i = .error e ∧ element p i s = (.error (.throws e), s) := by
  obtain ⟨content, hcell, hall⟩ := h.array
  have hcast : cast Cell.asArray p s = (.ok content, s) := cast_run hcell rfl
  unfold element Array.element
  rw [bind_ok hcast]
  by_cases hi : i < vs.length
  · have hi' : i < content.length := hall.length_eq ▸ hi
    have hx : content[i].1 = vs[i].type ∧ Holds s.cells vs[i] content[i].2 := hall.get hi hi'
    rw [List.getElem?_eq_getElem hi, List.getElem?_eq_getElem hi']
    refine .inl ⟨vs[i], content[i].2, rfl, ?_, hx.2⟩
    rw [← hx.1]
    rfl
  · have hi' : ¬ i < content.length := hall.length_eq ▸ hi
    rw [List.getElem?_eq_none (Nat.le_of_not_lt hi), List.getElem?_eq_none (Nat.le_of_not_lt hi'),
      hall.length_eq]
    exact .inr ⟨_, rfl, rfl⟩

theorem incompatibleElement_run {α : Type} (expected : Str) :
    (incompatibleElement v.type expected : ObjM α) s =
      (.error (.throws (Array.incompatible v expected)), s) := by
  unfold incompatibleElement Array.incompatible
  rw [name_type]
  rfl

theorem elementInt_run (i : ℕ) (h : Holds s.cells (.array vs) p) :
    elementInt p i s = (Values.orThrow (Array.getInt vs i), s) := by
  unfold elementInt Array.getInt
  rcases element_run i h with ⟨v, q, hv, hrun, hq⟩ | ⟨e, he, hrun⟩
  · rw [bind_ok hrun, hv]
    cases v with
    | int i => exact bind_ok (cast_run hq.int rfl)
    | float x => exact bind_ok (cast_run hq.float rfl)
    | string t => exact incompatibleElement_run (v := .string t) _
    | bool b => exact incompatibleElement_run (v := .bool b) _
    | array vs => exact incompatibleElement_run (v := .array vs) _
    | dict e => exact incompatibleElement_run (v := .dict e) _
  · rw [bind_error hrun, he]
    rfl

theorem elementFloat_run (i : ℕ) (h : Holds s.cells (.array vs) p) :
    elementFloat p i s = (Values.orThrow (Array.getFloat vs i), s) := by
  unfold elementFloat Array.getFloat
  rcases element_run i h with ⟨v, q, hv, hrun, hq⟩ | ⟨e, he, hrun⟩
  · rw [bind_ok hrun, hv]
    cases v with
    | int i => exact bind_ok (cast_run hq.int rfl)
    | float x => exact cast_run hq.float rfl
    | string t => exact incompatibleElement_run (v := .string t) _
    | bool b => exact incompatibleElement_run (v := .bool b) _
    | array vs => exact incompatibleElement_run (v := .array vs) _
    | dict e => exact incompatibleElement_run (v := .dict e) _
  · rw [bind_error hrun, he]
    rfl

theorem elementRef_run (type : Ty) (i : ℕ) (h : Holds s.cells (.array vs) p) :
    (∃ v q, Array.getRef type vs i = .ok v ∧ v.type = type ∧ elementRef type p i s = (.ok q, s) ∧
      Holds s.cells v q) ∨
    ∃ e, Array.getRef type vs i = .error e ∧ elementRef type p i s = (.error (.throws e), s) := by
  unfold elementRef Array.getRef
  rcases element_run i h with ⟨v, q, hv, hrun, hq⟩ | ⟨e, he, hrun⟩
  · rw [bind_ok hrun, hv]
    by_cases htype : v.type = type
    · refine .inl ⟨v, q, if_pos htype, htype, ?_, hq⟩
      simp only [if_pos htype]
      rfl
    · refine .inr ⟨_, if_neg htype, ?_⟩
      simp only [if_neg htype]
      exact incompatibleElement_run _
  · rw [bind_error hrun, he]
    exact .inr ⟨e, rfl, rfl⟩

/-! ## Every function that reads -/

theorem map_run {α : Type} {m : ObjM α} {r : Except Exn α} (f : α → Value)
    (hm : m s = (Values.orThrow r, s)) :
    (m >>= fun x => pure (f x)) s = ((Values.orThrow r >>= fun x => pure (f x)), s) := by
  cases r with
  | error e => exact bind_error hm
  | ok x => exact bind_ok hm

theorem map_bind_run {α β : Type} {m : ObjM α} {g : α → ObjM β} {r : Except Exn β} (f : β → Value)
    (hm : (m >>= g) s = (Values.orThrow r, s)) :
    (m >>= fun x => g x >>= fun y => pure (f y)) s =
      ((Values.orThrow r >>= fun x => pure (f x)), s) := by
  rw [← bind_assoc]
  exact map_run f hm

/-- What such a function answers on the heap is what it answers on the value. -/
theorem answer_run (q : Query) (hn : valueSize v ≤ n) (h : Holds s.cells v p) :
    (if v.type ∈ q.types then answer n (v.type, p) q else throw .undefined) s =
      (Values.answer v q, s) := by
  cases v with
  | dict d =>
    cases q with
    | print => exact bind_ok (print_run hn h)
    | keys =>
      refine (bind_ok (keys_run h)).trans ?_
      simp only [List.map_map]
      rfl
    | getInt name => exact map_run _ (getInt_run hn h)
    | getFloat name => exact map_run _ (getFloat_run hn h)
    | getString name => exact map_bind_run _ (getString_run hn h)
    | getBool name => exact map_bind_run _ (getBool_run hn h)
    | hasNumber name => exact bind_ok (hasNumber_run h)
    | has type name => exact bind_ok (has_run type h)
    | getOrInt name orVal => exact map_run _ (getOrInt_run orVal h)
    | getOrFloat name orVal => exact map_run _ (getOrFloat_run orVal h)
    | getOrString name orVal => exact map_run _ (getOrString_run orVal h)
    | getOrBool name orVal => exact map_run _ (getOrBool_run orVal h)
    | size | elementInt i | elementFloat i | elementString i | elementBool i => rfl
  | array vs =>
    cases q with
    | print => exact bind_ok (print_run hn h)
    | size => exact bind_ok (size_run h)
    | elementInt i => exact map_run _ (elementInt_run i h)
    | elementFloat i => exact map_run _ (elementFloat_run i h)
    | elementString i =>
      show (elementRef .string p i >>= fun x => cast Cell.asString x >>= fun t => pure (.string t)) s =
        (Values.orThrow (Array.getRef .string vs i), s)
      rcases elementRef_run .string i h with ⟨v, q, hv, htype, hrun, hq⟩ | ⟨e, he, hrun⟩
      · rw [bind_ok hrun, hv]
        cases v <;> cases htype
        exact bind_ok (cast_run hq.string rfl)
      · rw [bind_error hrun, he]
        rfl
    | elementBool i =>
      show (elementRef .bool p i >>= fun x => cast Cell.asBool x >>= fun b => pure (.bool b)) s =
        (Values.orThrow (Array.getRef .bool vs i), s)
      rcases elementRef_run .bool i h with ⟨v, q, hv, htype, hrun, hq⟩ | ⟨e, he, hrun⟩
      · rw [bind_ok hrun, hv]
        cases v <;> cases htype
        exact bind_ok (cast_run hq.bool rfl)
      · rw [bind_error hrun, he]
        rfl
    | _ => rfl
  | _ => cases q <;> rfl

/-- `getRef` along a path ends at the part that the path leads to in the value. -/
theorem follow_run {path : List (Str × Ty)} (hg : g.Sub s.cells) (hn : valueSize v ≤ n)
    (h : Holds g v p) :
    (∃ w q, Values.follow v path = .ok w ∧ valueSize w ≤ n ∧
      follow n (v.type, p) path s = (.ok (w.type, q), s) ∧
      Holds (if path = [] then g else g.erase p) w q) ∨
    ∃ e, Values.follow v path = .error e ∧ follow n (v.type, p) path s = (.error e, s) := by
  induction path generalizing v p g with
  | nil => exact .inl ⟨v, p, rfl, hn, rfl, h⟩
  | cons x path ih =>
    obtain ⟨name, type⟩ := x
    cases v with
    | dict d =>
      show (∃ w q, (Values.orThrow (Dict.getRef type d name) >>= fun w => Values.follow w path) = .ok w ∧
          valueSize w ≤ n ∧
          (getRef n type p name >>= fun q => follow n (type, q) path) s = (.ok (w.type, q), s) ∧
          Holds (g.erase p) w q) ∨
        ∃ e, (Values.orThrow (Dict.getRef type d name) >>= fun w => Values.follow w path) = .error e ∧
          (getRef n type p name >>= fun q => follow n (type, q) path) s = (.error e, s)
      rcases getRef_run type name hg hn h with ⟨v, q, hv, htype, hd, hrun, hq⟩ | ⟨e, he, hrun⟩
      · have hle : valueSize v ≤ n := by
          have := valueSize_le_of_find hd
          rw [valueSize] at hn
          omega
        rw [hv, bind_ok hrun, ← htype]
        rcases ih ((g.erase_sub p).trans hg) hle hq with ⟨w, r, hw, hsize, hfollow, hr⟩ | herror
        · exact .inl ⟨w, r, hw, hsize, hfollow, hr.of_part⟩
        · exact .inr herror
      · rw [he, bind_error hrun]
        exact .inr ⟨_, rfl, rfl⟩
    | _ => exact .inr ⟨.undefined, rfl, rfl⟩

end ConfigHeap
