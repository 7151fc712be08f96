import DioMonitor.Utils.ConfigHeap

/-!
# Programs that use configuration values

A program is a list of calls. It names an object by its place among those that it has made, and a part
of an object by the names that `getRef` follows to it. A call that throws is caught and the program
goes on.

`ConfigHeap.run` executes a program on the heap, `Config.run` on values: there an object just has a value,
and a copy is the same value once more. The second semantics says what the first is for. It has no
answer (`undefined`) for a call on an object that is gone or has another type, and for an assignment
to an object of one of its own parts, which `operator=` has deleted by the time it copies it.
-/

namespace ConfigHeap

open Config

/-- What `new T (x)` or a default constructor makes. -/
inductive Fresh where
  | float (x : FloatVal)
  | long (i : ℤ)
  | string (s : Str)
  | bool (b : Bool)
  | array
  | dict

def Fresh.type : Fresh → Ty
  | float _ => .float
  | long _ => .long
  | string _ => .string
  | bool _ => .bool
  | array => .array
  | dict => .dict

def Fresh.cell : Fresh → Cell
  | float x => .float x
  | long i => .long i
  | string s => .string s
  | bool b => .bool b
  | array => .array []
  | dict => .dict .empty

/-- An object or a part of one: `getRef<T> (name)` for each name of the path. -/
structure Ref where
  object : ℕ
  path : List (Str × Ty)

/-- A function of `config` that only reads. -/
inductive Query where
  | print
  | keys
  | getInt (name : Str)
  | getFloat (name : Str)
  | getString (name : Str)
  | getBool (name : Str)
  | hasNumber (name : Str)
  | has (type : Ty) (name : Str)
  | getOrInt (name : Str) (orVal : ℤ)
  | getOrFloat (name : Str) (orVal : FloatVal)
  | getOrString (name orVal : Str)
  | getOrBool (name : Str) (orVal : Bool)
  | size
  | elementInt (i : ℕ)
  | elementFloat (i : ℕ)
  | elementString (i : ℕ)
  | elementBool (i : ℕ)

/-- The types that have the function. -/
def Query.types : Query → List Ty
  | print => [.array, .dict]
  | size | elementInt _ | elementFloat _ | elementString _ | elementBool _ => [.array]
  | _ => [.dict]

inductive Call where
  /-- A new object. -/
  | make (f : Fresh)
  /-- The copy constructor. -/
  | copy (r : Ref)
  /-- `get<T> (i)` of an array. -/
  | copyElement (r : Ref) (type : Ty) (i : ℕ)
  | assign (x : ℕ) (r : Ref)
  /-- `push` of an object, which the program then no longer names. -/
  | push (x y : ℕ)
  | insert (x : ℕ) (name : Str) (y : ℕ)
  | emplace (x : ℕ) (name : Str) (y : ℕ)
  | clear (x : ℕ)
  /-- The destructor of a variable, or `delete`. -/
  | destroy (x : ℕ)
  | ask (r : Ref) (q : Query)

/-! ## On the heap -/

/-- The objects of a program; `none` is one that is gone. -/
abbrev Objects := List (Option (Ty × Addr))

def object (objects : Objects) (x : ℕ) : ObjM (Ty × Addr) :=
  match objects[x]? with
  | some (some o) => return o
  | _ => throw .undefined

/-- An object of the given type. -/
def objectOf (type : Ty) (objects : Objects) (x : ℕ) : ObjM Addr := do
  let o ← object objects x
  if o.1 = type then return o.2 else throw .undefined

/-- `getRef` for each name. -/
def follow (n : ℕ) (o : Ty × Addr) : List (Str × Ty) → ObjM (Ty × Addr)
  | [] => return o
  | (name, type) :: path => do
    if o.1 = .dict then
      let p ← getRef n type o.2 name
      follow n (type, p) path
    else throw .undefined

def refer (n : ℕ) (objects : Objects) (r : Ref) : ObjM (Ty × Addr) := do
  follow n (← object objects r.object) r.path

def answer (n : ℕ) (o : Ty × Addr) : Query → ObjM Value
  | .print => do return .string (← print n o.1 o.2)
  | .keys => do return .array ((← keys o.2).map .string)
  | .getInt name => do return .int (← getInt n o.2 name)
  | .getFloat name => do return .float (← getFloat n o.2 name)
  | .getString name => do return .string (← cast Cell.asString (← getRef n .string o.2 name))
  | .getBool name => do return .bool (← cast Cell.asBool (← getRef n .bool o.2 name))
  | .hasNumber name => do return .bool (← hasNumber o.2 name)
  | .has type name => do return .bool (← has type o.2 name)
  | .getOrInt name orVal => do return .int (← getOrInt o.2 name orVal)
  | .getOrFloat name orVal => do return .float (← getOrFloat o.2 name orVal)
  | .getOrString name orVal => do return .string (← getOr .string Cell.asString o.2 name orVal)
  | .getOrBool name orVal => do return .bool (← getOr .bool Cell.asBool o.2 name orVal)
  | .size => do return .int (← size o.2)
  | .elementInt i => do return .int (← elementInt o.2 i)
  | .elementFloat i => do return .float (← elementFloat o.2 i)
  | .elementString i => do return .string (← cast Cell.asString (← elementRef .string o.2 i))
  | .elementBool i => do return .bool (← cast Cell.asBool (← elementRef .bool o.2 i))

/-- One call: the objects after it, and what it answers. -/
def call (objects : Objects) : Call → ObjM (Objects × Option Value)
  | .make f => do
    let p ← Heap.alloc f.cell
    return (objects ++ [some (f.type, p)], none)
  | .copy r => do
    let n ← depth
    let o ← refer n objects r
    let p ← newCopy n o.1 o.2
    return (objects ++ [some (o.1, p)], none)
  | .copyElement r type i => do
    let n ← depth
    let o ← refer n objects r
    if o.1 = .array then
      let p ← newCopy n type (← elementRef type o.2 i)
      return (objects ++ [some (type, p)], none)
    else throw .undefined
  | .assign x r => do
    let n ← depth
    let this ← object objects x
    let o ← refer n objects r
    if o.1 = this.1 then
      assign n this.1 this.2 o.2
      return (objects, none)
    else throw .undefined
  | .push x y => do
    let o ← object objects y
    let objects := objects.set y none
    arrayPush (← objectOf .array objects x) o.2 o.1
    return (objects, none)
  | .insert x name y => do
    let o ← object objects y
    let objects := objects.set y none
    dictInsert (← objectOf .dict objects x) name o.2 o.1
    return (objects, none)
  | .emplace x name y => do
    let o ← object objects y
    let objects := objects.set y none
    dictEmplace (← objectOf .dict objects x) name o.2 o.1
    return (objects, none)
  | .clear x => do
    let o ← object objects x
    clear (← depth) o.1 o.2
    return (objects, none)
  | .destroy x => do
    let o ← object objects x
    deleteElement (clear (← depth)) o.1 o.2
    return (objects.set x none, none)
  | .ask r q => do
    let n ← depth
    let o ← refer n objects r
    if o.1 ∈ q.types then return (objects, some (← answer n o q)) else throw .undefined

/-- `try`: an exception of the program is caught, what is undefined is not. -/
def attempt {α : Type} (m : ObjM α) : ObjM (Except Exn α) := fun h =>
  match m h with
  | (.ok a, h') => (.ok (.ok a), h')
  | (.error (.throws e), h') => (.ok (.error e), h')
  | (.error e, h') => (.error e, h')

/-- A program: the objects at the end, and what each call answered or threw. -/
def run : Objects → List Call → ObjM (Objects × List (Except Exn (Option Value)))
  | objects, [] => return (objects, [])
  | objects, c :: cs => do
    match ← attempt (call objects c) with
    | .ok r =>
      let (objects', answers) ← run r.1 cs
      return (objects', .ok r.2 :: answers)
    | .error e =>
      let (objects', answers) ← run objects cs
      return (objects', .error e :: answers)

/-! ## On values -/

/-- What `new T (x)` or a default constructor makes, as a value. -/
def Fresh.value : Fresh → Value
  | float x => .float x
  | long i => .int i
  | string s => .string s
  | bool b => .bool b
  | array => .array []
  | dict => .dict []

end ConfigHeap

namespace Config

open ConfigHeap

def Value.type : Value → Ty
  | int _ => .long
  | float _ => .float
  | string _ => .string
  | bool _ => .bool
  | array _ => .array
  | dict _ => .dict

namespace Dict

def getRef (type : Ty) (d : Dict) (name : Str) : Except Exn Value :=
  match d.find name with
  | none => .error (d.notFound name)
  | some v => if v.type = type then .ok v else .error (incompatible v type.name name)

def getInt (d : Dict) (name : Str) : Except Exn ℤ :=
  match d.find name with
  | none => .error (d.notFound name)
  | some (.float x) => .ok (toInt (floatToLong x))
  | some (.int i) => .ok (toInt i)
  | some v => .error (incompatible v Ty.long.name name)

def getFloat (d : Dict) (name : Str) : Except Exn FloatVal :=
  match d.find name with
  | none => .error (d.notFound name)
  | some (.int i) => .ok (longToFloat i)
  | some (.float x) => .ok x
  | some v => .error (incompatible v Ty.long.name name)

def getBool (d : Dict) (name : Str) : Except Exn Bool :=
  match d.find name with
  | none => .error (d.notFound name)
  | some (.bool b) => .ok b
  | some v => .error (incompatible v Ty.bool.name name)

def getOrBool (d : Dict) (name : Str) (orVal : Bool) : Except Exn Bool :=
  match d.find name with
  | none => .ok orVal
  | some (.bool b) => .ok b
  | some v => .error (incompatible v Ty.bool.name name)

def has (types : List Ty) (d : Dict) (name : Str) : Bool :=
  match d.find name with
  | none => false
  | some v => v.type ∈ types

/-- `dict::insert<T>`: a name that is taken keeps its value. -/
def emplace (name : Str) (value : Value) (d : Dict) : Dict :=
  match d.find name with
  | some _ => d
  | none => d.insert name value

end Dict

namespace Array

/-- The element at an index. -/
def element (vs : List Value) (i : ℕ) : Except Exn Value :=
  match vs[i]? with
  | none => .error (.configError 0
      ("Out of array : ".toList ++ Nat.toDigits 10 i ++ " > ".toList ++ Nat.toDigits 10 vs.length))
  | some v => .ok v

/-- The error for an element of another type than the one that is read. -/
def incompatible (v : Value) (expected : Str) : Exn :=
  .configError 0 ("Incompatible types : ".toList ++ v.typeName ++ "  and ".toList ++ expected)

def getRef (type : Ty) (vs : List Value) (i : ℕ) : Except Exn Value := do
  let v ← element vs i
  if v.type = type then return v else throw (incompatible v type.name)

def getInt (vs : List Value) (i : ℕ) : Except Exn ℤ := do
  match ← element vs i with
  | .float x => return Dict.toInt (Dict.floatToLong x)
  | .int i => return Dict.toInt i
  | v => throw (incompatible v Ty.long.name)

def getFloat (vs : List Value) (i : ℕ) : Except Exn FloatVal := do
  match ← element vs i with
  | .int i => return Dict.longToFloat i
  | .float x => return x
  | v => throw (incompatible v Ty.float.name)

end Array

/-- The values of a program's objects, and those that no object holds any more. -/
structure Values where
  values : List (Option Value)
  lost : List Value

namespace Values

/-- What throws on values throws the same on the heap. -/
def orThrow {α : Type} : Except Exn α → Except Fault α
  | .ok a => .ok a
  | .error e => .error (.throws e)

def asDict : Value → Except Fault Dict
  | .dict d => .ok d
  | _ => .error .undefined

def asArray : Value → Except Fault (List Value)
  | .array vs => .ok vs
  | _ => .error .undefined

def value (values : List (Option Value)) (x : ℕ) : Except Fault Value :=
  match values[x]? with
  | some (some v) => .ok v
  | _ => .error .undefined

def follow : Value → List (Str × Ty) → Except Fault Value
  | v, [] => .ok v
  | v, (name, type) :: path => do
    let w ← orThrow (Dict.getRef type (← asDict v) name)
    follow w path

def refer (values : List (Option Value)) (r : Ref) : Except Fault Value := do
  follow (← value values r.object) r.path

def answer (v : Value) : Query → Except Fault Value
  | .print => if v.type = .array ∨ v.type = .dict then .ok (.string v.print) else .error .undefined
  | .keys => do return .array ((← asDict v).map fun kv => .string kv.1)
  | .getInt name => do return .int (← orThrow (Dict.getInt (← asDict v) name))
  | .getFloat name => do return .float (← orThrow (Dict.getFloat (← asDict v) name))
  | .getString name => do return .string (← orThrow (Dict.getString (← asDict v) name))
  | .getBool name => do return .bool (← orThrow (Dict.getBool (← asDict v) name))
  | .hasNumber name => do return .bool (Dict.has [.long, .float] (← asDict v) name)
  | .has type name => do return .bool (Dict.has [type] (← asDict v) name)
  | .getOrInt name orVal => do return .int (← orThrow (Dict.getOrInt (← asDict v) name orVal))
  | .getOrFloat name orVal => do return .float (← orThrow (Dict.getOrFloat (← asDict v) name orVal))
  | .getOrString name orVal => do
    return .string (← orThrow (Dict.getOrString (← asDict v) name orVal))
  | .getOrBool name orVal => do return .bool (← orThrow (Dict.getOrBool (← asDict v) name orVal))
  | .size => do return .int (← asArray v).length
  | .elementInt i => do return .int (← orThrow (Array.getInt (← asArray v) i))
  | .elementFloat i => do return .float (← orThrow (Array.getFloat (← asArray v) i))
  | .elementString i => do orThrow (Array.getRef .string (← asArray v) i)
  | .elementBool i => do orThrow (Array.getRef .bool (← asArray v) i)

/-- An object of an array or dictionary type, without content. -/
def cleared : Value → Except Fault Value
  | .array _ => .ok (.array [])
  | .dict _ => .ok (.dict [])
  | _ => .error .undefined

/-- `this = other`, where `other` is the object itself or one of its parts when `aliased` holds. -/
def assign (this other : Value) (aliased : Bool) (path : List (Str × Ty)) : Except Fault Value := do
  let empty ← cleared this
  if aliased then
    -- `operator=` clears the object first, and its parts are gone then.
    if path = [] then return empty else throw .undefined
  else return other

/-- What a call of the program does. -/
def call (s : Values) : Call → Except Fault (Values × Option Value)
  | .make f => .ok ({ s with values := s.values ++ [some f.value] }, none)
  | .copy r => do
    let v ← refer s.values r
    return ({ s with values := s.values ++ [some v] }, none)
  | .copyElement r type i => do
    let v ← orThrow (Array.getRef type (← asArray (← refer s.values r)) i)
    return ({ s with values := s.values ++ [some v] }, none)
  | .assign x r => do
    let this ← value s.values x
    let other ← refer s.values r
    if other.type = this.type then
      let v ← assign this other (r.object = x) r.path
      return ({ s with values := s.values.set x (some v) }, none)
    else throw .undefined
  | .push x y => do
    let v ← value s.values y
    let values := s.values.set y none
    let vs ← asArray (← value values x)
    return ({ s with values := values.set x (some (.array (vs ++ [v]))) }, none)
  | .insert x name y => do
    let v ← value s.values y
    let values := s.values.set y none
    let d ← asDict (← value values x)
    return (⟨values.set x (some (.dict (d.insert name v))), s.lost ++ (d.find name).toList⟩, none)
  | .emplace x name y => do
    let v ← value s.values y
    let values := s.values.set y none
    let d ← asDict (← value values x)
    let lost := if (d.find name).isSome then [v] else []
    return (⟨values.set x (some (.dict (d.emplace name v))), s.lost ++ lost⟩, none)
  | .clear x => do
    let v ← cleared (← value s.values x)
    return ({ s with values := s.values.set x (some v) }, none)
  | .destroy x => do
    let _ ← value s.values x
    return ({ s with values := s.values.set x none }, none)
  | .ask r q => do
    let v ← refer s.values r
    return (s, some (← answer v q))

/-- A program: the values at the end, and what each call answered or threw. -/
def run : Values → List Call → Except Fault (Values × List (Except Exn (Option Value)))
  | s, [] => .ok (s, [])
  | s, c :: cs =>
    match call s c with
    | .ok r => do
      let (s', answers) ← run r.1 cs
      return (s', .ok r.2 :: answers)
    | .error (.throws e) => do
      let (s', answers) ← run s cs
      return (s', .error e :: answers)
    | .error e => .error e

end Values

end Config
