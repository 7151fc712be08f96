import DioMonitor.Lib.Heap
import DioMonitor.Lib.OrderedMap
import DioMonitor.Utils.Config

/-!
# Configuration values on the heap

A `config::array` or a `config::dict` keeps each of its elements in an object of its own, behind a
`void*` beside which stands the name of the object's type. Copying one makes new objects all the way
down, clearing it gives them back, and a value that is inserted or pushed belongs to the object it was
put in from then on.

The second half is what a program can do with such objects: a list of calls, each on objects that
earlier calls made. `objects` are the ones the program can name, at their places.
-/

namespace ConfigHeap

open Config

/-! ## Objects -/

/-- The types that `config` can tell apart. -/
inductive Ty where
  | float
  | long
  | string
  | bool
  | array
  | dict
  deriving DecidableEq, Repr

/-- `typeid (T).name ()`. -/
def Ty.name : Ty → Str
  | float => "f".toList
  | long => "l".toList
  | string => "NSt7__cxx1112basic_stringIcSt11char_traitsIcESaIcEEE".toList
  | bool => "b".toList
  | array => "N7monitor5utils6config5arrayE".toList
  | dict => "N7monitor5utils6config4dictE".toList

abbrev Addr := ℕ

/-- An object that `new` makes, or a variable. The two vectors of an array have the same length, the two
maps of a dictionary the same names. -/
inductive Cell where
  | float (x : FloatVal)
  | long (i : ℤ)
  | string (s : Str)
  | bool (b : Bool)
  | array (content : List (Ty × Addr))
  | dict (content : OrderedMap Str (Ty × Addr))

namespace Cell

def asFloat : Cell → Option FloatVal
  | float x => some x
  | _ => none

def asLong : Cell → Option ℤ
  | long i => some i
  | _ => none

def asString : Cell → Option Str
  | string s => some s
  | _ => none

def asBool : Cell → Option Bool
  | bool b => some b
  | _ => none

def asArray : Cell → Option (List (Ty × Addr))
  | array content => some content
  | _ => none

def asDict : Cell → Option (OrderedMap Str (Ty × Addr))
  | dict content => some content
  | _ => none

end Cell

/-- Code that uses objects. What a call did before it throws is not undone. -/
abbrev ObjM (α : Type) := Heap.Prog Cell Fault α

/-- `* (reinterpret_cast <T*> (p))`; undefined where there is no object of that type. -/
def cast {α : Type} (as : Cell → Option α) (p : Addr) : ObjM α := do
  match as (← Heap.load .undefined p) with
  | some x => return x
  | none => throw .undefined

/-- How deep the recursive functions below can get: no deeper than there are addresses in use. -/
def depth : ObjM ℕ := fun h => (.ok h.next, h)

/-! ## Adding elements -/

/-- `array::push`. -/
def arrayPush (this value : Addr) (type : Ty) : ObjM Unit := do
  let content ← cast Cell.asArray this
  Heap.store .undefined this (.array (content ++ [(type, value)]))

/-- `dict::insert (name, value, type)`: the old value of the name is forgotten. -/
def dictInsert (this : Addr) (name : Str) (value : Addr) (type : Ty) : ObjM Unit := do
  let content ← cast Cell.asDict this
  Heap.store .undefined this (.dict (content.insert name (type, value)))

/-- `dict::insert<T>`: where the name is taken the new value is forgotten. -/
def dictEmplace (this : Addr) (name : Str) (value : Addr) (type : Ty) : ObjM Unit := do
  let content ← cast Cell.asDict this
  Heap.store .undefined this (.dict (content.emplace name (type, value)))

/-! ## Copying -/

/-- `array::clone_content`, into the array `other`; `copy` makes the new elements. -/
def arrayCloneContent (copy : Ty → Addr → ObjM Addr) (this other : Addr) : ObjM Unit := do
  (← cast Cell.asArray this).forM fun x => do arrayPush other (← copy x.1 x.2) x.1

/-- `dict::clone_content`, into the dictionary `other`. -/
def dictCloneContent (copy : Ty → Addr → ObjM Addr) (this other : Addr) : ObjM Unit := do
  (← cast Cell.asDict this).entries.forM fun x => do dictInsert other x.1 (← copy x.2.1 x.2.2) x.2.1

/-- `new T (*p)`; for an array or a dictionary this is the copy constructor. -/
def newCopy : ℕ → Ty → Addr → ObjM Addr
  | 0, _, _ => throw .diverges
  | _ + 1, .float, p => do Heap.alloc (.float (← cast Cell.asFloat p))
  | _ + 1, .long, p => do Heap.alloc (.long (← cast Cell.asLong p))
  | _ + 1, .string, p => do Heap.alloc (.string (← cast Cell.asString p))
  | _ + 1, .bool, p => do Heap.alloc (.bool (← cast Cell.asBool p))
  | n + 1, .array, p => do
    let this ← Heap.alloc (.array [])
    arrayCloneContent (newCopy n) p this
    return this
  | n + 1, .dict, p => do
    let this ← Heap.alloc (.dict .empty)
    dictCloneContent (newCopy n) p this
    return this

/-! ## Clearing -/

/-- What `clear` does with one element: it is cleared itself or its destructor is called, where it has
one, and then it is deleted. An array is deleted as a `char`, so the storage of its vectors stays; it is
not part of the model. -/
def deleteElement (clear : Ty → Addr → ObjM Unit) (type : Ty) (p : Addr) : ObjM Unit := do
  if type = .string then
    let _ ← cast Cell.asString p
  if type = .array ∨ type = .dict then
    clear type p
  Heap.dealloc .undefined p

/-- `array::clear` and `dict::clear`; other objects have no such function. -/
def clear : ℕ → Ty → Addr → ObjM Unit
  | 0, _, _ => throw .diverges
  | n + 1, .array, this => do
    (← cast Cell.asArray this).forM fun x => deleteElement (clear n) x.1 x.2
    Heap.store .undefined this (.array [])
  | n + 1, .dict, this => do
    (← cast Cell.asDict this).entries.forM fun x => deleteElement (clear n) x.2.1 x.2.2
    Heap.store .undefined this (.dict .empty)
  | _ + 1, _, _ => throw .undefined

/-- `operator=`. -/
def assign (n : ℕ) (type : Ty) (this other : Addr) : ObjM Unit := do
  clear n type this
  match type with
  | .array => arrayCloneContent (newCopy n) other this
  | .dict => dictCloneContent (newCopy n) other this
  | _ => throw .undefined

/-! ## Printing -/

/-- The elements of an array, separated by commas; `first` tells that none has been printed. -/
def printArray (print : Ty → Addr → ObjM Str) (first : Bool) : List (Ty × Addr) → ObjM Str
  | [] => return []
  | x :: xs => do
    let s ← print x.1 x.2
    let rest ← printArray print false xs
    return (if first then [] else ", ".toList) ++ s ++ rest

/-- The entries of a dictionary. -/
def printDict (print : Ty → Addr → ObjM Str) (first : Bool) : List (Str × Ty × Addr) → ObjM Str
  | [] => return []
  | x :: xs => do
    let s ← print x.2.1 x.2.2
    let rest ← printDict print false xs
    return (if first then [] else ", ".toList) ++ x.1 ++ "=> ".toList ++ s ++ rest

/-- How `array::print` and `dict::print` show one object. -/
def print : ℕ → Ty → Addr → ObjM Str
  | 0, _, _ => throw .diverges
  | _ + 1, .float, p => do return "float(".toList ++ showFloat (← cast Cell.asFloat p) ++ [')']
  | _ + 1, .long, p => do return "long(".toList ++ showInt (← cast Cell.asLong p) ++ [')']
  | _ + 1, .string, p => do return "str(".toList ++ (← cast Cell.asString p) ++ [')']
  | _ + 1, .bool, p => do
    return "bool(".toList ++ (if ← cast Cell.asBool p then ['1'] else ['0']) ++ [')']
  | n + 1, .array, p => do return '[' :: (← printArray (print n) true (← cast Cell.asArray p)) ++ [']']
  | n + 1, .dict, p => do
    return '\x7b' :: (← printDict (print n) true (← cast Cell.asDict p).entries) ++ ['\x7d']

/-! ## Reading a dictionary -/

/-- The error for a name that is not in the dictionary; it shows the dictionary. -/
def notFound {α : Type} (n : ℕ) (this : Addr) (name : Str) : ObjM α := do
  let shown ← print n .dict this
  throw (.throws (.configError 0
    ("Name : [".toList ++ name ++ "] not found in dictionnary ".toList ++ shown)))

/-- The error for an object of another type than the one that is read. -/
def incompatible {α : Type} (type : Ty) (expected name : Str) : ObjM α :=
  throw (.throws (.configError 0 ("Incompatible types : ".toList ++ type.name ++ " and ".toList ++
    expected ++ " for index [".toList ++ name ++ [']'])))

/-- `_content.find (name)`, with the type. -/
def find (this : Addr) (name : Str) : ObjM (Option (Ty × Addr)) := do
  return (← cast Cell.asDict this).find name

/-- `dict::keys`. -/
def keys (this : Addr) : ObjM (List Str) := do
  return (← cast Cell.asDict this).entries.map Prod.fst

/-- `dict::getRef<T>`, and `dict::get<T>` before the object is copied. -/
def getRef (n : ℕ) (type : Ty) (this : Addr) (name : Str) : ObjM Addr := do
  match ← find this name with
  | none => notFound n this name
  | some (type', p) => if type' = type then return p else incompatible type' type.name name

/-- `dict::get_int`. -/
def getInt (n : ℕ) (this : Addr) (name : Str) : ObjM ℤ := do
  match ← find this name with
  | none => notFound n this name
  | some (.float, p) => return Dict.toInt (Dict.floatToLong (← cast Cell.asFloat p))
  | some (.long, p) => return Dict.toInt (← cast Cell.asLong p)
  | some (type, _) => incompatible type Ty.long.name name

/-- `dict::get_float`; its error names `long` as the type that is expected. -/
def getFloat (n : ℕ) (this : Addr) (name : Str) : ObjM FloatVal := do
  match ← find this name with
  | none => notFound n this name
  | some (.long, p) => return Dict.longToFloat (← cast Cell.asLong p)
  | some (.float, p) => cast Cell.asFloat p
  | some (type, _) => incompatible type Ty.long.name name

/-- `dict::has_int` and `dict::has_float`, which test the same. -/
def hasNumber (this : Addr) (name : Str) : ObjM Bool := do
  match ← find this name with
  | none => return false
  | some (type, _) => return type = .long ∨ type = .float

/-- `dict::has<T>` for the other types. -/
def has (type : Ty) (this : Addr) (name : Str) : ObjM Bool := do
  match ← find this name with
  | none => return false
  | some (type', _) => return type' = type

/-- `dict::getOr_int`. -/
def getOrInt (this : Addr) (name : Str) (orVal : ℤ) : ObjM ℤ := do
  match ← find this name with
  | none => return orVal
  | some (.float, p) => return Dict.toInt (Dict.floatToLong (← cast Cell.asFloat p))
  | some (.long, p) => return Dict.toInt (← cast Cell.asLong p)
  | some (type, _) => incompatible type Ty.long.name name

/-- `dict::getOr_float`. -/
def getOrFloat (this : Addr) (name : Str) (orVal : FloatVal) : ObjM FloatVal := do
  match ← find this name with
  | none => return orVal
  | some (.long, p) => return Dict.longToFloat (← cast Cell.asLong p)
  | some (.float, p) => cast Cell.asFloat p
  | some (type, _) => incompatible type Ty.float.name name

/-- `dict::getOr<T>` for a string or a boolean. -/
def getOr {α : Type} (type : Ty) (as : Cell → Option α) (this : Addr) (name : Str) (orVal : α) :
    ObjM α := do
  match ← find this name with
  | none => return orVal
  | some (type', p) => if type' = type then cast as p else incompatible type' type.name name

/-! ## Reading an array -/

/-- `array::size`. -/
def size (this : Addr) : ObjM ℕ := do
  return (← cast Cell.asArray this).length

/-- The element at an index, with its type; the error shows the size. -/
def element (this : Addr) (i : ℕ) : ObjM (Ty × Addr) := do
  let content ← cast Cell.asArray this
  match content[i]? with
  | none => throw (.throws (.configError 0
      ("Out of array : ".toList ++ Nat.toDigits 10 i ++ " > ".toList ++ Nat.toDigits 10 content.length)))
  | some x => return x

/-- The error for an element of another type than the one that is read. -/
def incompatibleElement {α : Type} (type : Ty) (expected : Str) : ObjM α :=
  throw (.throws (.configError 0
    ("Incompatible types : ".toList ++ type.name ++ "  and ".toList ++ expected)))

/-- `array::get_int`. -/
def elementInt (this : Addr) (i : ℕ) : ObjM ℤ := do
  match ← element this i with
  | (.float, p) => return Dict.toInt (Dict.floatToLong (← cast Cell.asFloat p))
  | (.long, p) => return Dict.toInt (← cast Cell.asLong p)
  | (type, _) => incompatibleElement type Ty.long.name

/-- `array::get_float`. -/
def elementFloat (this : Addr) (i : ℕ) : ObjM FloatVal := do
  match ← element this i with
  | (.long, p) => return Dict.longToFloat (← cast Cell.asLong p)
  | (.float, p) => cast Cell.asFloat p
  | (type, _) => incompatibleElement type Ty.float.name

/-- `array::get<T>`, before the object is copied. -/
def elementRef (type : Ty) (this : Addr) (i : ℕ) : ObjM Addr := do
  let (type', p) ← element this i
  if type' = type then return p else incompatibleElement type' type.name

end ConfigHeap
