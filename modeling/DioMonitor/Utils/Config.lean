import DioMonitor.Lib.Arith
import DioMonitor.Lib.Single
import Mathlib.Data.Int.Log
import Mathlib.Algebra.Order.Round

/-!
# Configuration values

`config::dict` maps names to typed values; it is what `toml::parse` returns and what a VM is built
from. The two maps of a `dict` (`_types` and `_content`) always hold the same names, so they are one
list of named values here, in increasing order of the names as in a `std::map`.

Reading a name that is absent, or that has another type, throws a `config_error`.
-/

/-- A `std::string`, one character per byte. -/
abbrev Str := List Char

/-- The exceptions of the program. The first four derive from `utils::exception`, the others are
exceptions of the standard library. -/
inductive Exn where
  | configError (line : ℕ) (msg : Str)
  | fileError (msg : Str)
  | addrError (msg : Str)
  | libvirtError (msg : Str)
  | invalidArgument
  | outOfRange
  | badAlloc
  | logicError
  | filesystemError
  deriving DecidableEq, Repr

/-- The exceptions that `catch (utils::exception & e)` catches. -/
def Exn.isUtils : Exn → Bool
  | configError .. | fileError _ | addrError _ | libvirtError _ => true
  | _ => false

/-- Why a computation has no result. -/
inductive Fault where
  | throws (e : Exn)
  /-- What C++ leaves undefined: `back` or `pop_back` of an empty list, an access outside a buffer. -/
  | undefined
  /-- A loop goes on for ever. -/
  | diverges
  /-- A read waits for bytes that never come. -/
  | blocks
  deriving DecidableEq, Repr

namespace Config

/-- A value of a configuration. Integers are stored as `long`, reals as `float`. -/
inductive Value where
  | int (i : ℤ)
  | float (x : FloatVal)
  | string (s : Str)
  | bool (b : Bool)
  | array (vs : List Value)
  | dict (kvs : List (Str × Value))
  deriving Repr

/-- The content of a `config::dict`. -/
abbrev Dict := List (Str × Value)

namespace Value

/-- The name `typeid` gives to the type of a value. -/
def typeName : Value → Str
  | int _ => "l".toList
  | float _ => "f".toList
  | string _ => "NSt7__cxx1112basic_stringIcSt11char_traitsIcESaIcEEE".toList
  | bool _ => "b".toList
  | array _ => "N7monitor5utils6config5arrayE".toList
  | dict _ => "N7monitor5utils6config4dictE".toList

end Value

/-! ## Printing -/

/-- Decimal digits of an integer. -/
def showInt : ℤ → Str
  | .ofNat n => Nat.toDigits 10 n
  | .negSucc n => '-' :: Nat.toDigits 10 (n + 1)

/-- Removes the trailing zeros of a fractional part. -/
def stripZeros (ds : Str) : Str := (ds.reverse.dropWhile (· = '0')).reverse

/-- A digit string with a decimal point after its first `n` digits; no point before an empty
fractional part. -/
def withPoint (ds : Str) (n : ℕ) : Str :=
  match stripZeros (ds.drop n) with
  | [] => ds.take n
  | frac => ds.take n ++ '.' :: frac

/-- What an output stream writes for a positive real: six significant digits, in fixed notation when
the exponent is between `-4` and `5`. -/
def showPos (q : ℚ) : Str :=
  let x := Int.log 10 q
  let m := Single.roundHalfEven (q / 10 ^ (x - 5))
  let (m, x) := if m = 1000000 then (100000, x + 1) else (m, x)
  let ds := Nat.toDigits 10 m
  if 0 ≤ x ∧ x < 6 then withPoint ds (x.toNat + 1)
  else if -4 ≤ x ∧ x < 0 then withPoint ('0' :: (List.replicate ((-x).toNat - 1) '0' ++ ds)) 1
  else
    let e := Nat.toDigits 10 x.natAbs
    withPoint ds 1 ++ 'e' :: (if x < 0 then '-' else '+') :: (if e.length < 2 then '0' :: e else e)

/-- What an output stream writes for a `float`. -/
def showFloat : FloatVal → Str
  | .num q => if q = 0 then ['0'] else if q < 0 then '-' :: showPos (-q) else showPos q
  | .inf neg => if neg then "-inf".toList else "inf".toList
  | .nan => "nan".toList

mutual

/-- How `array::print` and `dict::print` show one value. -/
def Value.print : Value → Str
  | .float x => "float(".toList ++ showFloat x ++ [')']
  | .int i => "long(".toList ++ showInt i ++ [')']
  | .string s => "str(".toList ++ s ++ [')']
  | .bool b => "bool(".toList ++ (if b then ['1'] else ['0']) ++ [')']
  | .array vs => '[' :: printArray true vs ++ [']']
  | .dict kvs => '{' :: printDict true kvs ++ ['}']

/-- The elements of an array, separated by commas; `first` tells that none has been printed. -/
def printArray (first : Bool) : List Value → Str
  | [] => []
  | v :: vs => (if first then [] else ", ".toList) ++ v.print ++ printArray false vs

/-- The entries of a dictionary. -/
def printDict (first : Bool) : List (Str × Value) → Str
  | [] => []
  | (k, v) :: kvs =>
    (if first then [] else ", ".toList) ++ k ++ "=> ".toList ++ v.print ++ printDict false kvs

end

namespace Dict

/-- The entries of a `std::map`: each name once, in increasing order. -/
def Sorted (d : Dict) : Prop := d.Pairwise fun a b => a.1 < b.1

instance (d : Dict) : Decidable d.Sorted := inferInstanceAs (Decidable (List.Pairwise _ d))

/-! ## Access -/

/-- `dict::insert`: the value replaces one of the same name. -/
def insert (name : Str) (value : Value) : Dict → Dict
  | [] => [(name, value)]
  | (k, v) :: d =>
    if name < k then (name, value) :: (k, v) :: d
    else if name = k then (name, value) :: d
    else (k, v) :: insert name value d

/-- `_content.find (name)`. -/
def find (d : Dict) (name : Str) : Option Value := d.lookup name

/-- The error for a name that is not in the dictionary. -/
def notFound (d : Dict) (name : Str) : Exn :=
  .configError 0 ("Name : [".toList ++ name ++ "] not found in dictionnary ".toList ++ (Value.dict d).print)

/-- The error for a value of another type than the one that is read. -/
def incompatible (v : Value) (expected name : Str) : Exn :=
  .configError 0 ("Incompatible types : ".toList ++ v.typeName ++ " and ".toList ++ expected ++
    " for index [".toList ++ name ++ [']'])

/-- A `long` converted to `int`. -/
def toInt (i : ℤ) : ℤ := i.bmod (2 ^ 32)

/-- `static_cast<float>` of a `long`. -/
def longToFloat (i : ℤ) : FloatVal := .num (Single.round i)

/-- `static_cast<long>` of a `float`: truncation towards zero; `0` where C++ leaves it undefined. -/
def floatToLong : FloatVal → ℤ
  | .num q => q.num.tdiv q.den
  | _ => 0

/-- `dict::get<config::dict>`. -/
def getDict (d : Dict) (name : Str) : Except Exn Dict :=
  match d.find name with
  | none => .error (d.notFound name)
  | some (.dict kvs) => .ok kvs
  | some v => .error (incompatible v (Value.dict []).typeName name)

/-- `dict::get<std::string>`. -/
def getString (d : Dict) (name : Str) : Except Exn Str :=
  match d.find name with
  | none => .error (d.notFound name)
  | some (.string s) => .ok s
  | some v => .error (incompatible v (Value.string []).typeName name)

/-- `dict::getOr<std::string>`. -/
def getOrString (d : Dict) (name orVal : Str) : Except Exn Str :=
  match d.find name with
  | none => .ok orVal
  | some (.string s) => .ok s
  | some v => .error (incompatible v (Value.string []).typeName name)

/-- `dict::getOr_int`. -/
def getOrInt (d : Dict) (name : Str) (orVal : ℤ) : Except Exn ℤ :=
  match d.find name with
  | none => .ok orVal
  | some (.float x) => .ok (toInt (floatToLong x))
  | some (.int i) => .ok (toInt i)
  | some v => .error (incompatible v (Value.int 0).typeName name)

/-- `dict::getOr_float`. -/
def getOrFloat (d : Dict) (name : Str) (orVal : FloatVal) : Except Exn FloatVal :=
  match d.find name with
  | none => .ok orVal
  | some (.int i) => .ok (longToFloat i)
  | some (.float x) => .ok x
  | some v => .error (incompatible v (Value.float .nan).typeName name)

end Dict

end Config
