import DioMonitor.Utils.Config

/-!
# Reading numbers

`std::stoi` and `std::stof` read the number that a text begins with and ignore what follows it. They
throw `invalid_argument` when there is none, and `out_of_range` when it does not fit.
-/

namespace Numbers

/-- `isspace`. -/
def isSpace (c : Char) : Bool := c = ' ' || ('\t' ≤ c && c ≤ '\r')

/-- `isxdigit`. -/
def isHexDigit (c : Char) : Bool := c.isDigit || ('a' ≤ c.toLower && c.toLower ≤ 'f')

/-- The value of a decimal or hexadecimal digit. -/
def digitVal (c : Char) : ℕ :=
  if c.isDigit then c.toNat - '0'.toNat else c.toLower.toNat - 'a'.toNat + 10

/-- The number written by some digits. -/
def ofDigits (base : ℕ) (ds : Str) : ℕ := ds.foldl (fun n c => base * n + digitVal c) 0

/-- The sign that a text may begin with, and the rest of the text. -/
def splitSign : Str → Bool × Str
  | '-' :: s => (true, s)
  | '+' :: s => (false, s)
  | s => (false, s)

/-- `strtol` in base ten; `none` when the text does not begin with a number. -/
def strtol (s : Str) : Option ℤ :=
  let (neg, s) := splitSign (s.dropWhile isSpace)
  let ds := s.takeWhile Char.isDigit
  if ds = [] then none
  else some (if neg then -(ofDigits 10 ds : ℤ) else ofDigits 10 ds)

/-- The result of `strtol`: zero without a number, and cut to the range of a `long`. -/
def toLong (s : Str) : ℤ := max (-2 ^ 63) (min (2 ^ 63 - 1) ((strtol s).getD 0))

/-- `atoi`, or the result of `strtol` kept in an `int`. -/
def atoi (s : Str) : ℤ := (toLong s).bmod (2 ^ 32)

/-- `std::stoi`. -/
def stoi (s : Str) : Except Exn ℤ :=
  match strtol s with
  | none => .error .invalidArgument
  | some i => if -2 ^ 31 ≤ i ∧ i < 2 ^ 31 then .ok i else .error .outOfRange

/-! ## Reals -/

/-- The `float` nearest to a positive real. `strtof` reports a range error above the largest finite
value, and for an inexact result below the smallest normal one. -/
def nearest (q : ℚ) : Option ℚ :=
  let r := Single.nearest q
  if 2 ^ 128 ≤ r then none
  else if (2 : ℚ) ^ (-126 : ℤ) ≤ r then some r
  else if q.den ∣ 2 ^ 149 then some q
  else none

/-- A real as `strtof` returns it. -/
def toFloat (neg : Bool) (q : ℚ) : Except Exn FloatVal :=
  if q = 0 then .ok (.num 0)
  else
    match nearest q with
    | some r => .ok (.num (if neg then -r else r))
    | none => .error .outOfRange

/-- The digits before the point, those after it, and the rest of the text. -/
def splitPoint (isDig : Char → Bool) (s : Str) : Str × Str × Str :=
  match s.dropWhile isDig with
  | '.' :: s' => (s.takeWhile isDig, s'.takeWhile isDig, s'.dropWhile isDig)
  | s' => (s.takeWhile isDig, [], s')

/-- The exponent that a text may begin with, after the letter `mark`. -/
def exponent (mark : Char) : Str → ℤ
  | [] => 0
  | c :: s =>
    if c.toLower = mark then
      let (neg, s) := splitSign s
      let e := ofDigits 10 (s.takeWhile Char.isDigit)
      if neg then -e else e
    else 0

/-- The hexadecimal number after `0x`, when there is one. -/
def hexBody : Str → Option Str
  | '0' :: x :: s =>
    let (ip, fp, _) := splitPoint isHexDigit s
    if x.toLower = 'x' ∧ ip ++ fp ≠ [] then some s else none
  | _ => none

/-- The text begins with a word, whatever the case of its letters. -/
def beginsWith (w s : Str) : Bool := (s.take w.length).map Char.toLower = w

/-- `strtof`; `none` when the text does not begin with a number. -/
def strtof (s : Str) : Option (Except Exn FloatVal) :=
  let (neg, s) := splitSign (s.dropWhile isSpace)
  if beginsWith ['i', 'n', 'f'] s then some (.ok (.inf neg))
  else if beginsWith ['n', 'a', 'n'] s then some (.ok .nan)
  else
    match hexBody s with
    | some h =>
      let (ip, fp, rest) := splitPoint isHexDigit h
      let e := exponent 'p' rest - 4 * fp.length
      some (toFloat neg (ofDigits 16 (ip ++ fp) * (2 : ℚ) ^ e))
    | none =>
      let (ip, fp, rest) := splitPoint Char.isDigit s
      let e := exponent 'e' rest - fp.length
      if ip ++ fp = [] then none else some (toFloat neg (ofDigits 10 (ip ++ fp) * (10 : ℚ) ^ e))

/-- `std::stof`. -/
def stof (s : Str) : Except Exn FloatVal := (strtof s).getD (.error .invalidArgument)

end Numbers
