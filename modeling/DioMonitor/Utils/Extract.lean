import DioMonitor.Utils.Numbers

/-!
# Formatted input

`operator>>` of an input stream, for unsigned integers. A stream remembers the end of its file and a
failure; after a failure nothing more is read from it.
-/

/-- An input file: whether it is open, and its state bits. -/
structure IFStream where
  isOpen : Bool
  eof : Bool := false
  fail : Bool := false
  deriving DecidableEq, Repr

/-- What an extraction does: the value that it stores, if any, and the state bits that it sets. -/
structure Extraction where
  value : Option ℕ
  eof : Bool
  fail : Bool
  deriving DecidableEq, Repr

namespace Extraction

open Numbers

/-- `operator>>` for an unsigned integer whose largest value is `max`. Where nothing but blanks is left
the variable keeps its value; where no number begins it becomes zero. -/
def unsigned (max : ℕ) (s : Str) : Extraction :=
  let s := s.dropWhile isSpace
  if s = [] then { value := none, eof := true, fail := true }
  else
    let (neg, s) := splitSign s
    let ds := s.takeWhile Char.isDigit
    let n := ofDigits 10 ds
    let eof : Bool := s.dropWhile Char.isDigit = []
    if ds = [] then { value := some 0, eof, fail := true }
    else if max < n then { value := some max, eof, fail := true }
    else { value := some (if neg then (max + 1 - n) % (max + 1) else n), eof, fail := false }

end Extraction

namespace IFStream

/-- The constructor of `std::ifstream`; the file may not exist. -/
def new (file : Option Str) : IFStream := { isOpen := file.isSome, fail := file.isNone }

def good (f : IFStream) : Bool := !f.eof && !f.fail

/-- `sync`. At the end of the file it fails. -/
def sync (f : IFStream) : IFStream := if f.good then f else { f with fail := true }

/-- `seekg`. The position is that of the next extraction. -/
def seekg (f : IFStream) : IFStream := { f with eof := false }

/-- `operator>>` into the variable `var`, where `s` is what the file holds from the position on. -/
def extract (max : ℕ) (s : Str) (var : ℕ) (f : IFStream) : ℕ × IFStream :=
  if f.good then
    let e := Extraction.unsigned max s
    (e.value.getD var, { f with eof := e.eof, fail := e.fail })
  else (var, { f with fail := true })

end IFStream
