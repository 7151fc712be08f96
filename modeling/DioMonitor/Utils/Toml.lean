import DioMonitor.Utils.Numbers
import DioMonitor.Utils.Tokenizer

/-!
# The parser of configurations

`toml::parse` reads the text of a configuration with a tokenizer. Its functions call each other to any
depth, so they carry fuel here, and `diverges` is what they return without any left; `parse` gives them
as much as they can use. `toml::dump` writes a configuration.
-/

namespace Toml

open Config Tokenizer

/-! ## Tokens -/

def lbracket : Str := ['[']
def rbracket : Str := [']']
def lbrace : Str := ['{']
def rbrace : Str := ['}']
def equals : Str := ['=']
def comma : Str := [',']
def falseWord : Str := "false".toList
def trueWord : Str := "true".toList

/-- The delimiters of the tokenizer that `parse` creates. -/
def delimiters : List Str :=
  [lbracket, rbracket, lbrace, rbrace, equals, comma, ['\''], ['"'], [' '], newline, ['\t'], ['\r'],
    ['#']]

/-- The tokens it drops. -/
def blanks : List Str := [[' '], ['\t'], newline, ['\r']]

/-- The tokens that begin a comment. -/
def comments : List Str := [['#']]

/-! ## Errors -/

def throwExn {α : Type} (e : Exn) : TokM α := throw (.throws e)

/-- What a function of the standard library returns or throws. -/
def lift {α : Type} : Except Exn α → TokM α
  | .ok a => pure a
  | .error e => throwExn e

/-- The error that `assert_msg` throws at a line. -/
def assertError (line : ℕ) (msg : Str) : Exn :=
  .configError line (msg ++ " at line : ".toList ++ Nat.toDigits 10 line)

/-- `assert_msg`. -/
def assertMsg (test : Bool) (msg : Str) : TokM Unit :=
  if test then pure ()
  else do
    rewind
    let tok ← get
    throwExn (assertError tok.getLineNumber msg)

def expectedEquals : Str := "expected = ".toList
def expectedRBracket : Str := "expected ]".toList
def expectedComma : Str := "expected ,".toList
def expectedRBrace (next : Str) : Str := "expected \x7d or , (not ".toList ++ next ++ [')']
def expectedLBracket (next : Str) : Str := "expected [ (not ".toList ++ next ++ [')']
def unterminated : Str := "Unterminated string literal".toList

/-! ## Values -/

/-- `parse_int`. -/
def parseInt : TokM ℤ := do
  let x ← next
  lift (Numbers.stoi x)

/-- `parse_float`. -/
def parseFloat : TokM FloatVal := do
  let x ← next
  lift (Numbers.stof x)

/-- The loop of `parse_string`; `ss` is the text read so far. -/
def stringLoop (fin : Char) : ℕ → Str → TokM Str
  | 0, _ => throw .diverges
  | fuel + 1, ss => do
    let x ← next
    if x = [] then
      let tok ← get
      throwExn (.configError tok.getLineNumber unterminated)
    else if x = [fin] then pure ss
    else stringLoop fin fuel (ss ++ x)

/-- `parse_string`, after the character `fin` that begins the literal and ends it. -/
def parseString (fuel : ℕ) (fin : Char) : TokM Str := do
  skip false
  let s ← stringLoop fin fuel []
  skip true
  return s

mutual

/-- The loop of `parse_dict`; `dic` is the dictionary read so far. -/
def parseDict : ℕ → Bool → Dict → TokM Dict
  | 0, _, _ => throw .diverges
  | fuel + 1, glob, dic => do
    let name ← next
    if name = [] ∨ name = lbracket then
      rewind
      return dic
    else
      let eq ← next
      assertMsg (eq = equals) expectedEquals
      let value ← parseValue fuel
      if glob then parseDict fuel glob (dic.insert name value)
      else
        let next ← next
        assertMsg (next = rbrace ∨ next = comma) (expectedRBrace next)
        if next = rbrace then return dic.insert name value
        else parseDict fuel glob (dic.insert name value)

/-- The loop of `parse_array`; `arr` is the array read so far. -/
def parseArray : ℕ → List Value → TokM (List Value)
  | 0, _ => throw .diverges
  | fuel + 1, arr => do
    let x ← next
    if x ≠ rbracket then
      rewind
      let value ← parseValue fuel
      let t ← next
      assertMsg (t = comma ∨ t = rbracket) expectedComma
      if t = rbracket then return arr ++ [value]
      else parseArray fuel (arr ++ [value])
    else return arr

/-- `parse_value`. -/
def parseValue : ℕ → TokM Value
  | 0 => throw .diverges
  | fuel + 1 => do
    let begin_ ← next
    if begin_ = lbrace then return .dict (← parseDict fuel false [])
    else if begin_ = lbracket then return .array (← parseArray fuel [])
    else if begin_ = ['\''] then return .string (← parseString fuel '\'')
    else if begin_ = ['"'] then return .string (← parseString fuel '"')
    else if begin_ = falseWord then return .bool false
    else if begin_ = trueWord then return .bool true
    else
      rewind
      if '.' ∈ begin_ then return .float (← parseFloat)
      else return .int (← parseInt)

end

/-! ## Sections -/

/-- The loop of `parse`; `dic` is the configuration read so far. -/
def sections : ℕ → Dict → TokM Dict
  | 0, _ => throw .diverges
  | fuel + 1, dic => do
    let next₁ ← next
    assertMsg (next₁ = lbracket ∨ next₁ = [] ∨ next₁ = ['#']) (expectedLBracket next₁)
    if next₁ = lbracket then
      let name ← next
      let closing ← next
      assertMsg (closing = rbracket) expectedRBracket
      let content ← parseDict fuel true []
      sections fuel (dic.insert name (.dict content))
    else return dic

/-- The tokenizer of `parse`. -/
def tokenizer (content : Str) : Tokenizer := Tokenizer.new content delimiters blanks comments

/-- `parse`. -/
def parse (content : Str) : Except Fault Dict :=
  (sections (2 * content.length + 3) []).run' (tokenizer content)

/-! ## Writing -/

mutual

/-- What `dump` writes for an element of an array, and after `=` in an inline table. -/
def dumpValue : Value → Str
  | .float x => showFloat x
  -- `get<long>` returns an `int`
  | .int i => showInt (Dict.toInt i)
  | .string s => '"' :: (s ++ ['"'])
  | .array vs => '[' :: (dumpElements true vs ++ [']'])
  -- `dump (.., false)`: `isGlobal` has its default value
  | .dict kvs => dumpGlobal false kvs
  | .bool _ => []

/-- The elements of an array; `first` tells that none has been written. -/
def dumpElements (first : Bool) : List Value → Str
  | [] => []
  | v :: vs => (if first then [] else ", ".toList) ++ (dumpValue v ++ dumpElements false vs)

/-- The entries of an inline table. -/
def dumpInline (first : Bool) : List (Str × Value) → Str
  | [] => []
  | (k, v) :: kvs =>
    (if first then [] else ", ".toList) ++
      ((match v with
        | .bool _ => []
        | v => k ++ (" = ".toList ++ dumpValue v)) ++ dumpInline false kvs)

/-- The entries of a dictionary with `isGlobal`: sections with `isSuper`, lines otherwise. -/
def dumpGlobal (isSuper : Bool) : List (Str × Value) → Str
  | [] => []
  | (k, v) :: kvs =>
    (match v, isSuper with
      | .dict d, true => "\n[".toList ++ (k ++ ("]\n".toList ++ dumpGlobal false d))
      | .dict d, false => k ++ (" = \x7b".toList ++ (dumpInline true d ++ "\x7d\n".toList))
      | .bool _, _ => newline
      | v, _ => k ++ (" = ".toList ++ (dumpValue v ++ newline))) ++ dumpGlobal isSuper kvs

end

/-- `dump`, with the default values of its other arguments. -/
def dump (cfg : Dict) : Str := dumpGlobal true cfg

end Toml
