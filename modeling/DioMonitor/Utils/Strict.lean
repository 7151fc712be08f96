import DioMonitor.Utils.Grammar
import DioMonitor.Utils.Literals

/-!
# The language the parser is meant for

In the strict language every array and every inline table is closed by its own bracket, a number is a
decimal literal in its whole length, and a string is what stands between its quotes. `Loose` describes the
other texts that the parser accepts, by the first place where the parser leaves the strict language: it
takes a word for a number that is none, an inline table stops at a `[` or at the end of the text, or a `#`
inside a string hides the rest of its line.
-/

namespace Toml

/-- A name and an equals sign. -/
def Assignment (ps : List Str) (name : Str) (ps₂ : List Str) : Prop :=
  ∃ ps₁, significant ps = name :: ps₁ ∧ name ≠ lbracket ∧ significant ps₁ = equals :: ps₂

/-- The header of a section. -/
def Header (ps : List Str) (name : Str) (ps₃ : List Str) : Prop :=
  ∃ ps₁ ps₂, significant ps = lbracket :: ps₁ ∧ significant ps₁ = name :: ps₂ ∧
    significant ps₂ = rbracket :: ps₃

end Toml

/-! ## The strict language -/

namespace Strict

open Config Toml

/-- A string literal after its opening quote: the text up to the next such quote, whatever it is. -/
def Quoted (fin : Char) (ps : List Str) (s : Str) (ps' : List Str) : Prop :=
  ∃ body, ps = body ++ [fin] :: ps' ∧ [fin] ∉ body ∧ s = body.flatten

mutual

/-- A value. -/
inductive IsValue : List Str → Value → List Str → Prop
  | dict {ps ps₁ ps' : List Str} {kvs : List (Str × Value)} (h : significant ps = lbrace :: ps₁)
      (hd : IsTable ps₁ kvs ps') : IsValue ps (.dict (build kvs)) ps'
  | array {ps ps₁ ps' : List Str} {vs : List Value} (h : significant ps = lbracket :: ps₁)
      (ha : IsArray ps₁ vs ps') : IsValue ps (.array vs) ps'
  | string {ps ps₁ ps' : List Str} {fin : Char} {s : Str} (hf : fin = '\'' ∨ fin = '"')
      (h : significant ps = [fin] :: ps₁) (hs : Quoted fin ps₁ s ps') : IsValue ps (.string s) ps'
  | boolFalse {ps ps' : List Str} (h : significant ps = falseWord :: ps') :
      IsValue ps (.bool false) ps'
  | boolTrue {ps ps' : List Str} (h : significant ps = trueWord :: ps') : IsValue ps (.bool true) ps'
  | float {ps ps' : List Str} {x : Str} {neg : Bool} {q : ℚ} {v : FloatVal}
      (h : significant ps = x :: ps') (hx : Numbers.Decimal x neg q)
      (hv : Numbers.toFloat neg q = .ok v) : IsValue ps (.float v) ps'
  | int {ps ps' : List Str} {x : Str} {i : ℤ} (h : significant ps = x :: ps')
      (hx : Numbers.Numeral x i) (hlo : -2 ^ 31 ≤ i) (hhi : i < 2 ^ 31) : IsValue ps (.int i) ps'

/-- The entries of an inline table, up to its closing brace. -/
inductive IsTable : List Str → List (Str × Value) → List Str → Prop
  | last {ps ps₂ ps₃ ps' : List Str} {name : Str} {v : Value} (h : Assignment ps name ps₂)
      (hv : IsValue ps₂ v ps₃) (hc : significant ps₃ = rbrace :: ps') : IsTable ps [(name, v)] ps'
  | more {ps ps₂ ps₃ ps₄ ps' : List Str} {name : Str} {v : Value} {kvs : List (Str × Value)}
      (h : Assignment ps name ps₂) (hv : IsValue ps₂ v ps₃) (hc : significant ps₃ = comma :: ps₄)
      (hk : IsTable ps₄ kvs ps') : IsTable ps ((name, v) :: kvs) ps'

/-- The elements of an array, up to its closing bracket. -/
inductive IsArray : List Str → List Value → List Str → Prop
  | close {ps ps' : List Str} (h : significant ps = rbracket :: ps') : IsArray ps [] ps'
  | last {ps ps₁ ps' : List Str} {v : Value} (hv : IsValue ps v ps₁)
      (hc : significant ps₁ = rbracket :: ps') : IsArray ps [v] ps'
  | more {ps ps₁ ps₂ ps' : List Str} {v : Value} {vs : List Value} (hv : IsValue ps v ps₁)
      (hc : significant ps₁ = comma :: ps₂) (hk : IsArray ps₂ vs ps') : IsArray ps (v :: vs) ps'

end

/-- The entries of a section, up to the next header or the end of the text. -/
inductive IsBody : List Str → List (Str × Value) → List Str → Prop
  | eof {ps : List Str} (h : significant ps = []) : IsBody ps [] [newline]
  | header {ps ps' : List Str} (h : significant ps = lbracket :: ps') : IsBody ps [] (lbracket :: ps')
  | entry {ps ps₂ ps₃ ps' : List Str} {name : Str} {v : Value} {kvs : List (Str × Value)}
      (h : Assignment ps name ps₂) (hv : IsValue ps₂ v ps₃) (hk : IsBody ps₃ kvs ps') :
      IsBody ps ((name, v) :: kvs) ps'

/-- Sections up to the end of the text. -/
inductive IsSections : List Str → List (Str × Value) → Prop
  | nil {ps : List Str} (h : significant ps = []) : IsSections ps []
  | cons {ps ps₃ ps' : List Str} {name : Str} {kvs secs : List (Str × Value)} (h : Header ps name ps₃)
      (hk : IsBody ps₃ kvs ps') (hs : IsSections ps' secs) :
      IsSections ps ((name, .dict (build kvs)) :: secs)

/-- The text of a configuration. -/
def Document (content : Str) (d : Dict) : Prop :=
  ∃ secs, IsSections (Lexing.pieces delimiters (content ++ newline)) secs ∧ d = build secs

end Strict

/-! ## What else is accepted -/

namespace Loose

open Config Toml

/-- How the parser leaves the strict language. -/
inductive Kind
  /-- A word that is no number is read as one. -/
  | word
  /-- An inline table is not closed. -/
  | cut
  /-- A `#` inside a string hides the rest of its line. -/
  | hash

/-- A word that is read as a number, but is not one in its whole length. -/
def Number (x : Str) : Prop :=
  Word x ∧ if '.' ∈ x then (∃ v, Numbers.stof x = .ok v) ∧ ∀ neg q, ¬ Numbers.Decimal x neg q
    else (∃ i, Numbers.stoi x = .ok i) ∧ ∀ i, ¬ Numbers.Numeral x i

/-- After its opening quote, a string has a `#` in front of the next quote. -/
def Hidden (fin : Char) (ps : List Str) : Prop :=
  ∃ body rest, ps = body ++ ['#'] :: rest ∧ [fin] ∉ body

/-- A value that the parser reads as it is written. -/
def Plain (ps : List Str) (v : Value) (ps' : List Str) : Prop :=
  Strict.IsValue ps v ps' ∧ IsValue ps v ps'

mutual

/-- A value with such a word or such a string in it. -/
inductive HasDefect : Kind → List Str → List Str → Prop
  | word {ps ps' : List Str} {x : Str} (h : significant ps = x :: ps') (hx : Number x) :
      HasDefect .word ps ps'
  | hash {ps ps₁ ps' : List Str} {fin : Char} {s : Str} (hf : fin = '\'' ∨ fin = '"')
      (h : significant ps = [fin] :: ps₁) (hh : Hidden fin ps₁) (hs : Literal fin ps₁ s ps') :
      HasDefect .hash ps ps'
  | dict {k : Kind} {ps ps₁ ps' : List Str} (h : significant ps = lbrace :: ps₁)
      (hd : InTable k ps₁ ps') : HasDefect k ps ps'
  | array {k : Kind} {ps ps₁ ps' : List Str} (h : significant ps = lbracket :: ps₁)
      (ha : InArray k ps₁ ps') : HasDefect k ps ps'

/-- The same in the entries of an inline table. -/
inductive InTable : Kind → List Str → List Str → Prop
  | last {k : Kind} {ps ps₂ ps₃ ps' : List Str} {name : Str} (h : Assignment ps name ps₂)
      (hv : HasDefect k ps₂ ps₃) (hc : significant ps₃ = rbrace :: ps') : InTable k ps ps'
  | first {k : Kind} {ps ps₂ ps₃ ps₄ ps' : List Str} {name : Str} {kvs : List (Str × Value)}
      (h : Assignment ps name ps₂) (hv : HasDefect k ps₂ ps₃) (hc : significant ps₃ = comma :: ps₄)
      (hk : Entries false ps₄ kvs ps') : InTable k ps ps'
  | rest {k : Kind} {ps ps₂ ps₃ ps₄ ps' : List Str} {name : Str} {v : Value} (h : Assignment ps name ps₂)
      (hv : Plain ps₂ v ps₃) (hc : significant ps₃ = comma :: ps₄) (hk : InTable k ps₄ ps') :
      InTable k ps ps'

/-- The same in the elements of an array. -/
inductive InArray : Kind → List Str → List Str → Prop
  | last {k : Kind} {ps ps₁ ps' : List Str} (hv : HasDefect k ps ps₁)
      (hc : significant ps₁ = rbracket :: ps') : InArray k ps ps'
  | first {k : Kind} {ps ps₁ ps₂ ps' : List Str} {vs : List Value} (hv : HasDefect k ps ps₁)
      (hc : significant ps₁ = comma :: ps₂) (hk : Elements ps₂ vs ps') : InArray k ps ps'
  | rest {k : Kind} {ps ps₁ ps₂ ps' : List Str} {v : Value} (hv : Plain ps v ps₁)
      (hc : significant ps₁ = comma :: ps₂) (hk : InArray k ps₂ ps') : InArray k ps ps'

end

/-- An inline table, after its opening brace, that stops at the end of the text or at a `[`. -/
inductive Cut : List Str → List Str → Prop
  | eof {ps : List Str} (h : significant ps = []) : Cut ps [newline]
  | header {ps ps' : List Str} (h : significant ps = lbracket :: ps') : Cut ps (lbracket :: ps')
  | entry {ps ps₂ ps₃ ps₄ ps' : List Str} {name : Str} {v : Value} (h : Assignment ps name ps₂)
      (hv : Plain ps₂ v ps₃) (hc : significant ps₃ = comma :: ps₄) (hk : Cut ps₄ ps') : Cut ps ps'

/-- The entries of a section, the first of which that is not plain has such a value or is such a table. -/
inductive InBody : Kind → List Str → List Str → Prop
  | value {k : Kind} {ps ps₂ ps₃ ps' : List Str} {name : Str} {kvs : List (Str × Value)}
      (h : Assignment ps name ps₂) (hv : HasDefect k ps₂ ps₃) (hk : Entries true ps₃ kvs ps') :
      InBody k ps ps'
  | cut {ps ps₂ ps₃ ps₄ ps' : List Str} {name : Str} {kvs : List (Str × Value)}
      (h : Assignment ps name ps₂) (hb : significant ps₂ = lbrace :: ps₃) (hc : Cut ps₃ ps₄)
      (hk : Entries true ps₄ kvs ps') : InBody .cut ps ps'
  | rest {k : Kind} {ps ps₂ ps₃ ps' : List Str} {name : Str} {v : Value} (h : Assignment ps name ps₂)
      (hv : Plain ps₂ v ps₃) (hk : InBody k ps₃ ps') : InBody k ps ps'

/-- Sections, the first of which that is not plain has such an entry. -/
inductive InSections : Kind → List Str → Prop
  | first {k : Kind} {ps ps₃ ps' : List Str} {name : Str} {secs : List (Str × Value)}
      (h : Header ps name ps₃) (hk : InBody k ps₃ ps') (hs : Sections ps' secs) : InSections k ps
  | rest {k : Kind} {ps ps₃ ps' : List Str} {name : Str} {kvs : List (Str × Value)}
      (h : Header ps name ps₃) (hb : Strict.IsBody ps₃ kvs ps') (hk : Entries true ps₃ kvs ps')
      (hs : InSections k ps') : InSections k ps

/-- The text of a configuration with such an entry. -/
def Document (k : Kind) (content : Str) : Prop :=
  InSections k (Lexing.pieces delimiters (content ++ newline))

end Loose
