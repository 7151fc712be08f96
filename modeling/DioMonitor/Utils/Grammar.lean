import DioMonitor.Utils.Toml
import DioMonitor.Lib.Lexing

/-!
# The language of the parser

Which texts `toml::parse` accepts and what they mean, stated on the pieces that the delimiters cut a text
into, without a tokenizer, a cursor or an error. `R ps x ps'` says that the pieces `ps` begin with a
phrase for `x` and go on with `ps'`.

The language is not TOML. An inline table may end with the text or at a `[`, any delimiter may be a key,
and what follows the digits of a number in its token is ignored.
-/

namespace Toml

open Config

/-- The pieces from the next significant one on. -/
def significant (ps : List Str) : List Str := Lexing.trim blanks comments newline false ps

/-- The same inside a string literal, where only comments are dropped. -/
def verbatim (ps : List Str) : List Str := Lexing.trim [] comments newline false ps

/-- The end of a string literal: the pieces up to the one that closes it. -/
inductive Literal (fin : Char) : List Str → Str → List Str → Prop
  | close {ps ps' : List Str} (h : verbatim ps = [fin] :: ps') : Literal fin ps [] ps'
  | piece {ps ps₁ ps' : List Str} {p s : Str} (h : verbatim ps = p :: ps₁) (hp : p ≠ [fin])
      (hs : Literal fin ps₁ s ps') : Literal fin ps (p ++ s) ps'

/-- A word that is read as a number. -/
def Word (x : Str) : Prop :=
  x ≠ lbrace ∧ x ≠ lbracket ∧ x ≠ ['\''] ∧ x ≠ ['"'] ∧ x ≠ falseWord ∧ x ≠ trueWord

/-- The dictionary of some entries, read in their order. -/
def build (kvs : List (Str × Value)) : Dict :=
  kvs.foldl (fun dic kv => dic.insert kv.1 kv.2) []

mutual

/-- A value. -/
inductive IsValue : List Str → Value → List Str → Prop
  | dict {ps ps₁ ps' : List Str} {kvs : List (Str × Value)} (h : significant ps = lbrace :: ps₁)
      (hd : Entries false ps₁ kvs ps') : IsValue ps (.dict (build kvs)) ps'
  | array {ps ps₁ ps' : List Str} {vs : List Value} (h : significant ps = lbracket :: ps₁)
      (ha : Elements ps₁ vs ps') : IsValue ps (.array vs) ps'
  | string {ps ps₁ ps' : List Str} {fin : Char} {s : Str} (hf : fin = '\'' ∨ fin = '"')
      (h : significant ps = [fin] :: ps₁) (hs : Literal fin ps₁ s ps') : IsValue ps (.string s) ps'
  | boolFalse {ps ps' : List Str} (h : significant ps = falseWord :: ps') :
      IsValue ps (.bool false) ps'
  | boolTrue {ps ps' : List Str} (h : significant ps = trueWord :: ps') : IsValue ps (.bool true) ps'
  | float {ps ps' : List Str} {x : Str} {v : FloatVal} (h : significant ps = x :: ps') (hx : Word x)
      (hp : '.' ∈ x) (hv : Numbers.stof x = .ok v) : IsValue ps (.float v) ps'
  | int {ps ps' : List Str} {x : Str} {i : ℤ} (h : significant ps = x :: ps') (hx : Word x)
      (hp : '.' ∉ x) (hi : Numbers.stoi x = .ok i) : IsValue ps (.int i) ps'

/-- The entries of a section (`glob`), or of an inline table after its opening brace. -/
inductive Entries : Bool → List Str → List (Str × Value) → List Str → Prop
  /-- The end of the text. The parser goes back to its last end of line. -/
  | eof {glob : Bool} {ps : List Str} (h : significant ps = []) : Entries glob ps [] [newline]
  /-- The header of another section. -/
  | header {glob : Bool} {ps ps' : List Str} (h : significant ps = lbracket :: ps') :
      Entries glob ps [] (lbracket :: ps')
  | entry {ps ps₁ ps₂ ps₃ ps' : List Str} {name : Str} {v : Value} {kvs : List (Str × Value)}
      (h : significant ps = name :: ps₁) (hn : name ≠ lbracket)
      (he : significant ps₁ = equals :: ps₂) (hv : IsValue ps₂ v ps₃)
      (hk : Entries true ps₃ kvs ps') : Entries true ps ((name, v) :: kvs) ps'
  | last {ps ps₁ ps₂ ps₃ ps' : List Str} {name : Str} {v : Value}
      (h : significant ps = name :: ps₁) (hn : name ≠ lbracket)
      (he : significant ps₁ = equals :: ps₂) (hv : IsValue ps₂ v ps₃)
      (hc : significant ps₃ = rbrace :: ps') : Entries false ps [(name, v)] ps'
  | more {ps ps₁ ps₂ ps₃ ps₄ ps' : List Str} {name : Str} {v : Value} {kvs : List (Str × Value)}
      (h : significant ps = name :: ps₁) (hn : name ≠ lbracket)
      (he : significant ps₁ = equals :: ps₂) (hv : IsValue ps₂ v ps₃)
      (hc : significant ps₃ = comma :: ps₄) (hk : Entries false ps₄ kvs ps') :
      Entries false ps ((name, v) :: kvs) ps'

/-- The elements of an array after its opening bracket. -/
inductive Elements : List Str → List Value → List Str → Prop
  | close {ps ps' : List Str} (h : significant ps = rbracket :: ps') : Elements ps [] ps'
  | last {ps ps₁ ps' : List Str} {v : Value} (hn : ∀ ps', significant ps ≠ rbracket :: ps')
      (hv : IsValue ps v ps₁) (hc : significant ps₁ = rbracket :: ps') : Elements ps [v] ps'
  | more {ps ps₁ ps₂ ps' : List Str} {v : Value} {vs : List Value}
      (hn : ∀ ps', significant ps ≠ rbracket :: ps') (hv : IsValue ps v ps₁)
      (hc : significant ps₁ = comma :: ps₂) (hk : Elements ps₂ vs ps') : Elements ps (v :: vs) ps'

end

/-- Sections up to the end of the text. -/
inductive Sections : List Str → List (Str × Value) → Prop
  | nil {ps : List Str} (h : significant ps = []) : Sections ps []
  | cons {ps ps₁ ps₂ ps₃ ps' : List Str} {name : Str} {kvs secs : List (Str × Value)}
      (h : significant ps = lbracket :: ps₁) (hn : significant ps₁ = name :: ps₂)
      (hc : significant ps₂ = rbracket :: ps₃) (hk : Entries true ps₃ kvs ps')
      (hs : Sections ps' secs) : Sections ps ((name, .dict (build kvs)) :: secs)

/-- The text of a configuration. -/
def Document (content : Str) (d : Dict) : Prop :=
  ∃ secs, Sections (Lexing.pieces delimiters (content ++ newline)) secs ∧ d = build secs

end Toml
