import DioMonitor.Utils.Grammar

/-!
# Texts with a word that is no number

A text that begins well, up to a place where a value stands, and has a word there that `std::stoi` or
`std::stof` does not convert. `Misread… ps e` says that the pieces `ps` begin with the rest of such a
phrase, and that the conversion throws `e`.
-/

namespace Toml

open Config

/-- `parse_float` or `parse_int` throws `e` when it reads the word `x`; the word that `next` finds at the
end of the text is empty. -/
def Unreadable (x : Str) (e : Exn) : Prop :=
  ('.' ∈ x ∧ Numbers.stof x = .error e) ∨ ('.' ∉ x ∧ Numbers.stoi x = .error e)

mutual

/-- Where a value is expected. -/
inductive MisreadValue : List Str → Exn → Prop
  | word {ps ps' : List Str} {x : Str} {e : Exn} (h : significant ps = x :: ps') (hx : Word x)
      (he : Unreadable x e) : MisreadValue ps e
  | eof {ps : List Str} {e : Exn} (h : significant ps = []) (he : Unreadable [] e) : MisreadValue ps e
  | dict {ps ps₁ : List Str} {e : Exn} (h : significant ps = lbrace :: ps₁)
      (hd : MisreadEntries false ps₁ e) : MisreadValue ps e
  | array {ps ps₁ : List Str} {e : Exn} (h : significant ps = lbracket :: ps₁)
      (ha : MisreadElements ps₁ e) : MisreadValue ps e

/-- Among the entries of a section (`glob`) or of an inline table. -/
inductive MisreadEntries : Bool → List Str → Exn → Prop
  | value {glob : Bool} {ps ps₁ ps₂ : List Str} {name : Str} {e : Exn}
      (h : significant ps = name :: ps₁) (hn : name ≠ lbracket)
      (he : significant ps₁ = equals :: ps₂) (hv : MisreadValue ps₂ e) : MisreadEntries glob ps e
  | entry {ps ps₁ ps₂ ps₃ : List Str} {name : Str} {v : Value} {e : Exn}
      (h : significant ps = name :: ps₁) (hn : name ≠ lbracket)
      (he : significant ps₁ = equals :: ps₂) (hv : IsValue ps₂ v ps₃)
      (hk : MisreadEntries true ps₃ e) : MisreadEntries true ps e
  | more {ps ps₁ ps₂ ps₃ ps₄ : List Str} {name : Str} {v : Value} {e : Exn}
      (h : significant ps = name :: ps₁) (hn : name ≠ lbracket)
      (he : significant ps₁ = equals :: ps₂) (hv : IsValue ps₂ v ps₃)
      (hc : significant ps₃ = comma :: ps₄) (hk : MisreadEntries false ps₄ e) :
      MisreadEntries false ps e

/-- Among the elements of an array. -/
inductive MisreadElements : List Str → Exn → Prop
  | value {ps : List Str} {e : Exn} (hn : ∀ ps', significant ps ≠ rbracket :: ps')
      (hv : MisreadValue ps e) : MisreadElements ps e
  | more {ps ps₁ ps₂ : List Str} {v : Value} {e : Exn}
      (hn : ∀ ps', significant ps ≠ rbracket :: ps') (hv : IsValue ps v ps₁)
      (hc : significant ps₁ = comma :: ps₂) (hk : MisreadElements ps₂ e) : MisreadElements ps e

end

/-- Among the sections. -/
inductive MisreadSections : List Str → Exn → Prop
  | entries {ps ps₁ ps₂ ps₃ : List Str} {name : Str} {e : Exn}
      (h : significant ps = lbracket :: ps₁) (hn : significant ps₁ = name :: ps₂)
      (hc : significant ps₂ = rbracket :: ps₃) (hk : MisreadEntries true ps₃ e) : MisreadSections ps e
  | more {ps ps₁ ps₂ ps₃ ps' : List Str} {name : Str} {kvs : List (Str × Value)} {e : Exn}
      (h : significant ps = lbracket :: ps₁) (hn : significant ps₁ = name :: ps₂)
      (hc : significant ps₂ = rbracket :: ps₃) (hk : Entries true ps₃ kvs ps')
      (hs : MisreadSections ps' e) : MisreadSections ps e

/-- Behind a well-formed beginning, a value of the text is no number that can be read. -/
def Misread (content : Str) (e : Exn) : Prop :=
  MisreadSections (Lexing.pieces delimiters (content ++ newline)) e

end Toml
