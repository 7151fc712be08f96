import DioMonitor.Utils.Literals
import DioMonitor.Utils.Toml

/-!
# Layouts

The texts that a configuration may be written as, stated on characters: its sections one after the
other, the entries of each dictionary in any order, quotes of both kinds, and blanks and comments
wherever a token ends.
-/

namespace Layout

open Config Toml

/-- The characters that cut a text. -/
def IsDelimiter (c : Char) : Prop := [c] ∈ delimiters

instance (c : Char) : Decidable (IsDelimiter c) := inferInstanceAs (Decidable ([c] ∈ delimiters))

/-- Blanks and comments. -/
inductive Gap : Str → Prop
  | nil : Gap []
  | blank {c : Char} {g : Str} (hc : [c] ∈ blanks) (hg : Gap g) : Gap (c :: g)
  | comment {s g : Str} (hs : '\n' ∉ s) (hg : Gap g) : Gap ('#' :: (s ++ '\n' :: g))

/-- A name. -/
structure Key (k : Str) : Prop where
  ne_nil : k ≠ []
  plain : ∀ c ∈ k, ¬ IsDelimiter c

/-- A value that is written without quotes or brackets. -/
def Unquoted : Value → Prop
  | .int _ | .float _ | .bool _ => True
  | _ => False

/-- A name, the equals sign, and the text `x` of the value. -/
def Assigns (k x t : Str) : Prop := ∃ g₁ g₂, Gap g₁ ∧ Gap g₂ ∧ t = k ++ (g₁ ++ '=' :: (g₂ ++ x))

mutual

/-- The texts of a value. -/
inductive IsText : Value → Str → Prop
  | int {i : ℤ} {x : Str} (hx : Numbers.Numeral x i) (hlo : -2 ^ 31 ≤ i) (hhi : i < 2 ^ 31) :
      IsText (.int i) x
  | bool (b : Bool) : IsText (.bool b) (if b then trueWord else falseWord)
  | string {s : Str} {fin : Char} (hf : fin = '\'' ∨ fin = '"') (hs : fin ∉ s) (hc : '#' ∉ s) :
      IsText (.string s) (fin :: (s ++ [fin]))
  | array {vs : List Value} {t : Str} (ht : IsElements vs t) : IsText (.array vs) ('[' :: (t ++ [']']))
  | dict {kvs kvs' : List (Str × Value)} {t : Str} (hs : Dict.Sorted kvs) (hp : kvs'.Perm kvs)
      (ht : IsTable kvs' t) : IsText (.dict kvs) ('{' :: (t ++ ['}']))

/-- The texts between the brackets of an array. A comma may follow the last element. -/
inductive IsElements : List Value → Str → Prop
  | nil {g : Str} (hg : Gap g) : IsElements [] g
  | last {v : Value} {x g₁ g₂ : Str} (h₁ : Gap g₁) (hx : IsText v x) (h₂ : Gap g₂) :
      IsElements [v] (g₁ ++ (x ++ g₂))
  | more {v : Value} {vs : List Value} {x t g₁ g₂ : Str} (h₁ : Gap g₁) (hx : IsText v x) (h₂ : Gap g₂)
      (ht : IsElements vs t) : IsElements (v :: vs) (g₁ ++ (x ++ (g₂ ++ ',' :: t)))

/-- The texts between the braces of an inline table. -/
inductive IsTable : List (Str × Value) → Str → Prop
  | last {k : Str} {v : Value} {x a g₁ g₂ : Str} (h₁ : Gap g₁) (hk : Key k) (hx : IsText v x)
      (ha : Assigns k x a) (h₂ : Gap g₂) : IsTable [(k, v)] (g₁ ++ (a ++ g₂))
  | more {k : Str} {v : Value} {kvs : List (Str × Value)} {x a t g₁ g₂ : Str} (h₁ : Gap g₁)
      (hk : Key k) (hx : IsText v x) (ha : Assigns k x a) (h₂ : Gap g₂) (ht : IsTable kvs t) :
      IsTable ((k, v) :: kvs) (g₁ ++ (a ++ (g₂ ++ ',' :: t)))

end

/-- The texts of the entries of a section. `p` says that a separator has to come first, because an
unquoted value stands before them. -/
inductive IsBody : Prop → List (Str × Value) → Str → Prop
  | nil {p : Prop} {g : Str} (hg : Gap g) : IsBody p [] g
  | cons {p : Prop} {k : Str} {v : Value} {kvs : List (Str × Value)} {x a t g : Str} (hg : Gap g)
      (hsep : p → g ≠ []) (hk : Key k) (hx : IsText v x) (ha : Assigns k x a)
      (ht : IsBody (Unquoted v) kvs t) : IsBody p ((k, v) :: kvs) (g ++ (a ++ t))

/-- The texts of some sections. -/
inductive IsSections : List (Str × Value) → Str → Prop
  | nil {g : Str} (hg : Gap g) : IsSections [] g
  | cons {name : Str} {kvs kvs' secs : List (Str × Value)} {t t' g₁ g₂ g₃ : Str} (h₁ : Gap g₁)
      (h₂ : Gap g₂) (hn : Key name) (h₃ : Gap g₃) (hs : Dict.Sorted kvs) (hp : kvs'.Perm kvs)
      (ht : IsBody False kvs' t) (hsecs : IsSections secs t') :
      IsSections ((name, .dict kvs) :: secs) (g₁ ++ '[' :: (g₂ ++ (name ++ (g₃ ++ ']' :: (t ++ t')))))

/-- The texts of a configuration. The last line need not be ended, so a comment may stand in it. -/
def IsDocument (cfg : Dict) (text : Str) : Prop :=
  Dict.Sorted cfg ∧ ∃ secs, secs.Perm cfg ∧ IsSections secs (text ++ newline)

end Layout
