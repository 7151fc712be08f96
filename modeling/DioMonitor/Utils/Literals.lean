import DioMonitor.Utils.Numbers

/-!
# Decimal literals

The words that are, in their whole length, a number in decimal notation. `std::stoi` and `std::stof`
accept more than these.
-/

namespace Numbers

/-- The signs in front of a number. -/
def signs (neg : Bool) : List Str := if neg then [['-']] else [[], ['+']]

/-- A number and its sign. -/
def signed (neg : Bool) (n : ℕ) : ℤ := if neg then -(n : ℤ) else n

/-- Some decimal digits, at least one. -/
def Digits (ds : Str) : Prop := ds ≠ [] ∧ ∀ c ∈ ds, c.isDigit = true

/-- A decimal integer. -/
def Numeral (x : Str) (i : ℤ) : Prop :=
  ∃ neg sign ds, sign ∈ signs neg ∧ Digits ds ∧ x = sign ++ ds ∧ i = signed neg (ofDigits 10 ds)

/-- The exponent of a decimal number, which may be absent. -/
inductive Exponent : Str → ℤ → Prop
  | absent : Exponent [] 0
  | present {mark : Char} {neg : Bool} {sign ds : Str} (hm : mark.toLower = 'e')
      (hs : sign ∈ signs neg) (hd : Digits ds) :
      Exponent (mark :: (sign ++ ds)) (signed neg (ofDigits 10 ds))

/-- A decimal number with a point: its sign and its absolute value. -/
def Decimal (x : Str) (neg : Bool) (q : ℚ) : Prop :=
  ∃ sign ip fp ex e, sign ∈ signs neg ∧ Digits (ip ++ fp) ∧ Exponent ex e ∧
    x = sign ++ (ip ++ '.' :: (fp ++ ex)) ∧ q = ofDigits 10 (ip ++ fp) * (10 : ℚ) ^ (e - fp.length)

end Numbers
