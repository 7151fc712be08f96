import DioMonitor.Utils.Layout

/-!
# Configurations to be written

Which configurations a text can hold, and which of them `dump` writes so that they can be read back.
-/

namespace Layout

open Config

/-- A value that a text can hold: integers of 32 bits, booleans, strings without quotes and comments,
and arrays and dictionaries of these. -/
inductive Storable : Value → Prop
  | int {i : ℤ} (hlo : -2 ^ 31 ≤ i) (hhi : i < 2 ^ 31) : Storable (.int i)
  | bool (b : Bool) : Storable (.bool b)
  | string {s : Str} (hq : '"' ∉ s) (hc : '#' ∉ s) : Storable (.string s)
  | array {vs : List Value} (h : ∀ v ∈ vs, Storable v) : Storable (.array vs)
  | dict {kvs : List (Str × Value)} (hs : Dict.Sorted kvs) (hk : ∀ e ∈ kvs, Key e.1)
      (h : ∀ e ∈ kvs, Storable e.2) : Storable (.dict kvs)

/-- A configuration whose top level holds only sections. -/
structure StorableConfig (cfg : Dict) : Prop where
  sorted : Dict.Sorted cfg
  key : ∀ e ∈ cfg, Key e.1
  sections : ∀ e ∈ cfg, ∃ kvs, e.2 = .dict kvs ∧ Storable e.2

/-- An integer, a string, or an array of these. -/
inductive Plain : Value → Prop
  | int (i : ℤ) : Plain (.int i)
  | string (s : Str) : Plain (.string s)
  | array {vs : List Value} (h : ∀ v ∈ vs, Plain v) : Plain (.array vs)

/-- A plain value, or a dictionary of plain values that is not empty. -/
def Direct (v : Value) : Prop :=
  Plain v ∨ ∃ kvs, v = .dict kvs ∧ kvs ≠ [] ∧ ∀ e ∈ kvs, Plain e.2

/-- There is no boolean, and a dictionary that is no section is a value of a section, is not empty, and
has no dictionary in it. -/
def Writable (cfg : Dict) : Prop :=
  ∀ e ∈ cfg, ∃ kvs, e.2 = .dict kvs ∧ ∀ e' ∈ kvs, Direct e'.2

end Layout
