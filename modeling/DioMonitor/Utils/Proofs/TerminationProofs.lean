import DioMonitor.Utils.Proofs.TomlProofs

/-!
# The parser terminates

The parser carries fuel only to be a function: more fuel than `parse` gives it changes nothing
(`sections_fuel`), so its result is that of the loops and recursive calls of the source, which end. It
returns a configuration or throws; that it never rewinds an empty history is part of it, as this would
be the fault `undefined`. The depth of the C++ stack is not modelled: it bounds how deeply the values of a
text can be nested.
-/

namespace Toml

open Config Tokenizer StateExcept

/-- The code `m'` does what `m` does, unless `m` runs out of fuel. -/
def Extends {α : Type} (m m' : TokM α) : Prop := ∀ t, m t = .error .diverges ∨ m' t = m t

section

variable {α β : Type} {m m' : TokM α} {f f' : α → TokM β}

theorem Extends.refl (m : TokM α) : Extends m m := fun _ => Or.inr rfl

theorem Extends.diverges (m : TokM α) : Extends (throw .diverges) m := fun _ => Or.inl rfl

theorem Extends.bind (h : Extends m m') (hf : ∀ x, Extends (f x) (f' x)) :
    Extends (m >>= f) (m' >>= f') := by
  intro t
  cases hm : m t with
  | error e =>
    rcases h t with hd | hm'
    · exact Or.inl (bind_error hd)
    · rw [hm] at hm'
      exact Or.inr (by rw [bind_error hm, bind_error hm'])
  | ok r =>
    rcases h t with hd | hm'
    · rw [hm] at hd
      exact absurd hd (by simp)
    · rw [hm] at hm'
      rw [bind_ok hm, bind_ok hm']
      exact hf r.1 r.2

theorem Extends.next (hf : ∀ x, Extends (f x) (f' x)) : Extends (m >>= f) (m >>= f') :=
  (Extends.refl m).bind hf

theorem Extends.ite {c : Prop} [Decidable c] {n n' : TokM α} (h : c → Extends m m')
    (hn : ¬c → Extends n n') : Extends (if c then m else n) (if c then m' else n') := by
  by_cases hc : c
  · rw [if_pos hc, if_pos hc]
    exact h hc
  · rw [if_neg hc, if_neg hc]
    exact hn hc

end

/-! ## One more unit of fuel -/

theorem stringLoop_extends (fin : Char) (fuel : ℕ) :
    ∀ ss, Extends (stringLoop fin fuel ss) (stringLoop fin (fuel + 1) ss) := by
  induction fuel with
  | zero => exact fun _ => Extends.diverges _
  | succ fuel ih =>
    intro ss
    rw [stringLoop, stringLoop]
    apply Extends.next
    intro x
    refine Extends.ite (fun _ => Extends.refl _) (fun _ => ?_)
    exact Extends.ite (fun _ => Extends.refl _) (fun _ => ih _)

theorem parseString_extends (fuel : ℕ) (fin : Char) :
    Extends (parseString fuel fin) (parseString (fuel + 1) fin) := by
  unfold parseString
  apply Extends.next
  intro _
  exact (stringLoop_extends fin fuel []).bind fun _ => Extends.refl _

/-- The functions that call each other do the same with one more unit of fuel. -/
def ParsersExtend (fuel : ℕ) : Prop :=
  Extends (parseValue fuel) (parseValue (fuel + 1)) ∧
    (∀ glob dic, Extends (parseDict fuel glob dic) (parseDict (fuel + 1) glob dic)) ∧
    ∀ arr, Extends (parseArray fuel arr) (parseArray (fuel + 1) arr)

section

variable {fuel : ℕ} (h : ParsersExtend fuel)
include h

theorem parseDict_extends (glob : Bool) (dic : Dict) :
    Extends (parseDict (fuel + 1) glob dic) (parseDict (fuel + 1 + 1) glob dic) := by
  obtain ⟨hvalue, hdict, -⟩ := h
  rw [parseDict, parseDict]
  apply Extends.next
  intro name
  refine Extends.ite (fun _ => Extends.refl _) (fun _ => ?_)
  refine Extends.next fun eq => Extends.next fun _ => hvalue.bind fun value => ?_
  refine Extends.ite (fun _ => hdict _ _) (fun _ => ?_)
  refine Extends.next fun x => Extends.next fun _ => ?_
  exact Extends.ite (fun _ => Extends.refl _) (fun _ => hdict _ _)

theorem parseArray_extends (arr : List Value) :
    Extends (parseArray (fuel + 1) arr) (parseArray (fuel + 1 + 1) arr) := by
  obtain ⟨hvalue, -, harray⟩ := h
  rw [parseArray, parseArray]
  apply Extends.next
  intro x
  refine Extends.ite (fun _ => ?_) (fun _ => Extends.refl _)
  refine Extends.next fun _ => hvalue.bind fun value => ?_
  refine Extends.next fun t => Extends.next fun _ => ?_
  exact Extends.ite (fun _ => Extends.refl _) (fun _ => harray _)

theorem parseValue_extends : Extends (parseValue (fuel + 1)) (parseValue (fuel + 1 + 1)) := by
  obtain ⟨-, hdict, harray⟩ := h
  rw [parseValue, parseValue]
  apply Extends.next
  intro x
  refine Extends.ite (fun _ => (hdict _ _).bind fun _ => Extends.refl _) (fun _ => ?_)
  refine Extends.ite (fun _ => (harray _).bind fun _ => Extends.refl _) (fun _ => ?_)
  refine Extends.ite (fun _ => (parseString_extends fuel _).bind fun _ => Extends.refl _) (fun _ => ?_)
  refine Extends.ite (fun _ => (parseString_extends fuel _).bind fun _ => Extends.refl _) (fun _ => ?_)
  exact Extends.refl _

end

theorem parsersExtend (fuel : ℕ) : ParsersExtend fuel := by
  induction fuel with
  | zero => exact ⟨Extends.diverges _, fun _ _ => Extends.diverges _, fun _ => Extends.diverges _⟩
  | succ fuel ih => exact ⟨parseValue_extends ih, parseDict_extends ih, parseArray_extends ih⟩

theorem sections_extends (fuel : ℕ) :
    ∀ dic, Extends (sections fuel dic) (sections (fuel + 1) dic) := by
  induction fuel with
  | zero => exact fun _ => Extends.diverges _
  | succ fuel ih =>
    intro dic
    rw [sections, sections]
    refine Extends.next fun x => Extends.next fun _ => ?_
    refine Extends.ite (fun _ => ?_) (fun _ => Extends.refl _)
    refine Extends.next fun name => Extends.next fun closing => Extends.next fun _ => ?_
    exact ((parsersExtend fuel).2.1 _ _).bind fun _ => ih _

/-! ## Enough fuel -/

/-- The fuel that `parse` gives is never used up: any more of it changes nothing. -/
theorem sections_fuel (text : Str) (extra : ℕ) :
    (sections (2 * text.length + 3 + extra) []).run' (tokenizer text) = parse text := by
  induction extra with
  | zero => rfl
  | succ extra ih =>
    rw [← ih]
    rcases sections_extends (2 * text.length + 3 + extra) [] (tokenizer text) with hd | hsame
    · -- running out of fuel would be a fault of `parse`
      have hparse : parse text = .error .diverges := by
        rw [← ih, StateT.run', hd]
        rfl
      rcases parse_outcome text with ⟨d, hok, -⟩ | ⟨e, herr⟩
      · rw [hparse] at hok
        exact absurd hok (by simp)
      · rw [hparse] at herr
        exact absurd herr (by simp)
    · rw [StateT.run', StateT.run', ← Nat.add_assoc, hsame]

/-- The fault `undefined` is a `rewind` that finds no recorded place. -/
theorem rewind_undefined_iff (t : Tokenizer) :
    rewind t = .error .undefined ↔ t.lastLocs = [] := by
  cases hlocs : t.lastLocs with
  | nil => simp [rewind, hlocs]
  | cons loc locs => simp [rewind, hlocs]

/-- The parser returns a configuration or throws, on every text and with any fuel beyond what `parse`
gives it: its loops end (`diverges`), and no `rewind` finds the history empty (`undefined`), on a stack that
is deep enough for the values of the text. -/
theorem parse_terminates (text : Str) :
    (∀ extra, (sections (2 * text.length + 3 + extra) []).run' (tokenizer text) = parse text) ∧
      parse text ≠ .error .diverges ∧ parse text ≠ .error .undefined ∧
      ((∃ d, parse text = .ok d) ∨ ∃ e, parse text = .error (.throws e)) := by
  have hend : (∃ d, parse text = .ok d) ∨ ∃ e, parse text = .error (.throws e) := by
    rcases parse_outcome text with ⟨d, hd, -⟩ | he
    · exact Or.inl ⟨d, hd⟩
    · exact Or.inr he
  have hfault : ∀ f, parse text = .error f → ∃ e, f = .throws e := fun f hf => parse_throws hf
  refine ⟨sections_fuel text, ?_, ?_, hend⟩
  · intro hd
    obtain ⟨e, he⟩ := hfault _ hd
    exact absurd he (by simp)
  · intro hu
    obtain ⟨e, he⟩ := hfault _ hu
    exact absurd he (by simp)

end Toml
