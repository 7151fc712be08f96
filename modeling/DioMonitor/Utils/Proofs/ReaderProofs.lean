import DioMonitor.Lib.StateExcept
import DioMonitor.Utils.Grammar
import DioMonitor.Utils.Proofs.TokenizerProofs

/-!
# Running the parser

A run of the parser is followed on the pieces of the text: those of `before` have been read, the last one
first, and those of `after` are left. `Outcome m before R` says that `m`, started after the pieces of
`before`, throws or returns a result that `R` relates to the pieces that are left. The end of line that
the tokenizer adds is the last piece, and no function returns beyond it.
-/

namespace Toml

open Config Tokenizer Lexing StateExcept

theorem delimiters_ne_nil : ∀ d ∈ delimiters, d ≠ [] := by decide

theorem delimiters_length : ∀ d ∈ delimiters, d.length = 1 := by decide

theorem nil_notMem_comments : [] ∉ comments := by decide

theorem length_pieces (text : Str) : (pieces delimiters (text ++ newline)).length ≤ text.length + 1 := by
  simpa [newline] using length_pieces_le delimiters (text ++ newline)

/-! ## Places in the text -/

/-- The tokenizer of `parse` after it has read the pieces of `before`. -/
def reader (text : Str) (doSkip : Bool) (before : List Str) : Tokenizer :=
  { tokenizer text with doSkip }.seek before

/-- The pieces of `before` have been read, and those of `after` are left. -/
def Left (text : Str) (before after : List Str) : Prop := (tokenizer text).Cut before after

section

variable {text : Str} {before after : List Str}

theorem left_start (text : Str) : Left text [] (pieces delimiters (text ++ newline)) :=
  cut_nil (tokenizer text)

theorem left_cons {p : Str} : Left text (p :: before) after ↔ Left text before (p :: after) :=
  cut_cons

/-- The last piece of the text is an end of line. -/
theorem left_end (h : Left text before after) :
    ∃ qs, before.reverse ++ after = qs ++ [newline] := by
  have hline : ['\n'] ∈ delimiters := by decide
  have hlast := pieces_append_delimiter delimiters_length hline text []
  rw [pieces_nil] at hlast
  exact ⟨pieces delimiters text, h.symm.trans hlast⟩

theorem Left.ne_nil {p : Str} (h : Left text (p :: before) after) (hp : p ≠ newline) :
    after ≠ [] := by
  rintro rfl
  obtain ⟨qs, hqs⟩ := left_end h
  rw [List.append_nil, List.reverse_cons] at hqs
  have := (List.append_inj' hqs rfl).2
  exact hp (List.cons.inj this).1

theorem Left.eof (h : Left text before []) : ∃ b, before = newline :: b := by
  obtain ⟨qs, hqs⟩ := left_end h
  rw [List.append_nil] at hqs
  exact ⟨qs.reverse, by rw [← List.reverse_reverse before, hqs]; simp⟩

theorem significant_length {x : Str} {a : List Str} (h : significant after = x :: a) :
    a.length < after.length := by
  have hsuffix : significant after <:+ after := trim_suffix false after
  have hle := hsuffix.length_le
  rw [h, List.length_cons] at hle
  omega

theorem verbatim_length {x : Str} {a : List Str} (h : verbatim after = x :: a) :
    a.length < after.length := by
  have hsuffix : verbatim after <:+ after := trim_suffix false after
  have hle := hsuffix.length_le
  rw [h, List.length_cons] at hle
  omega

theorem significant_ne_newline {x : Str} {a : List Str} (h : significant after = x :: a) :
    x ≠ newline := by
  rintro rfl
  exact absurd (trim_head h).2 (by decide)

theorem significant_idem {x : Str} {a : List Str} (h : significant after = x :: a) :
    significant (x :: a) = x :: a :=
  trim_cons_of_not_mem (trim_head h).1 (trim_head h).2

theorem next_reader (doSkip : Bool) (h : Left text before after) :
    ∃ b, next (reader text doSkip before) = .ok (reader text doSkip b).nextPure ∧
      Left text b (if doSkip then significant after else verbatim after) := by
  cases doSkip with
  | false =>
    exact next_seek (t := { tokenizer text with doSkip := false }) delimiters_ne_nil
      nil_notMem_comments h
  | true =>
    exact next_seek (t := { tokenizer text with doSkip := true }) delimiters_ne_nil
      nil_notMem_comments h

theorem nextPure_cons {doSkip : Bool} {x : Str} {a : List Str} (h : Left text before (x :: a)) :
    (reader text doSkip before).nextPure = (x, reader text doSkip (x :: before)) :=
  nextPure_seek_cons (t := { tokenizer text with doSkip }) delimiters_ne_nil h

theorem nextPure_nil {doSkip : Bool} (h : Left text before []) :
    (reader text doSkip before).nextPure = ([], reader text doSkip before) :=
  nextPure_seek_nil (t := { tokenizer text with doSkip }) h

/-- `next` reads the next significant piece. -/
theorem next_cons (h : Left text before after) {x : Str} {a : List Str}
    (hs : significant after = x :: a) :
    ∃ b, next (reader text true before) = .ok (x, reader text true (x :: b)) ∧
      Left text b (x :: a) := by
  obtain ⟨b, hrun, hleft⟩ := next_reader true h
  rw [if_pos rfl, hs] at hleft
  exact ⟨b, by rw [hrun, nextPure_cons hleft], hleft⟩

/-- `next` finds nothing at the end of the text. -/
theorem next_nil (h : Left text before after) (hs : significant after = []) :
    ∃ b, next (reader text true before) = .ok ([], reader text true (newline :: b)) ∧
      Left text (newline :: b) [] := by
  obtain ⟨b, hrun, hleft⟩ := next_reader true h
  rw [if_pos rfl, hs] at hleft
  obtain ⟨b, rfl⟩ := hleft.eof
  exact ⟨b, by rw [hrun, nextPure_nil hleft], hleft⟩

theorem next_verbatim_cons (h : Left text before after) {x : Str} {a : List Str}
    (hs : verbatim after = x :: a) :
    ∃ b, next (reader text false before) = .ok (x, reader text false (x :: b)) ∧
      Left text b (x :: a) := by
  obtain ⟨b, hrun, hleft⟩ := next_reader false h
  rw [if_neg Bool.false_ne_true, hs] at hleft
  exact ⟨b, by rw [hrun, nextPure_cons hleft], hleft⟩

theorem next_verbatim_nil (h : Left text before after) (hs : verbatim after = []) :
    ∃ b, next (reader text false before) = .ok ([], reader text false b) := by
  obtain ⟨b, hrun, hleft⟩ := next_reader false h
  rw [if_neg Bool.false_ne_true, hs] at hleft
  exact ⟨b, by rw [hrun, nextPure_nil hleft]⟩

@[simp] theorem rewind_reader (doSkip : Bool) (x : Str) (b : List Str) :
    rewind (reader text doSkip (x :: b)) = .ok ((), reader text doSkip b) := rfl

end

/-! ## Outcomes -/

/-- `m` throws an exception, or returns a result related by `R` to the pieces that are left. -/
def Outcome {α : Type} (text : Str) (m : TokM α) (before : List Str) (R : α → List Str → Prop) :
    Prop :=
  (∃ x b a, m (reader text true before) = .ok (x, reader text true b) ∧ Left text b a ∧ R x a) ∨
    ∃ e, m (reader text true before) = .error (.throws e)

section

variable {α β : Type} {text : Str} {before after : List Str} {m : TokM α} {f : α → TokM β}
  {R : α → List Str → Prop} {S : β → List Str → Prop}

theorem Outcome.pure {x : α} (h : Left text before after) (hr : R x after) :
    Outcome text (Pure.pure x) before R :=
  .inl ⟨x, before, after, rfl, h, hr⟩

theorem Outcome.throw (e : Exn) : Outcome text (throwExn e) before R := .inr ⟨e, rfl⟩

theorem Outcome.bind (hm : Outcome text m before R)
    (hf : ∀ x b a, Left text b a → R x a → Outcome text (f x) b S) :
    Outcome text (m >>= f) before S := by
  rcases hm with ⟨x, b, a, hrun, hleft, hr⟩ | ⟨e, hrun⟩
  · rcases hf x b a hleft hr with ⟨y, b', a', hrun', hleft', hs⟩ | ⟨e, hrun'⟩
    · exact .inl ⟨y, b', a', by rw [bind_ok hrun, hrun'], hleft', hs⟩
    · exact .inr ⟨e, by rw [bind_ok hrun, hrun']⟩
  · exact .inr ⟨e, bind_error hrun⟩

theorem Outcome.mono {R' : α → List Str → Prop} (h : Outcome text m before R)
    (hr : ∀ x a, R x a → R' x a) : Outcome text m before R' := by
  rcases h with ⟨x, b, a, hrun, hleft, h⟩ | h
  · exact .inl ⟨x, b, a, hrun, hleft, hr x a h⟩
  · exact .inr h

/-- The rule for `next`: it reads a significant piece, or reaches the end of the text. -/
theorem Outcome.next {f : Str → TokM β} (h : Left text before after)
    (hcons : ∀ x b a, significant after = x :: a → Left text b (x :: a) → a ≠ [] →
      a.length < after.length → Outcome text (f x) (x :: b) S)
    (hnil : ∀ b, significant after = [] → Left text (newline :: b) [] →
      Outcome text (f []) (newline :: b) S) : Outcome text (Tokenizer.next >>= f) before S := by
  cases hs : significant after with
  | nil =>
    obtain ⟨b, hrun, hleft⟩ := next_nil h hs
    have ho := hnil b hs hleft
    unfold Outcome at ho ⊢
    rwa [bind_ok hrun]
  | cons x a =>
    obtain ⟨b, hrun, hleft⟩ := next_cons h hs
    have ha := (left_cons.mpr hleft).ne_nil (significant_ne_newline hs)
    have ho := hcons x b a hs hleft ha (significant_length hs)
    unfold Outcome at ho ⊢
    rwa [bind_ok hrun]

theorem Outcome.rewind {f : Unit → TokM β} {x : Str} {b : List Str} (h : Outcome text (f ()) b S) :
    Outcome text (Tokenizer.rewind >>= f) (x :: b) S := by
  unfold Outcome at h ⊢
  rwa [bind_ok (rewind_reader true x b)]

/-- The rule for `assert_msg`, after a piece has been read. -/
theorem Outcome.assertMsg {f : Unit → TokM β} {test : Bool} {msg x : Str} {b : List Str}
    (h : test → Outcome text (f ()) (x :: b) S) :
    Outcome text (Toml.assertMsg test msg >>= f) (x :: b) S := by
  cases test with
  | true => exact h rfl
  | false => exact .inr ⟨assertError (reader text true b).getLineNumber msg, rfl⟩

theorem Outcome.lift {r : Except Exn α} (h : Left text before after)
    (hr : ∀ x, r = .ok x → R x after) : Outcome text (Toml.lift r) before R := by
  cases r with
  | ok x => exact .pure h (hr x rfl)
  | error e => exact .throw e

end

end Toml
