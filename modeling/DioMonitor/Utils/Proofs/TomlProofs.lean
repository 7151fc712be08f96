import DioMonitor.Utils.Proofs.ReaderProofs

/-!
# The parser ends

Every function of the parser, run on any text with fuel for the pieces that are left, returns a phrase of
the language or throws an exception: it neither loops nor rewinds an empty history.
-/

namespace Toml

open Config Tokenizer Lexing StateExcept

/-! ## String literals -/

section

variable {text : Str} {before after : List Str} {fin : Char}

theorem skip_false (b : List Str) :
    Tokenizer.skip false (reader text true b) = .ok ((), reader text false b) := rfl

theorem skip_true (b : List Str) :
    Tokenizer.skip true (reader text false b) = .ok ((), reader text true b) := rfl

theorem stringLoop_outcome (hf : [fin] ≠ newline) {fuel : ℕ} (ss : Str)
    (h : Left text before after) (hfuel : after.length < fuel) :
    (∃ s b a, stringLoop fin fuel ss (reader text false before) = .ok (ss ++ s, reader text false b) ∧
      Left text b a ∧ a ≠ [] ∧ Literal fin after s a ∧ a.length < after.length) ∨
    ∃ e, stringLoop fin fuel ss (reader text false before) = .error (.throws e) := by
  induction fuel generalizing before after ss with
  | zero => omega
  | succ fuel ih =>
    rw [stringLoop]
    cases hv : verbatim after with
    | nil =>
      obtain ⟨b, hrun⟩ := next_verbatim_nil h hv
      exact .inr ⟨.configError (reader text false b).getLineNumber unterminated, by
        rw [bind_ok hrun]; rfl⟩
    | cons x a =>
      obtain ⟨b, hrun, hleft⟩ := next_verbatim_cons h hv
      have hx : x ≠ [] := Cut.ne_nil hleft (by simp)
      have hlen := verbatim_length hv
      rw [bind_ok hrun, if_neg hx]
      by_cases hc : x = [fin]
      · subst hc
        have hl := left_cons.mpr hleft
        refine .inl ⟨[], [fin] :: b, a, ?_, hl, hl.ne_nil hf, .close hv, hlen⟩
        rw [if_pos rfl, List.append_nil]
        rfl
      · rw [if_neg hc]
        rcases ih (ss ++ x) (left_cons.mpr hleft) (by omega) with
          ⟨s, b', a', hrun', hleft', ha', hlit, hlen'⟩ | he
        · rw [List.append_assoc] at hrun'
          exact .inl ⟨x ++ s, b', a', hrun', hleft', ha', .piece hv hc hlit, by omega⟩
        · exact .inr he

theorem parseString_outcome (hf : [fin] ≠ newline) {fuel : ℕ} (h : Left text before after)
    (hfuel : after.length < fuel) :
    Outcome text (parseString fuel fin) before fun s a =>
      a ≠ [] ∧ Literal fin after s a ∧ a.length < after.length := by
  unfold parseString
  rcases stringLoop_outcome hf [] h hfuel with
    ⟨s, b, a, hrun, hleft, ha, hlit, hlen⟩ | ⟨e, hrun⟩
  · refine .inl ⟨s, b, a, ?_, hleft, ha, hlit, hlen⟩
    rw [bind_ok (skip_false before), bind_ok hrun, bind_ok (skip_true b)]
    rfl
  · exact .inr ⟨e, by rw [bind_ok (skip_false before), bind_error hrun]⟩

end

/-! ## Values and sections -/

theorem significant_newline : significant [newline] = [] := by decide

theorem IsValue.significant_ne_nil {ps ps' : List Str} {v : Value} (h : IsValue ps v ps') :
    significant ps ≠ [] := by
  cases h <;> simp_all

theorem IsValue.of_significant {ps qs ps' : List Str} {v : Value} (h : IsValue ps v ps')
    (hs : significant qs = significant ps) : IsValue qs v ps' := by
  cases h with
  | dict h hd => exact .dict (hs.trans h) hd
  | array h ha => exact .array (hs.trans h) ha
  | string hf h hl => exact .string hf (hs.trans h) hl
  | boolFalse h => exact .boolFalse (hs.trans h)
  | boolTrue h => exact .boolTrue (hs.trans h)
  | float h hx hp hv => exact .float (hs.trans h) hx hp hv
  | int h hx hp hi => exact .int (hs.trans h) hx hp hi

section

variable {text : Str}

/-- With fuel for the pieces that are left, `parse_value` reads a value or throws. -/
def ValueOutcome (text : Str) (fuel : ℕ) : Prop :=
  ∀ before after, Left text before after → after ≠ [] → 2 * after.length < fuel →
    Outcome text (parseValue fuel) before fun v a =>
      a ≠ [] ∧ IsValue after v a ∧ a.length < after.length

def DictOutcome (text : Str) (fuel : ℕ) : Prop :=
  ∀ glob dic before after, Left text before after → after ≠ [] → 2 * after.length + 1 < fuel →
    Outcome text (parseDict fuel glob dic) before fun d a =>
      a ≠ [] ∧ a.length ≤ after.length ∧ ∃ kvs, Entries glob after kvs a ∧
        d = kvs.foldl (fun dic kv => dic.insert kv.1 kv.2) dic

def ArrayOutcome (text : Str) (fuel : ℕ) : Prop :=
  ∀ arr before after, Left text before after → after ≠ [] → 2 * after.length + 1 < fuel →
    Outcome text (parseArray fuel arr) before fun vs a =>
      a ≠ [] ∧ a.length ≤ after.length ∧ ∃ vs', Elements after vs' a ∧ vs = arr ++ vs'

theorem parseDict_step {fuel : ℕ} (hvalue : ValueOutcome text fuel) (hdict : DictOutcome text fuel) :
    DictOutcome text (fuel + 1) := by
  intro glob dic before after h ha hfuel
  rw [parseDict]
  refine Outcome.next h (fun name b a hs hleft ha₁ hlen => ?_) (fun b hs hleft => ?_)
  · have hname : name ≠ [] := Cut.ne_nil hleft (by simp)
    by_cases hbr : name = lbracket
    · rw [if_pos (.inr hbr)]
      subst hbr
      exact .rewind (.pure hleft ⟨by simp, hlen, [], .header hs, rfl⟩)
    · rw [if_neg (by simp [hname, hbr])]
      refine Outcome.next (left_cons.mpr hleft) (fun eq b₂ a₂ hs₂ hleft₂ ha₂ hlen₂ => ?_)
        (fun b₂ hs₂ hleft₂ => ?_)
      · refine .assertMsg ?_
        intro heq
        have heq : eq = equals := of_decide_eq_true heq
        subst heq
        refine (hvalue _ _ (left_cons.mpr hleft₂) ha₂ (by omega)).bind ?_
        rintro v b₃ a₃ hleft₃ ⟨ha₃, hv, hlen₃⟩
        cases glob with
        | true =>
          refine (hdict true _ b₃ a₃ hleft₃ ha₃ (by omega)).mono ?_
          rintro d a' ⟨ha', hle, kvs, hkvs, rfl⟩
          exact ⟨ha', by omega, (name, v) :: kvs, .entry hs hbr hs₂ hv hkvs, rfl⟩
        | false =>
          refine Outcome.next hleft₃ (fun x b₄ a₄ hs₄ hleft₄ ha₄ hlen₄ => ?_)
            (fun b₄ hs₄ hleft₄ => ?_)
          · refine .assertMsg ?_
            intro hx
            by_cases hbrace : x = rbrace
            · rw [if_pos hbrace]
              subst hbrace
              exact .pure (left_cons.mpr hleft₄)
                ⟨ha₄, by omega, [(name, v)], .last hs hbr hs₂ hv hs₄, rfl⟩
            · rw [if_neg hbrace]
              have hx : x = comma := (of_decide_eq_true hx).resolve_left hbrace
              subst hx
              refine (hdict false _ _ a₄ (left_cons.mpr hleft₄) ha₄ (by omega)).mono ?_
              rintro d a' ⟨ha', hle, kvs, hkvs, rfl⟩
              exact ⟨ha', by omega, (name, v) :: kvs, .more hs hbr hs₂ hv hs₄ hkvs, rfl⟩
          · exact .assertMsg fun hx => absurd hx (by decide)
      · exact .assertMsg fun hx => absurd hx (by decide)
  · rw [if_pos (.inl rfl)]
    refine .rewind (.pure (left_cons.mp hleft) ⟨by simp, ?_, [], .eof hs, rfl⟩)
    exact List.length_pos_iff.mpr ha

theorem parseArray_step {fuel : ℕ} (hvalue : ValueOutcome text fuel)
    (harray : ArrayOutcome text fuel) : ArrayOutcome text (fuel + 1) := by
  intro arr before after h ha hfuel
  rw [parseArray]
  refine Outcome.next h (fun x b a hs hleft ha₁ hlen => ?_) (fun b hs hleft => ?_)
  · by_cases hx : x = rbracket
    · rw [if_neg (by simp [hx])]
      subst hx
      exact .pure (left_cons.mpr hleft)
        ⟨ha₁, by omega, [], .close hs, (List.append_nil arr).symm⟩
    · rw [if_pos hx]
      have hn : ∀ ps', significant after ≠ rbracket :: ps' := by
        intro ps' h
        rw [hs] at h
        exact hx (List.cons.inj h).1
      refine .rewind ((hvalue _ _ hleft (by simp) (by simp; omega)).bind ?_)
      rintro v b₂ a₂ hleft₂ ⟨ha₂, hv, hlen₂⟩
      have hv : IsValue after v a₂ := hv.of_significant (by rw [hs, significant_idem hs])
      simp only [List.length_cons] at hlen₂
      refine Outcome.next hleft₂ (fun t b₃ a₃ hs₃ hleft₃ ha₃ hlen₃ => ?_) (fun b₃ hs₃ hleft₃ => ?_)
      · refine .assertMsg ?_
        intro ht
        by_cases hbr : t = rbracket
        · rw [if_pos hbr]
          subst hbr
          exact .pure (left_cons.mpr hleft₃) ⟨ha₃, by omega, [v], .last hn hv hs₃, rfl⟩
        · rw [if_neg hbr]
          have ht : t = comma := (of_decide_eq_true ht).resolve_right hbr
          subst ht
          refine (harray _ _ a₃ (left_cons.mpr hleft₃) ha₃ (by omega)).mono ?_
          rintro vs a' ⟨ha', hle, vs', hvs, rfl⟩
          exact ⟨ha', by omega, v :: vs', .more hn hv hs₃ hvs, by simp⟩
      · exact .assertMsg fun ht => absurd ht (by decide)
  · -- nothing is left but the end of line that `rewind` went back over
    rw [if_pos (by decide)]
    have hpos := List.length_pos_iff.mpr ha
    refine .rewind ((hvalue b [newline] (left_cons.mp hleft) (by simp) (by simp; omega)).bind ?_)
    rintro v b₂ a₂ - ⟨-, hv, -⟩
    exact absurd significant_newline hv.significant_ne_nil

/-- A number is read from the next significant piece. -/
theorem number_outcome {α : Type} (read : Str → Except Exn α) {before after ps' : List Str} {x : Str}
    (h : Left text before after) (hs : significant after = x :: ps') :
    Outcome text (next >>= fun x => lift (read x)) before fun y a =>
      a ≠ [] ∧ a = ps' ∧ read x = .ok y := by
  refine Outcome.next h (fun z b a hs' hleft ha hlen => ?_) (fun b hs' hleft => ?_)
  · obtain ⟨rfl, rfl⟩ := List.cons.inj (hs.symm.trans hs')
    exact .lift (left_cons.mpr hleft) fun y hy => ⟨ha, rfl, hy⟩
  · rw [hs] at hs'
    exact absurd hs' (by simp)

theorem parseValue_step {fuel : ℕ} (hdict : DictOutcome text fuel)
    (harray : ArrayOutcome text fuel) : ValueOutcome text (fuel + 1) := by
  intro before after h ha hfuel
  rw [parseValue]
  refine Outcome.next h (fun x b a hs hleft ha₁ hlen => ?_) (fun b hs hleft => ?_)
  · have hl := left_cons.mpr hleft
    have hpos := List.length_pos_iff.mpr ha
    by_cases h1 : x = lbrace
    · rw [if_pos h1]
      subst h1
      refine (hdict false [] _ a hl ha₁ (by omega)).bind ?_
      rintro d b₂ a₂ hleft₂ ⟨ha₂, hle, kvs, hkvs, rfl⟩
      exact .pure hleft₂ ⟨ha₂, .dict hs hkvs, by omega⟩
    rw [if_neg h1]
    by_cases h2 : x = lbracket
    · rw [if_pos h2]
      subst h2
      refine (harray [] _ a hl ha₁ (by omega)).bind ?_
      rintro vs b₂ a₂ hleft₂ ⟨ha₂, hle, vs', hvs, rfl⟩
      exact .pure hleft₂ ⟨ha₂, .array hs hvs, by omega⟩
    rw [if_neg h2]
    by_cases h3 : x = ['\'']
    · rw [if_pos h3]
      subst h3
      refine (parseString_outcome (by decide) hl (by omega)).bind ?_
      rintro s b₂ a₂ hleft₂ ⟨ha₂, hlit, hlen₂⟩
      exact .pure hleft₂ ⟨ha₂, .string (.inl rfl) hs hlit, by omega⟩
    rw [if_neg h3]
    by_cases h4 : x = ['"']
    · rw [if_pos h4]
      subst h4
      refine (parseString_outcome (by decide) hl (by omega)).bind ?_
      rintro s b₂ a₂ hleft₂ ⟨ha₂, hlit, hlen₂⟩
      exact .pure hleft₂ ⟨ha₂, .string (.inr rfl) hs hlit, by omega⟩
    rw [if_neg h4]
    by_cases h5 : x = falseWord
    · rw [if_pos h5]
      subst h5
      exact .pure hl ⟨ha₁, .boolFalse hs, hlen⟩
    rw [if_neg h5]
    by_cases h6 : x = trueWord
    · rw [if_pos h6]
      subst h6
      exact .pure hl ⟨ha₁, .boolTrue hs, hlen⟩
    rw [if_neg h6]
    have hs' := significant_idem hs
    have hw : Word x := ⟨h1, h2, h3, h4, h5, h6⟩
    refine .rewind ?_
    split_ifs with hp
    · refine (number_outcome Numbers.stof hleft hs').bind ?_
      rintro v b₂ a₂ hleft₂ ⟨ha₂, rfl, hv⟩
      exact .pure hleft₂ ⟨ha₂, .float hs hw hp hv, hlen⟩
    · refine (number_outcome Numbers.stoi hleft hs').bind ?_
      rintro i b₂ a₂ hleft₂ ⟨ha₂, rfl, hi⟩
      exact .pure hleft₂ ⟨ha₂, .int hs hw hp hi, hlen⟩
  · -- the empty token is read as a number after `rewind`
    refine Outcome.rewind (x := newline) ?_
    rw [if_neg (by simp)]
    refine Outcome.bind (R := fun _ _ => False) ?_ (fun _ _ _ _ h => h.elim)
    refine Outcome.next (left_cons.mp hleft) (fun y b₂ a₂ hs₂ _ _ _ => ?_) (fun b₂ _ _ => ?_)
    · rw [significant_newline] at hs₂
      exact absurd hs₂ (by simp)
    · exact .throw .invalidArgument

theorem outcomes (text : Str) (fuel : ℕ) :
    ValueOutcome text fuel ∧ DictOutcome text fuel ∧ ArrayOutcome text fuel := by
  induction fuel with
  | zero =>
    refine ⟨?_, ?_, ?_⟩
    · intro _ _ _ _ h
      omega
    · intro _ _ _ _ _ _ h
      omega
    · intro _ _ _ _ _ h
      omega
  | succ fuel ih =>
    obtain ⟨hvalue, hdict, harray⟩ := ih
    exact ⟨parseValue_step hdict harray, parseDict_step hvalue hdict, parseArray_step hvalue harray⟩

theorem sections_outcome (fuel : ℕ) : ∀ dic before after, Left text before after → after ≠ [] →
    2 * after.length < fuel → Outcome text (sections fuel dic) before fun d _ =>
      ∃ secs, Sections after secs ∧ d = secs.foldl (fun dic kv => dic.insert kv.1 kv.2) dic := by
  induction fuel with
  | zero =>
    intro _ _ _ _ _ h
    omega
  | succ fuel ih =>
    intro dic before after h ha hfuel
    rw [sections]
    refine Outcome.next h (fun x b a hs hleft ha₁ hlen => ?_) (fun b hs hleft => ?_)
    · refine .assertMsg ?_
      intro hx
      have hbr : x = lbracket := by
        rcases of_decide_eq_true hx with h | h | h
        · exact h
        · exact absurd h (Cut.ne_nil hleft (by simp))
        · subst h
          exact absurd (by decide) (trim_head hs).1
      rw [if_pos hbr]
      subst hbr
      refine Outcome.next (left_cons.mpr hleft) (fun name b₂ a₂ hs₂ hleft₂ ha₂ hlen₂ => ?_)
        (fun b₂ hs₂ hleft₂ => ?_)
      · refine Outcome.next (left_cons.mpr hleft₂) (fun y b₃ a₃ hs₃ hleft₃ ha₃ hlen₃ => ?_)
          (fun b₃ hs₃ hleft₃ => ?_)
        · refine .assertMsg ?_
          intro hy
          have hy : y = rbracket := of_decide_eq_true hy
          subst hy
          refine ((outcomes text fuel).2.1 true [] _ a₃ (left_cons.mpr hleft₃) ha₃ (by omega)).bind ?_
          rintro d b₄ a₄ hleft₄ ⟨ha₄, hle, kvs, hkvs, rfl⟩
          refine (ih _ b₄ a₄ hleft₄ ha₄ (by omega)).mono ?_
          rintro d a' ⟨secs, hsecs, rfl⟩
          exact ⟨(name, .dict (build kvs)) :: secs, .cons hs hs₂ hs₃ hkvs hsecs, rfl⟩
        · exact .assertMsg fun hy => absurd hy (by decide)
      · refine Outcome.next hleft₂ (fun y b₃ a₃ hs₃ _ _ _ => ?_) (fun b₃ _ _ => ?_)
        · exact absurd hs₃ (by simp [significant])
        · exact .assertMsg fun hy => absurd hy (by decide)
    · exact .assertMsg fun _ => .pure hleft ⟨[], .nil hs, rfl⟩

end

/-- `parse` returns the configuration that the text stands for, or throws an exception. -/
theorem parse_outcome (text : Str) :
    (∃ d, parse text = .ok d ∧ Document text d) ∨ ∃ e, parse text = .error (.throws e) := by
  have hlen := length_pieces text
  have hstart : tokenizer text = reader text true [] := rfl
  rcases sections_outcome (2 * text.length + 3) [] [] _ (left_start text) (by simp [newline])
    (by omega) with ⟨d, b, a, hrun, -, secs, hsecs, rfl⟩ | ⟨e, hrun⟩
  · refine .inl ⟨build secs, ?_, secs, hsecs, rfl⟩
    rw [parse, hstart, StateT.run', hrun]
    rfl
  · refine .inr ⟨e, ?_⟩
    rw [parse, hstart, StateT.run', hrun]
    rfl

/-- A text that `parse` does not accept makes it throw: it always ends, and its history is never empty
when it rewinds. -/
theorem parse_throws {text : Str} {f : Fault} (h : parse text = .error f) :
    ∃ e, f = .throws e := by
  rcases parse_outcome text with ⟨d, hd, -⟩ | ⟨e, he⟩
  · rw [h] at hd
    exact absurd hd (by simp)
  · exact ⟨e, Except.error.inj (h.symm.trans he)⟩

end Toml
