import DioMonitor.Utils.Proofs.LayoutProofs

/-!
# Proofs: string literals

`parse_string` only stops dropping blanks; the tokenizer goes on to drop comments. So a literal is read
as it stands exactly when it holds no `#` (`parseValue_quoted_iff`).
-/

namespace Toml

open Config Tokenizer Lexing Layout

/-- The tokenizer of `parse` in front of the text `rest`, after it has read the text `pre`. -/
def standing (pre rest : Str) : Tokenizer := reader (pre ++ rest) true (pieces delimiters pre).reverse

/-- In front of a delimiter, what is left are the pieces of the rest. -/
theorem left_standing {c : Char} (hc : [c] ∈ delimiters) (pre rest : Str) :
    Left (pre ++ c :: rest) (pieces delimiters pre).reverse
      ([c] :: pieces delimiters (rest ++ newline)) := by
  have hcut := pieces_append_delimiter delimiters_length hc pre (rest ++ newline)
  show pieces delimiters (pre ++ c :: rest ++ newline) = _
  rw [List.append_assoc, List.cons_append, hcut, List.reverse_reverse]

theorem Left.cursor {text : Str} {before after : List Str} (h : Left text before after)
    (doSkip : Bool) :
    (reader text doSkip before).cursor + after.flatten.length = text.length + 1 := by
  have hcontent : text ++ newline = before.reverse.flatten ++ after.flatten := Cut.content_eq h
  have hlen := congrArg List.length hcontent
  rw [List.length_append, List.length_append] at hlen
  rw [reader, seek_cursor, ← hlen]
  rfl

/-- A literal is made of pieces that do not begin a comment. -/
theorem Literal.notMem {fin : Char} {ps ps' : List Str} {s : Str} (h : Literal fin ps s ps')
    (hps : ∀ p ∈ ps, '#' ∈ p → p = ['#']) : '#' ∉ s := by
  induction h with
  | close _ => exact List.not_mem_nil
  | @piece ps ps₁ ps' p s hv hp _ ih =>
    have hsuffix : verbatim ps <:+ ps := trim_suffix false ps
    have hcom : p ∉ comments := (trim_head hv).1
    intro hmem
    rcases List.mem_append.mp hmem with hmem | hmem
    · have heq := hps p (hsuffix.subset (by rw [hv]; exact List.mem_cons_self)) hmem
      subst heq
      exact hcom (by decide)
    · refine ih (fun q hq => hps q (hsuffix.subset ?_)) hmem
      rw [hv]
      exact List.mem_cons_of_mem _ hq

/-- The strings that `parse_value` returns hold no `#`. -/
theorem IsValue.string_notMem {ps ps' : List Str} {s : Str} (h : IsValue ps (.string s) ps')
    (hps : ∀ p ∈ ps, '#' ∈ p → p = ['#']) : '#' ∉ s := by
  cases h with
  | string hf hs hl =>
    refine hl.notMem fun p hp => hps p ?_
    have hsuffix : significant ps <:+ ps := trim_suffix false ps
    apply hsuffix.subset
    rw [hs]
    exact List.mem_cons_of_mem _ hp

/-- A string in quotes is read as it stands, up to its closing quote and with blanks dropped again
behind it, exactly when it holds no `#`. -/
theorem parseValue_quoted_iff (pre s rest : Str) {q : Char} (hq : q = '\'' ∨ q = '"') (hs : q ∉ s)
    {fuel : ℕ} (hfuel : 2 * (s.length + rest.length + 3) < fuel) :
    (∃ t, parseValue fuel (standing pre (q :: (s ++ q :: rest))) = .ok (.string s, t) ∧
        t.cursor = pre.length + s.length + 2 ∧ t.doSkip = true) ↔ '#' ∉ s := by
  have hdel : [q] ∈ delimiters ∧ [q] ∉ comments ∧ [q] ∉ blanks := by
    rcases hq with rfl | rfl <;> decide
  have hleft := left_standing hdel.1 pre (s ++ q :: rest)
  have hlen : (pieces delimiters (s ++ q :: rest ++ newline)).length ≤ s.length + rest.length + 2 := by
    have hle := length_pieces_le delimiters (s ++ q :: rest ++ newline)
    rw [List.length_append, List.length_append, List.length_cons] at hle
    have hline : newline.length = 1 := rfl
    omega
  have hfuel' : 2 * ([q] :: pieces delimiters (s ++ q :: rest ++ newline)).length < fuel := by
    rw [List.length_cons]
    omega
  constructor
  · rintro ⟨t, hrun, -, -⟩
    have hps : ∀ p ∈ [q] :: pieces delimiters (s ++ q :: rest ++ newline), '#' ∈ p → p = ['#'] := by
      intro p hp
      rw [← pieces_delimiter delimiters_length hdel.1] at hp
      exact eq_of_mem_pieces delimiters_length (by decide) hp
    rcases (outcomes _ fuel).1 _ _ hleft (by simp) hfuel' with ⟨v, b, a, hok, -, -, hv, -⟩ | ⟨e, he⟩
    · obtain ⟨rfl, -⟩ := Prod.mk.inj (Except.ok.inj (hok.symm.trans hrun))
      exact hv.string_notMem hps
    · exact absurd (he.symm.trans hrun) (by simp)
  · intro hc
    have hsig : significant ([q] :: pieces delimiters (s ++ q :: rest ++ newline)) =
        [q] :: pieces delimiters (s ++ q :: rest ++ newline) := trim_cons_of_not_mem hdel.2.1 hdel.2.2
    have hlit := literal_quoted hq hs hc (rest ++ newline)
    rw [← List.cons_append, ← List.append_assoc] at hlit
    obtain ⟨b, hrun, hleft', -, -⟩ :=
      (complete _ fuel).1 _ _ _ _ (.string hq hsig hlit) hleft hfuel'
    refine ⟨_, hrun, ?_, rfl⟩
    have hcursor := hleft'.cursor true
    rw [flatten_pieces] at hcursor
    simp only [List.length_append, List.length_cons, newline, List.length_nil] at hcursor
    omega

/-- A path in single quotes, between two other values. -/
theorem parseValue_quoted_path :
    ∃ t, parseValue 60
        (standing "a = ".toList ('\'' :: ("/x \"y\"".toList ++ '\'' :: "\nb = 1".toList))) =
        .ok (.string "/x \"y\"".toList, t) ∧ t.cursor = 12 ∧ t.doSkip = true :=
  (parseValue_quoted_iff "a = ".toList "/x \"y\"".toList "\nb = 1".toList (Or.inl rfl) (by decide)
    (show 2 * ("/x \"y\"".toList.length + "\nb = 1".toList.length + 3) < 60 by decide)).mpr (by decide)

/-- The rest of the line is dropped, and the literal ends at the next quote, whatever it belongs to. -/
theorem parseValue_quoted_comment :
    ¬ ∃ t, parseValue 60 (standing [] ('"' :: ("a#b".toList ++ '"' :: "\n\"".toList))) =
        .ok (.string "a#b".toList, t) ∧ t.cursor = 5 ∧ t.doSkip = true := by
  have hstart : standing [] ('"' :: ("a#b".toList ++ '"' :: "\n\"".toList)) =
      tokenizer ('"' :: ("a#b".toList ++ '"' :: "\n\"".toList)) := by
    unfold standing
    rw [pieces_nil]
    rfl
  rintro ⟨t, hrun, -⟩
  rw [hstart] at hrun
  have hread : ∃ t, parseValue 60 (tokenizer ('"' :: ("a#b".toList ++ '"' :: "\n\"".toList))) =
      .ok (.string "a".toList, t) := ⟨_, rfl⟩
  obtain ⟨t', hread⟩ := hread
  have hsame := (Prod.mk.inj (Except.ok.inj (hread.symm.trans hrun))).1
  exact absurd (Value.string.inj hsame) (by decide)

end Toml
