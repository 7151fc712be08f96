import DioMonitor.Utils.Layout
import DioMonitor.Utils.Proofs.ConfigProofs
import DioMonitor.Utils.Proofs.InversionProofs
import DioMonitor.Utils.Proofs.NumbersProofs

/-!
# Proofs: layouts

Every text of a configuration is parsed to that configuration (`parse_layout`). The texts of values,
entries and sections are phrases of the language of the parser, whatever delimiter follows them.
-/

namespace Toml

open Config

/-- Sections only depend on what is significant. -/
theorem Sections.of_significant {ps qs : List Str} {secs : List (Str × Value)} (h : Sections ps secs)
    (hs : significant qs = significant ps) : Sections qs secs := by
  cases h with
  | nil h => exact .nil (hs.trans h)
  | cons h hn hc hk hsecs => exact .cons (hs.trans h) hn hc hk hsecs

/-- Entries with different names make the dictionary that holds them. -/
theorem build_perm {kvs kvs' : List (Str × Value)} (hs : Dict.Sorted kvs) (hp : kvs'.Perm kvs) :
    build kvs' = kvs := by
  have hnodup : (kvs'.map Prod.fst).Nodup := (hp.map Prod.fst).nodup_iff.mpr hs.nodup
  obtain ⟨hsorted, hperm⟩ := Dict.foldl_insert_perm (d := []) hnodup List.Pairwise.nil (by simp)
  rw [List.append_nil] at hperm
  exact Dict.eq_of_perm hsorted hs (hperm.trans hp)

end Toml

namespace Layout

open Config Toml Lexing

/-! ## Pieces of a text -/

theorem pieces_special {c : Char} (hc : IsDelimiter c) (t : Str) :
    pieces delimiters (c :: t) = [c] :: pieces delimiters t :=
  pieces_delimiter delimiters_length hc t

/-- The characters of a word, looked at one after the other. -/
theorem plain_of_all {w : Str} (h : w.all (fun c => ¬ IsDelimiter c) = true) : ∀ c ∈ w, ¬ IsDelimiter c :=
  fun c hc => of_decide_eq_true (List.all_eq_true.mp h c hc)

theorem isDelimiter_of_blank {c : Char} (hc : [c] ∈ blanks) : IsDelimiter c := by
  have hsub : blanks ⊆ delimiters := by decide
  exact hsub hc

theorem significant_blank {p : Str} (hp : p ∈ blanks) (ps : List Str) :
    significant (p :: ps) = significant ps := by
  have hc : p ∉ comments := by
    have hdisj : ∀ q ∈ blanks, q ∉ comments := by decide
    exact hdisj p hp
  rw [significant, trim, if_neg (by simp [hc]), if_pos hp]
  rfl

/-- Inside a comment pieces are dropped up to the end of the line. -/
theorem trim_comment {qs : List Str} (hq : newline ∉ qs) (ps : List Str) :
    trim blanks comments newline true (qs ++ newline :: ps) = significant ps := by
  induction qs with
  | nil =>
    rw [List.nil_append, trim, if_pos (by simp)]
    rfl
  | cons q qs ih =>
    have hne : q ≠ newline := fun h => hq (h ▸ List.mem_cons_self)
    rw [List.cons_append, trim, if_pos (by simp), decide_eq_true hne]
    exact ih fun h => hq (List.mem_cons_of_mem _ h)

/-- A significant piece. -/
theorem significant_cons {p : Str} (hc : p ∉ comments) (hb : p ∉ blanks) (ps : List Str) :
    significant (p :: ps) = p :: ps := trim_cons_of_not_mem hc hb

/-- The brackets, the braces, the quotes, the comma and the equals sign. -/
def IsMark (c : Char) : Prop := IsDelimiter c ∧ [c] ∉ comments ∧ [c] ∉ blanks

instance (c : Char) : Decidable (IsMark c) := inferInstanceAs (Decidable (_ ∧ _))

theorem significant_mark {c : Char} (hc : IsMark c) (t : Str) :
    significant (pieces delimiters (c :: t)) = [c] :: pieces delimiters t := by
  obtain ⟨hdelimiter, hcom, hb⟩ := hc
  rw [pieces_special hdelimiter, significant_cons hcom hb]

/-- A word, followed by a delimiter or by the end of the text. -/
theorem significant_word {w t : Str} (hne : w ≠ []) (hw : ∀ c ∈ w, ¬ IsDelimiter c)
    (ht : Begins delimiters t) :
    significant (pieces delimiters (w ++ t)) = w :: pieces delimiters t := by
  have hnot : w ∉ delimiters := by
    intro hmem
    obtain ⟨c, rfl⟩ := List.length_eq_one_iff.mp (delimiters_length w hmem)
    exact hw c (by simp) hmem
  have hcom : comments ⊆ delimiters := by decide
  have hblank : blanks ⊆ delimiters := by decide
  rw [pieces_word delimiters_length hne hw ht,
    significant_cons (fun h => hnot (hcom h)) (fun h => hnot (hblank h))]

/-! ## Gaps -/

theorem newline_notMem_pieces {s : Str} (hs : '\n' ∉ s) : newline ∉ pieces delimiters s :=
  fun h => hs (mem_of_mem_pieces h (by simp [newline]))

/-- A gap does not count. -/
theorem Gap.significant {g : Str} (hg : Gap g) (t : Str) :
    significant (pieces delimiters (g ++ t)) = Toml.significant (pieces delimiters t) := by
  induction hg with
  | nil => rfl
  | @blank c g hc hg ih =>
    rw [List.cons_append, pieces_special (isDelimiter_of_blank hc), significant_blank hc, ih]
  | @comment s g hs hg ih =>
    have hnl : IsDelimiter '\n' := by decide
    rw [List.cons_append, List.append_assoc, List.cons_append, pieces_special (by decide),
      pieces_append_delimiter delimiters_length hnl]
    have hdrop := trim_comment (newline_notMem_pieces hs) (pieces delimiters (g ++ t))
    rw [← ih, ← hdrop]
    rfl

/-- Where a gap stands a word ends. -/
theorem Gap.begins {g t : Str} (hg : Gap g) (ht : g ≠ [] ∨ Begins delimiters t) :
    Begins delimiters (g ++ t) := by
  cases hg with
  | nil => exact ht.resolve_left (fun h => h rfl)
  | blank hc hg => exact begins_cons (isDelimiter_of_blank hc) _
  | comment hs hg => exact begins_cons (by decide : IsDelimiter '#') _

theorem Gap.append {g h : Str} (hg : Gap g) (hh : Gap h) : Gap (g ++ h) := by
  induction hg with
  | nil => exact hh
  | blank hc _ ih => exact .blank hc ih
  | @comment s g hs _ ih =>
    have hgap := Gap.comment hs ih
    rwa [List.cons_append, List.append_assoc, List.cons_append]

/-! ## String literals -/

theorem literal_append {fin : Char} {qs : List Str} (hq : ∀ q ∈ qs, q ≠ [fin] ∧ q ∉ comments)
    (hf : [fin] ∉ comments) (ps : List Str) : Literal fin (qs ++ [fin] :: ps) qs.flatten ps := by
  induction qs with
  | nil => exact .close (trim_cons_of_not_mem hf List.not_mem_nil)
  | cons q qs ih =>
    obtain ⟨hne, hcom⟩ := hq q (by simp)
    exact .piece (trim_cons_of_not_mem hcom List.not_mem_nil) hne
      (ih fun q hq' => hq q (List.mem_cons_of_mem _ hq'))

/-- A text without its own quotes and without comments is a literal in quotes. -/
theorem literal_quoted {fin : Char} {s : Str} (hf : fin = '\'' ∨ fin = '"') (hs : fin ∉ s)
    (hc : '#' ∉ s) (t : Str) :
    Literal fin (pieces delimiters (s ++ fin :: t)) s (pieces delimiters t) := by
  have hdel : IsDelimiter fin ∧ [fin] ∉ comments := by rcases hf with rfl | rfl <;> decide
  have hinside : ∀ q ∈ pieces delimiters s, q ≠ [fin] ∧ q ∉ comments := by
    intro q hq
    constructor
    · rintro rfl
      exact hs (mem_of_mem_pieces hq (by simp))
    · intro hmem
      obtain rfl : q = ['#'] := by simpa [comments] using hmem
      exact hc (mem_of_mem_pieces hq (by simp))
  have hlit := literal_append hinside hdel.2 (pieces delimiters t)
  rwa [flatten_pieces, ← pieces_append_delimiter delimiters_length hdel.1] at hlit

theorem gap_space : Gap [' '] := .blank (by decide) .nil

theorem gap_newline : Gap ['\n'] := .blank (by decide) .nil

theorem significant_line : significant (pieces delimiters newline) = [] := by
  have hline := gap_newline.significant []
  rwa [pieces_nil] at hline

/-! ## Values -/

theorem Key.significant {k : Str} (hk : Key k) {t : Str} (ht : Begins delimiters t) :
    significant (pieces delimiters (k ++ t)) = k :: pieces delimiters t :=
  significant_word hk.ne_nil hk.plain ht

theorem Key.single {c : Char} (hc : ¬ IsDelimiter c) : Key [c] := by
  refine ⟨nofun, ?_⟩
  intro c' hc'
  rw [List.mem_singleton.mp hc']
  exact hc

theorem Key.ne_delimiter {k d : Str} (hk : Key k) (hd : d ∈ delimiters) : k ≠ d := by
  rintro rfl
  obtain ⟨c, rfl⟩ := List.length_eq_one_iff.mp (delimiters_length k hd)
  exact hk.plain c (by simp) hd

/-- A word without delimiters is no bracket and no quote. -/
theorem word_of_plain {w : Str} (hw : ∀ c ∈ w, ¬ IsDelimiter c) (hf : w ≠ falseWord)
    (ht : w ≠ trueWord) : Word w := by
  have hne : ∀ c, IsDelimiter c → w ≠ [c] := by
    rintro c hc rfl
    exact hw c (by simp) hc
  exact ⟨hne '{' (by decide), hne '[' (by decide), hne '\'' (by decide), hne '"' (by decide), hf, ht⟩

theorem numeral_word {x : Str} {i : ℤ} (hx : Numbers.Numeral x i) :
    (∀ c ∈ x, ¬ IsDelimiter c) ∧ Word x ∧ '.' ∉ x := by
  have hdigit : ∀ c : Char, c.isDigit = true → ¬ IsDelimiter c ∧ c ≠ '.' ∧ c ≠ 'f' ∧ c ≠ 't' := by
    intro c hc
    refine ⟨fun hd => ?_, ?_, ?_, ?_⟩
    · have hall : ∀ e ∈ delimiters.flatten, ¬ e.isDigit = true := List.any_eq_false.mp rfl
      exact hall c (List.mem_flatten.mpr ⟨[c], hd, List.mem_singleton_self c⟩) hc
    all_goals
      rintro rfl
      revert hc
      decide
  have hplain : ∀ c ∈ x, ¬ IsDelimiter c ∧ c ≠ '.' ∧ c ≠ 'f' ∧ c ≠ 't' := by
    intro c hc
    rcases hx.chars hc with rfl | rfl | hc
    · decide
    · decide
    · exact hdigit c hc
  refine ⟨fun c hc => (hplain c hc).1, word_of_plain (fun c hc => (hplain c hc).1) ?_ ?_,
    fun h => (hplain '.' h).2.1 rfl⟩
  · rintro rfl
    exact (hplain 'f' (by decide)).2.2.1 rfl
  · rintro rfl
    exact (hplain 't' (by decide)).2.2.2 rfl

/-- What follows a name: the equals sign, and a value. -/
theorem Assigns.significant {k x a t : Str} (hk : Key k) (ha : Assigns k x a) :
    ∃ ps ps', significant (pieces delimiters (a ++ t)) = k :: ps ∧
      Toml.significant ps = equals :: ps' ∧
      Toml.significant ps' = Toml.significant (pieces delimiters (x ++ t)) := by
  obtain ⟨g₁, g₂, h₁, h₂, rfl⟩ := ha
  have heq : IsDelimiter '=' := by decide
  refine ⟨pieces delimiters (g₁ ++ '=' :: (g₂ ++ x) ++ t), pieces delimiters (g₂ ++ (x ++ t)), ?_, ?_,
    h₂.significant _⟩
  · rw [List.append_assoc]
    exact hk.significant (by
      rw [List.append_assoc]
      exact h₁.begins (.inr (begins_cons heq _)))
  · rw [List.append_assoc, List.cons_append, List.append_assoc, h₁.significant]
    exact significant_mark (by decide) _

mutual

/-- The text of a value is read as that value. After an unquoted value the text has to go on with a
delimiter. -/
theorem IsText.isValue {v : Value} {x : Str} (h : IsText v x) (t : Str)
    (ht : Unquoted v → Begins delimiters t) :
    IsValue (pieces delimiters (x ++ t)) v (pieces delimiters t) := by
  match v, x, h, ht with
  | _, _, .int hx hlo hhi, ht =>
    obtain ⟨hplain, hword, hpoint⟩ := numeral_word hx
    exact .int (significant_word hx.ne_nil hplain (ht trivial)) hword hpoint
      (Numbers.stoi_numeral hx hlo hhi)
  | _, _, .bool b, ht =>
    cases b with
    | false => exact .boolFalse (significant_word nofun (plain_of_all rfl) (ht trivial))
    | true => exact .boolTrue (significant_word nofun (plain_of_all rfl) (ht trivial))
  | _, _, @IsText.string s fin hf hs hc, _ =>
    have hsig : significant (pieces delimiters (fin :: (s ++ [fin] ++ t))) =
        [fin] :: pieces delimiters (s ++ fin :: t) := by
      rw [List.append_assoc]
      rcases hf with rfl | rfl
      · exact significant_mark (by decide) _
      · exact significant_mark (by decide) _
    exact .string hf hsig (literal_quoted hf hs hc t)
  | _, _, @IsText.array vs y hy, _ =>
    have hsig : significant (pieces delimiters ('[' :: (y ++ [']'] ++ t))) =
        lbracket :: pieces delimiters (y ++ ']' :: t) := by
      rw [List.append_assoc]
      exact significant_mark (by decide) _
    exact .array hsig (hy.elements t)
  | _, _, @IsText.dict kvs kvs' y hs hp hy, _ =>
    have hsig : significant (pieces delimiters ('{' :: (y ++ ['}'] ++ t))) =
        lbrace :: pieces delimiters (y ++ '}' :: t) := by
      rw [List.append_assoc]
      exact significant_mark (by decide) _
    rw [← build_perm hs hp]
    exact .dict hsig (hy.entries t)

theorem IsElements.elements {vs : List Value} {y : Str} (h : IsElements vs y) (t : Str) :
    Elements (pieces delimiters (y ++ ']' :: t)) vs (pieces delimiters t) := by
  have hclose : IsDelimiter ']' := by decide
  match vs, y, h with
  | _, _, .nil hg =>
    refine .close ?_
    rw [hg.significant]
    exact significant_mark (by decide) t
  | _, _, @IsElements.last v x g₁ g₂ h₁ hx h₂ =>
    have hv := hx.isValue (g₂ ++ ']' :: t) fun _ => h₂.begins (.inr (begins_cons hclose t))
    have hv' : IsValue (pieces delimiters (g₁ ++ (x ++ g₂) ++ ']' :: t)) v _ :=
      hv.of_significant (by rw [List.append_assoc, h₁.significant, List.append_assoc])
    refine .last (hv'.begin_ne (by decide)) hv' ?_
    rw [h₂.significant]
    exact significant_mark (by decide) t
  | _, _, @IsElements.more v vs x y g₁ g₂ h₁ hx h₂ hy =>
    have hcomma : IsDelimiter ',' := by decide
    have hv := hx.isValue (g₂ ++ ',' :: (y ++ ']' :: t)) fun _ =>
      h₂.begins (.inr (begins_cons hcomma _))
    have hv' : IsValue (pieces delimiters (g₁ ++ (x ++ (g₂ ++ ',' :: y)) ++ ']' :: t)) v _ :=
      hv.of_significant (by
        rw [List.append_assoc, h₁.significant, List.append_assoc, List.append_assoc, List.cons_append])
    refine .more (hv'.begin_ne (by decide)) hv' ?_ (hy.elements t)
    rw [h₂.significant]
    exact significant_mark (by decide) _

theorem IsTable.entries {kvs : List (Str × Value)} {y : Str} (h : IsTable kvs y) (t : Str) :
    Entries false (pieces delimiters (y ++ '}' :: t)) kvs (pieces delimiters t) := by
  have hclose : IsDelimiter '}' := by decide
  match kvs, y, h with
  | _, _, @IsTable.last k v x a g₁ g₂ h₁ hk hx ha h₂ =>
    obtain ⟨ps, ps', hname, hequals, hvalue⟩ := ha.significant (t := g₂ ++ '}' :: t) hk
    have hv := hx.isValue (g₂ ++ '}' :: t) fun _ => h₂.begins (.inr (begins_cons hclose t))
    refine .last ?_ (hk.ne_delimiter (by decide)) hequals (hv.of_significant hvalue) ?_
    · rw [List.append_assoc, h₁.significant, List.append_assoc, hname]
    · rw [h₂.significant]
      exact significant_mark (by decide) t
  | _, _, @IsTable.more k v kvs x a y g₁ g₂ h₁ hk hx ha h₂ hy =>
    have hcomma : IsDelimiter ',' := by decide
    obtain ⟨ps, ps', hname, hequals, hvalue⟩ := ha.significant (t := g₂ ++ ',' :: (y ++ '}' :: t)) hk
    have hv := hx.isValue (g₂ ++ ',' :: (y ++ '}' :: t)) fun _ =>
      h₂.begins (.inr (begins_cons hcomma _))
    refine .more ?_ (hk.ne_delimiter (by decide)) hequals (hv.of_significant hvalue) ?_
      (hy.entries t)
    · rw [List.append_assoc, h₁.significant, List.append_assoc, List.append_assoc, List.cons_append,
        hname]
    · rw [h₂.significant]
      exact significant_mark (by decide) _

end

/-! ## Sections and documents -/

/-- The entries of a section end where another section or the end of the text follows. -/
theorem IsBody.begins {kvs : List (Str × Value)} {y t : Str} {p : Prop} (h : IsBody p kvs y) (hp : p)
    (ht : Begins delimiters t) : Begins delimiters (y ++ t) := by
  cases h with
  | nil hg => exact hg.begins (.inr ht)
  | cons hg hsep =>
    rw [List.append_assoc]
    exact hg.begins (.inl (hsep hp))

/-- What stands after the entries of a section, and what the parser goes on with. -/
def Ends (t : Str) (ps' : List Str) : Prop :=
  (significant (pieces delimiters t) = [] ∧ ps' = [newline]) ∨
    ∃ qs, significant (pieces delimiters t) = lbracket :: qs ∧ ps' = lbracket :: qs

theorem IsBody.entries {kvs : List (Str × Value)} {y : Str} {p : Prop} (h : IsBody p kvs y) {t : Str}
    {ps' : List Str} (ht : Begins delimiters t) (hend : Ends t ps') :
    Entries true (pieces delimiters (y ++ t)) kvs ps' := by
  induction h with
  | nil hg =>
    rcases hend with ⟨hnil, rfl⟩ | ⟨qs, hsec, rfl⟩
    · exact .eof (by rw [hg.significant, hnil])
    · exact .header (by rw [hg.significant, hsec])
  | @cons p k v kvs x a y g hg hsep hk hx ha hy ih =>
    obtain ⟨ps, ps', hname, hequals, hvalue⟩ := ha.significant (t := y ++ t) hk
    have hv := hx.isValue (y ++ t) fun hopen => hy.begins hopen ht
    refine .entry ?_ (hk.ne_delimiter (by decide)) hequals (hv.of_significant hvalue) ih
    rw [List.append_assoc, hg.significant, List.append_assoc, hname]

/-- The text of some sections begins with a gap or a header. -/
theorem IsSections.begins {secs : List (Str × Value)} {t : Str} (h : IsSections secs t) :
    Begins delimiters t := by
  cases h with
  | nil hg =>
    have hbegins := hg.begins (t := []) (.inr (begins_nil delimiters))
    rwa [List.append_nil] at hbegins
  | cons h₁ => exact h₁.begins (.inr (begins_cons (by decide : IsDelimiter '[') _))

theorem IsSections.sections {secs : List (Str × Value)} {t : Str} (h : IsSections secs t) :
    Sections (pieces delimiters t) secs := by
  induction h with
  | nil hg =>
    have hsig := hg.significant []
    rw [List.append_nil, pieces_nil] at hsig
    exact .nil hsig
  | @cons name kvs kvs' secs y t g₁ g₂ g₃ h₁ h₂ hn h₃ hs hp hy hsecs ih =>
    have hclose : IsDelimiter ']' := by decide
    have hheader : significant (pieces delimiters
        (g₁ ++ '[' :: (g₂ ++ (name ++ (g₃ ++ ']' :: (y ++ t)))))) =
          lbracket :: pieces delimiters (g₂ ++ (name ++ (g₃ ++ ']' :: (y ++ t)))) := by
      rw [h₁.significant]
      exact significant_mark (by decide) _
    have hname : significant (pieces delimiters (g₂ ++ (name ++ (g₃ ++ ']' :: (y ++ t))))) =
        name :: pieces delimiters (g₃ ++ ']' :: (y ++ t)) := by
      rw [h₂.significant]
      exact hn.significant (h₃.begins (.inr (begins_cons hclose _)))
    have hend : significant (pieces delimiters (g₃ ++ ']' :: (y ++ t))) =
        rbracket :: pieces delimiters (y ++ t) := by
      rw [h₃.significant]
      exact significant_mark (by decide) _
    rw [← build_perm hs hp]
    -- the parser goes back to the header of the next section
    cases hrest : significant (pieces delimiters t) with
    | nil =>
      have hentries := hy.entries hsecs.begins (.inl ⟨hrest, rfl⟩)
      exact .cons hheader hname hend hentries (ih.of_significant (by rw [hrest]; decide))
    | cons q qs =>
      obtain rfl : q = lbracket := by
        cases ih with
        | nil hnil =>
          rw [hnil] at hrest
          cases hrest
        | cons h =>
          rw [h] at hrest
          exact (List.cons.inj hrest).1.symm
      have hentries := hy.entries hsecs.begins (.inr ⟨qs, hrest, rfl⟩)
      exact .cons hheader hname hend hentries (ih.of_significant (by
        rw [significant_cons (by decide) (by decide), hrest]))

/-- The texts of a configuration are texts of the language of the parser. -/
theorem IsDocument.document {cfg : Dict} {text : Str} (h : IsDocument cfg text) : Document text cfg := by
  obtain ⟨hs, secs, hp, hsecs⟩ := h
  exact ⟨secs, hsecs.sections, (build_perm hs hp).symm⟩

/-- Every text of a configuration is parsed, and to that configuration. -/
theorem parse_layout {cfg : Dict} {text : Str} (h : IsDocument cfg text) : parse text = .ok cfg :=
  parse_eq_ok_iff.mpr h.document

/-- A section whose first entry is the second one of its dictionary, with a comment at the end of a line
and a comma at the end of an array. -/
theorem parse_layout_small :
    parse ['[', 's', ']', '\n', 'b', '=', '1', '#', 'x', '\n', 'a', ' ', '=', '[', '\'', '=', '\'', ',', ']'] =
      .ok [(['s'], .dict [(['a'], .array [.string ['=']]), (['b'], .int 1)])] := by
  have hcomment : Gap ['#', 'x', '\n'] := @Gap.comment ['x'] [] (by decide) .nil
  have hone : IsText (.int 1) ['1'] :=
    .int ⟨false, [], ['1'], by decide, ⟨nofun, List.all_eq_true.mp rfl⟩, rfl, rfl⟩ (by decide) (by decide)
  have hstring : IsText (.string ['=']) ['\'', '=', '\''] :=
    @IsText.string ['='] '\'' (.inl rfl) (by decide) (by decide)
  have harray : IsText (.array [.string ['=']]) ['[', '\'', '=', '\'', ',', ']'] :=
    .array (.more .nil hstring .nil (.nil .nil))
  have hbody : IsBody False [(['b'], .int 1), (['a'], .array [.string ['=']])]
      ['\n', 'b', '=', '1', '#', 'x', '\n', 'a', ' ', '=', '[', '\'', '=', '\'', ',', ']'] :=
    .cons gap_newline nofun (.single (by decide)) hone ⟨[], [], .nil, .nil, rfl⟩
      (.cons hcomment nofun (.single (by decide)) harray ⟨[' '], [], gap_space, .nil, rfl⟩ (.nil .nil))
  have hsections := IsSections.cons .nil .nil (@Key.single 's' (by decide)) .nil (by decide)
    (List.Perm.swap _ _ []) hbody (.nil gap_newline)
  exact parse_layout ⟨List.pairwise_singleton _ _, _, List.Perm.refl _, hsections⟩

end Layout
