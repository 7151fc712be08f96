import DioMonitor.Utils.Proofs.InversionProofs
import DioMonitor.Utils.Proofs.WrittenProofs

/-!
# Proofs: writing a configuration and reading it back

A configuration that is read back from what `dump` wrote is writable, and every writable one is
(`parse_dump_iff`). What `dump` writes for a writable configuration is one of its texts. For the others
the parser is followed over the text: it stops at the first value that is missing or that lacks its
braces, or it reads a shorter array or section.
-/

namespace Layout

open Config Toml Lexing

/-! ## Reading back what is written -/

/-- An integer is read back. -/
theorem read_int {i : ℤ} (hlo : -2 ^ 31 ≤ i) (hhi : i < 2 ^ 31) {t : Str} (ht : Begins delimiters t)
    {v : Value} {ps' : List Str} (h : IsValue (pieces delimiters (dumpValue (.int i) ++ t)) v ps') :
    v = .int i ∧ ps' = pieces delimiters t := by
  have hx := Numbers.numeral_showInt i
  obtain ⟨hplain, hword, hpoint⟩ := numeral_word hx
  rw [dumpValue, toInt_of_bounds hlo hhi] at h
  have hbegun := h.begun (significant_word hx.ne_nil hplain ht)
  rw [Begun, hword.ite, if_neg hpoint] at hbegun
  obtain ⟨j, rfl, hj, rfl⟩ := hbegun
  rw [Numbers.stoi_numeral hx hlo hhi] at hj
  obtain rfl := Except.ok.inj hj
  exact ⟨rfl, rfl⟩

/-- A string is read back. -/
theorem read_string {s t : Str} (hq : '"' ∉ s) (hc : '#' ∉ s) {v : Value} {ps' : List Str}
    (h : IsValue (pieces delimiters (dumpValue (.string s) ++ t)) v ps') :
    v = .string s ∧ ps' = pieces delimiters t := by
  have htext : dumpValue (.string s) ++ t = '"' :: (s ++ '"' :: t) := by simp [dumpValue]
  rw [htext] at h
  obtain ⟨s', rfl, hlit⟩ :=
    h.of_quote (.inr rfl) (significant_mark (by decide) _)
  obtain ⟨rfl, rfl⟩ := hlit.unique (literal_quoted (.inr rfl) hq hc t)
  exact ⟨rfl, rfl⟩

/-- The lines of a dictionary: blank, or a name and an equals sign come first. -/
theorem dumpGlobal_shape {kvs : List (Str × Value)} (hk : ∀ e ∈ kvs, Key e.1) :
    Gap (dumpGlobal false kvs) ∨
      ∃ g k t, Gap g ∧ Key k ∧ dumpGlobal false kvs = g ++ (k ++ (" = ".toList ++ t)) := by
  induction kvs with
  | nil => exact .inl .nil
  | cons e kvs ih =>
    obtain ⟨k, v⟩ := e
    have hkey : Key k := hk (k, v) (by simp)
    cases v with
    | bool b =>
      rcases ih fun e he => hk e (List.mem_cons_of_mem _ he) with hgap | ⟨g, k', t, hg, hk', ht⟩
      · exact .inl (gap_newline.append hgap)
      · exact .inr ⟨'\n' :: g, k', t, .blank (by decide) hg, hk', congrArg (newline ++ ·) ht⟩
    | dict d =>
      refine .inr ⟨[], k, '{' :: (dumpInline true d ++ "\x7d\n".toList) ++ dumpGlobal false kvs, .nil,
        hkey, ?_⟩
      simp [dumpGlobal]
    | int i =>
      refine .inr ⟨[], k, dumpValue (.int i) ++ newline ++ dumpGlobal false kvs, .nil, hkey, ?_⟩
      simp [dumpGlobal]
    | float x =>
      refine .inr ⟨[], k, dumpValue (.float x) ++ newline ++ dumpGlobal false kvs, .nil, hkey, ?_⟩
      simp [dumpGlobal]
    | string s =>
      refine .inr ⟨[], k, dumpValue (.string s) ++ newline ++ dumpGlobal false kvs, .nil, hkey, ?_⟩
      simp [dumpGlobal]
    | array vs =>
      refine .inr ⟨[], k, dumpValue (.array vs) ++ newline ++ dumpGlobal false kvs, .nil, hkey, ?_⟩
      simp [dumpGlobal]

/-- A name and an equals sign. -/
theorem significant_assign {g k t : Str} (hg : Gap g) (hk : Key k) :
    ∃ ps, significant (pieces delimiters (g ++ (k ++ (" = ".toList ++ t)))) = k :: ps ∧
      significant ps = equals :: pieces delimiters (' ' :: t) := by
  have hspace : Begins delimiters (" = ".toList ++ t) :=
    begins_cons (show IsDelimiter ' ' by decide) _
  refine ⟨pieces delimiters (" = ".toList ++ t), ?_, ?_⟩
  · rw [hg.significant, hk.significant hspace]
  · have hequals := gap_space.significant ('=' :: ' ' :: t)
    rw [significant_mark (by decide)] at hequals
    exact hequals

/-- The characters that may follow a value in an array or in an inline table. -/
def Closer (c : Char) : Prop := c = ',' ∨ c = ']' ∨ c = '}'

theorem Closer.isDelimiter {c : Char} (hc : Closer c) : IsDelimiter c := by
  rcases hc with rfl | rfl | rfl
  all_goals decide

theorem Closer.special {c : Char} (hc : Closer c) (t : Str) :
    significant (pieces delimiters (c :: t)) = [c] :: pieces delimiters t := by
  rcases hc with rfl | rfl | rfl
  all_goals exact significant_mark (by decide) t

/-- No value is read where none was written. -/
theorem read_blank {g t : Str} (hg : Gap g) {c : Char} (hc : Closer c) {v : Value} {ps' : List Str} :
    ¬ IsValue (pieces delimiters (g ++ c :: t)) v ps' := by
  intro h
  have hsig := hg.significant (c :: t)
  rw [hc.special] at hsig
  rcases hc with rfl | rfl | rfl
  all_goals exact h.begin_ne (by decide) _ hsig

/-- A dictionary that was written without braces is read as its first name, before an equals sign. -/
theorem read_lines {kvs : List (Str × Value)} (hk : ∀ e ∈ kvs, Key e.1) {c : Char} (hc : Closer c)
    {t : Str} {v : Value} {ps' : List Str}
    (h : IsValue (pieces delimiters (dumpGlobal false kvs ++ c :: t)) v ps') :
    ∃ qs, significant ps' = equals :: qs := by
  rcases dumpGlobal_shape hk with hgap | ⟨g, k, u, hg, hkey, htext⟩
  · exact absurd h (read_blank hgap hc)
  · have hsplit : dumpGlobal false kvs ++ c :: t = g ++ (k ++ (" = ".toList ++ (u ++ c :: t))) := by
      simp [htext]
    rw [hsplit] at h
    obtain ⟨ps, hname, hequals⟩ := significant_assign (t := u ++ c :: t) hg hkey
    obtain rfl := h.word_rest hname fun hd => hkey.ne_delimiter hd rfl
    exact ⟨_, hequals⟩

/-- An array ends before a value only where none was written. -/
theorem close_value {v : Value} (hs : Storable v) {c : Char} (hc : Closer c) {t : Str} {ps' : List Str}
    (h : significant (pieces delimiters (dumpValue v ++ c :: t)) = rbracket :: ps') :
    ¬ Plain v ∧ c = ']' ∧ ps' = pieces delimiters t := by
  have hblank : ∀ g, Gap g → significant (pieces delimiters (g ++ c :: t)) = rbracket :: ps' →
      c = ']' ∧ ps' = pieces delimiters t := by
    intro g hg hsig
    rw [hg.significant, hc.special] at hsig
    obtain ⟨hx, rfl⟩ := List.cons.inj hsig
    exact ⟨(List.cons.inj hx).1, rfl⟩
  cases hs with
  | bool b => exact ⟨nofun, hblank [] .nil h⟩
  | @int i hlo hhi =>
    have hx := Numbers.numeral_showInt i
    have hplain := (numeral_word hx).1
    rw [dumpValue, toInt_of_bounds hlo hhi,
      significant_word hx.ne_nil hplain (begins_cons hc.isDelimiter t)] at h
    have hword : showInt i = rbracket := (List.cons.inj h).1
    rw [hword] at hplain
    exact absurd (by decide) (hplain ']' (by decide))
  | string hq hcom =>
    rw [dumpValue, List.cons_append, significant_mark (by decide)] at h
    exact absurd (List.cons.inj h).1 (by decide)
  | array hvs =>
    rw [dumpValue, List.cons_append, significant_mark (by decide)] at h
    exact absurd (List.cons.inj h).1 (by decide)
  | @dict kvs hsorted hk hvs =>
    rw [dumpValue] at h
    rcases dumpGlobal_shape hk with hgap | ⟨g, k, u, hg, hkey, htext⟩
    · exact ⟨nofun, hblank _ hgap h⟩
    · have hsplit : dumpGlobal false kvs ++ c :: t = g ++ (k ++ (" = ".toList ++ (u ++ c :: t))) := by
        simp [htext]
      obtain ⟨ps, hname, -⟩ := significant_assign (t := u ++ c :: t) hg hkey
      rw [hsplit, hname] at h
      exact absurd (List.cons.inj h).1 (hkey.ne_delimiter (by decide))

/-- An integer, a string or an array, whose text is never empty. -/
def Solid : Value → Prop
  | .int _ | .string _ | .array _ => True
  | _ => False

/-- What the parser makes of the text of a value: it goes on behind the text, with the value exactly when
that is plain, or it has taken the first name of a dictionary for a value. -/
def ReadsBack (v : Value) : Prop :=
  ∀ c t v' ps', IsDelimiter c → (¬ Solid v → Closer c) →
    IsValue (pieces delimiters (dumpValue v ++ c :: t)) v' ps' →
      (¬ Solid v ∧ ∃ qs, significant ps' = equals :: qs) ∨
        (ps' = pieces delimiters (c :: t) ∧ (v' = v ↔ Plain v))

/-- The first element of an array: it was not written and the array ends, or its value is read back. -/
theorem element_readBack {v : Value} (hv : ReadsBack v) (hs : Storable v) {g : Str} (hg : Gap g) {c : Char}
    (hc : c = ',' ∨ c = ']') {t : Str} {vs : List Value} {ps' : List Str}
    (h : Elements (pieces delimiters (g ++ (dumpValue v ++ c :: t))) vs ps') :
    (¬ Plain v ∧ c = ']' ∧ ps' = pieces delimiters t ∧ vs = []) ∨
      ∃ v', (v' = v ↔ Plain v) ∧ ((c = ']' ∧ ps' = pieces delimiters t ∧ vs = [v']) ∨
        (c = ',' ∧ ∃ vs', Elements (pieces delimiters t) vs' ps' ∧ vs = v' :: vs')) := by
  have hcloser : Closer c := by
    rcases hc with rfl | rfl
    · exact .inl rfl
    · exact .inr (.inl rfl)
  have hspecial := hcloser.special t
  rcases h.inv with ⟨hsig, rfl⟩ | ⟨v', ps₁, -, hvalue, hend⟩
  · rw [hg.significant] at hsig
    obtain ⟨hnot, hclose, hps⟩ := close_value hs hcloser hsig
    exact .inl ⟨hnot, hclose, hps, rfl⟩
  · have hvalue' := hvalue.of_significant (hg.significant _).symm
    rcases hv _ _ _ _ hcloser.isDelimiter (fun _ => hcloser) hvalue' with ⟨-, qs, hequals⟩ | ⟨rfl, hiff⟩
    · rcases hend with ⟨hend, -⟩ | ⟨ps₂, vs', hend, -⟩
      · exact absurd (rest_unique hequals hend).1 (by decide)
      · exact absurd (rest_unique hequals hend).1 (by decide)
    · refine .inr ⟨v', hiff, ?_⟩
      rcases hend with ⟨hend, rfl⟩ | ⟨ps₂, vs', hend, hrest, rfl⟩
      · obtain ⟨hx, rfl⟩ := rest_unique hspecial hend
        exact .inl ⟨(List.cons.inj hx).1, rfl, rfl⟩
      · obtain ⟨hx, rfl⟩ := rest_unique hspecial hend
        exact .inr ⟨(List.cons.inj hx).1, vs', hrest, rfl⟩

mutual

theorem readsBack (v : Value) (hs : Storable v) : ReadsBack v := by
  intro c t v' ps' hc hcloser h
  match v, hs with
  | .int i, .int hlo hhi =>
    obtain ⟨rfl, rfl⟩ := read_int hlo hhi (begins_cons hc t) h
    exact .inr ⟨rfl, iff_of_true rfl (.int i)⟩
  | .string s, .string hq hcom =>
    obtain ⟨rfl, rfl⟩ := read_string hq hcom h
    exact .inr ⟨rfl, iff_of_true rfl (.string s)⟩
  | .bool b, _ => exact absurd h (read_blank .nil (hcloser nofun))
  | .dict kvs, .dict hsorted hk hvs => exact .inl ⟨nofun, read_lines hk (hcloser nofun) h⟩
  | .array vs, .array hvs =>
    have htext : dumpValue (.array vs) ++ c :: t = '[' :: (dumpElements true vs ++ ']' :: (c :: t)) := by
      simp [dumpValue]
    rw [htext] at h
    obtain ⟨vs', rfl, ha⟩ := h.of_lbracket (significant_mark (by decide) _)
    match vs, hvs with
    | [], _ =>
      have hclose : significant (pieces delimiters (']' :: c :: t)) = rbracket :: pieces delimiters (c :: t) :=
        significant_mark (by decide) _
      rcases ha.inv with ⟨hsig, rfl⟩ | ⟨-, -, hn, -⟩
      · exact .inr ⟨(rest_unique hsig hclose).2, iff_of_true rfl (.array (by simp))⟩
      · exact absurd hclose (hn _)
    | v :: vs, hvs =>
      obtain ⟨hrest, hiff⟩ := elements_readBack v vs (g := []) .nil (readsBack v (hvs v (by simp)))
        (hvs v (by simp)) (fun w hw => hvs w (List.mem_cons_of_mem _ hw)) (t := c :: t) (by
          simpa [dumpElements] using ha)
      refine .inr ⟨hrest, ?_⟩
      rw [Value.array.injEq, hiff]
      constructor
      · intro hall
        exact .array hall
      · rintro (_ | _ | hall)
        exact hall

theorem elements_readBack (v : Value) (vs : List Value) {g : Str} (hg : Gap g) (hv : ReadsBack v)
    (hs : Storable v) (hvs : ∀ w ∈ vs, Storable w) {t : Str} {vs' : List Value} {ps' : List Str}
    (h : Elements (pieces delimiters (g ++ (dumpValue v ++ (dumpElements false vs ++ ']' :: t)))) vs' ps') :
    ps' = pieces delimiters t ∧ (vs' = v :: vs ↔ ∀ w ∈ v :: vs, Plain w) := by
  match vs, hvs with
  | [], _ =>
    rcases element_readBack hv hs hg (.inr rfl) h with
      ⟨hnot, -, rfl, rfl⟩ | ⟨v', hiff, ⟨-, rfl, rfl⟩ | ⟨hc, -⟩⟩
    · exact ⟨rfl, iff_of_false nofun fun hall => hnot (hall v (by simp))⟩
    · refine ⟨rfl, ?_⟩
      simpa using hiff
    · exact absurd hc (by decide)
  | w :: ws, hvs =>
    have hfollow : dumpElements false (w :: ws) ++ ']' :: t =
        ',' :: ([' '] ++ (dumpValue w ++ (dumpElements false ws ++ ']' :: t))) := by
      simp [dumpElements]
    rw [hfollow] at h
    rcases element_readBack hv hs hg (.inl rfl) h with
      ⟨-, hc, -⟩ | ⟨v', hiff, ⟨hc, -⟩ | ⟨-, vs'', hrest, rfl⟩⟩
    · exact absurd hc (by decide)
    · exact absurd hc (by decide)
    · obtain ⟨hps, hiff'⟩ := elements_readBack w ws gap_space (readsBack w (hvs w (by simp)))
        (hvs w (by simp)) (fun w' hw' => hvs w' (List.mem_cons_of_mem _ hw')) hrest
      refine ⟨hps, ?_⟩
      rw [List.cons.injEq, hiff, hiff']
      simp

end

/-! ### Inline tables -/

/-- What `dump` writes for an entry of an inline table. -/
def dumpEntry (k : Str) : Value → Str
  | .bool _ => []
  | v => k ++ (" = ".toList ++ dumpValue v)

theorem dumpInline_cons (first : Bool) (k : Str) (v : Value) (kvs : List (Str × Value)) :
    dumpInline first ((k, v) :: kvs) =
      (if first then [] else ", ".toList) ++ (dumpEntry k v ++ dumpInline false kvs) := by
  cases v <;> rfl

theorem dumpEntry_cases (k : Str) (v : Value) :
    (¬ Plain v ∧ dumpEntry k v = []) ∨ dumpEntry k v = k ++ (" = ".toList ++ dumpValue v) := by
  cases v with
  | bool b => exact .inl ⟨nofun, rfl⟩
  | _ => exact .inr rfl

/-- No entry begins with an equals sign. -/
theorem dumpEntry_not_equals {k : Str} (hk : Key k) (v : Value) {g : Str} (hg : Gap g) {c : Char}
    (hc : Closer c) (t : Str) (qs : List Str) :
    significant (pieces delimiters (g ++ (dumpEntry k v ++ c :: t))) ≠ equals :: qs := by
  rcases dumpEntry_cases k v with ⟨-, hblank⟩ | htext
  · rw [hblank, hg.significant, List.nil_append, hc.special]
    intro h
    have hx := (List.cons.inj h).1
    rcases hc with rfl | rfl | rfl
    all_goals exact absurd hx (by decide)
  · have hsplit : g ++ (dumpEntry k v ++ c :: t) = g ++ (k ++ (" = ".toList ++ (dumpValue v ++ c :: t))) := by
      simp [htext]
    obtain ⟨ps, hname, -⟩ := significant_assign (t := dumpValue v ++ c :: t) hg hk
    rw [hsplit, hname]
    intro h
    exact hk.ne_delimiter (by decide) (List.cons.inj h).1

/-- The first entry of an inline table, when the table is read at all: it was written, and its value is
read back. -/
theorem entry_readBack {k : Str} (hk : Key k) {v : Value} (hs : Storable v) {g : Str} (hg : Gap g)
    {c : Char} (hc : c = ',' ∨ c = '}') {t : Str} {kvs : List (Str × Value)} {ps' : List Str}
    (hnot : ∀ qs, significant (pieces delimiters t) ≠ equals :: qs)
    (h : Entries false (pieces delimiters (g ++ (dumpEntry k v ++ c :: t))) kvs ps') :
    ∃ v', (v' = v ↔ Plain v) ∧ ((c = '}' ∧ ps' = pieces delimiters t ∧ kvs = [(k, v')]) ∨
      (c = ',' ∧ ∃ kvs', Entries false (pieces delimiters t) kvs' ps' ∧ kvs = (k, v') :: kvs')) := by
  have hcloser : Closer c := by
    rcases hc with rfl | rfl
    · exact .inl rfl
    · exact .inr (.inr rfl)
  have hspecial := hcloser.special t
  rcases dumpEntry_cases k v with ⟨-, hblank⟩ | htext
  · -- the comma or the brace is taken for a name
    have hsig : significant (pieces delimiters (g ++ (dumpEntry k v ++ c :: t))) =
        [c] :: pieces delimiters t := by
      rw [hblank, hg.significant, List.nil_append, hspecial]
    have hne : [c] ≠ lbracket := by rcases hc with rfl | rfl <;> decide
    obtain ⟨ps₂, v', ps₃, hequals, -⟩ := h.inv hsig hne
    exact absurd hequals (hnot ps₂)
  · have hsplit : g ++ (dumpEntry k v ++ c :: t) = g ++ (k ++ (" = ".toList ++ (dumpValue v ++ c :: t))) := by
      simp [htext]
    rw [hsplit] at h
    obtain ⟨ps, hname, hequals⟩ := significant_assign (t := dumpValue v ++ c :: t) hg hk
    obtain ⟨ps₂, v', ps₃, hequals', hvalue, hend⟩ := h.inv hname (hk.ne_delimiter (by decide))
    obtain ⟨-, rfl⟩ := rest_unique hequals hequals'
    have hvalue' := hvalue.of_significant (gap_space.significant (dumpValue v ++ c :: t)).symm
    rcases readsBack v hs _ _ _ _ hcloser.isDelimiter (fun _ => hcloser) hvalue' with
      ⟨-, qs, hequals⟩ | ⟨rfl, hiff⟩
    · rcases hend with ⟨hglob, -⟩ | ⟨-, hend, -⟩ | ⟨-, ps₄, kvs', hend, -⟩
      · cases hglob
      · exact absurd (rest_unique hequals hend).1 (by decide)
      · exact absurd (rest_unique hequals hend).1 (by decide)
    · refine ⟨v', hiff, ?_⟩
      rcases hend with ⟨hglob, -⟩ | ⟨-, hend, rfl⟩ | ⟨-, ps₄, kvs', hend, hrest, rfl⟩
      · cases hglob
      · obtain ⟨hx, rfl⟩ := rest_unique hspecial hend
        exact .inl ⟨(List.cons.inj hx).1, rfl, rfl⟩
      · obtain ⟨hx, rfl⟩ := rest_unique hspecial hend
        exact .inr ⟨(List.cons.inj hx).1, kvs', hrest, rfl⟩

/-- An inline table that is read has the names that were written, and the same values exactly when all of
them are plain. -/
theorem table_readBack {k : Str} {v : Value} {kvs : List (Str × Value)}
    (hk : ∀ e ∈ (k, v) :: kvs, Key e.1) (hs : ∀ e ∈ (k, v) :: kvs, Storable e.2) {g t : Str} (hg : Gap g)
    (hnot : ∀ qs, significant (pieces delimiters t) ≠ equals :: qs) {kvs' : List (Str × Value)}
    {ps' : List Str}
    (h : Entries false
      (pieces delimiters (g ++ (dumpEntry k v ++ (dumpInline false kvs ++ '}' :: t)))) kvs' ps') :
    ps' = pieces delimiters t ∧ kvs'.map Prod.fst = ((k, v) :: kvs).map Prod.fst ∧
      (kvs' = (k, v) :: kvs ↔ ∀ e ∈ (k, v) :: kvs, Plain e.2) := by
  induction kvs generalizing k v g kvs' with
  | nil =>
    obtain ⟨v', hiff, ⟨-, rfl, rfl⟩ | ⟨hc, -⟩⟩ := entry_readBack (hk (k, v) (by simp))
      (hs (k, v) (by simp)) hg (.inr rfl) hnot h
    · refine ⟨rfl, rfl, ?_⟩
      simpa using hiff
    · exact absurd hc (by decide)
  | cons e kvs ih =>
    obtain ⟨k₂, v₂⟩ := e
    have hfollow : dumpInline false ((k₂, v₂) :: kvs) ++ '}' :: t =
        ',' :: ([' '] ++ (dumpEntry k₂ v₂ ++ (dumpInline false kvs ++ '}' :: t))) := by
      simp [dumpInline_cons]
    rw [hfollow] at h
    have hnot' : ∀ qs, significant (pieces delimiters
        ([' '] ++ (dumpEntry k₂ v₂ ++ (dumpInline false kvs ++ '}' :: t)))) ≠ equals :: qs := by
      have hkey : Key k₂ := hk (k₂, v₂) (by simp)
      cases kvs with
      | nil => exact dumpEntry_not_equals hkey v₂ gap_space (.inr (.inr rfl)) t
      | cons e kvs =>
        rw [dumpInline_cons]
        exact dumpEntry_not_equals hkey v₂ gap_space (.inl rfl) _
    obtain ⟨v', hiff, ⟨hc, -⟩ | ⟨-, kvs'', hrest, rfl⟩⟩ := entry_readBack (hk (k, v) (by simp))
      (hs (k, v) (by simp)) hg (.inl rfl) hnot' h
    · exact absurd hc (by decide)
    · obtain ⟨hps, hnames, hiff'⟩ := ih (fun e he => hk e (List.mem_cons_of_mem _ he))
        (fun e he => hs e (List.mem_cons_of_mem _ he)) gap_space hrest
      refine ⟨hps, congrArg (k :: ·) hnames, ?_⟩
      rw [List.cons.injEq, Prod.mk.injEq, hiff', and_iff_right rfl, hiff]
      exact (List.forall_mem_cons (p := fun e : Str × Value => Plain e.2)).symm

/-- A dictionary among the values of a section is read back when it is not empty and its values are
plain. -/
theorem dict_readBack {d : Dict} (hs : Storable (.dict d)) {t : Str}
    (hnot : ∀ qs, significant (pieces delimiters t) ≠ equals :: qs) {v' : Value} {ps' : List Str}
    (h : IsValue (pieces delimiters ('{' :: (dumpInline true d ++ '}' :: t))) v' ps') :
    ps' = pieces delimiters t ∧ (v' = .dict d ↔ Direct (.dict d)) := by
  obtain ⟨kvs, rfl, hentries⟩ := h.of_lbrace (significant_mark (by decide) _)
  cases hs with
  | dict hsorted hk hvs =>
    cases d with
    | nil =>
      have hbrace : significant (pieces delimiters ('}' :: t)) = rbrace :: pieces delimiters t :=
        significant_mark (by decide) t
      obtain ⟨ps₂, v', ps₃, hequals, -⟩ := hentries.inv hbrace (by decide)
      exact absurd hequals (hnot ps₂)
    | cons e d =>
      obtain ⟨k, v⟩ := e
      have htext : dumpInline true ((k, v) :: d) ++ '}' :: t =
          [] ++ (dumpEntry k v ++ (dumpInline false d ++ '}' :: t)) := by
        simp [dumpInline_cons]
      rw [htext] at hentries
      obtain ⟨hps, hnames, hiff⟩ := table_readBack hk hvs .nil hnot hentries
      have hsorted' : Dict.Sorted kvs :=
        List.pairwise_map.mp (hnames ▸ List.pairwise_map.mpr hsorted)
      rw [build_perm hsorted' (List.Perm.refl kvs), Value.dict.injEq, hiff]
      refine ⟨hps, fun hall => .inr ⟨_, rfl, List.cons_ne_nil _ _, hall⟩, ?_⟩
      rintro (hplain | ⟨d', hd, -, hall⟩)
      · cases hplain
      · cases hd
        exact hall

/-! ### Sections -/

/-- Behind the entries of a section the text ends, or another section begins. -/
def Stops (t : Str) : Prop :=
  significant (pieces delimiters t) = [] ∨ ∃ qs, significant (pieces delimiters t) = lbracket :: qs

theorem Stops.not_equals {t : Str} (h : Stops t) (qs : List Str) :
    significant (pieces delimiters t) ≠ equals :: qs := by
  intro heq
  rcases h with h | ⟨qs', h⟩
  · rw [h] at heq
    cases heq
  · exact absurd (rest_unique h heq).1 (by decide)

theorem Stops.entries {t : Str} (h : Stops t) {kvs : List (Str × Value)} {ps' : List Str}
    (he : Entries true (pieces delimiters t) kvs ps') : kvs = [] ∧ Ends t ps' := by
  cases he with
  | eof hs => exact ⟨rfl, .inl ⟨hs, rfl⟩⟩
  | header hs => exact ⟨rfl, .inr ⟨_, hs, rfl⟩⟩
  | entry hs hn =>
    rcases h with h | ⟨qs, h⟩
    · rw [h] at hs
      cases hs
    · exact absurd (rest_unique hs h).1 hn

/-- The lines of a section do not begin with an equals sign. -/
theorem lines_not_equals {kvs : List (Str × Value)} (hk : ∀ e ∈ kvs, Key e.1) {t : Str} (ht : Stops t)
    (qs : List Str) : significant (pieces delimiters ('\n' :: (dumpGlobal false kvs ++ t))) ≠ equals :: qs := by
  intro h
  have hline := gap_newline.significant (dumpGlobal false kvs ++ t)
  rw [List.cons_append, List.nil_append, h] at hline
  rcases dumpGlobal_shape hk with hgap | ⟨g, k, u, hg, hkey, htext⟩
  · rw [hgap.significant] at hline
    exact ht.not_equals qs hline.symm
  · have hsplit : dumpGlobal false kvs ++ t = g ++ (k ++ (" = ".toList ++ (u ++ t))) := by
      simp [htext]
    obtain ⟨ps, hname, -⟩ := significant_assign (t := u ++ t) hg hkey
    rw [hsplit, hname] at hline
    exact hkey.ne_delimiter (by decide) (List.cons.inj hline).1.symm

/-- A line of a section: nothing for a boolean, else a name and the text `x` of the value. -/
theorem dumpGlobal_line (k : Str) {v : Value} (hs : Storable v) (kvs : List (Str × Value)) (t : Str) :
    (¬ Direct v ∧ dumpGlobal false ((k, v) :: kvs) ++ t = newline ++ (dumpGlobal false kvs ++ t)) ∨
      ∃ x, dumpGlobal false ((k, v) :: kvs) ++ t =
          k ++ (" = ".toList ++ (x ++ '\n' :: (dumpGlobal false kvs ++ t))) ∧
        ((Solid v ∧ x = dumpValue v) ∨ ∃ d, v = .dict d ∧ x = '{' :: (dumpInline true d ++ ['}'])) := by
  cases hs with
  | bool b =>
    refine .inl ⟨?_, by simp [dumpGlobal]⟩
    rintro (hp | ⟨d, hd, -⟩)
    · cases hp
    · cases hd
  | @int i => exact .inr ⟨dumpValue (.int i), by simp [dumpGlobal, newline], .inl ⟨trivial, rfl⟩⟩
  | @string s => exact .inr ⟨dumpValue (.string s), by simp [dumpGlobal, newline], .inl ⟨trivial, rfl⟩⟩
  | @array vs => exact .inr ⟨dumpValue (.array vs), by simp [dumpGlobal, newline], .inl ⟨trivial, rfl⟩⟩
  | @dict d => exact .inr ⟨_, by simp [dumpGlobal], .inr ⟨d, rfl, rfl⟩⟩

/-- The value of a line is read back exactly when it is plain, or a dictionary of plain values. -/
theorem line_readBack {v : Value} (hs : Storable v) {x t : Str}
    (hx : (Solid v ∧ x = dumpValue v) ∨ ∃ d, v = .dict d ∧ x = '{' :: (dumpInline true d ++ ['}']))
    (hnot : ∀ qs, significant (pieces delimiters ('\n' :: t)) ≠ equals :: qs) {v' : Value} {ps' : List Str}
    (h : IsValue (pieces delimiters (x ++ '\n' :: t)) v' ps') :
    ps' = pieces delimiters ('\n' :: t) ∧ (v' = v ↔ Direct v) := by
  rcases hx with ⟨hsolid, rfl⟩ | ⟨d, rfl, rfl⟩
  · rcases readsBack v hs _ _ _ _ (by decide) (fun hno => absurd hsolid hno) h with ⟨hno, -⟩ | ⟨hps, hiff⟩
    · exact absurd hsolid hno
    · refine ⟨hps, hiff.trans ⟨.inl, ?_⟩⟩
      rintro (hp | ⟨d, rfl, -⟩)
      · exact hp
      · exact absurd hsolid (by simp [Solid])
  · rw [List.cons_append, List.append_assoc] at h
    exact dict_readBack hs hnot h

/-- The entries of a section that are read back have names of the section, in their order, and they are
the entries of the section exactly when all its values are read back. -/
theorem section_readBack {kvs : List (Str × Value)} (hk : ∀ e ∈ kvs, Key e.1)
    (hs : ∀ e ∈ kvs, Storable e.2) {t : Str} (ht : Stops t) {kvs' : List (Str × Value)} {ps' : List Str}
    (h : Entries true (pieces delimiters (dumpGlobal false kvs ++ t)) kvs' ps') :
    Ends t ps' ∧ (kvs'.map Prod.fst).Sublist (kvs.map Prod.fst) ∧
      (kvs' = kvs ↔ ∀ e ∈ kvs, Direct e.2) := by
  induction kvs generalizing kvs' with
  | nil =>
    obtain ⟨rfl, hend⟩ := ht.entries h
    exact ⟨hend, List.Sublist.refl _, iff_of_true rfl (by simp)⟩
  | cons e kvs ih =>
    obtain ⟨k, v⟩ := e
    have hk' : ∀ e ∈ kvs, Key e.1 := fun e he => hk e (List.mem_cons_of_mem _ he)
    have hs' : ∀ e ∈ kvs, Storable e.2 := fun e he => hs e (List.mem_cons_of_mem _ he)
    rcases dumpGlobal_line k (hs (k, v) (by simp)) kvs t with ⟨hnot, htext⟩ | ⟨x, htext, hx⟩
    · -- the entry is lost
      rw [htext] at h
      obtain ⟨hend, hsub, -⟩ := ih hk' hs' (h.of_significant (gap_newline.significant _).symm)
      refine ⟨hend, hsub.cons k, iff_of_false ?_ fun hall => hnot (hall (k, v) (by simp))⟩
      rintro rfl
      have hlen := hsub.length_le
      simp at hlen
    · rw [htext] at h
      have hkey : Key k := hk (k, v) (by simp)
      obtain ⟨ps, hname, hequals⟩ := significant_assign (g := [])
        (t := x ++ '\n' :: (dumpGlobal false kvs ++ t)) .nil hkey
      obtain ⟨ps₂, v', ps₃, hequals', hvalue, ⟨-, kvs'', hrest, rfl⟩ | ⟨hglob, -⟩ | ⟨hglob, -⟩⟩ :=
        h.inv hname (hkey.ne_delimiter (by decide))
      · obtain ⟨-, rfl⟩ := rest_unique hequals hequals'
        have hvalue' := hvalue.of_significant
          (gap_space.significant (x ++ '\n' :: (dumpGlobal false kvs ++ t))).symm
        obtain ⟨rfl, hiff⟩ := line_readBack (hs (k, v) (by simp)) hx (lines_not_equals hk' ht) hvalue'
        obtain ⟨hend, hsub, hiff'⟩ := ih hk' hs' (hrest.of_significant (gap_newline.significant _).symm)
        refine ⟨hend, hsub.cons_cons k, ?_⟩
        rw [List.cons.injEq, Prod.mk.injEq, hiff', and_iff_right rfl, hiff]
        exact (List.forall_mem_cons (p := fun e : Str × Value => Direct e.2)).symm
      · cases hglob
      · cases hglob

/-- What is written for the sections begins with a header, and ends with the last line. -/
theorem stops_dump {cfg : Dict} (hs : ∀ e ∈ cfg, ∃ kvs, e.2 = .dict kvs ∧ Storable e.2) :
    Stops (dumpGlobal true cfg ++ newline) := by
  cases cfg with
  | nil => exact .inl significant_line
  | cons e cfg =>
    obtain ⟨name, v⟩ := e
    obtain ⟨kvs, hv, -⟩ := hs (name, v) (by simp)
    obtain rfl : v = .dict kvs := hv
    have htext : dumpGlobal true ((name, .dict kvs) :: cfg) ++ newline = ['\n'] ++ '[' ::
        (name ++ ("]\n".toList ++ (dumpGlobal false kvs ++ (dumpGlobal true cfg ++ newline)))) := by
      simp [dumpGlobal]
    have hheader := gap_newline.significant
      ('[' :: (name ++ ("]\n".toList ++ (dumpGlobal false kvs ++ (dumpGlobal true cfg ++ newline)))))
    rw [← htext, significant_mark (by decide)] at hheader
    exact .inr ⟨_, hheader⟩

theorem sections_readBack {cfg : Dict} (hk : ∀ e ∈ cfg, Key e.1)
    (hs : ∀ e ∈ cfg, ∃ kvs, e.2 = .dict kvs ∧ Storable e.2) {secs : List (Str × Value)}
    (h : Sections (pieces delimiters (dumpGlobal true cfg ++ newline)) secs) :
    secs.map Prod.fst = cfg.map Prod.fst ∧ (secs = cfg ↔ Writable cfg) := by
  induction cfg generalizing secs with
  | nil =>
    cases h with
    | nil => exact ⟨rfl, iff_of_true rfl (by simp [Writable])⟩
    | cons h =>
      rw [dumpGlobal, List.nil_append, significant_line] at h
      cases h
  | cons e cfg ih =>
    obtain ⟨name, v⟩ := e
    obtain ⟨kvs, hv, hstore⟩ := hs (name, v) (by simp)
    obtain rfl : v = .dict kvs := hv
    have hkey : Key name := hk (name, .dict kvs) (by simp)
    have hs' : ∀ e ∈ cfg, ∃ kvs, e.2 = .dict kvs ∧ Storable e.2 :=
      fun e he => hs e (List.mem_cons_of_mem _ he)
    set t := dumpGlobal true cfg ++ newline with ht
    have htext : dumpGlobal true ((name, .dict kvs) :: cfg) ++ newline =
        ['\n'] ++ '[' :: (name ++ ']' :: (['\n'] ++ (dumpGlobal false kvs ++ t))) := by
      simp [dumpGlobal, ht]
    rw [htext] at h
    have hheader := gap_newline.significant
      ('[' :: (name ++ ']' :: (['\n'] ++ (dumpGlobal false kvs ++ t))))
    rw [significant_mark (by decide)] at hheader
    have hname := hkey.significant
      (begins_cons (show IsDelimiter ']' by decide) (['\n'] ++ (dumpGlobal false kvs ++ t)))
    have hclose : significant (pieces delimiters (']' :: (['\n'] ++ (dumpGlobal false kvs ++ t)))) =
        rbracket :: pieces delimiters (['\n'] ++ (dumpGlobal false kvs ++ t)) :=
      significant_mark (by decide) _
    cases h with
    | nil h =>
      rw [hheader] at h
      cases h
    | @cons _ _ _ _ _ name' kvs' secs h hn hc hentries hsecs =>
      obtain ⟨-, rfl⟩ := rest_unique hheader h
      obtain ⟨rfl, rfl⟩ := rest_unique hname hn
      obtain ⟨-, rfl⟩ := rest_unique hclose hc
      cases hstore with
      | dict hsorted hkeys hvs =>
        obtain ⟨hend, hsub, hiff⟩ := section_readBack hkeys hvs (stops_dump hs')
          (hentries.of_significant (gap_newline.significant _).symm)
        have hsecs' : Sections (pieces delimiters t) secs := by
          rcases hend with ⟨hnil, rfl⟩ | ⟨qs, hhead, rfl⟩
          · exact hsecs.of_significant (hnil.trans significant_newline.symm)
          · refine hsecs.of_significant (hhead.trans ?_)
            exact (significant_cons (by decide) (by decide) qs).symm
        obtain ⟨hnames, hiff'⟩ := ih (fun e he => hk e (List.mem_cons_of_mem _ he)) hs' hsecs'
        have hsorted' : Dict.Sorted kvs' :=
          List.pairwise_map.mp ((List.pairwise_map.mpr hsorted).sublist hsub)
        refine ⟨congrArg (name :: ·) hnames, ?_⟩
        rw [build_perm hsorted' (List.Perm.refl kvs'), List.cons.injEq, Prod.mk.injEq, Value.dict.injEq,
          hiff, hiff', and_iff_right rfl]
        unfold Writable
        rw [List.forall_mem_cons]
        simp

/-- A configuration is read back from what `dump` wrote exactly when it is writable. -/
theorem parse_dump_iff {cfg : Dict} (h : StorableConfig cfg) :
    parse (dump cfg) = .ok cfg ↔ Writable cfg := by
  constructor
  · intro hparse
    obtain ⟨secs, hsecs, hbuild⟩ := parse_eq_ok_iff.mp hparse
    obtain ⟨hnames, hiff⟩ := sections_readBack h.key h.sections hsecs
    have hsorted : Dict.Sorted secs := List.pairwise_map.mp (hnames ▸ List.pairwise_map.mpr h.sorted)
    rw [build_perm hsorted (List.Perm.refl secs)] at hbuild
    exact hiff.mp hbuild.symm
  · intro hw
    exact parse_eq_ok_iff.mpr (isDocument_dump h hw).document

/-- A configuration with one section and one entry. -/
def single (v : Value) : Dict := [(['s'], .dict [(['a'], v)])]

theorem single_storable {v : Value} (h : Storable v) : StorableConfig (single v) := by
  refine ⟨List.pairwise_singleton _ _, ?_, ?_⟩
  · intro e he
    obtain rfl := List.mem_singleton.mp he
    exact .single (by decide)
  · intro e he
    obtain rfl := List.mem_singleton.mp he
    refine ⟨_, rfl, .dict (List.pairwise_singleton _ _) ?_ ?_⟩
    · intro e he
      obtain rfl := List.mem_singleton.mp he
      exact .single (by decide)
    · intro e he
      obtain rfl := List.mem_singleton.mp he
      exact h

theorem parse_dump_iff_single :
    parse (dump (single (.array [.string ['x']]))) = .ok (single (.array [.string ['x']])) ↔
      Writable (single (.array [.string ['x']])) :=
  parse_dump_iff (single_storable (.array fun _ hv =>
    List.mem_singleton.mp hv ▸ .string (by decide) (by decide)))

/-- A boolean is not written. -/
theorem dump_loses :
    StorableConfig (single (.bool true)) ∧ parse (dump (single (.bool true))) = .ok [(['s'], .dict [])] ∧
      parse (dump (single (.bool true))) ≠ .ok (single (.bool true)) := by
  have hkey : Key ['s'] := (single_storable (.bool true)).key _ List.mem_cons_self
  have hlines : Gap (newline ++ newline) := gap_newline.append gap_newline
  have hsections := IsSections.cons gap_newline .nil hkey .nil List.Pairwise.nil (List.Perm.refl [])
    (.nil hlines) (.nil gap_newline)
  have htext : IsDocument [(['s'], .dict [])] (dump (single (.bool true))) :=
    ⟨List.pairwise_singleton _ _, _, List.Perm.refl _, hsections⟩
  have hparse := parse_eq_ok_iff.mpr htext.document
  refine ⟨single_storable (.bool true), hparse, ?_⟩
  rw [hparse]
  simp [single]

end Layout
