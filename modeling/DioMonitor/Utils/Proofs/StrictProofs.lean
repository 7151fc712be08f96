import DioMonitor.Utils.Proofs.AcceptanceProofs

/-!
# Proofs: the strict language

A text that is not loose is accepted as a strict one or is answered with an exception, and one with a
misread word or a table that is cut is not (`parse_strict`). Every phrase of the language is plain, is loose,
or is an inline table that was cut, and up to the first phrase that is not plain the parser and the strict
language read the text in step: a strict phrase has one end.
-/

/-! ## What is accepted is strict or loose -/

namespace Loose

open Config Toml

theorem Cut.stop {ps ps' : List Str} (h : Cut ps ps') :
    significant ps' = [] ∨ ∃ qs, significant ps' = lbracket :: qs := by
  induction h with
  | eof => exact .inl significant_newline
  | header => exact .inr ⟨_, Layout.significant_cons (by decide) (by decide) _⟩
  | entry _ _ _ _ ih => exact ih

/-- Nothing but a header or the end of the text follows a table that was cut. -/
theorem Cut.not_followed {ps ps' qs : List Str} (h : Cut ps ps') {d : Str} (hd : d ≠ lbracket) :
    significant ps' ≠ d :: qs := by
  intro hs
  rcases h.stop with hnil | ⟨qs', hb⟩
  · rw [hnil] at hs
    cases hs
  · exact hd (rest_unique hs hb).1

end Loose

namespace Toml

open Config

/-- In a literal only the beginning of a comment is no piece of the string. -/
theorem of_verbatim {ps ps₁ : List Str} {p : Str} (h : verbatim ps = p :: ps₁) :
    ps = p :: ps₁ ∨ ∃ rest, ps = ['#'] :: rest := by
  cases ps with
  | nil => cases h
  | cons q qs =>
    by_cases hq : q ∈ comments
    · have heq : q = ['#'] := List.mem_singleton.mp hq
      exact .inr ⟨qs, by rw [heq]⟩
    · have hsame : verbatim (q :: qs) = q :: qs := Lexing.trim_cons_of_not_mem hq List.not_mem_nil
      exact .inl (hsame.symm.trans h)

/-- A literal in which no comment begins is what stands between its quotes. -/
theorem Literal.quoted_or_hidden {fin : Char} {ps ps' : List Str} {s : Str} (h : Literal fin ps s ps') :
    Strict.Quoted fin ps s ps' ∨ Loose.Hidden fin ps := by
  induction h with
  | close h =>
    rcases of_verbatim h with rfl | ⟨rest, rfl⟩
    · exact .inl ⟨[], rfl, List.not_mem_nil, rfl⟩
    · exact .inr ⟨[], rest, rfl, List.not_mem_nil⟩
  | @piece ps ps₁ ps' p s h hp _ ih =>
    rcases of_verbatim h with rfl | ⟨rest, rfl⟩
    · have hcons : ∀ body : List Str, [fin] ∉ body → [fin] ∉ p :: body :=
        fun body hbody => List.not_mem_cons_of_ne_of_not_mem hp.symm hbody
      rcases ih with ⟨body, rfl, hbody, rfl⟩ | ⟨body, rest, rfl, hbody⟩
      · exact .inl ⟨p :: body, rfl, hcons body hbody, rfl⟩
      · exact .inr ⟨p :: body, rest, rfl, hcons body hbody⟩
    · exact .inr ⟨[], rest, rfl, List.not_mem_nil⟩

/-- What an accepted value is. -/
def Reading (ps : List Str) (v : Value) (ps' : List Str) : Prop :=
  Strict.IsValue ps v ps' ∨ (∃ k, Loose.HasDefect k ps ps') ∨
    ∃ ps₁, significant ps = lbrace :: ps₁ ∧ Loose.Cut ps₁ ps'

theorem Reading.of_followed {ps ps' qs : List Str} {v : Value} {d : Str} (h : Reading ps v ps')
    (hs : significant ps' = d :: qs) (hd : d ≠ lbracket) :
    Strict.IsValue ps v ps' ∨ ∃ k, Loose.HasDefect k ps ps' := by
  rcases h with hstrict | hdefect | ⟨ps₁, -, hcut⟩
  · exact .inl hstrict
  · exact .inr hdefect
  · exact absurd hs (hcut.not_followed hd)

theorem Reading.of_float {ps ps' : List Str} {x : Str} {f : FloatVal} (h : significant ps = x :: ps')
    (hx : Word x) (hp : '.' ∈ x) (hv : Numbers.stof x = .ok f) : Reading ps (.float f) ps' := by
  by_cases hdec : ∃ neg q, Numbers.Decimal x neg q
  · obtain ⟨neg, q, hdec⟩ := hdec
    exact .inl (.float h hdec ((Numbers.stof_decimal hdec).symm.trans hv))
  · refine .inr (.inl ⟨_, .word h ⟨hx, ?_⟩⟩)
    rw [if_pos hp]
    exact ⟨⟨f, hv⟩, fun neg q hdec' => hdec ⟨neg, q, hdec'⟩⟩

theorem Reading.of_int {ps ps' : List Str} {x : Str} {i : ℤ} (h : significant ps = x :: ps')
    (hx : Word x) (hp : '.' ∉ x) (hi : Numbers.stoi x = .ok i) : Reading ps (.int i) ps' := by
  by_cases hnum : ∃ j, Numbers.Numeral x j
  · obtain ⟨j, hnum⟩ := hnum
    obtain ⟨rfl, hlo, hhi⟩ := Numbers.numeral_of_stoi hnum hi
    exact .inl (.int h hnum hlo hhi)
  · refine .inr (.inl ⟨_, .word h ⟨hx, ?_⟩⟩)
    rw [if_neg hp]
    exact ⟨⟨i, hi⟩, fun j hnum' => hnum ⟨j, hnum'⟩⟩

mutual

-- the first value that is not plain decides: what stands before it is read as it is written
theorem IsValue.reading {ps ps' : List Str} {v : Value} (h : IsValue ps v ps') : Reading ps v ps' := by
  match v, h with
  | _, .dict h hd =>
    rcases hd.table rfl with hstrict | ⟨k, hdefect⟩ | hcut
    · exact .inl (.dict h hstrict)
    · exact .inr (.inl ⟨k, .dict h hdefect⟩)
    · exact .inr (.inr ⟨_, h, hcut⟩)
  | _, .array h ha =>
    rcases ha.array with hstrict | ⟨k, hdefect⟩
    · exact .inl (.array h hstrict)
    · exact .inr (.inl ⟨k, .array h hdefect⟩)
  | _, .string hf h hs =>
    rcases hs.quoted_or_hidden with hquoted | hhidden
    · exact .inl (.string hf h hquoted)
    · exact .inr (.inl ⟨_, .hash hf h hhidden hs⟩)
  | _, .boolFalse h => exact .inl (.boolFalse h)
  | _, .boolTrue h => exact .inl (.boolTrue h)
  | _, .float h hx hp hv => exact .of_float h hx hp hv
  | _, .int h hx hp hi => exact .of_int h hx hp hi

theorem Entries.table {glob : Bool} {ps ps' : List Str} {kvs : List (Str × Value)}
    (h : Entries glob ps kvs ps') (hg : glob = false) :
    Strict.IsTable ps kvs ps' ∨ (∃ k, Loose.InTable k ps ps') ∨ Loose.Cut ps ps' := by
  match glob, ps', kvs, h with
  | _, _, _, .eof h => exact .inr (.inr (.eof h))
  | _, _, _, .header h => exact .inr (.inr (.header h))
  | _, _, _, .entry _ _ _ _ _ => cases hg
  | _, _, _, .last h hn he hv hc =>
    have hassign : Assignment _ _ _ := ⟨_, h, hn, he⟩
    rcases hv.reading.of_followed hc (by decide) with hstrict | ⟨k, hdefect⟩
    · exact .inl (.last hassign hstrict hc)
    · exact .inr (.inl ⟨k, .last hassign hdefect hc⟩)
  | _, _, _, .more h hn he hv hc hk =>
    have hassign : Assignment _ _ _ := ⟨_, h, hn, he⟩
    rcases hv.reading.of_followed hc (by decide) with hstrict | ⟨k, hdefect⟩
    · rcases hk.table rfl with hktable | ⟨k, hkdefect⟩ | hkcut
      · exact .inl (.more hassign hstrict hc hktable)
      · exact .inr (.inl ⟨k, .rest hassign ⟨hstrict, hv⟩ hc hkdefect⟩)
      · exact .inr (.inr (.entry hassign ⟨hstrict, hv⟩ hc hkcut))
    · exact .inr (.inl ⟨k, .first hassign hdefect hc hk⟩)

theorem Elements.array {ps ps' : List Str} {vs : List Value} (h : Elements ps vs ps') :
    Strict.IsArray ps vs ps' ∨ ∃ k, Loose.InArray k ps ps' := by
  match vs, h with
  | _, .close h => exact .inl (.close h)
  | _, .last _ hv hc =>
    rcases hv.reading.of_followed hc (by decide) with hstrict | ⟨k, hdefect⟩
    · exact .inl (.last hstrict hc)
    · exact .inr ⟨k, .last hdefect hc⟩
  | _, .more _ hv hc hk =>
    rcases hv.reading.of_followed hc (by decide) with hstrict | ⟨k, hdefect⟩
    · rcases hk.array with hkstrict | ⟨k, hkdefect⟩
      · exact .inl (.more hstrict hc hkstrict)
      · exact .inr ⟨k, .rest ⟨hstrict, hv⟩ hc hkdefect⟩
    · exact .inr ⟨k, .first hdefect hc hk⟩

end

theorem Entries.body {glob : Bool} {ps ps' : List Str} {kvs : List (Str × Value)}
    (h : Entries glob ps kvs ps') (hg : glob = true) :
    Strict.IsBody ps kvs ps' ∨ ∃ k, Loose.InBody k ps ps' := by
  match glob, ps', kvs, h with
  | _, _, _, .eof h => exact .inl (.eof h)
  | _, _, _, .header h => exact .inl (.header h)
  | _, _, _, .entry h hn he hv hk =>
    have hassign : Assignment _ _ _ := ⟨_, h, hn, he⟩
    rcases hv.reading with hstrict | ⟨k, hdefect⟩ | ⟨ps₁, hb, hcut⟩
    · rcases hk.body rfl with hkbody | ⟨k, hkloose⟩
      · exact .inl (.entry hassign hstrict hkbody)
      · exact .inr ⟨k, .rest hassign ⟨hstrict, hv⟩ hkloose⟩
    · exact .inr ⟨k, .value hassign hdefect hk⟩
    · exact .inr ⟨_, .cut hassign hb hcut hk⟩
  | _, _, _, .last _ _ _ _ _ => cases hg
  | _, _, _, .more _ _ _ _ _ _ => cases hg

theorem Sections.strict_or_loose {ps : List Str} {secs : List (Str × Value)} (h : Sections ps secs) :
    Strict.IsSections ps secs ∨ ∃ k, Loose.InSections k ps := by
  induction h with
  | nil h => exact .inl (.nil h)
  | cons h hn hc hk hs ih =>
    have hheader : Header _ _ _ := ⟨_, _, h, hn, hc⟩
    rcases hk.body rfl with hbody | ⟨k, hloose⟩
    · rcases ih with hstrict | ⟨k, hrest⟩
      · exact .inl (.cons hheader hbody hstrict)
      · exact .inr ⟨k, .rest hheader hbody hk hrest⟩
    · exact .inr ⟨k, .first hheader hloose hs⟩

end Toml

/-! ## A strict phrase has one end -/

namespace Toml

theorem Assignment.unique {ps ps₁ ps₂ : List Str} {x y : Str} (h₁ : Assignment ps x ps₁)
    (h₂ : Assignment ps y ps₂) : x = y ∧ ps₁ = ps₂ := by
  obtain ⟨qs, h₁, -, he₁⟩ := h₁
  obtain ⟨qs', h₂, -, he₂⟩ := h₂
  obtain ⟨rfl, rfl⟩ := rest_unique h₁ h₂
  exact ⟨rfl, (rest_unique he₁ he₂).2⟩

theorem Header.unique {ps ps₁ ps₂ : List Str} {x y : Str} (h₁ : Header ps x ps₁)
    (h₂ : Header ps y ps₂) : x = y ∧ ps₁ = ps₂ := by
  obtain ⟨qs, rs, h₁, hn₁, hc₁⟩ := h₁
  obtain ⟨qs', rs', h₂, hn₂, hc₂⟩ := h₂
  obtain ⟨-, rfl⟩ := rest_unique h₁ h₂
  obtain ⟨rfl, rfl⟩ := rest_unique hn₁ hn₂
  exact ⟨rfl, (rest_unique hc₁ hc₂).2⟩

end Toml

namespace Strict

open Config Toml

/-- A value of one piece. -/
def Scalar (x : Str) : Prop :=
  x = falseWord ∨ x = trueWord ∨ (∃ neg q, Numbers.Decimal x neg q) ∨ ∃ i, Numbers.Numeral x i

theorem Scalar.notMem {x : Str} (hx : Scalar x) : x ∉ [lbrace, lbracket, rbracket, ['\''], ['"']] := by
  intro hmem
  rcases hx with rfl | rfl | ⟨neg, q, hx⟩ | ⟨i, hx⟩
  · exact absurd hmem (by decide)
  · exact absurd hmem (by decide)
  · have hpoint : ∀ d ∈ [lbrace, lbracket, rbracket, ['\''], ['"']], '.' ∉ d := by decide
    exact hpoint x hmem (decimal_point hx)
  · have hdelimiter : ∀ d ∈ [lbrace, lbracket, rbracket, ['\''], ['"']], d ∈ delimiters := by decide
    have hd := hdelimiter x hmem
    obtain ⟨c, rfl⟩ := List.length_eq_one_iff.mp (delimiters_length x hd)
    exact (Layout.numeral_word hx).1 c List.mem_cons_self hd

/-- What a strict value is, told by its first piece. -/
theorem IsValue.begins {ps ps₁ ps' : List Str} {x : Str} {v : Value} (h : IsValue ps v ps')
    (hs : significant ps = x :: ps₁) :
    (x = lbrace ∧ ∃ kvs, IsTable ps₁ kvs ps') ∨ (x = lbracket ∧ ∃ vs, IsArray ps₁ vs ps') ∨
      (∃ fin s, (fin = '\'' ∨ fin = '"') ∧ x = [fin] ∧ Quoted fin ps₁ s ps') ∨
      Scalar x ∧ ps' = ps₁ := by
  cases h with
  | dict h hd =>
    obtain ⟨rfl, rfl⟩ := rest_unique h hs
    exact .inl ⟨rfl, _, hd⟩
  | array h ha =>
    obtain ⟨rfl, rfl⟩ := rest_unique h hs
    exact .inr (.inl ⟨rfl, _, ha⟩)
  | string hf h hq =>
    obtain ⟨rfl, rfl⟩ := rest_unique h hs
    exact .inr (.inr (.inl ⟨_, _, hf, rfl, hq⟩))
  | boolFalse h =>
    obtain ⟨rfl, rfl⟩ := rest_unique h hs
    exact .inr (.inr (.inr ⟨.inl rfl, rfl⟩))
  | boolTrue h =>
    obtain ⟨rfl, rfl⟩ := rest_unique h hs
    exact .inr (.inr (.inr ⟨.inr (.inl rfl), rfl⟩))
  | float h hx =>
    obtain ⟨rfl, rfl⟩ := rest_unique h hs
    exact .inr (.inr (.inr ⟨.inr (.inr (.inl ⟨_, _, hx⟩)), rfl⟩))
  | int h hx =>
    obtain ⟨rfl, rfl⟩ := rest_unique h hs
    exact .inr (.inr (.inr ⟨.inr (.inr (.inr ⟨_, hx⟩)), rfl⟩))

section Quote

variable {fin : Char} (hf : fin = '\'' ∨ fin = '"')

include hf

theorem quote_ne {d : Str} (hd : d ∈ [lbrace, lbracket, rbracket]) : d ≠ [fin] := by
  rintro rfl
  rcases hf with rfl | rfl
  · exact absurd hd (by decide)
  · exact absurd hd (by decide)

theorem quote_mem : [fin] ∈ [lbrace, lbracket, rbracket, ['\''], ['"']] := by
  rcases hf with rfl | rfl
  · decide
  · decide

end Quote

theorem IsValue.of_lbrace {ps ps₁ ps' : List Str} {v : Value} (h : IsValue ps v ps')
    (hs : significant ps = lbrace :: ps₁) : ∃ kvs, IsTable ps₁ kvs ps' := by
  rcases h.begins hs with ⟨-, htable⟩ | ⟨hx, -⟩ | ⟨fin, s, hf, hx, -⟩ | ⟨hx, -⟩
  · exact htable
  · exact absurd hx (by decide)
  · exact absurd hx (quote_ne hf (by decide))
  · exact absurd hx.notMem (by decide)

theorem IsValue.of_lbracket {ps ps₁ ps' : List Str} {v : Value} (h : IsValue ps v ps')
    (hs : significant ps = lbracket :: ps₁) : ∃ vs, IsArray ps₁ vs ps' := by
  rcases h.begins hs with ⟨hx, -⟩ | ⟨-, harray⟩ | ⟨fin, s, hf, hx, -⟩ | ⟨hx, -⟩
  · exact absurd hx (by decide)
  · exact harray
  · exact absurd hx (quote_ne hf (by decide))
  · exact absurd hx.notMem (by decide)

theorem IsValue.of_quote {ps ps₁ ps' : List Str} {v : Value} {fin : Char} (h : IsValue ps v ps')
    (hf : fin = '\'' ∨ fin = '"') (hs : significant ps = [fin] :: ps₁) : ∃ s, Quoted fin ps₁ s ps' := by
  rcases h.begins hs with ⟨hx, -⟩ | ⟨hx, -⟩ | ⟨fin', s, -, hx, hquoted⟩ | ⟨hx, -⟩
  · exact absurd hx.symm (quote_ne hf (by decide))
  · exact absurd hx.symm (quote_ne hf (by decide))
  · obtain rfl : fin = fin' := List.singleton_inj.mp hx
    exact ⟨s, hquoted⟩
  · exact absurd (quote_mem hf) hx.notMem

theorem IsValue.of_scalar {ps ps₁ ps' : List Str} {x : Str} {v : Value} (h : IsValue ps v ps')
    (hs : significant ps = x :: ps₁) (hx : Scalar x) : ps' = ps₁ := by
  have hne := hx.notMem
  rcases h.begins hs with ⟨rfl, -⟩ | ⟨rfl, -⟩ | ⟨fin, s, hf, rfl, -⟩ | ⟨-, heq⟩
  · exact absurd hne (by decide)
  · exact absurd hne (by decide)
  · exact absurd (quote_mem hf) hne
  · exact heq

/-- A value is not the end of an array. -/
theorem IsValue.begin_ne {ps ps' : List Str} {v : Value} (h : IsValue ps v ps') (qs : List Str) :
    significant ps ≠ rbracket :: qs := by
  intro hs
  rcases h.begins hs with ⟨hx, -⟩ | ⟨hx, -⟩ | ⟨fin, s, hf, hx, -⟩ | ⟨hx, -⟩
  · exact absurd hx (by decide)
  · exact absurd hx (by decide)
  · exact absurd hx (quote_ne hf (by decide))
  · exact absurd hx.notMem (by decide)

/-- A string ends at the first quote. -/
theorem Quoted.end_unique {fin : Char} {ps ps₁ ps₂ : List Str} {s₁ s₂ : Str}
    (h₁ : Quoted fin ps s₁ ps₁) (h₂ : Quoted fin ps s₂ ps₂) : ps₁ = ps₂ := by
  obtain ⟨body₁, rfl, hbody₁, -⟩ := h₁
  obtain ⟨body₂, h, hbody₂, -⟩ := h₂
  induction body₁ generalizing body₂ with
  | nil =>
    cases body₂ with
    | nil => exact (List.cons.inj h).2
    | cons p body₂ => exact absurd ((List.cons.inj h).1 ▸ List.mem_cons_self) hbody₂
  | cons p body₁ ih =>
    cases body₂ with
    | nil => exact absurd ((List.cons.inj h).1 ▸ List.mem_cons_self) hbody₁
    | cons q body₂ =>
      have hrest₁ : [fin] ∉ body₁ := fun hmem => hbody₁ (List.mem_cons_of_mem p hmem)
      have hrest₂ : [fin] ∉ body₂ := fun hmem => hbody₂ (List.mem_cons_of_mem q hmem)
      exact ih hrest₁ body₂ (List.cons.inj h).2 hrest₂

mutual

theorem IsValue.end_unique {ps ps₁ ps₂ : List Str} {v₁ v₂ : Value} (h₁ : IsValue ps v₁ ps₁)
    (h₂ : IsValue ps v₂ ps₂) : ps₁ = ps₂ := by
  match v₁, h₁ with
  | _, .dict h hd =>
    obtain ⟨kvs, hd'⟩ := h₂.of_lbrace h
    exact hd.end_unique hd'
  | _, .array h ha =>
    obtain ⟨vs, ha'⟩ := h₂.of_lbracket h
    exact ha.end_unique ha'
  | _, .string hf h hs =>
    obtain ⟨s, hs'⟩ := h₂.of_quote hf h
    exact hs.end_unique hs'
  | _, .boolFalse h => exact (h₂.of_scalar h (.inl rfl)).symm
  | _, .boolTrue h => exact (h₂.of_scalar h (.inr (.inl rfl))).symm
  | _, .float h hx _ => exact (h₂.of_scalar h (.inr (.inr (.inl ⟨_, _, hx⟩)))).symm
  | _, .int h hx _ _ => exact (h₂.of_scalar h (.inr (.inr (.inr ⟨_, hx⟩)))).symm

theorem IsTable.end_unique {ps ps₁ ps₂ : List Str} {kvs₁ kvs₂ : List (Str × Value)}
    (h₁ : IsTable ps kvs₁ ps₁) (h₂ : IsTable ps kvs₂ ps₂) : ps₁ = ps₂ := by
  match kvs₁, h₁ with
  | _, .last h hv hc =>
    cases h₂ with
    | last h' hv' hc' =>
      obtain ⟨-, rfl⟩ := h.unique h'
      obtain rfl := hv.end_unique hv'
      exact (rest_unique hc hc').2
    | more h' hv' hc' =>
      obtain ⟨-, rfl⟩ := h.unique h'
      obtain rfl := hv.end_unique hv'
      exact absurd (rest_unique hc hc').1 (by decide)
  | _, .more h hv hc hk =>
    cases h₂ with
    | last h' hv' hc' =>
      obtain ⟨-, rfl⟩ := h.unique h'
      obtain rfl := hv.end_unique hv'
      exact absurd (rest_unique hc hc').1 (by decide)
    | more h' hv' hc' hk' =>
      obtain ⟨-, rfl⟩ := h.unique h'
      obtain rfl := hv.end_unique hv'
      obtain ⟨-, rfl⟩ := rest_unique hc hc'
      exact hk.end_unique hk'

theorem IsArray.end_unique {ps ps₁ ps₂ : List Str} {vs₁ vs₂ : List Value} (h₁ : IsArray ps vs₁ ps₁)
    (h₂ : IsArray ps vs₂ ps₂) : ps₁ = ps₂ := by
  match vs₁, h₁ with
  | _, .close h =>
    cases h₂ with
    | close h' => exact (rest_unique h h').2
    | last hv' | more hv' => exact absurd h (hv'.begin_ne _)
  | _, .last hv hc =>
    cases h₂ with
    | close h' => exact absurd h' (hv.begin_ne _)
    | last hv' hc' =>
      obtain rfl := hv.end_unique hv'
      exact (rest_unique hc hc').2
    | more hv' hc' =>
      obtain rfl := hv.end_unique hv'
      exact absurd (rest_unique hc hc').1 (by decide)
  | _, .more hv hc hk =>
    cases h₂ with
    | close h' => exact absurd h' (hv.begin_ne _)
    | last hv' hc' =>
      obtain rfl := hv.end_unique hv'
      exact absurd (rest_unique hc hc').1 (by decide)
    | more hv' hc' hk' =>
      obtain rfl := hv.end_unique hv'
      obtain ⟨-, rfl⟩ := rest_unique hc hc'
      exact hk.end_unique hk'

end

/-- The first entry of a section that has one. -/
theorem IsBody.first {ps ps₁ ps₂ : List Str} {name : Str} {kvs : List (Str × Value)}
    (hs : IsBody ps kvs ps₂) (h : Assignment ps name ps₁) :
    ∃ v ps₃ kvs', IsValue ps₁ v ps₃ ∧ IsBody ps₃ kvs' ps₂ := by
  cases hs with
  | eof h' =>
    obtain ⟨qs, h, -⟩ := h
    rw [h'] at h
    cases h
  | header h' =>
    obtain ⟨qs, h, hn, -⟩ := h
    exact absurd (rest_unique h h').1 hn
  | entry h' hv' hk' =>
    obtain ⟨-, rfl⟩ := h.unique h'
    exact ⟨_, _, _, hv', hk'⟩

theorem IsBody.end_unique {ps ps₁ ps₂ : List Str} {kvs₁ kvs₂ : List (Str × Value)}
    (h₁ : IsBody ps kvs₁ ps₁) (h₂ : IsBody ps kvs₂ ps₂) : ps₁ = ps₂ := by
  induction h₁ generalizing kvs₂ with
  | eof h =>
    cases h₂ with
    | eof => rfl
    | header h' =>
      rw [h] at h'
      cases h'
    | entry h' =>
      obtain ⟨qs, h', -⟩ := h'
      rw [h] at h'
      cases h'
  | header h =>
    cases h₂ with
    | eof h' =>
      rw [h] at h'
      cases h'
    | header h' => rw [(rest_unique h h').2]
    | entry h' =>
      obtain ⟨qs, h', hn, -⟩ := h'
      exact absurd (rest_unique h' h).1 hn
  | entry h hv _ ih =>
    obtain ⟨v, ps₃, kvs', hv', hk'⟩ := h₂.first h
    obtain rfl := hv.end_unique hv'
    exact ih hk'

/-! ## Nothing is strict and loose -/

/-- A word that is no literal begins no strict value. -/
theorem IsValue.not_number {ps ps₁ ps' : List Str} {x : Str} {v : Value} (h : IsValue ps v ps')
    (hs : significant ps = x :: ps₁) : ¬ Loose.Number x := by
  rintro ⟨⟨hbrace, hbracket, hquote, hquotes, hfalse, htrue⟩, hx⟩
  cases h with
  | dict h => exact hbrace (rest_unique hs h).1
  | array h => exact hbracket (rest_unique hs h).1
  | string hf h =>
    have hfin := (rest_unique hs h).1
    rcases hf with rfl | rfl
    · exact hquote hfin
    · exact hquotes hfin
  | boolFalse h => exact hfalse (rest_unique hs h).1
  | boolTrue h => exact htrue (rest_unique hs h).1
  | float h hdec =>
    obtain ⟨rfl, -⟩ := rest_unique hs h
    rw [if_pos (decimal_point hdec)] at hx
    exact hx.2 _ _ hdec
  | int h hnum =>
    obtain ⟨rfl, -⟩ := rest_unique hs h
    rw [if_neg (Layout.numeral_word hnum).2.2] at hx
    exact hx.2 _ hnum

end Strict

namespace Loose

open Config Toml

mutual

theorem HasDefect.not_strict {k : Kind} {ps ps₁ ps₂ : List Str} {v : Value} (h : HasDefect k ps ps₁)
    (hk : k ≠ .hash) : ¬ Strict.IsValue ps v ps₂ := by
  intro hs
  match k, h with
  | _, .word h hx => exact hs.not_number h hx
  | _, .hash _ _ _ _ => exact hk rfl
  | _, .dict h hd =>
    obtain ⟨kvs, hstrict⟩ := hs.of_lbrace h
    exact hd.not_strict hk hstrict
  | _, .array h ha =>
    obtain ⟨vs, hstrict⟩ := hs.of_lbracket h
    exact ha.not_strict hk hstrict

theorem InTable.not_strict {k : Kind} {ps ps₁ ps₂ : List Str} {kvs : List (Str × Value)}
    (h : InTable k ps ps₁) (hk : k ≠ .hash) : ¬ Strict.IsTable ps kvs ps₂ := by
  intro hs
  match h with
  | .last h hv _ | .first h hv _ _ =>
    cases hs with
    | last h' hv' | more h' hv' =>
      obtain ⟨-, rfl⟩ := h.unique h'
      exact hv.not_strict hk hv'
  | .rest h hv hc hd =>
    cases hs with
    | last h' hv' hc' =>
      obtain ⟨-, rfl⟩ := h.unique h'
      obtain rfl := hv.1.end_unique hv'
      exact absurd (rest_unique hc hc').1 (by decide)
    | more h' hv' hc' hd' =>
      obtain ⟨-, rfl⟩ := h.unique h'
      obtain rfl := hv.1.end_unique hv'
      obtain ⟨-, rfl⟩ := rest_unique hc hc'
      exact hd.not_strict hk hd'

theorem InArray.not_strict {k : Kind} {ps ps₁ ps₂ : List Str} {vs : List Value} (h : InArray k ps ps₁)
    (hk : k ≠ .hash) : ¬ Strict.IsArray ps vs ps₂ := by
  intro hs
  match h with
  | .last hv _ | .first hv _ _ =>
    cases hs with
    | close h' =>
      obtain ⟨v, hval⟩ := hv.accepted
      exact hval.begin_ne (by decide) _ h'
    | last hv' | more hv' => exact hv.not_strict hk hv'
  | .rest hv hc hd =>
    cases hs with
    | close h' => exact hv.1.begin_ne _ h'
    | last hv' hc' =>
      obtain rfl := hv.1.end_unique hv'
      exact absurd (rest_unique hc hc').1 (by decide)
    | more hv' hc' hd' =>
      obtain rfl := hv.1.end_unique hv'
      obtain ⟨-, rfl⟩ := rest_unique hc hc'
      exact hd.not_strict hk hd'

end

/-- A table that was cut has no closing brace. -/
theorem Cut.not_strict {ps ps₁ ps₂ : List Str} {kvs : List (Str × Value)} (h : Cut ps ps₁) :
    ¬ Strict.IsTable ps kvs ps₂ := by
  induction h generalizing kvs with
  | eof h =>
    intro hs
    cases hs with
    | last h' | more h' =>
      obtain ⟨qs, h', -⟩ := h'
      rw [h] at h'
      cases h'
  | header h =>
    intro hs
    cases hs with
    | last h' | more h' =>
      obtain ⟨qs, h', hn, -⟩ := h'
      exact hn (rest_unique h' h).1
  | entry h hv hc _ ih =>
    intro hs
    cases hs with
    | last h' hv' hc' =>
      obtain ⟨-, rfl⟩ := h.unique h'
      obtain rfl := hv.1.end_unique hv'
      exact absurd (rest_unique hc hc').1 (by decide)
    | more h' hv' hc' hd' =>
      obtain ⟨-, rfl⟩ := h.unique h'
      obtain rfl := hv.1.end_unique hv'
      obtain ⟨-, rfl⟩ := rest_unique hc hc'
      exact ih hd'

theorem InBody.not_strict {k : Kind} {ps ps₁ ps₂ : List Str} {kvs : List (Str × Value)}
    (h : InBody k ps ps₁) (hk : k ≠ .hash) : ¬ Strict.IsBody ps kvs ps₂ := by
  induction h generalizing kvs with
  | value h hv _ =>
    intro hs
    obtain ⟨v, ps₃, kvs', hv', -⟩ := hs.first h
    exact hv.not_strict hk hv'
  | cut h hb hc _ =>
    intro hs
    obtain ⟨v, ps₃, kvs', hv', -⟩ := hs.first h
    obtain ⟨kvs'', htable⟩ := hv'.of_lbrace hb
    exact hc.not_strict htable
  | rest h hv _ ih =>
    intro hs
    obtain ⟨v, ps₃, kvs', hv', hk'⟩ := hs.first h
    obtain rfl := hv.1.end_unique hv'
    exact ih hk hk'

theorem InSections.not_strict {k : Kind} {ps : List Str} {secs : List (Str × Value)}
    (h : InSections k ps) (hk : k ≠ .hash) : ¬ Strict.IsSections ps secs := by
  induction h generalizing secs with
  | first h hb _ =>
    intro hs
    cases hs with
    | nil h' =>
      obtain ⟨qs, rs, h, -⟩ := h
      rw [h'] at h
      cases h
    | cons h' hb' =>
      obtain ⟨-, rfl⟩ := h.unique h'
      exact hb.not_strict hk hb'
  | rest h hb _ _ ih =>
    intro hs
    cases hs with
    | nil h' =>
      obtain ⟨qs, rs, h, -⟩ := h
      rw [h'] at h
      cases h
    | cons h' hb' hs' =>
      obtain ⟨-, rfl⟩ := h.unique h'
      obtain rfl := hb.end_unique hb'
      exact ih hs'

end Loose

/-! ## The parser -/

namespace Loose

open Config Toml

theorem Document.parse {k : Kind} {text : Str} (h : Document k text) : ∃ d, Toml.parse text = .ok d := by
  obtain ⟨secs, hsecs⟩ := InSections.accepted h
  exact ⟨_, parse_eq_ok_iff.mpr ⟨secs, hsecs, rfl⟩⟩

theorem Document.not_strict {k : Kind} {text : Str} (h : Document k text) (hk : k ≠ .hash) (d : Dict) :
    ¬ Strict.Document text d := by
  rintro ⟨secs, hsecs, -⟩
  exact InSections.not_strict h hk hsecs

end Loose

namespace Toml

open Config

theorem Document.strict_or_loose {text : Str} {d : Dict} (h : Document text d) :
    Strict.Document text d ∨ ∃ k, Loose.Document k text := by
  obtain ⟨secs, hsecs, rfl⟩ := h
  rcases hsecs.strict_or_loose with hstrict | hloose
  · exact .inl ⟨secs, hstrict, rfl⟩
  · exact .inr hloose

/-- The parser accepts the text only as a strict one, and answers a text that is not strict with an
exception. -/
def Sound (text : Str) : Prop :=
  (∀ d, parse text = .ok d → Strict.Document text d) ∧
    ((∀ d, ¬ Strict.Document text d) → ∃ e, parse text = .error (.throws e))

/-- The parser is sound on the texts that are not loose, and on none with a misread word or a table that is
cut. -/
theorem parse_strict (text : Str) :
    ((∀ k, ¬ Loose.Document k text) → Sound text) ∧
      (Sound text → ¬ Loose.Document .word text ∧ ¬ Loose.Document .cut text) := by
  constructor
  · intro hnot
    have haccepts : ∀ d, Document text d → Strict.Document text d :=
      fun d hd => hd.strict_or_loose.resolve_right (not_exists.mpr hnot)
    refine ⟨fun d hparse => haccepts d (parse_eq_ok_iff.mp hparse), ?_⟩
    intro hviolates
    rcases parse_outcome text with ⟨d, -, hd⟩ | hthrows
    · exact absurd (haccepts d hd) (hviolates d)
    · exact hthrows
  · rintro ⟨haccepts, -⟩
    have hstrict : ∀ k, k ≠ .hash → ¬ Loose.Document k text := by
      intro k hk hloose
      obtain ⟨d, hparse⟩ := hloose.parse
      exact hloose.not_strict hk d (haccepts d hparse)
    exact ⟨hstrict .word (by simp), hstrict .cut (by simp)⟩

end Toml

namespace Loose

open Config Toml Lexing

/-- A section with one entry, whose value is the text `x`. -/
def entryText (x : Str) : Str := '[' :: 's' :: ']' :: '\n' :: 'a' :: '=' :: x

theorem header_entryText (x : Str) :
    Header (pieces delimiters (entryText x)) ['s'] (pieces delimiters ('\n' :: 'a' :: '=' :: x)) := by
  have hname : significant (pieces delimiters (['s'] ++ ']' :: '\n' :: 'a' :: '=' :: x)) =
      ['s'] :: pieces delimiters (']' :: '\n' :: 'a' :: '=' :: x) :=
    Layout.significant_word nofun (Layout.plain_of_all rfl) (begins_cons (by decide) _)
  exact ⟨_, _, Layout.significant_mark (by decide) _, hname,
    Layout.significant_mark (by decide) _⟩

theorem assignment_entryText (x : Str) :
    Assignment (pieces delimiters ('\n' :: 'a' :: '=' :: x)) ['a'] (pieces delimiters x) := by
  have hname : significant (pieces delimiters (['\n'] ++ (['a'] ++ '=' :: x))) =
      ['a'] :: pieces delimiters ('=' :: x) := by
    rw [Layout.gap_newline.significant]
    exact Layout.significant_word nofun (Layout.plain_of_all rfl) (begins_cons (by decide) _)
  exact ⟨_, hname, by decide, Layout.significant_mark (by decide) _⟩

theorem document_entryText {x : Str} {v : Value} {ps' : List Str}
    (hv : IsValue (pieces delimiters (x ++ newline)) v ps') (hend : significant ps' = []) :
    Toml.Document (entryText x) [(['s'], .dict [(['a'], v)])] := by
  obtain ⟨_, _, h, hn, hc⟩ := header_entryText (x ++ newline)
  obtain ⟨_, ha, hname, he⟩ := assignment_entryText (x ++ newline)
  have hentries := Entries.entry ha hname he hv (.eof hend)
  exact ⟨_, .cons h hn hc hentries (.nil significant_newline), rfl⟩

theorem loose_entryText {k : Kind} {x : Str}
    (h : InBody k (pieces delimiters ('\n' :: 'a' :: '=' :: (x ++ newline))) [newline]) :
    Document k (entryText x) :=
  .first (header_entryText (x ++ newline)) h (.nil significant_newline)

/-- A string with a `#` in it, and an array that is not closed. -/
def hashText : Str := ['"', '#', '"', '\n', 'b', '=', '[', '1', '"']

theorem pieces_letter {c d : Char} (hc : [c] ∉ delimiters) (hd : [d] ∈ delimiters) (t : Str) :
    pieces delimiters (c :: d :: t) = [c] :: pieces delimiters (d :: t) := by
  have hplain : ∀ e ∈ [c], [e] ∉ delimiters := fun e he => List.mem_singleton.mp he ▸ hc
  exact pieces_word (w := [c]) delimiters_length nofun hplain (begins_cons hd t)

theorem pieces_hashText : pieces delimiters (hashText ++ newline) =
    [['"'], ['#'], ['"'], newline, ['b'], equals, lbracket, ['1'], ['"'], newline] := by
  show pieces delimiters ['"', '#', '"', '\n', 'b', '=', '[', '1', '"', '\n'] = _
  have hmark : ∀ c t, [c] ∈ delimiters → pieces delimiters (c :: t) = [c] :: pieces delimiters t :=
    fun c t hc => pieces_delimiter delimiters_length hc t
  rw [hmark _ _ (by decide), hmark _ _ (by decide), hmark _ _ (by decide), hmark _ _ (by decide),
    pieces_letter (by decide) (by decide), hmark _ _ (by decide), hmark _ _ (by decide),
    pieces_letter (by decide) (by decide), hmark _ _ (by decide), hmark _ _ (by decide), pieces_nil]
  rfl

/-- The parser reads on up to the last quote. -/
theorem value_hashText :
    IsValue (pieces delimiters (hashText ++ newline)) (.string ['b', '=', '[', '1']) [newline] := by
  rw [pieces_hashText]
  have hliteral : Literal '"' [['#'], ['"'], newline, ['b'], equals, lbracket, ['1'], ['"'], newline]
      ['b', '=', '[', '1'] [newline] :=
    .piece (p := ['b']) rfl (by decide) (.piece (p := ['=']) rfl (by decide)
      (.piece (p := ['[']) rfl (by decide) (.piece (p := ['1']) rfl (by decide) (.close rfl))))
  exact .string (.inr rfl) rfl hliteral

/-- After the string and the name stands an array that is not closed. -/
theorem strict_hashText {kvs : List (Str × Value)} {ps' : List Str} :
    ¬ Strict.IsBody (pieces delimiters ('\n' :: 'a' :: '=' :: (hashText ++ newline))) kvs ps' := by
  intro hs
  obtain ⟨v, ps₁, kvs', hv, hrest⟩ := hs.first (assignment_entryText (hashText ++ newline))
  rw [pieces_hashText] at hv
  obtain ⟨s, hquoted⟩ := hv.of_quote (.inr rfl) rfl
  obtain rfl := hquoted.end_unique ⟨[['#']], rfl, by decide, rfl⟩
  have hb : Assignment [newline, ['b'], equals, lbracket, ['1'], ['"'], newline] ['b']
      [lbracket, ['1'], ['"'], newline] := ⟨_, rfl, by decide, rfl⟩
  obtain ⟨v, ps₂, kvs'', hv, -⟩ := hrest.first hb
  obtain ⟨vs, harray⟩ := hv.of_lbracket rfl
  have hdigits : Numbers.Digits ['1'] := ⟨nofun, fun c hc => List.mem_singleton.mp hc ▸ rfl⟩
  have hnumeral : Numbers.Numeral ['1'] 1 := ⟨false, [], ['1'], List.mem_cons_self, hdigits, rfl, rfl⟩
  have hone : Strict.Scalar ['1'] := .inr (.inr (.inr ⟨1, hnumeral⟩))
  cases harray with
  | close h => exact absurd (rest_unique rfl h).1 (by decide)
  | last hv' hc =>
    obtain rfl := hv'.of_scalar rfl hone
    exact absurd (rest_unique rfl hc).1 (by decide)
  | more hv' hc =>
    obtain rfl := hv'.of_scalar rfl hone
    exact absurd (rest_unique rfl hc).1 (by decide)

/-- An inline table that is not closed is accepted, a number with letters after it, and an array that is not
closed behind a string with a `#`. -/
theorem parse_entryText :
    (parse (entryText ['{']) = .ok [(['s'], .dict [(['a'], .dict [])])] ∧
        ∀ d, ¬ Strict.Document (entryText ['{']) d) ∧
      (parse (entryText ['1', '2', 'a', 'b', 'c']) = .ok [(['s'], .dict [(['a'], .int 12)])] ∧
        ∀ d, ¬ Strict.Document (entryText ['1', '2', 'a', 'b', 'c']) d) ∧
      parse (entryText hashText) = .ok [(['s'], .dict [(['a'], .string ['b', '=', '[', '1'])])] ∧
        ∀ d, ¬ Strict.Document (entryText hashText) d := by
  refine ⟨?_, ?_, ?_⟩
  · have hbrace : significant (pieces delimiters (['{'] ++ newline)) = lbrace :: pieces delimiters newline :=
      Layout.significant_mark (by decide) _
    have hbody := InBody.cut (assignment_entryText _) hbrace (.eof Layout.significant_line)
      (.eof significant_newline)
    have hdocument := document_entryText (.dict hbrace (.eof Layout.significant_line)) significant_newline
    exact ⟨parse_eq_ok_iff.mpr hdocument, (loose_entryText hbody).not_strict (by simp)⟩
  · have hword : significant (pieces delimiters (['1', '2', 'a', 'b', 'c'] ++ newline)) =
        ['1', '2', 'a', 'b', 'c'] :: pieces delimiters newline :=
      Layout.significant_word nofun (Layout.plain_of_all rfl) (begins_cons (by decide) _)
    have hread : Numbers.stoi ['1', '2', 'a', 'b', 'c'] = .ok 12 := by decide
    have hvalue : Word ['1', '2', 'a', 'b', 'c'] := by
      refine ⟨?_, ?_, ?_, ?_, ?_, ?_⟩ <;> decide
    have hnumber : Number ['1', '2', 'a', 'b', 'c'] := by
      refine ⟨hvalue, ?_⟩
      rw [if_neg (by decide)]
      refine ⟨⟨12, hread⟩, ?_⟩
      intro i hi
      have hletter := hi.chars (c := 'a') (by decide)
      exact absurd hletter (by decide)
    have hbody := InBody.value (assignment_entryText _) (.word hword hnumber) (.eof Layout.significant_line)
    have hdocument := document_entryText (.int hword hvalue (by decide) hread) Layout.significant_line
    exact ⟨parse_eq_ok_iff.mpr hdocument, (loose_entryText hbody).not_strict (by simp)⟩
  · have hdocument := document_entryText value_hashText significant_newline
    refine ⟨parse_eq_ok_iff.mpr hdocument, ?_⟩
    rintro d ⟨secs, hsecs, -⟩
    have hheader := header_entryText (hashText ++ newline)
    cases hsecs with
    | nil h =>
      obtain ⟨qs, rs, hhead, -⟩ := hheader
      exact absurd (hhead.symm.trans h) (by simp)
    | cons h hb =>
      obtain ⟨-, rfl⟩ := hheader.unique h
      exact strict_hashText hb

end Loose
