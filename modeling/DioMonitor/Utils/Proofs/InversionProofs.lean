import DioMonitor.Utils.Proofs.GrammarProofs

/-!
# Proofs: inversion of the language of the parser

What a phrase is, told by the first significant piece. The first piece decides which rule applies, as it
decides which branch the parser takes.
-/

namespace Toml

open Config Tokenizer

/-- A list of pieces has one first piece. -/
theorem rest_unique {qs ps₁ ps₂ : List Str} {x y : Str} (h₁ : qs = x :: ps₁) (h₂ : qs = y :: ps₂) :
    x = y ∧ ps₁ = ps₂ := List.cons.inj (h₁.symm.trans h₂)

/-- The value that begins with the piece `x` and goes on with `ps₁`. -/
def Begun (x : Str) (ps₁ : List Str) (v : Value) (ps' : List Str) : Prop :=
  if x = lbrace then ∃ kvs, v = .dict (build kvs) ∧ Entries false ps₁ kvs ps'
  else if x = lbracket then ∃ vs, v = .array vs ∧ Elements ps₁ vs ps'
  else if x = ['\''] then ∃ s, v = .string s ∧ Literal '\'' ps₁ s ps'
  else if x = ['"'] then ∃ s, v = .string s ∧ Literal '"' ps₁ s ps'
  else if x = falseWord then v = .bool false ∧ ps' = ps₁
  else if x = trueWord then v = .bool true ∧ ps' = ps₁
  else if '.' ∈ x then ∃ f, v = .float f ∧ Numbers.stof x = .ok f ∧ ps' = ps₁
  else ∃ i, v = .int i ∧ Numbers.stoi x = .ok i ∧ ps' = ps₁

theorem IsValue.inv {ps ps' : List Str} {v : Value} (h : IsValue ps v ps') :
    ∃ x ps₁, significant ps = x :: ps₁ ∧ Begun x ps₁ v ps' := by
  cases h with
  | @dict _ ps₁ _ kvs h hd =>
    refine ⟨lbrace, ps₁, h, ?_⟩
    rw [Begun, if_pos rfl]
    exact ⟨kvs, rfl, hd⟩
  | @array _ ps₁ _ vs h ha =>
    refine ⟨lbracket, ps₁, h, ?_⟩
    rw [Begun, if_neg (by decide), if_pos rfl]
    exact ⟨vs, rfl, ha⟩
  | @string _ ps₁ _ fin s hf h hs =>
    refine ⟨[fin], ps₁, h, ?_⟩
    unfold Begun
    rcases hf with rfl | rfl
    · rw [if_neg (by decide), if_neg (by decide), if_pos rfl]
      exact ⟨s, rfl, hs⟩
    · rw [if_neg (by decide), if_neg (by decide), if_neg (by decide), if_pos rfl]
      exact ⟨s, rfl, hs⟩
  | boolFalse h =>
    refine ⟨falseWord, ps', h, ?_⟩
    exact ⟨rfl, rfl⟩
  | boolTrue h =>
    refine ⟨trueWord, ps', h, ?_⟩
    exact ⟨rfl, rfl⟩
  | @float _ _ x f h hx hp hv =>
    refine ⟨x, ps', h, ?_⟩
    rw [Begun, hx.ite, if_pos hp]
    exact ⟨f, rfl, hv, rfl⟩
  | @int _ _ x i h hx hp hi =>
    refine ⟨x, ps', h, ?_⟩
    rw [Begun, hx.ite, if_neg hp]
    exact ⟨i, rfl, hi, rfl⟩

theorem IsValue.begun {ps ps₁ ps' : List Str} {x : Str} {v : Value} (h : IsValue ps v ps')
    (hs : significant ps = x :: ps₁) : Begun x ps₁ v ps' := by
  obtain ⟨y, qs, hs', hbegun⟩ := h.inv
  obtain ⟨rfl, rfl⟩ := rest_unique hs hs'
  exact hbegun

/-- A literal has one end. -/
theorem Literal.unique {fin : Char} {ps ps₁ ps₂ : List Str} {s₁ s₂ : Str} (h₁ : Literal fin ps s₁ ps₁)
    (h₂ : Literal fin ps s₂ ps₂) : s₁ = s₂ ∧ ps₁ = ps₂ := by
  induction h₁ generalizing s₂ with
  | close h =>
    cases h₂ with
    | close h' => exact ⟨rfl, (rest_unique h h').2⟩
    | piece h' hp => exact absurd (rest_unique h' h).1 hp
  | piece h hp _ ih =>
    cases h₂ with
    | close h' => exact absurd (rest_unique h h').1 hp
    | piece h' hp' hs' =>
      obtain ⟨rfl, rfl⟩ := rest_unique h h'
      obtain ⟨rfl, rfl⟩ := ih hs'
      exact ⟨rfl, rfl⟩

theorem IsValue.of_lbrace {ps ps₁ ps' : List Str} {v : Value} (h : IsValue ps v ps')
    (hs : significant ps = lbrace :: ps₁) : ∃ kvs, v = .dict (build kvs) ∧ Entries false ps₁ kvs ps' := by
  have hbegun := h.begun hs
  rwa [Begun, if_pos rfl] at hbegun

theorem IsValue.of_lbracket {ps ps₁ ps' : List Str} {v : Value} (h : IsValue ps v ps')
    (hs : significant ps = lbracket :: ps₁) : ∃ vs, v = .array vs ∧ Elements ps₁ vs ps' := by
  have hbegun := h.begun hs
  rwa [Begun, if_neg (by decide), if_pos rfl] at hbegun

theorem IsValue.of_quote {ps ps₁ ps' : List Str} {v : Value} {fin : Char} (h : IsValue ps v ps')
    (hf : fin = '\'' ∨ fin = '"') (hs : significant ps = [fin] :: ps₁) :
    ∃ s, v = .string s ∧ Literal fin ps₁ s ps' := by
  have hbegun := h.begun hs
  unfold Begun at hbegun
  rcases hf with rfl | rfl
  · rwa [if_neg (by decide), if_neg (by decide), if_pos rfl] at hbegun
  · rwa [if_neg (by decide), if_neg (by decide), if_neg (by decide), if_pos rfl] at hbegun

/-- After a word comes what follows the value, whatever the value is. -/
theorem IsValue.word_rest {ps ps₁ ps' : List Str} {x : Str} {v : Value} (h : IsValue ps v ps')
    (hs : significant ps = x :: ps₁) (hx : x ∉ delimiters) : ps' = ps₁ := by
  have hbegun := h.begun hs
  have hne : ∀ d ∈ delimiters, x ≠ d := fun d hd hxd => hx (hxd ▸ hd)
  rw [Begun, if_neg (hne _ (by decide)), if_neg (hne _ (by decide)), if_neg (hne _ (by decide)),
    if_neg (hne _ (by decide))] at hbegun
  split_ifs at hbegun
  · exact hbegun.2
  · exact hbegun.2
  · obtain ⟨-, -, -, heq⟩ := hbegun
    exact heq
  · obtain ⟨-, -, -, heq⟩ := hbegun
    exact heq

/-- No number begins with a delimiter. -/
theorem stoi_delimiter {d : Str} (hd : d ∈ delimiters) {i : ℤ} : Numbers.stoi d ≠ .ok i := by
  have hall : ∀ e ∈ delimiters, Numbers.stoi e = .error .invalidArgument := by decide
  rw [hall d hd]
  nofun

/-- A value does not begin with a delimiter that opens nothing. -/
theorem IsValue.begin_ne {ps ps' : List Str} {v : Value} (h : IsValue ps v ps') {d : Str}
    (hd : d ∈ delimiters ∧ d ∉ [lbrace, lbracket, ['\''], ['"']]) :
    ∀ qs, significant ps ≠ d :: qs := by
  intro qs hs
  obtain ⟨hd, hopen⟩ := hd
  have hbegun := h.begun hs
  have hne : ∀ o ∈ [lbrace, lbracket, ['\''], ['"']], d ≠ o := fun o ho hdo => hopen (hdo ▸ ho)
  have hword : ∀ e ∈ delimiters, e ≠ falseWord ∧ e ≠ trueWord ∧ '.' ∉ e := by decide
  obtain ⟨hfalse, htrue, hpoint⟩ := hword d hd
  rw [Begun, if_neg (hne _ (by decide)), if_neg (hne _ (by decide)), if_neg (hne _ (by decide)),
    if_neg (hne _ (by decide)), if_neg hfalse, if_neg htrue, if_neg hpoint] at hbegun
  obtain ⟨i, -, hi, -⟩ := hbegun
  exact stoi_delimiter hd hi

/-! ## Elements and entries -/

/-- An array goes on with its end, or with an element. -/
theorem Elements.inv {ps ps' : List Str} {vs : List Value} (h : Elements ps vs ps') :
    (significant ps = rbracket :: ps' ∧ vs = []) ∨
      ∃ v ps₁, (∀ qs, significant ps ≠ rbracket :: qs) ∧ IsValue ps v ps₁ ∧
        ((significant ps₁ = rbracket :: ps' ∧ vs = [v]) ∨
          ∃ ps₂ vs', significant ps₁ = comma :: ps₂ ∧ Elements ps₂ vs' ps' ∧ vs = v :: vs') := by
  cases h with
  | close h => exact .inl ⟨h, rfl⟩
  | last hn hv hc => exact .inr ⟨_, _, hn, hv, .inl ⟨hc, rfl⟩⟩
  | more hn hv hc hk => exact .inr ⟨_, _, hn, hv, .inr ⟨_, _, hc, hk, rfl⟩⟩

theorem Elements.of_significant {ps qs ps' : List Str} {vs : List Value} (h : Elements ps vs ps')
    (hs : significant qs = significant ps) : Elements qs vs ps' := by
  cases h with
  | close h => exact .close (hs.trans h)
  | last hn hv hc => exact .last (hs ▸ hn) (hv.of_significant hs) hc
  | more hn hv hc hk => exact .more (hs ▸ hn) (hv.of_significant hs) hc hk

theorem Entries.of_significant {glob : Bool} {ps qs ps' : List Str} {kvs : List (Str × Value)}
    (h : Entries glob ps kvs ps') (hs : significant qs = significant ps) : Entries glob qs kvs ps' := by
  cases h with
  | eof h => exact .eof (hs.trans h)
  | header h => exact .header (hs.trans h)
  | entry h hn he hv hk => exact .entry (hs.trans h) hn he hv hk
  | last h hn he hv hc => exact .last (hs.trans h) hn he hv hc
  | more h hn he hv hc hk => exact .more (hs.trans h) hn he hv hc hk

/-- Entries end with the text, or with the header of a section. -/
theorem Entries.of_nil {glob : Bool} {ps ps' : List Str} {kvs : List (Str × Value)}
    (h : Entries glob ps kvs ps') (hs : significant ps = []) : [] = kvs ∧ [newline] = ps' := by
  cases h with
  | eof => exact ⟨rfl, rfl⟩
  | header h | entry h | last h | more h =>
    rw [hs] at h
    cases h

theorem Entries.of_lbracket {glob : Bool} {ps ps₁ ps' : List Str} {kvs : List (Str × Value)}
    (h : Entries glob ps kvs ps') (hs : significant ps = lbracket :: ps₁) :
    [] = kvs ∧ lbracket :: ps₁ = ps' := by
  cases h with
  | eof h =>
    rw [hs] at h
    cases h
  | header h => exact ⟨rfl, hs.symm.trans h⟩
  | entry h hn | last h hn | more h hn =>
    exact absurd (rest_unique h hs).1 hn

/-- Entries that begin with a name: the equals sign and the value follow, then a section goes on, and an
inline table has a brace or a comma first. -/
theorem Entries.inv {glob : Bool} {ps ps₁ ps' : List Str} {x : Str} {kvs : List (Str × Value)}
    (h : Entries glob ps kvs ps') (hs : significant ps = x :: ps₁) (hx : x ≠ lbracket) :
    ∃ ps₂ v ps₃, significant ps₁ = equals :: ps₂ ∧ IsValue ps₂ v ps₃ ∧
      ((glob = true ∧ ∃ kvs', Entries true ps₃ kvs' ps' ∧ kvs = (x, v) :: kvs') ∨
        (glob = false ∧ significant ps₃ = rbrace :: ps' ∧ kvs = [(x, v)]) ∨
        (glob = false ∧ ∃ ps₄ kvs', significant ps₃ = comma :: ps₄ ∧ Entries false ps₄ kvs' ps' ∧
          kvs = (x, v) :: kvs')) := by
  cases h with
  | eof h =>
    rw [h] at hs
    cases hs
  | header h => exact absurd (rest_unique hs h).1 hx
  | entry h hn he hv hk =>
    obtain ⟨rfl, rfl⟩ := rest_unique h hs
    exact ⟨_, _, _, he, hv, .inl ⟨rfl, _, hk, rfl⟩⟩
  | last h hn he hv hc =>
    obtain ⟨rfl, rfl⟩ := rest_unique h hs
    exact ⟨_, _, _, he, hv, .inr (.inl ⟨rfl, hc, rfl⟩)⟩
  | more h hn he hv hc hk =>
    obtain ⟨rfl, rfl⟩ := rest_unique h hs
    exact ⟨_, _, _, he, hv, .inr (.inr ⟨rfl, _, _, hc, hk, rfl⟩)⟩

/-! ## A phrase has one reading -/

mutual

theorem IsValue.unique {ps ps₁ ps₂ : List Str} {v₁ v₂ : Value} (h₁ : IsValue ps v₁ ps₁)
    (h₂ : IsValue ps v₂ ps₂) : v₁ = v₂ ∧ ps₁ = ps₂ := by
  match v₁, h₁ with
  | _, .dict h hd =>
    obtain ⟨kvs, rfl, hd'⟩ := h₂.of_lbrace h
    obtain ⟨rfl, rfl⟩ := hd.unique hd'
    exact ⟨rfl, rfl⟩
  | _, .array h ha =>
    obtain ⟨vs, rfl, ha'⟩ := h₂.of_lbracket h
    obtain ⟨rfl, rfl⟩ := ha.unique ha'
    exact ⟨rfl, rfl⟩
  | _, .string hf h hs =>
    obtain ⟨s, rfl, hs'⟩ := h₂.of_quote hf h
    obtain ⟨rfl, rfl⟩ := hs.unique hs'
    exact ⟨rfl, rfl⟩
  | _, .boolFalse h =>
    obtain ⟨rfl, rfl⟩ : v₂ = .bool false ∧ ps₂ = ps₁ := h₂.begun h
    exact ⟨rfl, rfl⟩
  | _, .boolTrue h =>
    obtain ⟨rfl, rfl⟩ : v₂ = .bool true ∧ ps₂ = ps₁ := h₂.begun h
    exact ⟨rfl, rfl⟩
  | _, .float h hx hp hv =>
    have hbegun := h₂.begun h
    rw [Begun, hx.ite, if_pos hp] at hbegun
    obtain ⟨f, rfl, hf, rfl⟩ := hbegun
    obtain rfl := Except.ok.inj (hv.symm.trans hf)
    exact ⟨rfl, rfl⟩
  | _, .int h hx hp hi =>
    have hbegun := h₂.begun h
    rw [Begun, hx.ite, if_neg hp] at hbegun
    obtain ⟨j, rfl, hj, rfl⟩ := hbegun
    obtain rfl := Except.ok.inj (hi.symm.trans hj)
    exact ⟨rfl, rfl⟩

theorem Entries.unique {glob : Bool} {ps ps₁ ps₂ : List Str} {kvs₁ kvs₂ : List (Str × Value)}
    (h₁ : Entries glob ps kvs₁ ps₁) (h₂ : Entries glob ps kvs₂ ps₂) : kvs₁ = kvs₂ ∧ ps₁ = ps₂ := by
  match glob, ps₁, kvs₁, h₁, h₂ with
  | _, _, _, .eof h, h₂ => exact h₂.of_nil h
  | _, _, _, .header h, h₂ => exact h₂.of_lbracket h
  | _, _, _, .entry h hn he hv hk, h₂ =>
    obtain ⟨qs, v, qs', he', hv', hrest⟩ := h₂.inv h hn
    obtain ⟨-, rfl⟩ := rest_unique he he'
    obtain ⟨rfl, rfl⟩ := hv.unique hv'
    rcases hrest with ⟨-, kvs', hk', rfl⟩ | ⟨hglob, -⟩ | ⟨hglob, -⟩
    · obtain ⟨rfl, rfl⟩ := hk.unique hk'
      exact ⟨rfl, rfl⟩
    · cases hglob
    · cases hglob
  | _, _, _, .last h hn he hv hc, h₂ =>
    obtain ⟨qs, v, qs', he', hv', hrest⟩ := h₂.inv h hn
    obtain ⟨-, rfl⟩ := rest_unique he he'
    obtain ⟨rfl, rfl⟩ := hv.unique hv'
    rcases hrest with ⟨hglob, -⟩ | ⟨-, hc', rfl⟩ | ⟨-, qs₄, kvs', hc', -⟩
    · cases hglob
    · obtain ⟨-, rfl⟩ := rest_unique hc hc'
      exact ⟨rfl, rfl⟩
    · exact absurd (rest_unique hc hc').1 (by decide)
  | _, _, _, .more h hn he hv hc hk, h₂ =>
    obtain ⟨qs, v, qs', he', hv', hrest⟩ := h₂.inv h hn
    obtain ⟨-, rfl⟩ := rest_unique he he'
    obtain ⟨rfl, rfl⟩ := hv.unique hv'
    rcases hrest with ⟨hglob, -⟩ | ⟨-, hc', rfl⟩ | ⟨-, qs₄, kvs', hc', hk', rfl⟩
    · cases hglob
    · exact absurd (rest_unique hc hc').1 (by decide)
    · obtain ⟨-, rfl⟩ := rest_unique hc hc'
      obtain ⟨rfl, rfl⟩ := hk.unique hk'
      exact ⟨rfl, rfl⟩

theorem Elements.unique {ps ps₁ ps₂ : List Str} {vs₁ vs₂ : List Value} (h₁ : Elements ps vs₁ ps₁)
    (h₂ : Elements ps vs₂ ps₂) : vs₁ = vs₂ ∧ ps₁ = ps₂ := by
  match vs₁, h₁ with
  | _, .close h =>
    rcases h₂.inv with ⟨h', rfl⟩ | ⟨-, -, hn, -⟩
    · exact ⟨rfl, (rest_unique h h').2⟩
    · exact absurd h (hn _)
  | _, .last hn hv hc =>
    rcases h₂.inv with ⟨h', -⟩ | ⟨v, qs, -, hv', hrest⟩
    · exact absurd h' (hn _)
    · obtain ⟨rfl, rfl⟩ := hv.unique hv'
      rcases hrest with ⟨hc', rfl⟩ | ⟨qs₂, vs', hc', -⟩
      · exact ⟨rfl, (rest_unique hc hc').2⟩
      · exact absurd (rest_unique hc hc').1 (by decide)
  | _, .more hn hv hc hk =>
    rcases h₂.inv with ⟨h', -⟩ | ⟨v, qs, -, hv', hrest⟩
    · exact absurd h' (hn _)
    · obtain ⟨rfl, rfl⟩ := hv.unique hv'
      rcases hrest with ⟨hc', -⟩ | ⟨qs₂, vs', hc', hk', rfl⟩
      · exact absurd (rest_unique hc hc').1 (by decide)
      · obtain ⟨-, rfl⟩ := rest_unique hc hc'
        obtain ⟨rfl, rfl⟩ := hk.unique hk'
        exact ⟨rfl, rfl⟩

end

end Toml
