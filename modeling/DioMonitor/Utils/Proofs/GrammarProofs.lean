import DioMonitor.Utils.Proofs.TomlProofs

/-!
# The parser and its language

Every text of the language is read to its end, so `parse` returns a configuration exactly for the texts
of the language (`parse_eq_ok_iff`).
-/

namespace Toml

open Config Tokenizer Lexing StateExcept

/-! ## String literals -/

section

variable {text : Str} {before after : List Str} {fin : Char}

/-- A literal of the language is read to its end. -/
theorem stringLoop_complete (hf : [fin] ≠ newline) {s : Str} {a : List Str}
    (hl : Literal fin after s a) {fuel : ℕ} (ss : Str) (h : Left text before after)
    (hfuel : after.length < fuel) :
    ∃ b, stringLoop fin fuel ss (reader text false before) = .ok (ss ++ s, reader text false b) ∧
      Left text b a ∧ a ≠ [] ∧ a.length < after.length := by
  induction hl generalizing fuel ss before with
  | close hv =>
    obtain ⟨fuel, rfl⟩ := Nat.exists_eq_succ_of_ne_zero (Nat.ne_of_gt (Nat.zero_lt_of_lt hfuel))
    obtain ⟨b, hrun, hleft⟩ := next_verbatim_cons h hv
    have hl := left_cons.mpr hleft
    refine ⟨[fin] :: b, ?_, hl, hl.ne_nil hf, verbatim_length hv⟩
    rw [stringLoop, bind_ok hrun, if_neg (by simp), if_pos rfl, List.append_nil]
    rfl
  | piece hv hp _ ih =>
    obtain ⟨fuel, rfl⟩ := Nat.exists_eq_succ_of_ne_zero (Nat.ne_of_gt (Nat.zero_lt_of_lt hfuel))
    obtain ⟨b, hrun, hleft⟩ := next_verbatim_cons h hv
    have hlen := verbatim_length hv
    obtain ⟨b', hrun', hleft', ha', hlen'⟩ :=
      ih (ss ++ _) (left_cons.mpr hleft) (show _ < fuel by omega)
    refine ⟨b', ?_, hleft', ha', by omega⟩
    rw [stringLoop, bind_ok hrun, if_neg (Cut.ne_nil hleft (by simp)), if_neg hp, hrun',
      List.append_assoc]

theorem parseString_complete (hf : [fin] ≠ newline) {s : Str} {a : List Str}
    (hl : Literal fin after s a) {fuel : ℕ} (h : Left text before after)
    (hfuel : after.length < fuel) :
    ∃ b, parseString fuel fin (reader text true before) = .ok (s, reader text true b) ∧
      Left text b a ∧ a ≠ [] ∧ a.length < after.length := by
  obtain ⟨b, hrun, hleft, ha, hlen⟩ := stringLoop_complete hf hl [] h hfuel
  refine ⟨b, ?_, hleft, ha, hlen⟩
  rw [parseString, bind_ok (skip_false before), bind_ok hrun, bind_ok (skip_true b)]
  rfl

end

/-! ## Values and sections -/

section

variable {text : Str}

theorem assertMsg_ok {test : Bool} (h : test = true) (msg : Str) (t : Tokenizer) :
    assertMsg test msg t = .ok ((), t) := by
  subst h
  rfl

/-- With fuel for the pieces that are left, `parse_value` reads a value of the language. -/
def ValueComplete (text : Str) (fuel : ℕ) : Prop :=
  ∀ before after v a, IsValue after v a → Left text before after → 2 * after.length < fuel →
    ∃ b, parseValue fuel (reader text true before) = .ok (v, reader text true b) ∧
      Left text b a ∧ a ≠ [] ∧ a.length < after.length

def DictComplete (text : Str) (fuel : ℕ) : Prop :=
  ∀ glob dic before after kvs a, Entries glob after kvs a → Left text before after → after ≠ [] →
    2 * after.length + 1 < fuel →
    ∃ b, parseDict fuel glob dic (reader text true before) =
        .ok (kvs.foldl (fun dic kv => dic.insert kv.1 kv.2) dic, reader text true b) ∧
      Left text b a ∧ a ≠ [] ∧ a.length ≤ after.length

def ArrayComplete (text : Str) (fuel : ℕ) : Prop :=
  ∀ arr before after vs a, Elements after vs a → Left text before after →
    2 * after.length + 1 < fuel →
    ∃ b, parseArray fuel arr (reader text true before) = .ok (arr ++ vs, reader text true b) ∧
      Left text b a ∧ a ≠ [] ∧ a.length < after.length

/-- Reading one significant piece, for a parser that goes on with `f`. -/
theorem next_bind {α : Type} {f : Str → TokM α} {before after a : List Str} {x : Str}
    (h : Left text before after) (hs : significant after = x :: a) :
    ∃ b, (next >>= f) (reader text true before) = f x (reader text true (x :: b)) ∧
      Left text b (x :: a) ∧ x ≠ [] ∧ a ≠ [] ∧ a.length < after.length := by
  obtain ⟨b, hrun, hleft⟩ := next_cons h hs
  exact ⟨b, bind_ok hrun, hleft, Cut.ne_nil hleft (by simp),
    (left_cons.mpr hleft).ne_nil (significant_ne_newline hs), significant_length hs⟩

/-- The common beginning of the entries of a dictionary: a name, an equals sign and a value. -/
theorem parseDict_entry {fuel : ℕ} (hvalue : ValueComplete text fuel) (glob : Bool) (dic : Dict)
    {before after ps₁ ps₂ a : List Str} {name : Str} {v : Value} (h : Left text before after)
    (hfuel : 2 * after.length < fuel) (hs : significant after = name :: ps₁) (hn : name ≠ lbracket)
    (he : significant ps₁ = equals :: ps₂) (hv : IsValue ps₂ v a) :
    ∃ b, parseDict (fuel + 1) glob dic (reader text true before) =
        (if glob then parseDict fuel glob (dic.insert name v)
          else do
            let next ← next
            assertMsg (next = rbrace ∨ next = comma) (expectedRBrace next)
            if next = rbrace then return dic.insert name v
            else parseDict fuel glob (dic.insert name v)) (reader text true b) ∧
      Left text b a ∧ a ≠ [] ∧ a.length < after.length := by
  obtain ⟨b₁, hrun₁, hleft₁, hx₁, -, hlen₁⟩ := next_bind h hs
  obtain ⟨b₂, hrun₂, hleft₂, -, -, hlen₂⟩ := next_bind (left_cons.mpr hleft₁) he
  obtain ⟨b, hrun, hleft, ha, hlen⟩ := hvalue _ _ _ _ hv (left_cons.mpr hleft₂) (by omega)
  refine ⟨b, ?_, hleft, ha, by omega⟩
  rw [parseDict, hrun₁, if_neg (by simp [hx₁, hn]), hrun₂, bind_ok (assertMsg_ok (by simp) _ _),
    bind_ok hrun]

theorem parseDict_complete {fuel : ℕ} (hvalue : ValueComplete text fuel)
    (hdict : DictComplete text fuel) : DictComplete text (fuel + 1) := by
  intro glob dic before after kvs a hk h ha hfuel
  cases hk with
  | eof hs =>
    obtain ⟨b, hrun, hleft⟩ := next_nil h hs
    refine ⟨b, ?_, left_cons.mp hleft, by simp, List.length_pos_iff.mpr ha⟩
    rw [parseDict, bind_ok hrun, if_pos (.inl rfl), bind_ok (rewind_reader true newline b)]
    rfl
  | header hs =>
    obtain ⟨b, hrun, hleft, hx, ha', hlen⟩ := next_bind h hs
    refine ⟨b, ?_, hleft, by simp, hlen⟩
    rw [parseDict, hrun, if_pos (.inr rfl), bind_ok (rewind_reader true lbracket b)]
    rfl
  | @entry _ _ _ _ _ name v kvs hs hn he hv hk =>
    obtain ⟨b₁, hrun₁, hleft₁, ha₁, hlen₁⟩ :=
      parseDict_entry hvalue true dic h (by omega) hs hn he hv
    obtain ⟨b, hrun, hleft, ha', hlen⟩ :=
      hdict true (dic.insert name v) _ _ _ _ hk hleft₁ ha₁ (by omega)
    refine ⟨b, ?_, hleft, ha', by omega⟩
    rw [hrun₁, if_pos rfl, hrun]
    rfl
  | @last _ _ _ _ _ name v hs hn he hv hc =>
    obtain ⟨b₁, hrun₁, hleft₁, -, hlen₁⟩ := parseDict_entry hvalue false dic h (by omega) hs hn he hv
    obtain ⟨b, hrun, hleft, -, ha', hlen⟩ := next_bind hleft₁ hc
    refine ⟨rbrace :: b, ?_, left_cons.mpr hleft, ha', by omega⟩
    rw [hrun₁, if_neg (by simp), hrun, bind_ok (assertMsg_ok (by simp) _ _), if_pos rfl]
    rfl
  | @more _ _ _ _ _ _ name v kvs hs hn he hv hc hk =>
    obtain ⟨b₁, hrun₁, hleft₁, -, hlen₁⟩ := parseDict_entry hvalue false dic h (by omega) hs hn he hv
    obtain ⟨b₂, hrun₂, hleft₂, -, ha₂, hlen₂⟩ := next_bind hleft₁ hc
    obtain ⟨b, hrun, hleft, ha', hlen⟩ :=
      hdict false (dic.insert name v) _ _ _ _ hk (left_cons.mpr hleft₂) ha₂ (by omega)
    refine ⟨b, ?_, hleft, ha', by omega⟩
    rw [hrun₁, if_neg (by simp), hrun₂, bind_ok (assertMsg_ok (by simp) _ _),
      if_neg (by decide), hrun]
    rfl

/-- `parse_array` goes back over the first piece of an element before it reads it. -/
theorem parseArray_value {fuel : ℕ} (hvalue : ValueComplete text fuel) {before after a : List Str}
    {v : Value} (h : Left text before after) (hn : ∀ ps', significant after ≠ rbracket :: ps')
    (hv : IsValue after v a) (hfuel : 2 * after.length < fuel) :
    ∃ x b₁ b, next (reader text true before) = .ok (x, reader text true (x :: b₁)) ∧ x ≠ rbracket ∧
      parseValue fuel (reader text true b₁) = .ok (v, reader text true b) ∧
      Left text b a ∧ a ≠ [] ∧ a.length < after.length := by
  cases hs : significant after with
  | nil => exact absurd hs hv.significant_ne_nil
  | cons x a₁ =>
    obtain ⟨b₁, hrun₁, hleft₁⟩ := next_cons h hs
    have hlen₁ := significant_length hs
    have hv' : IsValue (x :: a₁) v a := hv.of_significant (by rw [significant_idem hs, hs])
    obtain ⟨b, hrun, hleft, ha, hlen⟩ := hvalue b₁ _ _ _ hv' hleft₁ (by simp; omega)
    simp only [List.length_cons] at hlen
    exact ⟨x, b₁, b, hrun₁, fun hx => hn a₁ (by rw [hs, hx]), hrun, hleft, ha, by omega⟩

theorem parseArray_complete {fuel : ℕ} (hvalue : ValueComplete text fuel)
    (harray : ArrayComplete text fuel) : ArrayComplete text (fuel + 1) := by
  intro arr before after vs a hk h hfuel
  rw [parseArray]
  cases hk with
  | close hs =>
    obtain ⟨b, hrun, hleft, -, ha, hlen⟩ := next_bind h hs
    refine ⟨rbracket :: b, ?_, left_cons.mpr hleft, ha, hlen⟩
    rw [hrun, if_neg (by simp), List.append_nil]
    rfl
  | last hn hv hc =>
    obtain ⟨x, b₁, b₂, hrun₁, hx, hrun₂, hleft₂, -, hlen₂⟩ :=
      parseArray_value hvalue h hn hv (by omega)
    obtain ⟨b₃, hrun₃, hleft₃, -, ha, hlen₃⟩ := next_bind hleft₂ hc
    refine ⟨rbracket :: b₃, ?_, left_cons.mpr hleft₃, ha, by omega⟩
    rw [bind_ok hrun₁, if_pos hx, bind_ok (rewind_reader true x b₁), bind_ok hrun₂, hrun₃,
      bind_ok (assertMsg_ok (by simp) _ _), if_pos rfl]
    rfl
  | more hn hv hc hk =>
    obtain ⟨x, b₁, b₂, hrun₁, hx, hrun₂, hleft₂, -, hlen₂⟩ :=
      parseArray_value hvalue h hn hv (by omega)
    obtain ⟨b₃, hrun₃, hleft₃, -, -, hlen₃⟩ := next_bind hleft₂ hc
    obtain ⟨b, hrun, hleft, ha, hlen⟩ :=
      harray (arr ++ [_]) _ _ _ _ hk (left_cons.mpr hleft₃) (by omega)
    refine ⟨b, ?_, hleft, ha, by omega⟩
    rw [bind_ok hrun₁, if_pos hx, bind_ok (rewind_reader true x b₁), bind_ok hrun₂, hrun₃,
      bind_ok (assertMsg_ok (by simp) _ _), if_neg (by decide), hrun]
    simp

/-- The tests of `parse_value` on a word. -/
theorem Word.ite {α : Type} {x : Str} (hx : Word x) (m₁ m₂ m₃ m₄ m₅ m₆ m : α) :
    (if x = lbrace then m₁ else if x = lbracket then m₂ else if x = ['\''] then m₃
      else if x = ['"'] then m₄ else if x = falseWord then m₅ else if x = trueWord then m₆ else m) =
    m := by
  obtain ⟨h1, h2, h3, h4, h5, h6⟩ := hx
  rw [if_neg h1, if_neg h2, if_neg h3, if_neg h4, if_neg h5, if_neg h6]

theorem parseValue_complete {fuel : ℕ} (hdict : DictComplete text fuel)
    (harray : ArrayComplete text fuel) : ValueComplete text (fuel + 1) := by
  intro before after v a hv h hfuel
  rw [parseValue]
  cases hv with
  | dict hs hd =>
    obtain ⟨b₁, hrun₁, hleft₁, -, ha₁, hlen₁⟩ := next_bind h hs
    obtain ⟨b, hrun, hleft, ha, hlen⟩ :=
      hdict false [] _ _ _ _ hd (left_cons.mpr hleft₁) ha₁ (by omega)
    refine ⟨b, ?_, hleft, ha, by omega⟩
    rw [hrun₁, if_pos rfl, bind_ok hrun]
    rfl
  | array hs hk =>
    obtain ⟨b₁, hrun₁, hleft₁, -, -, hlen₁⟩ := next_bind h hs
    obtain ⟨b, hrun, hleft, ha, hlen⟩ :=
      harray [] _ _ _ _ hk (left_cons.mpr hleft₁) (by omega)
    refine ⟨b, ?_, hleft, ha, by omega⟩
    rw [hrun₁, if_neg (by decide), if_pos rfl, bind_ok hrun]
    rfl
  | @string _ _ _ fin s hf hs hl =>
    obtain ⟨b₁, hrun₁, hleft₁, -, -, hlen₁⟩ := next_bind h hs
    have hn : [fin] ≠ newline := by rcases hf with rfl | rfl <;> decide
    obtain ⟨b, hrun, hleft, ha, hlen⟩ :=
      parseString_complete hn hl (left_cons.mpr hleft₁) (show _ < fuel by omega)
    refine ⟨b, ?_, hleft, ha, by omega⟩
    rw [hrun₁]
    rcases hf with rfl | rfl
    · rw [if_neg (by decide), if_neg (by decide), if_pos rfl, bind_ok hrun]
      rfl
    · rw [if_neg (by decide), if_neg (by decide), if_neg (by decide), if_pos rfl, bind_ok hrun]
      rfl
  | boolFalse hs =>
    obtain ⟨b, hrun, hleft, -, ha, hlen⟩ := next_bind h hs
    refine ⟨falseWord :: b, ?_, left_cons.mpr hleft, ha, hlen⟩
    rw [hrun]
    rfl
  | boolTrue hs =>
    obtain ⟨b, hrun, hleft, -, ha, hlen⟩ := next_bind h hs
    refine ⟨trueWord :: b, ?_, left_cons.mpr hleft, ha, hlen⟩
    rw [hrun]
    rfl
  | float hs hx hp hv =>
    obtain ⟨b₁, hrun₁, hleft₁, -, -, hlen₁⟩ := next_bind h hs
    obtain ⟨b, hrun, hleft, -, ha, -⟩ := next_bind hleft₁ (significant_idem hs)
    refine ⟨_ :: b, ?_, left_cons.mpr hleft, ha, hlen₁⟩
    rw [hrun₁, hx.ite, bind_ok (rewind_reader true _ b₁), if_pos hp, parseFloat, bind_assoc, hrun, hv]
    rfl
  | int hs hx hp hi =>
    obtain ⟨b₁, hrun₁, hleft₁, -, -, hlen₁⟩ := next_bind h hs
    obtain ⟨b, hrun, hleft, -, ha, -⟩ := next_bind hleft₁ (significant_idem hs)
    refine ⟨_ :: b, ?_, left_cons.mpr hleft, ha, hlen₁⟩
    rw [hrun₁, hx.ite, bind_ok (rewind_reader true _ b₁), if_neg hp, parseInt, bind_assoc, hrun, hi]
    rfl

theorem complete (text : Str) (fuel : ℕ) :
    ValueComplete text fuel ∧ DictComplete text fuel ∧ ArrayComplete text fuel := by
  induction fuel with
  | zero =>
    refine ⟨?_, ?_, ?_⟩
    · intro _ _ _ _ _ _ h
      omega
    · intro _ _ _ _ _ _ _ _ _ h
      omega
    · intro _ _ _ _ _ _ _ h
      omega
  | succ fuel ih =>
    obtain ⟨hvalue, hdict, harray⟩ := ih
    exact ⟨parseValue_complete hdict harray, parseDict_complete hvalue hdict,
      parseArray_complete hvalue harray⟩

theorem sections_complete {after : List Str} {secs : List (Str × Value)} (hs : Sections after secs) :
    ∀ {fuel : ℕ} (dic : Dict) {before : List Str}, Left text before after → 2 * after.length < fuel →
      ∃ t, sections fuel dic (reader text true before) =
        .ok (secs.foldl (fun dic kv => dic.insert kv.1 kv.2) dic, t) := by
  induction hs with
  | nil hs =>
    intro fuel dic before h hfuel
    obtain ⟨fuel, rfl⟩ := Nat.exists_eq_succ_of_ne_zero (Nat.ne_of_gt (Nat.zero_lt_of_lt hfuel))
    obtain ⟨b, hrun, -⟩ := next_nil h hs
    refine ⟨reader text true (newline :: b), ?_⟩
    rw [sections, bind_ok hrun, bind_ok (assertMsg_ok (by simp) _ _), if_neg (by simp [lbracket])]
    rfl
  | @cons _ _ _ _ _ name kvs secs hs hn hc hk _ ih =>
    intro fuel dic before h hfuel
    obtain ⟨fuel, rfl⟩ := Nat.exists_eq_succ_of_ne_zero (Nat.ne_of_gt (Nat.zero_lt_of_lt hfuel))
    obtain ⟨b₁, hrun₁, hleft₁, -, -, hlen₁⟩ := next_bind h hs
    obtain ⟨b₂, hrun₂, hleft₂, -, -, hlen₂⟩ := next_bind (left_cons.mpr hleft₁) hn
    obtain ⟨b₃, hrun₃, hleft₃, -, ha₃, hlen₃⟩ := next_bind (left_cons.mpr hleft₂) hc
    obtain ⟨b₄, hrun₄, hleft₄, -, hlen₄⟩ :=
      (complete text fuel).2.1 true [] _ _ _ _ hk (left_cons.mpr hleft₃) ha₃ (by omega)
    obtain ⟨t, hrun⟩ := ih (dic.insert name (.dict (build kvs))) hleft₄ (show _ < fuel by omega)
    refine ⟨t, ?_⟩
    rw [sections, hrun₁, bind_ok (assertMsg_ok (by simp) _ _), if_pos rfl, hrun₂, hrun₃,
      bind_ok (assertMsg_ok (by simp) _ _), bind_ok hrun₄]
    exact hrun

end

/-! ## The parser -/

/-- `parse` accepts the texts of its language, with the configuration that they stand for. -/
theorem parse_eq_ok_iff {text : Str} {d : Dict} : parse text = .ok d ↔ Document text d := by
  constructor
  · intro h
    rcases parse_outcome text with ⟨d', hd, hdoc⟩ | ⟨e, he⟩
    · rw [h] at hd
      obtain rfl := Except.ok.inj hd
      exact hdoc
    · rw [h] at he
      exact absurd he (by simp)
  · rintro ⟨secs, hsecs, rfl⟩
    have hlen := length_pieces text
    obtain ⟨t, hrun⟩ := sections_complete hsecs [] (left_start text)
      (show _ < 2 * text.length + 3 by omega)
    rw [parse, show tokenizer text = reader text true [] from rfl, StateT.run', hrun]
    rfl

end Toml
