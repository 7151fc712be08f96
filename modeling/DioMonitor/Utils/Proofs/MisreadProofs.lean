import DioMonitor.Utils.Misread
import DioMonitor.Utils.Proofs.GrammarProofs

/-!
# Proofs: which exceptions the parser throws

Every error that the parser finds by itself is a `config_error`. Another exception comes out of it
exactly for the texts with a word that is no number where a value stands (`parse_throws_iff`).
-/

namespace Toml

open Config Tokenizer Lexing StateExcept

/-- The exception is a `config_error`. -/
def IsConfigError (e : Exn) : Prop := ∃ line msg, e = .configError line msg

/-! ## The conversions -/

theorem stoi_error {x : Str} {e : Exn} (h : Numbers.stoi x = .error e) : ¬ IsConfigError e := by
  rintro ⟨line, msg, rfl⟩
  unfold Numbers.stoi at h
  cases hx : Numbers.strtol x with
  | none => simp [hx] at h
  | some i =>
    simp only [hx] at h
    split at h
    · simp at h
    · simp at h

theorem toFloat_error {neg : Bool} {q : ℚ} {e : Exn} (h : Numbers.toFloat neg q = .error e) :
    ¬ IsConfigError e := by
  rintro ⟨line, msg, rfl⟩
  unfold Numbers.toFloat at h
  by_cases hq : q = 0
  · simp [hq] at h
  · cases hn : Numbers.nearest q with
    | none => simp [hq, hn] at h
    | some r => simp [hq, hn] at h

theorem stof_error {x : Str} {e : Exn} (h : Numbers.stof x = .error e) : ¬ IsConfigError e := by
  rintro ⟨line, msg, rfl⟩
  unfold Numbers.stof at h
  cases hx : Numbers.strtof x with
  | none => simp [hx] at h
  | some r =>
    rw [hx, Option.getD_some] at h
    subst h
    unfold Numbers.strtof at hx
    simp only at hx
    split at hx
    · simp at hx
    · split at hx
      · simp at hx
      · split at hx
        · exact toFloat_error (Option.some.inj hx) ⟨line, msg, rfl⟩
        · split at hx
          · simp at hx
          · exact toFloat_error (Option.some.inj hx) ⟨line, msg, rfl⟩

theorem Unreadable.not_configError {x : Str} {e : Exn} (h : Unreadable x e) : ¬ IsConfigError e := by
  rcases h with ⟨-, h⟩ | ⟨-, h⟩
  · exact stof_error h
  · exact stoi_error h

/-- The next significant piece is all that matters. -/
theorem MisreadValue.of_significant {ps qs : List Str} {e : Exn} (h : MisreadValue ps e)
    (hs : significant ps = significant qs) : MisreadValue qs e := by
  cases h with
  | word h hx he => exact .word (hs.symm.trans h) hx he
  | eof h he => exact .eof (hs.symm.trans h) he
  | dict h hd => exact .dict (hs.symm.trans h) hd
  | array h ha => exact .array (hs.symm.trans h) ha

/-! ## Where the parser fails -/

/-- Whatever `m` throws is a `config_error`, or `B` accounts for it. -/
def Fails {α : Type} (text : Str) (m : TokM α) (before : List Str) (B : Exn → Prop) : Prop :=
  ∀ e, m (reader text true before) = .error (.throws e) → IsConfigError e ∨ B e

section

variable {α β : Type} {text : Str} {before after : List Str} {m : TokM α} {f : α → TokM β}
  {R : α → List Str → Prop} {B : Exn → Prop}

theorem Fails.pure (x : α) : Fails text (Pure.pure x) before B := by
  intro e h
  change Except.ok _ = Except.error _ at h
  exact absurd h (by simp)

theorem Fails.mono {B' : Exn → Prop} (h : Fails text m before B) (hb : ∀ e, B e → B' e) :
    Fails text m before B' := fun e he => (h e he).imp id (hb e)

/-- The successes of `m` are known from what it reads. -/
theorem Fails.bind (ho : Outcome text m before R) (hm : Fails text m before B)
    (hf : ∀ x b a, Left text b a → R x a → Fails text (f x) b B) : Fails text (m >>= f) before B := by
  intro e h
  rcases ho with ⟨x, b, a, hrun, hleft, hr⟩ | ⟨e', hrun⟩
  · rw [bind_ok hrun] at h
    exact hf x b a hleft hr e h
  · rw [bind_error hrun] at h
    obtain rfl := Fault.throws.inj (Except.error.inj h)
    exact hm e' hrun

theorem Fails.next {f : Str → TokM β} (h : Left text before after)
    (hcons : ∀ x b a, significant after = x :: a → Left text b (x :: a) → a ≠ [] →
      a.length < after.length → Fails text (f x) (x :: b) B)
    (hnil : ∀ b, significant after = [] → Left text (newline :: b) [] →
      Fails text (f []) (newline :: b) B) : Fails text (Tokenizer.next >>= f) before B := by
  intro e he
  cases hs : significant after with
  | nil =>
    obtain ⟨b, hrun, hleft⟩ := next_nil h hs
    rw [bind_ok hrun] at he
    exact hnil b hs hleft e he
  | cons x a =>
    obtain ⟨b, hrun, hleft⟩ := next_cons h hs
    rw [bind_ok hrun] at he
    have ha := (left_cons.mpr hleft).ne_nil (significant_ne_newline hs)
    exact hcons x b a hs hleft ha (significant_length hs) e he

theorem Fails.rewind {f : Unit → TokM β} {x : Str} {b : List Str} (h : Fails text (f ()) b B) :
    Fails text (Tokenizer.rewind >>= f) (x :: b) B := by
  intro e he
  rw [bind_ok (rewind_reader true x b)] at he
  exact h e he

/-- What `assert_msg` throws is a `config_error`. -/
theorem Fails.assertMsg {f : Unit → TokM β} {test : Bool} {msg x : Str} {b : List Str}
    (h : test → Fails text (f ()) (x :: b) B) :
    Fails text (Toml.assertMsg test msg >>= f) (x :: b) B := by
  cases test with
  | true => exact h rfl
  | false =>
    intro e he
    change Except.error (Fault.throws (assertError _ msg)) = Except.error (Fault.throws e) at he
    cases he
    exact Or.inl ⟨_, _, rfl⟩

/-- What `lift` throws is what the function of the standard library throws. -/
theorem Fails.lift {r : Except Exn α} (h : ∀ e, r = .error e → B e) :
    Fails text (Toml.lift r) before B := by
  intro e he
  cases r with
  | ok x =>
    change Except.ok _ = Except.error _ at he
    exact absurd he (by simp)
  | error e' =>
    change Except.error (Fault.throws e') = Except.error (Fault.throws e) at he
    obtain rfl := Fault.throws.inj (Except.error.inj he)
    exact Or.inr (h _ rfl)

theorem Fails.ite {c : Prop} [Decidable c] {m m' : TokM α} (h : c → Fails text m before B)
    (hn : ¬c → Fails text m' before B) : Fails text (if c then m else m') before B := by
  by_cases hc : c
  · rw [if_pos hc]
    exact h hc
  · rw [if_neg hc]
    exact hn hc

end

/-! ## One lemma for each function -/

section

variable {text : Str}

theorem stringLoop_fails {fin : Char} {fuel : ℕ} (ss : Str) {before after : List Str}
    (h : Left text before after) {e : Exn}
    (he : stringLoop fin fuel ss (reader text false before) = .error (.throws e)) :
    IsConfigError e := by
  induction fuel generalizing before after ss with
  | zero =>
    change Except.error Fault.diverges = Except.error (Fault.throws e) at he
    exact absurd he (by simp)
  | succ fuel ih =>
    rw [stringLoop] at he
    cases hv : verbatim after with
    | nil =>
      obtain ⟨b, hrun⟩ := next_verbatim_nil h hv
      rw [bind_ok hrun, if_pos rfl] at he
      change Except.error (Fault.throws (Exn.configError _ unterminated)) =
        Except.error (Fault.throws e) at he
      cases he
      exact ⟨_, _, rfl⟩
    | cons x a =>
      obtain ⟨b, hrun, hleft⟩ := next_verbatim_cons h hv
      have hx : x ≠ [] := Cut.ne_nil hleft (by simp)
      rw [bind_ok hrun, if_neg hx] at he
      by_cases hc : x = [fin]
      · rw [if_pos hc] at he
        change Except.ok _ = Except.error _ at he
        exact absurd he (by simp)
      · rw [if_neg hc] at he
        exact ih (ss ++ x) (left_cons.mpr hleft) he

theorem parseString_fails {fin : Char} {fuel : ℕ} {before after : List Str}
    (h : Left text before after) {B : Exn → Prop} : Fails text (parseString fuel fin) before B := by
  intro e he
  rw [parseString, bind_ok (skip_false before)] at he
  left
  cases hrun : stringLoop fin fuel [] (reader text false before) with
  | ok r =>
    rw [bind_ok hrun] at he
    change Except.ok _ = Except.error _ at he
    exact absurd he (by simp)
  | error f =>
    rw [bind_error hrun] at he
    rw [Except.error.inj he] at hrun
    exact stringLoop_fails [] h hrun

/-- What `parse_value` throws is accounted for by the pieces that are left. -/
def ValueFails (text : Str) (fuel : ℕ) : Prop :=
  ∀ before after, Left text before after → after ≠ [] → 2 * after.length < fuel →
    Fails text (parseValue fuel) before (MisreadValue after)

def DictFails (text : Str) (fuel : ℕ) : Prop :=
  ∀ glob dic before after, Left text before after → after ≠ [] → 2 * after.length + 1 < fuel →
    Fails text (parseDict fuel glob dic) before (MisreadEntries glob after)

def ArrayFails (text : Str) (fuel : ℕ) : Prop :=
  ∀ arr before after, Left text before after → after ≠ [] → 2 * after.length + 1 < fuel →
    Fails text (parseArray fuel arr) before (MisreadElements after)

theorem parseDict_fails {fuel : ℕ} (hvalue : ValueFails text fuel) (hdict : DictFails text fuel) :
    DictFails text (fuel + 1) := by
  intro glob dic before after h ha hfuel
  rw [parseDict]
  refine Fails.next h (fun name b a hs hleft ha₁ hlen => ?_) (fun b hs hleft => ?_)
  · have hname : name ≠ [] := Cut.ne_nil hleft (by simp)
    refine Fails.ite (fun _ => .rewind (.pure _)) (fun hstop => ?_)
    have hbr : name ≠ lbracket := fun hbr => hstop (Or.inr hbr)
    refine Fails.next (left_cons.mpr hleft) (fun eq b₂ a₂ hs₂ hleft₂ ha₂ hlen₂ => ?_)
      (fun b₂ _ _ => ?_)
    · apply Fails.assertMsg
      intro heq
      obtain rfl : eq = equals := of_decide_eq_true heq
      have hl₂ := left_cons.mpr hleft₂
      refine Fails.bind ((outcomes text fuel).1 _ _ hl₂ ha₂ (by omega))
        ((hvalue _ _ hl₂ ha₂ (by omega)).mono fun e hv => .value hs hbr hs₂ hv) ?_
      rintro v b₃ a₃ hleft₃ ⟨ha₃, hv, hlen₃⟩
      cases glob with
      | true => exact (hdict true _ b₃ a₃ hleft₃ ha₃ (by omega)).mono fun e hk => .entry hs hbr hs₂ hv hk
      | false =>
        refine Fails.next hleft₃ (fun x b₄ a₄ hs₄ hleft₄ ha₄ hlen₄ => ?_) (fun b₄ _ _ => ?_)
        · apply Fails.assertMsg
          intro hx
          refine Fails.ite (fun _ => .pure _) (fun hbrace => ?_)
          obtain rfl : x = comma := (of_decide_eq_true hx).resolve_left hbrace
          exact (hdict false _ _ a₄ (left_cons.mpr hleft₄) ha₄ (by omega)).mono
            fun e hk => .more hs hbr hs₂ hv hs₄ hk
        · exact Fails.assertMsg fun hx => absurd hx (by decide)
    · exact Fails.assertMsg fun hx => absurd hx (by decide)
  · rw [if_pos (Or.inl rfl)]
    exact .rewind (.pure _)

theorem parseArray_fails {fuel : ℕ} (hvalue : ValueFails text fuel) (harray : ArrayFails text fuel) :
    ArrayFails text (fuel + 1) := by
  intro arr before after h ha hfuel
  rw [parseArray]
  refine Fails.next h (fun x b a hs hleft ha₁ hlen => ?_) (fun b hs hleft => ?_)
  · refine Fails.ite (fun hx => ?_) (fun _ => .pure _)
    have hn : ∀ ps', significant after ≠ rbracket :: ps' := by
      intro ps' h
      rw [hs] at h
      exact hx (List.cons.inj h).1
    have hsame : significant (x :: a) = significant after := (significant_idem hs).trans hs.symm
    have hfuel' : 2 * (x :: a).length < fuel := by
      rw [List.length_cons]
      omega
    refine Fails.rewind (Fails.bind ((outcomes text fuel).1 _ _ hleft (by simp) hfuel')
      ((hvalue _ _ hleft (by simp) hfuel').mono fun e hv => .value hn (hv.of_significant hsame)) ?_)
    rintro v b₂ a₂ hleft₂ ⟨ha₂, hv, hlen₂⟩
    have hv : IsValue after v a₂ := hv.of_significant hsame.symm
    simp only [List.length_cons] at hlen₂
    refine Fails.next hleft₂ (fun t b₃ a₃ hs₃ hleft₃ ha₃ hlen₃ => ?_) (fun b₃ _ _ => ?_)
    · apply Fails.assertMsg
      intro ht
      refine Fails.ite (fun _ => .pure _) (fun hbr => ?_)
      obtain rfl : t = comma := (of_decide_eq_true ht).resolve_right hbr
      exact (harray _ _ a₃ (left_cons.mpr hleft₃) ha₃ (by omega)).mono fun e hk => .more hn hv hs₃ hk
    · exact Fails.assertMsg fun ht => absurd ht (by decide)
  · -- the parser goes back over the last end of line and finds nothing again
    rw [if_pos (by decide)]
    have hpos := List.length_pos_iff.mpr ha
    have hfuel' : 2 * [newline].length < fuel := by
      rw [List.length_singleton]
      omega
    have hn : ∀ ps', significant after ≠ rbracket :: ps' := by
      intro ps' h
      rw [hs] at h
      exact absurd h (by simp)
    have hsame : significant [newline] = significant after := significant_newline.trans hs.symm
    refine Fails.rewind (Fails.bind ((outcomes text fuel).1 b [newline] (left_cons.mp hleft) (by simp) hfuel')
      ((hvalue b [newline] (left_cons.mp hleft) (by simp) hfuel').mono
        fun e hv => .value hn (hv.of_significant hsame)) ?_)
    rintro v b₂ a₂ - ⟨-, hv, -⟩
    exact absurd significant_newline hv.significant_ne_nil

/-- A number is read from the next significant piece. -/
theorem number_fails {α : Type} (read : Str → Except Exn α) {before after a : List Str} {x : Str}
    (h : Left text before after) (hs : significant after = x :: a) :
    Fails text (next >>= fun x => lift (read x)) before fun e => read x = .error e := by
  refine Fails.next h (fun z b a' hs' hleft ha hlen => ?_) (fun b hs' _ => ?_)
  · obtain ⟨rfl, rfl⟩ := List.cons.inj (hs.symm.trans hs')
    exact Fails.lift fun e he => he
  · rw [hs] at hs'
    exact absurd hs' (by simp)

theorem parseValue_fails {fuel : ℕ} (hdict : DictFails text fuel) (harray : ArrayFails text fuel) :
    ValueFails text (fuel + 1) := by
  intro before after h ha hfuel
  rw [parseValue]
  refine Fails.next h (fun x b a hs hleft ha₁ hlen => ?_) (fun b hs hleft => ?_)
  · have hl := left_cons.mpr hleft
    refine Fails.ite (fun h1 => ?_) (fun h1 => ?_)
    · subst h1
      exact Fails.bind ((outcomes text fuel).2.1 false [] _ a hl ha₁ (by omega))
        ((hdict false [] _ a hl ha₁ (by omega)).mono fun e hd => .dict hs hd) fun _ _ _ _ _ => .pure _
    refine Fails.ite (fun h2 => ?_) (fun h2 => ?_)
    · subst h2
      exact Fails.bind ((outcomes text fuel).2.2 [] _ a hl ha₁ (by omega))
        ((harray [] _ a hl ha₁ (by omega)).mono fun e hk => .array hs hk) fun _ _ _ _ _ => .pure _
    refine Fails.ite (fun h3 => ?_) (fun h3 => ?_)
    · exact Fails.bind (parseString_outcome (by decide) hl (by omega)) (parseString_fails hl)
        fun _ _ _ _ _ => .pure _
    refine Fails.ite (fun h4 => ?_) (fun h4 => ?_)
    · exact Fails.bind (parseString_outcome (by decide) hl (by omega)) (parseString_fails hl)
        fun _ _ _ _ _ => .pure _
    refine Fails.ite (fun _ => .pure _) (fun h5 => ?_)
    refine Fails.ite (fun _ => .pure _) (fun h6 => ?_)
    have hs' := significant_idem hs
    have hw : Word x := ⟨h1, h2, h3, h4, h5, h6⟩
    refine Fails.rewind (Fails.ite (fun hp => ?_) (fun hp => ?_))
    · exact Fails.bind (number_outcome Numbers.stof hleft hs')
        ((number_fails Numbers.stof hleft hs').mono fun e he => .word hs hw (Or.inl ⟨hp, he⟩))
        fun _ _ _ _ _ => .pure _
    · exact Fails.bind (number_outcome Numbers.stoi hleft hs')
        ((number_fails Numbers.stoi hleft hs').mono fun e he => .word hs hw (Or.inr ⟨hp, he⟩))
        fun _ _ _ _ _ => .pure _
  · -- the empty token is read as a number
    have hl := left_cons.mp hleft
    refine Fails.rewind (x := newline) ?_
    rw [if_neg List.not_mem_nil]
    refine Fails.bind (R := fun _ _ => True) ?_ ?_ fun _ _ _ _ _ => .pure _
    · refine Outcome.next hl (fun y b₂ a₂ hs₂ _ _ _ => ?_) (fun b₂ _ hleft₂ => ?_)
      · rw [significant_newline] at hs₂
        exact absurd hs₂ (by simp)
      · exact .throw .invalidArgument
    · refine Fails.next hl (fun y b₂ a₂ hs₂ _ _ _ => ?_) (fun b₂ _ _ => ?_)
      · rw [significant_newline] at hs₂
        exact absurd hs₂ (by simp)
      · exact Fails.lift fun e he => .eof hs (Or.inr ⟨List.not_mem_nil, he⟩)

theorem fails (text : Str) (fuel : ℕ) :
    ValueFails text fuel ∧ DictFails text fuel ∧ ArrayFails text fuel := by
  induction fuel with
  | zero =>
    refine ⟨?_, ?_, ?_⟩
    · intro _ _ _ _ h
      omega
    · intro _ _ _ _ _ _ h
      omega
    · intro _ _ _ _ _ h
      omega
  | succ fuel ih =>
    obtain ⟨hvalue, hdict, harray⟩ := ih
    exact ⟨parseValue_fails hdict harray, parseDict_fails hvalue hdict, parseArray_fails hvalue harray⟩

theorem sections_fails (fuel : ℕ) : ∀ dic before after, Left text before after → after ≠ [] →
    2 * after.length < fuel → Fails text (sections fuel dic) before (MisreadSections after) := by
  induction fuel with
  | zero =>
    intro _ _ _ _ _ h
    omega
  | succ fuel ih =>
    intro dic before after h ha hfuel
    rw [sections]
    refine Fails.next h (fun x b a hs hleft ha₁ hlen => ?_) (fun b hs hleft => ?_)
    · apply Fails.assertMsg
      intro _
      refine Fails.ite (fun hx => ?_) (fun _ => .pure _)
      subst hx
      refine Fails.next (left_cons.mpr hleft) (fun name b₂ a₂ hs₂ hleft₂ ha₂ hlen₂ => ?_)
        (fun b₂ hs₂ hleft₂ => ?_)
      · refine Fails.next (left_cons.mpr hleft₂) (fun y b₃ a₃ hs₃ hleft₃ ha₃ hlen₃ => ?_)
          (fun b₃ _ _ => ?_)
        · apply Fails.assertMsg
          intro hy
          obtain rfl : y = rbracket := of_decide_eq_true hy
          have hl₃ := left_cons.mpr hleft₃
          refine Fails.bind ((outcomes text fuel).2.1 true [] _ a₃ hl₃ ha₃ (by omega))
            (((fails text fuel).2.1 true [] _ a₃ hl₃ ha₃ (by omega)).mono
              fun e hk => .entries hs hs₂ hs₃ hk) ?_
          rintro d b₄ a₄ hleft₄ ⟨ha₄, hle, kvs, hkvs, rfl⟩
          exact (ih _ b₄ a₄ hleft₄ ha₄ (by omega)).mono fun e he => .more hs hs₂ hs₃ hkvs he
        · exact Fails.assertMsg fun hy => absurd hy (by decide)
      · refine Fails.next hleft₂ (fun y b₃ a₃ hs₃ _ _ _ => ?_) (fun b₃ _ _ => ?_)
        · exact absurd hs₃ (by simp [significant])
        · exact Fails.assertMsg fun hy => absurd hy (by decide)
    · refine Fails.assertMsg fun _ => Fails.ite (fun hx => ?_) (fun _ => .pure _)
      exact absurd hx (by simp [lbracket])

/-! ## Every misread text makes the parser fail -/

/-- With fuel for the pieces that are left, `parse_value` throws what the conversion throws. -/
def ValueRaises (text : Str) (fuel : ℕ) : Prop :=
  ∀ before after e, MisreadValue after e → Left text before after → 2 * after.length < fuel →
    parseValue fuel (reader text true before) = .error (.throws e)

def DictRaises (text : Str) (fuel : ℕ) : Prop :=
  ∀ glob dic before after e, MisreadEntries glob after e → Left text before after →
    2 * after.length + 1 < fuel →
    parseDict fuel glob dic (reader text true before) = .error (.throws e)

def ArrayRaises (text : Str) (fuel : ℕ) : Prop :=
  ∀ arr before after e, MisreadElements after e → Left text before after → after ≠ [] →
    2 * after.length + 1 < fuel →
    parseArray fuel arr (reader text true before) = .error (.throws e)

theorem parseDict_raises {fuel : ℕ} (hvalue : ValueRaises text fuel) (hdict : DictRaises text fuel) :
    DictRaises text (fuel + 1) := by
  intro glob dic before after e hm h hfuel
  have hcomplete := (complete text fuel).1
  cases hm with
  | value hs hn he hv =>
    obtain ⟨b₁, hrun₁, hleft₁, hx₁, -, hlen₁⟩ := next_bind h hs
    obtain ⟨b₂, hrun₂, hleft₂, -, -, hlen₂⟩ := next_bind (left_cons.mpr hleft₁) he
    rw [parseDict, hrun₁, if_neg (by simp [hx₁, hn]), hrun₂, bind_ok (assertMsg_ok (by simp) _ _)]
    exact bind_error (hvalue _ _ e hv (left_cons.mpr hleft₂) (by omega))
  | @entry _ _ _ _ name v _ hs hn he hv hk =>
    obtain ⟨b₁, hrun₁, hleft₁, -, hlen₁⟩ :=
      parseDict_entry hcomplete true dic h (by omega) hs hn he hv
    rw [hrun₁, if_pos rfl]
    exact hdict true _ _ _ e hk hleft₁ (by omega)
  | @more _ _ _ _ _ name v _ hs hn he hv hc hk =>
    obtain ⟨b₁, hrun₁, hleft₁, -, hlen₁⟩ :=
      parseDict_entry hcomplete false dic h (by omega) hs hn he hv
    obtain ⟨b₂, hrun₂, hleft₂, -, ha₂, hlen₂⟩ := next_bind hleft₁ hc
    rw [hrun₁, if_neg (by simp), hrun₂, bind_ok (assertMsg_ok (by simp) _ _), if_neg (by decide)]
    exact hdict false _ _ _ e hk (left_cons.mpr hleft₂) (by omega)

theorem parseArray_raises {fuel : ℕ} (hvalue : ValueRaises text fuel)
    (harray : ArrayRaises text fuel) : ArrayRaises text (fuel + 1) := by
  intro arr before after e hm h ha hfuel
  rw [parseArray]
  cases hm with
  | value hn hv =>
    cases hs : significant after with
    | nil =>
      obtain ⟨b, hrun, hleft⟩ := next_nil h hs
      have hsame : significant after = significant [newline] := hs.trans significant_newline.symm
      have hpos := List.length_pos_iff.mpr ha
      rw [bind_ok hrun, if_pos (by decide), bind_ok (rewind_reader true newline b)]
      exact bind_error (hvalue _ _ e (hv.of_significant hsame) (left_cons.mp hleft)
        (by rw [List.length_singleton]; omega))
    | cons x a =>
      obtain ⟨b, hrun, hleft⟩ := next_cons h hs
      have hlen := significant_length hs
      have hsame : significant after = significant (x :: a) := hs.trans (significant_idem hs).symm
      rw [bind_ok hrun, if_pos fun hx => hn a (by rw [hs, hx]), bind_ok (rewind_reader true x b)]
      exact bind_error (hvalue _ _ e (hv.of_significant hsame) hleft
        (by rw [List.length_cons]; omega))
  | more hn hv hc hk =>
    obtain ⟨x, b₁, b₂, hrun₁, hx, hrun₂, hleft₂, -, hlen₂⟩ :=
      parseArray_value (complete text fuel).1 h hn hv (by omega)
    obtain ⟨b₃, hrun₃, hleft₃, -, ha₃, hlen₃⟩ := next_bind hleft₂ hc
    rw [bind_ok hrun₁, if_pos hx, bind_ok (rewind_reader true x b₁), bind_ok hrun₂, hrun₃,
      bind_ok (assertMsg_ok (by simp) _ _), if_neg (by decide)]
    exact harray _ _ _ e hk (left_cons.mpr hleft₃) ha₃ (by omega)

theorem parseValue_raises {fuel : ℕ} (hdict : DictRaises text fuel)
    (harray : ArrayRaises text fuel) : ValueRaises text (fuel + 1) := by
  intro before after e hm h hfuel
  rw [parseValue]
  cases hm with
  | word hs hx he =>
    obtain ⟨b₁, hrun₁, hleft₁, -, -, hlen₁⟩ := next_bind h hs
    rw [hrun₁, hx.ite, bind_ok (rewind_reader true _ b₁)]
    rcases he with ⟨hp, he⟩ | ⟨hp, he⟩
    · obtain ⟨b, hrun, -⟩ := next_bind hleft₁ (significant_idem hs)
      rw [if_pos hp, parseFloat, bind_assoc, hrun, he]
      rfl
    · obtain ⟨b, hrun, -⟩ := next_bind hleft₁ (significant_idem hs)
      rw [if_neg hp, parseInt, bind_assoc, hrun, he]
      rfl
  | eof hs he =>
    obtain ⟨b₁, hrun₁, hleft₁⟩ := next_nil h hs
    obtain ⟨b, hrun, -⟩ := next_nil (left_cons.mp hleft₁) significant_newline
    have hint : Numbers.stoi [] = .error e :=
      he.elim (fun hfloat => absurd hfloat.1 List.not_mem_nil) And.right
    rw [bind_ok hrun₁, if_neg (by decide), if_neg (by decide), if_neg (by decide),
      if_neg (by decide), if_neg (by decide), if_neg (by decide),
      bind_ok (rewind_reader true newline b₁), if_neg List.not_mem_nil, parseInt, bind_assoc,
      bind_ok hrun, hint]
    rfl
  | dict hs hd =>
    obtain ⟨b₁, hrun₁, hleft₁, -, -, hlen₁⟩ := next_bind h hs
    rw [hrun₁, if_pos rfl]
    exact bind_error (hdict false [] _ _ e hd (left_cons.mpr hleft₁) (by omega))
  | array hs ha =>
    obtain ⟨b₁, hrun₁, hleft₁, -, ha₁, hlen₁⟩ := next_bind h hs
    rw [hrun₁, if_neg (by decide), if_pos rfl]
    exact bind_error (harray [] _ _ e ha (left_cons.mpr hleft₁) ha₁ (by omega))

theorem raises (text : Str) (fuel : ℕ) :
    ValueRaises text fuel ∧ DictRaises text fuel ∧ ArrayRaises text fuel := by
  induction fuel with
  | zero =>
    refine ⟨?_, ?_, ?_⟩
    · intro _ _ _ _ _ h
      omega
    · intro _ _ _ _ _ _ _ h
      omega
    · intro _ _ _ _ _ _ _ h
      omega
  | succ fuel ih =>
    obtain ⟨hvalue, hdict, harray⟩ := ih
    exact ⟨parseValue_raises hdict harray, parseDict_raises hvalue hdict,
      parseArray_raises hvalue harray⟩

theorem sections_raises {after : List Str} {e : Exn} (hm : MisreadSections after e) :
    ∀ {fuel : ℕ} (dic : Dict) {before : List Str}, Left text before after → 2 * after.length < fuel →
      sections fuel dic (reader text true before) = .error (.throws e) := by
  induction hm with
  | entries hs hn hc hk =>
    intro fuel dic before h hfuel
    obtain ⟨fuel, rfl⟩ := Nat.exists_eq_succ_of_ne_zero (Nat.ne_of_gt (Nat.zero_lt_of_lt hfuel))
    obtain ⟨b₁, hrun₁, hleft₁, -, -, hlen₁⟩ := next_bind h hs
    obtain ⟨b₂, hrun₂, hleft₂, -, -, hlen₂⟩ := next_bind (left_cons.mpr hleft₁) hn
    obtain ⟨b₃, hrun₃, hleft₃, -, -, hlen₃⟩ := next_bind (left_cons.mpr hleft₂) hc
    rw [sections, hrun₁, bind_ok (assertMsg_ok (by simp) _ _), if_pos rfl, hrun₂, hrun₃,
      bind_ok (assertMsg_ok (by simp) _ _)]
    exact bind_error ((raises text fuel).2.1 true [] _ _ _ hk (left_cons.mpr hleft₃) (by omega))
  | @more _ _ _ _ _ name kvs _ hs hn hc hk _ ih =>
    intro fuel dic before h hfuel
    obtain ⟨fuel, rfl⟩ := Nat.exists_eq_succ_of_ne_zero (Nat.ne_of_gt (Nat.zero_lt_of_lt hfuel))
    obtain ⟨b₁, hrun₁, hleft₁, -, -, hlen₁⟩ := next_bind h hs
    obtain ⟨b₂, hrun₂, hleft₂, -, -, hlen₂⟩ := next_bind (left_cons.mpr hleft₁) hn
    obtain ⟨b₃, hrun₃, hleft₃, -, ha₃, hlen₃⟩ := next_bind (left_cons.mpr hleft₂) hc
    obtain ⟨b₄, hrun₄, hleft₄, -, hlen₄⟩ :=
      (complete text fuel).2.1 true [] _ _ _ _ hk (left_cons.mpr hleft₃) ha₃ (by omega)
    rw [sections, hrun₁, bind_ok (assertMsg_ok (by simp) _ _), if_pos rfl, hrun₂, hrun₃,
      bind_ok (assertMsg_ok (by simp) _ _), bind_ok hrun₄]
    exact ih (dic.insert name (.dict (build kvs))) hleft₄ (show _ < fuel by omega)

end

/-! ## The parser -/

mutual

theorem MisreadValue.not_configError {ps : List Str} {e : Exn} :
    MisreadValue ps e → ¬ IsConfigError e
  | .word _ _ he => he.not_configError
  | .eof _ he => he.not_configError
  | .dict _ hd => hd.not_configError
  | .array _ ha => ha.not_configError

theorem MisreadEntries.not_configError {glob : Bool} {ps : List Str} {e : Exn} :
    MisreadEntries glob ps e → ¬ IsConfigError e
  | .value _ _ _ hv => hv.not_configError
  | .entry _ _ _ _ hk => hk.not_configError
  | .more _ _ _ _ _ hk => hk.not_configError

theorem MisreadElements.not_configError {ps : List Str} {e : Exn} :
    MisreadElements ps e → ¬ IsConfigError e
  | .value _ hv => hv.not_configError
  | .more _ _ _ hk => hk.not_configError

end

theorem MisreadSections.not_configError {ps : List Str} {e : Exn} (h : MisreadSections ps e) :
    ¬ IsConfigError e := by
  induction h with
  | entries _ _ _ hk => exact hk.not_configError
  | more _ _ _ _ _ ih => exact ih

/-- The parser throws something else than a `config_error` exactly for the misread texts. -/
theorem parse_throws_iff {text : Str} {e : Exn} (he : ¬ IsConfigError e) :
    parse text = .error (.throws e) ↔ Misread text e := by
  have hlen := length_pieces text
  have hstart : tokenizer text = reader text true [] := rfl
  constructor
  · intro h
    refine (sections_fails (2 * text.length + 3) [] [] _ (left_start text) (by simp [newline])
      (by omega) e ?_).resolve_left he
    rw [parse, hstart, StateT.run'] at h
    cases hrun : sections (2 * text.length + 3) [] (reader text true []) with
    | ok r =>
      rw [hrun] at h
      change Except.ok _ = Except.error _ at h
      exact absurd h (by simp)
    | error f =>
      rw [hrun] at h
      change Except.error f = Except.error (Fault.throws e) at h
      rw [Except.error.inj h]
  · intro h
    have hrun := sections_raises h [] (left_start text) (show _ < 2 * text.length + 3 by omega)
    rw [parse, hstart, StateT.run', hrun]
    rfl

/-- A text that the parser does not accept makes it throw a `config_error`, exactly unless a word
stands where a value is expected, behind a well-formed beginning, and is no number. -/
theorem parse_configError_iff (text : Str) :
    (∀ f, parse text = .error f → ∃ line msg, f = .throws (.configError line msg)) ↔
      ¬ ∃ e, Misread text e := by
  constructor
  · rintro h ⟨e, hm⟩
    have he : ¬ IsConfigError e := MisreadSections.not_configError hm
    obtain ⟨line, msg, heq⟩ := h _ ((parse_throws_iff he).mpr hm)
    exact he ⟨line, msg, Fault.throws.inj heq⟩
  · intro h f hf
    obtain ⟨e, rfl⟩ := parse_throws hf
    by_cases he : IsConfigError e
    · obtain ⟨line, msg, rfl⟩ := he
      exact ⟨line, msg, rfl⟩
    · exact absurd ⟨e, (parse_throws_iff he).mp hf⟩ h

/-- A section with an entry whose value is an unquoted word. -/
def unquoted : Str := "[vm]\nname = v1".toList

theorem parse_unquoted :
    parse unquoted = .error (.throws .invalidArgument) ∧
      ¬ ∃ line msg, Fault.throws .invalidArgument = .throws (.configError line msg) := by
  refine ⟨rfl, ?_⟩
  rintro ⟨line, msg, h⟩
  exact absurd h (by simp)

end Toml
