import DioMonitor.Net.Addr
import DioMonitor.Utils.Proofs.NumbersProofs
import DioMonitor.Utils.Proofs.ReaderProofs

/-!
# Proofs: socket addresses

The constructor accepts every text whose delimiters are in their places, whatever stands between them
(`ofString_run`). It is therefore exact on the addresses and on the texts in which some delimiter is
missing, and on no others (`exact_iff`).
-/

namespace SockAddrV4

open Lexing Tokenizer

open StateExcept

/-! ## Tokens -/

theorem delimiters_single : ∀ d ∈ delimiters, d.length = 1 := by decide

theorem space_mem_delimiters : [' '] ∈ delimiters := by decide

/-- A delimiter that is no space. -/
def Mark (c : Char) : Prop := [c] ∈ delimiters ∧ [c] ≠ [' ']

theorem mark_dot : Mark '.' := ⟨by decide, by decide⟩

theorem mark_colon : Mark ':' := ⟨by decide, by decide⟩

theorem tokensOf_space (s : Str) : tokensOf (' ' :: s) = tokensOf s := by
  rw [tokensOf, pieces_delimiter delimiters_single space_mem_delimiters]
  rfl

theorem tokensOf_mark {c : Char} (hc : Mark c) (s : Str) : tokensOf (c :: s) = [c] :: tokensOf s := by
  rw [tokensOf, pieces_delimiter delimiters_single hc.1, List.filter_cons_of_pos (by simpa using hc.2)]
  rfl

theorem tokensOf_word {w t : Str} (hne : w ≠ []) (hw : ∀ c ∈ w, [c] ∉ delimiters)
    (ht : Begins delimiters t) : tokensOf (w ++ t) = w :: tokensOf t := by
  have hb : w ≠ [' '] := by
    rintro rfl
    exact hw ' ' List.mem_cons_self space_mem_delimiters
  rw [tokensOf, pieces_word delimiters_single hne hw ht, List.filter_cons_of_pos (by simpa using hb)]
  rfl

theorem notMem_delimiters_of_isDigit {c : Char} (hc : c.isDigit = true) : [c] ∉ delimiters := by
  intro hmem
  have hcases : c = '.' ∨ c = ':' ∨ c = ' ' := by simpa [delimiters] using hmem
  rcases hcases with rfl | rfl | rfl
  · exact absurd hc (by decide)
  · exact absurd hc (by decide)
  · exact absurd hc (by decide)

/-! ## The tokens of an address -/

/-- A mark, with spaces in front of it. -/
theorem Spaced.mark {c : Char} (hc : Mark c) {toks : List Str} {s : Str}
    (h : Spaced ([c] :: toks) s) :
    ∃ s', Spaced toks s' ∧
      ∀ t, Begins delimiters (s ++ t) ∧ tokensOf (s ++ t) = [c] :: tokensOf (s' ++ t) := by
  generalize hl : [c] :: toks = l at h
  induction h with
  | nil => cases hl
  | @space l s h ih =>
    obtain ⟨s', hs', hread⟩ := ih hl
    refine ⟨s', hs', ?_⟩
    intro t
    rw [List.cons_append, tokensOf_space]
    exact ⟨begins_cons space_mem_delimiters _, (hread t).2⟩
  | @token l s tok h ih =>
    obtain ⟨rfl, rfl⟩ := List.cons.inj hl
    refine ⟨s, h, ?_⟩
    intro t
    exact ⟨begins_cons hc.1 _, tokensOf_mark hc _⟩

/-- A number and the mark behind it, with spaces in front of them. -/
theorem Spaced.number {ds : Str} (hd : Numbers.Digits ds) {c : Char} (hc : Mark c) {toks : List Str}
    {s : Str} (h : Spaced (ds :: [c] :: toks) s) :
    ∃ s', Spaced toks s' ∧ ∀ t, tokensOf (s ++ t) = ds :: [c] :: tokensOf (s' ++ t) := by
  generalize hl : ds :: [c] :: toks = l at h
  induction h with
  | nil => cases hl
  | @space l s h ih =>
    obtain ⟨s', hs', hread⟩ := ih hl
    refine ⟨s', hs', ?_⟩
    intro t
    rw [List.cons_append, tokensOf_space]
    exact hread t
  | @token l s tok h ih =>
    obtain ⟨rfl, rfl⟩ := List.cons.inj hl
    obtain ⟨s', hs', hread⟩ := h.mark hc
    refine ⟨s', hs', ?_⟩
    intro t
    obtain ⟨hbegins, htoks⟩ := hread t
    have hw : ∀ a ∈ ds, [a] ∉ delimiters := fun a ha => notMem_delimiters_of_isDigit (hd.2 a ha)
    rw [List.append_assoc, tokensOf_word hd.1 hw hbegins, htoks]

/-- The text goes on with a character that is no digit, or ends. -/
def Stops (u : Str) : Prop := ∀ c v, u = c :: v → c.isDigit = false

theorem stops_nil : Stops [] := by
  intro c v h
  cases h

/-- The last number of a text. The end of line that the tokenizer adds may be glued to it. -/
theorem Spaced.last {ds : Str} (hd : Numbers.Digits ds) {s : Str} (h : Spaced [ds] s) :
    ∃ u rest, Stops u ∧ tokensOf (s ++ newline) = (ds ++ u) :: rest := by
  generalize hl : [ds] = l at h
  induction h with
  | nil => cases hl
  | @space l s h ih =>
    rw [List.cons_append, tokensOf_space]
    exact ih hl
  | @token l s tok h ih =>
    obtain ⟨rfl, rfl⟩ := List.cons.inj hl
    have hw : ∀ a ∈ ds, [a] ∉ delimiters := fun a ha => notMem_delimiters_of_isDigit (hd.2 a ha)
    cases h with
    | nil =>
      have hw' : ∀ a ∈ ds ++ newline, [a] ∉ delimiters := by
        intro a ha
        rcases List.mem_append.mp ha with ha | ha
        · exact hw a ha
        · obtain rfl := List.mem_singleton.mp ha
          decide
      have hne : ds ++ newline ≠ [] := by simp [newline]
      have hread := tokensOf_word hne hw' (begins_nil delimiters)
      rw [List.append_nil] at hread
      refine ⟨newline, tokensOf [], ?_, ?_⟩
      · intro c v hu
        obtain ⟨rfl, -⟩ := List.cons.inj hu
        decide
      · rw [List.append_nil, hread]
    | @space l s h =>
      have hbegins : Begins delimiters (' ' :: s ++ newline) := begins_cons space_mem_delimiters _
      refine ⟨[], tokensOf (' ' :: s ++ newline), stops_nil, ?_⟩
      rw [List.append_assoc, tokensOf_word hd.1 hw hbegins, List.append_nil]

/-- The tokens of a text that is an address up to the size of its numbers. -/
theorem Spaced.tokens {a b c d p s : Str} (ha : Numbers.Digits a) (hb : Numbers.Digits b)
    (hc : Numbers.Digits c) (hd : Numbers.Digits d) (hp : Numbers.Digits p)
    (h : Spaced [a, ['.'], b, ['.'], c, ['.'], d, [':'], p] s) :
    ∃ u rest, Stops u ∧ tokensOf (s ++ newline) =
      a :: ['.'] :: b :: ['.'] :: c :: ['.'] :: d :: [':'] :: (p ++ u) :: rest := by
  obtain ⟨s₁, h₁, hread₁⟩ := h.number ha mark_dot
  obtain ⟨s₂, h₂, hread₂⟩ := h₁.number hb mark_dot
  obtain ⟨s₃, h₃, hread₃⟩ := h₂.number hc mark_dot
  obtain ⟨s₄, h₄, hread₄⟩ := h₃.number hd mark_colon
  obtain ⟨u, rest, hu, hread₅⟩ := h₄.last hp
  exact ⟨u, rest, hu, by rw [hread₁, hread₂, hread₃, hread₄, hread₅]⟩

/-! ## Reading the tokens -/

/-- The tokenizer that the constructor makes. -/
def reader (addr : Str) : Tokenizer := Tokenizer.new addr delimiters blanks []

/-- The tokens `toks` are left to be read. -/
def Left (addr : Str) (toks : List Str) (t : Tokenizer) : Prop :=
  ∃ before after, t = (reader addr).seek before ∧ Cut (reader addr) before after ∧
    after.filter (· ≠ [' ']) = toks

theorem left_reader (addr : Str) : Left addr (tokensOf (addr ++ newline)) (reader addr) :=
  ⟨[], pieces delimiters (addr ++ newline), rfl, cut_nil (reader addr), rfl⟩

theorem filter_trim (nl : Str) (ps : List Str) :
    (trim blanks [] nl false ps).filter (· ≠ [' ']) = ps.filter (· ≠ [' ']) := by
  induction ps with
  | nil => rw [trim_nil]
  | cons p ps ih =>
    by_cases hp : p = [' ']
    · have hmem : p ∈ blanks := List.mem_singleton.mpr hp
      rw [List.filter_cons_of_neg (by simpa using hp), ← ih, trim]
      simp [hmem]
    · have hmem : p ∉ blanks := List.mem_singleton.not.mpr hp
      rw [trim_cons_of_not_mem List.not_mem_nil hmem]

/-- `next` reads the next token; it reads the empty one at the end of the text. -/
theorem next_left {addr : Str} {toks : List Str} {t : Tokenizer} (h : Left addr toks t) :
    ∃ t', next t = .ok (toks.headD [], t') ∧ Left addr toks.tail t' := by
  obtain ⟨before, after, rfl, hcut, rfl⟩ := h
  have hds : ∀ d ∈ (reader addr).tokens, d ≠ [] := by
    show ∀ d ∈ delimiters, d ≠ []
    decide
  have hcom : [] ∉ (reader addr).comments := List.not_mem_nil
  obtain ⟨b, hnext, hcut'⟩ := next_seek hds hcom hcut
  change Cut (reader addr) b (trim blanks [] newline false after) at hcut'
  rw [hnext, ← filter_trim newline after]
  cases htrim : trim blanks [] newline false after with
  | nil =>
    rw [htrim] at hcut'
    rw [nextPure_seek_nil hcut']
    exact ⟨_, rfl, b, [], rfl, hcut', rfl⟩
  | cons p ps =>
    rw [htrim] at hcut'
    have hp : p ≠ [' '] := List.mem_singleton.not.mp (trim_head htrim).2
    rw [nextPure_seek_cons hds hcut', List.filter_cons_of_pos (by simpa using hp)]
    exact ⟨_, rfl, p :: b, ps, rfl, cut_cons.mpr hcut', rfl⟩

theorem expect_run {addr tok x : Str} {t t' : Tokenizer} (h : next t = .ok (x, t')) :
    expect addr tok t = if x = tok then .ok ((), t') else .error (malformed addr) := by
  rw [expect, bind_ok h]
  by_cases hx : x = tok
  · rw [if_pos hx, if_neg (not_not.mpr hx)]
    rfl
  · rw [if_neg hx, if_pos hx]
    rfl

/-- One part of an address: anything, and then the delimiter `tok`. -/
theorem part_run {addr tok : Str} {toks : List Str} {t : Tokenizer} (htok : tok ≠ [])
    (h : Left addr toks t) :
    (∃ x rest t', toks = x :: tok :: rest ∧ Left addr rest t' ∧ ∀ f : Str → TokM SockAddrV4,
      (next >>= fun x => expect addr tok >>= fun _ => f x) t = f x t') ∨
    (¬ ∃ x rest, toks = x :: tok :: rest) ∧ ∀ f : Str → TokM SockAddrV4,
      (next >>= fun x => expect addr tok >>= fun _ => f x) t = .error (malformed addr) := by
  obtain ⟨t₁, hnext₁, h₁⟩ := next_left h
  obtain ⟨t₂, hnext₂, h₂⟩ := next_left h₁
  have hrun : expect addr tok t₁ =
      if toks.tail.headD [] = tok then .ok ((), t₂) else .error (malformed addr) := expect_run hnext₂
  by_cases hx : toks.tail.headD [] = tok
  · rw [if_pos hx] at hrun
    have hsplit : toks = toks.headD [] :: tok :: toks.tail.tail := by
      cases toks with
      | nil => exact absurd hx.symm htok
      | cons x toks =>
        cases toks with
        | nil => exact absurd hx.symm htok
        | cons y toks => exact congrArg (x :: · :: toks) hx
    refine .inl ⟨_, _, t₂, hsplit, h₂, ?_⟩
    intro f
    rw [bind_ok hnext₁, bind_ok hrun]
  · rw [if_neg hx] at hrun
    refine .inr ⟨?_, ?_⟩
    · rintro ⟨x, rest, rfl⟩
      exact hx rfl
    · intro f
      rw [bind_ok hnext₁, bind_error hrun]

/-- The address made of five numbers, each cut to its width. -/
def narrow (fst scd thd fth port : ℤ) : SockAddrV4 :=
  ⟨⟨UInt8.ofInt fst, UInt8.ofInt scd, UInt8.ofInt thd, UInt8.ofInt fth⟩, UInt16.ofInt port⟩

/-- The constructor accepts exactly the texts with their delimiters in place. -/
theorem ofString_run (s : Str) :
    (∃ x₁ x₂ x₃ x₄ rest, tokensOf (s ++ newline) =
        x₁ :: ['.'] :: x₂ :: ['.'] :: x₃ :: ['.'] :: x₄ :: [':'] :: rest ∧
      ofString s = .ok (narrow (Numbers.atoi x₁) (Numbers.atoi x₂) (Numbers.atoi x₃) (Numbers.atoi x₄)
        (Numbers.atoi (rest.headD [])))) ∨
    ¬ Dotted s ∧ ofString s = .error (malformed s) := by
  have hstart : ofString s = (parse s (reader s)).map Prod.fst := rfl
  have refuse : parse s (reader s) = .error (malformed s) → ofString s = .error (malformed s) := by
    intro h
    rw [hstart, h]
    rfl
  rcases part_run (List.cons_ne_nil '.' []) (left_reader s) with ⟨x₁, r₁, t₁, e₁, h₁, run₁⟩ | ⟨no, run⟩
  swap
  · refine .inr ⟨?_, refuse (run _)⟩
    rintro ⟨x₁, x₂, x₃, x₄, rest, htoks⟩
    exact no ⟨_, _, htoks⟩
  rcases part_run (List.cons_ne_nil '.' []) h₁ with ⟨x₂, r₂, t₂, rfl, h₂, run₂⟩ | ⟨no, run⟩
  swap
  · refine .inr ⟨?_, refuse ?_⟩
    · rintro ⟨x₁, x₂, x₃, x₄, rest, htoks⟩
      rw [e₁] at htoks
      simp only [List.cons.injEq] at htoks
      exact no ⟨_, _, htoks.2.2⟩
    · rw [parse, run₁]
      exact run _
  rcases part_run (List.cons_ne_nil '.' []) h₂ with ⟨x₃, r₃, t₃, rfl, h₃, run₃⟩ | ⟨no, run⟩
  swap
  · refine .inr ⟨?_, refuse ?_⟩
    · rintro ⟨x₁, x₂, x₃, x₄, rest, htoks⟩
      rw [e₁] at htoks
      simp only [List.cons.injEq] at htoks
      exact no ⟨_, _, htoks.2.2.2.2⟩
    · rw [parse, run₁, run₂]
      exact run _
  rcases part_run (List.cons_ne_nil ':' []) h₃ with ⟨x₄, r₄, t₄, rfl, h₄, run₄⟩ | ⟨no, run⟩
  swap
  · refine .inr ⟨?_, refuse ?_⟩
    · rintro ⟨x₁, x₂, x₃, x₄, rest, htoks⟩
      rw [e₁] at htoks
      simp only [List.cons.injEq] at htoks
      exact no ⟨_, _, htoks.2.2.2.2.2.2⟩
    · rw [parse, run₁, run₂, run₃]
      exact run _
  obtain ⟨t₅, hnext, -⟩ := next_left h₄
  refine .inl ⟨x₁, x₂, x₃, x₄, r₄, e₁, ?_⟩
  rw [hstart, parse, run₁, run₂, run₃, run₄, bind_ok hnext]
  rfl

/-! ## Addresses -/

theorem ofInt_toNat8 {n : ℕ} (h : n < 2 ^ 8) : (UInt8.ofInt n).toNat = n := by
  rw [UInt8.ofInt, UInt8.toNat_ofNat']
  omega

theorem ofInt_toNat16 {n : ℕ} (h : n < 2 ^ 16) : (UInt16.ofInt n).toNat = n := by
  rw [UInt16.ofInt, UInt16.toNat_ofNat']
  omega

theorem Writes.atoi {ds u : Str} {n : ℕ} (h : Writes ds n) (hu : Stops u) (hn : n < 2 ^ 16) :
    Numbers.atoi (ds ++ u) = n := by
  obtain ⟨hd, rfl⟩ := h
  exact Numbers.atoi_digits hd hu (by omega)

/-- An address is read as the numbers that it is made of. -/
theorem WellFormed.ofString {s : Str} {A B C D P : ℕ} (h : WellFormed s A B C D P) :
    SockAddrV4.ofString s = .ok (narrow A B C D P) := by
  obtain ⟨⟨hA, hB, hC, hD, hP⟩, a, b, c, d, p, ⟨ha, hb, hc, hd, hp⟩, hs⟩ := h
  obtain ⟨u, rest, hu, htoks⟩ := hs.tokens ha.1 hb.1 hc.1 hd.1 hp.1
  have whole {ds : Str} {n : ℕ} (h : Writes ds n) (hn : n < 2 ^ 8) : Numbers.atoi ds = n := by
    have hread := h.atoi stops_nil (by omega)
    rwa [List.append_nil] at hread
  rcases ofString_run s with ⟨x₁, x₂, x₃, x₄, r, hx, hrun⟩ | ⟨hno, -⟩
  · rw [htoks] at hx
    simp only [List.cons.injEq, true_and] at hx
    obtain ⟨rfl, rfl, rfl, rfl, rfl⟩ := hx
    rw [hrun, whole ha hA, whole hb hB, whole hc hC, whole hd hD, List.headD_cons, hp.atoi hu hP]
  · exact absurd ⟨a, b, c, d, (p ++ u) :: rest, htoks⟩ hno

/-- What is printed for an address is well formed. -/
theorem wellFormed_print (addr : SockAddrV4) : WellFormed addr.print addr.ip.a.toNat addr.ip.b.toNat
    addr.ip.c.toNat addr.ip.d.toNat addr.port.toNat := by
  have hd (n : ℕ) : Writes (Nat.toDigits 10 n) n := Numbers.ofDigits_toDigits n
  refine ⟨⟨addr.ip.a.toNat_lt, addr.ip.b.toNat_lt, addr.ip.c.toNat_lt, addr.ip.d.toNat_lt,
    addr.port.toNat_lt⟩, _, _, _, _, _, ⟨hd _, hd _, hd _, hd _, hd _⟩, ?_⟩
  have hs := Spaced.nil.token (Nat.toDigits 10 addr.port.toNat)
    |>.token [':'] |>.token (Nat.toDigits 10 addr.ip.d.toNat)
    |>.token ['.'] |>.token (Nat.toDigits 10 addr.ip.c.toNat)
    |>.token ['.'] |>.token (Nat.toDigits 10 addr.ip.b.toNat)
    |>.token ['.'] |>.token (Nat.toDigits 10 addr.ip.a.toNat)
  simpa [print, Ipv4Address.print] using hs

/-- An address that is printed and parsed again is the same. -/
theorem ofString_print (addr : SockAddrV4) : ofString addr.print = .ok addr := by
  rw [(wellFormed_print addr).ofString]
  have h8 (x : UInt8) : UInt8.ofInt x.toNat = x := UInt8.toNat_inj.mp (ofInt_toNat8 x.toNat_lt)
  have h16 (x : UInt16) : UInt16.ofInt x.toNat = x := UInt16.toNat_inj.mp (ofInt_toNat16 x.toNat_lt)
  rw [narrow, h8, h8, h8, h8, h16]

/-- The constructor is exact on the addresses and on the texts in which a delimiter is missing. -/
theorem exact_iff (s : Str) :
    Exact s ↔ (∃ A B C D P, WellFormed s A B C D P) ∨ ¬ Dotted s := by
  constructor
  · rintro ⟨-, hrefuse⟩
    by_cases hs : ∃ A B C D P, WellFormed s A B C D P
    · exact .inl hs
    · obtain ⟨msg, hmsg⟩ := hrefuse hs
      rcases ofString_run s with ⟨x₁, x₂, x₃, x₄, rest, -, hrun⟩ | ⟨hno, -⟩
      · rw [hrun] at hmsg
        cases hmsg
      · exact .inr hno
  · intro h
    refine ⟨?_, ?_⟩
    · intro A B C D P hs
      have ⟨hA, hB, hC, hD, hP⟩ := hs.1
      exact ⟨narrow A B C D P, hs.ofString, ⟨ofInt_toNat8 hA, ofInt_toNat8 hB, ofInt_toNat8 hC,
        ofInt_toNat8 hD⟩, ofInt_toNat16 hP, ofString_print _⟩
    · intro hs
      rcases ofString_run s with ⟨x₁, x₂, x₃, x₄, rest, htoks, -⟩ | ⟨-, hrun⟩
      · exact absurd ⟨x₁, x₂, x₃, x₄, rest, htoks⟩ (h.resolve_left hs)
      · exact ⟨_, hrun⟩

/-- `256.1.2.3:80` is read as the address `0.1.2.3:80`. -/
theorem ofString_wraps : ¬ Exact "256.1.2.3:80".toList := by
  intro h
  have hread : ofString "256.1.2.3:80".toList = .ok ⟨⟨0, 1, 2, 3⟩, 80⟩ := by decide
  have hs : Spaced [['2', '5', '6'], ['.'], ['1'], ['.'], ['2'], ['.'], ['3'], [':'], ['8', '0']]
      "256.1.2.3:80".toList := Spaced.nil.token ['8', '0']
    |>.token [':'] |>.token ['3'] |>.token ['.'] |>.token ['2'] |>.token ['.'] |>.token ['1']
    |>.token ['.'] |>.token ['2', '5', '6']
  have digits (c : Char) (cs : Str) (h : (c :: cs).all Char.isDigit = true) :
      Numbers.Digits (c :: cs) := ⟨List.cons_ne_nil c cs, List.all_eq_true.mp h⟩
  obtain ⟨u, rest, -, htoks⟩ := hs.tokens (digits _ _ rfl) (digits _ _ rfl) (digits _ _ rfl)
    (digits _ _ rfl) (digits _ _ rfl)
  by_cases hwf : ∃ A B C D P, WellFormed "256.1.2.3:80".toList A B C D P
  · obtain ⟨A, B, C, D, P, ⟨hA, -⟩, a, b, c, d, p, ⟨ha, hb, hc, hd, hp⟩, hs'⟩ := hwf
    obtain ⟨u', rest', -, htoks'⟩ := hs'.tokens ha.1 hb.1 hc.1 hd.1 hp.1
    obtain rfl := (List.cons.inj (htoks.symm.trans htoks')).1
    have hval : 256 = A := ha.2
    omega
  · obtain ⟨msg, hmsg⟩ := h.2 hwf
    rw [hread] at hmsg
    cases hmsg

end SockAddrV4
