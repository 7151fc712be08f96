import DioMonitor.Utils.IntTokenizer
import DioMonitor.Utils.Proofs.ReaderProofs

/-!
# Proofs: the tokenizer with the integers of the source

For a text that an `int` can count no conversion cuts anything off, so the tokenizer does what
`Tokenizer` does with natural numbers (`Simulates`), and cuts a text into its pieces
(`nextPure_lossless`).
-/

namespace IntTokenizer

open Lexing StateExcept

/-! ## Integers -/

theorem toULong_natCast {n : ℕ} (h : n < 2 ^ 64) : toULong n = n := by
  unfold toULong
  omega

theorem toInt_natCast {n : ℕ} (h : n < 2 ^ 31) : toInt n = n :=
  Int.bmod_eq_of_le (by omega) (by omega)

/-! ## The loop over the delimiters -/

theorem find_add_length {tok s : Str} {i : ℕ} (h : Tokenizer.find tok s = some i) :
    i + tok.length ≤ s.length := by
  induction s generalizing i with
  | nil =>
    unfold Tokenizer.find at h
    split_ifs at h with htok
    · obtain rfl := Option.some.inj h
      simp [htok]
  | cons c s ih =>
    unfold Tokenizer.find at h
    split_ifs at h with htok
    · obtain rfl := Option.some.inj h
      simpa using htok.length_le
    · obtain ⟨j, hj, rfl⟩ := Option.map_eq_some_iff.mp h
      have hle := ih hj
      rw [List.length_cons]
      omega

/-- What the loop finds lies in the text. -/
theorem scan_le {s tok : Str} {r : ℕ × ℕ} (h : r.1 + r.2 ≤ s.length) :
    (Tokenizer.scan s r tok).1 + (Tokenizer.scan s r tok).2 ≤ s.length := by
  unfold Tokenizer.scan
  cases hfind : Tokenizer.find tok s with
  | none => exact h
  | some i =>
    have hle := find_add_length hfind
    dsimp only
    split_ifs with heq hlt
    · dsimp only
      omega
    · exact hle
    · exact h

theorem foldl_scan_le {s : Str} {ds : List Str} {r : ℕ × ℕ} (h : r.1 + r.2 ≤ s.length) :
    (ds.foldl (Tokenizer.scan s) r).1 + (ds.foldl (Tokenizer.scan s) r).2 ≤ s.length := by
  induction ds generalizing r with
  | nil => exact h
  | cons d ds ih => exact ih (scan_le h)

section

variable {content : Str} {cursor : ℕ}

theorem find_eq (hcur : cursor ≤ content.length) (it : Str) :
    find it content cursor =
      ((Tokenizer.find it (content.drop cursor)).map (cursor + ·)).getD npos := by
  unfold find
  rw [if_neg (by omega)]
  cases Tokenizer.find it (content.drop cursor) <;> rfl

/-- Where a delimiter is not found, the distance `npos - cursor` is too large to count. -/
theorem scan_eq (hcur : cursor ≤ content.length) (hlen : content.length < 2 ^ 31) (r : ℕ × ℕ)
    (hr : r.1 + r.2 ≤ (content.drop cursor).length) (it : Str) :
    scan content cursor r it = Tokenizer.scan (content.drop cursor) r it := by
  have hplace : toULong (cursor : ℤ) = cursor := toULong_natCast (by omega)
  have hdrop : (content.drop cursor).length = content.length - cursor := List.length_drop
  unfold scan Tokenizer.scan
  rw [hplace, find_eq hcur]
  cases hfind : Tokenizer.find it (content.drop cursor) with
  | none =>
    have hnpos : usub npos cursor = npos - cursor := usub_of_le (by unfold npos; omega)
    rw [Option.map_none, Option.getD_none, hnpos]
    dsimp only
    split_ifs with hzero heq hlt
    · unfold npos at heq
      omega
    · unfold npos at hlt
      omega
    · rfl
    · rfl
  | some i =>
    have hle := find_add_length hfind
    have hid : usub (cursor + i) cursor = i := by
      rw [usub_of_le (Nat.le_add_right cursor i), Nat.add_sub_cancel_left]
    rw [Option.map_some, Option.getD_some, hid]
    exact if_pos (by unfold npos; omega)

theorem foldl_scan_eq (hcur : cursor ≤ content.length) (hlen : content.length < 2 ^ 31) (ds : List Str)
    (r : ℕ × ℕ) (hr : r.1 + r.2 ≤ (content.drop cursor).length) :
    ds.foldl (scan content cursor) r = ds.foldl (Tokenizer.scan (content.drop cursor)) r := by
  induction ds generalizing r with
  | nil => rfl
  | cons d ds ih =>
    rw [List.foldl_cons, List.foldl_cons, scan_eq hcur hlen r hr]
    exact ih _ (scan_le hr)

end

/-! ## The same tokenizer -/

/-- A tokenizer on a text, with the integers of the source. -/
def ofTokenizer (text : Str) (t : Tokenizer) : IntTokenizer where
  text := text
  tokens := t.tokens
  skips := t.skips
  comments := t.comments
  lastLocs := t.lastLocs.map Nat.cast
  cursor := t.cursor
  doSkip := t.doSkip

/-- The tokenizer reads this text, which an `int` can count, and all its places are in it. -/
structure Fits (text : Str) (t : Tokenizer) : Prop where
  content_eq : t.content = text ++ newline
  cursor_le : t.cursor ≤ t.content.length
  locs_le : ∀ loc ∈ t.lastLocs, loc ≤ t.content.length
  length_lt : t.content.length < 2 ^ 31

theorem fits_new {text : Str} (hlen : text.length < 2 ^ 31 - 1) (tokens skips comments : List Str) :
    Fits text (Tokenizer.new text tokens skips comments) where
  content_eq := rfl
  cursor_le := Nat.zero_le _
  locs_le := fun _ hloc => absurd hloc List.not_mem_nil
  length_lt := by
    rw [Tokenizer.new, List.length_append]
    simp only [newline, List.length_singleton]
    omega

section

variable {text : Str} {t : Tokenizer}

theorem content_ofTokenizer (h : Fits text t) : (ofTokenizer text t).content = t.content :=
  h.content_eq.symm

theorem substr_of_le {s : Str} {pos len : ℕ} (h : pos ≤ s.length) :
    substr s pos len = .ok ((s.drop pos).take len) := if_neg (by omega)

/-- What the loop over the delimiters finds in the text that is left. -/
def found (t : Tokenizer) : ℕ × ℕ :=
  t.tokens.foldl (Tokenizer.scan (t.content.drop t.cursor)) (t.content.length - t.cursor, 0)

theorem Fits.found_le (h : Fits text t) :
    t.cursor + (found t).1 + (found t).2 ≤ t.content.length := by
  have hcur := h.cursor_le
  have hle : (found t).1 + (found t).2 ≤ (t.content.drop t.cursor).length :=
    foldl_scan_le (by rw [List.length_drop, Nat.add_zero])
  rw [List.length_drop] at hle
  omega

theorem nextPure_eq (h : Fits text t) :
    nextPure (ofTokenizer text t) = .ok (t.nextPure.1, ofTokenizer text t.nextPure.2) := by
  have hcur := h.cursor_le
  have hlen := h.length_lt
  have hplace : toULong (t.cursor : ℤ) = t.cursor := toULong_natCast (by omega)
  have hleft : usub t.content.length t.cursor = t.content.length - t.cursor := usub_of_le hcur
  have hscan := foldl_scan_eq hcur hlen t.tokens (t.content.length - t.cursor, 0) (by simp)
  have hfound := h.found_le
  unfold found at hfound
  have hall : (t.content.drop t.cursor).take npos = t.content.drop t.cursor := by
    apply List.take_of_length_le
    rw [List.length_drop, npos]
    omega
  unfold nextPure Tokenizer.nextPure
  rw [content_ofTokenizer h]
  change (if toULong (t.cursor : ℤ) = _ then _ else _) = _
  rw [hplace]
  by_cases hend : t.cursor = t.content.length
  · rw [if_pos hend, if_pos hend]
  · rw [if_neg hend, if_neg hend]
    dsimp only [ofTokenizer]
    rw [hplace, hleft, hscan]
    generalize t.tokens.foldl _ _ = r at hfound ⊢
    obtain ⟨beg, max⟩ := r
    dsimp only at hfound ⊢
    have hmax : toInt (t.cursor + max) = (t.cursor + max : ℕ) := by
      rw [← Nat.cast_add, toInt_natCast (by omega)]
    have hbeg : toInt (t.cursor + beg) = (t.cursor + beg : ℕ) := by
      rw [← Nat.cast_add, toInt_natCast (by omega)]
    split_ifs with hall' hzero
    · rw [substr_of_le hcur, hall, toInt_natCast hlen]
      rfl
    · rw [substr_of_le hcur, hmax]
      rfl
    · rw [substr_of_le hcur, hbeg]
      rfl

theorem Fits.move (h : Fits text t) {c : ℕ} (hc : c ≤ t.content.length) :
    Fits text { t with lastLocs := t.cursor :: t.lastLocs, cursor := c } where
  content_eq := h.content_eq
  cursor_le := hc
  locs_le := List.forall_mem_cons.mpr ⟨h.cursor_le, h.locs_le⟩
  length_lt := h.length_lt

/-- The next token leaves the text, and the cursor in it. -/
theorem Fits.nextPure (h : Fits text t) : Fits text t.nextPure.2 := by
  have hfound := h.found_le
  unfold found at hfound
  unfold Tokenizer.nextPure
  by_cases hend : t.cursor = t.content.length
  · rw [if_pos hend]
    exact h
  · rw [if_neg hend]
    dsimp only
    split_ifs with hall hzero
    · exact h.move le_rfl
    · exact h.move (by omega)
    · exact h.move (by omega)

/-- A result of `Tokenizer`, with the integers of the source. -/
def ofResult (text : Str) {α : Type} : Option (α × Tokenizer) → Except Fault (α × IntTokenizer)
  | some (x, t) => .ok (x, ofTokenizer text t)
  | none => .error .diverges

theorem dropComment_eq (h : Fits text t) (fuel : ℕ) (x : Str) :
    dropComment fuel x (ofTokenizer text t) =
        ofResult text ((Tokenizer.dropComment fuel x t).map ((), ·)) ∧
      ∀ t' ∈ Tokenizer.dropComment fuel x t, Fits text t' := by
  induction fuel generalizing x t with
  | zero => exact ⟨rfl, by simp [Tokenizer.dropComment]⟩
  | succ fuel ih =>
    rw [dropComment, Tokenizer.dropComment]
    by_cases hx : x ≠ newline ∧ x ≠ []
    · rw [if_pos hx, if_pos hx, bind_ok (nextPure_eq h)]
      exact ih h.nextPure t.nextPure.1
    · rw [if_neg hx, if_neg hx]
      refine ⟨rfl, ?_⟩
      rintro t' ht'
      obtain rfl := Option.some.inj ht'
      exact h

theorem nextLoop_eq (h : Fits text t) (fuel : ℕ) :
    nextLoop fuel (ofTokenizer text t) = ofResult text (Tokenizer.nextLoop fuel t) ∧
      ∀ r ∈ Tokenizer.nextLoop fuel t, Fits text r.2 := by
  induction fuel generalizing t with
  | zero => exact ⟨rfl, by simp [Tokenizer.nextLoop]⟩
  | succ fuel ih =>
    obtain ⟨x, t', hx⟩ : ∃ x t', t.nextPure = (x, t') := ⟨_, _, rfl⟩
    have hpure : nextPure (ofTokenizer text t) = .ok (x, ofTokenizer text t') := by
      rw [nextPure_eq h, hx]
    have hfits : Fits text t' := by
      have hnext := h.nextPure
      rwa [hx] at hnext
    rw [Tokenizer.nextLoop_step hx, nextLoop_step hpure]
    change (if x ∈ t'.comments then _ else _) = _ ∧ _
    by_cases hc : x ∈ t'.comments
    · obtain ⟨hrun, hall⟩ := dropComment_eq hfits (fuel + 1) x
      rw [if_pos hc, if_pos hc]
      cases hd : Tokenizer.dropComment (fuel + 1) x t' with
      | none =>
        rw [hd] at hrun
        exact ⟨bind_error hrun, by simp⟩
      | some t'' =>
        rw [hd] at hrun
        rw [bind_ok hrun]
        exact ih (hall t'' hd)
    · rw [if_neg hc, if_neg hc]
      by_cases hend : x = []
      · rw [if_pos hend, if_pos hend]
        exact ⟨rfl, by simpa using hfits⟩
      · rw [if_neg hend, if_neg hend]
        by_cases hret : !t'.doSkip ∨ x ∉ t'.skips
        · rw [if_pos hret]
          exact ⟨if_pos hret, by simpa using hfits⟩
        · rw [if_neg hret, ← (ih hfits).1]
          exact ⟨if_neg hret, (ih hfits).2⟩

end

/-! ## What is read from a tokenizer -/

/-- From a tokenizer that fits its text, `m` and `n` read the same and leave the same tokenizer, which
fits its text again. -/
def Simulates (text : Str) {α : Type} (m : IntTokM α) (n : TokM α) : Prop :=
  ∀ t, Fits text t →
    m (ofTokenizer text t) = (n t).map (fun r => (r.1, ofTokenizer text r.2)) ∧
      ∀ r, n t = .ok r → Fits text r.2

theorem simulates_next (text : Str) : Simulates text next Tokenizer.next := by
  intro t h
  obtain ⟨hrun, hfits⟩ := nextLoop_eq h (t.content.length + 1)
  unfold next Tokenizer.next
  rw [content_ofTokenizer h, hrun]
  cases hloop : Tokenizer.nextLoop (t.content.length + 1) t with
  | none => exact ⟨rfl, by simp⟩
  | some r =>
    refine ⟨rfl, ?_⟩
    rintro r' hr'
    obtain rfl := Except.ok.inj hr'
    exact hfits r hloop

theorem simulates_rewind (text : Str) : Simulates text rewind Tokenizer.rewind := by
  intro t h
  have hmap : (ofTokenizer text t).lastLocs = t.lastLocs.map Nat.cast := rfl
  unfold rewind Tokenizer.rewind
  rw [hmap]
  cases hlocs : t.lastLocs with
  | nil => exact ⟨rfl, by simp⟩
  | cons loc locs =>
    have hall := h.locs_le
    rw [hlocs] at hall
    refine ⟨rfl, ?_⟩
    rintro r hr
    obtain rfl := Except.ok.inj hr
    exact
      { h with
        cursor_le := hall loc List.mem_cons_self
        locs_le := fun l hl => hall l (List.mem_cons_of_mem loc hl) }

theorem simulates_skip (text : Str) (enable : Bool) :
    Simulates text (skip enable) (Tokenizer.skip enable) := by
  intro t h
  refine ⟨rfl, ?_⟩
  rintro r hr
  obtain rfl := Except.ok.inj hr
  exact { h with }

/-! ## The pieces of a text -/

theorem cursor_le_seek {t : Tokenizer} {before after : List Str} (hcut : t.Cut before after) :
    (t.seek before).cursor ≤ t.content.length := by
  rw [Tokenizer.seek_cursor, hcut.content_eq, List.length_append]
  exact Nat.le_add_right _ _

theorem locs_le_seek {t : Tokenizer} {before after : List Str} (hcut : t.Cut before after) :
    ∀ loc ∈ Tokenizer.locs before, loc ≤ t.content.length := by
  induction before generalizing after with
  | nil => exact fun _ hloc => absurd hloc List.not_mem_nil
  | cons p before ih =>
    have hbefore := Tokenizer.cut_cons.mp hcut
    exact List.forall_mem_cons.mpr ⟨cursor_le_seek hbefore, ih hbefore⟩

theorem fits_seek {text : Str} {t : Tokenizer} {before after : List Str}
    (hcontent : t.content = text ++ newline) (hlen : t.content.length < 2 ^ 31)
    (hcut : t.Cut before after) : Fits text (t.seek before) where
  content_eq := hcontent
  cursor_le := cursor_le_seek hcut
  locs_le := locs_le_seek hcut
  length_lt := hlen

theorem calls_eq {text : Str} {t : Tokenizer} {before after : List Str}
    (hds : ∀ d ∈ t.tokens, d ≠ []) (hcontent : t.content = text ++ newline)
    (hlen : t.content.length < 2 ^ 31) (hcut : t.Cut before after) :
    ∃ t', calls (after.length + 1) (ofTokenizer text (t.seek before)) = .ok (after ++ [[]], t') := by
  induction after generalizing before with
  | nil =>
    have hpure := nextPure_eq (fits_seek hcontent hlen hcut)
    rw [Tokenizer.nextPure_seek_nil hcut] at hpure
    refine ⟨ofTokenizer text (t.seek before), ?_⟩
    rw [List.length_nil, calls, bind_ok hpure]
    rfl
  | cons p after ih =>
    have hpure := nextPure_eq (fits_seek hcontent hlen hcut)
    rw [Tokenizer.nextPure_seek_cons hds hcut] at hpure
    obtain ⟨t', hcalls⟩ := ih (Tokenizer.cut_cons.mpr hcut)
    refine ⟨t', ?_⟩
    rw [List.length_cons, calls, bind_ok hpure, bind_ok hcalls]
    rfl

/-- Called again and again, `nextPure` cuts a text into its pieces, and then finds its end. -/
theorem nextPure_lossless (text : Str) (tokens skips comments : List Str)
    (hlen : text.length < 2 ^ 31 - 1) (htokens : ∀ d ∈ tokens, d ≠ []) :
    ∃ pieces t', calls (pieces.length + 1) (new text tokens skips comments) =
        .ok (pieces ++ [[]], t') ∧
      pieces.length + 1 ≤ text.length + 2 ∧
      (∀ p ∈ pieces, p ≠ []) ∧
      pieces.flatten = text ++ newline ∧
      ∀ before p after, pieces = before ++ p :: after → IsPiece tokens p after.flatten := by
  have hfits := fits_new hlen tokens skips comments
  have hle := length_pieces_le tokens (text ++ newline)
  have hlast : newline.length = 1 := rfl
  rw [List.length_append, hlast] at hle
  obtain ⟨t', hcalls⟩ := calls_eq (t := Tokenizer.new text tokens skips comments) htokens rfl
    hfits.length_lt (Tokenizer.cut_nil _)
  refine ⟨pieces tokens (text ++ newline), t', hcalls, by omega, ?_, flatten_pieces _ _, ?_⟩
  · intro p hp
    exact ne_nil_of_mem_pieces hp
  · intro before p after h
    exact isPiece_of_pieces htokens h

/-- Overlapping delimiters. -/
theorem nextPure_lossless_arrow :
    ∃ pieces t', calls (pieces.length + 1) (new "a->b".toList ["-".toList, "->".toList] [] []) =
        .ok (pieces ++ [[]], t') ∧
      pieces.length + 1 ≤ 6 ∧
      (∀ p ∈ pieces, p ≠ []) ∧
      pieces.flatten = "a->b\n".toList ∧
      ∀ before p after, pieces = before ++ p :: after →
        IsPiece ["-".toList, "->".toList] p after.flatten :=
  nextPure_lossless _ _ [] [] (by decide) (by decide)

end IntTokenizer
