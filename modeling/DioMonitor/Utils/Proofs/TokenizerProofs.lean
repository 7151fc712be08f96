import DioMonitor.Utils.Tokenizer
import DioMonitor.Lib.Lexing

/-!
# What the tokenizer reads

The states of a tokenizer are the places between the pieces of its text: `t.seek before` is `t` after it
has read the pieces of `before`, the last one first. `nextPure` takes one piece, `rewind` puts one back,
and `next` reads the first significant piece.
-/

namespace Tokenizer

open Lexing

/-! ## The loop over the delimiters -/

theorem find_nil {d : Str} (hd : d ≠ []) : find d [] = none := by simp [find, hd]

theorem find_of_begins {d s : Str} (hd : d ≠ []) (h : d <+: s) : find d s = some 0 := by
  cases s with
  | nil => exact absurd (List.prefix_nil.mp h) hd
  | cons c s => rw [find, if_pos h]

theorem find_cons_of_not_begins {d s : Str} {c : Char} (h : ¬ d <+: c :: s) :
    find d (c :: s) = (find d s).map (· + 1) := by
  rw [find, if_neg h]

theorem scan_cons_of_not_begins {d s : Str} {c : Char} (h : ¬ d <+: c :: s) (r : ℕ × ℕ) :
    scan (c :: s) (r.1 + 1, r.2) d = ((scan s r d).1 + 1, (scan s r d).2) := by
  unfold scan
  rw [find_cons_of_not_begins h]
  cases find d s with
  | none => rfl
  | some id =>
    simp only [Option.map_some, Nat.add_right_cancel_iff, Nat.add_lt_add_iff_right]
    split_ifs <;> rfl

/-- Where no delimiter stands, the loop finds what it finds one character further. -/
theorem foldl_scan_cons {s : Str} {c : Char} {ds : List Str} (h : ∀ d ∈ ds, ¬ d <+: c :: s)
    (r : ℕ × ℕ) : ds.foldl (scan (c :: s)) (r.1 + 1, r.2) =
      ((ds.foldl (scan s) r).1 + 1, (ds.foldl (scan s) r).2) := by
  induction ds generalizing r with
  | nil => rfl
  | cons d ds ih =>
    rw [List.foldl_cons, List.foldl_cons, scan_cons_of_not_begins (h d (by simp))]
    exact ih (fun e he => h e (by simp [he])) (scan s r d)

/-- The loop has found the delimiter `l` at the very beginning, or none there yet. -/
def Found (r : ℕ × ℕ) (l : Str) : Prop := (l = [] ∧ 0 < r.1) ∨ (l ≠ [] ∧ r.1 = 0 ∧ r.2 = l.length)

theorem Found.scan {s d l : Str} {r : ℕ × ℕ} (hd : d ≠ []) (h : Found r l) :
    Found (scan s r d) (longer s l d) := by
  have hpos := List.length_pos_iff.mpr hd
  unfold Tokenizer.scan longer
  by_cases hp : d <+: s
  · rw [find_of_begins hd hp]
    simp only [hp, true_and]
    rcases h with ⟨rfl, h0⟩ | ⟨hl, h0, h1⟩
    · rw [if_neg (by omega), if_pos h0, if_pos (by simpa using hpos)]
      exact .inr ⟨hd, rfl, rfl⟩
    · by_cases hlt : l.length < d.length
      · rw [if_pos ⟨h0.symm, by omega⟩, if_pos hlt]
        exact .inr ⟨hd, h0, rfl⟩
      · rw [if_neg (by omega), if_neg (by omega), if_neg hlt]
        exact .inr ⟨hl, h0, h1⟩
  · simp only [hp, false_and, if_false]
    cases hf : find d s with
    | none => exact h
    | some id =>
      have hid : id ≠ 0 := by
        rintro rfl
        cases s with
        | nil => simp [find_nil hd] at hf
        | cons c s => simp [find_cons_of_not_begins hp] at hf
      dsimp only
      rcases h with ⟨rfl, h0⟩ | ⟨hl, h0, h1⟩
      · refine .inl ⟨rfl, ?_⟩
        split_ifs
        · exact h0
        · exact Nat.pos_of_ne_zero hid
        · exact h0
      · rw [if_neg (by omega), if_neg (by omega)]
        exact .inr ⟨hl, h0, h1⟩

theorem Found.foldl_scan {s : Str} {ds : List Str} (hds : ∀ d ∈ ds, d ≠ []) {r : ℕ × ℕ} {l : Str}
    (h : Found r l) : Found (ds.foldl (Tokenizer.scan s) r) (ds.foldl (longer s) l) := by
  induction ds generalizing r l with
  | nil => exact h
  | cons d ds ih => exact ih (fun e he => hds e (by simp [he])) (h.scan (hds d (by simp)))

/-- The loop finds the distance to the next delimiter and the length of the longest one there. -/
theorem foldl_scan {ds : List Str} (hds : ∀ d ∈ ds, d ≠ []) (s : Str) :
    ds.foldl (scan s) (s.length, 0) =
      ((plain ds s).length, (longest ds (s.drop (plain ds s).length)).length) := by
  induction s with
  | nil =>
    have hnil : ∀ es ⊆ ds, es.foldl (scan []) (0, 0) = (0, 0) := by
      intro es
      induction es with
      | nil => simp
      | cons e es ih =>
        intro h
        have he : find e [] = none := find_nil (hds e (h (by simp)))
        rw [List.foldl_cons, show scan [] (0, 0) e = (0, 0) by simp [scan, he]]
        exact ih fun x hx => h (by simp [hx])
    have hl : longest ds ([] : Str) = [] := List.prefix_nil.mp (longest_begins ds [])
    simp [plain, hl, hnil ds (fun _ h => h)]
  | cons c s ih =>
    by_cases hl : longest ds (c :: s) = []
    · have hno : ∀ d ∈ ds, ¬ d <+: c :: s := fun d hd hp =>
        hds d hd (longest_eq_nil_iff.mp hl d hd hp)
      have h := foldl_scan_cons hno (s.length, 0)
      rw [ih] at h
      simp only [List.length_cons, plain, hl, if_true, List.drop_succ_cons]
      exact h
    · have hf : Found ((c :: s).length, 0) [] := .inl ⟨rfl, by simp⟩
      rcases hf.foldl_scan hds with ⟨h, -⟩ | ⟨-, h0, h1⟩
      · exact absurd h hl
      · have hp : plain ds (c :: s) = [] := by simp [plain, hl]
        rw [hp, List.length_nil, List.drop_zero]
        exact Prod.ext h0 h1

/-! ## The next piece -/

theorem nextPure_of_end {t : Tokenizer} (h : t.cursor = t.content.length) : t.nextPure = ([], t) := by
  simp [nextPure, h]

/-- `nextPure` takes the first piece of the text that is left. -/
theorem nextPure_eq {t : Tokenizer} (hds : ∀ d ∈ t.tokens, d ≠ []) {s : Str}
    (hs : t.content.drop t.cursor = s) (hne : s ≠ []) :
    t.nextPure = (piece t.tokens s, { t with
      lastLocs := t.cursor :: t.lastLocs
      cursor := t.cursor + (piece t.tokens s).length }) := by
  have hlen : t.content.length - t.cursor = s.length := by rw [← hs, List.length_drop]
  have hpos := List.length_pos_iff.mpr hne
  have hplain := plain_begins t.tokens s
  have hfind : plain t.tokens s = [] ↔ longest t.tokens s ≠ [] := by
    cases s with
    | nil => exact absurd rfl hne
    | cons c s => by_cases h : longest t.tokens (c :: s) = [] <;> simp [plain, h]
  unfold nextPure
  rw [if_neg (by omega)]
  simp only [hs, hlen, foldl_scan hds]
  split_ifs with h1 h2
  · have hp : plain t.tokens s = s := hplain.eq_of_length h1
    have hl : longest t.tokens s = [] := by
      by_contra h
      exact hne (hp ▸ hfind.mpr h)
    rw [piece, if_pos hl, hp]
    congr 2
    omega
  · have hl := hfind.mp (List.length_eq_zero_iff.mp h2)
    have hle := (longest_begins t.tokens s).length_le
    rw [piece, if_neg hl, h2, List.drop_zero, min_eq_left hle]
    congr 1
    exact (List.prefix_iff_eq_take.mp (longest_begins t.tokens s)).symm
  · have hl : longest t.tokens s = [] := by
      by_contra h
      exact h2 (by rw [hfind.mpr h, List.length_nil])
    rw [piece, if_pos hl, min_eq_left hplain.length_le]
    congr 1
    exact (List.prefix_iff_eq_take.mp hplain).symm

/-! ## Places between the pieces -/

/-- Where the pieces of `before` began. -/
def locs : List Str → List ℕ
  | [] => []
  | _ :: before => (before.map List.length).sum :: locs before

/-- The tokenizer after it has read the pieces of `before`, the last one first. -/
def seek (t : Tokenizer) (before : List Str) : Tokenizer :=
  { t with lastLocs := locs before, cursor := (before.map List.length).sum }

@[simp] theorem seek_content (t : Tokenizer) (before : List Str) :
    (t.seek before).content = t.content := rfl

@[simp] theorem seek_tokens (t : Tokenizer) (before : List Str) :
    (t.seek before).tokens = t.tokens := rfl

@[simp] theorem seek_skips (t : Tokenizer) (before : List Str) :
    (t.seek before).skips = t.skips := rfl

@[simp] theorem seek_comments (t : Tokenizer) (before : List Str) :
    (t.seek before).comments = t.comments := rfl

@[simp] theorem seek_doSkip (t : Tokenizer) (before : List Str) :
    (t.seek before).doSkip = t.doSkip := rfl

/-- The text is made of the pieces of `before`, read already, and those of `after`. -/
def Cut (t : Tokenizer) (before after : List Str) : Prop :=
  pieces t.tokens t.content = before.reverse ++ after

theorem cut_nil (t : Tokenizer) : Cut t [] (pieces t.tokens t.content) := rfl

theorem cut_cons {t : Tokenizer} {before after : List Str} {p : Str} :
    Cut t (p :: before) after ↔ Cut t before (p :: after) := by
  simp [Cut]

theorem Cut.ne_nil {t : Tokenizer} {before after : List Str} (h : Cut t before after) {p : Str}
    (hp : p ∈ after) : p ≠ [] := by
  have hmem : p ∈ pieces t.tokens t.content := by
    rw [h]
    simp [hp]
  exact ne_nil_of_mem_pieces hmem

theorem Cut.length_le {t : Tokenizer} {before after : List Str} (h : Cut t before after) :
    after.length ≤ t.content.length := by
  have := length_pieces_le t.tokens t.content
  rw [h, List.length_append] at this
  omega

theorem seek_cursor (t : Tokenizer) (before : List Str) :
    (t.seek before).cursor = before.reverse.flatten.length := by
  simp [seek, List.length_flatten, List.sum_reverse]

theorem Cut.content_eq {t : Tokenizer} {before after : List Str} (h : Cut t before after) :
    t.content = before.reverse.flatten ++ after.flatten := by
  rw [← List.flatten_append, ← h, flatten_pieces]

/-- The text that is left is the text of the pieces that are left. -/
theorem Cut.drop_eq {t : Tokenizer} {before after : List Str} (h : Cut t before after) :
    t.content.drop (t.seek before).cursor = after.flatten := by
  rw [seek_cursor, h.content_eq, List.drop_left]

@[simp] theorem rewind_seek (t : Tokenizer) (p : Str) (before : List Str) :
    rewind (t.seek (p :: before)) = .ok ((), t.seek before) := rfl

theorem nextPure_seek_nil {t : Tokenizer} {before : List Str} (h : Cut t before []) :
    (t.seek before).nextPure = ([], t.seek before) := by
  apply nextPure_of_end
  rw [seek_cursor, seek_content, h.content_eq, List.flatten_nil, List.append_nil]

section

variable {t : Tokenizer} {before after : List Str} (hds : ∀ d ∈ t.tokens, d ≠ [])
include hds

theorem nextPure_seek_cons {p : Str} (h : Cut t before (p :: after)) :
    (t.seek before).nextPure = (p, t.seek (p :: before)) := by
  have hp : p = piece t.tokens (p :: after).flatten := (pieces_cons (pieces_append h)).1
  have hne : (p :: after).flatten ≠ [] := by
    simp [h.ne_nil (p := p) (by simp)]
  have hnext := nextPure_eq (t := t.seek before) hds h.drop_eq hne
  rw [seek_tokens, ← hp] at hnext
  rw [hnext]
  simp [seek, locs, Nat.add_comm]

/-! ## The next significant piece -/

theorem dropComment_seek {fuel : ℕ} {x : Str} (h : Cut t before after)
    (hf : after.length + 2 ≤ fuel) (hx : x ≠ [] ∨ after = []) :
    ∃ b a, dropComment fuel x (t.seek before) = some (t.seek b) ∧ Cut t b a ∧
      a.length ≤ after.length ∧
      ∀ skips comments, trim skips comments newline false a =
        trim skips comments newline (decide (x ≠ newline)) after := by
  induction fuel generalizing x before after with
  | zero => omega
  | succ fuel ih =>
    rw [dropComment]
    split_ifs with hc
    · cases after with
      | nil =>
        rw [nextPure_seek_nil h]
        cases fuel with
        | zero => omega
        | succ fuel => exact ⟨before, [], by simp [dropComment], h, le_refl _, by simp⟩
      | cons p after =>
        rw [nextPure_seek_cons hds h]
        have hp : p ≠ [] := h.ne_nil (by simp)
        obtain ⟨b, a, hrun, hcut, hle, htrim⟩ :=
          ih (cut_cons.mpr h) (by simp at hf; omega) (.inl hp)
        refine ⟨b, a, hrun, hcut, by simp; omega, ?_⟩
        intro skips comments
        rw [htrim, trim.eq_2]
        simp [hc.1]
    · refine ⟨before, after, rfl, h, le_refl _, ?_⟩
      intro skips comments
      by_cases hn : x = newline
      · simp [hn]
      · have hnil : x = [] := by
          by_contra h
          exact hc ⟨hn, h⟩
        rw [hx.resolve_left (by simp [hnil])]
        simp

omit hds in
theorem nextLoop_step {fuel : ℕ} {t' : Tokenizer} {x : Str} (h : t.nextPure = (x, t')) :
    nextLoop (fuel + 1) t =
      if x ∈ t'.comments then (dropComment (fuel + 1) x t').bind (nextLoop fuel)
      else if x = [] then some (x, t')
      else if !t'.doSkip ∨ x ∉ t'.skips then some (x, t')
      else nextLoop fuel t' := by
  rw [nextLoop, h]

theorem nextLoop_seek (hcom : [] ∉ t.comments) {fuel : ℕ} (h : Cut t before after)
    (hf : after.length < fuel) :
    ∃ b, nextLoop fuel (t.seek before) = some (t.seek b).nextPure ∧
      Cut t b (trim (if t.doSkip then t.skips else []) t.comments newline false after) := by
  induction fuel generalizing before after with
  | zero => omega
  | succ fuel ih =>
    cases after with
    | nil =>
      refine ⟨before, ?_, by simpa using h⟩
      rw [nextLoop_step (nextPure_seek_nil h), seek_comments, if_neg hcom, if_pos rfl,
        nextPure_seek_nil h]
    | cons p after =>
      rw [nextLoop_step (nextPure_seek_cons hds h), trim.eq_2]
      have hp : p ≠ [] := h.ne_nil (by simp)
      simp only [List.length_cons] at hf
      simp only [Bool.false_eq_true, false_or]
      by_cases hc : p ∈ t.comments
      · obtain ⟨b, a, hrun, hcut, hle, htrim⟩ :=
          dropComment_seek hds (cut_cons.mpr h) (show after.length + 2 ≤ fuel + 1 by omega) (.inl hp)
        obtain ⟨b', hnext, hcut'⟩ := ih hcut (by omega)
        rw [htrim] at hcut'
        refine ⟨b', ?_, by rwa [if_pos hc]⟩
        rw [if_pos (show p ∈ (t.seek (p :: before)).comments from hc), hrun]
        exact hnext
      · rw [if_neg hc]
        have hc' : p ∉ (t.seek (p :: before)).comments := hc
        by_cases hs : t.doSkip ∧ p ∈ t.skips
        · obtain ⟨b, hnext, hcut⟩ := ih (cut_cons.mpr h) (by omega)
          refine ⟨b, ?_, by simpa [hs.1, hs.2] using hcut⟩
          rw [if_neg hc', if_neg hp, if_neg (by simp [hs.1, hs.2])]
          exact hnext
        · have hs' : p ∉ (if t.doSkip then t.skips else []) := by
            cases hd : t.doSkip <;> simp_all
          have hret : !(t.seek (p :: before)).doSkip ∨ p ∉ (t.seek (p :: before)).skips := by
            cases hd : t.doSkip <;> simp_all
          refine ⟨before, ?_, by rwa [if_neg hs']⟩
          rw [if_neg hc', if_neg hp, if_pos hret, nextPure_seek_cons hds h]

/-- `next` reads the next significant piece, or finds none. -/
theorem next_seek (hcom : [] ∉ t.comments) (h : Cut t before after) :
    ∃ b, next (t.seek before) = .ok (t.seek b).nextPure ∧
      Cut t b (trim (if t.doSkip then t.skips else []) t.comments newline false after) := by
  obtain ⟨b, hrun, hcut⟩ := nextLoop_seek hds hcom h (Nat.lt_succ_of_le h.length_le)
  refine ⟨b, ?_, hcut⟩
  rw [next, seek_content, hrun]

end

end Tokenizer
