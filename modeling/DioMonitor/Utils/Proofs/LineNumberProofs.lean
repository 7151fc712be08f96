import DioMonitor.Lib.StateExcept
import DioMonitor.Utils.IntTokenizer

/-!
# Proofs: line numbers

`rewind` goes back exactly to where the last token began. The line number reported there counts the
ends of line before the cursor except the one just before it, and before the cursor `0` it counts all
the lines: it is wrong for the tokens that begin a line, and for no others (`getLineNumber_iff`).
-/

namespace IntTokenizer

open StateExcept

/-! ## The last token -/

section

variable {t t' : IntTokenizer} {x : Str}

theorem substr_ok {s : Str} {pos len : ℕ} (h : substr s pos len = .ok x) :
    x = (s.drop pos).take len := by
  unfold substr at h
  split_ifs at h
  exact (Except.ok.inj h).symm

theorem bind_substr_ok {s : Str} {pos len : ℕ}
    (h : (do let y ← substr s pos len; return (y, t')) = Except.ok (ε := Fault) (x, t)) :
    x = (s.drop pos).take len ∧ t = t' := by
  cases hsub : substr s pos len with
  | error e =>
    rw [hsub] at h
    cases h
  | ok y =>
    rw [hsub] at h
    obtain ⟨rfl, rfl⟩ := Prod.mk.inj (Except.ok.inj h)
    exact ⟨substr_ok hsub, rfl⟩

/-- A token stands at the cursor, and `nextPure` remembers where. -/
theorem nextPure_cases (h : nextPure t = .ok (x, t')) :
    (x = [] ∧ t' = t) ∨
      (x <+: t.content.drop t.position ∧
        ∃ c, t' = { t with lastLocs := t.cursor :: t.lastLocs, cursor := c }) := by
  unfold nextPure at h
  by_cases hend : toULong t.cursor = t.content.length
  · rw [if_pos hend] at h
    obtain ⟨rfl, rfl⟩ := Prod.mk.inj (Except.ok.inj h)
    exact .inl ⟨rfl, rfl⟩
  · rw [if_neg hend] at h
    dsimp only at h
    refine .inr ?_
    split_ifs at h with hall hzero
    · obtain ⟨rfl, rfl⟩ := bind_substr_ok h
      exact ⟨List.take_prefix _ _, _, rfl⟩
    · obtain ⟨rfl, rfl⟩ := bind_substr_ok h
      exact ⟨List.take_prefix _ _, _, rfl⟩
    · obtain ⟨rfl, rfl⟩ := bind_substr_ok h
      exact ⟨List.take_prefix _ _, _, rfl⟩

theorem nextPure_text (h : nextPure t = .ok (x, t')) : t'.text = t.text := by
  rcases nextPure_cases h with ⟨-, rfl⟩ | ⟨-, c, rfl⟩
  · rfl
  · rfl

/-- `rewind` undoes the call that read a token. -/
theorem rewind_nextPure (h : nextPure t = .ok (x, t')) (hx : x ≠ []) :
    rewind t' = .ok ((), t) ∧ x <+: t.content.drop t.position := by
  rcases nextPure_cases h with ⟨rfl, -⟩ | ⟨hbegins, c, rfl⟩
  · exact absurd rfl hx
  · exact ⟨rfl, hbegins⟩

theorem dropComment_text {fuel : ℕ} {u : Unit} (h : dropComment fuel x t = .ok (u, t')) :
    t'.text = t.text := by
  induction fuel generalizing t x with
  | zero => cases h
  | succ fuel ih =>
    rw [dropComment] at h
    by_cases hx : x ≠ newline ∧ x ≠ []
    · rw [if_pos hx] at h
      obtain ⟨y, t₁, hpure, hrest⟩ := bind_eq_ok h
      rw [ih hrest, nextPure_text hpure]
    · rw [if_neg hx] at h
      obtain ⟨-, rfl⟩ := Prod.mk.inj (Except.ok.inj h)
      rfl

/-- What `next` returns is what its last call of `nextPure` returned. -/
theorem nextLoop_last {fuel : ℕ} (h : nextLoop fuel t = .ok (x, t')) :
    ∃ t'', t''.text = t.text ∧ nextPure t'' = .ok (x, t') := by
  induction fuel generalizing t with
  | zero => cases h
  | succ fuel ih =>
    obtain ⟨y, t₁, hpure, -⟩ := bind_eq_ok h
    have htext := nextPure_text hpure
    rw [nextLoop_step hpure] at h
    split_ifs at h with hc hend hret
    · obtain ⟨_, t₂, hdrop, hrest⟩ := bind_eq_ok h
      obtain ⟨t'', htext'', hlast⟩ := ih hrest
      exact ⟨t'', by rw [htext'', dropComment_text hdrop, htext], hlast⟩
    · obtain ⟨rfl, rfl⟩ := Prod.mk.inj (Except.ok.inj h)
      exact ⟨t, rfl, hpure⟩
    · obtain ⟨rfl, rfl⟩ := Prod.mk.inj (Except.ok.inj h)
      exact ⟨t, rfl, hpure⟩
    · obtain ⟨t'', htext'', hlast⟩ := ih h
      exact ⟨t'', htext''.trans htext, hlast⟩

end

/-! ## Counting lines -/

theorem count_take_succ (s : Str) (n : ℕ) (c : Char) :
    (s.take (n + 1)).count c = (s.take n).count c + if s[n]? = some c then 1 else 0 := by
  rw [List.take_add_one, List.count_append]
  congr 1
  cases s[n]? with
  | none => rfl
  | some a => simp [List.count_singleton]

/-- The loop of `getLineNumber`. -/
theorem foldl_range (s : Str) (n : ℕ) :
    (Utils.range 0 n).foldl (fun nb i => if s[i.toNat]? = some '\n' then nb + 1 else nb) 1 =
      1 + (s.take n).count '\n' := by
  have hrange : Utils.range 0 n = (List.range n).map (Nat.cast : ℕ → ℤ) := by
    rw [Utils.range, if_neg (by omega)]
    simp
  rw [hrange, List.foldl_map]
  clear hrange
  induction n with
  | zero => rfl
  | succ n ih =>
    rw [List.range_succ, List.foldl_append, ih, count_take_succ, List.foldl_cons, List.foldl_nil,
      Int.toNat_natCast]
    split_ifs <;> omega

section

variable {t : IntTokenizer}

theorem getLineNumber_eq :
    t.getLineNumber = 1 + (t.content.take (toULong (t.cursor - 1))).count '\n' := by
  unfold getLineNumber
  rw [← Nat.cast_min, foldl_range, min_comm, ← List.take_eq_take_min]

/-- The place before the cursor; before the cursor `0` it is the largest number there is. -/
theorem toULong_pred (i : ℤ) : toULong (i - 1) = if toULong i = 0 then npos else toULong i - 1 := by
  unfold toULong npos
  split_ifs with h <;> omega

/-- The end of line that the constructor adds is counted with all the others. -/
theorem count_content_pos (t : IntTokenizer) : 0 < t.content.count '\n' := by
  apply List.count_pos_iff.mpr
  simp [content, newline]

theorem getLineNumber_eq_lineAt_iff (hlen : t.content.length < 2 ^ 63) :
    t.getLineNumber = t.lineAt ↔ ¬ t.AtLineStart := by
  rw [getLineNumber_eq, toULong_pred]
  unfold lineAt AtLineStart position
  cases hpos : toULong t.cursor with
  | zero =>
    have hcount := count_content_pos t
    have hall : t.content.take npos = t.content := List.take_of_length_le (by unfold npos; omega)
    rw [if_pos rfl, hall]
    simp
    omega
  | succ p =>
    rw [if_neg (Nat.succ_ne_zero p), Nat.add_sub_cancel, count_take_succ]
    by_cases hline : t.content[p]? = some '\n'
    · simp [hline]
    · simp [hline]

end

/-- After a `rewind` over a token the reported line is right, unless the token stands at the start of the
text or in the first column of a line. No string is as long as `2 ^ 63`. -/
theorem getLineNumber_iff {t t' : IntTokenizer} {x : Str} (hlen : t.content.length < 2 ^ 63)
    (h : next t = .ok (x, t')) (hx : x ≠ []) :
    ∃ t'', rewind t' = .ok ((), t'') ∧ t''.content = t.content ∧ nextPure t'' = .ok (x, t') ∧
      x <+: t''.content.drop t''.position ∧
      (t''.getLineNumber = t''.lineAt ↔ ¬ t''.AtLineStart) := by
  obtain ⟨t'', htext, hpure⟩ := nextLoop_last h
  obtain ⟨hrewind, hbegins⟩ := rewind_nextPure hpure hx
  have hcontent : t''.content = t.content := congrArg (· ++ newline) htext
  exact ⟨t'', hrewind, hcontent, hpure, hbegins, getLineNumber_eq_lineAt_iff (hcontent ▸ hlen)⟩

/-- A token in the second column of the second line. -/
theorem getLineNumber_iff_column :
    ∃ t' t'', next (new "\n b".toList [newline, [' ']] [newline, [' ']] []) = .ok (['b'], t') ∧
      rewind t' = .ok ((), t'') ∧ t''.position = 2 ∧
      (t''.getLineNumber = t''.lineAt ↔ ¬ t''.AtLineStart) := by
  let t : IntTokenizer := new "\n b".toList [newline, [' ']] [newline, [' ']] []
  let t' : IntTokenizer := { t with lastLocs := [2, 1, 0], cursor := 3 }
  have hnext : next t = .ok (['b'], t') := by decide +kernel
  obtain ⟨t'', hrewind, -, -, -, hiff⟩ := getLineNumber_iff (by decide) hnext (by decide)
  refine ⟨t', t'', hnext, hrewind, ?_, hiff⟩
  cases hrewind
  decide

/-- The first token of a text of two lines is reported on line 3, and the second one on line 1. -/
theorem getLineNumber_first_column :
    ∃ t₁ t₂ t₃ t₄, next (new "a\nb".toList [newline] [newline] []) = .ok (['a'], t₁) ∧
      rewind t₁ = .ok ((), t₂) ∧ t₂.getLineNumber = 3 ∧ t₂.lineAt = 1 ∧
      next t₁ = .ok (['b'], t₃) ∧
      rewind t₃ = .ok ((), t₄) ∧ t₄.getLineNumber = 1 ∧ t₄.lineAt = 2 := by
  let t : IntTokenizer := new "a\nb".toList [newline] [newline] []
  refine ⟨{ t with lastLocs := [0], cursor := 1 }, t, { t with lastLocs := [2, 1, 0], cursor := 3 },
    { t with lastLocs := [1, 0], cursor := 2 }, ?_⟩
  decide +kernel

end IntTokenizer
