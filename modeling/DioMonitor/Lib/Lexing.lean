import Mathlib.Data.List.Basic

/-!
# Cutting a text at delimiters

A list of delimiters cuts a text into pieces: a piece is the longest delimiter that stands at its
position or, where none does, the longest run in which no delimiter begins. The pieces of a text are
its only decomposition of this kind, so reading a text is walking along the list of its pieces.

`trim` drops the pieces that a reader passes over: blanks, and comments up to the end of their line.
-/

namespace Lexing

variable {α : Type} [DecidableEq α]

/-! ## Pieces -/

/-- The longer of `m` and of the delimiter `d`, when the text begins with `d`. -/
def longer (s m d : List α) : List α := if d <+: s ∧ m.length < d.length then d else m

/-- The longest delimiter that the text begins with; empty when there is none. -/
def longest (ds : List (List α)) (s : List α) : List α := ds.foldl (longer s) []

/-- The longest prefix of the text in which no delimiter begins. -/
def plain (ds : List (List α)) : List α → List α
  | [] => []
  | c :: s => if longest ds (c :: s) = [] then c :: plain ds s else []

/-- The first piece of a text. -/
def piece (ds : List (List α)) (s : List α) : List α :=
  if longest ds s = [] then plain ds s else longest ds s

theorem foldl_longer {s : List α} {ds : List (List α)} {m : List α} (hm : m <+: s) :
    ds.foldl (longer s) m <+: s ∧ m.length ≤ (ds.foldl (longer s) m).length ∧
      (ds.foldl (longer s) m = m ∨ ds.foldl (longer s) m ∈ ds) ∧
      ∀ d ∈ ds, d <+: s → d.length ≤ (ds.foldl (longer s) m).length := by
  induction ds generalizing m with
  | nil => simp [hm]
  | cons d ds ih =>
    rw [List.foldl_cons]
    by_cases hd : d <+: s ∧ m.length < d.length
    · rw [show longer s m d = d from if_pos hd]
      obtain ⟨hp, hle, hmem, hmax⟩ := ih hd.1
      refine ⟨hp, by omega, .inr (List.mem_cons.mpr hmem), ?_⟩
      intro e he hes
      rcases List.mem_cons.mp he with rfl | he
      · exact hle
      · exact hmax e he hes
    · rw [show longer s m d = m from if_neg hd]
      obtain ⟨hp, hle, hmem, hmax⟩ := ih hm
      refine ⟨hp, hle, hmem.imp_right (List.mem_cons_of_mem d), ?_⟩
      intro e he hes
      rcases List.mem_cons.mp he with rfl | he
      · have : ¬ m.length < e.length := fun h => hd ⟨hes, h⟩
        omega
      · exact hmax e he hes

theorem longest_begins (ds : List (List α)) (s : List α) : longest ds s <+: s :=
  (foldl_longer s.nil_prefix).1

theorem longest_mem {ds : List (List α)} {s : List α} (h : longest ds s ≠ []) :
    longest ds s ∈ ds :=
  (foldl_longer s.nil_prefix).2.2.1.resolve_left h

theorem length_le_longest {ds : List (List α)} {s d : List α} (hd : d ∈ ds) (hs : d <+: s) :
    d.length ≤ (longest ds s).length :=
  (foldl_longer s.nil_prefix).2.2.2 d hd hs

/-- No delimiter begins a text whose longest delimiter is empty. -/
theorem longest_eq_nil_iff {ds : List (List α)} {s : List α} :
    longest ds s = [] ↔ ∀ d ∈ ds, d <+: s → d = [] := by
  constructor
  · intro h d hd hs
    have := length_le_longest hd hs
    rw [h] at this
    exact List.length_eq_zero_iff.mp (Nat.le_zero.mp this)
  · intro h
    by_contra hne
    exact hne (h _ (longest_mem hne) (longest_begins ds s))

theorem plain_begins (ds : List (List α)) (s : List α) : plain ds s <+: s := by
  induction s with
  | nil => exact List.prefix_rfl
  | cons c s ih =>
    unfold plain
    split_ifs
    · exact (List.prefix_cons_inj c).mpr ih
    · exact List.nil_prefix

theorem piece_begins (ds : List (List α)) (s : List α) : piece ds s <+: s := by
  unfold piece
  split_ifs
  · exact plain_begins ds s
  · exact longest_begins ds s

theorem piece_ne_nil (ds : List (List α)) {s : List α} (h : s ≠ []) : piece ds s ≠ [] := by
  unfold piece
  split_ifs with hl
  · cases s with
    | nil => exact absurd rfl h
    | cons c s => simp [plain, hl]
  · exact hl

theorem piece_append_drop (ds : List (List α)) (s : List α) :
    piece ds s ++ s.drop (piece ds s).length = s :=
  List.prefix_iff_eq_append.mp (piece_begins ds s)

theorem length_drop_piece_lt (ds : List (List α)) {s : List α} (h : s ≠ []) :
    (s.drop (piece ds s).length).length < s.length := by
  have hp := List.length_pos_iff.mpr (piece_ne_nil ds h)
  have hs := List.length_pos_iff.mpr h
  rw [List.length_drop]
  omega

/-- The pieces of a text. -/
def pieces (ds : List (List α)) (s : List α) : List (List α) :=
  if _h : s = [] then [] else piece ds s :: pieces ds (s.drop (piece ds s).length)
termination_by s.length
decreasing_by exact length_drop_piece_lt ds _h

@[simp] theorem pieces_nil (ds : List (List α)) : pieces ds [] = [] := by
  rw [pieces, dif_pos rfl]

theorem pieces_of_ne_nil (ds : List (List α)) {s : List α} (h : s ≠ []) :
    pieces ds s = piece ds s :: pieces ds (s.drop (piece ds s).length) := by
  rw [pieces, dif_neg h]

@[simp] theorem pieces_eq_nil_iff {ds : List (List α)} {s : List α} : pieces ds s = [] ↔ s = [] := by
  constructor
  · intro h
    by_contra hs
    rw [pieces_of_ne_nil ds hs] at h
    exact List.cons_ne_nil _ _ h
  · rintro rfl
    exact pieces_nil ds

/-- The pieces of a text, one after the other, are the text. -/
@[simp] theorem flatten_pieces (ds : List (List α)) (s : List α) : (pieces ds s).flatten = s := by
  induction s using pieces.induct ds with
  | case1 => simp
  | case2 s hs ih => rw [pieces_of_ne_nil ds hs, List.flatten_cons, ih, piece_append_drop]

theorem pieces_cons {ds : List (List α)} {s p : List α} {ps : List (List α)}
    (h : pieces ds s = p :: ps) : p = piece ds s ∧ pieces ds ps.flatten = ps := by
  have hs : s ≠ [] := by rintro rfl; simp at h
  rw [pieces_of_ne_nil ds hs] at h
  obtain ⟨rfl, rfl⟩ := List.cons.inj h
  exact ⟨rfl, by rw [flatten_pieces]⟩

/-- What follows some pieces of a text is cut into the pieces that follow them. -/
theorem pieces_append {ds : List (List α)} {s : List α} {qs ps : List (List α)}
    (h : pieces ds s = qs ++ ps) : pieces ds ps.flatten = ps := by
  induction qs generalizing s with
  | nil => rw [List.nil_append] at h; rw [← h, flatten_pieces]
  | cons q qs ih => exact ih (pieces_cons h).2

theorem ne_nil_of_mem_pieces {ds : List (List α)} {s p : List α} (h : p ∈ pieces ds s) : p ≠ [] := by
  induction s using pieces.induct ds with
  | case1 => simp at h
  | case2 s hs ih =>
    rw [pieces_of_ne_nil ds hs] at h
    rcases List.mem_cons.mp h with rfl | h
    · exact piece_ne_nil ds hs
    · exact ih h

theorem length_pieces_le (ds : List (List α)) (s : List α) : (pieces ds s).length ≤ s.length := by
  induction s using pieces.induct ds with
  | case1 => simp
  | case2 s hs ih =>
    rw [pieces_of_ne_nil ds hs, List.length_cons]
    have := length_drop_piece_lt ds hs
    omega

/-! ## What a piece is -/

/-- In front of `rest`, `p` is the longest delimiter that stands there, or a run in which no delimiter
begins and which goes on up to the next one. -/
def IsPiece (ds : List (List α)) (p rest : List α) : Prop :=
  (p ∈ ds ∧ ∀ d ∈ ds, d <+: p ++ rest → d.length ≤ p.length) ∨
    (p ≠ [] ∧ (∀ i < p.length, ∀ d ∈ ds, ¬ d <+: (p ++ rest).drop i) ∧
      (rest = [] ∨ ∃ d ∈ ds, d <+: rest))

theorem longest_drop_of_lt (ds : List (List α)) {s : List α} {i : ℕ} (hi : i < (plain ds s).length) :
    longest ds (s.drop i) = [] := by
  induction s generalizing i with
  | nil => exact absurd hi (Nat.not_lt_zero i)
  | cons c s ih =>
    by_cases hl : longest ds (c :: s) = []
    · cases i with
      | zero => exact hl
      | succ i =>
        rw [plain, if_pos hl, List.length_cons] at hi
        exact ih (Nat.lt_of_succ_lt_succ hi)
    · rw [plain, if_neg hl] at hi
      exact absurd hi (Nat.not_lt_zero i)

/-- A run ends at a delimiter, or at the end of the text. -/
theorem drop_plain (ds : List (List α)) (s : List α) :
    s.drop (plain ds s).length = [] ∨ longest ds (s.drop (plain ds s).length) ≠ [] := by
  induction s with
  | nil => exact .inl rfl
  | cons c s ih =>
    by_cases hl : longest ds (c :: s) = []
    · rw [plain, if_pos hl]
      exact ih
    · rw [plain, if_neg hl]
      exact .inr hl

theorem isPiece_piece {ds : List (List α)} (hds : ∀ d ∈ ds, d ≠ []) {s : List α} (hs : s ≠ []) :
    IsPiece ds (piece ds s) (s.drop (piece ds s).length) := by
  have hne := piece_ne_nil ds hs
  unfold IsPiece
  rw [piece_append_drop]
  by_cases hl : longest ds s = []
  · have hp : piece ds s = plain ds s := if_pos hl
    refine .inr ⟨hne, ?_, ?_⟩
    · intro i hi d hd hbegins
      have hnone := longest_drop_of_lt ds (hp ▸ hi)
      exact hds d hd (longest_eq_nil_iff.mp hnone d hd hbegins)
    · rw [hp]
      rcases drop_plain ds s with hend | hlong
      · exact .inl hend
      · exact .inr ⟨_, longest_mem hlong, longest_begins ds _⟩
  · have hp : piece ds s = longest ds s := if_neg hl
    rw [hp]
    exact .inl ⟨longest_mem hl, fun d hd hbegins => length_le_longest hd hbegins⟩

/-- Each piece of a text is the longest delimiter at its place, or a run up to the next one. -/
theorem isPiece_of_pieces {ds : List (List α)} (hds : ∀ d ∈ ds, d ≠ []) {s p : List α}
    {before after : List (List α)} (h : pieces ds s = before ++ p :: after) :
    IsPiece ds p after.flatten := by
  have hpiece := (pieces_cons (pieces_append h)).1
  have hp : p ≠ [] := ne_nil_of_mem_pieces (h ▸ List.mem_append_right before List.mem_cons_self)
  have hne : (p :: after).flatten ≠ [] := by simp [hp]
  have hspec := isPiece_piece hds hne
  rwa [← hpiece, List.flatten_cons, List.drop_left] at hspec

/-! ## Delimiters of one character -/

theorem longest_of_single {ds : List (List α)} {s : List α} {c : α} (h1 : ∀ d ∈ ds, d.length = 1)
    (hc : [c] ∈ ds) : longest ds (c :: s) = [c] := by
  have hle : 1 ≤ (longest ds (c :: s)).length := length_le_longest hc (by simp)
  have hne : longest ds (c :: s) ≠ [] := List.length_pos_iff.mp hle
  have hlen := h1 _ (longest_mem hne)
  obtain ⟨a, ha⟩ := List.length_eq_one_iff.mp hlen
  have hp := longest_begins ds (c :: s)
  rw [ha] at hp ⊢
  rw [(List.cons_prefix_cons.mp hp).1]

theorem longest_eq_nil_of_single {ds : List (List α)} {s : List α} {c : α}
    (h1 : ∀ d ∈ ds, d.length = 1) (hc : [c] ∉ ds) : longest ds (c :: s) = [] := by
  apply longest_eq_nil_iff.mpr
  intro d hd hs
  obtain ⟨a, rfl⟩ := List.length_eq_one_iff.mp (h1 d hd)
  obtain ⟨rfl, -⟩ := List.cons_prefix_cons.mp hs
  exact absurd hd hc

/-- A delimiter that a text begins with is its first piece. -/
theorem pieces_delimiter {ds : List (List α)} {c : α} (h1 : ∀ d ∈ ds, d.length = 1) (hc : [c] ∈ ds)
    (s : List α) : pieces ds (c :: s) = [c] :: pieces ds s := by
  have hlong := longest_of_single (s := s) h1 hc
  have hpiece : piece ds (c :: s) = [c] := by
    rw [piece, hlong, if_neg (List.cons_ne_nil c [])]
  rw [pieces_of_ne_nil ds (List.cons_ne_nil c s), hpiece]
  rfl

/-- A text that is empty or begins with a delimiter. -/
def Begins (ds : List (List α)) (s : List α) : Prop := ∀ c t, s = c :: t → [c] ∈ ds

omit [DecidableEq α] in
theorem begins_nil (ds : List (List α)) : Begins ds [] := nofun

omit [DecidableEq α] in
theorem begins_cons {ds : List (List α)} {c : α} (hc : [c] ∈ ds) (s : List α) : Begins ds (c :: s) := by
  rintro c' t h
  obtain ⟨rfl, -⟩ := List.cons.inj h
  exact hc

/-- A run without delimiters goes on up to the next delimiter. -/
theorem plain_append {ds : List (List α)} {w t : List α} (h1 : ∀ d ∈ ds, d.length = 1)
    (hw : ∀ c ∈ w, [c] ∉ ds) (ht : Begins ds t) : plain ds (w ++ t) = w := by
  induction w with
  | nil =>
    cases t with
    | nil => rfl
    | cons c t =>
      have hlong := longest_of_single (s := t) h1 (ht c t rfl)
      rw [List.nil_append, plain, hlong, if_neg (List.cons_ne_nil c [])]
  | cons c w ih =>
    have hlong := longest_eq_nil_of_single (s := w ++ t) h1 (hw c (by simp))
    rw [List.cons_append, plain, hlong, if_pos rfl, ih fun c hc => hw c (List.mem_cons_of_mem _ hc)]

/-- A word is the first piece of a text that goes on with a delimiter, or ends. -/
theorem pieces_word {ds : List (List α)} {w t : List α} (h1 : ∀ d ∈ ds, d.length = 1) (hne : w ≠ [])
    (hw : ∀ c ∈ w, [c] ∉ ds) (ht : Begins ds t) : pieces ds (w ++ t) = w :: pieces ds t := by
  have hpiece : piece ds (w ++ t) = w := by
    cases w with
    | nil => exact absurd rfl hne
    | cons c w =>
      have hlong := longest_eq_nil_of_single (s := w ++ t) h1 (hw c (by simp))
      rw [List.cons_append, piece, hlong, if_pos rfl, ← List.cons_append, plain_append h1 hw ht]
  rw [pieces_of_ne_nil ds (by simp [hne]), hpiece, List.drop_left]

theorem plain_append_delimiter {ds : List (List α)} {c : α} (h1 : ∀ d ∈ ds, d.length = 1)
    (hc : [c] ∈ ds) (s t : List α) : plain ds (s ++ c :: t) = plain ds s := by
  induction s with
  | nil => exact plain_append (w := []) h1 (by simp) (begins_cons hc t)
  | cons a s ih =>
    by_cases ha : [a] ∈ ds
    · rw [List.cons_append, plain, plain, longest_of_single h1 ha, longest_of_single h1 ha]
      rfl
    · rw [List.cons_append, plain, plain, longest_eq_nil_of_single h1 ha,
        longest_eq_nil_of_single h1 ha, if_pos rfl, if_pos rfl, ih]

theorem piece_append_delimiter {ds : List (List α)} {c : α} (h1 : ∀ d ∈ ds, d.length = 1)
    (hc : [c] ∈ ds) {s : List α} (hs : s ≠ []) (t : List α) : piece ds (s ++ c :: t) = piece ds s := by
  cases s with
  | nil => exact absurd rfl hs
  | cons a s =>
    by_cases ha : [a] ∈ ds
    · rw [List.cons_append, piece, piece, longest_of_single h1 ha, longest_of_single h1 ha]
      rfl
    · have hplain := plain_append_delimiter h1 hc (a :: s) t
      rw [List.cons_append] at hplain ⊢
      rw [piece, piece, longest_eq_nil_of_single h1 ha, longest_eq_nil_of_single h1 ha, if_pos rfl,
        if_pos rfl, hplain]

/-- A text is cut at each delimiter: what stands before it and after it are cut on their own. -/
theorem pieces_append_delimiter {ds : List (List α)} {c : α} (h1 : ∀ d ∈ ds, d.length = 1)
    (hc : [c] ∈ ds) (s t : List α) : pieces ds (s ++ c :: t) = pieces ds s ++ [c] :: pieces ds t := by
  induction s using pieces.induct ds with
  | case1 => rw [List.nil_append, pieces_delimiter h1 hc, pieces_nil, List.nil_append]
  | case2 s hs ih =>
    have hpiece := piece_append_delimiter h1 hc hs t
    have hle : (piece ds s).length ≤ s.length := (piece_begins ds s).length_le
    rw [pieces_of_ne_nil ds (by simp [hs]), hpiece, List.drop_append_of_le_length hle, ih,
      pieces_of_ne_nil ds hs, List.cons_append]

/-- The pieces of a text are made of its characters. -/
theorem mem_of_mem_pieces {ds : List (List α)} {s p : List α} (h : p ∈ pieces ds s) {c : α}
    (hc : c ∈ p) : c ∈ s := by
  rw [← flatten_pieces ds s]
  exact List.mem_flatten.mpr ⟨p, h, hc⟩

theorem notMem_of_mem_plain {ds : List (List α)} {s : List α} {c : α} (h1 : ∀ d ∈ ds, d.length = 1)
    (hc : c ∈ plain ds s) : [c] ∉ ds := by
  induction s with
  | nil => cases hc
  | cons a s ih =>
    by_cases ha : [a] ∈ ds
    · rw [plain, longest_of_single h1 ha, if_neg (List.cons_ne_nil a [])] at hc
      cases hc
    · rw [plain, longest_eq_nil_of_single h1 ha, if_pos rfl] at hc
      rcases List.mem_cons.mp hc with rfl | hc
      · exact ha
      · exact ih hc

/-- A delimiter is a piece of its own. -/
theorem eq_of_mem_pieces {ds : List (List α)} {s p : List α} {c : α} (h1 : ∀ d ∈ ds, d.length = 1)
    (hd : [c] ∈ ds) (h : p ∈ pieces ds s) (hc : c ∈ p) : p = [c] := by
  induction s using pieces.induct ds with
  | case1 => simp at h
  | case2 s hs ih =>
    rw [pieces_of_ne_nil ds hs] at h
    rcases List.mem_cons.mp h with rfl | h
    · by_cases hl : longest ds s = []
      · rw [piece, if_pos hl] at hc
        exact absurd hd (notMem_of_mem_plain h1 hc)
      · rw [piece, if_neg hl] at hc ⊢
        obtain ⟨a, ha⟩ := List.length_eq_one_iff.mp (h1 _ (longest_mem hl))
        rw [ha] at hc ⊢
        rw [List.mem_singleton.mp hc]
    · exact ih h

/-! ## Blanks and comments -/

section Trim

variable (skips comments : List (List α)) (nl : List α)

/-- The pieces from the next significant one on. A comment begins with a piece of `comments` and ends
with the piece `nl`; the flag tells that the text begins inside one. -/
def trim : Bool → List (List α) → List (List α)
  | _, [] => []
  | inside, p :: ps =>
    if inside ∨ p ∈ comments then trim (decide (p ≠ nl)) ps
    else if p ∈ skips then trim false ps
    else p :: ps

variable {skips comments nl}

@[simp] theorem trim_nil (inside : Bool) : trim skips comments nl inside [] = [] := by
  simp [trim]

theorem trim_suffix (inside : Bool) (ps : List (List α)) :
    trim skips comments nl inside ps <:+ ps := by
  induction ps generalizing inside with
  | nil => simp
  | cons p ps ih =>
    rw [trim]
    split_ifs
    · exact (ih _).trans (List.suffix_cons p ps)
    · exact (ih _).trans (List.suffix_cons p ps)
    · exact List.suffix_rfl

/-- The next significant piece is neither a blank nor the beginning of a comment. -/
theorem trim_head {inside : Bool} {ps qs : List (List α)} {p : List α}
    (h : trim skips comments nl inside ps = p :: qs) : p ∉ comments ∧ p ∉ skips := by
  induction ps generalizing inside with
  | nil => simp at h
  | cons q ps ih =>
    rw [trim] at h
    split_ifs at h with hc hs
    · exact ih h
    · exact ih h
    · obtain ⟨rfl, rfl⟩ := List.cons.inj h
      exact ⟨fun h => hc (.inr h), hs⟩

theorem trim_cons_of_not_mem {ps : List (List α)} {p : List α} (hc : p ∉ comments)
    (hs : p ∉ skips) : trim skips comments nl false (p :: ps) = p :: ps := by
  simp [trim, hc, hs]

end Trim

end Lexing
