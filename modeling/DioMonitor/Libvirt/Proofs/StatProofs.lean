import DioMonitor.Libvirt.Stat
import DioMonitor.Utils.Proofs.NumbersProofs
import Mathlib.Data.List.GetD

/-!
# Proofs: the processor of a vCPU thread

`readCpu` stays inside its buffer exactly for files that are shorter than the buffer and have 39 spaces. It
finds the processor when the name of the command holds one space, as the names of the vCPU threads of
QEMU do; with another number of spaces it takes another field of the line for the processor
(`readCpu_iff`).
-/

namespace Cgroup

open Numbers

/-! ## The loop -/

/-- The loop stops at the 39th space. -/
theorem scan_append {u : Str} (v : Str) {i : ℕ} (j : ℕ) (h : i + u.count ' ' = 38) :
    scan i j (u ++ ' ' :: v) = some (j + u.length) := by
  induction u generalizing i j with
  | nil =>
    obtain rfl : i = 38 := by simpa using h
    rfl
  | cons c u ih =>
    rw [List.cons_append, scan]
    by_cases hc : c = ' '
    · subst hc
      rw [List.count_cons_self] at h
      rw [if_pos rfl, if_neg (by omega), ih (j + 1) (by omega), List.length_cons, Nat.add_right_comm,
        Nat.add_assoc]
    · rw [List.count_cons_of_ne hc] at h
      rw [if_neg hc, ih (j + 1) h, List.length_cons, Nat.add_right_comm, Nat.add_assoc]

/-- With fewer spaces the loop leaves the data. -/
theorem scan_eq_none {s : Str} {i : ℕ} (j : ℕ) (h : i + s.count ' ' ≤ 38) : scan i j s = none := by
  induction s generalizing i j with
  | nil => rfl
  | cons c s ih =>
    rw [scan]
    by_cases hc : c = ' '
    · subst hc
      rw [List.count_cons_self] at h
      rw [if_pos rfl, if_neg (by omega)]
      exact ih (j + 1) (by omega)
    · rw [List.count_cons_of_ne hc] at h
      rw [if_neg hc]
      exact ih (j + 1) h

/-- A text can be cut at each of its spaces. -/
theorem exists_space {s : Str} {n : ℕ} (h : n < s.count ' ') :
    ∃ u v, s = u ++ ' ' :: v ∧ u.count ' ' = n := by
  induction s generalizing n with
  | nil => simp at h
  | cons c s ih =>
    by_cases hc : c = ' '
    · subst hc
      rw [List.count_cons_self] at h
      cases n with
      | zero => exact ⟨[], s, rfl, rfl⟩
      | succ n =>
        obtain ⟨u, v, rfl, hu⟩ := ih (n := n) (by omega)
        exact ⟨' ' :: u, v, rfl, by rw [List.count_cons_self, hu]⟩
    · rw [List.count_cons_of_ne hc] at h
      obtain ⟨u, v, rfl, hu⟩ := ih h
      exact ⟨c :: u, v, rfl, by rw [List.count_cons_of_ne hc, hu]⟩

/-! ## Reading inside the buffer -/

/-- The zero is written inside the buffer, and the loop stops inside the bytes that were read. -/
def ReadsInside (file : Str) : Prop :=
  (file.take bufferSize).length < bufferSize ∧
    ∃ j < (file.take bufferSize).length, scan 0 0 (file.take bufferSize) = some j

theorem take_of_lt {file : Str} (h : file.length < bufferSize) : file.take bufferSize = file :=
  List.take_of_length_le (Nat.le_of_lt h)

theorem readsInside_iff (file : Str) :
    ReadsInside file ↔ file.length < bufferSize ∧ 39 ≤ file.count ' ' := by
  have hlen : (file.take bufferSize).length < bufferSize ↔ file.length < bufferSize := by
    rw [List.length_take]
    omega
  unfold ReadsInside
  rw [hlen]
  refine and_congr_right fun hlt => ?_
  rw [take_of_lt hlt]
  constructor
  · rintro ⟨j, -, hj⟩
    by_contra hfew
    rw [scan_eq_none 0 (by omega)] at hj
    exact absurd hj (by simp)
  · intro hmany
    obtain ⟨u, v, rfl, hu⟩ := exists_space (n := 38) hmany
    refine ⟨0 + u.length, ?_, scan_append v 0 (by omega)⟩
    rw [List.length_append, List.length_cons]
    omega

/-- What `readCpu` returns: the number behind the 39th space. -/
theorem readCpu_eq {u v : Str} (hlt : (u ++ ' ' :: v).length < bufferSize) (hu : u.count ' ' = 38) :
    readCpu (some (u ++ ' ' :: v)) = .ok (atoi v % 2 ^ 32).toNat := by
  have hscan : scan 0 0 (u ++ ' ' :: v) = some u.length := by
    rw [scan_append v 0 (by omega), Nat.zero_add]
  have hdrop : (u ++ ' ' :: v).drop u.length = ' ' :: v := List.drop_left
  unfold readCpu
  dsimp only
  rw [take_of_lt hlt, if_pos hlt, hscan]
  dsimp only
  rw [hdrop, atoi_blank (by decide)]

/-- The fault is an access outside the buffer or outside the data. -/
theorem readCpu_ok_iff (file : Str) : (∃ p, readCpu (some file) = .ok p) ↔ ReadsInside file := by
  constructor
  · rintro ⟨p, hp⟩
    rw [readsInside_iff]
    unfold readCpu at hp
    dsimp only at hp
    by_cases hlt : file.length < bufferSize
    · refine ⟨hlt, ?_⟩
      rw [take_of_lt hlt, if_pos hlt] at hp
      by_contra hfew
      rw [scan_eq_none 0 (by omega)] at hp
      exact absurd hp (by simp)
    · rw [if_neg (by rw [List.length_take]; omega)] at hp
      exact absurd hp (by simp)
  · intro h
    obtain ⟨hlt, hmany⟩ := (readsInside_iff file).mp h
    obtain ⟨u, v, rfl, hu⟩ := exists_space (n := 38) hmany
    exact ⟨_, readCpu_eq hlt hu⟩

/-! ## Numbers in a line -/

theorem count_toDigits (n : ℕ) : (Nat.toDigits 10 n).count ' ' = 0 := by
  refine List.count_eq_zero.mpr fun hmem => ?_
  exact absurd ((ofDigits_toDigits n).1.2 ' ' hmem) (by decide)

theorem count_showInt (i : ℤ) : (Config.showInt i).count ' ' = 0 := by
  refine List.count_eq_zero.mpr fun hmem => ?_
  rcases (numeral_showInt i).chars hmem with h | h | h
  · exact absurd h (by decide)
  · exact absurd h (by decide)
  · exact absurd h (by decide)

/-- A field is read up to the character behind it. -/
theorem atoi_showInt (i : ℤ) {c : Char} (hc : c.isDigit = false) (t : Str) :
    atoi (Config.showInt i ++ c :: t) = StatLine.asInt i := by
  obtain ⟨neg, sign, ds, hs, hd, hsign, hi⟩ := numeral_showInt i
  have hread := strtol_numeral (t := c :: t) hs hd fun a u h => by rwa [← (List.cons.inj h).1]
  rw [hsign, List.append_assoc, atoi, toLong, hread, ← hi]
  rfl

/-- A letter begins no number. -/
theorem atoi_letter {c : Char} (hc : c.isAlpha = true) (t : Str) : atoi (c :: t) = 0 := by
  have hne : ∀ d : Char, d.isAlpha = false → c ≠ d := by
    rintro d hd rfl
    rw [hd] at hc
    cases hc
  have hval : 65 ≤ c.toNat := by
    have hcase : c.isUpper = true ∨ c.isLower = true := Bool.or_eq_true _ _ ▸ hc
    rcases hcase with hupper | hlower
    · have hrange : decide ('A'.val ≤ c.val ∧ c.val ≤ 'Z'.val) = true := hupper
      exact UInt32.le_iff_toNat_le.mp (of_decide_eq_true hrange).1
    · have hrange : (decide ('a'.val ≤ c.val) && decide (c.val ≤ 'z'.val)) = true := hlower
      have hlow := of_decide_eq_true (Bool.and_elim_left hrange)
      exact Nat.le_trans (by decide) (UInt32.le_iff_toNat_le.mp hlow)
  have hdigit : c.isDigit = false := by
    rw [Bool.eq_false_iff]
    intro h
    have hhi := (isDigit_iff.mp h).2
    omega
  have hspace : isSpace c = false := by
    rw [Bool.eq_false_iff]
    intro h
    rcases isSpace_iff.mp h with rfl | h
    · exact absurd hval (by decide)
    · omega
  have hnosign : ∀ a u, c :: t = a :: u → a ≠ '-' ∧ a ≠ '+' := by
    intro a u h
    rw [← (List.cons.inj h).1]
    exact ⟨hne _ (by decide), hne _ (by decide)⟩
  have hsigns : ([] : Str) ∈ signs false := List.mem_cons_self
  have hsign : splitSign (c :: t) = (false, c :: t) := splitSign_append hsigns hnosign
  have hnone : strtol (c :: t) = none := by
    rw [strtol, List.dropWhile_cons_of_neg (by simp [hspace]), hsign]
    exact if_pos (List.takeWhile_cons_of_neg (by simp [hdigit]))
  rw [atoi, toLong, hnone]
  rfl

theorem dropWhile_paren (s t : Str) :
    (s ++ ')' :: t).dropWhile isSpace = s.dropWhile isSpace ++ ')' :: t := by
  induction s with
  | nil => exact List.dropWhile_cons_of_neg (by decide)
  | cons c s ih =>
    cases hc : isSpace c with
    | true => rw [List.cons_append, List.dropWhile_cons_of_pos hc, List.dropWhile_cons_of_pos hc, ih]
    | false =>
      rw [List.cons_append, List.dropWhile_cons_of_neg (by simp [hc]), List.dropWhile_cons_of_neg (by simp [hc])]
      rfl

theorem takeWhile_paren (s t : Str) :
    (s ++ ')' :: t).takeWhile Char.isDigit = s.takeWhile Char.isDigit := by
  induction s with
  | nil => exact List.takeWhile_cons_of_neg (by decide)
  | cons c s ih =>
    cases hc : c.isDigit with
    | true => rw [List.cons_append, List.takeWhile_cons_of_pos hc, List.takeWhile_cons_of_pos hc, ih]
    | false =>
      rw [List.cons_append, List.takeWhile_cons_of_neg (by simp [hc]), List.takeWhile_cons_of_neg (by simp [hc])]

theorem splitSign_paren (s t : Str) :
    splitSign (s ++ ')' :: t) = ((splitSign s).1, (splitSign s).2 ++ ')' :: t) := by
  cases s with
  | nil => rfl
  | cons c s =>
    unfold splitSign
    split <;> simp_all

/-- A number ends in front of a parenthesis. -/
theorem atoi_paren (s t : Str) : atoi (s ++ ')' :: t) = atoi s := by
  have hread : strtol (s ++ ')' :: t) = strtol s := by
    unfold strtol
    rw [dropWhile_paren, splitSign_paren]
    dsimp only
    rw [takeWhile_paren]
  rw [atoi, toLong, hread]
  rfl

/-! ## Well-formed lines -/

namespace StatLine

/-- One space for each field. -/
theorem count_fields (is : List ℤ) : (is.flatMap field).count ' ' = is.length := by
  induction is with
  | nil => rfl
  | cons i is ih =>
    rw [List.flatMap_cons, List.count_append, ih, field, List.count_cons_self, count_showInt,
      List.length_cons]
    omega

variable {l : StatLine}

/-- What stands in front of the parenthesis behind the name. -/
def upToName (l : StatLine) : Str := Nat.toDigits 10 l.pid ++ (" (".toList ++ l.comm)

theorem count_upToName (l : StatLine) : l.upToName.count ' ' = l.spaces + 1 := by
  have hopen : (" (".toList).count ' ' = 1 := rfl
  rw [upToName, List.count_append, List.count_append, count_toDigits, hopen, spaces]
  omega

theorem state_ne (l : StatLine) : l.state ≠ ' ' := by
  intro h
  have hletter := l.state_letter
  rw [h] at hletter
  exact absurd hletter (by decide)

/-- The line, cut in front of the state. -/
theorem text_eq_state (l : StatLine) :
    l.text = (l.upToName ++ [')']) ++ ' ' :: l.state :: (l.before.flatMap field ++ ' ' :: l.from39) := by
  simp [text, upTo38, upToName]

/-- A field ends in front of a space. -/
theorem exists_space_fields (is : List ℤ) (v : Str) : ∃ t, is.flatMap field ++ ' ' :: v = ' ' :: t := by
  cases is with
  | nil => exact ⟨v, rfl⟩
  | cons i is => exact ⟨_, rfl⟩

/-- The line, cut in front of one of the fields 4 to 38. -/
theorem text_eq_before (l : StatLine) {m : ℕ} (hm : m < 35) :
    ∃ t, l.text = (l.upToName ++ ([')', ' ', l.state] ++ (l.before.take m).flatMap field)) ++
      ' ' :: (Config.showInt (l.before.getD m 0) ++ ' ' :: t) := by
  have hlt : m < l.before.length := by rwa [l.before_length]
  obtain ⟨t, ht⟩ := exists_space_fields (l.before.drop (m + 1)) l.from39
  refine ⟨t, ?_⟩
  have hsplit : l.before.flatMap field =
      (l.before.take m).flatMap field ++
        (' ' :: Config.showInt (l.before.getD m 0) ++ (l.before.drop (m + 1)).flatMap field) := by
    conv_lhs => rw [← List.take_append_drop m l.before, List.drop_eq_getElem_cons hlt]
    rw [List.flatMap_append, List.flatMap_cons, List.getD_eq_getElem _ _ hlt]
    rfl
  rw [← ht, text, upTo38, hsplit]
  simp [upToName]

/-- The line, cut in front of field 40. -/
theorem text_eq_40 {i : ℤ} {is : List ℤ} (h : l.after = i :: is) :
    ∃ c t, c.isDigit = false ∧ l.text = (l.upTo38 ++ ' ' :: Nat.toDigits 10 l.processor) ++
      ' ' :: (Config.showInt i ++ c :: t) := by
  have hend : ∃ c t, c.isDigit = false ∧ is.flatMap field ++ ['\n'] = c :: t := by
    cases is with
    | nil => exact ⟨'\n', [], by decide, rfl⟩
    | cons i is => exact ⟨' ', _, by decide, rfl⟩
  obtain ⟨c, t, hc, ht⟩ := hend
  refine ⟨c, t, hc, ?_⟩
  rw [← ht, text, from39, h]
  simp [field]

/-- The line, cut inside the name. -/
theorem text_eq_name {a b : Str} (h : l.comm = a ++ ' ' :: b) :
    ∃ t, l.text = (Nat.toDigits 10 l.pid ++ (" (".toList ++ a)) ++ ' ' :: (b ++ ')' :: t) := by
  refine ⟨' ' :: (l.state :: l.before.flatMap field) ++ ' ' :: l.from39, ?_⟩
  rw [text, upTo38, h]
  simp

theorem behind_append {a : Str} (b : Str) {n : ℕ} (h : a.count ' ' = n) :
    behind (n + 1) (a ++ ' ' :: b) = b := by
  induction a generalizing n with
  | nil =>
    obtain rfl : n = 0 := by simpa using h.symm
    simp [behind]
  | cons c a ih =>
    rw [List.cons_append, behind]
    by_cases hc : c = ' '
    · subst hc
      rw [List.count_cons_self] at h
      obtain ⟨n, rfl⟩ : ∃ m, n = m + 1 := ⟨a.count ' ', h.symm⟩
      rw [if_pos rfl]
      exact ih (by omega)
    · rw [List.count_cons_of_ne hc] at h
      rw [if_neg hc]
      exact ih h

/-- In front of field 39 there are 37 spaces and those of the name. -/
theorem count_upTo38 (l : StatLine) : l.upTo38.count ' ' = l.spaces + 37 := by
  have hopen : (" (".toList).count ' ' = 1 := rfl
  have hclose : (") ".toList).count ' ' = 1 := rfl
  unfold upTo38 spaces
  rw [List.count_append, List.count_append, List.count_append, List.count_append, count_toDigits, hopen,
    hclose, List.count_cons_of_ne l.state_ne, count_fields, l.before_length]
  omega

theorem atoi_from39 (l : StatLine) : atoi l.from39 = l.processor := by
  obtain ⟨hd, hn⟩ := ofDigits_toDigits l.processor
  have hend : ∀ c u, l.after.flatMap field ++ ['\n'] = c :: u → c.isDigit = false := by
    intro c u h
    cases hafter : l.after with
    | nil =>
      rw [hafter] at h
      obtain ⟨rfl, -⟩ := List.cons.inj h
      decide
    | cons i is =>
      rw [hafter] at h
      obtain ⟨rfl, -⟩ := List.cons.inj h
      decide
  have hlt : ofDigits 10 (Nat.toDigits 10 l.processor) < 2 ^ 31 := hn.trans_lt l.processor_lt
  have hread := atoi_digits (t := l.after.flatMap field ++ ['\n']) hd hend hlt
  rwa [hn] at hread

/-- What `readCpu` makes of a line that is cut at its 39th space. -/
theorem readCpu_cut (hlt : l.text.length < bufferSize) {u v : Str} (heq : l.text = u ++ ' ' :: v)
    (hu : u.count ' ' = 38) : readCpu (some l.text) = .ok l.processor ↔ atoi v = l.processor := by
  have hrun : readCpu (some l.text) = .ok (atoi v % 2 ^ 32).toNat := by
    rw [heq] at hlt ⊢
    exact readCpu_eq hlt hu
  have hbounds := atoi_bounds v
  have hproc := l.processor_lt
  rw [hrun, Except.ok.injEq]
  omega

/-! ## The field at the 39th space -/

/-- Without a space in the name it is field 40, for want of which the line has no 39th space. -/
theorem readCpu_of_zero (h : ReadsInside l.text) (hspaces : l.spaces = 0) :
    readCpu (some l.text) = .ok l.processor ↔ ∃ i ∈ l.after.head?, asInt i = l.processor := by
  obtain ⟨hlt, hmany⟩ := (readsInside_iff l.text).mp h
  cases hafter : l.after with
  | nil =>
    rw [text, from39, hafter, List.count_append, count_upTo38, hspaces, List.count_cons_self,
      List.count_append, count_toDigits] at hmany
    exact absurd hmany (by decide)
  | cons i is =>
    obtain ⟨c, t, hc, ht⟩ := l.text_eq_40 hafter
    have hu : (l.upTo38 ++ ' ' :: Nat.toDigits 10 l.processor).count ' ' = 38 := by
      rw [List.count_append, count_upTo38, hspaces, List.count_cons_self, count_toDigits]
    rw [readCpu_cut hlt ht hu, atoi_showInt i hc]
    simp

/-- With one space it is field 39. -/
theorem readCpu_of_one (hlt : l.text.length < bufferSize) (hspaces : l.spaces = 1) :
    readCpu (some l.text) = .ok l.processor := by
  have hu : l.upTo38.count ' ' = 38 := by rw [count_upTo38, hspaces]
  exact (readCpu_cut hlt rfl hu).mpr l.atoi_from39

/-- With up to 36 spaces it is one of the fields 4 to 38. -/
theorem readCpu_of_le (hlt : l.text.length < bufferSize) (hlo : 2 ≤ l.spaces) (hhi : l.spaces ≤ 36) :
    readCpu (some l.text) = .ok l.processor ↔
      asInt (l.before.getD (36 - l.spaces) 0) = l.processor := by
  obtain ⟨t, ht⟩ := l.text_eq_before (m := 36 - l.spaces) (by omega)
  have hu : (l.upToName ++
      ([')', ' ', l.state] ++ (l.before.take (36 - l.spaces)).flatMap field)).count ' ' = 38 := by
    have hclose : [')', ' ', l.state].count ' ' = 1 := by
      simp [l.state_ne]
    rw [List.count_append, count_upToName, List.count_append, hclose, count_fields, List.length_take,
      l.before_length]
    omega
  rw [readCpu_cut hlt ht hu, atoi_showInt _ (by decide)]

/-- With 37 spaces it is the state. -/
theorem readCpu_of_state (hlt : l.text.length < bufferSize) (hspaces : l.spaces = 37) :
    readCpu (some l.text) = .ok l.processor ↔ l.processor = 0 := by
  have hu : (l.upToName ++ [')']).count ' ' = 38 := by
    have hclose : [')'].count ' ' = 0 := rfl
    rw [List.count_append, count_upToName, hspaces, hclose]
  rw [readCpu_cut hlt l.text_eq_state hu, atoi_letter l.state_letter]
  omega

/-- With more spaces it is a piece of the name. -/
theorem readCpu_of_name (hlt : l.text.length < bufferSize) (hspaces : 38 ≤ l.spaces) :
    readCpu (some l.text) = .ok l.processor ↔ atoi (behind 38 l.comm) = l.processor := by
  obtain ⟨a, b, hcomm, ha⟩ := exists_space (s := l.comm) (n := 37) hspaces
  obtain ⟨t, ht⟩ := l.text_eq_name hcomm
  have hu : (Nat.toDigits 10 l.pid ++ (" (".toList ++ a)).count ' ' = 38 := by
    have hopen : (" (".toList).count ' ' = 1 := rfl
    rw [List.count_append, List.count_append, count_toDigits, hopen, ha]
  rw [readCpu_cut hlt ht hu, atoi_paren, hcomm, behind_append b ha]

end StatLine

/-- The result is the processor of field 39 exactly for a name with one space, and by chance. -/
theorem readCpu_line_iff {l : StatLine} (h : ReadsInside l.text) :
    readCpu (some l.text) = .ok l.processor ↔ l.spaces = 1 ∨ l.Coincides := by
  have hlt := ((readsInside_iff l.text).mp h).1
  unfold StatLine.Coincides
  rcases Nat.lt_trichotomy l.spaces 1 with hzero | hone | hmore
  · have hnone : l.spaces = 0 := by omega
    rw [StatLine.readCpu_of_zero h hnone]
    simp [hnone]
  · exact iff_of_true (StatLine.readCpu_of_one hlt hone) (Or.inl hone)
  · rcases Nat.lt_trichotomy l.spaces 37 with hfield | hstate | hname
    · rw [StatLine.readCpu_of_le hlt hmore (by omega)]
      omega
    · rw [StatLine.readCpu_of_state hlt hstate]
      omega
    · rw [StatLine.readCpu_of_name hlt hname]
      omega

/-- `readCpu` stays inside its data and finds the processor of every well-formed line exactly when the
file is shorter than the buffer, has 39 spaces and, for a well-formed line, the name of the command
holds one space, or the field that is taken for the processor has the same value. -/
theorem readCpu_iff (file : Str) :
    (ReadsInside file ∧ ∀ l : StatLine, l.text = file → readCpu (some file) = .ok l.processor) ↔
      (file.length < bufferSize ∧ 39 ≤ file.count ' ') ∧
        ∀ l : StatLine, l.text = file → l.spaces = 1 ∨ l.Coincides := by
  rw [← readsInside_iff]
  refine and_congr_right fun hinside => forall_congr' fun l => forall_congr' ?_
  rintro rfl
  exact readCpu_line_iff hinside

/-- The line of a thread with the given name, on the processor 3. -/
def plainLine (comm : Str) : StatLine where
  pid := 7
  comm := comm
  state := 'S'
  before := List.replicate 35 0
  processor := 3
  after := [1, 0]
  state_letter := by decide
  before_length := rfl
  processor_lt := by decide

/-- The zero behind the end of an empty file is no space, and the loop goes on; a name without spaces
makes it stop one field too late. -/
theorem readCpu_wrong :
    ¬ ReadsInside [] ∧
      ¬ (readCpu (some (plainLine "worker".toList).text) =
        .ok (plainLine "worker".toList).processor) := by
  refine ⟨?_, ?_⟩
  · rw [readsInside_iff]
    exact fun h => absurd h.2 (by decide)
  · have hrun : readCpu (some (plainLine "worker".toList).text) = .ok 1 := by decide +kernel
    rw [hrun]
    exact fun h => absurd (Except.ok.inj h) (by decide)

end Cgroup
