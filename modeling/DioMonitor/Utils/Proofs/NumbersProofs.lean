import DioMonitor.Utils.Literals

/-!
# Proofs: reading numbers

A decimal literal is read in its whole length, as the number that it stands for.
-/

namespace Numbers

theorem isDigit_iff {c : Char} : c.isDigit = true ↔ 48 ≤ c.toNat ∧ c.toNat ≤ 57 := by
  simp only [Char.isDigit, Bool.and_eq_true, decide_eq_true_eq, ge_iff_le, UInt32.le_iff_toNat_le]
  rfl

theorem isSpace_iff {c : Char} : isSpace c = true ↔ c = ' ' ∨ 9 ≤ c.toNat ∧ c.toNat ≤ 13 := by
  simp only [isSpace, Bool.or_eq_true, Bool.and_eq_true, decide_eq_true_eq, Char.le_def,
    UInt32.le_iff_toNat_le]
  rfl

theorem isSpace_of_isDigit {c : Char} (hc : c.isDigit = true) : isSpace c = false := by
  have hdigit := isDigit_iff.mp hc
  rw [Bool.eq_false_iff]
  intro hspace
  rcases isSpace_iff.mp hspace with rfl | h
  · exact absurd hdigit (by decide)
  · omega

/-- A text that begins with a sign and a digit does not begin with a blank. -/
theorem dropWhile_isSpace {neg : Bool} {sign u : Str} (hs : sign ∈ signs neg)
    (hd : ∀ c t, u = c :: t → isSpace c = false) : (sign ++ u).dropWhile isSpace = sign ++ u := by
  have hnil : u.dropWhile isSpace = u := by
    cases u with
    | nil => rfl
    | cons c t => exact List.dropWhile_cons_of_neg (by simp [hd c t rfl])
  cases neg with
  | true =>
    obtain rfl : sign = ['-'] := by simpa [signs] using hs
    rfl
  | false =>
    have hs' : sign = [] ∨ sign = ['+'] := by simpa [signs] using hs
    rcases hs' with rfl | rfl
    · exact hnil
    · rfl

theorem splitSign_append {neg : Bool} {sign u : Str} (hs : sign ∈ signs neg)
    (hd : ∀ c t, u = c :: t → c ≠ '-' ∧ c ≠ '+') : splitSign (sign ++ u) = (neg, u) := by
  cases neg with
  | true =>
    obtain rfl : sign = ['-'] := by simpa [signs] using hs
    rfl
  | false =>
    have hs' : sign = [] ∨ sign = ['+'] := by simpa [signs] using hs
    rcases hs' with rfl | rfl
    · cases u with
      | nil => rfl
      | cons c t =>
        obtain ⟨h1, h2⟩ := hd c t rfl
        rw [List.nil_append, splitSign]
        · rintro s h
          exact h1 (List.cons.inj h).1
        · rintro s h
          exact h2 (List.cons.inj h).1
    · rfl

theorem ne_sign_of_isDigit {c : Char} (hc : c.isDigit = true) : c ≠ '-' ∧ c ≠ '+' := by
  constructor
  · rintro rfl
    revert hc
    decide
  · rintro rfl
    revert hc
    decide

theorem takeWhile_isDigit {ds t : Str} (hd : ∀ c ∈ ds, c.isDigit = true)
    (ht : ∀ c u, t = c :: u → c.isDigit = false) : (ds ++ t).takeWhile Char.isDigit = ds := by
  induction ds with
  | nil =>
    cases t with
    | nil => rfl
    | cons c u => exact List.takeWhile_cons_of_neg (by simp [ht c u rfl])
  | cons c ds ih =>
    rw [List.cons_append, List.takeWhile_cons_of_pos (hd c (by simp)),
      ih fun c hc => hd c (List.mem_cons_of_mem _ hc)]

theorem Digits.head {ds : Str} (h : Digits ds) (t : Str) {c : Char} {u : Str} (hu : ds ++ t = c :: u) :
    c.isDigit = true := by
  cases ds with
  | nil => exact absurd rfl h.1
  | cons a ds =>
    obtain ⟨rfl, -⟩ := List.cons.inj hu
    exact h.2 a (by simp)

/-- `strtol` reads a decimal integer, and what follows it does not count. -/
theorem strtol_numeral {neg : Bool} {sign ds t : Str} (hs : sign ∈ signs neg) (hd : Digits ds)
    (ht : ∀ c u, t = c :: u → c.isDigit = false) :
    strtol (sign ++ (ds ++ t)) = some (signed neg (ofDigits 10 ds)) := by
  have hdrop := dropWhile_isSpace (u := ds ++ t) hs fun c u h => isSpace_of_isDigit (hd.head t h)
  have hsign := splitSign_append (u := ds ++ t) hs fun c u h => ne_sign_of_isDigit (hd.head t h)
  rw [strtol, hdrop, hsign]
  dsimp only
  rw [takeWhile_isDigit hd.2 ht, if_neg hd.1]
  rfl

theorem atoi_of_strtol {s : Str} {i : ℤ} (h : strtol s = some i) (hlo : -2 ^ 31 ≤ i) (hhi : i < 2 ^ 31) :
    atoi s = i := by
  have hlong : toLong s = i := by
    rw [toLong, h, Option.getD_some]
    omega
  rw [atoi, hlong]
  exact Int.bmod_eq_of_le (by omega) (by omega)

theorem atoi_bounds (s : Str) : -2 ^ 31 ≤ atoi s ∧ atoi s < 2 ^ 31 :=
  ⟨Int.le_bmod (by decide), Int.bmod_lt (by decide)⟩

/-- A blank in front of a number does not count. -/
theorem atoi_blank {c : Char} (hc : isSpace c = true) (s : Str) : atoi (c :: s) = atoi s := by
  unfold atoi toLong strtol
  rw [List.dropWhile_cons_of_pos hc]

/-- `atoi` reads digits up to a character that is none. -/
theorem atoi_digits {ds t : Str} (hd : Digits ds) (ht : ∀ c u, t = c :: u → c.isDigit = false)
    (hlt : ofDigits 10 ds < 2 ^ 31) : atoi (ds ++ t) = ofDigits 10 ds := by
  have hread : strtol (ds ++ t) = some (ofDigits 10 ds : ℤ) :=
    strtol_numeral (show [] ∈ signs false from List.mem_cons_self) hd ht
  exact atoi_of_strtol hread (by omega) (by omega)

theorem stoi_numeral {x : Str} {i : ℤ} (h : Numeral x i) (hlo : -2 ^ 31 ≤ i) (hhi : i < 2 ^ 31) :
    stoi x = .ok i := by
  obtain ⟨neg, sign, ds, hs, hd, rfl, rfl⟩ := h
  have hread := strtol_numeral (t := []) hs hd nofun
  rw [List.append_nil] at hread
  rw [stoi, hread]
  exact if_pos ⟨hlo, hhi⟩

/-- A decimal integer is made of digits and of a sign. -/
theorem Numeral.chars {x : Str} {i : ℤ} (h : Numeral x i) {c : Char} (hc : c ∈ x) :
    c = '-' ∨ c = '+' ∨ c.isDigit = true := by
  obtain ⟨neg, sign, ds, hs, hd, rfl, rfl⟩ := h
  rcases List.mem_append.mp hc with hc | hc
  · cases neg with
    | true =>
      obtain rfl : sign = ['-'] := by simpa [signs] using hs
      exact .inl (List.mem_singleton.mp hc)
    | false =>
      have hs' : sign = [] ∨ sign = ['+'] := by simpa [signs] using hs
      rcases hs' with rfl | rfl
      · exact absurd hc List.not_mem_nil
      · exact .inr (.inl (List.mem_singleton.mp hc))
  · exact .inr (.inr (hd.2 c hc))

theorem Numeral.ne_nil {x : Str} {i : ℤ} (h : Numeral x i) : x ≠ [] := by
  obtain ⟨neg, sign, ds, -, hd, rfl, -⟩ := h
  simp [hd.1]

/-- `std::stoi` reads a decimal integer as its value, or throws. -/
theorem numeral_of_stoi {x : Str} {i j : ℤ} (hx : Numeral x i) (h : stoi x = .ok j) :
    i = j ∧ -2 ^ 31 ≤ i ∧ i < 2 ^ 31 := by
  obtain ⟨neg, sign, ds, hs, hd, rfl, rfl⟩ := hx
  have hread := strtol_numeral (t := []) hs hd nofun
  rw [List.append_nil] at hread
  unfold stoi at h
  rw [hread] at h
  dsimp only at h
  split_ifs at h with hbounds
  exact ⟨Except.ok.inj h, hbounds⟩

/-! ## Reals -/

theorem dropWhile_isDigit {ds t : Str} (hd : ∀ c ∈ ds, c.isDigit = true)
    (ht : ∀ c u, t = c :: u → c.isDigit = false) : (ds ++ t).dropWhile Char.isDigit = t := by
  have hsplit := List.takeWhile_append_dropWhile (p := Char.isDigit) (l := ds ++ t)
  rw [takeWhile_isDigit hd ht] at hsplit
  exact List.append_cancel_left hsplit

/-- The first character of a number that is not negative. -/
theorem head_point {ip t : Str} (hd : ∀ c ∈ ip, c.isDigit = true) {c : Char} {u : Str}
    (h : ip ++ '.' :: t = c :: u) : c.isDigit = true ∨ c = '.' := by
  cases ip with
  | nil => exact .inr (List.cons.inj h).1.symm
  | cons a ip =>
    obtain ⟨rfl, -⟩ := List.cons.inj h
    exact .inl (hd a (by simp))

theorem toLower_of_isDigit {c : Char} (hc : c.isDigit = true ∨ c = '.') : c.toLower = c := by
  rcases hc with hc | rfl
  · have hdigit := isDigit_iff.mp hc
    have hnot : ¬ (c.val ≥ 'A'.val ∧ c.val ≤ 'Z'.val) := by
      rintro ⟨h, -⟩
      have hle : 65 ≤ c.toNat := UInt32.le_iff_toNat_le.mp h
      omega
    unfold Char.toLower
    rw [dif_neg hnot]
  · decide

theorem beginsWith_eq_false {w s : Str} {a : Char} (ha : a.toLower = a ∧ a ≠ '.' ∧ a.isDigit = false)
    (hs : ∀ c u, s = c :: u → c.isDigit = true ∨ c = '.') : beginsWith (a :: w) s = false := by
  rw [Bool.eq_false_iff]
  intro h
  have h' := of_decide_eq_true h
  cases s with
  | nil => cases h'
  | cons c u =>
    have hc := hs c u rfl
    have hhead : c.toLower = a := (List.cons.inj h').1
    rw [toLower_of_isDigit hc] at hhead
    subst hhead
    rcases hc with hc | hc
    · rw [ha.2.2] at hc
      cases hc
    · exact ha.2.1 hc

theorem hexBody_eq_none {ip t : Str} (hd : ∀ c ∈ ip, c.isDigit = true) :
    hexBody (ip ++ '.' :: t) = none := by
  unfold hexBody
  split
  · next x s h =>
    have hx : x.isDigit = true ∨ x = '.' := by
      cases ip with
      | nil => cases h
      | cons a ip => exact head_point (fun c hc => hd c (List.mem_cons_of_mem _ hc)) (List.cons.inj h).2
    apply if_neg
    intro hhex
    have hlower := hhex.1
    rw [toLower_of_isDigit hx] at hlower
    subst hlower
    rcases hx with hx | hx
    · revert hx
      decide
    · exact absurd hx (by decide)
  · rfl

theorem Exponent.head {ex : Str} {e : ℤ} (h : Exponent ex e) {c : Char} {u : Str} (hu : ex = c :: u) :
    c.isDigit = false := by
  cases h with
  | absent => cases hu
  | present hm =>
    obtain ⟨rfl, -⟩ := List.cons.inj hu
    rw [Bool.eq_false_iff]
    intro hdigit
    rw [toLower_of_isDigit (.inl hdigit)] at hm
    subst hm
    revert hdigit
    decide

theorem Exponent.read {ex : Str} {e : ℤ} (h : Exponent ex e) : exponent 'e' ex = e := by
  cases h with
  | absent => rfl
  | @present mark neg sign ds hm hs hd =>
    have hhead : ∀ c t, ds = c :: t → c ≠ '-' ∧ c ≠ '+' := fun c t hu =>
      ne_sign_of_isDigit (hd.head [] (by rw [List.append_nil, hu]))
    have htake := takeWhile_isDigit (t := []) hd.2 nofun
    rw [List.append_nil] at htake
    rw [exponent, if_pos hm, splitSign_append hs hhead]
    dsimp only
    rw [htake]
    rfl

/-- `std::stof` reads a decimal number with a point as the `float` nearest to it. -/
theorem stof_decimal {x : Str} {neg : Bool} {q : ℚ} (h : Decimal x neg q) : stof x = toFloat neg q := by
  obtain ⟨sign, ip, fp, ex, e, hs, hd, he, rfl, rfl⟩ := h
  have hip : ∀ c ∈ ip, c.isDigit = true := fun c hc => hd.2 c (List.mem_append_left _ hc)
  have hfp : ∀ c ∈ fp, c.isDigit = true := fun c hc => hd.2 c (List.mem_append_right _ hc)
  have hhead : ∀ c u, ip ++ '.' :: (fp ++ ex) = c :: u → c.isDigit = true ∨ c = '.' :=
    fun c u => head_point hip
  have hdrop := dropWhile_isSpace (u := ip ++ '.' :: (fp ++ ex)) hs fun c u hu => by
    rcases hhead c u hu with hc | rfl
    · exact isSpace_of_isDigit hc
    · decide
  have hsign := splitSign_append (u := ip ++ '.' :: (fp ++ ex)) hs fun c u hu => by
    rcases hhead c u hu with hc | rfl
    · exact ne_sign_of_isDigit hc
    · decide
  have hpoint : splitPoint Char.isDigit (ip ++ '.' :: (fp ++ ex)) = (ip, fp, ex) := by
    have hrest := dropWhile_isDigit (t := '.' :: (fp ++ ex)) hip fun c u hu => by
      obtain ⟨rfl, -⟩ := List.cons.inj hu
      decide
    have hint := takeWhile_isDigit (t := '.' :: (fp ++ ex)) hip fun c u hu => by
      obtain ⟨rfl, -⟩ := List.cons.inj hu
      decide
    unfold splitPoint
    rw [hrest, hint]
    show (ip, (fp ++ ex).takeWhile Char.isDigit, (fp ++ ex).dropWhile Char.isDigit) = _
    rw [takeWhile_isDigit hfp fun c u hu => he.head hu, dropWhile_isDigit hfp fun c u hu => he.head hu]
  rw [stof, strtof, hdrop, hsign]
  dsimp only
  rw [beginsWith_eq_false (by decide) hhead, beginsWith_eq_false (by decide) hhead, hexBody_eq_none hip,
    hpoint, he.read]
  dsimp only
  rw [if_neg (by decide), if_neg (by decide), if_neg hd.1]
  rfl

/-! ## Writing integers -/

theorem ofDigits_eq {ds : Str} (hd : ∀ c ∈ ds, c.isDigit = true) (n : ℕ) :
    ds.foldl (fun n c => 10 * n + digitVal c) n = Nat.ofDigitChars 10 ds n := by
  induction ds generalizing n with
  | nil => rfl
  | cons c ds ih =>
    have hval : digitVal c = c.toNat - '0'.toNat := if_pos (hd c (by simp))
    rw [List.foldl_cons, ih (fun c hc => hd c (List.mem_cons_of_mem _ hc)), hval,
      Nat.ofDigitChars_cons]

theorem digitVal_lt {c : Char} (hc : c.isDigit = true) : digitVal c < 10 := by
  have hval : digitVal c = c.toNat - '0'.toNat := if_pos hc
  have hzero : '0'.toNat = 48 := rfl
  obtain ⟨hlo, hhi⟩ := isDigit_iff.mp hc
  omega

/-- Digits are worth less than the power of ten with as many zeros. -/
theorem ofDigits_lt {ds : Str} (hd : ∀ c ∈ ds, c.isDigit = true) :
    ofDigits 10 ds < 10 ^ ds.length := by
  have key : ∀ (ds : Str) (n : ℕ), (∀ c ∈ ds, c.isDigit = true) →
      ds.foldl (fun n c => 10 * n + digitVal c) n < (n + 1) * 10 ^ ds.length := by
    intro ds
    induction ds with
    | nil => intro n _; simp
    | cons c ds ih =>
      intro n hd
      have hc := digitVal_lt (hd c (by simp))
      have hrest := ih (10 * n + digitVal c) fun a ha => hd a (List.mem_cons_of_mem _ ha)
      rw [List.foldl_cons, List.length_cons]
      calc ds.foldl (fun n c => 10 * n + digitVal c) (10 * n + digitVal c)
          < (10 * n + digitVal c + 1) * 10 ^ ds.length := hrest
        _ ≤ ((n + 1) * 10) * 10 ^ ds.length := Nat.mul_le_mul_right _ (by omega)
        _ = (n + 1) * 10 ^ (ds.length + 1) := by rw [Nat.mul_assoc, Nat.pow_succ']
  have h := key ds 0 hd
  rwa [Nat.zero_add, Nat.one_mul] at h

theorem ofDigits_toDigits (n : ℕ) : Digits (Nat.toDigits 10 n) ∧ ofDigits 10 (Nat.toDigits 10 n) = n := by
  have hdigit : ∀ c ∈ Nat.toDigits 10 n, c.isDigit = true :=
    fun c hc => Nat.isDigit_of_mem_toDigits (by decide) (by decide) hc
  refine ⟨⟨Nat.toDigits_ne_nil, hdigit⟩, ?_⟩
  rw [ofDigits, ofDigits_eq hdigit, Nat.ofDigitChars_ten_toDigits]

/-- An integer is written as a decimal literal of its value. -/
theorem numeral_showInt (i : ℤ) : Numeral (Config.showInt i) i := by
  cases i with
  | ofNat n =>
    obtain ⟨hd, hn⟩ := ofDigits_toDigits n
    exact ⟨false, [], Nat.toDigits 10 n, by decide, hd, rfl, by rw [hn]; rfl⟩
  | negSucc n =>
    obtain ⟨hd, hn⟩ := ofDigits_toDigits (n + 1)
    exact ⟨true, ['-'], Nat.toDigits 10 (n + 1), by decide, hd, rfl, by rw [hn]; rfl⟩

end Numbers
