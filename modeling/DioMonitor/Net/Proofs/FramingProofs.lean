import DioMonitor.Net.Framing
import DioMonitor.Net.Proofs.StreamProofs
import Mathlib.Data.Nat.ModEq
import Mathlib.Data.List.TakeWhile

/-!
# Proofs: framing

The calls of the receiving end return what was sent exactly when every item arrives whole
(`receiveAll_iff`): a read returns what the piece at the front of the stream holds, also when that is
less than what it asked for, and the rest is left to the next read.
-/

namespace TcpStream

/-! ## Bytes -/

theorem toULong_cons (b : UInt8) (bs : List UInt8) : toULong (b :: bs) = b.toNat + 256 * toULong bs := rfl

/-- The first bytes of a number are its remainder. -/
theorem toULong_take (bs : List UInt8) (m : ℕ) : toULong (bs.take m) = toULong bs % 256 ^ m := by
  induction bs generalizing m with
  | nil => simp [toULong]
  | cons b bs ih =>
    cases m with
    | zero => simp [toULong, Nat.mod_one]
    | succ m =>
      have hb : b.toNat < 256 := b.toNat_lt
      have hmod : (b.toNat + 256 * toULong bs) % 256 = b.toNat := by omega
      have hdiv : (b.toNat + 256 * toULong bs) / 256 = toULong bs := by omega
      rw [List.take_succ_cons, toULong_cons, toULong_cons, ih, pow_succ', Nat.mod_mul, hmod, hdiv]

theorem toULong_zeros_append (n : ℕ) (bs : List UInt8) :
    toULong (List.replicate n 0 ++ bs) = 256 ^ n * toULong bs := by
  induction n with
  | zero => simp
  | succ n ih =>
    rw [List.replicate_succ, List.cons_append, toULong_cons, ih, pow_succ', UInt8.toNat_zero, zero_add]
    ring

theorem toULong_zeros (n : ℕ) : toULong (List.replicate n 0) = 0 := by
  have h := toULong_zeros_append n []
  rw [List.append_nil] at h
  rw [h]
  exact Nat.mul_zero _

/-- A number that is read after `n ≥ 1` bytes that do not belong to it is only right when it is zero. -/
theorem eq_zero_of_shifted {n m j : ℕ} (hn : 1 ≤ n) (h : 256 ^ n * j % 256 ^ m = j) : j = 0 := by
  have hpos : 0 < 256 ^ m := by positivity
  have hlt : j < 256 ^ m := h ▸ Nat.mod_lt _ hpos
  have hone : 1 ≤ 256 ^ n := Nat.one_le_pow _ _ (by norm_num)
  have hdvd : 256 ^ m ∣ (256 ^ n - 1) * j := by
    have hmod : 256 ^ n * j ≡ j [MOD 256 ^ m] := by
      rw [Nat.ModEq, h, Nat.mod_eq_of_lt hlt]
    have hle : j ≤ 256 ^ n * j := Nat.le_mul_of_pos_left j (by omega)
    rw [Nat.sub_mul, one_mul]
    exact (Nat.modEq_iff_dvd' hle).mp hmod.symm
  have hcop : Nat.Coprime (256 ^ m) (256 ^ n - 1) := by
    have hnext : Nat.Coprime (256 ^ n) (256 ^ n - 1) :=
      (Nat.coprime_self_sub_right hone).mpr (Nat.coprime_one_right _)
    exact (hnext.coprime_dvd_left (dvd_pow_self 256 (by omega))).pow_left m
  exact Nat.eq_zero_of_dvd_of_lt (hcop.dvd_of_dvd_mul_left hdvd) hlt

theorem toULong_drop (bs : List UInt8) (k : ℕ) : toULong (bs.drop k) = toULong bs / 256 ^ k := by
  induction bs generalizing k with
  | nil => simp [toULong]
  | cons b bs ih =>
    cases k with
    | zero => simp
    | succ k =>
      have hb : b.toNat < 256 := b.toNat_lt
      have hdiv : (b.toNat + 256 * toULong bs) / 256 = toULong bs := by omega
      rw [List.drop_succ_cons, ih, toULong_cons, pow_succ', ← Nat.div_div_eq_div_mul, hdiv]

theorem eq_zeros_of_toULong {bs : List UInt8} (h : toULong bs = 0) : bs = List.replicate bs.length 0 := by
  induction bs with
  | nil => rfl
  | cons b bs ih =>
    rw [toULong_cons] at h
    have hb : b = 0 := UInt8.toNat_inj.mp (by rw [UInt8.toNat_zero]; omega)
    rw [List.length_cons, List.replicate_succ, hb, ← ih (by omega)]

theorem length_ofULong (i : ℕ) : (ofULong i).length = 8 := rfl

/-- What is cut off from a number that the first bytes hold is zero. -/
theorem drop_ofULong {i k : ℕ} (hi : i < 2 ^ 64) (h : i < 256 ^ k) :
    (ofULong i).drop k = List.replicate (8 - k) 0 := by
  have hzero : toULong ((ofULong i).drop k) = 0 := by
    rw [toULong_drop, toULong_ofULong hi, Nat.div_eq_of_lt h]
  have heq := eq_zeros_of_toULong hzero
  rwa [List.length_drop, length_ofULong] at heq

end TcpStream

namespace Item

theorem ofStr_text (bs : List UInt8) : TcpStream.ofStr (text bs) = bs := by
  have hbyte : ∀ b : UInt8, (Char.ofNat b.toNat).toNat.toUInt8 = b := by
    intro b
    have hb : b.toNat < 256 := b.toNat_lt
    have hvalid : b.toNat.isValidChar := Or.inl (by omega)
    have hnat : (Char.ofNat b.toNat).toNat = b.toNat := by
      unfold Char.ofNat
      rw [dif_pos hvalid]
      rfl
    rw [hnat]
    exact UInt8.ofNat_toNat
  unfold TcpStream.ofStr text
  rw [List.map_map]
  exact (List.map_congr_left fun b _ => hbyte b).trans (List.map_id bs)

theorem text_injective {bs cs : List UInt8} (h : text bs = text cs) : bs = cs := by
  rw [← ofStr_text bs, h, ofStr_text]

theorem toStr_eq_text (bs : List UInt8) : TcpStream.toStr bs = text (bs.takeWhile (· ≠ 0)) := rfl

/-- A message is received when all its bytes are read and none is zero. -/
theorem toStr_eq_iff {p bs : List UInt8} (hp : p <+: bs) :
    TcpStream.toStr p = text bs ↔ p = bs ∧ 0 ∉ bs := by
  rw [toStr_eq_text]
  constructor
  · intro h
    have hw : p.takeWhile (· ≠ 0) = bs := text_injective h
    have hpbs : p = bs := by
      have h1 := (List.takeWhile_prefix (fun b : UInt8 => decide (b ≠ 0)) (l := p)).length_le
      rw [hw] at h1
      exact hp.eq_of_length_le h1
    subst hpbs
    refine ⟨rfl, ?_⟩
    intro hmem
    rw [← hw] at hmem
    have h0 := List.mem_takeWhile_imp hmem
    simp at h0
  · rintro ⟨rfl, h0⟩
    have hall : ∀ b ∈ p, decide (b ≠ 0) = true := by
      intro b hb
      rw [decide_eq_true_eq]
      rintro rfl
      exact h0 hb
    rw [List.takeWhile_eq_self_iff.mpr hall]

end Item

namespace Framing

open TcpStream

/-! ## The pieces that arrive -/

theorem bytes_push (bs : List UInt8) (rest : List Arrival) : bytes (Socket.push bs rest) = bs ++ bytes rest := by
  cases bs <;> rfl

theorem bytes_taken (n : ℕ) (incoming : List Arrival) :
    bytes incoming = (piece incoming).take n ++ bytes (taken n incoming) := by
  cases incoming with
  | nil => simp [bytes, piece, taken]
  | cons a rest =>
    cases a with
    | failure => simp [bytes, piece, taken]
    | bytes b bs =>
      show b :: bs ++ bytes rest = (b :: bs).take n ++ bytes (Socket.push ((b :: bs).drop n) rest)
      rw [bytes_push, ← List.append_assoc, List.take_append_drop]

theorem failure_notMem_taken {n : ℕ} {incoming : List Arrival} (h : .failure ∉ incoming) :
    .failure ∉ taken n incoming := by
  cases incoming with
  | nil => exact h
  | cons a rest =>
    cases a with
    | failure => exact h
    | bytes b bs => exact Socket.failure_notMem_push fun hmem => h (List.mem_cons_of_mem _ hmem)

theorem taken_zero (incoming : List Arrival) : taken 0 incoming = incoming := by
  cases incoming with
  | nil => rfl
  | cons a rest => cases a <;> rfl

/-- A read takes bytes of the piece in front. -/
theorem read_piece {s : Socket} {n : ℕ} (hs : .failure ∉ s.incoming) (hn : n < 2 ^ 63)
    (hne : n = 0 ∨ s.incoming ≠ []) :
    s.read n = .ok (some ((piece s.incoming).take (min n Socket.maxRead)),
      { s with incoming := taken (min n Socket.maxRead) s.incoming }) := by
  unfold Socket.read
  rw [if_neg (by omega)]
  by_cases h0 : n = 0
  · subst h0
    rw [if_pos rfl, Nat.zero_min, taken_zero]
    rfl
  · rw [if_neg h0]
    cases hi : s.incoming with
    | nil => exact absurd hi (hne.resolve_left h0)
    | cons a rest =>
      cases a with
      | failure => exact absurd (by simp [hi]) hs
      | bytes b bs => rfl

/-- While bytes are left, a piece is in front and its first byte is theirs. -/
theorem piece_ne_nil {incoming : List Arrival} (hs : .failure ∉ incoming) (h : bytes incoming ≠ []) :
    incoming ≠ [] ∧ piece incoming ≠ [] := by
  cases incoming with
  | nil => exact absurd rfl h
  | cons a rest =>
    cases a with
    | failure => exact absurd (by simp) hs
    | bytes b bs => exact ⟨by simp, by simp [piece]⟩

/-! ## The calls of the receiver -/

section

variable {host : Host} {item : Item} {items : List Item} {t t' : TcpStream} {v : Received}
  {vs : List Received}

theorem returns_nil : Returns (receiveAll host []) t [] := ⟨t, rfl⟩

theorem returns_cons {r : Received} (h : item.receive host t = .ok (r, t')) :
    Returns (receiveAll host (item :: items)) t (v :: vs) ↔
      r = v ∧ Returns (receiveAll host items) t' vs := by
  have hrun : receiveAll host (item :: items) t = (do
      let (rs, t'') ← receiveAll host items t'
      .ok (r :: rs, t'')) := by
    show (item.receive host t >>= _) = _
    rw [h]
    rfl
  unfold Returns
  rw [hrun]
  cases hrest : receiveAll host items t' with
  | error f => exact iff_of_false (fun ⟨_, h⟩ => absurd h nofun) fun ⟨_, _, h⟩ => absurd h nofun
  | ok p =>
    obtain ⟨rs, t''⟩ := p
    constructor
    · rintro ⟨u, hu⟩
      cases hu
      exact ⟨rfl, t'', rfl⟩
    · rintro ⟨rfl, u, hu⟩
      cases hu
      exact ⟨t'', rfl⟩

theorem not_returns_cons {f : Fault} (h : item.receive host t = .error f) :
    ¬ Returns (receiveAll host (item :: items)) t (v :: vs) := by
  have hrun : receiveAll host (item :: items) t = .error f := by
    show (item.receive host t >>= _) = _
    rw [h]
    rfl
  rintro ⟨u, hu⟩
  rw [hrun] at hu
  exact absurd hu nofun

end

/-! ## One item -/

section

variable {host : Host} {s : Socket} (hs : .failure ∉ s.incoming)
include hs

theorem receive_int (i : UInt64) (hne : s.incoming ≠ []) :
    (Item.int i).receive host ⟨true, s⟩ =
      .ok (.int (toULong ((piece s.incoming).take 8)),
        ⟨true, { s with incoming := taken 8 s.incoming }⟩) := by
  have hread : s.read 8 = _ := read_piece hs (by norm_num) (.inr hne)
  have hrun := receiveInt_ok (t := ⟨true, s⟩) rfl hread
  show (receiveInt ⟨true, s⟩ >>= _) = _
  rw [hrun]
  rfl

theorem receive_msg {bs : List UInt8} (hlen : bs.length < 2 ^ 63)
    (hne : bs = [] ∨ s.incoming ≠ []) (halloc : host.canAlloc (bs.length + 1) = true) :
    (Item.msg bs).receive host ⟨true, s⟩ =
      .ok (.msg (toStr ((piece s.incoming).take (min bs.length Socket.maxRead))),
        ⟨true, { s with incoming := taken (min bs.length Socket.maxRead) s.incoming }⟩) := by
  have hread := read_piece hs hlen (hne.imp (fun h => by rw [h]; rfl) id)
  have halloc' : host.canAlloc ((bs.length + 1) % 2 ^ 64) = true := by
    rwa [Nat.mod_eq_of_lt (by omega)]
  have hrun := receive_ok (t := ⟨true, s⟩) rfl halloc' hread
  show (receive host bs.length ⟨true, s⟩ >>= _) = _
  rw [hrun]
  rfl

omit hs in
theorem receive_msg_badAlloc {bs : List UInt8} (hlen : bs.length < 2 ^ 63)
    (halloc : host.canAlloc (bs.length + 1) = false) :
    (Item.msg bs).receive host ⟨true, s⟩ = .error (.throws .badAlloc) := by
  have halloc' : host.canAlloc ((bs.length + 1) % 2 ^ 64) = false := by
    rwa [Nat.mod_eq_of_lt (by omega)]
  have hrun := receive_badAlloc (t := ⟨true, s⟩) rfl halloc'
  show (receive host bs.length ⟨true, s⟩ >>= _) = _
  rw [hrun]
  rfl

end

/-! ## After a cut integer -/

/-- What a read finds and what it leaves, cut out of the stream. -/
theorem piece_take_eq (m : ℕ) (incoming : List Arrival) :
    (piece incoming).take m = (bytes incoming).take ((piece incoming).take m).length ∧
      bytes (taken m incoming) = (bytes incoming).drop ((piece incoming).take m).length := by
  rw [bytes_taken m incoming, List.take_left, List.drop_left]
  exact ⟨rfl, rfl⟩

/-- A read among zeros finds zeros. -/
theorem taken_zeros {n m : ℕ} {incoming : List Arrival} {bs : List UInt8}
    (h : bytes incoming = List.replicate n 0 ++ bs) (hm : ((piece incoming).take m).length ≤ n) :
    (piece incoming).take m = List.replicate ((piece incoming).take m).length 0 ∧
      bytes (taken m incoming) =
        List.replicate (n - ((piece incoming).take m).length) 0 ++ bs := by
  obtain ⟨hpiece, hrest⟩ := piece_take_eq m incoming
  have hle : ((piece incoming).take m).length ≤ (List.replicate n (0 : UInt8)).length := by
    rwa [List.length_replicate]
  rw [h, List.take_append_of_le_length hle, List.take_replicate, Nat.min_eq_left hm] at hpiece
  rw [h, List.drop_append_of_le_length hle, List.drop_replicate] at hrest
  exact ⟨hpiece, hrest⟩

theorem piece_zero {n : ℕ} {incoming : List Arrival} {bs : List UInt8} (hn : 1 ≤ n)
    (hne : piece incoming ≠ []) (h : bytes incoming = List.replicate n 0 ++ bs) :
    ∃ xs, piece incoming = 0 :: xs := by
  obtain ⟨x, xs, hxs⟩ := List.exists_cons_of_ne_nil hne
  have hfirst := (taken_zeros (m := 1) h (by simpa [hxs] using hn)).1
  rw [hxs] at hfirst ⊢
  have hx : x = 0 := by simpa using hfirst
  exact ⟨xs, by rw [hx]⟩

/-- An integer that is read after `n` zeros that do not belong to it. -/
theorem shifted_int {n : ℕ} {i : UInt64} {bs : List UInt8} {incoming : List Arrival}
    (h : bytes incoming = List.replicate n 0 ++ (ofULong i.toNat ++ bs)) :
    toULong ((piece incoming).take 8) =
      256 ^ n * i.toNat % 256 ^ ((piece incoming).take 8).length := by
  have hpiece := (piece_take_eq 8 incoming).1
  have hle : ((piece incoming).take 8).length ≤
      (List.replicate n (0 : UInt8) ++ ofULong i.toNat).length := by
    rw [List.length_append, length_ofULong]
    exact (List.length_take_le 8 _).trans (Nat.le_add_left 8 _)
  rw [h, ← List.append_assoc, List.take_append_of_le_length hle] at hpiece
  rw [hpiece, toULong_take, toULong_zeros_append, toULong_ofULong i.toNat_lt, ← hpiece]

/-- Once zeros of a cut integer are left in front, only zeros and empty messages are received as they
were sent: the zeros move on through the stream. -/
theorem receiveAll_shifted_iff (host : Host) (items : List Item)
    (hlen : ∀ bs, .msg bs ∈ items → bs.length < 2 ^ 63) {n : ℕ} (hn : 1 ≤ n) (s : Socket)
    (hs : .failure ∉ s.incoming)
    (hbytes : bytes s.incoming = List.replicate n 0 ++ items.flatMap Item.encode) :
    Returns (receiveAll host items) ⟨true, s⟩ (items.map Item.value) ↔
      ∀ item ∈ items, Blank host item := by
  induction items generalizing n s with
  | nil => exact iff_of_true returns_nil (by simp)
  | cons item items ih =>
    have hlen' : ∀ bs, .msg bs ∈ items → bs.length < 2 ^ 63 := fun bs h => hlen bs (by simp [h])
    have hne : bytes s.incoming ≠ [] := by
      rw [hbytes]
      intro hnil
      have hlength := congrArg List.length hnil
      simp only [List.length_append, List.length_replicate, List.length_nil] at hlength
      omega
    obtain ⟨hinc, hpiece⟩ := piece_ne_nil hs hne
    rw [List.map_cons, List.forall_mem_cons]
    rw [List.flatMap_cons] at hbytes
    cases item with
    | int i =>
      rw [returns_cons (receive_int hs i hinc)]
      by_cases hi : i = 0
      · subst hi
        have hzeros : bytes s.incoming = List.replicate (n + 8) 0 ++ items.flatMap Item.encode := by
          rw [hbytes, ← List.replicate_append_replicate, List.append_assoc]
          rfl
        have hm : ((piece s.incoming).take 8).length ≤ n + 8 :=
          (List.length_take_le 8 _).trans (Nat.le_add_left 8 n)
        have hm8 : ((piece s.incoming).take 8).length ≤ 8 := List.length_take_le 8 _
        obtain ⟨hread, hrest⟩ := taken_zeros hzeros hm
        rw [hread, toULong_zeros, ih hlen' (by omega) _ (failure_notMem_taken hs) hrest]
        exact and_congr_left' (iff_of_true rfl rfl)
      · refine iff_of_false (fun h => hi ?_) fun h => hi h.1
        have hvalue : toULong ((piece s.incoming).take 8) = i.toNat := Received.int.inj h.1
        rw [shifted_int hbytes] at hvalue
        exact UInt64.toNat_inj.mp (eq_zero_of_shifted hn hvalue)
    | msg bs =>
      have hbs : bs.length < 2 ^ 63 := hlen bs (by simp)
      cases halloc : host.canAlloc (bs.length + 1) with
      | false =>
        refine iff_of_false (not_returns_cons (receive_msg_badAlloc hbs halloc)) ?_
        intro h
        obtain ⟨hnil, halloc'⟩ := h.1
        rw [hnil] at halloc
        exact absurd (halloc'.symm.trans halloc) nofun
      | true =>
        rw [returns_cons (receive_msg hs hbs (.inr hinc) halloc)]
        cases bs with
        | nil =>
          have hstart : min ([] : List UInt8).length Socket.maxRead = 0 := Nat.zero_min _
          rw [hstart, taken_zero, List.take_zero, ih hlen' hn s hs hbytes]
          exact and_congr_left' (iff_of_true rfl ⟨rfl, halloc⟩)
        | cons b bs =>
          -- the first byte that is read is zero, so the text is empty
          refine iff_of_false (fun h => ?_) fun h => absurd h.1.1 (by simp)
          have htext : toStr ((piece s.incoming).take (min (b :: bs).length Socket.maxRead)) =
              Item.text (b :: bs) := Received.msg.inj h.1
          obtain ⟨xs, hxs⟩ := piece_zero hn hpiece hbytes
          have hmin : min (b :: bs).length Socket.maxRead =
              min bs.length (Socket.maxRead - 1) + 1 := by
            rw [List.length_cons]
            unfold Socket.maxRead
            omega
          rw [hxs, hmin, List.take_succ_cons] at htext
          exact absurd htext (by simp [toStr, Item.text])

/-! ## The whole stream -/

/-- The part of an item that a read takes. -/
theorem piece_take_prefix {m : ℕ} {incoming : List Arrival} {bs rest : List UInt8}
    (h : bytes incoming = bs ++ rest) (hm : m ≤ bs.length) : (piece incoming).take m <+: bs := by
  have hpiece := (piece_take_eq m incoming).1
  have hle : ((piece incoming).take m).length ≤ bs.length := (List.length_take_le m _).trans hm
  rw [h, List.take_append_of_le_length hle] at hpiece
  rw [hpiece]
  exact List.take_prefix _ _

/-- The rest of the stream after a whole item. -/
theorem bytes_taken_whole {incoming : List Arrival} {bs rest : List UInt8}
    (h : bytes incoming = bs ++ rest) (hm : bs.length ≤ (piece incoming).length) :
    bytes (taken bs.length incoming) = rest := by
  have hrest := (piece_take_eq bs.length incoming).2
  rwa [List.length_take_of_le hm, h, List.drop_left] at hrest

/-- A cut integer is received as it was sent when the bytes that are missing are zero. -/
theorem cut_int_iff {incoming : List Arrival} {i : UInt64} {rest : List UInt8}
    (hbytes : bytes incoming = ofULong i.toNat ++ rest) (hcut : (piece incoming).length ≤ 8) :
    Received.int (toULong ((piece incoming).take 8)) = (Item.int i).value ↔
      i.toNat < 256 ^ (piece incoming).length := by
  have hread : (piece incoming).take 8 = piece incoming := List.take_of_length_le hcut
  obtain ⟨hpiece, -⟩ := piece_take_eq 8 incoming
  rw [hread, hbytes, List.take_append_of_le_length (by rwa [length_ofULong])] at hpiece
  have hmod : toULong ((piece incoming).take 8) = i.toNat % 256 ^ (piece incoming).length := by
    rw [hread, hpiece, toULong_take, toULong_ofULong i.toNat_lt, ← hpiece]
  rw [hmod, Item.value, Received.int.injEq, Nat.mod_eq_iff_lt (by positivity)]

/-- Those zeros are left in front of the stream. -/
theorem bytes_taken_cut {incoming : List Arrival} {i : UInt64} {rest : List UInt8}
    (hbytes : bytes incoming = ofULong i.toNat ++ rest) (hcut : (piece incoming).length ≤ 8)
    (hi : i.toNat < 256 ^ (piece incoming).length) :
    bytes (taken 8 incoming) = List.replicate (8 - (piece incoming).length) 0 ++ rest := by
  have hrest := (piece_take_eq 8 incoming).2
  have hread : (piece incoming).take 8 = piece incoming := List.take_of_length_le hcut
  rwa [hread, hbytes, List.drop_append_of_le_length (by rwa [length_ofULong]),
    drop_ofULong i.toNat_lt hi] at hrest

/-- A message is received as it was sent when it fits in the piece and in one read, and no byte of it is
zero. -/
theorem msg_iff {incoming : List Arrival} {bs rest : List UInt8} (hbytes : bytes incoming = bs ++ rest) :
    Received.msg (toStr ((piece incoming).take (min bs.length Socket.maxRead))) = (Item.msg bs).value ↔
      bs.length ≤ (piece incoming).length ∧ bs.length ≤ Socket.maxRead ∧ 0 ∉ bs := by
  have hprefix : (piece incoming).take (min bs.length Socket.maxRead) <+: bs :=
    piece_take_prefix hbytes (Nat.min_le_left bs.length Socket.maxRead)
  rw [Item.value, Received.msg.injEq, Item.toStr_eq_iff hprefix, ← and_assoc]
  refine and_congr_left' ⟨fun h => ?_, fun h => ?_⟩
  · have hlength := congrArg List.length h
    rw [List.length_take] at hlength
    omega
  · exact hprefix.eq_of_length (by rw [List.length_take]; omega)

/-- The receiver returns what was sent exactly when every item arrives whole. -/
theorem receiveAll_iff (host : Host) (items : List Item)
    (hlen : ∀ bs, .msg bs ∈ items → bs.length < 2 ^ 63) (s : Socket)
    (hs : .failure ∉ s.incoming) (hbytes : bytes s.incoming = items.flatMap Item.encode) :
    Returns (receiveAll host items) ⟨true, s⟩ (items.map Item.value) ↔
      Whole host items s.incoming := by
  induction items generalizing s with
  | nil => exact iff_of_true returns_nil trivial
  | cons item items ih =>
    have hlen' : ∀ bs, .msg bs ∈ items → bs.length < 2 ^ 63 := fun bs h => hlen bs (by simp [h])
    rw [List.map_cons]
    rw [List.flatMap_cons] at hbytes
    cases item with
    | int i =>
      have hne : bytes s.incoming ≠ [] := by
        rw [hbytes]
        exact nofun
      obtain ⟨hinc, -⟩ := piece_ne_nil hs hne
      rw [returns_cons (receive_int hs i hinc), Whole]
      by_cases hwhole : 8 ≤ (piece s.incoming).length
      · rw [if_pos hwhole, ← ih hlen' { s with incoming := taken 8 s.incoming }
          (failure_notMem_taken hs) (bytes_taken_whole hbytes hwhole)]
        apply and_iff_right
        have hprefix := piece_take_prefix (m := 8) hbytes (Nat.le_of_eq (length_ofULong _).symm)
        have hread : (piece s.incoming).take 8 = ofULong i.toNat :=
          hprefix.eq_of_length (by rw [List.length_take_of_le hwhole]; rfl)
        rw [hread, toULong_ofULong i.toNat_lt]
        rfl
      · have hcut : (piece s.incoming).length ≤ 8 := Nat.le_of_not_le hwhole
        rw [if_neg hwhole, cut_int_iff hbytes hcut]
        refine and_congr_right fun hi => ?_
        exact receiveAll_shifted_iff host items hlen' (by omega) _ (failure_notMem_taken hs)
          (bytes_taken_cut hbytes hcut hi)
    | msg bs =>
      have hbs : bs.length < 2 ^ 63 := hlen bs (by simp)
      change bytes s.incoming = bs ++ items.flatMap Item.encode at hbytes
      rw [Whole]
      cases halloc : host.canAlloc (bs.length + 1) with
      | false =>
        refine iff_of_false (not_returns_cons (receive_msg_badAlloc hbs halloc)) ?_
        exact fun h => absurd h.1.2.2.2 nofun
      | true =>
        have hinc : bs = [] ∨ s.incoming ≠ [] := by
          refine or_iff_not_imp_left.mpr fun hnil => (piece_ne_nil hs ?_).1
          rw [hbytes]
          exact List.append_ne_nil_of_left_ne_nil hnil _
        rw [returns_cons (receive_msg hs hbs hinc halloc), msg_iff hbytes]
        refine (and_congr_right fun h => ?_).trans
          (and_congr_left' ⟨fun h => ⟨h.1, h.2.1, h.2.2, rfl⟩, fun h => ⟨h.1, h.2.1, h.2.2.1⟩⟩)
        have hmin : min bs.length Socket.maxRead = bs.length := Nat.min_eq_left h.2.1
        rw [hmin]
        exact ih hlen' { s with incoming := taken bs.length s.incoming } (failure_notMem_taken hs)
          (bytes_taken_whole hbytes h.1)

/-! ## Both ends -/

/-- A sender whose writes are taken writes the bytes of all the items. -/
theorem sendAll_sent {t : TcpStream} (ht : t.Live) (items : List Item) :
    (sendAll t items).socket.sent = t.socket.sent ++ items.flatMap Item.encode := by
  induction items generalizing t with
  | nil => simp [sendAll]
  | cons item items ih =>
    have hsend : item.send t = t.write item.encode := by
      cases item with
      | int i => rfl
      | msg bs => rw [Item.send, TcpStream.send, Item.ofStr_text]; rfl
    obtain ⟨t', hwrite, ht', hsent⟩ := write_live ht item.encode
    have hcons : sendAll t (item :: items) = sendAll t' items := by
      show sendAll (item.send t).2 items = _
      rw [hsend, hwrite]
    rw [hcons, ih ht', hsent, List.flatMap_cons, List.append_assoc]

/-- However the bytes of the sender are cut into pieces, the receiver returns what was sent exactly
when every item arrives whole. -/
theorem framing_iff (host : Host) (items : List Item)
    (hlen : ∀ bs, .msg bs ∈ items → bs.length < 2 ^ 63) {sender : TcpStream} (hsender : sender.Live)
    (hfresh : sender.socket.sent = []) (receiver : Socket) (hs : .failure ∉ receiver.incoming)
    (hcut : bytes receiver.incoming = (sendAll sender items).socket.sent) :
    Returns (receiveAll host items) ⟨true, receiver⟩ (items.map Item.value) ↔
      Whole host items receiver.incoming := by
  rw [sendAll_sent hsender, hfresh, List.nil_append] at hcut
  exact receiveAll_iff host items hlen receiver hs hcut

/-- A new connection over which `incoming` arrives. -/
def connection (incoming : List Arrival) : TcpStream :=
  { connected := true, socket := { incoming, eof := false } }

theorem connection_live {incoming : List Arrival} (h : .failure ∉ incoming) :
    (connection incoming).Live :=
  ⟨rfl, h, by simp [connection]⟩

/-- A host with room for every buffer. -/
def roomyHost : Host := { home := true, cgroupV2 := true, canAlloc := fun _ => true, canGrow := fun _ => true }

/-- A length and a text, in two pieces. -/
theorem framing_iff_greeting :
    Returns (receiveAll roomyHost [.int 2, .msg [104, 105]])
        ⟨true, (connection [.bytes 2 [0, 0, 0, 0, 0, 0, 0], .bytes 104 [105]]).socket⟩
        ([.int 2, .msg [104, 105]].map Item.value) ↔
      Whole roomyHost [.int 2, .msg [104, 105]]
        [.bytes 2 [0, 0, 0, 0, 0, 0, 0], .bytes 104 [105]] := by
  refine framing_iff roomyHost [.int 2, .msg [104, 105]] ?_ (connection_live (List.not_mem_nil)) rfl
    (connection [.bytes 2 [0, 0, 0, 0, 0, 0, 0], .bytes 104 [105]]).socket (by decide) (by decide)
  intro bs hbs
  simp only [List.mem_cons, List.not_mem_nil, or_false, reduceCtorEq, false_or, Item.msg.injEq] at hbs
  rw [hbs]
  decide

/-- A text that is cut after its first byte, and a text with a zero byte. -/
theorem framing_cut :
    (bytes [.bytes 97 [], .bytes 98 []] = (sendAll (connection []) [.msg [97, 98]]).socket.sent ∧
      Returns (receiveAll roomyHost [.msg [97, 98]]) (connection [.bytes 97 [], .bytes 98 []])
        [.msg ['a']]) ∧
    (bytes [.bytes 97 [0, 98]] = (sendAll (connection []) [.msg [97, 0, 98]]).socket.sent ∧
      Returns (receiveAll roomyHost [.msg [97, 0, 98]]) (connection [.bytes 97 [0, 98]])
        [.msg ['a']]) ∧
    (Item.msg [97, 98]).value = .msg ['a', 'b'] ∧
      (Item.msg [97, 0, 98]).value = .msg ['a', Char.ofNat 0, 'b'] :=
  ⟨⟨by decide, _, rfl⟩, ⟨by decide, _, rfl⟩, by decide, by decide⟩

end Framing

