import DioMonitor.Net.Stream

/-!
# Streams on a network without failures

`Live` streams are connected and none of their reads and writes fails. A read then returns bytes or waits
for ever, and everything that is sent is written.
-/

/-- No read and no write to come fails. -/
structure Socket.Sound (s : Socket) : Prop where
  reads : .failure ∉ s.incoming
  writes : ∀ b ∈ s.writes, b = true

/-- The stream is connected, over a socket without failures. -/
structure TcpStream.Live (t : TcpStream) : Prop where
  connected : t.connected = true
  sound : t.socket.Sound

namespace Socket

theorem failure_notMem_push {bs : List UInt8} {incoming : List Arrival}
    (h : .failure ∉ incoming) : .failure ∉ push bs incoming := by
  cases bs with
  | nil => exact h
  | cons b bs => simpa [push] using h

theorem read_big {s : Socket} {n : ℕ} (h : 2 ^ 63 ≤ n) : s.read n = .ok (none, s) := by
  rw [read, if_pos h]

/-- A read waits for ever, or it takes from what arrives and leaves the rest of the socket alone. -/
theorem read_cases (s : Socket) (n : ℕ) :
    s.read n = .error .blocks ∨ ∃ r incoming, s.read n = .ok (r, { s with incoming }) := by
  unfold read
  by_cases h1 : 2 ^ 63 ≤ n
  · exact .inr ⟨none, s.incoming, if_pos h1⟩
  by_cases h0 : n = 0
  · exact .inr ⟨some [], s.incoming, by rw [if_neg h1, if_pos h0]⟩
  rw [if_neg h1, if_neg h0]
  cases hi : s.incoming with
  | nil =>
    by_cases he : s.eof = true
    · exact .inr ⟨some [], s.incoming, if_pos he⟩
    · exact .inl (if_neg he)
  | cons a rest =>
    cases a with
    | failure => exact .inr ⟨_, _, rfl⟩
    | bytes b bs => exact .inr ⟨_, _, rfl⟩

theorem read_error {s : Socket} {n : ℕ} {f : Fault} (h : s.read n = .error f) : f = .blocks := by
  rcases read_cases s n with hr | ⟨r, incoming, hr⟩
  · exact Except.error.inj (h.symm.trans hr)
  · rw [h] at hr
    cases hr

theorem read_frame {s s' : Socket} {n : ℕ} {r : Option (List UInt8)} (h : s.read n = .ok (r, s')) :
    s'.writes = s.writes ∧ s'.sent = s.sent ∧ s'.closes = s.closes := by
  rcases read_cases s n with hr | ⟨r', incoming, hr⟩
  · rw [h] at hr
    cases hr
  · rw [h] at hr
    cases hr
    exact ⟨rfl, rfl, rfl⟩

/-- A read without failures returns bytes, or waits for ever; it writes nothing. -/
theorem Sound.read {s : Socket} (hs : s.Sound) {n : ℕ} (hn : n < 2 ^ 63) :
    (∃ bs s', s.read n = .ok (some bs, s') ∧ s'.Sound ∧ s'.sent = s.sent) ∨
      s.read n = .error .blocks := by
  unfold Socket.read
  rw [if_neg (by omega)]
  by_cases h0 : n = 0
  · exact .inl ⟨[], s, if_pos h0, hs, rfl⟩
  rw [if_neg h0]
  cases hi : s.incoming with
  | nil =>
    cases he : s.eof with
    | true => exact .inl ⟨[], s, rfl, hs, rfl⟩
    | false => exact .inr rfl
  | cons a rest =>
    have hreads : Arrival.failure ∉ a :: rest := hi ▸ hs.reads
    cases a with
    | failure => exact absurd (by simp) hreads
    | bytes b bs =>
      refine .inl ⟨_, _, rfl, ⟨?_, hs.writes⟩, rfl⟩
      exact failure_notMem_push fun h => hreads (by simp [h])

theorem Sound.of_read {s s' : Socket} (hs : s.Sound) {n : ℕ} {bs : List UInt8}
    (h : s.read n = .ok (some bs, s')) : s'.Sound ∧ s'.sent = s.sent := by
  by_cases hn : n < 2 ^ 63
  · rcases hs.read hn with ⟨bs', s'', hread, hsound, hsent⟩ | hread
    · rw [h] at hread
      cases hread
      exact ⟨hsound, hsent⟩
    · rw [h] at hread
      exact absurd hread (by simp)
  · rw [read_big (by omega)] at h
    exact absurd h (by simp)

/-- A read waits for ever exactly when it wants bytes and none is left of a stream that stays open. -/
theorem read_eq_blocks_iff {s : Socket} {n : ℕ} :
    s.read n = .error .blocks ↔ 0 < n ∧ n < 2 ^ 63 ∧ s.incoming = [] ∧ s.eof = false := by
  unfold Socket.read
  by_cases h1 : 2 ^ 63 ≤ n
  · rw [if_pos h1]
    exact iff_of_false (by simp) fun h => absurd h.2.1 (Nat.not_lt.mpr h1)
  by_cases h0 : n = 0
  · rw [if_neg h1, if_pos h0]
    exact iff_of_false (by simp) fun h => absurd h0 (Nat.ne_of_gt h.1)
  rw [if_neg h1, if_neg h0]
  cases hi : s.incoming with
  | nil =>
    cases he : s.eof with
    | true => simp
    | false => exact iff_of_true rfl ⟨Nat.pos_of_ne_zero h0, Nat.lt_of_not_le h1, rfl, rfl⟩
  | cons a rest => cases a <;> simp

/-- A read that wants the first bytes of the piece that arrives gets them. -/
theorem read_push {s : Socket} (bs cs : List UInt8) (hs : s.incoming = push (bs ++ cs) [])
    (hmax : bs.length ≤ maxRead) :
    s.read bs.length = .ok (some bs, { s with incoming := push cs [] }) := by
  unfold read
  rw [if_neg (by unfold maxRead at hmax; omega)]
  cases bs with
  | nil =>
    rw [List.nil_append] at hs
    rw [if_pos List.length_nil, ← hs]
  | cons b bs =>
    rw [if_neg (by simp), hs, List.cons_append]
    simp only [push]
    rw [min_eq_left hmax, ← List.cons_append, List.take_left, List.drop_left]

end Socket

namespace TcpStream

/-! ## Bytes -/

/-- An integer is read back from its bytes. -/
theorem toULong_ofULong {i : ℕ} (h : i < 2 ^ 64) : toULong (ofULong i) = i := by
  simp only [toULong, ofULong, List.foldr_cons, List.foldr_nil, UInt8.toNat_ofNat', Nat.toUInt8]
  omega

/-- A string of single bytes without zeros is read back from its bytes. -/
theorem toStr_ofStr {s : Str} (h : ∀ c ∈ s, 0 < c.toNat ∧ c.toNat < 2 ^ 8) : toStr (ofStr s) = s := by
  induction s with
  | nil => rfl
  | cons c s ih =>
    obtain ⟨hpos, hlt⟩ := h c (by simp)
    have hnat : c.toNat.toUInt8.toNat = c.toNat := by
      simp only [Nat.toUInt8, UInt8.toNat_ofNat']
      exact Nat.mod_eq_of_lt hlt
    have hne : c.toNat.toUInt8 ≠ 0 := by
      intro h0
      rw [h0] at hnat
      exact absurd hnat (Nat.ne_of_lt hpos)
    have ih := ih fun d hd => h d (by simp [hd])
    unfold toStr ofStr at ih ⊢
    rw [List.map_cons, List.takeWhile_cons_of_pos (by simpa using hne), List.map_cons, hnat, ih,
      Char.ofNat_toNat]

/-! ## Reads and writes -/

theorem write_live {t : TcpStream} (h : t.Live) (bs : List UInt8) :
    ∃ t', t.write bs = (true, t') ∧ t'.Live ∧ t'.socket.sent = t.socket.sent ++ bs := by
  obtain ⟨hc, hreads, hwrites⟩ := h
  unfold write Socket.write
  rw [if_pos hc]
  cases hw : t.socket.writes with
  | nil => exact ⟨_, rfl, ⟨rfl, hreads, by simp⟩, rfl⟩
  | cons b rest =>
    have hb : b = true := hwrites b (by simp [hw])
    subst hb
    exact ⟨_, rfl, ⟨rfl, hreads, fun c hc => hwrites c (by simp [hw, hc])⟩, rfl⟩

theorem write_disconnected {t : TcpStream} (h : t.connected = false) (bs : List UInt8) :
    t.write bs = (false, t) := by
  simp [write, h]

theorem receiveInt_disconnected {t : TcpStream} (h : t.connected = false) :
    receiveInt t = .ok (0, t) := by
  simp [receiveInt, h]

theorem close_disconnected {t : TcpStream} (h : t.connected = false) : t.close = t := by
  simp [close, h]

theorem receiveInt_ok {t : TcpStream} (h : t.connected = true) {bs : List UInt8} {s : Socket}
    (hr : t.socket.read 8 = .ok (some bs, s)) : receiveInt t = .ok (toULong bs, { t with socket := s }) := by
  simp only [receiveInt, h, if_true, hr]
  rfl

theorem receiveInt_blocks {t : TcpStream} (h : t.connected = true)
    (hr : t.socket.read 8 = .error .blocks) : receiveInt t = .error .blocks := by
  simp only [receiveInt, h, if_true, hr]
  rfl

theorem receiveInt_error {t : TcpStream} {f : Fault} (h : receiveInt t = .error f) : f = .blocks := by
  cases hc : t.connected with
  | false =>
    rw [receiveInt_disconnected hc] at h
    cases h
  | true =>
    simp only [receiveInt, hc, if_true] at h
    cases hread : t.socket.read 8 with
    | error g =>
      rw [hread] at h
      cases h
      exact Socket.read_error hread
    | ok p =>
      rw [hread] at h
      rcases p with ⟨_ | bs, s⟩ <;> cases h

/-- The stream `t'` is `t` after reads: nothing was written and nothing closed. -/
structure Reads (t t' : TcpStream) : Prop where
  connected : t'.connected = true → t.connected = true
  writes : t'.socket.writes = t.socket.writes
  sent : t'.socket.sent = t.socket.sent
  closes : t'.socket.closes = t.socket.closes

theorem Reads.refl (t : TcpStream) : Reads t t := ⟨id, rfl, rfl, rfl⟩

theorem Reads.trans {t t' t'' : TcpStream} (h : Reads t t') (h' : Reads t' t'') : Reads t t'' :=
  ⟨h.connected ∘ h'.connected, h'.writes.trans h.writes, h'.sent.trans h.sent, h'.closes.trans h.closes⟩

/-- An integer that was received was read, or the stream was given up. -/
theorem receiveInt_reads {t t' : TcpStream} {n : ℕ} (h : receiveInt t = .ok (n, t')) :
    Reads t t' ∧ (t'.connected = true ↔ t.connected = true ∧
      ∃ bs s, t.socket.read 8 = .ok (some bs, s) ∧ n = toULong bs ∧ t' = ⟨true, s⟩) := by
  cases hc : t.connected with
  | false =>
    rw [receiveInt_disconnected hc] at h
    cases h
    exact ⟨Reads.refl t, iff_of_false (by simp [hc]) (by simp)⟩
  | true =>
    simp only [receiveInt, hc, if_true] at h
    cases hread : t.socket.read 8 with
    | error g =>
      rw [hread] at h
      cases h
    | ok p =>
      rw [hread] at h
      obtain ⟨hwrites, hsent, hcloses⟩ := Socket.read_frame hread
      rcases p with ⟨_ | bs, s⟩
      · cases h
        exact ⟨⟨fun _ => hc, hwrites, hsent, hcloses⟩, iff_of_false (by simp) (by simp)⟩
      · cases h
        exact ⟨⟨fun _ => hc, hwrites, hsent, hcloses⟩, iff_of_true rfl ⟨rfl, bs, s, rfl, rfl, rfl⟩⟩

section

variable {host : Host} {t : TcpStream} {len : ℕ}

theorem receive_badAlloc (h : t.connected = true) (ha : host.canAlloc ((len + 1) % 2 ^ 64) = false) :
    receive host len t = .error (.throws .badAlloc) := by
  simp only [receive, h, if_true, ha, Bool.false_eq_true, if_false]

theorem receive_ok (h : t.connected = true) (ha : host.canAlloc ((len + 1) % 2 ^ 64) = true)
    {bs : List UInt8} {s : Socket} (hr : t.socket.read len = .ok (some bs, s)) :
    receive host len t = .ok (toStr bs, { t with socket := s }) := by
  simp only [receive, h, if_true, ha, hr]
  rfl

theorem receive_refused (h : t.connected = true) (ha : host.canAlloc ((len + 1) % 2 ^ 64) = true)
    (hlen : 2 ^ 63 ≤ len) :
    receive host len t = .ok (host.garbage, { connected := false, socket := t.socket }) := by
  simp only [receive, h, if_true, ha, Socket.read_big hlen]
  rfl

/-- A text that was received was read, or the stream was given up. -/
theorem receive_reads {t' : TcpStream} {text : Str} (h : receive host len t = .ok (text, t')) :
    Reads t t' ∧ (t'.connected = true ↔ t.connected = true ∧
      ∃ bs s, t.socket.read len = .ok (some bs, s) ∧ text = toStr bs ∧ t' = ⟨true, s⟩) := by
  cases hc : t.connected with
  | false =>
    simp only [receive, hc, Bool.false_eq_true, if_false] at h
    cases h
    exact ⟨Reads.refl t, iff_of_false (by simp [hc]) (by simp)⟩
  | true =>
    simp only [receive, hc, if_true] at h
    split_ifs at h
    cases hread : t.socket.read len with
    | error g =>
      rw [hread] at h
      cases h
    | ok p =>
      rw [hread] at h
      obtain ⟨hwrites, hsent, hcloses⟩ := Socket.read_frame hread
      rcases p with ⟨_ | bs, s⟩
      · cases h
        exact ⟨⟨fun _ => hc, hwrites, hsent, hcloses⟩, iff_of_false (by simp) (by simp)⟩
      · cases h
        exact ⟨⟨fun _ => hc, hwrites, hsent, hcloses⟩, iff_of_true rfl ⟨rfl, bs, s, rfl, rfl, rfl⟩⟩

theorem receive_blocks (h : t.connected = true) (ha : host.canAlloc ((len + 1) % 2 ^ 64) = true)
    (hr : t.socket.read len = .error .blocks) : receive host len t = .error .blocks := by
  simp only [receive, h, if_true, ha, hr]
  rfl

end

/-! ## Writes that may fail -/

/-- The stream is connected and its next `k` writes succeed. -/
def Takes (t : TcpStream) (k : ℕ) : Prop :=
  t.connected = true ∧ ∀ b ∈ t.socket.writes.take k, b = true

instance (t : TcpStream) (k : ℕ) : Decidable (t.Takes k) :=
  inferInstanceAs (Decidable (_ ∧ _))

theorem takes_write (t : TcpStream) (bs : List UInt8) (k : ℕ) :
    (t.write bs).2.Takes k ↔ t.Takes (k + 1) := by
  unfold Takes write Socket.write
  cases hc : t.connected with
  | false => simp [hc]
  | true =>
    cases hw : t.socket.writes with
    | nil => simp
    | cons b rest => cases b <;> simp

theorem takes_zero (t : TcpStream) : t.Takes 0 ↔ t.connected = true :=
  and_iff_left fun b hb => absurd hb (by simp)

theorem write_closes (t : TcpStream) (bs : List UInt8) :
    (t.write bs).2.socket.closes = t.socket.closes := by
  unfold write Socket.write
  cases hc : t.connected with
  | false => simp
  | true =>
    cases t.socket.writes with
    | nil => simp
    | cons b rest => cases b <;> simp

theorem close_closes (t : TcpStream) :
    t.close.socket.closes = t.socket.closes + if t.Takes 0 then 1 else 0 := by
  unfold close
  by_cases hc : t.connected = true
  · rw [if_pos hc, if_pos ((takes_zero t).mpr hc)]
  · rw [if_neg hc, if_neg fun h => hc ((takes_zero t).mp h)]
    rfl

end TcpStream
