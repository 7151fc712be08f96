import DioMonitor.Net.Proofs.FramingProofs
import DioMonitor.Server.Accept
import DioMonitor.Server.Proofs.HandleProofs

/-!
# Proofs: the accepting loop

The operation that the server starts is the one that the client asked for exactly when the number of
the protocol is read whole, up to the cases in which cutting it makes no difference
(`dispatches_iff_headerRead`).
-/

namespace TcpStream

/-- Bytes are determined by their number and their count. -/
theorem toULong_injective {bs cs : List UInt8} (hlen : bs.length = cs.length)
    (h : toULong bs = toULong cs) : bs = cs := by
  induction bs generalizing cs with
  | nil => exact (List.length_eq_zero_iff.mp hlen.symm).symm
  | cons b bs ih =>
    cases cs with
    | nil => exact absurd hlen (by simp)
    | cons c cs =>
      rw [toULong_cons, toULong_cons] at h
      have hb : b.toNat < 256 := b.toNat_lt
      have hc : c.toNat < 256 := c.toNat_lt
      have hbc : b = c := UInt8.toNat_inj.mp (by omega)
      have hrest : toULong bs = toULong cs := by omega
      rw [hbc, ih (Nat.succ.inj hlen) hrest]

theorem toULong_append_zeros (bs : List UInt8) (n : ℕ) :
    toULong (bs ++ List.replicate n 0) = toULong bs := by
  induction bs with
  | nil => exact toULong_zeros n
  | cons b bs ih => rw [List.cons_append, toULong_cons, toULong_cons, ih]

theorem toULong_lt (bs : List UInt8) : toULong bs < 256 ^ bs.length := by
  have h := toULong_take bs bs.length
  rw [List.take_length] at h
  rw [h]
  exact Nat.mod_lt _ (by positivity)

/-- Up to eight bytes are the first bytes of the number that they are read as; the others are zero. -/
theorem ofULong_toULong {bs : List UInt8} (h : bs.length ≤ 8) :
    ofULong (toULong bs) = bs ++ List.replicate (8 - bs.length) 0 := by
  have hlt : toULong bs < 2 ^ 64 := by
    have hpow : (256 : ℕ) ^ bs.length ≤ 256 ^ 8 := Nat.pow_le_pow_right (by norm_num) h
    have hbs := toULong_lt bs
    norm_num at hpow ⊢
    omega
  refine toULong_injective ?_ ?_
  · rw [length_ofULong, List.length_append, List.length_replicate]
    omega
  · rw [toULong_ofULong hlt, toULong_append_zeros]

end TcpStream

namespace VMServer

open TcpStream

theorem code_of_dispatch {prot : ℕ} {p : VMProtocol} (h : dispatch prot = some p) : p.code = prot := by
  unfold dispatch at h
  split_ifs at h with h1 h2 h3 h4 h5
  all_goals
    cases h
    exact Eq.symm ‹_›

/-- The handler that runs is that of the operation of the `switch`. -/
theorem treat_eq (env : Env) (prot : ℕ) :
    treat env prot = match dispatch prot with
      | some p => handler env p
      | none => sendError .PROTOCOL := by
  unfold treat dispatch
  split_ifs <;> rfl

/-- A client for which the server starts an operation is handled by that operation. -/
theorem acceptClient_eq (env : Env) {w : World} {prot : ℕ} {t : TcpStream} {p : VMProtocol}
    (hread : TcpStream.receiveInt w.stream = .ok (prot, t)) (hp : dispatch prot = some p) :
    acceptClient env w = handler env p { w with stream := t } := by
  have hrun : receiveInt w = (.ok prot, { w with stream := t }) := by
    rw [receiveInt, onStream, hread]
  rw [acceptClient, bind_ok hrun, treat_eq, hp]

/-! ## What the first read says -/

theorem dispatches_iff {client : Option Socket} {prot : ℕ} {t : TcpStream}
    (h : TcpStream.receiveInt (TcpListener.accept client) = .ok (prot, t)) {p : VMProtocol} :
    Dispatches client p ↔ dispatch prot = some p := by
  constructor
  · rintro ⟨prot', t', h', hp⟩
    rw [h] at h'
    cases h'
    exact hp
  · exact fun hp => ⟨prot, t, h, hp⟩

/-- A read that gets nothing is taken for PROVISION, whose number is zero. -/
theorem genuine_zero {client : Option Socket} {t : TcpStream}
    (h : TcpStream.receiveInt (TcpListener.accept client) = .ok (0, t)) :
    (∀ p, Dispatches client p → ofULong p.code <+: sentBytes client) ↔
      List.replicate 8 0 <+: sentBytes client := by
  have hzero : ofULong 0 = List.replicate 8 0 := rfl
  constructor
  · intro hgenuine
    exact hgenuine .PROVISION ((dispatches_iff h).mpr rfl)
  · intro hsent p hp
    rw [code_of_dispatch ((dispatches_iff h).mp hp), hzero]
    exact hsent

/-- The bytes `bs` that the first read finds are taken for the number whose other bytes are zero. -/
theorem genuine_bytes {client : Option Socket} {t : TcpStream} {bs rest : List UInt8}
    (h : TcpStream.receiveInt (TcpListener.accept client) = .ok (toULong bs, t)) (hlen : bs.length ≤ 8)
    (hsent : sentBytes client = bs ++ rest) :
    (∀ p, Dispatches client p → ofULong p.code <+: sentBytes client) ↔
      dispatch (toULong bs) = none ∨ List.replicate (8 - bs.length) 0 <+: rest := by
  have hprefix : ofULong (toULong bs) <+: sentBytes client ↔
      List.replicate (8 - bs.length) 0 <+: rest := by
    rw [ofULong_toULong hlen, hsent, List.prefix_append_right_inj]
  rw [← hprefix]
  constructor
  · intro hgenuine
    cases hd : dispatch (toULong bs) with
    | none => exact .inl rfl
    | some p =>
      have hp := hgenuine p ((dispatches_iff h).mpr hd)
      rw [code_of_dispatch hd] at hp
      exact .inr hp
  · rintro (hnone | hpre) p hp
    · rw [(dispatches_iff h).mp hp] at hnone
      cases hnone
    · rw [code_of_dispatch ((dispatches_iff h).mp hp)]
      exact hpre

/-- Whenever the server starts an operation the client sent the eight bytes of its number, and none
starts for a client that sent less than eight bytes, exactly when the number of the protocol cannot be
taken for another. -/
theorem dispatches_iff_headerRead (client : Option Socket) :
    ((∀ p, Dispatches client p → ofULong p.code <+: sentBytes client) ∧
      ((sentBytes client).length < 8 → ∀ p, ¬ Dispatches client p)) ↔ HeaderRead client := by
  have hshort : (∀ p, Dispatches client p → ofULong p.code <+: sentBytes client) →
      (sentBytes client).length < 8 → ∀ p, ¬ Dispatches client p := by
    intro h hlt p hp
    have hle := (h p hp).length_le
    rw [length_ofULong] at hle
    omega
  rw [and_iff_left_of_imp hshort]
  cases client with
  | none =>
    rw [genuine_zero (t := TcpListener.accept none) rfl]
    exact iff_of_false (by simp [sentBytes]) id
  | some s =>
    have hconn : (TcpListener.accept (some s)).connected = true := rfl
    rw [HeaderRead]
    cases hi : s.incoming with
    | nil =>
      cases he : s.eof with
      | true =>
        have hread : s.read 8 = .ok (some [], s) := by
          simp [Socket.read, hi, he]
        rw [genuine_zero (receiveInt_ok hconn hread)]
        exact iff_of_false (by simp [sentBytes, hi, Framing.bytes]) (by simp [HeaderArrives])
      | false =>
        have hread : s.read 8 = .error .blocks :=
          Socket.read_eq_blocks_iff.mpr ⟨by norm_num, by norm_num, hi, he⟩
        refine iff_of_true ?_ rfl
        rintro p ⟨prot, t, h, -⟩
        rw [receiveInt_blocks hconn hread] at h
        cases h
    | cons a rest =>
      cases a with
      | failure =>
        have hread : TcpStream.receiveInt (TcpListener.accept (some s)) =
            .ok (0, { connected := false, socket := { s with incoming := rest } }) := by
          simp only [TcpListener.accept, TcpStream.receiveInt, Socket.read, hi]
          rfl
        rw [genuine_zero hread, sentBytes, hi]
        rfl
      | bytes b bs =>
        have hread : s.read 8 = .ok (some ((b :: bs).take 8),
            { s with incoming := Socket.push ((b :: bs).drop 8) rest }) := by
          simp only [Socket.read, hi]
          rfl
        have hsent : sentBytes (some s) = b :: bs ++ Framing.bytes rest := by
          rw [sentBytes, hi]
          rfl
        by_cases hlong : 8 ≤ (b :: bs).length
        · have hlen : ((b :: bs).take 8).length = 8 := by rw [List.length_take_of_le hlong]
          have hsplit : sentBytes (some s) =
              (b :: bs).take 8 ++ ((b :: bs).drop 8 ++ Framing.bytes rest) := by
            rw [hsent, ← List.append_assoc, List.take_append_drop]
          rw [genuine_bytes (receiveInt_ok hconn hread) (Nat.le_of_eq hlen) hsplit]
          refine iff_of_true (.inr ?_) (.inl hlong)
          rw [hlen]
          exact List.nil_prefix
        · have htake : (b :: bs).take 8 = b :: bs := List.take_of_length_le (by omega)
          rw [htake] at hread
          rw [genuine_bytes (receiveInt_ok hconn hread) (by omega) hsent, HeaderArrives, or_iff_right hlong]

/-- A failed `accept`, a client that closes at once, and one that sends only the first byte of KILL. -/
theorem dispatches_unsent :
    Dispatches none .PROVISION ∧
      Dispatches (some { incoming := [], eof := true }) .PROVISION ∧
      Dispatches (some { incoming := [.bytes 1 []], eof := true }) .KILL ∧
      (sentBytes (some { incoming := [.bytes 1 []], eof := true })).length < 8 :=
  ⟨⟨_, _, rfl, by decide⟩, ⟨_, _, rfl, by decide⟩, ⟨_, _, rfl, by decide⟩, by decide⟩

end VMServer
