import DioMonitor.Net.Proofs.StreamProofs
import DioMonitor.Server.Answers

/-!
# Rules for handlers

A handler is cut at the places where it can go wrong: the two reads of the text, the parser, and the body
of its `try` block. `Sends` describes the replies, `Quiet` the steps that write nothing, and `Silent` what
remains of a handler whose stream is no longer connected. A handler is answered when its text arrives and
the body of its `try` block ends (`receiveText_answered_iff`, `respond_answered_iff`).
-/

namespace VMServer

open Config LibvirtClient TcpStream

/-! ## Running a handler -/

section Run

variable {α β : Type} {m : Handle α} {f : α → Handle β} {w w' : World}

theorem bind_ok {a : α} (h : m w = (.ok a, w')) : (m >>= f) w = f a w' := by
  change StateT.bind m (ExceptT.bindCont f) w = _
  simp only [StateT.bind, h]
  rfl

theorem bind_error {e : Fault} (h : m w = (.error e, w')) : (m >>= f) w = (.error e, w') := by
  change StateT.bind m (ExceptT.bindCont f) w = _
  simp only [StateT.bind, h]
  rfl

theorem get_run (w : World) : (get : Handle World) w = (.ok w, w) := rfl

theorem purely_run (r : Except Fault α) (w : World) : purely r w = (r, w) := rfl

end Run

/-- The bytes written so far. -/
def World.sent (w : World) : List UInt8 := w.stream.socket.sent

/-- The world when a client has been read up to the socket `s`. -/
def World.after (w : World) (s : Socket) : World := { w with stream := { connected := true, socket := s } }

/-! ## Replies -/

/-- On a live stream `m` returns, and writes `bs`. -/
def Sends {α : Type} (m : Handle α) (bs : List UInt8) : Prop :=
  ∀ w : World, w.stream.Live → ∃ a w', m w = (.ok a, w') ∧ w'.sent = w.sent ++ bs

/-- The same, and the stream stays live. -/
def Writes {α : Type} (m : Handle α) (bs : List UInt8) : Prop :=
  ∀ w : World, w.stream.Live → ∃ a w', m w = (.ok a, w') ∧ w'.sent = w.sent ++ bs ∧ w'.stream.Live

section

variable {α β : Type} {m : Handle α} {f : α → Handle β} {bs cs : List UInt8}

theorem Writes.sends (h : Writes m bs) : Sends m bs := by
  intro w hw
  obtain ⟨a, w', hrun, hsent, -⟩ := h w hw
  exact ⟨a, w', hrun, hsent⟩

theorem Writes.bind (hm : Writes m bs) (hf : ∀ a, Writes (f a) cs) : Writes (m >>= f) (bs ++ cs) := by
  intro w hw
  obtain ⟨a, w₁, hrun, hsent, hw₁⟩ := hm w hw
  obtain ⟨b, w₂, hrun₂, hsent₂, hw₂⟩ := hf a w₁ hw₁
  exact ⟨b, w₂, by rw [bind_ok hrun, hrun₂], by rw [hsent₂, hsent, List.append_assoc], hw₂⟩

theorem Writes.bind_sends (hm : Writes m bs) (hf : ∀ a, Sends (f a) cs) :
    Sends (m >>= f) (bs ++ cs) := by
  intro w hw
  obtain ⟨a, w₁, hrun, hsent, hw₁⟩ := hm w hw
  obtain ⟨b, w₂, hrun₂, hsent₂⟩ := hf a w₁ hw₁
  exact ⟨b, w₂, by rw [bind_ok hrun, hrun₂], by rw [hsent₂, hsent, List.append_assoc]⟩

end

theorem writes_sendInt (i : ℕ) : Writes (sendInt i) (ofULong i) := by
  intro w hw
  obtain ⟨t, hrun, hlive, hsent⟩ := write_live hw (ofULong i)
  refine ⟨(), { w with stream := t }, ?_, hsent, hlive⟩
  change (_, { w with stream := (w.stream.write (ofULong i)).2 }) = _
  rw [hrun]

theorem writes_send (msg : Str) : Writes (send msg) (ofStr msg) := by
  intro w hw
  obtain ⟨t, hrun, hlive, hsent⟩ := write_live hw (ofStr msg)
  refine ⟨(), { w with stream := t }, ?_, hsent, hlive⟩
  change (_, { w with stream := (w.stream.write (ofStr msg)).2 }) = _
  rw [hrun]

theorem sends_close : Sends close [] := by
  intro w hw
  refine ⟨(), { w with stream := w.stream.close }, rfl, ?_⟩
  simp [World.sent, TcpStream.close, hw.connected]

theorem writes_sendError (e : VMProtocolError) : Writes (sendError e) (Reply.err e).encode :=
  (writes_sendInt _).bind fun _ => writes_sendInt _

theorem sends_notFound : Sends respond.notFound (Reply.err .NOT_FOUND).encode := by
  have h := (writes_sendError .NOT_FOUND).bind_sends fun _ => sends_close
  rwa [List.append_nil] at h

theorem sends_sendOk : Sends sendOk Reply.ok.encode := by
  have h := (writes_sendInt VMProtocol.OK.code).bind_sends fun _ => sends_close
  rwa [List.append_nil] at h

theorem sends_sendIp (ip : Str) : Sends (sendIp ip) (Reply.ip ip).encode := by
  have h := (writes_sendInt VMProtocol.IP.code).bind_sends fun _ =>
    (writes_sendInt ip.length).bind_sends fun _ => (writes_send ip).bind_sends fun _ => sends_close
  rwa [List.append_nil, ← List.append_assoc] at h

theorem Reply.encode_ne_nil (reply : Reply) : reply.encode ≠ [] := by
  cases reply <;> simp [Reply.encode, ofULong]

/-! ## Steps that write nothing -/

/-- `m` keeps a live stream live, and writes nothing. -/
def Quiet {α : Type} (m : Handle α) : Prop :=
  ∀ w : World, w.stream.Live → (m w).2.stream.Live ∧ (m w).2.sent = w.sent

/-- On a stream that is not connected, `m` writes nothing. -/
def Silent {α : Type} (m : Handle α) : Prop :=
  ∀ w : World, w.stream.connected = false → (m w).2.stream = w.stream

section

variable {α β : Type} {m : Handle α} {f : α → Handle β}

theorem Quiet.bind (hm : Quiet m) (hf : ∀ a, Quiet (f a)) : Quiet (m >>= f) := by
  intro w hw
  obtain ⟨hlive, hsent⟩ := hm w hw
  rcases hr : m w with ⟨r, w₁⟩
  rw [hr] at hlive hsent
  cases r with
  | error e =>
    rw [bind_error hr]
    exact ⟨hlive, hsent⟩
  | ok a =>
    rw [bind_ok hr]
    obtain ⟨hlive₂, hsent₂⟩ := hf a w₁ hlive
    exact ⟨hlive₂, hsent₂.trans hsent⟩

theorem Silent.bind (hm : Silent m) (hf : ∀ a, Silent (f a)) : Silent (m >>= f) := by
  intro w hw
  have h := hm w hw
  rcases hr : m w with ⟨r, w₁⟩
  rw [hr] at h
  cases r with
  | error e =>
    rw [bind_error hr]
    exact h
  | ok a =>
    rw [bind_ok hr]
    exact (hf a w₁ (by rw [h]; exact hw)).trans h

theorem quiet_pure (a : α) : Quiet (pure a : Handle α) := fun _ hw => ⟨hw, rfl⟩

theorem silent_pure (a : α) : Silent (pure a : Handle α) := fun _ _ => rfl

theorem quiet_purely (r : Except Fault α) : Quiet (purely r) := fun _ hw => ⟨hw, rfl⟩

theorem silent_purely (r : Except Fault α) : Silent (purely r) := fun _ _ => rfl

end

theorem quiet_get : Quiet (get : Handle World) := fun _ hw => ⟨hw, rfl⟩

theorem silent_get : Silent (get : Handle World) := fun _ _ => rfl

theorem quiet_modify {f : World → World} (h : ∀ w, (f w).stream = w.stream) :
    Quiet (modify f : Handle Unit) := by
  intro w hw
  change (f w).stream.Live ∧ (f w).sent = w.sent
  rw [World.sent, h w]
  exact ⟨hw, rfl⟩

theorem silent_modify {f : World → World}
    (h : ∀ w, w.stream.connected = false → (f w).stream = w.stream) :
    Silent (modify f : Handle Unit) := h

theorem silent_sendInt (i : ℕ) : Silent (sendInt i) :=
  silent_modify fun w hw => by rw [TcpStream.sendInt, write_disconnected hw]

theorem silent_send (msg : Str) : Silent (send msg) :=
  silent_modify fun w hw => by rw [TcpStream.send, write_disconnected hw]

theorem silent_close : Silent close := silent_modify fun _ hw => close_disconnected hw

theorem silent_receiveInt : Silent receiveInt := by
  intro w hw
  change (onStream TcpStream.receiveInt w).2.stream = _
  rw [onStream, receiveInt_disconnected hw]

/-- `receiveInt` in a handler returns a number, or waits for ever. -/
theorem receiveInt_cases {w : World} (hw : w.stream.Live) :
    (∃ bs s, w.stream.socket.read 8 = .ok (some bs, s) ∧ receiveInt w = (.ok (toULong bs), w.after s) ∧
      (w.after s).stream.Live ∧ (w.after s).sent = w.sent) ∨
    w.stream.socket.read 8 = .error .blocks ∧ receiveInt w = (.error .blocks, w) := by
  rcases hw.sound.read (show 8 < 2 ^ 63 by norm_num) with ⟨bs, s, hread, hsound, hsent⟩ | hread
  · refine .inl ⟨bs, s, hread, ?_, ⟨rfl, hsound⟩, hsent⟩
    rw [receiveInt, onStream, receiveInt_ok hw.connected hread, hw.connected]
    rfl
  · exact .inr ⟨hread, by rw [receiveInt, onStream, receiveInt_blocks hw.connected hread]⟩

theorem quiet_receiveInt : Quiet receiveInt := by
  intro w hw
  rcases receiveInt_cases hw with ⟨bs, s, -, hrun, hlive, hsent⟩ | ⟨-, hrun⟩
  · rw [hrun]
    exact ⟨hlive, hsent⟩
  · rw [hrun]
    exact ⟨hw, rfl⟩

theorem silent_sendError (e : VMProtocolError) : Silent (sendError e) :=
  (silent_sendInt _).bind fun _ => silent_sendInt _

theorem silent_sendOk : Silent sendOk := (silent_sendInt _).bind fun _ => silent_close

theorem silent_sendIp (ip : Str) : Silent (sendIp ip) :=
  (silent_sendInt _).bind fun _ => (silent_sendInt _).bind fun _ =>
    (silent_send _).bind fun _ => silent_close

theorem silent_respond {caught : Exn → Bool} {body : Handle Bool} (h : Silent body) :
    Silent (respond caught body) := by
  have hnot : Silent respond.notFound := (silent_sendError _).bind fun _ => silent_close
  intro w hw
  have hb := h w hw
  unfold respond
  rcases hr : body w with ⟨r, w₁⟩
  rw [hr] at hb
  have hw₁ : w₁.stream.connected = false := by rw [hb]; exact hw
  rcases r with f | b
  · cases f with
    | throws e =>
      dsimp only
      split_ifs
      · exact (hnot w₁ hw₁).trans hb
      · exact hb
    | undefined => exact hb
    | diverges => exact hb
    | blocks => exact hb
  · cases b with
    | true => exact hb
    | false => exact (hnot w₁ hw₁).trans hb

/-! ## The body of a handler -/

/-- A body that started in `w` replied when it returned from the handler; otherwise it left a live stream
and wrote nothing. -/
def Proper (w : World) : Except Fault Bool × World → Prop
  | (.ok true, w') => ∃ reply : Reply, w'.sent = w.sent ++ reply.encode
  | (_, w') => w'.stream.Live ∧ w'.sent = w.sent

section

variable {α : Type} {w : World}

theorem proper_false (hw : w.stream.Live) : Proper w ((pure false : Handle Bool) w) := ⟨hw, rfl⟩

theorem Sends.proper {m : Handle α} {reply : Reply} (h : Sends m reply.encode)
    (hw : w.stream.Live) : Proper w ((m >>= fun _ => pure true) w) := by
  obtain ⟨a, w', hrun, hsent⟩ := h w hw
  rw [bind_ok hrun]
  exact ⟨reply, hsent⟩

theorem Quiet.proper {m : Handle α} {f : α → Handle Bool} (hm : Quiet m) (hw : w.stream.Live)
    (hf : ∀ a w', m w = (.ok a, w') → w'.stream.Live → Proper w' (f a w')) :
    Proper w ((m >>= f) w) := by
  obtain ⟨hlive, hsent⟩ := hm w hw
  rcases hr : m w with ⟨r, w₁⟩
  rw [hr] at hlive hsent
  cases r with
  | error e =>
    rw [bind_error hr]
    exact ⟨hlive, hsent⟩
  | ok a =>
    rw [bind_ok hr]
    have h := hf a w₁ hr hlive
    change w₁.sent = w.sent at hsent
    rcases hr₂ : f a w₁ with ⟨r₂, w₂⟩
    rw [hr₂] at h
    rcases r₂ with e | b
    · exact ⟨h.1, h.2.trans hsent⟩
    · cases b with
      | true =>
        obtain ⟨reply, hreply⟩ := h
        exact ⟨reply, by rw [hreply, hsent]⟩
      | false => exact ⟨h.1, h.2.trans hsent⟩

end

theorem Answered.of_sends {α : Type} {m : Handle α} {reply : Reply} (h : Sends m reply.encode)
    {w : World} (hw : w.stream.Live) : Answered w (m w) := by
  obtain ⟨a, w', hrun, hsent⟩ := h w hw
  rw [hrun]
  exact ⟨⟨a, rfl⟩, reply, hsent⟩

theorem not_answered_error {α : Type} {w w' : World} {f : Fault} :
    ¬ Answered w ((.error f, w') : Except Fault α × World) := by
  rintro ⟨⟨a, ha⟩, -⟩
  exact absurd ha nofun

theorem ends_ok {α : Type} (caught : Exn → Bool) (a : α) : Ends caught (.ok a : Except Fault α) :=
  fun _ h => absurd h (by simp)

theorem ends_error {α : Type} {caught : Exn → Bool} {f : Fault} :
    Ends caught (.error f : Except Fault α) ↔ ∃ e, f = .throws e ∧ caught e = true :=
  ⟨fun h => h f rfl, fun h _ hf => Except.error.inj hf ▸ h⟩

/-- A `try` block is answered when its body ends, with exceptions that are caught only. -/
theorem respond_answered_iff {caught : Exn → Bool} {body : Handle Bool} {w : World}
    (hbody : Proper w (body w)) :
    Answered w (respond caught body w) ↔ Ends caught (body w).1 := by
  have hnot : ∀ w' : World, w'.stream.Live → w'.sent = w.sent →
      Answered w (respond.notFound w') := by
    intro w' hw' hsent
    obtain ⟨hret, reply, hreply⟩ := Answered.of_sends sends_notFound hw'
    exact ⟨hret, reply, hreply.trans (by rw [show w'.stream.socket.sent = w.sent from hsent]; rfl)⟩
  unfold respond
  rcases hr : body w with ⟨r, w₁⟩
  rw [hr] at hbody
  rcases r with f | b
  · rw [ends_error]
    cases f with
    | throws e =>
      dsimp only
      split_ifs with hc
      · exact iff_of_true (hnot w₁ hbody.1 hbody.2) ⟨e, rfl, hc⟩
      · exact iff_of_false not_answered_error fun ⟨e', he, hc'⟩ => hc (by cases he; exact hc')
    | undefined => exact iff_of_false not_answered_error fun ⟨e', he, _⟩ => absurd he (by simp)
    | diverges => exact iff_of_false not_answered_error fun ⟨e', he, _⟩ => absurd he (by simp)
    | blocks => exact iff_of_false not_answered_error fun ⟨e', he, _⟩ => absurd he (by simp)
  · refine iff_of_true ?_ (ends_ok caught b)
    cases b with
    | true => exact ⟨⟨(), rfl⟩, hbody⟩
    | false => exact hnot w₁ hbody.1 hbody.2

/-! ## The text of a request -/

theorem Delivers.live {host : Host} {w : World} {text : Str} {s : Socket}
    (h : Delivers host w.stream.socket text s) (hw : w.stream.Live) :
    (w.after s).stream.Live ∧ (w.after s).sent = w.sent := by
  obtain ⟨hd, s₁, bs, hread, -, -, hread₂, -⟩ := h
  obtain ⟨hsound₁, hsent₁⟩ := hw.sound.of_read hread
  obtain ⟨hsound₂, hsent₂⟩ := hsound₁.of_read hread₂
  exact ⟨⟨rfl, hsound₂⟩, hsent₂.trans hsent₁⟩

/-- The text arrives, or the handler stops, or it goes on without a connection. -/
theorem receiveText_cases (env : Env) {w : World} (hw : w.stream.Live) :
    (∃ text s, Delivers env.ctl.host w.stream.socket text s ∧
      receiveText env w = (.ok text, w.after s)) ∨
    (¬ ∃ text s, Delivers env.ctl.host w.stream.socket text s) ∧
      ((∃ f w', receiveText env w = (.error f, w')) ∨
        ∃ text w', receiveText env w = (.ok text, w') ∧ w'.stream.connected = false ∧
          w'.sent = w.sent) := by
  unfold receiveText
  rcases receiveInt_cases hw with ⟨hd, s₁, hread, hrun, hlive₁, hsent₁⟩ | ⟨hread, hrun⟩
  swap
  · refine .inr ⟨?_, .inl ⟨.blocks, w, bind_error hrun⟩⟩
    rintro ⟨text, s, hd, s₁, bs, h, -⟩
    rw [hread] at h
    exact absurd h (by simp)
  -- a delivered text begins with the same length
  have hsame : ∀ {text s}, Delivers env.ctl.host w.stream.socket text s → toULong hd < 2 ^ 63 ∧
      env.ctl.host.canAlloc (toULong hd + 1) = true ∧
      ∃ bs, s₁.read (toULong hd) = .ok (some bs, s) := by
    rintro text s ⟨hd', s₁', bs, h, hlt, halloc, hread₂, -⟩
    rw [hread] at h
    cases h
    exact ⟨hlt, halloc, bs, hread₂⟩
  rw [bind_ok hrun]
  by_cases halloc : env.ctl.host.canAlloc ((toULong hd + 1) % 2 ^ 64) = true
  swap
  · have hrun₂ : receive env (toULong hd) (w.after s₁) = (.error (.throws .badAlloc), w.after s₁) := by
      rw [receive, onStream, receive_badAlloc rfl (by simpa using halloc)]
    refine .inr ⟨?_, .inl ⟨_, _, hrun₂⟩⟩
    rintro ⟨text, s, h⟩
    obtain ⟨hlt, ha, -⟩ := hsame h
    rw [Nat.mod_eq_of_lt (by omega)] at halloc
    exact halloc ha
  by_cases hlt : toULong hd < 2 ^ 63
  swap
  · have hrun₂ : receive env (toULong hd) (w.after s₁) = (.ok env.ctl.host.garbage,
        { w with stream := { connected := false, socket := s₁ } }) := by
      rw [receive, onStream, receive_refused rfl halloc (by omega)]
      rfl
    exact .inr ⟨fun ⟨text, s, h⟩ => hlt (hsame h).1, .inr ⟨_, _, hrun₂, rfl, hsent₁⟩⟩
  rcases hlive₁.sound.read hlt with ⟨bs, s, hread₂, -, -⟩ | hread₂
  · have hrun₂ : receive env (toULong hd) (w.after s₁) = (.ok (toStr bs), w.after s) := by
      rw [receive, onStream, receive_ok rfl halloc hread₂]
      rfl
    rw [Nat.mod_eq_of_lt (by omega)] at halloc
    exact .inl ⟨toStr bs, s, ⟨hd, s₁, bs, hread, hlt, halloc, hread₂, rfl⟩, hrun₂⟩
  · have hrun₂ : receive env (toULong hd) (w.after s₁) = (.error .blocks, w.after s₁) := by
      rw [receive, onStream, receive_blocks rfl halloc hread₂]
    refine .inr ⟨?_, .inl ⟨_, _, hrun₂⟩⟩
    rintro ⟨text, s, h⟩
    obtain ⟨-, -, bs, hbs⟩ := hsame h
    exact absurd (hread₂.symm.trans hbs) nofun

theorem Delivers.unique {host : Host} {s s₁ s₂ : Socket} {text₁ text₂ : Str}
    (h₁ : Delivers host s text₁ s₁) (h₂ : Delivers host s text₂ s₂) : text₁ = text₂ ∧ s₁ = s₂ := by
  obtain ⟨hd, t, bs, hread, -, -, hread', rfl⟩ := h₁
  obtain ⟨hd₂, t₂, bs₂, hread₂, -, -, hread₂', rfl⟩ := h₂
  rw [hread] at hread₂
  cases hread₂
  rw [hread'] at hread₂'
  cases hread₂'
  exact ⟨rfl, rfl⟩

/-- A request is answered when its text arrives and what the handler does with it is an answer. -/
theorem receiveText_answered_iff (env : Env) {w : World} (hw : w.stream.Live)
    {f : Str → Handle Unit} (hf : ∀ text, Silent (f text)) :
    Answered w ((receiveText env >>= f) w) ↔ ∃ text s,
      Delivers env.ctl.host w.stream.socket text s ∧
        Answered (w.after s) (f text (w.after s)) := by
  rcases receiveText_cases env hw with ⟨text, s, hdel, hrun⟩ | ⟨hnot, hstop | hgo⟩
  · rw [bind_ok hrun]
    have hsent := (hdel.live hw).2
    have hiff : ∀ r : Except Fault Unit × World, Answered w r ↔ Answered (w.after s) r := by
      intro r
      unfold Answered
      rw [show w.stream.socket.sent = (w.after s).stream.socket.sent from hsent.symm]
    rw [hiff]
    constructor
    · intro h
      exact ⟨text, s, hdel, h⟩
    · rintro ⟨text', s', hdel', h⟩
      obtain ⟨rfl, rfl⟩ := hdel.unique hdel'
      exact h
  · obtain ⟨e, w', hrun⟩ := hstop
    rw [bind_error hrun]
    exact iff_of_false not_answered_error fun ⟨text, s, hdel, _⟩ => hnot ⟨text, s, hdel⟩
  · obtain ⟨text, w', hrun, hdis, hsent⟩ := hgo
    rw [bind_ok hrun]
    refine iff_of_false ?_ fun ⟨text, s, hdel, _⟩ => hnot ⟨text, s, hdel⟩
    rintro ⟨-, reply, hreply⟩
    rw [hf text w' hdis] at hreply
    have hsame : w'.stream.socket.sent = w.stream.socket.sent := hsent
    rw [hsame] at hreply
    exact reply.encode_ne_nil (List.self_eq_append_right.mp hreply)

end VMServer
