import DioMonitor.Server.Descriptors
import DioMonitor.Server.Proofs.AcceptProofs
import DioMonitor.Server.Proofs.OutcomeProofs

/-!
# Proofs: the descriptors of the clients

A handler that returns closes the descriptor of its client exactly when the protocol is known and none
of the reads and writes it makes fails (`handler_closes`): `TcpStream` forgets the descriptor of a
stream whose read or write failed without closing it.
-/

namespace VMServer

open Config LibvirtClient TcpStream

/-! ## The end of a handler -/

/-- The writes of a reply, then the descriptor is closed. -/
theorem put_closes (r : Reply) (w : World) :
    (put r w).2.stream.socket.closes =
      w.stream.socket.closes + if w.stream.Takes r.writes then 1 else 0 := by
  cases r with
  | ok =>
    show ((w.stream.write _).2.close).socket.closes = _
    rw [close_closes, write_closes]
    simp only [takes_write, Reply.writes]
    rfl
  | ip address =>
    show ((((w.stream.write _).2.write _).2.write _).2.close).socket.closes = _
    rw [close_closes, write_closes, write_closes, write_closes]
    simp only [takes_write, Reply.writes]
    rfl
  | err code =>
    show (((w.stream.write _).2.write _).2.close).socket.closes = _
    rw [close_closes, write_closes, write_closes]
    simp only [takes_write, Reply.writes]
    rfl

/-- The default case of the `switch` closes nothing. -/
theorem sendError_closes (e : VMProtocolError) (w : World) :
    (sendError e w).2.stream.socket.closes = w.stream.socket.closes := by
  show (((w.stream.write _).2.write _).2).socket.closes = _
  rw [write_closes, write_closes]

/-! ## Reading a request -/

/-- The two reads of a text succeed. -/
def TextArrives (s : Socket) (text : Str) (s' : Socket) : Prop :=
  ∃ hd s₁ bs, s.read 8 = .ok (some hd, s₁) ∧ s₁.read (toULong hd) = .ok (some bs, s') ∧
    text = toStr bs

/-- The writes of the reply succeed. -/
def TakesReply (s : Socket) (r : Reply) : Prop := ∀ b ∈ s.writes.take r.writes, b = true

theorem onStream_ok {α : Type} {m : StateT TcpStream (Except Fault) α} {w w' : World} {a : α}
    (h : onStream m w = (.ok a, w')) : ∃ t, m w.stream = .ok (a, t) ∧ w' = { w with stream := t } := by
  unfold onStream at h
  split at h
  · next b t hb =>
    cases h
    exact ⟨t, hb, rfl⟩
  · exact absurd (Prod.mk.inj h).1 nofun

theorem receiveInt_returned {w w' : World} {n : ℕ} (h : receiveInt w = (.ok n, w')) :
    Reads w.stream w'.stream ∧ (w'.stream.connected = true ↔ w.stream.connected = true ∧
      ∃ bs s, w.stream.socket.read 8 = .ok (some bs, s) ∧ n = toULong bs ∧ w' = w.after s) := by
  obtain ⟨t, ht, rfl⟩ := onStream_ok h
  obtain ⟨hreads, hconn⟩ := receiveInt_reads ht
  refine ⟨hreads, hconn.trans (and_congr_right fun _ => exists_congr fun bs => exists_congr fun s => ?_)⟩
  refine and_congr_right fun _ => and_congr_right fun _ => ?_
  exact ⟨fun h => by rw [h]; rfl, fun h => congrArg World.stream h⟩

theorem receiveInt_run {w : World} (hw : w.stream.connected = true) {bs : List UInt8} {s : Socket}
    (hread : w.stream.socket.read 8 = .ok (some bs, s)) :
    receiveInt w = (.ok (toULong bs), w.after s) := by
  rw [receiveInt, onStream, receiveInt_ok hw hread, hw]
  rfl

theorem receiveText_returned {env : Env} {w w' : World} {text : Str}
    (h : receiveText env w = (.ok text, w')) :
    Reads w.stream w'.stream ∧ (w'.stream.connected = true ↔ w.stream.connected = true ∧
      ∃ s, TextArrives w.stream.socket text s ∧ w' = w.after s) := by
  obtain ⟨n, w₁, hint, h⟩ := bind_returned h
  obtain ⟨t, ht, rfl⟩ := onStream_ok h
  obtain ⟨hreads₁, hconn₁⟩ := receiveInt_returned hint
  obtain ⟨hreads₂, hconn₂⟩ := receive_reads ht
  refine ⟨hreads₁.trans hreads₂, hconn₂.trans ?_⟩
  constructor
  · rintro ⟨hc, bs, s, hread, htext, rfl⟩
    obtain ⟨hw, hd, s₁, hread₁, rfl, rfl⟩ := hconn₁.mp hc
    exact ⟨hw, s, ⟨hd, s₁, bs, hread₁, hread, htext⟩, rfl⟩
  · rintro ⟨-, s, -, hw'⟩
    have hc : t.connected = true := congrArg (fun w : World => w.stream.connected) hw'
    exact hconn₂.mp hc

/-! ## When the descriptor is closed -/

/-- None of the reads and writes that the handler of an operation makes fails, for a client whose stream
is at the socket `s` and a server that is in `w`. -/
def Unbroken (env : Env) (w : World) (s : Socket) : VMProtocol → Prop
  | .PROVISION => ∃ text s', TextArrives s text s' ∧ ∀ cfg, Toml.parse text = .ok cfg →
      TakesReply s (provisionOutcome env cfg (w.after s')).1
  | .KILL => ∃ name s', TextArrives s name s' ∧ TakesReply s (killOutcome env name (w.after s')).1
  | .IP => ∃ name s', TextArrives s name s' ∧ TakesReply s (ipOutcome name (w.after s')).1
  | .NAT => ∃ name s', TextArrives s name s' ∧
      match getVM w.running name with
      | none => TakesReply s (.err .NOT_FOUND)
      | some vm => ∃ host s₁ guest s₂,
        s'.read 8 = .ok (some host, s₁) ∧ s₁.read 8 = .ok (some guest, s₂) ∧
          TakesReply s (natOutcome env vm (toULong host) (toULong guest) (w.after s₂)).1
  | .RESET_COUNTERS => TakesReply s .ok
  | .OK | .ERR => False

/-- The outcome of a handler leaves the stream alone. -/
theorem provisionOutcome_stream (env : Env) (cfg : Dict) (w : World) :
    (provisionOutcome env cfg w).2.stream = w.stream := by
  unfold provisionOutcome
  split
  · rfl
  · split_ifs
    · rfl
    · split
      · rfl
      · split <;> rfl

theorem killOutcome_stream (env : Env) (name : Str) (w : World) :
    (killOutcome env name w).2.stream = w.stream := by
  unfold killOutcome
  split
  · rfl
  · split <;> rfl

theorem ipOutcome_stream (name : Str) (w : World) : (ipOutcome name w).2.stream = w.stream := by
  unfold ipOutcome
  split <;> rfl

theorem natOutcome_stream (env : Env) (vm : LibvirtVM) (host guest : ℕ) (w : World) :
    (natOutcome env vm host guest w).2.stream = w.stream := by
  unfold natOutcome
  split_ifs
  · split <;> rfl
  · rfl

/-- From `w` to `w'` the descriptor is closed once when `p` holds, and it is left alone otherwise. -/
def ClosedWhen (p : Prop) (w w' : World) : Prop :=
  (p ∧ w'.stream.socket.closes = w.stream.socket.closes + 1) ∨
    (¬ p ∧ w'.stream.socket.closes = w.stream.socket.closes)

theorem ClosedWhen.congr {p q : Prop} {w w' : World} (h : ClosedWhen p w w') (hpq : p ↔ q) :
    ClosedWhen q w w' := by
  rcases h with ⟨hp, hone⟩ | ⟨hp, hsame⟩
  · exact .inl ⟨hpq.mp hp, hone⟩
  · exact .inr ⟨fun hq => hp (hpq.mpr hq), hsame⟩

theorem ClosedWhen.start {p : Prop} {w w₁ w' : World} (h : ClosedWhen p w₁ w')
    (hw : w₁.stream.socket.closes = w.stream.socket.closes) : ClosedWhen p w w' := by
  unfold ClosedWhen at h
  rwa [hw] at h

theorem ClosedWhen.sub_eq_one {p : Prop} {w w' : World} (h : ClosedWhen p w w') :
    w'.stream.socket.closes - w.stream.socket.closes = 1 ↔ p := by
  rcases h with ⟨hp, hone⟩ | ⟨hp, hsame⟩
  · exact iff_of_true (by omega) hp
  · exact iff_of_false (by omega) hp

/-- A handler whose stream has only been read closes the descriptor when the stream is connected and
takes the reply. -/
theorem ended_closes {w w₁ : World} {o : Reply × World} (hreads : Reads w.stream w₁.stream)
    (ho : o.2.stream = w₁.stream) :
    ClosedWhen (w₁.stream.connected = true ∧ TakesReply w.stream.socket o.1) w (ended o) := by
  have hclosed := put_closes o.1 o.2
  have htakes : o.2.stream.Takes o.1.writes ↔
      w₁.stream.connected = true ∧ TakesReply w.stream.socket o.1 := by
    rw [ho]
    unfold Takes TakesReply
    rw [hreads.writes]
  rw [ho, hreads.closes] at hclosed
  rw [ho] at htakes
  by_cases htaken : w₁.stream.Takes o.1.writes
  · rw [if_pos htaken] at hclosed
    exact .inl ⟨htakes.mp htaken, hclosed⟩
  · rw [if_neg htaken] at hclosed
    exact .inr ⟨fun h => htaken (htakes.mpr h), hclosed⟩

/-- A text that arrives is the one that was received. -/
theorem TextArrives.received {env : Env} {w w' : World} {text text' : Str} {s' : Socket}
    (harr : TextArrives w.stream.socket text' s') (hw : w.stream.connected = true)
    (h : receiveText env w = (.ok text, w')) : text' = text ∧ w' = w.after s' := by
  obtain ⟨hd, s₁, bs, hread₁, hread₂, htext⟩ := harr
  obtain ⟨n, w₁, hint, h⟩ := bind_returned h
  rw [receiveInt_run hw hread₁] at hint
  cases hint
  obtain ⟨t, ht, rfl⟩ := onStream_ok h
  obtain ⟨-, hconn⟩ := receive_reads ht
  cases halloc : env.ctl.host.canAlloc ((toULong hd + 1) % 2 ^ 64) with
  | false =>
    rw [receive_badAlloc rfl halloc] at ht
    cases ht
  | true =>
    rw [receive_ok (t := (w.after s₁).stream) rfl halloc hread₂] at ht
    cases ht
    exact ⟨htext, rfl⟩

/-- A handler that only depends on a text closes the descriptor when the text arrives and the reply is
taken. -/
theorem textOutcome_closes {env : Env} {w w₁ w' : World} {text : Str} (hw : w.stream.connected = true)
    (htext : receiveText env w = (.ok text, w₁)) {outcome : Str → World → Reply × World}
    (hstream : ∀ text w, (outcome text w).2.stream = w.stream) (hend : w' = ended (outcome text w₁)) :
    ClosedWhen (∃ text s', TextArrives w.stream.socket text s' ∧
      TakesReply w.stream.socket (outcome text (w.after s')).1) w w' := by
  obtain ⟨hreads, hconn⟩ := receiveText_returned htext
  have hclosed := ended_closes hreads (hstream text w₁)
  rw [← hend] at hclosed
  refine hclosed.congr ⟨?_, ?_⟩
  · rintro ⟨hc, htakes⟩
    obtain ⟨-, s', harr, rfl⟩ := hconn.mp hc
    exact ⟨text, s', harr, htakes⟩
  · rintro ⟨text', s', harr, htakes⟩
    obtain ⟨rfl, rfl⟩ := harr.received hw htext
    exact ⟨rfl, htakes⟩

/-- `treatNat` closes the descriptor when the text arrives, for a registered VM the ports too, and the
reply is taken. -/
theorem nat_closes {env : Env} {w w₁ w' : World} {name : Str} (hw : w.stream.connected = true)
    (htext : receiveText env w = (.ok name, w₁))
    (hcase : (getVM w₁.running name = none ∧ w' = ended (.err .NOT_FOUND, w₁)) ∨
      ∃ vm host w₂ guest w₃, getVM w₁.running name = some vm ∧
        receiveInt w₁ = (.ok host, w₂) ∧ receiveInt w₂ = (.ok guest, w₃) ∧
        w' = ended (natOutcome env vm host guest w₃)) :
    ClosedWhen (Unbroken env w w.stream.socket .NAT) w w' := by
  obtain ⟨hreads₁, hconn₁⟩ := receiveText_returned htext
  rcases hcase with ⟨hvm, hend⟩ | ⟨vm, host, w₂, guest, w₃, hvm, hhost, hguest, hend⟩
  · have hclosed := ended_closes (o := (.err .NOT_FOUND, w₁)) hreads₁ rfl
    rw [← hend] at hclosed
    refine hclosed.congr ⟨?_, ?_⟩
    · rintro ⟨hc, htakes⟩
      obtain ⟨-, s', harr, rfl⟩ := hconn₁.mp hc
      refine ⟨name, s', harr, ?_⟩
      change getVM w.running name = none at hvm
      rw [hvm]
      exact htakes
    · rintro ⟨name', s', harr, htakes⟩
      obtain ⟨rfl, rfl⟩ := harr.received hw htext
      change getVM w.running name' = none at hvm
      rw [hvm] at htakes
      exact ⟨rfl, htakes⟩
  · obtain ⟨hreads₂, hconn₂⟩ := receiveInt_returned hhost
    obtain ⟨hreads₃, hconn₃⟩ := receiveInt_returned hguest
    have hclosed := ended_closes ((hreads₁.trans hreads₂).trans hreads₃)
      (natOutcome_stream env vm host guest w₃)
    rw [← hend] at hclosed
    refine hclosed.congr ⟨?_, ?_⟩
    · rintro ⟨hc, htakes⟩
      obtain ⟨hc₂, gs, s₂, hread₂, rfl, rfl⟩ := hconn₃.mp hc
      obtain ⟨hc₁, hs, s₁, hread₁, rfl, rfl⟩ := hconn₂.mp hc₂
      obtain ⟨-, s', harr, rfl⟩ := hconn₁.mp hc₁
      refine ⟨name, s', harr, ?_⟩
      change getVM w.running name = some vm at hvm
      rw [hvm]
      exact ⟨hs, s₁, gs, s₂, hread₁, hread₂, htakes⟩
    · rintro ⟨name', s', harr, hports⟩
      obtain ⟨rfl, rfl⟩ := harr.received hw htext
      change getVM w.running name' = some vm at hvm
      rw [hvm] at hports
      obtain ⟨hs, s₁, gs, s₂, hread₁, hread₂, htakes⟩ := hports
      rw [receiveInt_run rfl hread₁] at hhost
      cases hhost
      rw [receiveInt_run rfl hread₂] at hguest
      cases hguest
      exact ⟨rfl, htakes⟩

theorem handler_closes {env : Env} {w w' : World} {p : VMProtocol} (hw : w.stream.connected = true)
    (hp : p ≠ .OK ∧ p ≠ .ERR) (h : handler env p w = (.ok (), w')) :
    ClosedWhen (Unbroken env w w.stream.socket p) w w' := by
  cases p with
  | PROVISION =>
    obtain ⟨text, w₁, cfg, htext, hparse, hend⟩ := treatProvision_returned h
    obtain ⟨hreads, hconn⟩ := receiveText_returned htext
    have hclosed := ended_closes hreads (provisionOutcome_stream env cfg w₁)
    rw [← hend] at hclosed
    refine hclosed.congr ⟨?_, ?_⟩
    · rintro ⟨hc, htakes⟩
      obtain ⟨-, s', harr, rfl⟩ := hconn.mp hc
      refine ⟨text, s', harr, ?_⟩
      intro cfg' hcfg'
      rw [hparse] at hcfg'
      cases hcfg'
      exact htakes
    · rintro ⟨text', s', harr, htakes⟩
      obtain ⟨rfl, rfl⟩ := harr.received hw htext
      exact ⟨rfl, htakes cfg hparse⟩
  | KILL =>
    obtain ⟨name, w₁, htext, hend⟩ := treatKill_returned h
    exact textOutcome_closes hw htext (killOutcome_stream env) hend
  | OK => exact absurd rfl hp.1
  | ERR => exact absurd rfl hp.2
  | IP =>
    obtain ⟨name, w₁, htext, hend⟩ := treatIp_returned h
    exact textOutcome_closes hw htext ipOutcome_stream hend
  | NAT =>
    obtain ⟨name, w₁, htext, hcase⟩ := treatNat_returned h
    exact nat_closes hw htext hcase
  | RESET_COUNTERS =>
    have hend := treatResetCounters_returned h
    have hclosed := ended_closes (o := resetOutcome env w) (Reads.refl w.stream) rfl
    rw [← hend] at hclosed
    exact hclosed.congr (and_iff_right hw)

/-! ## A client -/

theorem silent_receive (env : Env) (len : ℕ) : Silent (receive env len) := by
  intro w hw
  change (onStream (TcpStream.receive env.ctl.host len) w).2.stream = _
  simp [onStream, TcpStream.receive, hw]

theorem silent_receiveText (env : Env) : Silent (receiveText env) :=
  silent_receiveInt.bind fun len => silent_receive env len

theorem silent_treatResetCounters (env : Env) : Silent (treatResetCounters env) :=
  Silent.bind (silent_modify fun _ _ => rfl) fun _ => silent_sendOk

/-- Without a connection nothing is closed. -/
theorem silent_treat (env : Env) (prot : ℕ) : Silent (treat env prot) := by
  unfold treat
  split_ifs
  · exact (silent_receiveText env).bind fun _ => (silent_purely _).bind fun cfg =>
      silent_respond (silent_tryProvision cfg)
  · exact (silent_receiveText env).bind fun name => silent_respond (silent_tryKill name)
  · exact (silent_receiveText env).bind fun name => silent_respond (silent_tryIp name)
  · exact (silent_receiveText env).bind fun name => silent_respond (silent_tryNat name)
  · exact silent_treatResetCounters env
  · exact silent_sendError .PROTOCOL

/-- The protocol of a client is read and known, and none of the reads and writes that its handler makes
fails. -/
def Served (env : Env) (w : World) : Prop :=
  ∃ hd s p, w.stream.socket.read 8 = .ok (some hd, s) ∧ dispatch (toULong hd) = some p ∧
    Unbroken env w s p

theorem dispatch_ne {prot : ℕ} {p : VMProtocol} (h : dispatch prot = some p) :
    p ≠ .OK ∧ p ≠ .ERR := by
  unfold dispatch at h
  split_ifs at h
  all_goals
    cases h
    exact ⟨nofun, nofun⟩

/-- The handler of a client starts from what the read of the protocol left. -/
theorem served_iff (env : Env) {w : World} {hd : List UInt8} {s : Socket}
    (hread : w.stream.socket.read 8 = .ok (some hd, s)) :
    Served env w ↔ ∃ p, dispatch (toULong hd) = some p ∧ Unbroken env (w.after s) s p := by
  have hafter : ∀ p, Unbroken env w s p ↔ Unbroken env (w.after s) s p := by
    intro p
    cases p <;> exact Iff.rfl
  constructor
  · rintro ⟨hd', s', p, hread', hp, hun⟩
    rw [hread] at hread'
    cases hread'
    exact ⟨p, hp, (hafter p).mp hun⟩
  · rintro ⟨p, hp, hun⟩
    exact ⟨hd, s, p, hread, hp, (hafter p).mpr hun⟩

/-- The descriptor of a client is closed, once, exactly when the client is served without a failure. -/
theorem acceptClient_closes {env : Env} {w w' : World} (hw : w.stream.connected = true)
    (h : acceptClient env w = (.ok (), w')) :
    ClosedWhen (Served env w) w w' := by
  obtain ⟨prot, w₁, hint, h⟩ := bind_returned h
  obtain ⟨hreads, hconn⟩ := receiveInt_returned hint
  by_cases hc : w₁.stream.connected = true
  · obtain ⟨-, hd, s, hread, rfl, rfl⟩ := hconn.mp hc
    have hstart : (w.after s).stream.socket.closes = w.stream.socket.closes := hreads.closes
    have hserved := served_iff env hread
    rw [treat_eq] at h
    cases hp : dispatch (toULong hd) with
    | some p =>
      rw [hp] at h
      refine ((handler_closes rfl (dispatch_ne hp) h).start hstart).congr ?_
      rw [hserved]
      refine ⟨fun hun => ⟨p, hp, hun⟩, ?_⟩
      rintro ⟨p', hp', hun⟩
      cases hp.symm.trans hp'
      exact hun
    | none =>
      rw [hp] at h
      have hsame := sendError_closes .PROTOCOL (w.after s)
      dsimp only at h
      rw [h] at hsame
      refine .inr ⟨fun hs => ?_, hsame.trans hstart⟩
      obtain ⟨p, hp', -⟩ := hserved.mp hs
      cases hp.symm.trans hp'
  · have hsilent := silent_treat env prot w₁ (Bool.not_eq_true _ ▸ hc)
    rw [h] at hsilent
    have hsame : w'.stream.socket.closes = w.stream.socket.closes := by
      rw [hsilent]
      exact hreads.closes
    refine .inr ⟨?_, hsame⟩
    rintro ⟨hd, s, p, hread, -⟩
    rw [receiveInt_run hw hread] at hint
    cases hint
    exact hc rfl

/-! ## Runs -/

namespace Connections

/-- The handler whose return is the event served its client without a failure. -/
def Clean (env : Env) (c : Connections) : Event → Prop
  | .finish i => ∀ s, c.pending[i]? = some s → Served env (c.world s)
  | _ => True

/-- Every handler that returned closed the descriptor of its client exactly once. -/
def ClosedOnce (c : Connections) : Prop := ∀ n ∈ c.closed, n = 1

theorem step_closedOnce {env : Env} {c c' : Connections} {e : Event} (h : step env c e = some c') :
    c'.ClosedOnce ↔ c.ClosedOnce ∧ Clean env c e := by
  cases e with
  | accept incoming eof writes =>
    cases h
    exact (and_iff_left trivial).symm
  | registry running =>
    cases h
    exact (and_iff_left trivial).symm
  | finish i =>
    simp only [step] at h
    cases hs : c.pending[i]? with
    | none =>
      rw [hs] at h
      cases h
    | some s =>
      rw [hs] at h
      dsimp only at h
      rcases hr : acceptClient env (c.world s) with ⟨r, w⟩
      rw [hr] at h
      cases r with
      | error f => cases h
      | ok u =>
        cases h
        have hone := (acceptClient_closes (w := c.world s) rfl hr).sub_eq_one
        have hclean : Clean env c (.finish i) ↔ Served env (c.world s) := by
          refine ⟨fun h => h s hs, ?_⟩
          intro h s' hs'
          rw [hs] at hs'
          cases hs'
          exact h
        rw [hclean, ← hone]
        unfold ClosedOnce
        rw [List.forall_mem_append, List.forall_mem_singleton]
        exact Iff.rfl

/-- When every handler that returned closed its descriptor once, the open descriptors are those of the
handlers that are still running. -/
theorem opened_of_closedOnce {c : Connections} (h : c.ClosedOnce) :
    c.opened = c.pending.length := by
  have hsum : c.closed.sum = c.closed.length := by
    have hrep : c.closed = List.replicate c.closed.length 1 := List.eq_replicate_of_mem h
    rw [hrep, List.sum_replicate_nat, List.length_replicate, Nat.mul_one]
  unfold opened accepted
  rw [hsum]
  omega

/-- Over any sequence of clients, each handler that returned closed the descriptor of its client exactly
once, and as many descriptors are open as handlers are running, exactly when every handler that returned
served its client without a failure. -/
theorem closed_iff (env : Env) {events : List Event} {c : Connections}
    (hrun : Transition.run (step env) {} events = some c) :
    c.ClosedOnce ∧ c.opened = c.pending.length ↔
      Transition.Guarded (step env) (Clean env) {} events := by
  have hstart : ClosedOnce {} := fun n hn => absurd hn List.not_mem_nil
  rw [and_iff_left_of_imp opened_of_closedOnce,
    Transition.run_iff_guarded (fun _ _ _ h => step_closedOnce h) hrun, and_iff_right hstart]

/-- A client that resets the counters is served. -/
theorem closed_iff_reset :
    ∃ c, Transition.run (step plainEnv) {}
        [.accept (Socket.push (ofULong VMProtocol.RESET_COUNTERS.code) []) true [], .finish 0] = some c ∧
      (c.ClosedOnce ∧ c.opened = c.pending.length ↔ Transition.Guarded (step plainEnv) (Clean plainEnv) {}
        [.accept (Socket.push (ofULong VMProtocol.RESET_COUNTERS.code) []) true [], .finish 0]) :=
  ⟨_, rfl, closed_iff plainEnv rfl⟩

/-- A client with an unknown protocol, and one that is gone when the server replies: both handlers
return, both descriptors stay open. -/
theorem leaks :
    ∃ c, Transition.run (step plainEnv) {}
        [.accept (Socket.push (ofULong 9) []) true [], .finish 0,
          .accept (Socket.push (ofULong VMProtocol.RESET_COUNTERS.code) []) true [false], .finish 0] =
            some c ∧
      c.closed = [0, 0] ∧ c.pending = [] ∧ c.opened = 2 :=
  ⟨_, rfl, rfl, rfl, rfl⟩

end Connections

end VMServer
