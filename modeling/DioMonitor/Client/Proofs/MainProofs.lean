import DioMonitor.Client.Main
import DioMonitor.Lib.StateExcept
import DioMonitor.Server.Proofs.ControlProofs
import DioMonitor.Server.Proofs.DescriptorProofs

/-!
# Proofs: the client and the server

A session of the client with the server, for every request and every registry: the client reads exactly
the reply that the server wrote, and it reports success exactly when the server did what was asked for,
unless the request is a redirection for a VM that is not registered: the server replies to it and closes
its end without a look at the ports (`session_agrees_iff`).
-/

namespace TcpStream

/-! ## Streams over which all bytes arrive at once -/

/-- A connected stream: `bytes` are still to be read, `sent` has been written, and nothing more arrives
and no write fails. It is the server's end of a session, and the client's once its request is written. -/
def link (bytes sent : List UInt8) : TcpStream :=
  { connected := true, socket := { incoming := Socket.push bytes [], eof := false, sent } }

/-- A read that wants the first bytes gets them. -/
theorem read_link (bs rest sent : List UInt8) (hmax : bs.length ≤ Socket.maxRead) :
    (link (bs ++ rest) sent).socket.read bs.length = .ok (some bs, (link rest sent).socket) :=
  Socket.read_push bs rest rfl hmax

theorem receiveInt_link {i : ℕ} (hi : i < 2 ^ 64) (rest sent : List UInt8) :
    receiveInt (link (ofULong i ++ rest) sent) = .ok (i, link rest sent) := by
  have hread := read_link (ofULong i) rest sent (show 8 ≤ Socket.maxRead by decide)
  rw [receiveInt_ok rfl hread, toULong_ofULong hi]
  rfl

theorem receive_link {host : Host} {text : Str} (hmax : text.length ≤ Socket.maxRead)
    (halloc : host.canAlloc (text.length + 1) = true) (rest sent : List UInt8) :
    receive host text.length (link (ofStr text ++ rest) sent) =
      .ok (toStr (ofStr text), link rest sent) := by
  have hlen : (ofStr text).length = text.length := by simp [ofStr]
  have hread := read_link (ofStr text) rest sent (by rwa [hlen])
  rw [hlen] at hread
  have halloc' : host.canAlloc ((text.length + 1) % 2 ^ 64) = true := by
    rwa [Nat.mod_eq_of_lt (by unfold Socket.maxRead at hmax; omega)]
  rw [receive_ok rfl halloc' hread]
  rfl

end TcpStream

namespace DioClient

open StateExcept TcpStream VMServer LibvirtClient

/-! ## Running the client -/

/-- A stream like `link`, whose writes to come have these results. -/
def opened (bytes sent : List UInt8) (results : List Bool) : TcpStream :=
  { connected := true, socket := { incoming := Socket.push bytes [], eof := false, writes := results, sent } }

theorem sendInt_opened (bytes sent : List UInt8) (results : List Bool) (i : ℕ) :
    sendInt i (opened bytes sent (true :: results)) =
      .ok ((), opened bytes (sent ++ ofULong i) results) := rfl

theorem sendText_opened (bytes sent : List UInt8) (results : List Bool) (text : Str) :
    sendText text (opened bytes sent (true :: true :: results)) =
      .ok ((), opened bytes (sent ++ (ofULong text.length ++ ofStr text)) results) := by
  rw [sendText, bind_ok (sendInt_opened bytes sent _ text.length), ← List.append_assoc]
  rfl

/-- A write that fails gives the connection up. -/
theorem sendInt_failed (bytes sent : List UInt8) (results : List Bool) (i : ℕ) :
    sendInt i (opened bytes sent (false :: results)) =
      .ok ((), { opened bytes sent results with connected := false }) := rfl

/-- Nothing is read from a connection that was given up. -/
theorem okReply_lost (success failure : Report) {t : TcpStream} (ht : t.connected = false) :
    okReply success failure t = .ok (failure, t) := by
  have hint : TcpStream.receiveInt t = .ok (0, t) := by simp [TcpStream.receiveInt, ht]
  rw [okReply, bind_ok hint, if_neg (by decide), bind_ok hint]
  rfl

theorem unread_push {bytes : List UInt8} {s : Socket} (h : s.incoming = Socket.push bytes []) :
    s.unread = bytes := by
  rw [Socket.unread, h]
  cases bytes with
  | nil => rfl
  | cons b bs => simp [Socket.push]

/-- A server that has read the whole request has let every write succeed. -/
theorem delivered_nil {writes : List (List UInt8)} {results : List Bool}
    (h : Delivered [] writes results) : results = writes.map fun _ => true := by
  induction h with
  | nil => rfl
  | sent _ ih => rw [List.map_cons, ih]
  | failed hbs hunread =>
    exact absurd (List.append_eq_nil_iff.mp (List.suffix_nil.mp hunread)).1 hbs

theorem encode_err (code : VMProtocolError) :
    (Reply.err code).encode = ofULong VMProtocol.ERR.code ++ ofULong code.code := rfl

theorem encode_ip (address : Str) :
    (Reply.ip address).encode =
      ofULong VMProtocol.IP.code ++ (ofULong address.length ++ ofStr address) := rfl

/-- A reply `OK` is all that is read. -/
theorem okReply_ok (success failure : Report) (sent : List UInt8) :
    okReply success failure (link Reply.ok.encode sent) = .ok (success, link [] sent) := by
  have hint := receiveInt_link (i := VMProtocol.OK.code) (by decide) [] sent
  rw [List.append_nil] at hint
  exact bind_ok hint

/-- Of a reply `ERR` the error code is read too. -/
theorem okReply_err (success failure : Report) (code : VMProtocolError) (sent : List UInt8) :
    okReply success failure (link (Reply.err code).encode sent) = .ok (failure, link [] sent) := by
  have hint := receiveInt_link (i := VMProtocol.ERR.code) (by decide) (ofULong code.code) sent
  have herr := receiveInt_link (i := code.code) (by cases code <;> decide) [] sent
  rw [List.append_nil] at herr
  rw [okReply, encode_err, bind_ok hint, if_neg (by decide)]
  exact bind_ok herr

/-- Of a reply `IP` the address is read too. -/
theorem ipReply_ip {host : Host} {address : Str} (hmax : address.length ≤ Socket.maxRead)
    (halloc : host.canAlloc (address.length + 1) = true) (sent : List UInt8) :
    ipReply host (link (Reply.ip address).encode sent) =
      .ok (.started (toStr (ofStr address)), link [] sent) := by
  have hint := receiveInt_link (i := VMProtocol.IP.code) (by decide)
    (ofULong address.length ++ ofStr address) sent
  have hlen := receiveInt_link (i := address.length) (by unfold Socket.maxRead at hmax; omega)
    (ofStr address) sent
  have htext := receive_link hmax halloc [] sent
  rw [List.append_nil] at htext
  rw [ipReply, encode_ip, bind_ok hint, if_pos rfl, bind_ok hlen, bind_ok htext]
  rfl

theorem ipReply_err (host : Host) (code : VMProtocolError) (sent : List UInt8) :
    ipReply host (link (Reply.err code).encode sent) = .ok (.vmError code.code, link [] sent) := by
  have hint := receiveInt_link (i := VMProtocol.ERR.code) (by decide) (ofULong code.code) sent
  have herr := receiveInt_link (i := code.code) (by cases code <;> decide) [] sent
  rw [List.append_nil] at herr
  rw [ipReply, encode_err, bind_ok hint, if_neg (by decide), bind_ok herr]
  rfl

/-! ## What the server does for a request -/

/-- The server did what the request asks for; it had the VMs `before` registered, and then `after`. -/
def Performed (before after : List LibvirtVM) : Request → Prop
  | .kill name => hasVM before name = true ∧ hasVM after name = false
  | .provision vmCfg => ∃ cfg name, Toml.parse vmCfg = .ok cfg ∧ nameOf cfg = .ok name ∧
      hasVM before name = false ∧ hasVM after name = true
  | .nat name _ _ => hasVM before name = true
  | .reset => ∀ vm ∈ after, vm.money = 0

/-- The commands of a NAT request raise no exception. -/
def Redirected (env : Env) (running : List LibvirtVM) : Request → Prop
  | .nat name host guest => ∀ vm, getVM running name = some vm → vm.ip ≠ [] →
      ∃ u, env.iptables vm.ip (Config.Dict.toInt (toULong host)) (Config.Dict.toInt (toULong guest)) =
        .ok u
  | _ => True

theorem hasVM_removeVM (running : List LibvirtVM) (name : Str) :
    hasVM (removeVM running name) name = false := by
  unfold removeVM
  induction running with
  | nil => rfl
  | cons vm vms ih =>
    unfold removeCopy
    split_ifs with h
    · simpa [hasVM] using h
    · exact ih

theorem killOutcome_performed (env : Env) (name : Str) (w : World) :
    ((killOutcome env name w).1 = .ok ∧
      Performed w.running (killOutcome env name w).2.running (.kill name)) ∨
    ((killOutcome env name w).1 = .err .NOT_FOUND ∧
      ¬ Performed w.running (killOutcome env name w).2.running (.kill name)) := by
  unfold killOutcome
  rcases getVM_cases w.running name with ⟨hhas, hvm⟩ | ⟨vm, hhas, hvm⟩
  · rw [hvm]
    refine .inr ⟨rfl, ?_⟩
    intro h
    have hyes : hasVM w.running name = true := h.1
    rw [hhas] at hyes
    cases hyes
  · rw [hvm]
    dsimp only
    cases env.destroy vm with
    | error f =>
      refine .inr ⟨rfl, ?_⟩
      intro h
      have hno : hasVM w.running name = false := h.2
      rw [hhas] at hno
      cases hno
    | ok u => exact .inl ⟨rfl, hhas, hasVM_removeVM w.running name⟩

theorem natOutcome_ok {env : Env} {vm : LibvirtVM} {host guest : ℕ} {w : World}
    (h : vm.ip ≠ [] → ∃ u, env.iptables vm.ip (Config.Dict.toInt host) (Config.Dict.toInt guest) = .ok u) :
    (natOutcome env vm host guest w).1 = .ok := by
  unfold natOutcome
  split_ifs with hip
  · obtain ⟨u, hu⟩ := h hip
    rw [hu]
  · rfl

/-- A reply with an address is that of a VM that was installed. -/
theorem provisionOutcome_performed {env : Env} {vmCfg : Str} {cfg : Config.Dict}
    (hparse : Toml.parse vmCfg = .ok cfg) (w : World) :
    (∃ vm net, env.install vm = .ok net ∧ (provisionOutcome env cfg w).1 = .ip net.2 ∧
      Performed w.running (provisionOutcome env cfg w).2.running (.provision vmCfg)) ∨
    ((provisionOutcome env cfg w).1 = .err .NOT_FOUND ∧
      ¬ Performed w.running (provisionOutcome env cfg w).2.running (.provision vmCfg)) := by
  -- the name is the one that the request performs with, and a failure leaves the registry alone
  have hname : ∀ {after}, Performed w.running after (.provision vmCfg) → ∃ name,
      nameOf cfg = .ok name ∧ hasVM w.running name = false ∧ hasVM after name = true := by
    rintro after ⟨cfg', name, hparse', hname, hbefore, hafter⟩
    rw [hparse] at hparse'
    cases hparse'
    exact ⟨name, hname, hbefore, hafter⟩
  have hidle : ¬ Performed w.running w.running (.provision vmCfg) := by
    intro h
    obtain ⟨name, -, hbefore, hafter⟩ := hname h
    rw [hbefore] at hafter
    cases hafter
  unfold provisionOutcome
  cases hn : nameOf cfg with
  | error e => exact .inr ⟨rfl, hidle⟩
  | ok name =>
    dsimp only
    split_ifs with hhas
    · exact .inr ⟨rfl, hidle⟩
    · cases hvm : LibvirtVM.ofDict env.ctl.host cfg with
      | error e => exact .inr ⟨rfl, hidle⟩
      | ok vm =>
        dsimp only
        cases hnet : env.install vm with
        | error f => exact .inr ⟨rfl, hidle⟩
        | ok net =>
          refine .inl ⟨vm, net, hnet, rfl, cfg, name, hparse, hn, by simpa using hhas, ?_⟩
          have hid : vm.id = name := by
            obtain ⟨inner, hinner, hid⟩ := LibvirtVM.ofDict_id hvm
            unfold nameOf at hn
            rw [hinner] at hn
            change inner.getString "name".toList = .ok name at hn
            rw [hn] at hid
            exact (Except.ok.inj hid).symm
          simp [hasVM, hid]

/-! ## The server -/

section

variable {env : Env} {running : List LibvirtVM} {nat : List (Str × ℤ × ℤ)} {w' : World}

/-- A text that was sent arrives. -/
theorem textArrives_link {text : Str} (htext : ∀ c ∈ text, 0 < c.toNat ∧ c.toNat < 2 ^ 8)
    (hmax : text.length ≤ Socket.maxRead) (rest sent : List UInt8) :
    TextArrives (link (ofULong text.length ++ (ofStr text ++ rest)) sent).socket text
      (link rest sent).socket := by
  have hlen : (ofStr text).length = text.length := by simp [ofStr]
  refine ⟨ofULong text.length, (link (ofStr text ++ rest) sent).socket, ofStr text, ?_, ?_,
    (toStr_ofStr htext).symm⟩
  · exact read_link _ _ sent (show 8 ≤ Socket.maxRead by decide)
  · rw [toULong_ofULong (by unfold Socket.maxRead at hmax; omega), ← hlen]
    exact read_link _ _ sent (by rwa [hlen])

theorem receiveText_link {text text' : Str} {rest sent : List UInt8} {w₁ : World}
    (htext : ∀ c ∈ text, 0 < c.toNat ∧ c.toNat < 2 ^ 8) (hmax : text.length ≤ Socket.maxRead)
    (h : receiveText env
      { stream := link (ofULong text.length ++ (ofStr text ++ rest)) sent, running, nat } =
        (.ok text', w₁)) :
    text = text' ∧ w₁ = { stream := link rest sent, running, nat } :=
  TextArrives.received (textArrives_link htext hmax rest sent) rfl h

/-- A port that was sent arrives. -/
theorem receivePort_link (port : ℤ) (rest sent : List UInt8) :
    receiveInt { stream := link (ofULong (toULong port) ++ rest) sent, running, nat } =
      (.ok (toULong port), { stream := link rest sent, running, nat }) := by
  have hlt : toULong port < 2 ^ 64 := by
    unfold toULong
    omega
  rw [VMServer.receiveInt, onStream, receiveInt_link hlt rest sent]

theorem ended_link {o : Reply × World} {bytes : List UInt8} (h : o.2.stream = link bytes []) :
    (ended o).stream.socket.sent = o.1.encode ∧ (ended o).stream.socket.unread = bytes ∧
      (ended o).running = o.2.running := by
  obtain ⟨r, w⟩ := o
  obtain ⟨stream, running, nat⟩ := w
  obtain rfl : stream = link bytes [] := h
  cases r with
  | ok => exact ⟨rfl, unread_push rfl, rfl⟩
  | ip address => exact ⟨rfl, unread_push rfl, rfl⟩
  | err code => exact ⟨rfl, unread_push rfl, rfl⟩

/-- The server runs the handler of the request. -/
theorem acceptClient_link {p : VMProtocol} (hp : dispatch p.code = some p) (rest : List UInt8) :
    acceptClient env { stream := link (ofULong p.code ++ rest) [], running, nat } =
      handler env p { stream := link rest [], running, nat } :=
  acceptClient_eq env (receiveInt_link (by cases p <;> decide) rest []) hp

end

/-! ## A session -/

section

variable {host : Host} {env : Env} {running : List LibvirtVM} {nat : List (Str × ℤ × ℤ)} {w' : World}

/-- A client that reads the reply of the outcome reports a success exactly when `P` holds. -/
def Agrees (reply : Session Report) (r : Reply) (P : Prop) : Prop :=
  ∀ sent, ∃ report, reply (link r.encode sent) = .ok (report, link [] sent) ∧
    (report.success = true ↔ P)

theorem okReply_agrees {success failure : Report} (hs : success.success = true)
    (hf : failure.success = false) {r : Reply} {P : Prop}
    (h : (r = .ok ∧ P) ∨ (r = .err .NOT_FOUND ∧ ¬ P)) : Agrees (okReply success failure) r P := by
  intro sent
  rcases h with ⟨rfl, hp⟩ | ⟨rfl, hp⟩
  · exact ⟨success, okReply_ok success failure sent, iff_of_true hs hp⟩
  · exact ⟨failure, okReply_err success failure .NOT_FOUND sent, iff_of_false (by simp [hf]) hp⟩

theorem kill_agrees {name : Str} (htext : ∀ c ∈ name, 0 < c.toNat ∧ c.toNat < 2 ^ 8)
    (hmax : name.length ≤ Socket.maxRead)
    (h : treatKill env { stream := link (ofULong name.length ++ (ofStr name ++ [])) [], running, nat } =
      (.ok (), w')) :
    ∃ r : Reply, w'.stream.socket.sent = r.encode ∧ w'.stream.socket.unread = [] ∧
      Agrees (okReply .killed .noVM) r (Performed running w'.running (.kill name)) := by
  obtain ⟨name', w₁, hname, hend⟩ := treatKill_returned h
  obtain ⟨rfl, rfl⟩ := receiveText_link htext hmax hname
  obtain ⟨hsent, hunread, hrunning⟩ :=
    ended_link (killOutcome_stream env name { stream := link [] [], running, nat })
  rw [hend, hsent, hunread, hrunning]
  exact ⟨_, rfl, rfl, okReply_agrees rfl rfl (killOutcome_performed env name _)⟩

theorem provision_agrees {vmCfg : Str} (htext : ∀ c ∈ vmCfg, 0 < c.toNat ∧ c.toNat < 2 ^ 8)
    (hmax : vmCfg.length ≤ Socket.maxRead)
    (hip : ∀ vm net, env.install vm = .ok net →
      net.2.length ≤ Socket.maxRead ∧ host.canAlloc (net.2.length + 1) = true)
    (h : treatProvision env
      { stream := link (ofULong vmCfg.length ++ (ofStr vmCfg ++ [])) [], running, nat } =
        (.ok (), w')) :
    ∃ r : Reply, w'.stream.socket.sent = r.encode ∧ w'.stream.socket.unread = [] ∧
      Agrees (ipReply host) r (Performed running w'.running (.provision vmCfg)) := by
  obtain ⟨vmCfg', w₁, cfg, hcfg, hparse, hend⟩ := treatProvision_returned h
  obtain ⟨rfl, rfl⟩ := receiveText_link htext hmax hcfg
  obtain ⟨hsent, hunread, hrunning⟩ :=
    ended_link (provisionOutcome_stream env cfg { stream := link [] [], running, nat })
  rw [hend, hsent, hunread, hrunning]
  refine ⟨_, rfl, rfl, ?_⟩
  intro sent
  rcases provisionOutcome_performed hparse
    { stream := link [] [], running, nat } with ⟨vm, net, hnet, hr, hp⟩ | ⟨hr, hp⟩
  · obtain ⟨hlen, halloc⟩ := hip vm net hnet
    rw [hr]
    exact ⟨_, ipReply_ip hlen halloc sent, iff_of_true rfl hp⟩
  · rw [hr]
    exact ⟨_, ipReply_err host .NOT_FOUND sent, iff_of_false (by simp [Report.success]) hp⟩

/-- The ports of a redirection are read when the VM is registered. -/
theorem nat_agrees {name : Str} {natHost natGuest : ℤ}
    (htext : ∀ c ∈ name, 0 < c.toNat ∧ c.toNat < 2 ^ 8) (hmax : name.length ≤ Socket.maxRead)
    (hnat : Redirected env running (.nat name natHost natGuest)) (hhas : hasVM running name = true)
    (h : treatNat env
      { stream := link (ofULong name.length ++ (ofStr name ++
          (ofULong (toULong natHost) ++ ofULong (toULong natGuest)))) [], running, nat } =
        (.ok (), w')) :
    ∃ r : Reply, w'.stream.socket.sent = r.encode ∧ w'.stream.socket.unread = [] ∧
      Agrees (okReply .natEnabled .noVM) r (Performed running w'.running (.nat name natHost natGuest)) := by
  obtain ⟨name', w₁, hname, hcase⟩ := treatNat_returned h
  obtain ⟨rfl, rfl⟩ := receiveText_link htext hmax hname
  rcases hcase with ⟨hvm, -⟩ | ⟨vm, p, w₂, q, w₃, hvm, hhost, hguest, hend⟩
  · obtain ⟨vm, hvm'⟩ := exists_getVM hhas
    cases hvm.symm.trans hvm'
  · cases hhost.symm.trans (receivePort_link natHost (ofULong (toULong natGuest)) [])
    rw [← List.append_nil (ofULong (toULong natGuest))] at hguest
    cases hguest.symm.trans (receivePort_link natGuest [] [])
    obtain ⟨hsent, hunread, hrunning⟩ := ended_link
      (natOutcome_stream env vm _ _ { stream := link [] [], running, nat })
    rw [hend, hsent, hunread, hrunning, natOutcome_ok (hnat vm hvm)]
    exact ⟨.ok, rfl, rfl, okReply_agrees rfl rfl (.inl ⟨rfl, hhas⟩)⟩

/-- They stay unread when it is not. -/
theorem nat_unregistered {name : Str} {natHost natGuest : ℤ}
    (htext : ∀ c ∈ name, 0 < c.toNat ∧ c.toNat < 2 ^ 8) (hmax : name.length ≤ Socket.maxRead)
    (hhas : hasVM running name = false)
    (h : treatNat env
      { stream := link (ofULong name.length ++ (ofStr name ++
          (ofULong (toULong natHost) ++ ofULong (toULong natGuest)))) [], running, nat } =
        (.ok (), w')) :
    w'.stream.socket.sent = (Reply.err .NOT_FOUND).encode ∧
      w'.stream.socket.unread = ofULong (toULong natHost) ++ ofULong (toULong natGuest) := by
  obtain ⟨name', w₁, hname, hcase⟩ := treatNat_returned h
  obtain ⟨rfl, rfl⟩ := receiveText_link htext hmax hname
  rcases hcase with ⟨-, hend⟩ | ⟨vm, p, w₂, q, w₃, hvm, -⟩
  · obtain ⟨hsent, hunread, -⟩ :=
      ended_link (o := (.err .NOT_FOUND, { stream := link _ [], running, nat })) rfl
    rw [hend]
    exact ⟨hsent, hunread⟩
  · rw [getVM_eq_none.mpr hhas] at hvm
    cases hvm

theorem reset_agrees (hmoney : env.ctl.vcpuMarketEnabled = false → ∀ vm ∈ running, vm.money = 0)
    (h : treatResetCounters env { stream := link [] [], running, nat } = (.ok (), w')) :
    ∃ r : Reply, w'.stream.socket.sent = r.encode ∧ w'.stream.socket.unread = [] ∧
      Agrees (okReply .countersReset .resetFailed) r (Performed running w'.running .reset) := by
  have hend := treatResetCounters_returned h
  obtain ⟨hsent, hunread, hrunning⟩ :=
    ended_link (o := resetOutcome env { stream := link [] [], running, nat }) rfl
  rw [hend, hsent, hunread, hrunning]
  refine ⟨.ok, rfl, rfl, okReply_agrees rfl rfl (.inl ⟨rfl, ?_⟩)⟩
  show ∀ vm ∈ if env.ctl.vcpuMarketEnabled then VCPUMarket.reset running else running, vm.money = 0
  intro vm hvm
  split_ifs at hvm with henabled
  · obtain ⟨vm', -, rfl⟩ := List.mem_map.mp hvm
    rfl
  · exact hmoney (by simpa using henabled) vm hvm

end

/-- The requests of which the server reads every byte: all but a redirection for a VM that is not
registered. -/
def ReadWhole (running : List LibvirtVM) : Request → Prop
  | .nat name _ _ => hasVM running name = true
  | _ => True

/-- A session with a server that reads the whole request. -/
theorem agreed_of_agrees {host : Host} {r : Request} {reply : Session Report} {s : Socket} {P : Prop}
    (hrun : ∀ bytes, r.run host (connection bytes (r.writes.map fun _ => true)) =
      reply (link bytes r.encode))
    (h : ∃ response : Reply, s.sent = response.encode ∧ s.unread = [] ∧ Agrees reply response P)
    (results : List Bool) (hresults : Delivered s.unread r.writes results) :
    Agreed host r s.sent results P := by
  obtain ⟨response, hsent, hunread, hagrees⟩ := h
  obtain ⟨report, hreport, hiff⟩ := hagrees r.encode
  rw [hunread] at hresults
  rw [delivered_nil hresults, hsent]
  exact ⟨report, link [] r.encode, (hrun _).trans hreport, rfl, hiff⟩

theorem kill_run (host : Host) (name : Str) (bytes : List UInt8) :
    (Request.kill name).run host (connection bytes [true, true, true]) =
      okReply .killed .noVM (link bytes (Request.kill name).encode) := by
  show killVM name (opened bytes [] _) = _
  rw [killVM, bind_ok (sendInt_opened bytes [] _ _), bind_ok (sendText_opened bytes _ _ name)]
  rfl

theorem provision_run (host : Host) (vmCfg : Str) (bytes : List UInt8) :
    (Request.provision vmCfg).run host (connection bytes [true, true, true]) =
      ipReply host (link bytes (Request.provision vmCfg).encode) := by
  show provisionVM host vmCfg (opened bytes [] _) = _
  rw [provisionVM, bind_ok (sendInt_opened bytes [] _ _), bind_ok (sendText_opened bytes _ _ vmCfg)]
  rfl

theorem nat_run (host : Host) (name : Str) (natHost natGuest : ℤ) (bytes : List UInt8) :
    (Request.nat name natHost natGuest).run host (connection bytes [true, true, true, true, true]) =
      okReply .natEnabled .noVM (link bytes (Request.nat name natHost natGuest).encode) := by
  show natVM name natHost natGuest (opened bytes [] _) = _
  rw [natVM, bind_ok (sendInt_opened bytes [] _ _), bind_ok (sendText_opened bytes _ _ name),
    bind_ok (sendInt_opened bytes _ _ _), bind_ok (sendInt_opened bytes _ _ _)]
  simp only [Request.encode, List.nil_append, List.append_assoc]
  rfl

theorem reset_run (host : Host) (bytes : List UInt8) :
    Request.reset.run host (connection bytes [true]) =
      okReply .countersReset .resetFailed (link bytes Request.reset.encode) := by
  show resetCounters (opened bytes [] _) = _
  rw [resetCounters, bind_ok (sendInt_opened bytes [] _ _)]
  rfl

/-- A redirection whose second port cannot be written: the connection is given up with the reply unread. -/
theorem nat_run_failed (host : Host) (name : Str) (natHost natGuest : ℤ) (bytes : List UInt8) :
    ∃ t, (Request.nat name natHost natGuest).run host (connection bytes [true, true, true, true, false]) =
      .ok (.noVM, t) ∧ t.socket.unread = bytes := by
  let sent := [] ++ ofULong VMProtocol.NAT.code ++ (ofULong name.length ++ ofStr name) ++
    ofULong (toULong natHost)
  refine ⟨{ opened bytes sent [] with connected := false }, ?_, unread_push rfl⟩
  show natVM name natHost natGuest (opened bytes [] _) = _
  rw [natVM, bind_ok (sendInt_opened bytes [] _ _), bind_ok (sendText_opened bytes _ _ name),
    bind_ok (sendInt_opened bytes _ _ _), bind_ok (sendInt_failed bytes _ _ _)]
  exact okReply_lost .natEnabled .noVM rfl

/-- The server that leaves the ports unread may close its end before the second one is written. -/
theorem nat_delivered {name : Str} {natHost natGuest : ℤ} {unread : List UInt8}
    (hunread : unread = ofULong (toULong natHost) ++ ofULong (toULong natGuest)) :
    Delivered unread (Request.nat name natHost natGuest).writes [true, true, true, true, false] := by
  refine .sent (.sent (.sent (.sent (.failed (by simp [ofULong]) ?_ .nil))))
  rw [hunread]
  exact ⟨ofULong (toULong natHost), by simp⟩

theorem nat_not_agreed {host : Host} {name : Str} {natHost natGuest : ℤ} {P : Prop} {bytes : List UInt8}
    (hbytes : bytes ≠ []) :
    ¬ Agreed host (.nat name natHost natGuest) bytes [true, true, true, true, false] P := by
  rintro ⟨report, t, hrun, hnone, -⟩
  obtain ⟨t', hrun', hall⟩ := nat_run_failed host name natHost natGuest bytes
  cases hrun'.symm.trans hrun
  exact hbytes (hall.symm.trans hnone)

/-- For every request and every registry that the server reaches, when the handler returns: the client
reads the reply to its last byte, waits for nothing else and reports a success exactly when the server did
what was asked for, whatever becomes of its writes, if and only if the server reads the whole request. -/
theorem session_agrees_iff (host : Host) (env : Env) (r : Request) {actions : List Controller.Action}
    {s : Controller.State} (hreach : Transition.run (Controller.step env.ctl) Controller.start actions = some s)
    {nat : List (Str × ℤ × ℤ)} {w' : World}
    (htext : ∀ c ∈ r.text, 0 < c.toNat ∧ c.toNat < 2 ^ 8) (hmax : r.text.length ≤ Socket.maxRead)
    (hip : ∀ vm net, env.install vm = .ok net →
      net.2.length ≤ Socket.maxRead ∧ host.canAlloc (net.2.length + 1) = true)
    (hnat : Redirected env s.running r)
    (hserver : acceptClient env { stream := link r.encode [], running := s.running, nat } =
      (.ok (), w')) :
    (∀ results, Delivered w'.stream.socket.unread r.writes results →
      Agreed host r w'.stream.socket.sent results (Performed s.running w'.running r)) ↔
      ReadWhole s.running r := by
  cases r with
  | kill name =>
    have hkill : treatKill env
        { stream := link (ofULong name.length ++ (ofStr name ++ [])) [], running := s.running, nat } =
          (.ok (), w') := by
      rw [List.append_nil]
      exact (acceptClient_link rfl _).symm.trans hserver
    exact iff_of_true (agreed_of_agrees (kill_run host name) (kill_agrees htext hmax hkill)) trivial
  | provision vmCfg =>
    have hprovision : treatProvision env
        { stream := link (ofULong vmCfg.length ++ (ofStr vmCfg ++ [])) [], running := s.running, nat } =
          (.ok (), w') := by
      rw [List.append_nil]
      exact (acceptClient_link rfl _).symm.trans hserver
    exact iff_of_true
      (agreed_of_agrees (provision_run host vmCfg) (provision_agrees htext hmax hip hprovision)) trivial
  | nat name natHost natGuest =>
    have hredirect := (acceptClient_link rfl _).symm.trans hserver
    cases hhas : hasVM s.running name with
    | true =>
      exact iff_of_true (agreed_of_agrees (nat_run host name natHost natGuest)
        (nat_agrees htext hmax hnat hhas hredirect)) hhas
    | false =>
      obtain ⟨hsent, hunread⟩ := nat_unregistered htext hmax hhas hredirect
      refine iff_of_false (fun h => nat_not_agreed ?_ (h _ (nat_delivered hunread))) (by simp [ReadWhole, hhas])
      simp [hsent, Reply.encode, ofULong]
  | reset =>
    have hmoney := fun hdisabled => Controller.money_of_disabled hdisabled hreach
    have hreset := (acceptClient_link rfl []).symm.trans hserver
    exact iff_of_true (agreed_of_agrees (reset_run host) (reset_agrees hmoney hreset)) trivial

/-- A VM that has nothing but a name. -/
def namedVM (name : Str) : LibvirtVM :=
  { (default : LibvirtVM) with
    id := name, vcpuControllers := LibvirtVM.newControllers plainEnv.ctl.host name 0 0 }

/-- A client asks for the end of a VM, and then the server does not have it any more. -/
theorem session_agrees_kill :
    ∃ s w', Transition.run (Controller.step plainEnv.ctl) Controller.start [.register (namedVM ['a'])] = some s ∧
      acceptClient plainEnv
        { stream := link (Request.kill ['a']).encode [], running := s.running, nat := [] } = (.ok (), w') ∧
      hasVM s.running ['a'] = true ∧ hasVM w'.running ['a'] = false ∧
      ((∀ results, Delivered w'.stream.socket.unread (Request.kill ['a']).writes results →
        Agreed plainEnv.ctl.host (.kill ['a']) w'.stream.socket.sent results
          (Performed s.running w'.running (.kill ['a']))) ↔ ReadWhole s.running (.kill ['a'])) := by
  have hip : ∀ vm net, plainEnv.install vm = .ok net →
      net.2.length ≤ Socket.maxRead ∧ plainEnv.ctl.host.canAlloc (net.2.length + 1) = true := by
    intro vm net hnet
    cases hnet
    decide
  have hrun : Transition.run (Controller.step plainEnv.ctl) Controller.start [.register (namedVM ['a'])] =
      some { i := 0, next := .updateControllers, running := [namedVM ['a']] } := by
    have hstep : Controller.step plainEnv.ctl Controller.start (.register (namedVM ['a'])) =
        some { i := 0, next := .updateControllers, running := [namedVM ['a']] } := by
      rw [Controller.step, if_pos ⟨by decide, by decide⟩]
      rfl
    rw [Transition.run_cons hstep, Transition.run_nil]
  have hchars : ∀ c ∈ (Request.kill ['a']).text, 0 < c.toNat ∧ c.toNat < 2 ^ 8 := by
    simp [Request.text]
  exact ⟨_, _, hrun, rfl, by decide, by decide,
    session_agrees_iff plainEnv.ctl.host plainEnv (.kill ['a']) hrun hchars (by decide) hip trivial rfl⟩

/-- A client asks for a redirection to a VM that the server does not have, and its second port is written
after the server has closed its end: it reads none of the sixteen bytes of the reply. -/
theorem nat_not_agreed_plain :
    ∃ w' report t, acceptClient plainEnv
        { stream := link (Request.nat ['a'] 2020 22).encode [], running := [], nat := [] } = (.ok (), w') ∧
      w'.stream.socket.sent = (Reply.err .NOT_FOUND).encode ∧
      Delivered w'.stream.socket.unread (Request.nat ['a'] 2020 22).writes [true, true, true, true, false] ∧
      (Request.nat ['a'] 2020 22).run plainEnv.ctl.host
        (connection w'.stream.socket.sent [true, true, true, true, false]) = .ok (report, t) ∧
      t.socket.unread = w'.stream.socket.sent := by
  have hserver : acceptClient plainEnv
      { stream := link (Request.nat ['a'] 2020 22).encode [], running := [], nat := [] } =
        (.ok (), _) := rfl
  obtain ⟨hsent, hunread⟩ := nat_unregistered (by simp) (by decide) rfl
    ((acceptClient_link rfl _).symm.trans hserver)
  obtain ⟨t, hrun, hall⟩ := nat_run_failed plainEnv.ctl.host ['a'] 2020 22 (Reply.err .NOT_FOUND).encode
  rw [← hsent] at hrun hall
  exact ⟨_, .noVM, t, hserver, hsent, nat_delivered hunread, hrun, hall⟩

end DioClient
