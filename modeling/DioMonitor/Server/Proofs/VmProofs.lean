import DioMonitor.Libvirt.Proofs.ClientProofs
import DioMonitor.Libvirt.Proofs.VmProofs
import DioMonitor.Server.Proofs.HandleProofs
import DioMonitor.Utils.Proofs.GrammarProofs

/-!
# Which requests are answered

The `try` block of each handler, when it ends, and from it which requests the handler answers
(`treat_answered_iff`).
-/

namespace VMServer

open Config LibvirtClient TcpStream

/-! ## The client -/

section

variable {env : Env}

theorem kill_of_none {name : Str} {w : World} (h : getVM w.running name = none) :
    kill env name w = (.ok (), w) := by
  rw [kill, bind_ok (get_run w), h]
  rfl

theorem kill_of_some (env : Env) {name : Str} {w : World} {vm : LibvirtVM}
    (h : getVM w.running name = some vm) :
    kill env name w = match env.destroy vm with
      | .ok _ => (.ok (), { w with running := removeVM w.running name })
      | .error f => (.error f, w) := by
  rw [kill, bind_ok (get_run w), h]
  cases hd : env.destroy vm with
  | ok u => exact bind_ok (show purely (env.destroy vm) w = (.ok u, w) by rw [hd, purely_run])
  | error f => exact bind_error (show purely (env.destroy vm) w = (.error f, w) by rw [hd, purely_run])

theorem quiet_kill (name : Str) : Quiet (kill env name) := by
  refine quiet_get.bind fun w => ?_
  cases getVM w.running name with
  | none => exact quiet_pure ()
  | some vm => exact (quiet_purely _).bind fun _ => quiet_modify fun _ => rfl

theorem silent_kill (name : Str) : Silent (kill env name) := by
  refine silent_get.bind fun w => ?_
  cases getVM w.running name with
  | none => exact silent_pure ()
  | some vm => exact (silent_purely _).bind fun _ => silent_modify fun _ _ => rfl

theorem quiet_pushBack (vm : LibvirtVM) : Quiet (pushBack vm) :=
  (quiet_modify fun _ => rfl).bind fun _ => quiet_pure vm

theorem silent_pushBack (vm : LibvirtVM) : Silent (pushBack vm) :=
  (silent_modify fun _ _ => rfl).bind fun _ => silent_pure vm

theorem quiet_provision (cfg : Dict) : Quiet (provision env cfg) :=
  (quiet_purely _).bind fun vm => (quiet_kill vm.id).bind fun _ =>
    (quiet_purely _).bind fun _ => quiet_pushBack _

theorem silent_provision (cfg : Dict) : Silent (provision env cfg) :=
  (silent_purely _).bind fun vm => (silent_kill vm.id).bind fun _ =>
    (silent_purely _).bind fun _ => silent_pushBack _

theorem quiet_openNat (vm : LibvirtVM) (host guest : ℕ) : Quiet (openNat env vm host guest) := by
  unfold openNat
  split_ifs
  · exact (quiet_purely _).bind fun _ => quiet_modify fun _ => rfl
  · exact quiet_pure ()

theorem silent_openNat (vm : LibvirtVM) (host guest : ℕ) : Silent (openNat env vm host guest) := by
  unfold openNat
  split_ifs
  · exact (silent_purely _).bind fun _ => silent_modify fun _ _ => rfl
  · exact silent_pure ()

/-! ## The `try` blocks -/

theorem tryKill_proper (name : Str) {w : World} (hw : w.stream.Live) :
    Proper w (tryKill env name w) := by
  refine quiet_get.proper hw ?_
  intro w₀ w' hget hw'
  split_ifs
  · exact (quiet_kill name).proper hw' fun _ w'' _ hw'' => sends_sendOk.proper hw''
  · exact proper_false hw'

theorem silent_tryKill (name : Str) : Silent (tryKill env name) := by
  refine silent_get.bind fun w => ?_
  split_ifs
  · exact (silent_kill name).bind fun _ => silent_sendOk.bind fun _ => silent_pure true
  · exact silent_pure false

theorem tryIp_proper (name : Str) {w : World} (hw : w.stream.Live) : Proper w (tryIp name w) := by
  refine quiet_get.proper hw ?_
  intro w₀ w' hget hw'
  split_ifs
  · refine quiet_get.proper hw' ?_
    intro w₁ w'' _ hw''
    cases getVM w₁.running name with
    | none => exact proper_false hw''
    | some vm => exact (sends_sendIp vm.ip).proper hw''
  · exact proper_false hw'

theorem silent_tryIp (name : Str) : Silent (tryIp name) := by
  refine silent_get.bind fun w => ?_
  split_ifs
  · refine silent_get.bind fun w => ?_
    cases getVM w.running name with
    | none => exact silent_pure false
    | some vm => exact (silent_sendIp vm.ip).bind fun _ => silent_pure true
  · exact silent_pure false

theorem tryNat_proper (name : Str) {w : World} (hw : w.stream.Live) :
    Proper w (tryNat env name w) := by
  refine quiet_get.proper hw ?_
  intro w₀ w' hget hw'
  split_ifs
  · refine quiet_get.proper hw' ?_
    intro w₁ w'' _ hw''
    cases getVM w₁.running name with
    | none => exact proper_false hw''
    | some vm =>
      refine quiet_receiveInt.proper hw'' ?_
      intro host w₂ _ hw₂
      refine quiet_receiveInt.proper hw₂ ?_
      intro guest w₃ _ hw₃
      exact (quiet_openNat vm host guest).proper hw₃ fun _ w₄ _ hw₄ => sends_sendOk.proper hw₄
  · exact proper_false hw'

theorem silent_tryNat (name : Str) : Silent (tryNat env name) := by
  refine silent_get.bind fun w => ?_
  split_ifs
  · refine silent_get.bind fun w => ?_
    cases getVM w.running name with
    | none => exact silent_pure false
    | some vm =>
      exact silent_receiveInt.bind fun host => silent_receiveInt.bind fun guest =>
        (silent_openNat vm host guest).bind fun _ => silent_sendOk.bind fun _ => silent_pure true
  · exact silent_pure false

theorem tryProvision_proper (cfg : Dict) {w : World} (hw : w.stream.Live) :
    Proper w (tryProvision env cfg w) := by
  refine (quiet_purely _).proper hw ?_
  intro inner w₁ _ hw₁
  refine (quiet_purely _).proper hw₁ ?_
  intro name w₂ _ hw₂
  refine quiet_get.proper hw₂ ?_
  intro w₀ w₃ _ hw₃
  split_ifs
  · refine (quiet_provision cfg).proper hw₃ ?_
    intro vm w₄ _ hw₄
    exact (sends_sendIp vm.ip).proper hw₄
  · exact proper_false hw₃

theorem silent_tryProvision (cfg : Dict) : Silent (tryProvision env cfg) := by
  refine (silent_purely _).bind fun inner => (silent_purely _).bind fun name =>
    silent_get.bind fun w => ?_
  split_ifs
  · exact (silent_provision cfg).bind fun vm => (silent_sendIp vm.ip).bind fun _ => silent_pure true
  · exact silent_pure false

/-! ## When the `try` blocks end -/

theorem ends_purely_bind {α β : Type} {caught : Exn → Bool} {r : Except Fault α}
    {f : α → Handle β} {w : World} :
    Ends caught ((purely r >>= f) w).1 ↔
      Ends caught r ∧ ∀ a, r = .ok a → Ends caught (f a w).1 := by
  cases r with
  | ok a =>
    rw [bind_ok (purely_run (.ok a) w)]
    exact ⟨fun h => ⟨ends_ok caught a, fun b hb => Except.ok.inj hb ▸ h⟩, fun h => h.2 a rfl⟩
  | error e =>
    rw [bind_error (purely_run (.error e) w)]
    exact ⟨fun h => ⟨ends_error.mpr (ends_error.mp h), fun _ h => absurd h nofun⟩,
      fun h => ends_error.mpr (ends_error.mp h.1)⟩

theorem ends_orThrow {α : Type} {caught : Exn → Bool} {r : Except Exn α} :
    Ends caught (orThrow r) ↔ ∀ e, r = .error e → caught e = true := by
  cases r with
  | ok a => exact iff_of_true (ends_ok caught a) nofun
  | error e =>
    refine ends_error.trans ⟨?_, fun h => ⟨e, rfl, h e rfl⟩⟩
    rintro ⟨e', he, hc⟩ e'' he''
    cases he
    cases he''
    exact hc

theorem orThrow_eq_ok {α : Type} {r : Except Exn α} {a : α} : orThrow r = .ok a ↔ r = .ok a := by
  cases r with
  | ok b => exact ⟨fun h => by cases h; rfl, fun h => by cases h; rfl⟩
  | error e => exact ⟨nofun, nofun⟩

theorem Sends.ends {α : Type} {caught : Exn → Bool} {m : Handle α} {bs : List UInt8}
    (h : Sends m bs) {w : World} (hw : w.stream.Live) :
    Ends caught ((m >>= fun _ => (pure true : Handle Bool)) w).1 := by
  obtain ⟨a, w', hrun, -⟩ := h w hw
  rw [bind_ok hrun]
  exact ends_ok caught true

theorem tryKill_ends_iff {caught : Exn → Bool} {name : Str} {w : World} (hw : w.stream.Live) :
    Ends caught (tryKill env name w).1 ↔
      ∀ vm, getVM w.running name = some vm → Ends caught (env.destroy vm) := by
  rw [tryKill, bind_ok (get_run w)]
  cases hhas : hasVM w.running name with
  | false =>
    rw [if_neg (by simp), getVM_eq_none.mpr hhas]
    exact iff_of_true (ends_ok caught false) nofun
  | true =>
    obtain ⟨vm, hvm⟩ := exists_getVM hhas
    rw [if_pos rfl, hvm]
    have hkill := kill_of_some env hvm
    cases hd : env.destroy vm with
    | ok u =>
      rw [hd] at hkill
      rw [bind_ok hkill]
      refine iff_of_true (sends_sendOk.ends hw) ?_
      intro vm' hvm'
      cases hvm'
      rw [hd]
      exact ends_ok caught u
    | error f =>
      rw [hd] at hkill
      rw [bind_error hkill]
      constructor
      · intro h vm' hvm'
        cases hvm'
        rw [hd]
        exact ends_error.mpr (ends_error.mp h)
      · intro h
        have := h vm rfl
        rw [hd] at this
        exact ends_error.mpr (ends_error.mp this)

theorem tryIp_ends {caught : Exn → Bool} {name : Str} {w : World} (hw : w.stream.Live) :
    Ends caught (tryIp name w).1 := by
  rw [tryIp, bind_ok (get_run w)]
  cases hhas : hasVM w.running name with
  | false => exact ends_ok caught false
  | true =>
    obtain ⟨vm, hvm⟩ := exists_getVM hhas
    rw [if_pos rfl, bind_ok (get_run w), hvm]
    exact (sends_sendIp vm.ip).ends hw

theorem openNat_ends_iff {α : Type} {caught : Exn → Bool} {vm : LibvirtVM} {host guest : ℕ}
    {f : Unit → Handle α} {w : World} (hf : ∀ w', w'.stream = w.stream → Ends caught (f () w').1) :
    Ends caught ((openNat env vm host guest >>= f) w).1 ↔
      (vm.ip ≠ [] → Ends caught (env.iptables vm.ip (Dict.toInt host) (Dict.toInt guest))) := by
  unfold openNat
  by_cases hip : vm.ip ≠ []
  · rw [if_pos hip]
    simp only [bind_assoc]
    rw [ends_purely_bind]
    refine ⟨fun h _ => h.1, fun h => ⟨h hip, fun _ _ => hf _ rfl⟩⟩
  · rw [if_neg hip]
    exact iff_of_true (hf w rfl) fun h => absurd h hip

theorem tryNat_ends_iff {name : Str} {w : World} (hw : w.stream.Live) :
    Ends (fun _ => true) (tryNat env name w).1 ↔
      ∀ vm, getVM w.running name = some vm → Redirects env vm w.stream.socket := by
  have hblock : ∀ w' : World,
      ¬ Ends (fun _ => true) ((.error .blocks, w') : Except Fault Bool × World).1 := by
    intro w' h
    obtain ⟨e, he, -⟩ := ends_error.mp h
    exact absurd he nofun
  rw [tryNat, bind_ok (get_run w)]
  cases hhas : hasVM w.running name with
  | false =>
    rw [if_neg (by simp), getVM_eq_none.mpr hhas]
    exact iff_of_true (ends_ok _ false) nofun
  | true =>
    obtain ⟨vm, hvm⟩ := exists_getVM hhas
    rw [if_pos rfl, bind_ok (get_run w), hvm]
    have hone : (∀ vm', some vm = some vm' → Redirects env vm' w.stream.socket) ↔
        Redirects env vm w.stream.socket :=
      ⟨fun h => h vm rfl, fun h vm' hvm' => Option.some.inj hvm' ▸ h⟩
    rw [hone]
    rcases receiveInt_cases hw with ⟨host, s₁, hread₁, hrun₁, hw₁, -⟩ | ⟨hread₁, hrun₁⟩
    · rcases receiveInt_cases hw₁ with ⟨guest, s₂, hread₂, hrun₂, hw₂, -⟩ | ⟨hread₂, hrun₂⟩
      · dsimp only
        rw [bind_ok hrun₁, bind_ok hrun₂, openNat_ends_iff]
        · constructor
          · exact fun h => ⟨host, s₁, guest, s₂, hread₁, hread₂, h⟩
          · rintro ⟨host', s₁', guest', s₂', h₁, h₂, h⟩
            rw [hread₁] at h₁
            cases h₁
            change s₁.read 8 = _ at hread₂
            rw [hread₂] at h₂
            cases h₂
            exact h
        · exact fun w' hw' => sends_sendOk.ends (by rw [hw']; exact hw₂)
      · dsimp only
        rw [bind_ok hrun₁, bind_error hrun₂]
        refine iff_of_false (hblock _) ?_
        rintro ⟨host', s₁', guest', s₂', h₁, h₂, -⟩
        rw [hread₁] at h₁
        cases h₁
        change s₁.read 8 = _ at hread₂
        rw [hread₂] at h₂
        exact absurd h₂ nofun
    · dsimp only
      rw [bind_error hrun₁]
      refine iff_of_false (hblock _) ?_
      rintro ⟨host', s₁', guest', s₂', h₁, -⟩
      rw [hread₁] at h₁
      exact absurd h₁ nofun

theorem pushBack_run (vm : LibvirtVM) (w : World) :
    pushBack vm w = (.ok vm, { w with running := w.running ++ [vm] }) := rfl

/-- Provisioning a VM whose name is free ends when building it and installing it end. -/
theorem provision_ends_iff {caught : Exn → Bool} {cfg : Dict} {w : World} (hw : w.stream.Live)
    (hfree : ∀ vm, LibvirtVM.ofDict env.ctl.host cfg = .ok vm → getVM w.running vm.id = none) :
    Ends caught ((provision env cfg >>= fun vm => sendIp vm.ip >>= fun _ => pure true :
        Handle Bool) w).1 ↔
      (∀ e, LibvirtVM.ofDict env.ctl.host cfg = .error e → caught e = true) ∧
        ∀ vm, LibvirtVM.ofDict env.ctl.host cfg = .ok vm → Ends caught (env.install vm) := by
  unfold provision
  simp only [bind_assoc]
  rw [ends_purely_bind, ends_orThrow]
  refine and_congr_right fun _ => forall_congr' fun vm => ?_
  rw [orThrow_eq_ok]
  refine imp_congr_right fun hvm => ?_
  rw [bind_ok (kill_of_none (hfree vm hvm)), ends_purely_bind]
  apply and_iff_left_of_imp
  intro _ net _
  rw [bind_ok (pushBack_run _ w)]
  exact (sends_sendIp _).ends hw

theorem tryProvision_ends_iff {cfg : Dict} {w : World} (hw : w.stream.Live) :
    Ends Exn.isUtils (tryProvision env cfg w).1 ↔ Installable env w.running cfg := by
  unfold tryProvision Installable
  rw [ends_purely_bind, ends_orThrow, and_iff_right fun e he => Dict.getDict_isUtils he]
  refine forall_congr' fun inner => ?_
  rw [orThrow_eq_ok, forall_comm]
  refine forall_congr' fun hinner => ?_
  rw [ends_purely_bind, ends_orThrow, and_iff_right fun e he => Dict.getString_isUtils he]
  refine forall_congr' fun name => ?_
  rw [orThrow_eq_ok]
  refine imp_congr_right fun hname => ?_
  rw [bind_ok (get_run w)]
  cases hhas : hasVM w.running name with
  | true => exact iff_of_true (ends_ok _ false) nofun
  | false =>
    rw [if_pos (by decide), provision_ends_iff hw]
    · exact ⟨fun h _ => h, fun h => h rfl⟩
    · intro vm hvm
      obtain ⟨inner', hinner', hid⟩ := LibvirtVM.ofDict_id hvm
      rw [hinner] at hinner'
      cases hinner'
      rw [hname] at hid
      cases hid
      exact getVM_eq_none.mpr hhas

end

/-! ## Which requests are answered -/

theorem treatProvision_answered_iff (env : Env) {w : World} (hw : w.stream.Live) :
    Answered w (treatProvision env w) ↔ ∃ text s, Delivers env.ctl.host w.stream.socket text s ∧
      ∃ cfg, Toml.Document text cfg ∧ Installable env w.running cfg := by
  rw [treatProvision, receiveText_answered_iff env hw fun text =>
    (silent_purely _).bind fun cfg => silent_respond (silent_tryProvision cfg)]
  refine exists_congr fun text => exists_congr fun s => and_congr_right fun hdel => ?_
  have hlive := (hdel.live hw).1
  cases hparse : Toml.parse text with
  | error f =>
    rw [bind_error (purely_run (.error f) (w.after s))]
    refine iff_of_false not_answered_error ?_
    rintro ⟨cfg, hdoc, -⟩
    rw [Toml.parse_eq_ok_iff.mpr hdoc] at hparse
    exact absurd hparse nofun
  | ok cfg =>
    rw [bind_ok (purely_run (.ok cfg) (w.after s)),
      respond_answered_iff (tryProvision_proper cfg hlive), tryProvision_ends_iff hlive]
    refine ⟨fun h => ⟨cfg, Toml.parse_eq_ok_iff.mp hparse, h⟩, ?_⟩
    rintro ⟨cfg', hdoc, h⟩
    rw [Toml.parse_eq_ok_iff.mpr hdoc] at hparse
    cases hparse
    exact h

theorem treatKill_answered_iff (env : Env) {w : World} (hw : w.stream.Live) :
    Answered w (treatKill env w) ↔ ∃ name s, Delivers env.ctl.host w.stream.socket name s ∧
      ∀ vm, getVM w.running name = some vm → Ends (fun _ => true) (env.destroy vm) := by
  rw [treatKill, receiveText_answered_iff env hw fun name => silent_respond (silent_tryKill name)]
  refine exists_congr fun name => exists_congr fun s => and_congr_right fun hdel => ?_
  have hlive := (hdel.live hw).1
  rw [respond_answered_iff (tryKill_proper name hlive), tryKill_ends_iff hlive]
  rfl

theorem treatIp_answered_iff (env : Env) {w : World} (hw : w.stream.Live) :
    Answered w (treatIp env w) ↔ ∃ name s, Delivers env.ctl.host w.stream.socket name s := by
  rw [treatIp, receiveText_answered_iff env hw fun name => silent_respond (silent_tryIp name)]
  refine exists_congr fun name => exists_congr fun s => and_iff_left_of_imp fun hdel => ?_
  have hlive := (hdel.live hw).1
  exact (respond_answered_iff (tryIp_proper name hlive)).mpr (tryIp_ends hlive)

theorem treatNat_answered_iff (env : Env) {w : World} (hw : w.stream.Live) :
    Answered w (treatNat env w) ↔ ∃ name s, Delivers env.ctl.host w.stream.socket name s ∧
      ∀ vm, getVM w.running name = some vm → Redirects env vm s := by
  rw [treatNat, receiveText_answered_iff env hw fun name => silent_respond (silent_tryNat name)]
  refine exists_congr fun name => exists_congr fun s => and_congr_right fun hdel => ?_
  have hlive := (hdel.live hw).1
  rw [respond_answered_iff (tryNat_proper name hlive), tryNat_ends_iff hlive]
  rfl

theorem treatResetCounters_answered (env : Env) {w : World} (hw : w.stream.Live) :
    Answered w (treatResetCounters env w) := by
  obtain ⟨hret, reply, hreply⟩ := Answered.of_sends sends_sendOk (w := { w with
    running := if env.ctl.vcpuMarketEnabled then VCPUMarket.reset w.running else w.running }) hw
  exact ⟨hret, reply, hreply⟩

/-- On a network without failures a request is answered, with one complete reply and without an exception
leaving its handler, exactly when it is answerable. -/
theorem treat_answered_iff (env : Env) (prot : ℕ) (w : World) (hw : w.stream.Live) :
    Answered w (treat env prot w) ↔ Answerable env prot w := by
  unfold treat
  split_ifs with h1 h2 h3 h4 h5
  · rw [treatProvision_answered_iff env hw]
    subst h1
    exact ⟨fun h => ⟨fun _ => h, nofun, nofun, nofun⟩, fun h => h.provision rfl⟩
  · rw [treatKill_answered_iff env hw]
    subst h2
    exact ⟨fun h => ⟨nofun, fun _ => h, nofun, nofun⟩, fun h => h.kill rfl⟩
  · rw [treatIp_answered_iff env hw]
    subst h3
    exact ⟨fun h => ⟨nofun, nofun, fun _ => h, nofun⟩, fun h => h.ip rfl⟩
  · rw [treatNat_answered_iff env hw]
    subst h4
    exact ⟨fun h => ⟨nofun, nofun, nofun, fun _ => h⟩, fun h => h.nat rfl⟩
  · exact iff_of_true (treatResetCounters_answered env hw)
      ⟨fun h => absurd h h1, fun h => absurd h h2, fun h => absurd h h3, fun h => absurd h h4⟩
  · exact iff_of_true (Answered.of_sends (writes_sendError .PROTOCOL).sends hw)
      ⟨fun h => absurd h h1, fun h => absurd h h2, fun h => absurd h h3, fun h => absurd h h4⟩

/-- A text that the parser refuses makes it throw, and the exception leaves `treatProvision`. -/
theorem treatProvision_throws (env : Env) {w : World} (hw : w.stream.Live) {text : Str} {s : Socket}
    (hdel : Delivers env.ctl.host w.stream.socket text s) {e : Exn}
    (he : Toml.parse text = .error (.throws e)) :
    treatProvision env w = (.error (.throws e), w.after s) := by
  rcases receiveText_cases env hw with ⟨text', s', hdel', hrun⟩ | ⟨hnot, -⟩
  · obtain ⟨rfl, rfl⟩ := hdel.unique hdel'
    rw [treatProvision, bind_ok hrun, he]
    rfl
  · exact absurd ⟨text, s, hdel⟩ hnot

/-! ### Two requests -/

/-- An environment where every command succeeds. -/
def plainEnv : Env where
  ctl := {
    host := {
      home := true, cgroupV2 := true, canAlloc := fun n => n ≤ 2 ^ 40, canGrow := fun _ => true }
    nprocs := 4
    vcpuMarketEnabled := false
    vcpuMarket := {
      cpuFreq := 2000, triggerIncrement := 1, triggerDecrement := 1, increasingSpeed := 1
      decreasingSpeed := 1, windowSize := 1 } }
  install _ := .ok (['m'], ['i', 'p'])
  destroy _ := .ok ()
  iptables _ _ _ := .ok ()

/-- A client that sends the length of a text and the text, and closes its side. -/
def requestOf (text : Str) : World where
  stream := {
    connected := true
    socket := {
      incoming := Socket.push (ofULong text.length ++ ofStr text) []
      eof := true } }
  running := []

theorem delivers_requestOf (host : Host) {text : Str} (hlen : text.length ≤ Socket.maxRead)
    (halloc : host.canAlloc (text.length + 1) = true)
    (hchars : text.all (fun c => 0 < c.toNat ∧ c.toNat < 2 ^ 8) = true) :
    Delivers host (requestOf text).stream.socket text
      { (requestOf text).stream.socket with incoming := [] } := by
  have hlen' : text.length < 2 ^ 63 := by
    unfold Socket.maxRead at hlen
    omega
  have hn : toULong (ofULong text.length) = text.length := toULong_ofULong (by omega)
  have hchars' : ∀ c ∈ text, 0 < c.toNat ∧ c.toNat < 2 ^ 8 :=
    fun c hc => of_decide_eq_true (List.all_eq_true.mp hchars c hc)
  have hread₁ := Socket.read_push (s := (requestOf text).stream.socket) (ofULong text.length)
    (ofStr text) rfl (show 8 ≤ Socket.maxRead by decide)
  refine ⟨ofULong text.length, _, ofStr text, hread₁, ?_⟩
  rw [hn]
  refine ⟨hlen', halloc, ?_, (toStr_ofStr hchars').symm⟩
  have hread := Socket.read_push (s := { (requestOf text).stream.socket with
    incoming := Socket.push (ofStr text) [] }) (ofStr text) [] (by simp)
    (by simpa [ofStr] using hlen)
  rw [show (ofStr text).length = text.length by simp [ofStr]] at hread
  exact hread

theorem requestOf_live (text : Str) : (requestOf text).stream.Live := by
  have hreads : Arrival.failure ∉ Socket.push (ofULong text.length ++ ofStr text) [] :=
    Socket.failure_notMem_push (List.not_mem_nil)
  exact ⟨rfl, hreads, by simp [requestOf]⟩

/-- A section that names a VM and its image. -/
def wellFormed : Str := "[vm]\nname = \"a\"\nimage = \"i\"".toList

/-- A header without its closing bracket. -/
def malformed : Str := "[vm".toList

theorem treat_answered_wellFormed :
    Answered (requestOf wellFormed)
      (treat plainEnv VMProtocol.PROVISION.code (requestOf wellFormed)) := by
  have hdel : Delivers plainEnv.ctl.host (requestOf wellFormed).stream.socket wellFormed _ :=
    delivers_requestOf plainEnv.ctl.host (by decide) (by decide) (by decide)
  obtain ⟨cfg, hcfg⟩ : ∃ cfg, Toml.parse wellFormed = .ok cfg := by
    have hok : (Toml.parse wellFormed).toOption.isSome = true := by decide +kernel
    cases hparse : Toml.parse wellFormed with
    | ok cfg => exact ⟨cfg, rfl⟩
    | error f => rw [hparse] at hok; exact absurd hok (by simp [Except.toOption])
  refine (treat_answered_iff plainEnv _ _ (requestOf_live wellFormed)).mpr
    ⟨fun _ => ⟨_, _, hdel, cfg, Toml.parse_eq_ok_iff.mp hcfg, ?_⟩, nofun, nofun, nofun⟩
  intro inner name _ _ _
  exact ⟨fun e he => LibvirtVM.ofDict_isUtils rfl (fun _ => rfl) he, fun vm _ => ends_ok _ _⟩

/-- The text of a PROVISION request lacks a bracket: the exception of the parser leaves the handler. -/
theorem treat_malformed : (requestOf malformed).stream.Live ∧
    (∃ e, (treat plainEnv VMProtocol.PROVISION.code (requestOf malformed)).1 = .error (.throws e)) ∧
      ¬ Answered (requestOf malformed)
        (treat plainEnv VMProtocol.PROVISION.code (requestOf malformed)) := by
  have hdel : Delivers plainEnv.ctl.host (requestOf malformed).stream.socket malformed _ :=
    delivers_requestOf plainEnv.ctl.host (by decide) (by decide) (by decide)
  obtain ⟨e, he⟩ : ∃ e, Toml.parse malformed = .error (.throws e) := by
    have hfail : (Toml.parse malformed).toOption.isSome = false := by decide +kernel
    cases hparse : Toml.parse malformed with
    | ok cfg => rw [hparse] at hfail; exact absurd hfail (by simp [Except.toOption])
    | error f =>
      obtain ⟨e, rfl⟩ := Toml.parse_throws hparse
      exact ⟨e, rfl⟩
  have hrun := treatProvision_throws plainEnv (requestOf_live malformed) hdel he
  refine ⟨requestOf_live malformed, ⟨e, by rw [treat, if_pos rfl, hrun]⟩, ?_⟩
  rw [treat, if_pos rfl, hrun]
  exact not_answered_error

end VMServer
