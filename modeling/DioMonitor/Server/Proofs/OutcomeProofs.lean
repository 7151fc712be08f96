import DioMonitor.Server.Outcomes
import DioMonitor.Server.Proofs.VmProofs

/-!
# Proofs: what a handler does

A handler that returns read its request, came to the outcome that its registry and its environment
decide, and sent the reply of that outcome. The connection may have been given up on the way.
-/

namespace VMServer

open Config LibvirtClient TcpStream

variable {env : Env} {w w' w₁ : World}

/-- The last part of a handler that returned. -/
theorem bind_returned {α β : Type} {m : Handle α} {f : α → Handle β} {b : β}
    (h : (m >>= f) w = (.ok b, w')) : ∃ a w₁, m w = (.ok a, w₁) ∧ f a w₁ = (.ok b, w') := by
  rcases hr : m w with ⟨r, w₁⟩
  cases r with
  | ok a =>
    rw [bind_ok hr] at h
    exact ⟨a, w₁, rfl, h⟩
  | error e =>
    rw [bind_error hr] at h
    exact absurd (Prod.mk.inj h).1 nofun

theorem put_returns (r : Reply) (w : World) : put r w = (.ok (), (put r w).2) := by
  cases r <;> rfl

/-- A body that ends with its reply. -/
theorem put_true (r : Reply) (w : World) :
    (put r >>= fun _ => (pure true : Handle Bool)) w = (.ok true, (put r w).2) := by
  rw [bind_ok (put_returns r w)]
  rfl

/-- A body that started came to the outcome `o`: it replied, or it did not reply and `o` is the reply
that there is no such VM. -/
def Comes : Except Fault Bool × World → Reply × World → Prop
  | (.ok true, w'), o => w' = ended o
  | (_, w'), o => o = (.err .NOT_FOUND, w')

theorem comes_put (o : Reply × World) : Comes ((put o.1 >>= fun _ => pure true) o.2) o := by
  rw [put_true]
  rfl

theorem comes_error {α : Type} {m : Handle α} {f : α → Handle Bool} {e : Fault}
    (h : m w = (.error e, w')) : Comes ((m >>= f) w) (.err .NOT_FOUND, w') := by
  rw [bind_error h]
  rfl

/-- A `try` block that returned sent the reply of its outcome. -/
theorem respond_ended {caught : Exn → Bool} {body : Handle Bool} {o : Reply × World}
    (h : respond caught body w = (.ok (), w')) (hbody : Comes (body w) o) : w' = ended o := by
  unfold respond at h
  rcases hr : body w with ⟨r, w₁⟩
  rw [hr] at h hbody
  rcases r with f | b
  · cases hbody
    cases f with
    | throws e =>
      dsimp only at h
      split_ifs at h
      · exact (Prod.mk.inj h).2.symm
      · exact absurd (Prod.mk.inj h).1 nofun
    | undefined => exact absurd (Prod.mk.inj h).1 nofun
    | diverges => exact absurd (Prod.mk.inj h).1 nofun
    | blocks => exact absurd (Prod.mk.inj h).1 nofun
  · cases b with
    | true =>
      have hw : w₁ = w' := (Prod.mk.inj h).2
      rw [← hw]
      exact hbody
    | false =>
      cases hbody
      exact (Prod.mk.inj h).2.symm

theorem respond_not_blocked {caught : Exn → Bool} {body : Handle Bool}
    (h : respond caught body w = (.ok (), w')) : body w ≠ (.error .blocks, w₁) := by
  intro hr
  unfold respond at h
  rw [hr] at h
  exact absurd (Prod.mk.inj h).1 nofun

theorem receiveInt_error {f : Fault} (h : receiveInt w = (.error f, w')) : f = .blocks := by
  unfold receiveInt onStream at h
  split at h
  · cases h
  · next hread =>
    cases h
    exact TcpStream.receiveInt_error hread

/-! ## The handlers -/

/-- The registry decides whether a name is known. -/
theorem getVM_cases (running : List LibvirtVM) (name : Str) :
    (hasVM running name = false ∧ getVM running name = none) ∨
      ∃ vm, hasVM running name = true ∧ getVM running name = some vm := by
  cases h : hasVM running name with
  | false => exact .inl ⟨rfl, getVM_eq_none.mpr h⟩
  | true =>
    obtain ⟨vm, hvm⟩ := exists_getVM h
    exact .inr ⟨vm, rfl, hvm⟩

theorem tryKill_comes (env : Env) (name : Str) (w : World) :
    Comes (tryKill env name w) (killOutcome env name w) := by
  rw [tryKill, bind_ok (get_run w)]
  unfold killOutcome
  rcases getVM_cases w.running name with ⟨hhas, hvm⟩ | ⟨vm, hhas, hvm⟩
  · rw [hhas, hvm]
    rfl
  · have hkill := kill_of_some env hvm
    rw [hhas, hvm, if_pos rfl]
    dsimp only
    cases hd : env.destroy vm with
    | error f =>
      rw [hd] at hkill
      exact comes_error hkill
    | ok u =>
      rw [hd] at hkill
      rw [bind_ok hkill]
      exact comes_put (.ok, { w with running := removeVM w.running name })

theorem tryIp_comes (name : Str) (w : World) : Comes (tryIp name w) (ipOutcome name w) := by
  rw [tryIp, bind_ok (get_run w)]
  unfold ipOutcome
  rcases getVM_cases w.running name with ⟨hhas, hvm⟩ | ⟨vm, hhas, hvm⟩
  · rw [hhas, hvm]
    rfl
  · rw [hhas, if_pos rfl, bind_ok (get_run w), hvm]
    exact comes_put (.ip vm.ip, w)

theorem openNat_comes (env : Env) (vm : LibvirtVM) (host guest : ℕ) (w : World) :
    Comes ((openNat env vm host guest >>= fun _ => sendOk >>= fun _ => pure true) w)
      (natOutcome env vm host guest w) := by
  unfold openNat natOutcome
  by_cases hip : vm.ip ≠ []
  · rw [if_pos hip, if_pos hip]
    simp only [bind_assoc]
    cases hr : env.iptables vm.ip (Dict.toInt host) (Dict.toInt guest) with
    | error f => exact comes_error (purely_run _ w)
    | ok u =>
      rw [bind_ok (purely_run _ w)]
      exact comes_put (.ok, { w with nat := w.nat ++ [(vm.ip, Dict.toInt host, Dict.toInt guest)] })
  · rw [if_neg hip, if_neg hip]
    exact comes_put (.ok, w)

theorem provision_comes (env : Env) {cfg : Dict} {w : World}
    (hfree : ∀ vm, LibvirtVM.ofDict env.ctl.host cfg = .ok vm → getVM w.running vm.id = none) :
    Comes ((provision env cfg >>= fun vm => sendIp vm.ip >>= fun _ => pure true) w)
      (match LibvirtVM.ofDict env.ctl.host cfg with
      | .error _ => (.err .NOT_FOUND, w)
      | .ok vm =>
        match env.install vm with
        | .error _ => (.err .NOT_FOUND, w)
        | .ok net =>
          (.ip net.2, { w with running := w.running ++ [{ vm with mac := net.1, ip := net.2 }] })) := by
  unfold provision
  simp only [bind_assoc]
  cases hvm : LibvirtVM.ofDict env.ctl.host cfg with
  | error e => exact comes_error (purely_run _ w)
  | ok vm =>
    rw [bind_ok (purely_run (orThrow (.ok vm)) w), bind_ok (kill_of_none (hfree vm hvm))]
    dsimp only
    cases hnet : env.install vm with
    | error f => exact comes_error (purely_run _ w)
    | ok net =>
      rw [bind_ok (purely_run _ w), bind_ok (pushBack_run _ w)]
      exact comes_put (.ip net.2, { w with running := w.running ++ [{ vm with mac := net.1, ip := net.2 }] })

theorem tryProvision_comes (env : Env) (cfg : Dict) (w : World) :
    Comes (tryProvision env cfg w) (provisionOutcome env cfg w) := by
  unfold tryProvision provisionOutcome
  cases hinner : cfg.getDict "vm".toList with
  | error e =>
    have hnameOf : nameOf cfg = .error e := by
      rw [nameOf, hinner]
      rfl
    rw [hnameOf]
    exact comes_error (purely_run _ w)
  | ok inner =>
    have hnameOf : nameOf cfg = inner.getString "name".toList := by
      rw [nameOf, hinner]
      rfl
    rw [hnameOf, bind_ok (purely_run (orThrow (.ok inner)) w)]
    cases hname : inner.getString "name".toList with
    | error e => exact comes_error (purely_run _ w)
    | ok name =>
      rw [bind_ok (purely_run (orThrow (.ok name)) w), bind_ok (get_run w)]
      dsimp only
      cases hhas : hasVM w.running name with
      | true => rfl
      | false =>
        -- the constructor takes the name of the VM from the same key
        refine provision_comes env ?_
        intro vm hvm
        obtain ⟨inner', hinner', hid⟩ := LibvirtVM.ofDict_id hvm
        rw [hinner] at hinner'
        cases hinner'
        rw [hname] at hid
        cases hid
        exact getVM_eq_none.mpr hhas

theorem treatProvision_returned (h : treatProvision env w = (.ok (), w')) :
    ∃ text w₁ cfg, receiveText env w = (.ok text, w₁) ∧ Toml.parse text = .ok cfg ∧
      w' = ended (provisionOutcome env cfg w₁) := by
  obtain ⟨text, w₁, htext, h⟩ := bind_returned h
  obtain ⟨cfg, w₂, hparse, h⟩ := bind_returned h
  rw [purely_run] at hparse
  obtain ⟨hcfg, rfl⟩ := Prod.mk.inj hparse
  exact ⟨text, w₁, cfg, htext, hcfg, respond_ended h (tryProvision_comes env cfg w₁)⟩

theorem treatKill_returned (h : treatKill env w = (.ok (), w')) :
    ∃ name w₁, receiveText env w = (.ok name, w₁) ∧ w' = ended (killOutcome env name w₁) := by
  obtain ⟨name, w₁, htext, h⟩ := bind_returned h
  exact ⟨name, w₁, htext, respond_ended h (tryKill_comes env name w₁)⟩

theorem treatIp_returned (h : treatIp env w = (.ok (), w')) :
    ∃ name w₁, receiveText env w = (.ok name, w₁) ∧ w' = ended (ipOutcome name w₁) := by
  obtain ⟨name, w₁, htext, h⟩ := bind_returned h
  exact ⟨name, w₁, htext, respond_ended h (tryIp_comes name w₁)⟩

theorem tryNat_none {env : Env} {name : Str} {w : World} (hhas : hasVM w.running name = false) :
    tryNat env name w = (.ok false, w) := by
  rw [tryNat, bind_ok (get_run w), hhas]
  rfl

theorem tryNat_some {env : Env} {name : Str} {w : World} {vm : LibvirtVM}
    (hhas : hasVM w.running name = true) (hvm : getVM w.running name = some vm) :
    tryNat env name w =
      (receiveInt >>= fun host => receiveInt >>= fun guest =>
        openNat env vm host guest >>= fun _ => sendOk >>= fun _ => pure true) w := by
  rw [tryNat, bind_ok (get_run w), if_pos hhas, bind_ok (get_run w), hvm]

/-- `treatNat` reads the ports once it has found the VM. -/
theorem treatNat_returned (h : treatNat env w = (.ok (), w')) :
    ∃ name w₁, receiveText env w = (.ok name, w₁) ∧
      ((getVM w₁.running name = none ∧ w' = ended (.err .NOT_FOUND, w₁)) ∨
        ∃ vm host w₂ guest w₃, getVM w₁.running name = some vm ∧
          receiveInt w₁ = (.ok host, w₂) ∧ receiveInt w₂ = (.ok guest, w₃) ∧
          w' = ended (natOutcome env vm host guest w₃)) := by
  obtain ⟨name, w₁, htext, h⟩ := bind_returned h
  refine ⟨name, w₁, htext, ?_⟩
  rcases getVM_cases w₁.running name with ⟨hhas, hvm⟩ | ⟨vm, hhas, hvm⟩
  · refine .inl ⟨hvm, respond_ended h ?_⟩
    rw [tryNat_none hhas]
    rfl
  · have hrun := @tryNat_some env name w₁ vm hhas hvm
    rcases hhost : receiveInt w₁ with ⟨r, w₂⟩
    cases r with
    | error f =>
      rw [bind_error hhost, receiveInt_error hhost] at hrun
      exact absurd hrun (respond_not_blocked h)
    | ok host =>
      rw [bind_ok hhost] at hrun
      rcases hguest : receiveInt w₂ with ⟨r, w₃⟩
      cases r with
      | error f =>
        rw [bind_error hguest, receiveInt_error hguest] at hrun
        exact absurd hrun (respond_not_blocked h)
      | ok guest =>
        rw [bind_ok hguest] at hrun
        refine .inr ⟨vm, host, w₂, guest, w₃, hvm, rfl, hguest, respond_ended h ?_⟩
        rw [hrun]
        exact openNat_comes env vm host guest w₃

theorem treatResetCounters_returned (h : treatResetCounters env w = (.ok (), w')) :
    w' = ended (resetOutcome env w) := (Prod.mk.inj h).2.symm

end VMServer
