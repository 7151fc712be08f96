import DioMonitor.Client.Proofs.MainProofs
import DioMonitor.Test.Ports
import DioMonitor.Utils.Proofs.NumbersProofs

/-!
# Proofs: the ports of the test VMs

A port that the launcher hands out stays redirected to the address that the VM had then, whatever the
daemons and their other clients do afterwards (`redirections_kept`). The ports of a node are handed out in
order, so no later rule of `iptables` goes in front of the one for the port.
-/

namespace LibvirtClient

section Tables

variable {τ : Type} {iptables : Iptables τ} {Address : Str → Prop} {chain : Chain} {ip : Str}
  {port guest : ℤ}

/-- The calls of `openNat` for other ports do not move a port. -/
theorem target_runNat_other (hdoc : iptables.Documented Address) (tables : τ) {r : Str × ℤ × ℤ}
    (hport : port ≠ r.2.1) :
    iptables.target (runNat iptables tables r) chain port = iptables.target tables chain port := by
  obtain ⟨ip, host, guest⟩ := r
  show iptables.target (iptables.run (iptables.run tables _) _) chain port = _
  rw [hdoc.others _ _ _ _ _ _ _ (.inr hport), hdoc.others _ _ _ _ _ _ _ (.inr hport)]

/-- Both chains redirect the port after a call of `openNat`. -/
theorem target_runNat (hdoc : iptables.Documented Address) (tables : τ) (hip : Address ip)
    (hport : IsPort port) (hguest : IsPort guest) :
    iptables.target (runNat iptables tables (ip, port, guest)) chain port = some (natTarget ip guest) := by
  show iptables.target (iptables.run (iptables.run tables _) _) chain port = _
  cases chain with
  | PREROUTING =>
    rw [hdoc.others _ _ _ _ _ _ _ (.inl (by decide))]
    exact hdoc.inserted _ _ _ _ _ hip hport hguest
  | OUTPUT => exact hdoc.inserted _ _ _ _ _ hip hport hguest

theorem target_runNats_none (hdoc : iptables.Documented Address) {nat : List (Str × ℤ × ℤ)} {tables : τ}
    (h : ∀ r ∈ nat, r.2.1 ≠ port) :
    iptables.target (runNats iptables tables nat) chain port = iptables.target tables chain port := by
  induction nat generalizing tables with
  | nil => rfl
  | cons r nat ih =>
    rw [List.forall_mem_cons] at h
    show iptables.target (runNats iptables (runNat iptables tables r) nat) chain port = _
    rw [ih h.2, target_runNat_other hdoc tables (Ne.symm h.1)]

/-- A port that was redirected once is redirected there after all the calls. -/
theorem target_runNats_one (hdoc : iptables.Documented Address) {nat : List (Str × ℤ × ℤ)} (tables : τ)
    (h : nat.filter (fun r => r.2.1 = port) = [(ip, port, guest)]) (hip : Address ip) (hport : IsPort port)
    (hguest : IsPort guest) :
    iptables.target (runNats iptables tables nat) chain port = some (natTarget ip guest) := by
  obtain ⟨before, after, rfl, -, -, hafter⟩ := List.filter_eq_cons_iff.mp h
  have hother : ∀ r ∈ after, r.2.1 ≠ port := by
    intro r hr hr'
    have hmem : r ∈ after.filter fun r => r.2.1 = port := List.mem_filter.mpr ⟨hr, by simpa using hr'⟩
    rw [hafter] at hmem
    exact absurd hmem List.not_mem_nil
  rw [runNats, List.foldl_append, List.foldl_cons]
  show iptables.target (runNats iptables (runNat iptables _ _) after) chain port = _
  rw [target_runNats_none hdoc hother, target_runNat hdoc _ hip hport hguest]

end Tables

end LibvirtClient

namespace ExecoClient

open LibvirtClient VMServer DioClient
open TcpStream (link ofULong ofStr)

/-! ## One request -/

/-- The redirections for a port: one, when the daemon has an address for the VM. -/
def redirections (ip : Option Str) (port guest : ℤ) : List (Str × ℤ × ℤ) :=
  (ip.toList.filter (· ≠ [])).map fun ip => (ip, port, guest)

theorem toInt_toULong {i : ℤ} (hlo : -2 ^ 31 ≤ i) (hhi : i < 2 ^ 31) :
    Config.Dict.toInt (toULong i) = i := by
  unfold Config.Dict.toInt toULong
  rw [Int.toNat_of_nonneg (by omega), Int.bmod_def]
  omega

section Handle

variable {env : Env} {w w' : World} {d d' : ExecoClient.Daemon}

/-- A reply does not touch the redirections. -/
theorem ended_nat (o : Reply × World) : (ended o).nat = o.2.nat := by
  obtain ⟨r, w⟩ := o
  cases r <;> rfl

theorem provisionOutcome_nat (env : Env) (cfg : Config.Dict) (w : World) :
    (provisionOutcome env cfg w).2.nat = w.nat := by
  unfold provisionOutcome
  repeat' split
  all_goals rfl

theorem killOutcome_nat (env : Env) (name : Str) (w : World) : (killOutcome env name w).2.nat = w.nat := by
  unfold killOutcome
  repeat' split
  all_goals rfl

theorem natOutcome_nat (env : Env) (vm : LibvirtVM) (host guest : ℕ) (w : World)
    (hend : ∀ ip host guest, env.iptables ip host guest = .ok ()) :
    (natOutcome env vm host guest w).2.nat =
      w.nat ++ redirections (some vm.ip) (Config.Dict.toInt host) (Config.Dict.toInt guest) := by
  unfold natOutcome
  rw [hend]
  by_cases hip : vm.ip = []
  · simp [hip, redirections]
  · simp [hip, redirections]

/-- The handler ran on the bytes of the request, or the daemon is dead. -/
theorem handle_some {r : DioClient.Request} (h : handle env d r = some d') :
    (d.loop.next = .dead ∧ d' = d) ∨ (d.loop.next ≠ .dead ∧ ∃ w',
      acceptClient env { stream := link r.encode [], running := d.loop.running, nat := d.nat } =
        (.ok (), w') ∧ d'.nat = w'.nat) := by
  unfold handle at h
  split_ifs at h with hdead
  · exact .inl ⟨hdead, (Option.some.inj h).symm⟩
  · simp only at h
    split at h
    · rename_i w hw
      cases h
      exact .inr ⟨hdead, w, hw, rfl⟩
    · cases h

/-- A NAT request adds the redirections for its port. -/
theorem handle_nat (hend : ∀ ip host guest, env.iptables ip host guest = .ok ()) {name : Str}
    {host guest : ℤ} (hname : Sendable name) (h : handle env d (.nat name host guest) = some d') :
    d'.nat = d.nat ++ redirections (d.address name)
      (Config.Dict.toInt (toULong host)) (Config.Dict.toInt (toULong guest)) := by
  rcases handle_some h with ⟨hdead, rfl⟩ | ⟨hlive, w', hserver, hnat⟩
  · rw [ExecoClient.Daemon.address, if_pos hdead]
    exact (List.append_nil _).symm
  rw [hnat, ExecoClient.Daemon.address, if_neg hlive]
  have hredirect := (acceptClient_link rfl _).symm.trans hserver
  obtain ⟨name', w₁, htext, hcase⟩ := treatNat_returned hredirect
  obtain ⟨rfl, rfl⟩ := receiveText_link hname.1 hname.2 htext
  rcases hcase with ⟨hvm, hw⟩ | ⟨vm, p, w₂, q, w₃, hvm, hhost, hguest, hw⟩
  · simp only at hvm
    rw [hw, ended_nat, hvm]
    exact (List.append_nil _).symm
  · cases hhost.symm.trans (receivePort_link host (ofULong (toULong guest)) [])
    rw [← List.append_nil (ofULong (toULong guest))] at hguest
    cases hguest.symm.trans (receivePort_link guest [] [])
    simp only at hvm
    rw [hw, ended_nat, natOutcome_nat _ _ _ _ _ hend, hvm]
    rfl

/-- The other requests redirect nothing. -/
theorem handle_other {r : DioClient.Request} (hr : ∀ name host guest, r ≠ .nat name host guest)
    (htext : Sendable r.text) (h : handle env d r = some d') : d'.nat = d.nat := by
  rcases handle_some h with ⟨-, rfl⟩ | ⟨-, w', hserver, hnat⟩
  · rfl
  rw [hnat]
  cases r with
  | kill name =>
    have hkill : treatKill env
        { stream := link (ofULong name.length ++ (ofStr name ++ [])) [], running := d.loop.running,
          nat := d.nat } = (.ok (), w') := by
      rw [List.append_nil]
      exact (acceptClient_link rfl _).symm.trans hserver
    obtain ⟨name', w₁, hname, hw⟩ := treatKill_returned hkill
    obtain ⟨rfl, rfl⟩ := receiveText_link htext.1 htext.2 hname
    rw [hw, ended_nat, killOutcome_nat]
  | provision vmCfg =>
    have hprovision : treatProvision env
        { stream := link (ofULong vmCfg.length ++ (ofStr vmCfg ++ [])) [], running := d.loop.running,
          nat := d.nat } = (.ok (), w') := by
      rw [List.append_nil]
      exact (acceptClient_link rfl _).symm.trans hserver
    obtain ⟨vmCfg', w₁, cfg, hcfg, -, hw⟩ := treatProvision_returned hprovision
    obtain ⟨rfl, rfl⟩ := receiveText_link htext.1 htext.2 hcfg
    rw [hw, ended_nat, provisionOutcome_nat]
  | nat name host guest => exact absurd rfl (hr name host guest)
  | reset =>
    have hreset := (acceptClient_link rfl []).symm.trans hserver
    rw [treatResetCounters_returned hreset, ended_nat]
    rfl

end Handle

/-! ## The ports of a node -/

section Runs

variable {ν : Type} {s s' : State ν} {node : ν}

/-- The next port of a node. -/
def next (s : State ν) (node : ν) : ℕ := (s.ports node).getD 3030

/-- The redirections of a port of a node, in the order they were asked for. -/
def redirectionsOf (s : State ν) (node : ν) (port : ℤ) : List (Str × ℤ × ℤ) :=
  (s.daemons node).nat.filter fun r => r.2.1 = port

theorem filter_redirections_self (ip : Option Str) (port guest : ℤ) :
    (redirections ip port guest).filter (fun r => r.2.1 = port) = redirections ip port guest := by
  rw [List.filter_eq_self]
  intro r hr
  obtain ⟨ip, -, rfl⟩ := List.mem_map.mp hr
  simp

theorem filter_redirections_other (ip : Option Str) {port port' : ℤ} (guest : ℤ) (hne : port ≠ port') :
    (redirections ip port guest).filter (fun r => r.2.1 = port') = [] := by
  rw [List.filter_eq_nil_iff]
  intro r hr
  obtain ⟨ip, -, rfl⟩ := List.mem_map.mp hr
  simpa using hne

/-- The ports of a node were handed out in order. -/
structure Counted (s : State ν) : Prop where
  first : ∀ node, 3030 ≤ next s node
  counted : ∀ o ∈ s.opened, 3030 ≤ o.port ∧ o.port < next s o.node
  apart : s.opened.Pairwise fun o o' => o.node = o'.node → o.port ≠ o'.port

theorem counted_start : Counted (start : State ν) where
  first _ := Nat.le_refl _
  counted _ h := absurd h List.not_mem_nil
  apart := .nil

theorem Counted.same (h : Counted s) (hports : s'.ports = s.ports) (hopened : s'.opened = s.opened) :
    Counted s' := by
  have hnext : ∀ node, next s' node = next s node := fun node => by rw [next, hports, next]
  refine ⟨fun node => by rw [hnext]; exact h.first node, ?_, by rw [hopened]; exact h.apart⟩
  intro o ho
  rw [hopened] at ho
  rw [hnext]
  exact h.counted o ho

/-- And each of them was redirected once. -/
structure Inv (s : State ν) : Prop extends Counted s where
  kept : ∀ o ∈ s.opened, redirectionsOf s o.node o.port =
    redirections o.ip o.port (Config.Dict.toInt (toULong o.guest))
  unused : ∀ node (port : ℕ), next s node ≤ port → redirectionsOf s node port = []

theorem inv_start : Inv (start : State ν) where
  toCounted := counted_start
  kept _ h := absurd h List.not_mem_nil
  unused _ _ _ := rfl

/-- Redirections of reserved ports keep the invariant. -/
theorem Inv.reserved (h : Inv s) (hports : s'.ports = s.ports) (hopened : s'.opened = s.opened)
    (hnat : ∀ node, ∃ rs : List (Str × ℤ × ℤ), (s'.daemons node).nat = (s.daemons node).nat ++ rs ∧
      ∀ r ∈ rs, r.2.1 < 3030) : Inv s' := by
  have hnext : ∀ node, next s' node = next s node := fun node => by rw [next, hports, next]
  have hsame : ∀ node (port : ℕ), 3030 ≤ port → redirectionsOf s' node port = redirectionsOf s node port := by
    intro node port hport
    obtain ⟨rs, hrs, hlow⟩ := hnat node
    have hnone : rs.filter (fun r => r.2.1 = (port : ℤ)) = [] := by
      rw [List.filter_eq_nil_iff]
      intro r hr
      have hlt := hlow r hr
      simp only [decide_eq_true_eq]
      omega
    rw [redirectionsOf, hrs, List.filter_append, hnone, List.append_nil, redirectionsOf]
  refine ⟨h.toCounted.same hports hopened, ?_, ?_⟩
  · intro o ho
    rw [hopened] at ho
    rw [hsame o.node o.port (h.counted o ho).1]
    exact h.kept o ho
  · intro node port hport
    rw [hnext] at hport
    rw [hsame node port ((h.first node).trans hport)]
    exact h.unused node port hport

variable [DecidableEq ν]

theorem createUnusedPort_eq (s : State ν) (node : ν) :
    createUnusedPort s.ports node =
      (next s node, Function.update s.ports node (some (next s node + 1))) := by
  unfold createUnusedPort next
  cases s.ports node <;> rfl

section

variable (s : State ν) (node : ν) (daemons : ν → Daemon) (guest : ℤ) (ip : Option Str)

/-- The state after the next port of a node was handed out. -/
def opens : State ν := { s with
  ports := Function.update s.ports node (some (next s node + 1))
  daemons
  opened := s.opened ++ [{ node, port := next s node, guest, ip }] }

theorem next_opens_self : next (opens s node daemons guest ip) node = next s node + 1 := by
  simp [next, opens]

theorem next_le_opens (n : ν) : next s n ≤ next (opens s node daemons guest ip) n := by
  by_cases hn : n = node
  · rw [hn, next_opens_self]
    omega
  · simp [next, opens, hn]

end

theorem Counted.opens (h : Counted s) (node : ν) (daemons : ν → Daemon) (guest : ℤ) (ip : Option Str) :
    Counted (ExecoClient.opens s node daemons guest ip) := by
  have hle := next_le_opens s node daemons guest ip
  refine ⟨fun n => (h.first n).trans (hle n), ?_, ?_⟩
  · intro o ho
    rcases List.mem_append.mp ho with ho | ho
    · exact ⟨(h.counted o ho).1, (h.counted o ho).2.trans_le (hle o.node)⟩
    · obtain rfl := List.mem_singleton.mp ho
      exact ⟨h.first node, by rw [next_opens_self]; exact Nat.lt_succ_self _⟩
  · refine List.pairwise_append.mpr ⟨h.apart, List.pairwise_singleton _ _, ?_⟩
    intro o ho o' ho' hnode hport
    obtain rfl := List.mem_singleton.mp ho'
    have hlt := (h.counted o ho).2
    rw [hnode] at hlt
    exact absurd hport hlt.ne

/-- Handing out the next port of a node keeps the invariant. -/
theorem Inv.opens (h : Inv s) {d : Daemon} {guest : ℤ} {ip : Option Str}
    (hnat : d.nat = (s.daemons node).nat ++
      redirections ip (next s node) (Config.Dict.toInt (toULong guest))) :
    Inv (ExecoClient.opens s node (Function.update s.daemons node d) guest ip) := by
  set s' := ExecoClient.opens s node (Function.update s.daemons node d) guest ip with hs'
  have hle : ∀ n, next s n ≤ next s' n := next_le_opens s node _ guest ip
  -- what is redirected there already
  have hredirected : ∀ n (port : ℕ), redirectionsOf s' n port = redirectionsOf s n port ++
      if n = node ∧ port = next s node then
        redirections ip (next s node) (Config.Dict.toInt (toULong guest)) else [] := by
    intro n port
    by_cases hn : n = node
    · subst hn
      have hd : s'.daemons n = d := by simp [hs', ExecoClient.opens]
      rw [redirectionsOf, hd, hnat, List.filter_append, ← redirectionsOf]
      by_cases hport : port = next s n
      · rw [if_pos ⟨rfl, hport⟩, hport, filter_redirections_self]
      · rw [if_neg fun hand => hport hand.2,
          filter_redirections_other _ _ fun heq => hport (by exact_mod_cast heq.symm)]
    · have hd : s'.daemons n = s.daemons n := by simp [hs', ExecoClient.opens, hn]
      rw [if_neg fun hand => hn hand.1, List.append_nil, redirectionsOf, hd, redirectionsOf]
  refine ⟨h.toCounted.opens node _ guest ip, ?_, ?_⟩
  · intro o ho
    rw [hredirected]
    rcases List.mem_append.mp ho with ho | ho
    · have hlt := (h.counted o ho).2
      have hnew : ¬ (o.node = node ∧ o.port = next s node) := by
        rintro ⟨hn, hport⟩
        rw [hn, hport] at hlt
        exact lt_irrefl _ hlt
      rw [if_neg hnew, List.append_nil]
      exact h.kept o ho
    · obtain rfl := List.mem_singleton.mp ho
      rw [if_pos ⟨rfl, rfl⟩, h.unused node _ le_rfl, List.nil_append]
  · intro n port hport
    rw [hredirected, h.unused n port ((hle n).trans hport), List.nil_append]
    refine if_neg ?_
    rintro ⟨rfl, rfl⟩
    rw [next_opens_self] at hport
    omega

/-! ## Runs -/

/-- The ports that were handed out are ports. -/
def Bounded (s : State ν) : Prop := ∀ o ∈ s.opened, o.port < 2 ^ 16

variable {env : ν → Env}

theorem request_some {r : DioClient.Request} (h : request env s node r = some s') :
    ∃ d, handle (env node) (s.daemons node) r = some d ∧
      s' = { s with daemons := Function.update s.daemons node d } := by
  obtain ⟨d, hd, heq⟩ := Option.bind_eq_some_iff.mp h
  cases heq
  exact ⟨d, hd, rfl⟩

/-- A request with no port of the launcher keeps the invariant. -/
theorem Inv.request (hend : ∀ node ip host guest, (env node).iptables ip host guest = .ok ())
    {r : DioClient.Request} (hs : Inv s) (hsend : (Action.request node r).Sendable)
    (hapart : (Action.request node r).Apart) (h : ExecoClient.request env s node r = some s') : Inv s' := by
  obtain ⟨d, hd, rfl⟩ := request_some h
  refine hs.reserved rfl rfl fun n => ?_
  by_cases hn : n = node
  · subst hn
    simp only [Function.update_self]
    by_cases hr : ∃ name host guest, r = .nat name host guest
    · obtain ⟨name, host, guest, rfl⟩ := hr
      refine ⟨_, handle_nat (hend n) hsend hd, ?_⟩
      intro q hq
      obtain ⟨ip, -, rfl⟩ := List.mem_map.mp hq
      obtain ⟨hlo, hhi⟩ : Reserved host := hapart
      simp only
      rw [toInt_toULong hlo (by omega)]
      exact hhi
    · push Not at hr
      exact ⟨[], by rw [handle_other hr hsend hd, List.append_nil], fun q hq => absurd hq List.not_mem_nil⟩
  · simp only [Function.update_of_ne hn]
    exact ⟨[], (List.append_nil _).symm, fun q hq => absurd hq List.not_mem_nil⟩

theorem openUnused_some {name : Str} {guest : ℤ} (h : openUnused env s name guest = some s') :
    ∃ node d, handle (env node) (s.daemons node) (.nat name (next s node) guest) = some d ∧
      s' = opens s node (Function.update s.daemons node d) guest
        ((s.daemons node).address name) := by
  obtain ⟨node, -, h⟩ := Option.bind_eq_some_iff.mp h
  rw [createUnusedPort_eq] at h
  obtain ⟨s₁, hs₁, h⟩ := Option.bind_eq_some_iff.mp h
  obtain ⟨d, hd, rfl⟩ := request_some hs₁
  cases h
  exact ⟨node, d, hd, rfl⟩

/-- Opening an unused port keeps the invariant, as long as there are ports. -/
theorem openUnused_inv (hend : ∀ node ip host guest, (env node).iptables ip host guest = .ok ())
    {name : Str} {guest : ℤ} (hs : Bounded s → Inv s) (hsend : Sendable name)
    (h : openUnused env s name guest = some s') : Bounded s' → Inv s' := by
  intro hbounded
  obtain ⟨node, d, hd, rfl⟩ := openUnused_some h
  have hport : next s node < 2 ^ 16 :=
    hbounded { node, port := next s node, guest, ip := _ }
      (List.mem_append_right _ (List.mem_singleton_self _))
  have hinv := hs fun o ho => hbounded o (List.mem_append_left _ ho)
  refine hinv.opens ?_
  rw [handle_nat (hend node) hsend hd, toInt_toULong (by omega) (by omega)]

theorem step_counted {a : Action ν} (hs : Counted s) (h : step env s a = some s') : Counted s' := by
  cases a with
  | startVM name node =>
    cases h
    exact hs.same rfl rfl
  | connectVM name =>
    obtain ⟨node, d, -, rfl⟩ := openUnused_some h
    exact hs.opens node _ _ _
  | openVMPort vmName port outPort =>
    cases outPort with
    | none =>
      obtain ⟨node, d, -, rfl⟩ := openUnused_some h
      exact hs.opens node _ _ _
    | some outPort =>
      obtain ⟨node, -, h⟩ := Option.bind_eq_some_iff.mp h
      obtain ⟨d, -, rfl⟩ := request_some h
      exact hs.same rfl rfl
  | request node r =>
    obtain ⟨d, -, rfl⟩ := request_some h
    exact hs.same rfl rfl
  | daemon node a =>
    obtain ⟨loop, -, h⟩ := Option.bind_eq_some_iff.mp h
    cases h
    exact hs.same rfl rfl

/-- No two VMs are reached through the same port of a node. -/
theorem run_counted {actions : List (Action ν)} (hrun : Transition.run (step env) start actions = some s) :
    Counted s := Transition.run_invariant (fun _ _ _ hs h => step_counted hs h) counted_start hrun

theorem step_inv (hend : ∀ node ip host guest, (env node).iptables ip host guest = .ok ()) {a : Action ν}
    (hs : Bounded s → Inv s) (hsend : a.Sendable) (hapart : a.Apart) (h : step env s a = some s') :
    Bounded s' → Inv s' := by
  cases a with
  | startVM name node =>
    cases h
    exact fun hbounded => (hs hbounded).reserved rfl rfl fun n =>
      ⟨[], (List.append_nil _).symm, fun q hq => absurd hq List.not_mem_nil⟩
  | connectVM name => exact openUnused_inv hend hs hsend h
  | openVMPort vmName port outPort =>
    cases outPort with
    | none => exact openUnused_inv hend hs hsend h
    | some outPort =>
      obtain ⟨node, -, h⟩ := Option.bind_eq_some_iff.mp h
      have hopened : s'.opened = s.opened := by
        obtain ⟨d, -, rfl⟩ := request_some h
        rfl
      have hrequest : (Action.request node (.nat vmName outPort port)).Sendable := hsend
      exact fun hbounded => (hs (by rwa [Bounded, ← hopened])).request hend hrequest hapart h
  | request node r =>
    have hopened : s'.opened = s.opened := by
      obtain ⟨d, -, rfl⟩ := request_some h
      rfl
    exact fun hbounded => (hs (by rwa [Bounded, ← hopened])).request hend hsend hapart h
  | daemon node a =>
    obtain ⟨loop, -, h⟩ := Option.bind_eq_some_iff.mp h
    cases h
    refine fun hbounded => (hs hbounded).reserved rfl rfl fun n => ⟨[], ?_, fun q hq => absurd hq List.not_mem_nil⟩
    rw [List.append_nil]
    by_cases hn : n = node
    · subst hn
      simp only [Function.update_self]
    · simp only [Function.update_of_ne hn]

theorem run_inv (hend : ∀ node ip host guest, (env node).iptables ip host guest = .ok ())
    {actions : List (Action ν)} (hsend : ∀ a ∈ actions, a.Sendable) (hapart : ∀ a ∈ actions, a.Apart)
    (hrun : Transition.run (step env) start actions = some s) (hbounded : Bounded s) : Inv s := by
  have hall : ∀ a ∈ actions, a.Sendable ∧ a.Apart := fun a ha => ⟨hsend a ha, hapart a ha⟩
  exact Transition.run_invariant_of_guarded (Q := fun _ => True)
    (fun _ _ _ hs _ ha h => step_inv hend hs ha.1 ha.2 h) (fun _ => inv_start)
    (Transition.throughout_true _ _) (Transition.guarded_of_forall (fun _ => hall) _) hrun hbounded

/-- In every run, no two ports of a node are the same, and each port that was handed out is still
redirected to the address that the daemon had for the VM when it was asked. A port for which the daemon
had no address is redirected where it was before the daemon was started. -/
theorem redirections_kept {τ : Type} {iptables : Iptables τ} {Address : Str → Prop}
    (hdoc : iptables.Documented Address)
    (hend : ∀ node ip host guest, (env node).iptables ip host guest = .ok ()) {actions : List (Action ν)}
    (hsend : ∀ a ∈ actions, a.Sendable) (hapart : ∀ a ∈ actions, a.Apart)
    (hrun : Transition.run (step env) start actions = some s) (hbounded : Bounded s) (tables : ν → τ) :
    (s.opened.Pairwise fun o o' => o.node = o'.node → o.port ≠ o'.port) ∧
      ∀ o ∈ s.opened, ∀ chain,
        let target := iptables.target (runNats iptables (tables o.node) (s.daemons o.node).nat) chain o.port
        (∀ ip, o.ip = some ip → ip ≠ [] → Address ip → IsPort o.guest →
          target = some (natTarget ip o.guest)) ∧
        (o.ip = none ∨ o.ip = some [] → target = iptables.target (tables o.node) chain o.port) := by
  have hinv := run_inv hend hsend hapart hrun hbounded
  refine ⟨hinv.apart, ?_⟩
  intro o ho chain target
  have hkept := hinv.kept o ho
  constructor
  · intro ip hip hne haddress hguest
    have hport : IsPort o.port := by
      have hlo := (hinv.counted o ho).1
      have hhi := hbounded o ho
      unfold IsPort
      omega
    have hguest' : Config.Dict.toInt (toULong o.guest) = o.guest := by
      obtain ⟨hlo, hhi⟩ := hguest
      exact toInt_toULong (by omega) (by omega)
    have hone : redirections o.ip o.port (Config.Dict.toInt (toULong o.guest)) =
        [(ip, (o.port : ℤ), o.guest)] := by
      rw [hip, hguest']
      simp [redirections, hne]
    exact target_runNats_one hdoc _ (hkept.trans hone) haddress hport hguest
  · intro hip
    have hnone : redirections o.ip o.port (Config.Dict.toInt (toULong o.guest)) = [] := by
      rcases hip with hip | hip
      · rw [hip]
        rfl
      · rw [hip]
        simp [redirections]
    have hother := List.filter_eq_nil_iff.mp (hkept.trans hnone)
    exact target_runNats_none hdoc fun r hr => by simpa using hother r hr

end Runs

/-! ## Two VMs of a node -/

/-- Rules as texts, the last one in front. -/
def textRules : Iptables (List (Str × Str × Str)) where
  run rules
    | [_, _, _, chain, _, _, _, host, _, _, _, target] => (chain, host, target) :: rules
    | _ => rules
  target rules chain port :=
    (rules.find? fun r => r.1 = chain.name ∧ r.2.1 = Config.showInt port).map fun r => r.2.2

theorem Chain.name_injective : Function.Injective Chain.name := by
  have hne : Chain.PREROUTING.name ≠ Chain.OUTPUT.name := by decide +kernel
  intro chain chain' h
  cases chain with
  | PREROUTING =>
    cases chain' with
    | PREROUTING => rfl
    | OUTPUT => exact absurd h hne
  | OUTPUT =>
    cases chain' with
    | PREROUTING => exact absurd h.symm hne
    | OUTPUT => rfl

theorem showInt_injective : Function.Injective Config.showInt := by
  have hminus : ∀ m n : ℕ, Nat.toDigits 10 m ≠ '-' :: Nat.toDigits 10 n := by
    intro m n h
    have hdigit := (Numbers.ofDigits_toDigits m).1.2 '-' (by rw [h]; exact List.mem_cons_self)
    exact absurd hdigit (by simp)
  have hnat : ∀ m n : ℕ, Nat.toDigits 10 m = Nat.toDigits 10 n → m = n := by
    intro m n h
    rw [← (Numbers.ofDigits_toDigits m).2, h, (Numbers.ofDigits_toDigits n).2]
  intro i j h
  cases i with
  | ofNat m =>
    cases j with
    | ofNat n => rw [hnat m n h]
    | negSucc n => exact absurd h (hminus m (n + 1))
  | negSucc m =>
    cases j with
    | ofNat n => exact absurd h.symm (hminus n (m + 1))
    | negSucc n => rw [Nat.succ.inj (hnat _ _ (List.cons.inj h).2)]

theorem documented_textRules : textRules.Documented fun _ => True where
  inserted rules chain ip host guest _ _ _ := by simp [textRules, natCommand]
  others rules chain ip host guest chain' port hne := by
    have hrule : ¬ (chain.name = chain'.name ∧ Config.showInt host = Config.showInt port) := by
      rintro ⟨hchain, hport⟩
      rcases hne with hne | hne
      · exact hne (Chain.name_injective hchain).symm
      · exact hne (showInt_injective hport).symm
    simp [textRules, natCommand, hrule]

/-- The VM that a daemon registers. -/
def registered (name ip : Str) : LibvirtVM :=
  { id := name, userName := [], pubKey := [], qcow := [], disk := 0, vcpus := 0, mem := 0, freq := 0
    memorySLA := .num 1, ip
    vcpuControllers := LibvirtVM.newControllers plainEnv.ctl.host name 0 0 }

/-- A VM is connected, is killed, and another one gets its name. -/
def twoPorts : List (Action Unit) :=
  [.startVM ['a'] (), .daemon () (.register (registered ['a'] ['x'])), .connectVM ['a'],
    .request () (.kill ['a']), .daemon () (.register (registered ['a'] ['y'])),
    .openVMPort ['a'] 5000 none]

theorem twoPorts_some : (Transition.run (step fun _ => plainEnv) start twoPorts).isSome = true := by
  decide +kernel

/-- The launcher and the daemon after these steps. -/
def afterTwoPorts : State Unit := (Transition.run (step fun _ => plainEnv) start twoPorts).get twoPorts_some

theorem afterTwoPorts_opened :
    afterTwoPorts.opened.map (fun o => (o.port, o.guest, o.ip)) =
      [(3030, 22, some ['x']), (3031, 5000, some ['y'])] := by
  decide +kernel

theorem redirections_kept_two :
    let s := afterTwoPorts
    (s.opened.Pairwise fun o o' => o.node = o'.node → o.port ≠ o'.port) ∧
      ∀ o ∈ s.opened, ∀ chain,
        let target := textRules.target (runNats textRules [] (s.daemons o.node).nat) chain o.port
        (∀ ip, o.ip = some ip → ip ≠ [] → True → IsPort o.guest → target = some (natTarget ip o.guest)) ∧
        (o.ip = none ∨ o.ip = some [] → target = none) := by
  have hsend : ∀ a ∈ twoPorts, a.Sendable := by
    have hname : Sendable ['a'] := ⟨by simp, by decide⟩
    simp [twoPorts, Action.Sendable, hname, DioClient.Request.text]
  have hapart : ∀ a ∈ twoPorts, a.Apart := by simp [twoPorts, Action.Apart]
  have hbounded : Bounded afterTwoPorts := by
    intro o ho
    have hmem := List.mem_map_of_mem (f := fun o : Opened Unit => (o.port, o.guest, o.ip)) ho
    rw [afterTwoPorts_opened] at hmem
    simp only [List.mem_cons, Prod.mk.injEq, List.not_mem_nil, or_false] at hmem
    omega
  exact redirections_kept documented_textRules (fun _ _ _ _ => rfl) hsend hapart
    (Option.some_get twoPorts_some).symm hbounded fun _ => []

end ExecoClient
