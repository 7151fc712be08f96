import DioMonitor.Market.Proofs.CapacityProofs
import DioMonitor.Server.Proofs.ControlProofs

/-!
# Proofs: how fast an account grows

A tick of the market adds at most its nominal shares to the account of a VM, and no other step adds
anything. So after any run of the control loop an account holds at most the nominal shares of its VM,
once for each tick of the market since the accounts were last reset (`accounts_bounded`).
-/

namespace VCPUMarket

variable {cfg : VCPUMarketConfig} {n : ℕ} {vms vms' : List LibvirtVM}

/-- The nominal shares of the vCPUs of a VM. -/
def nominalOf (cfg : VCPUMarketConfig) (vm : LibvirtVM) : ℕ := vmSum (nominal cfg) vm

/-- Between two states of the market, the accounts grew by at most the nominal shares of their VMs, and
these stayed as they were. -/
structure Credited (cfg : VCPUMarketConfig) (vms vms' : List LibvirtVM) : Prop where
  account : ∀ i, accountOf vms' i ≤ accountOf vms i + nominalOf cfg (vms.getD i default)
  nominal : ∀ i, nominalOf cfg (vms'.getD i default) = nominalOf cfg (vms.getD i default)

theorem Credited.refl (cfg : VCPUMarketConfig) (vms : List LibvirtVM) : Credited cfg vms vms where
  account := fun _ => Nat.le_add_right _ _
  nominal := fun _ => rfl

/-- The nominal share of a vCPU is read from its frequency. -/
theorem nominal_congr {c c' : LibvirtVCPUController} (h : c'.nominalFreq = c.nominalFreq) :
    nominal cfg c' = nominal cfg c := by
  unfold nominal LibvirtVCPUController.getNominalFreq
  rw [h]

theorem nominal_of_unpriced {c c' : LibvirtVCPUController} (h : unpriced c' = unpriced c) :
    nominal cfg c' = nominal cfg c := by
  apply nominal_congr
  exact congrArg (·.nominalFreq) h

/-- A VM that sells its whole nominal share is credited with all of it, and no VM with more. -/
theorem credit_le (cfg : VCPUMarketConfig) (c : LibvirtVCPUController) :
    credit cfg c ≤ nominal cfg c := by
  unfold credit
  split
  · exact Nat.zero_le _
  · exact Nat.sub_le _ _

theorem accountOf_baseSale (cfg : VCPUMarketConfig) (n : ℕ) (vms : List LibvirtVM) (i : ℕ) :
    accountOf (baseSale cfg n vms).vms i ≤
      accountOf vms i + nominalOf cfg (vms.getD i default) := by
  rw [baseSale_vms]
  by_cases hi : i < vms.length
  · have hsold : (vms.map (soldVM cfg)).getD i default = soldVM cfg (vms.getD i default) := by
      rw [List.getD_eq_getElem _ _ (by rwa [List.length_map]), List.getElem_map,
        List.getD_eq_getElem _ _ hi]
    unfold accountOf
    rw [hsold]
    exact Nat.add_le_add_left (List.sum_le_sum fun c _ => credit_le cfg c) _
  · have hnone : (vms.map (soldVM cfg)).getD i default = default :=
      List.getD_eq_default _ _ (by rw [List.length_map]; omega)
    unfold accountOf
    rw [hnone]
    exact Nat.zero_le _

theorem accountOf_auction (cfg : VCPUMarketConfig) (n : ℕ) (vms : List LibvirtVM) (i : ℕ) :
    accountOf (auction cfg n vms).vms i ≤ accountOf (baseSale cfg n vms).vms i := by
  obtain ⟨_, hinv, -⟩ := auction_inv cfg n vms
  exact hinv.traded.money_le ⟨i, 0⟩

/-- The splits are free. -/
theorem accountOf_give (vms : List LibvirtVM) (p : VCPURef) (add i : ℕ) :
    accountOf (give vms p add) i = accountOf vms i := by
  unfold accountOf give updateAt
  exact ListSum.getD_modify_of (g := LibvirtVM.money) vms (updateVM p.vcpu id _) default
    (fun _ => rfl) i

theorem accountOf_splitLoop (rnd : ℚ → ℚ) (needed rest i : ℕ) (ps : List VCPURef) :
    ∀ (vms : List LibvirtVM) (notSold : ℤ),
      accountOf (splitLoopBy rnd needed rest vms notSold ps).1 i = accountOf vms i := by
  induction ps with
  | nil => exact fun _ _ => rfl
  | cons p ps ih =>
    intro vms notSold
    rw [splitLoopBy, ih, accountOf_give]

theorem accountOf_splitRest (a : Auction) (i : ℕ) :
    accountOf (splitRest a).1 i = accountOf a.vms i := by
  unfold splitRest splitRestBy
  split
  · exact accountOf_splitLoop _ _ _ i _ _ _
  · rfl

/-- A change of the controllers alone. -/
theorem accountOf_map {g : LibvirtVM → LibvirtVM} (hg : ∀ vm, (g vm).money = vm.money)
    (vms : List LibvirtVM) (i : ℕ) : accountOf (vms.map g) i = accountOf vms i := by
  unfold accountOf
  by_cases hi : i < vms.length
  · rw [List.getD_eq_getElem _ _ (by rwa [List.length_map]), List.getElem_map,
      List.getD_eq_getElem _ _ hi, hg]
  · rw [List.getD_eq_default _ _ (by rw [List.length_map]; omega), List.getD_eq_default _ _ (by omega)]

theorem accountOf_raise (k i : ℕ) (vms : List LibvirtVM) :
    accountOf (raise k vms) i = accountOf vms i := by
  unfold raise
  rw [accountOf_map]
  exact fun _ => rfl

/-- The accounts after a tick that applies quotas are those after its auction. -/
theorem accountOf_applied (happ : run cfg n vms = .applied vms') (i : ℕ) :
    accountOf vms' i = accountOf (auction cfg n vms).vms i := by
  obtain ⟨-, ws, hr, rfl⟩ := run_applied happ
  have happly : ∀ ws : List LibvirtVM,
      accountOf (ws.map (·.applyMarketAllocation marketPeriod)) i = accountOf ws i :=
    fun ws => accountOf_map (g := fun vm => vm.applyMarketAllocation marketPeriod) (fun _ => rfl) ws i
  rcases redistribute_spec hr with ⟨rfl, -⟩ | ⟨-, -, rfl⟩
  · rw [happly, accountOf_splitRest]
  · rw [happly, accountOf_raise, accountOf_splitRest]

/-- A tick that applies quotas. -/
theorem credited_applied (happ : run cfg n vms = .applied vms') : Credited cfg vms vms' where
  account := fun i => by
    rw [accountOf_applied happ i]
    exact (accountOf_auction cfg n vms i).trans (accountOf_baseSale cfg n vms i)
  nominal := fun i => by
    refine vmSum_congr (fun p => (applied_vcpu happ p).1) (fun p hp => ?_) i
    obtain ⟨c, hframe, heq, -⟩ := (applied_vcpu happ p).2 hp
    rw [heq, ← nominal_of_unpriced hframe]
    exact nominal_congr rfl

/-- A tick that stops after its base sale. -/
theorem credited_overAllocated (hover : run cfg n vms = .overAllocated vms') :
    Credited cfg vms vms' := by
  obtain ⟨-, rfl⟩ := run_overAllocated hover
  refine ⟨accountOf_baseSale cfg n vms, fun i => ?_⟩
  rw [baseSale_vms]
  refine vmSum_congr (fun p => valid_soldVM) (fun p hp => ?_) i
  rw [vcpuAt_soldVM hp]
  exact nominal_congr rfl

end VCPUMarket

namespace Controller

open VCPUMarket

variable {ctl : Controller} {s s' : State}

/-- The ticks of the market since the accounts were last reset. -/
def ticksSinceReset : List Action → ℕ :=
  List.foldl (fun n a =>
    match a with
    | .reset => 0
    | .market => n + 1
    | _ => n) 0

/-- Every account holds at most `n` times the nominal shares of its VM. -/
def Bounded (ctl : Controller) (n : ℕ) (running : List LibvirtVM) : Prop :=
  ∀ vm ∈ running, vm.money ≤ n * nominalOf ctl.vcpuMarket vm

theorem ticksSinceReset_append (actions : List Action) (a : Action) :
    ticksSinceReset (actions ++ [a]) =
      match a with
      | .reset => 0
      | .market => ticksSinceReset actions + 1
      | _ => ticksSinceReset actions := by
  unfold ticksSinceReset
  rw [List.foldl_append]
  rfl

/-- The bound, by positions. -/
theorem bounded_iff {n : ℕ} {running : List LibvirtVM} :
    Bounded ctl n running ↔
      ∀ i, accountOf running i ≤ n * nominalOf ctl.vcpuMarket (running.getD i default) := by
  constructor
  · intro h i
    by_cases hi : i < running.length
    · have hmem : running.getD i default ∈ running := by
        rw [List.getD_eq_getElem _ _ hi]
        exact List.getElem_mem hi
      exact h _ hmem
    · have hnone : running.getD i default = default := List.getD_eq_default _ _ (not_lt.mp hi)
      unfold accountOf
      rw [hnone]
      exact Nat.zero_le _
  · intro h vm hvm
    obtain ⟨i, hi, rfl⟩ := List.getElem_of_mem hvm
    have hget : running.getD i default = running[i] := List.getD_eq_getElem _ _ hi
    have hle := h i
    unfold accountOf at hle
    rwa [hget] at hle

/-- A tick of the market adds the nominal shares once more. -/
theorem Bounded.credited {n : ℕ} {running running' : List LibvirtVM} (h : Bounded ctl n running)
    (hcredit : Credited ctl.vcpuMarket running running') : Bounded ctl (n + 1) running' := by
  rw [bounded_iff] at h ⊢
  intro i
  have hle := hcredit.account i
  have hbefore := h i
  rw [hcredit.nominal i, Nat.add_mul, Nat.one_mul]
  omega

theorem Bounded.market {n : ℕ} (h : Bounded ctl n s.running) :
    Bounded ctl (n + 1) (market ctl s).running := by
  have hkept : Bounded ctl (n + 1) s.running := h.credited (Credited.refl _ _)
  unfold Controller.market
  split
  · split
    · exact hkept
    · rename_i vms hover
      exact h.credited (credited_overAllocated hover)
    · exact hkept
    · rename_i vms happ
      exact h.credited (credited_applied happ)
  · exact hkept

/-- The passes of the loop leave the accounts and the frequencies of the vCPUs alone. -/
theorem nominalOf_update (cfg : VCPUMarketConfig) (vm : LibvirtVM)
    (f : ℕ → LibvirtVCPUController → LibvirtVCPUController)
    (hf : ∀ j c, (f j c).nominalFreq = c.nominalFreq) :
    nominalOf cfg { vm with vcpuControllers := vm.vcpuControllers.mapIdx f } = nominalOf cfg vm := by
  unfold nominalOf vmSum
  refine congrArg List.sum (List.ext_getElem (by simp) fun j hj hj' => ?_)
  simp only [List.getElem_map, List.getElem_mapIdx]
  exact nominal_congr (hf j _)

theorem sum_nominal_congr {cfg : VCPUMarketConfig} {cs cs' : List LibvirtVCPUController}
    (h : List.Forall₂ (fun c c' => c'.nominalFreq = c.nominalFreq) cs cs') :
    (cs'.map (nominal cfg)).sum = (cs.map (nominal cfg)).sum := by
  induction h with
  | nil => rfl
  | cons hc _ ih => rw [List.map_cons, List.map_cons, List.sum_cons, List.sum_cons, nominal_congr hc, ih]

theorem nominalOf_averaged (cfg : VCPUMarketConfig) (vm : LibvirtVM) {cs : List LibvirtVCPUController}
    (hcs : vm.vcpuControllers.mapM (·.updateBeforeMarket) = some cs) :
    nominalOf cfg { vm with vcpuControllers := cs } = nominalOf cfg vm := by
  apply sum_nominal_congr
  refine (ListOption.mapM_eq_some.mp hcs).imp fun c c' hc => ?_
  exact (LibvirtVCPUController.updateBeforeMarket_spec hc).2.2.1

/-- What one step adds to the accounts. -/
theorem bounded_step {a : Action} {actions : List Action}
    (hempty : ctl.vcpuMarketEnabled = false → ∀ vm ∈ s.running, vm.money = 0)
    (h : Bounded ctl (ticksSinceReset actions) s.running) (hstep : step ctl s a = some s') :
    Bounded ctl (ticksSinceReset (actions ++ [a])) s'.running := by
  rw [ticksSinceReset_append]
  cases step_cases hstep with
  | @sampled freq read =>
    intro vm hvm
    obtain ⟨i, hi, rfl⟩ := List.mem_mapIdx.mp hvm
    have hnominal := nominalOf_update ctl.vcpuMarket s.running[i]
      (fun j c => c.update freq (read i j)) fun _ _ => rfl
    rw [hnominal]
    exact h (s.running[i]) (List.getElem_mem hi)
  | averaged _ hrun =>
    intro vm hvm
    obtain ⟨vm', hvm', heq⟩ := ListOption.exists_of_mem_mapM hrun hvm
    simp only [Option.bind_eq_bind, Option.bind_eq_some_iff, Option.pure_def, Option.some.injEq] at heq
    obtain ⟨cs, hcs, rfl⟩ := heq
    rw [nominalOf_averaged _ _ hcs]
    exact h vm' hvm'
  | divByZero | waited => exact h
  | sold => exact Bounded.market h
  | @registered vm' hfresh =>
    intro vm hvm
    rcases List.mem_append.mp hvm with hvm | hvm
    · exact h vm hvm
    · rw [List.mem_singleton.mp hvm, hfresh.1]
      exact Nat.zero_le _
  | @killed name => exact fun vm hvm => h vm (kill_subset s.running name vm hvm)
  | reset =>
    intro vm hvm
    dsimp only at hvm
    split at hvm
    · obtain ⟨vm', -, rfl⟩ := List.mem_map.mp hvm
      exact Nat.zero_le _
    · rename_i hdisabled
      rw [hempty (by simpa using hdisabled) vm hvm]
      exact Nat.zero_le _

/-- After any run of the control loop, with any interventions of the server, the account of each VM
holds at most its nominal shares, once for each tick of the market since the last reset. -/
theorem accounts_bounded (ctl : Controller) {actions : List Action}
    (hrun : Transition.run (step ctl) start actions = some s) :
    ∀ vm ∈ s.running, vm.money ≤ ticksSinceReset actions * nominalOf ctl.vcpuMarket vm := by
  refine Transition.run_history
    (P := fun actions s => Bounded ctl (ticksSinceReset actions) s.running) ?_ ?_ hrun
  · exact fun vm hvm => absurd hvm List.not_mem_nil
  · intro actions u a u' hu h hstep
    exact bounded_step (fun hdisabled => money_of_disabled hdisabled hu) h hstep

/-- A tick of the market in which the only VM is idle. -/
def idleTick : List Action :=
  let update : Action := .updateControllers [2000] fun _ _ => { cpu := 0, counter := 0, elapsed := 1 }
  [.register plainVM, update, .waitFrame, update, .updateBeforeMarket, .market]

theorem idleTick_run : (Transition.run (step plainController) start idleTick).isSome = true := by
  decide +kernel

/-- The VM sells most of its nominal share of 300000 cycles. -/
theorem accounts_bounded_plain :
    ∃ s, Transition.run (step plainController) start idleTick = some s ∧
      s.running.map LibvirtVM.money = [290000] ∧
      ∀ vm ∈ s.running, vm.money ≤ ticksSinceReset idleTick * nominalOf plainController.vcpuMarket vm :=
  ⟨_, (Option.some_get idleTick_run).symm, by decide +kernel,
    accounts_bounded plainController (Option.some_get idleTick_run).symm⟩

end Controller
