import DioMonitor.Server.Control
import DioMonitor.Market.Proofs.ConservationProofs
import DioMonitor.Libvirt.Proofs.ClientProofs
import DioMonitor.Libvirt.Proofs.VcpuProofs
import DioMonitor.Lib.ListOption

/-!
# Proofs: the control loop

`step_cases` says once what a step can do, and `step_change` what that is for a vCPU. The invariant of the
loop is that a quota set by the market leaves a capping above the one percent floor (`QuotaOk`), which is
what the conservation of money needs (`market_conserved`).
-/

namespace Controller

open VCPUMarket

variable {ctl : Controller} {s s' : State}

/-! ## What a step can do -/

/-- A step, with what enables it. -/
inductive Stepped (ctl : Controller) (s : State) : Action → State → Prop where
  | sampled {freq : List ℕ} {read : ℕ → ℕ → Reading} (h : s.next = .updateControllers) :
      Stepped ctl s (.updateControllers freq read) { s with
        next := if s.i = 1 then .updateBeforeMarket else .waitFrame
        running := LibvirtClient.updateVCPUControllers s.running freq read }
  | averaged {running : List LibvirtVM} (h : s.next = .updateBeforeMarket)
      (hrun : LibvirtClient.updateVCPUBeforeMarket s.running = some running) :
      Stepped ctl s .updateBeforeMarket { s with next := .market, running }
  | divByZero (h : s.next = .updateBeforeMarket) :
      Stepped ctl s .updateBeforeMarket { s with next := .dead }
  | sold (h : s.next = .market) : Stepped ctl s .market (market ctl s)
  | waited (h : s.next = .waitFrame) :
      Stepped ctl s .waitFrame { s with i := s.i + 1, next := .updateControllers }
  | registered {vm : LibvirtVM} (hfresh : Fresh ctl.host vm) :
      Stepped ctl s (.register vm) { s with running := s.running ++ [vm] }
  | killed {name : Str} :
      Stepped ctl s (.kill name) { s with running := LibvirtClient.kill s.running name }
  | reset : Stepped ctl s .reset { s with
      running := if ctl.vcpuMarketEnabled then VCPUMarket.reset s.running else s.running }

theorem step_cases {a : Action} (hstep : step ctl s a = some s') : Stepped ctl s a s' := by
  cases a with
  | updateBeforeMarket =>
    simp only [step] at hstep
    split at hstep
    · rename_i hnext
      split at hstep
      · rename_i running hrun
        cases hstep
        exact .averaged hnext hrun
      · cases hstep
        exact .divByZero hnext
    · cases hstep
  | updateControllers freq read =>
    obtain ⟨hnext, heq⟩ := Option.ite_none_right_eq_some.mp hstep
    cases heq
    exact .sampled hnext
  | market =>
    obtain ⟨hnext, heq⟩ := Option.ite_none_right_eq_some.mp hstep
    cases heq
    exact .sold hnext
  | waitFrame =>
    obtain ⟨hnext, heq⟩ := Option.ite_none_right_eq_some.mp hstep
    cases heq
    exact .waited hnext
  | register vm =>
    obtain ⟨hcond, heq⟩ := Option.ite_none_right_eq_some.mp hstep
    cases heq
    exact .registered hcond.2
  | kill name =>
    obtain ⟨-, heq⟩ := Option.ite_none_right_eq_some.mp hstep
    cases heq
    exact .killed
  | reset =>
    obtain ⟨-, heq⟩ := Option.ite_none_right_eq_some.mp hstep
    cases heq
    exact .reset

/-- The controllers of all running VMs. -/
def vcpus (s : State) : List LibvirtVCPUController := s.running.flatMap (·.vcpuControllers)

/-- What a step can do to a vCPU of the running VMs. -/
inductive Change (ctl : Controller) (s : State) : Action → LibvirtVCPUController → Prop where
  | kept {a : Action} {c : LibvirtVCPUController} (h : c ∈ vcpus s)
      (ha : ∀ freq read, a ≠ .updateControllers freq read) : Change ctl s a c
  | updated {freq : List ℕ} {read : ℕ → ℕ → Reading} {c : LibvirtVCPUController} (r : Reading)
      (h : c ∈ vcpus s) : Change ctl s (.updateControllers freq read) (c.update freq r)
  | averaged {c c' : LibvirtVCPUController} (h : c ∈ vcpus s) (h' : c.updateBeforeMarket = some c') :
      Change ctl s .updateBeforeMarket c'
  | sold {c : LibvirtVCPUController} (h : c ∈ vcpus s) :
      Change ctl s .market (sold ctl.vcpuMarket c)
  | applied {c c' : LibvirtVCPUController} (h : c ∈ vcpus s) (h' : unpriced c' = unpriced c)
      (hle : min maxCycles (current ctl.vcpuMarket c) ≤ c'.allocated) :
      Change ctl s .market (c'.setQuota c'.allocated marketPeriod)
  | created {vm : LibvirtVM} (i : ℕ) (hi : i < vm.vcpus.toNat) :
      Change ctl s (.register vm) (LibvirtVM.newController ctl.host vm.id vm.freq i)

theorem mem_vcpus {c : LibvirtVCPUController} :
    c ∈ vcpus s ↔ ∃ vm ∈ s.running, c ∈ vm.vcpuControllers :=
  List.mem_flatMap

theorem forall_vcpus {P : LibvirtVCPUController → Prop} :
    (∀ c ∈ vcpus s, P c) ↔ ∀ p, Valid s.running p → P (vcpuAt s.running p) := by
  rw [forall_vcpuAt]
  simp only [mem_vcpus]
  constructor
  · exact fun h vm hvm c hc => h c ⟨vm, hvm, hc⟩
  · exact fun h c ⟨vm, hvm, hc⟩ => h vm hvm c hc

/-! ## What a step does to a vCPU -/

theorem kill_subset (running : List LibvirtVM) (name : Str) :
    ∀ vm ∈ LibvirtClient.kill running name, vm ∈ running := by
  unfold LibvirtClient.kill
  split
  · exact fun vm hvm => (LibvirtClient.removeCopy_sublist name running).subset hvm
  · exact fun _ hvm => hvm

theorem change_updateControllers {freq : List ℕ} {read : ℕ → ℕ → Reading} {c : LibvirtVCPUController}
    (h : c ∈ vcpus { s with running := LibvirtClient.updateVCPUControllers s.running freq read }) :
    Change ctl s (.updateControllers freq read) c := by
  obtain ⟨vm, hvm, hc⟩ := mem_vcpus.mp h
  obtain ⟨i, hi, rfl⟩ := List.mem_mapIdx.mp hvm
  obtain ⟨j, hj, rfl⟩ := List.mem_mapIdx.mp hc
  exact .updated _ (mem_vcpus.mpr ⟨_, List.getElem_mem hi, List.getElem_mem hj⟩)

theorem change_updateBeforeMarket {running : List LibvirtVM} {c' : LibvirtVCPUController}
    (hrun : LibvirtClient.updateVCPUBeforeMarket s.running = some running)
    (h : c' ∈ vcpus { s with running }) : Change ctl s .updateBeforeMarket c' := by
  obtain ⟨vm', hvm', hc'⟩ := mem_vcpus.mp h
  obtain ⟨vm, hvm, heq⟩ := ListOption.exists_of_mem_mapM hrun hvm'
  simp only [Option.bind_eq_bind, Option.bind_eq_some_iff, Option.pure_def, Option.some.injEq] at heq
  obtain ⟨cs, hcs, rfl⟩ := heq
  obtain ⟨c, hc, hupdate⟩ := ListOption.exists_of_mem_mapM hcs hc'
  exact .averaged (mem_vcpus.mpr ⟨vm, hvm, hc⟩) hupdate

theorem change_market {c : LibvirtVCPUController} (h : c ∈ vcpus (market ctl s)) :
    Change ctl s .market c := by
  unfold market at h
  split at h
  · split at h
    · exact .kept h nofun
    · rename_i vms hover
      obtain ⟨-, rfl⟩ := run_overAllocated hover
      obtain ⟨vm', hvm', hc⟩ := mem_vcpus.mp h
      rw [baseSale_vms] at hvm'
      obtain ⟨vm, hvm, rfl⟩ := List.mem_map.mp hvm'
      obtain ⟨c, hmem, rfl⟩ := List.mem_map.mp hc
      exact .sold (mem_vcpus.mpr ⟨vm, hvm, hmem⟩)
    · exact .kept h nofun
    · rename_i vms happ
      refine forall_vcpus.mpr (fun p hp => ?_) c h
      obtain ⟨hvalid, hvcpu⟩ := applied_vcpu happ p
      have hmem : vcpuAt s.running p ∈ vcpus s :=
        forall_vcpus.mp (fun _ hc => hc) p (hvalid.mp hp)
      obtain ⟨c', hframe, heq, hle⟩ := hvcpu (hvalid.mp hp)
      rw [heq]
      exact .applied hmem hframe hle
  · exact .kept h nofun

theorem step_change {a : Action} (hstep : step ctl s a = some s') {c : LibvirtVCPUController}
    (h : c ∈ vcpus s') : Change ctl s a c := by
  cases step_cases hstep with
  | sampled => exact change_updateControllers h
  | averaged _ hrun => exact change_updateBeforeMarket hrun h
  | divByZero => exact .kept h nofun
  | sold => exact change_market h
  | waited => exact .kept h nofun
  | @registered vm hfresh =>
    obtain ⟨vm', hvm', hc⟩ := mem_vcpus.mp h
    rcases List.mem_append.mp hvm' with hvm' | hvm'
    · exact .kept (mem_vcpus.mpr ⟨vm', hvm', hc⟩) nofun
    · obtain rfl : vm' = vm := by simpa using hvm'
      rw [hfresh.2] at hc
      obtain ⟨i, hi, rfl⟩ := List.mem_map.mp hc
      exact .created i (List.mem_range.mp hi)
  | @killed name =>
    obtain ⟨vm, hvm, hc⟩ := mem_vcpus.mp h
    exact .kept (mem_vcpus.mpr ⟨vm, kill_subset s.running name vm hvm, hc⟩) nofun
  | reset =>
    obtain ⟨vm', hvm', hc⟩ := mem_vcpus.mp h
    simp only at hvm'
    split at hvm'
    · obtain ⟨vm, hvm, rfl⟩ := List.mem_map.mp hvm'
      exact .kept (mem_vcpus.mpr ⟨vm, hvm, hc⟩) nofun
    · exact .kept (mem_vcpus.mpr ⟨vm', hvm', hc⟩) nofun

/-! ## The accounts without a market -/

/-- While the market is disabled no step puts money into an account. -/
theorem money_step {a : Action} (hdisabled : ctl.vcpuMarketEnabled = false)
    (h : ∀ vm ∈ s.running, vm.money = 0) (hstep : step ctl s a = some s') :
    ∀ vm ∈ s'.running, vm.money = 0 := by
  intro vm hvm
  cases step_cases hstep with
  | sampled =>
    obtain ⟨i, hi, rfl⟩ := List.mem_mapIdx.mp hvm
    exact h (s.running[i]) (List.getElem_mem hi)
  | averaged _ hrun =>
    obtain ⟨vm', hvm', heq⟩ := ListOption.exists_of_mem_mapM hrun hvm
    simp only [Option.bind_eq_bind, Option.bind_eq_some_iff, Option.pure_def, Option.some.injEq] at heq
    obtain ⟨cs, -, rfl⟩ := heq
    exact h vm' hvm'
  | divByZero | waited => exact h vm hvm
  | sold =>
    rw [market, hdisabled] at hvm
    exact h vm hvm
  | @registered vm' hfresh =>
    rcases List.mem_append.mp hvm with hvm | hvm
    · exact h vm hvm
    · rw [List.mem_singleton.mp hvm]
      exact hfresh.1
  | @killed name => exact h vm (kill_subset s.running name vm hvm)
  | reset =>
    rw [hdisabled] at hvm
    exact h vm hvm

/-- Without a market every account stays empty. -/
theorem money_of_disabled {actions : List Action} (hdisabled : ctl.vcpuMarketEnabled = false)
    (hrun : Transition.run (step ctl) start actions = some s) : ∀ vm ∈ s.running, vm.money = 0 :=
  Transition.run_invariant (fun _ _ _ h hstep => money_step hdisabled h hstep)
    (fun _ hvm => absurd hvm List.not_mem_nil) hrun

/-! ## Quotas set by the market -/

/-- The quota of the vCPU is the one it was created with, or one that the market set. In the second
case it leaves at least the floor, provided the nominal share does. -/
def QuotaOk (cfg : VCPUMarketConfig) (c : LibvirtVCPUController) : Prop :=
  (c.period ≠ marketPeriod ∧ c.quota = 2 ^ 64 - 1) ∨
  (c.period = marketPeriod ∧ (minCycles ≤ nominal cfg c → minCycles ≤ c.getAbsoluteCapping))

/-- What the market decides about a vCPU is not part of `QuotaOk`. -/
theorem QuotaOk.congr {cfg : VCPUMarketConfig} {c c' : LibvirtVCPUController} (h : QuotaOk cfg c)
    (hperiod : c'.period = c.period) (hquota : c'.quota = c.quota)
    (hfreq : c'.nominalFreq = c.nominalFreq) : QuotaOk cfg c' := by
  unfold QuotaOk nominal LibvirtVCPUController.getAbsoluteCapping LibvirtVCPUController.getNominalFreq at *
  rw [hperiod, hquota, hfreq]
  exact h

/-- A quota set from an allocation above the floor leaves a capping above the floor. -/
theorem quotaOk_setQuota {cfg : VCPUMarketConfig} {c c' : LibvirtVCPUController}
    (hframe : unpriced c' = unpriced c) (hle : min maxCycles (current cfg c) ≤ c'.allocated) :
    QuotaOk cfg (c'.setQuota c'.allocated marketPeriod) := by
  refine Or.inr ⟨rfl, ?_⟩
  intro hnom
  have hfreq : nominal cfg (c'.setQuota c'.allocated marketPeriod) = nominal cfg c := by
    have : c'.nominalFreq = c.nominalFreq := congrArg (·.nominalFreq) hframe
    unfold nominal LibvirtVCPUController.getNominalFreq
    rw [← this]
    rfl
  rw [hfreq] at hnom
  have hcurrent : minCycles ≤ current cfg c := min_le_current_of_nominal hnom
  have hmin : minCycles ≤ maxCycles := by decide
  have hfloor : minCycles = 1000 * 10 := rfl
  unfold marketPeriod
  rw [LibvirtVCPUController.getAbsoluteCapping_setQuota]
  omega

/-- Every step keeps the quotas. -/
theorem quotaOk_step {a : Action} (h : ∀ c ∈ vcpus s, QuotaOk ctl.vcpuMarket c)
    (hstep : step ctl s a = some s') : ∀ c ∈ vcpus s', QuotaOk ctl.vcpuMarket c := by
  intro c hc
  cases step_change hstep hc with
  | kept hmem _ => exact h c hmem
  | updated r hmem => exact (h _ hmem).congr rfl rfl rfl
  | averaged hmem hupdate =>
    obtain ⟨hperiod, hquota, hfreq, -⟩ := LibvirtVCPUController.updateBeforeMarket_spec hupdate
    exact (h _ hmem).congr hperiod hquota hfreq
  | sold hmem => exact (h _ hmem).congr rfl rfl rfl
  | applied hmem hframe hle => exact quotaOk_setQuota hframe hle
  | created i hi =>
    refine Or.inl ⟨fun h => ?_, rfl⟩
    have : (10000 : ℕ) = 100000 := h
    omega

/-- Money and cycles are conserved in every frame of every run in which the nominal shares lie
between the floor and a full core and every vCPU has a quota set by an earlier tick of the market: the
period of such a quota is not the one of the constructor. -/
theorem market_conserved (ctl : Controller) (hspeed : 0 ≤ ctl.vcpuMarket.increasingSpeed)
    {actions : List Action} (hrun : Transition.run (step ctl) start actions = some s)
    (hnominal : ∀ c ∈ vcpus s, minCycles ≤ nominal ctl.vcpuMarket c ∧ nominal ctl.vcpuMarket c ≤ maxCycles)
    (hpriced : ∀ c ∈ vcpus s, c.period = marketPeriod) :
    Conserved ctl.vcpuMarket ctl.nprocs s.running := by
  have hquota : ∀ c ∈ vcpus s, QuotaOk ctl.vcpuMarket c :=
    Transition.run_invariant (P := fun s => ∀ c ∈ vcpus s, QuotaOk ctl.vcpuMarket c)
      (fun _ _ _ h hstep => quotaOk_step h hstep) (by simp [vcpus, start]) hrun
  refine auction_conserved hspeed (forall_vcpus.mp ?_)
  intro c hc
  obtain ⟨hmin, hmax⟩ := hnominal c hc
  rcases hquota c hc with ⟨hne, -⟩ | ⟨-, hcap⟩
  · exact absurd (hpriced c hc) hne
  · exact ⟨hmin, hmax, hcap hmin⟩

/-- A host where nothing fails. -/
def plainHost : Host :=
  { home := true, cgroupV2 := true, canAlloc := fun _ => true, canGrow := fun _ => true }

/-- The controller of a host with one core and the market enabled. -/
def plainController : Controller :=
  { host := plainHost, nprocs := 1, vcpuMarketEnabled := true, vcpuMarket := busyConfig }

/-- A new VM with one vCPU, whose nominal share is 300000 cycles under `busyConfig`. -/
def plainVM : LibvirtVM :=
  { (default : LibvirtVM) with
    vcpus := 1, freq := 600
    vcpuControllers := LibvirtVM.newControllers plainHost [] 600 1 }

/-- The frames until the second tick of the market. -/
def twoTicks : List Action :=
  let update : Action := .updateControllers [2000] fun _ _ => { cpu := 0, counter := 400000, elapsed := 1 }
  [.register plainVM, update, .waitFrame, update, .updateBeforeMarket, .market, .waitFrame, update,
    .updateBeforeMarket]

theorem twoTicks_run : (Transition.run (step plainController) start twoTicks).isSome = true := by
  decide +kernel

theorem market_conserved_plain :
    ∃ s, Transition.run (step plainController) start twoTicks = some s ∧ s.next = .market ∧
      Conserved plainController.vcpuMarket plainController.nprocs s.running := by
  refine ⟨_, (Option.some_get twoTicks_run).symm, by decide +kernel, ?_⟩
  exact market_conserved plainController (by decide +kernel) (Option.some_get twoTicks_run).symm
    (by decide +kernel) (by decide +kernel)

end Controller
