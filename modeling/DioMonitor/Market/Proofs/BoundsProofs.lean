import DioMonitor.Market.Proofs.RunProofs

/-!
# Proofs: the bounds of an allocation

A vCPU whose nominal share lies between one percent and a full core is allocated between one percent
and a full core by every tick that applies quotas. The order of the three is what the code relies on
without checking it: a frequency whose nominal share is outside leads to a tick that breaks the bounds
(`run_bounds_iff`).
-/

namespace VCPUMarket

/-- The nominal share of the frequency `freq` on a host of frequency `cpuFreq`. -/
def nominalShare (cpuFreq : ℤ) (freq : ℕ) : ℕ :=
  (((FloatVal.num freq).div (.num cpuFreq)).mul (.num maxCycles)).toULong

theorem nominal_eq (cfg : VCPUMarketConfig) (v : LibvirtVCPUController) :
    nominal cfg v = nominalShare cfg.cpuFreq v.nominalFreq := rfl

/-- The allocation is between one percent of a core and a full core. -/
def InBounds (v : LibvirtVCPUController) : Prop := minCycles ≤ v.allocated ∧ v.allocated ≤ maxCycles

variable {cfg : VCPUMarketConfig} {nprocs : ℕ} {vms vms' : List LibvirtVM}

/-! ## Within the bounds -/

/-- A nominal share of at most a full core is never exceeded beyond a full core. -/
theorem applied_le (happ : run cfg nprocs vms = .applied vms') {p : VCPURef} (hp : Valid vms p)
    (hmin : minCycles ≤ nominal cfg (vcpuAt vms p)) (hmax : nominal cfg (vcpuAt vms p) ≤ maxCycles) :
    (vcpuAt vms' p).allocated ≤ maxCycles := by
  obtain ⟨-, ws, hr, rfl⟩ := run_applied happ
  have hset : ∀ {ws : List LibvirtVM}, Valid ws p →
      (vcpuAt (ws.map (·.applyMarketAllocation marketPeriod)) p).allocated = (vcpuAt ws p).allocated := by
    intro ws hw
    rw [vcpuAt_map (f := fun c => c.setQuota c.allocated marketPeriod) (fun _ => rfl) hw]
    rfl
  have hv : Valid (splitRest (auction cfg nprocs vms)).1 p := valid_splitRest.mpr hp
  rcases redistribute_spec hr with ⟨rfl, -⟩ | ⟨-, -, rfl⟩
  · rw [hset hv]
    exact phases_le hp hmin hmax
  · rw [hset (valid_raise.mpr hv), vcpuAt_raise hv]
    exact Nat.min_le_left _ _

theorem applied_inBounds (happ : run cfg nprocs vms = .applied vms') {p : VCPURef} (hp : Valid vms p)
    (hmin : minCycles ≤ nominal cfg (vcpuAt vms p)) (hmax : nominal cfg (vcpuAt vms p) ≤ maxCycles) :
    InBounds (vcpuAt vms' p) := by
  obtain ⟨c, -, heq, hcur⟩ := (applied_vcpu happ p).2 hp
  have hfloor : minCycles ≤ current cfg (vcpuAt vms p) := min_le_current_of_nominal hmin
  have hcore : minCycles ≤ maxCycles := by decide
  refine ⟨?_, applied_le happ hp hmin hmax⟩
  rw [heq]
  show minCycles ≤ c.allocated
  exact (le_min hcore hfloor).trans hcur

/-! ## Outside the bounds -/

/-- A base sale that sells exactly the host is the whole tick. -/
theorem run_soldOut (hvms : vms ≠ []) (hsold : total (current cfg) vms = nprocs * maxCycles) :
    run cfg nprocs vms =
      .applied ((vms.map (soldVM cfg)).map (·.applyMarketAllocation marketPeriod)) := by
  have hlen : vms.length ≠ 0 := fun h0 => hvms (List.length_eq_zero_iff.mp h0)
  have hmarket : (baseSale cfg nprocs vms).market = 0 := by
    rw [baseSale_market, baseSale_vms, totalAllocated_map_soldVM, hsold]
    simp
  have hnot : ¬ (0 : ℤ) > 0 := lt_irrefl 0
  have hauction : auction cfg nprocs vms =
      { vms := vms.map (soldVM cfg), market := 0, allNeeded := 0, fails := [] } := by
    unfold auction buyCycles
    rw [hmarket, baseSale_vms, buyLoop, if_neg fun h => hnot h.1]
  rw [run_eq, if_neg hlen, hmarket, if_neg hnot, hauction]
  rfl

theorem soldOut_allocated (hvms : vms ≠ []) (hsold : total (current cfg) vms = nprocs * maxCycles)
    {p : VCPURef} (hp : Valid vms p) : ∃ vms', run cfg nprocs vms = .applied vms' ∧ Valid vms' p ∧
      (vcpuAt vms' p).allocated = current cfg (vcpuAt vms p) := by
  have hsoldVM : Valid (vms.map (soldVM cfg)) p := valid_soldVM.mpr hp
  refine ⟨_, run_soldOut hvms hsold, ?_, ?_⟩
  · exact (valid_map (f := fun c => c.setQuota c.allocated marketPeriod) fun _ => rfl).mpr hsoldVM
  · rw [vcpuAt_map (f := fun c => c.setQuota c.allocated marketPeriod) (fun _ => rfl) hsoldVM,
      vcpuAt_soldVM hp]
    rfl

/-- A vCPU with a large quota of which it uses `usage` cycles, after a rise. -/
def falling (freq usage : ℕ) : LibvirtVCPUController :=
  { id := 0, nominalFreq := freq, cgroup := ⟨"a".toList, true, none⟩, period := 100000
    quota := 1000000, slope := .num 1, delta := 1, consumption := usage }

/-- A vCPU with a stable usage of zero. -/
def still (freq : ℕ) : LibvirtVCPUController :=
  { id := 0, nominalFreq := freq, cgroup := ⟨"a".toList, true, none⟩, period := 100000
    quota := 1000000, slope := .num 0, delta := 1, consumption := 0 }

/-- A market on a host of frequency `cpuFreq` that takes the unused quota back at once. -/
def promptConfig (cpuFreq : ℤ) : VCPUMarketConfig :=
  { cpuFreq, triggerIncrement := 95 / 100, triggerDecrement := 1 / 2
    increasingSpeed := 5 / 100, decreasingSpeed := 1, windowSize := 10000 }

theorem current_falling (cpuFreq : ℤ) (freq : ℕ) {usage : ℕ} (husage : usage < 5000000) :
    current (promptConfig cpuFreq) (falling freq usage) =
      min (nominalShare cpuFreq freq) (max minCycles usage) := by
  have habs : (falling freq usage).getAbsoluteConsumption = usage := by
    show ((FloatVal.num usage).div (.num 1)).toULong = usage
    rw [FloatVal.div_num one_ne_zero, div_one, toULong_natCast]
  have hcap : (falling freq usage).getAbsoluteCapping = 10000000 := by
    show ((FloatVal.num (1000000 * 1000000)).div (.num 100000)).toULong = 10000000
    decide +kernel
  have hperc : (falling freq usage).getRelativePercentConsumption.div (.num 100) =
      .num ((usage : ℚ) / 10000000) := by
    unfold LibvirtVCPUController.getRelativePercentConsumption
    rw [habs, hcap, FloatVal.div_num (by norm_num), FloatVal.mul_num, FloatVal.div_num (by norm_num)]
    congr 1
    push_cast
    ring
  have hbranch : branch (promptConfig cpuFreq) (falling freq usage) = .decrement := by
    have hslope : ((FloatVal.num (-1 / 10)).lt (falling freq usage).getSlope &&
        (falling freq usage).getSlope.lt (.num (1 / 10))) = false := by
      show ((FloatVal.num (-1 / 10)).lt (.num 1) && (FloatVal.num 1).lt (.num (1 / 10))) = false
      decide +kernel
    have hlow : ((falling freq usage).getRelativePercentConsumption.div (.num 100)).lt
        (.num (promptConfig cpuFreq).triggerDecrement) = true := by
      rw [hperc]
      show decide ((usage : ℚ) / 10000000 < 1 / 2) = true
      rw [decide_eq_true_eq, div_lt_iff₀ (by norm_num)]
      have hcast : (usage : ℚ) < 5000000 := by exact_mod_cast husage
      linarith
    unfold branch
    simp only [hslope, hlow, Bool.false_eq_true, if_false, if_true]
  have hdemand : demand (promptConfig cpuFreq) (falling freq usage) = max minCycles usage := by
    unfold demand
    rw [hbranch]
    show max minCycles (max usage (FloatVal.num (_ * (1 - 1))).toULong) = _
    simp
  unfold current
  rw [hbranch, hdemand, nominal_eq]
  rfl

theorem current_still (cpuFreq : ℤ) {freq : ℕ} (hlow : nominalShare cpuFreq freq < minCycles) :
    current (promptConfig cpuFreq) (still freq) = minCycles := by
  have hbranch : branch (promptConfig cpuFreq) (still freq) = .stable := by
    have hslope : ((FloatVal.num (-1 / 10)).lt (still freq).getSlope &&
        (still freq).getSlope.lt (.num (1 / 10))) = true := by
      show ((FloatVal.num (-1 / 10)).lt (.num 0) && (FloatVal.num 0).lt (.num (1 / 10))) = true
      decide +kernel
    unfold branch
    simp only [hslope, if_true]
  have hnom : nominal (promptConfig cpuFreq) (still freq) = nominalShare cpuFreq freq := rfl
  unfold current
  rw [hbranch]
  show max minCycles (min (nominal (promptConfig cpuFreq) (still freq)) _) = minCycles
  rw [hnom]
  omega

/-- A nominal share below one percent: on a host of 100 processors, 10000 vCPUs that fall to their
nominal share and as many others, at the floor, as fill the host. -/
def lowVMs (cpuFreq : ℤ) (freq : ℕ) : List LibvirtVM :=
  [{ (default : LibvirtVM) with
    vcpuControllers := List.replicate 10000 (falling freq 0) ++
      List.replicate (10000 - nominalShare cpuFreq freq) (still freq) }]

/-- A nominal share above a full core: two vCPUs that use two cores, one of them a bit more than one. -/
def highVMs (freq : ℕ) : List LibvirtVM :=
  [{ (default : LibvirtVM) with vcpuControllers := [falling freq 1000001, falling freq 999999] }]

theorem lowVMs_valid (cpuFreq : ℤ) (freq : ℕ) : Valid (lowVMs cpuFreq freq) ⟨0, 0⟩ := by
  refine ⟨Nat.zero_lt_one, ?_⟩
  show 0 < (List.replicate 10000 (falling freq 0) ++ _).length
  rw [List.length_append, List.length_replicate]
  omega

theorem lowVMs_freq (cpuFreq : ℤ) (freq : ℕ) :
    ∀ vm ∈ lowVMs cpuFreq freq, ∀ c ∈ vm.vcpuControllers, c.nominalFreq = freq := by
  intro vm hvm c hc
  rw [List.mem_singleton.mp hvm] at hc
  rcases List.mem_append.mp hc with hc | hc
  · rw [List.eq_of_mem_replicate hc]
    rfl
  · rw [List.eq_of_mem_replicate hc]
    rfl

theorem lowVMs_soldOut {cpuFreq : ℤ} {freq : ℕ} (hlow : nominalShare cpuFreq freq < minCycles) :
    total (current (promptConfig cpuFreq)) (lowVMs cpuFreq freq) = 100 * maxCycles := by
  have hfalling := current_falling cpuFreq freq (show 0 < 5000000 by decide)
  have hstill := current_still cpuFreq hlow
  have hmin : minCycles = 10000 := rfl
  have hmax : maxCycles = 1000000 := rfl
  simp only [total, lowVMs, vmSum, List.map_cons, List.map_nil, List.map_append, List.map_replicate,
    List.sum_append, List.sum_replicate_nat, List.sum_cons, List.sum_nil, hfalling, hstill]
  rw [hmin] at hlow ⊢
  rw [hmax]
  omega

theorem highVMs_freq (freq : ℕ) :
    ∀ vm ∈ highVMs freq, ∀ c ∈ vm.vcpuControllers, c.nominalFreq = freq := by
  intro vm hvm c hc
  rw [List.mem_singleton.mp hvm] at hc
  simp only [List.mem_cons, List.not_mem_nil, or_false] at hc
  rcases hc with rfl | rfl <;> rfl

theorem highVMs_soldOut {cpuFreq : ℤ} {freq : ℕ} (hhigh : maxCycles < nominalShare cpuFreq freq) :
    total (current (promptConfig cpuFreq)) (highVMs freq) = 2 * maxCycles := by
  have hover := current_falling cpuFreq freq (show 1000001 < 5000000 by decide)
  have hunder := current_falling cpuFreq freq (show 999999 < 5000000 by decide)
  have hmin : minCycles = 10000 := rfl
  have hmax : maxCycles = 1000000 := rfl
  simp only [total, highVMs, vmSum, List.map_cons, List.map_nil, List.sum_cons, List.sum_nil, hover,
    hunder]
  omega

/-! ## The bounds -/

/-- The ticks on hosts of frequency `cpuFreq` with VMs of the given frequencies keep every allocation
between one percent and a full core, whatever the usages, quotas, slopes, accounts and the rest of the
configuration, exactly when every one of these frequencies has a nominal share between the two. -/
theorem run_bounds_iff (cpuFreq : ℤ) (freqs : Set ℕ) :
    (∀ cfg nprocs vms vms', cfg.cpuFreq = cpuFreq →
      (∀ vm ∈ vms, ∀ c ∈ vm.vcpuControllers, c.nominalFreq ∈ freqs) →
      run cfg nprocs vms = .applied vms' → ∀ vm ∈ vms', ∀ c ∈ vm.vcpuControllers, InBounds c) ↔
    ∀ freq ∈ freqs, minCycles ≤ nominalShare cpuFreq freq ∧ nominalShare cpuFreq freq ≤ maxCycles := by
  constructor
  · intro h freq hfreq
    -- what a tick that sells out allocates is what its base sale allocates
    have hcurrent : ∀ {nprocs : ℕ} {vms : List LibvirtVM} {p : VCPURef}, Valid vms p →
        (∀ vm ∈ vms, ∀ c ∈ vm.vcpuControllers, c.nominalFreq = freq) →
        total (current (promptConfig cpuFreq)) vms = nprocs * maxCycles →
        minCycles ≤ current (promptConfig cpuFreq) (vcpuAt vms p) ∧
          current (promptConfig cpuFreq) (vcpuAt vms p) ≤ maxCycles := by
      intro nprocs vms p hp hvms hsold
      have hne : vms ≠ [] := by
        rintro rfl
        exact absurd hp.1 (Nat.not_lt_zero _)
      obtain ⟨vms', happ, hp', halloc⟩ := soldOut_allocated hne hsold hp
      have hbounds := h _ _ vms vms' rfl (fun vm hvm c hc => by rw [hvms vm hvm c hc]; exact hfreq) happ
      have hin : InBounds (vcpuAt vms' p) := forall_vcpuAt.mpr hbounds p hp'
      rw [InBounds, halloc] at hin
      exact hin
    refine ⟨not_lt.mp fun hlow => ?_, not_lt.mp fun hhigh => ?_⟩
    · have hfirst : vcpuAt (lowVMs cpuFreq freq) ⟨0, 0⟩ = falling freq 0 := rfl
      have hbounds := hcurrent (lowVMs_valid cpuFreq freq) (lowVMs_freq cpuFreq freq)
        (lowVMs_soldOut hlow)
      rw [hfirst, current_falling cpuFreq freq (by decide)] at hbounds
      omega
    · have hfirst : vcpuAt (highVMs freq) ⟨0, 0⟩ = falling freq 1000001 := rfl
      have hvalid : Valid (highVMs freq) ⟨0, 0⟩ := ⟨Nat.zero_lt_one, Nat.zero_lt_two⟩
      have hbounds := hcurrent hvalid (highVMs_freq freq) (highVMs_soldOut hhigh)
      rw [hfirst, current_falling cpuFreq freq (by decide)] at hbounds
      have hmin : minCycles = 10000 := rfl
      have hmax : maxCycles = 1000000 := rfl
      omega
  · intro h cfg nprocs vms vms' hcfg hvms happ
    refine forall_vcpuAt.mp ?_
    intro p hp
    have hp' : Valid vms p := (applied_vcpu happ p).1.mp hp
    obtain ⟨hmin, hmax⟩ := h _ (forall_vcpuAt.mpr hvms p hp')
    rw [← hcfg, ← nominal_eq] at hmin hmax
    exact applied_inBounds happ hp' hmin hmax

/-- Two VMs with a nominal share of 5000 cycles, half a percent of a core, that use almost all of two
cores. -/
def slowVMs : List LibvirtVM :=
  let slow (usage : ℕ) : LibvirtVCPUController :=
    { id := 0, nominalFreq := 10, cgroup := ⟨"a".toList, true, none⟩, period := 100000
      quota := 100000, slope := .num 0, delta := 1, consumption := usage }
  [{ (default : LibvirtVM) with vcpuControllers := [slow 990000] },
    { (default : LibvirtVM) with vcpuControllers := [slow 980000] }]

/-- The floor of 10000 cycles comes on top of the 995000 cycles that the vCPU may buy. -/
theorem run_out_of_bounds :
    ∃ vms', run busyConfig 2 slowVMs = .applied vms' ∧ Valid vms' ⟨0, 0⟩ ∧
      (vcpuAt vms' ⟨0, 0⟩).allocated = 1005000 ∧ ¬ InBounds (vcpuAt vms' ⟨0, 0⟩) := by
  obtain ⟨vms', h⟩ : ∃ vms', run busyConfig 2 slowVMs = .applied vms' :=
    exists_run_applied (by decide +kernel) (by decide +kernel)
  have halloc : (match run busyConfig 2 slowVMs with
      | .applied vms' => decide ((vcpuAt vms' ⟨0, 0⟩).allocated = 1005000)
      | _ => false) = true := by decide +kernel
  rw [h] at halloc
  have heq : (vcpuAt vms' ⟨0, 0⟩).allocated = 1005000 := of_decide_eq_true halloc
  refine ⟨vms', h, ?_, heq, fun hin => ?_⟩
  · exact (applied_vcpu h ⟨0, 0⟩).1.mpr (by decide +kernel)
  · have hle := hin.2
    rw [heq] at hle
    exact absurd hle (by decide)

end VCPUMarket
