import DioMonitor.Market.Proofs.StoreProofs
import Mathlib.Tactic.NormNum

/-!
# Proofs: the base sale

`demand` and `current` name what the branch taken by `sellBaseCycles` computes for a vCPU. With them
the whole base sale has a closed form: every vCPU is sold `current` cycles, a buyer is one whose
demand exceeds its nominal share, and a VM earns what its sellers do not use.
-/

namespace VCPUMarket

/-- The branches of `sellBaseCycles`. -/
inductive Branch where
  | stable
  | decrement
  | increment
  | between

/-- The branch taken for a vCPU. -/
def branch (cfg : VCPUMarketConfig) (v : LibvirtVCPUController) : Branch :=
  let percUsage := v.getRelativePercentConsumption.div (.num 100)
  if (FloatVal.num (-1 / 10)).lt v.getSlope && v.getSlope.lt (.num (1 / 10)) then .stable
  else if percUsage.lt (.num cfg.triggerDecrement) then .decrement
  else if (FloatVal.num cfg.triggerIncrement).lt percUsage then .increment
  else .between

/-- What the vCPU asks for: the value `increase`, `decrease` or `capp` of its branch. -/
def demand (cfg : VCPUMarketConfig) (v : LibvirtVCPUController) : ℕ :=
  match branch cfg v with
  | .stable => min maxCycles (FloatVal.num (v.getConsumption + maxCycles * (1 / 100))).toULong
  | .decrement =>
    max minCycles
      (max v.getConsumption (FloatVal.num (v.getAbsoluteCapping * (1 - cfg.decreasingSpeed))).toULong)
  | .increment => (FloatVal.num (v.getAbsoluteCapping * (1 + cfg.increasingSpeed))).toULong
  | .between => v.getAbsoluteCapping

/-- What the base sale allocates to the vCPU. -/
def current (cfg : VCPUMarketConfig) (v : LibvirtVCPUController) : ℕ :=
  match branch cfg v with
  | .decrement => min (nominal cfg v) (demand cfg v)
  | _ => max minCycles (min (nominal cfg v) (demand cfg v))

/-- The vCPU needs more than its nominal share. -/
def isBuyer (cfg : VCPUMarketConfig) (v : LibvirtVCPUController) : Bool :=
  decide (nominal cfg v < demand cfg v)

/-- The part of its nominal share that the vCPU sells. -/
def credit (cfg : VCPUMarketConfig) (v : LibvirtVCPUController) : ℕ :=
  if isBuyer cfg v then 0 else nominal cfg v - demand cfg v

/-- The controller after the base sale. -/
def sold (cfg : VCPUMarketConfig) (v : LibvirtVCPUController) : LibvirtVCPUController :=
  { v with
    allocated := current cfg v
    buying :=
      if isBuyer cfg v then
        min (usub maxCycles (nominal cfg v)) (usub (demand cfg v) (nominal cfg v))
      else v.buying }

/-- The VM after the base sale. -/
def soldVM (cfg : VCPUMarketConfig) (vm : LibvirtVM) : LibvirtVM :=
  { vm with
    vcpuControllers := vm.vcpuControllers.map (sold cfg)
    money := vm.money + vmSum (credit cfg) vm }

/-! ## One vCPU -/

theorem sellBaseCyclesVCPU_settle (cfg : VCPUMarketConfig) (v : LibvirtVCPUController) (money : ℕ)
    (market : ℤ) :
    sellBaseCyclesVCPU cfg v money market = settle cfg v money market (demand cfg v) (current cfg v) := by
  by_cases hs : ((FloatVal.num (-1 / 10)).lt v.getSlope && v.getSlope.lt (.num (1 / 10))) = true
  · have hb : branch cfg v = .stable := by simp only [branch, hs, if_true]
    simp only [sellBaseCyclesVCPU, hs, if_true, current, demand, hb]
  · rw [Bool.not_eq_true] at hs
    by_cases hd : (v.getRelativePercentConsumption.div (.num 100)).lt (.num cfg.triggerDecrement) = true
    · have hb : branch cfg v = .decrement := by
        simp only [branch, hs, hd, Bool.false_eq_true, if_false, if_true]
      simp only [sellBaseCyclesVCPU, hs, hd, Bool.false_eq_true, if_false, if_true, current, demand, hb]
    · rw [Bool.not_eq_true] at hd
      by_cases hi : (FloatVal.num cfg.triggerIncrement).lt
          (v.getRelativePercentConsumption.div (.num 100)) = true
      · have hb : branch cfg v = .increment := by
          simp only [branch, hs, hd, hi, Bool.false_eq_true, if_false, if_true]
        simp only [sellBaseCyclesVCPU, hs, hd, hi, Bool.false_eq_true, if_false, if_true, current,
          demand, hb]
      · rw [Bool.not_eq_true] at hi
        have hb : branch cfg v = .between := by
          simp only [branch, hs, hd, hi, Bool.false_eq_true, if_false]
        simp only [sellBaseCyclesVCPU, hs, hd, hi, Bool.false_eq_true, if_false, current, demand, hb]

/-- The base sale of one vCPU in closed form. -/
theorem sellBaseCyclesVCPU_eq (cfg : VCPUMarketConfig) (v : LibvirtVCPUController) (money : ℕ)
    (market : ℤ) :
    sellBaseCyclesVCPU cfg v money market =
      { v := sold cfg v, money := money + credit cfg v, market := market - current cfg v,
        buyer := isBuyer cfg v } := by
  rw [sellBaseCyclesVCPU_settle]
  unfold settle
  by_cases h : demand cfg v > nominal cfg v
  · have hb : isBuyer cfg v = true := by simpa [isBuyer] using h
    simp only [h, if_true, sold, credit, hb, Nat.add_zero]
  · have hb : isBuyer cfg v = false := by simpa [isBuyer] using h
    simp only [h, if_false, sold, credit, hb, Bool.false_eq_true, usub_of_le (Nat.le_of_not_lt h)]

theorem current_le (cfg : VCPUMarketConfig) (v : LibvirtVCPUController) :
    current cfg v ≤ max minCycles (nominal cfg v) := by
  unfold current
  cases branch cfg v <;> simp only <;> omega

/-- The base sale gives at least the demand, up to the nominal share. -/
theorem min_le_current (cfg : VCPUMarketConfig) (v : LibvirtVCPUController) :
    min (nominal cfg v) (demand cfg v) ≤ current cfg v := by
  unfold current
  cases branch cfg v <;> simp only <;> omega

/-- With a nominal share above the floor, the base sale gives at least the floor. -/
theorem min_le_current_of_nominal {cfg : VCPUMarketConfig} {v : LibvirtVCPUController}
    (h : minCycles ≤ nominal cfg v) : minCycles ≤ current cfg v := by
  unfold current
  cases hb : branch cfg v with
  | decrement =>
    have hdemand : minCycles ≤ demand cfg v := by
      simp only [demand, hb]
      exact Nat.le_max_left _ _
    exact le_min h hdemand
  | _ => exact Nat.le_max_left _ _

/-! ## The loops -/

theorem sellBaseCyclesVM_eq (cfg : VCPUMarketConfig) (i j : ℕ) (cs : List LibvirtVCPUController)
    (money : ℕ) (market : ℤ) :
    ∃ ret, sellBaseCyclesVM cfg i j cs money market =
        (cs.map (sold cfg), money + (cs.map (credit cfg)).sum,
          market - ((cs.map (current cfg)).sum : ℕ), ret) ∧
      (∀ p, p ∈ ret ↔ p.vm = i ∧ j ≤ p.vcpu ∧ p.vcpu - j < cs.length ∧
        isBuyer cfg (cs.getD (p.vcpu - j) default) = true) ∧
      ret.Nodup ∧ ret.length ≤ cs.length := by
  induction cs generalizing j money market with
  | nil => exact ⟨[], by simp [sellBaseCyclesVM], by simp, List.nodup_nil, by simp⟩
  | cons c cs ih =>
    obtain ⟨ret, heq, hmem, hnd, hlen⟩ := ih (j + 1) (money + credit cfg c) (market - current cfg c)
    refine ⟨if isBuyer cfg c then ⟨i, j⟩ :: ret else ret, ?_, fun p => ?_, ?_, ?_⟩
    · simp only [sellBaseCyclesVM, sellBaseCyclesVCPU_eq, heq, List.map_cons, List.sum_cons]
      refine Prod.ext rfl (Prod.ext ?_ (Prod.ext ?_ rfl))
      · simp only; omega
      · simp only; omega
    · have hcons : p ∈ (if isBuyer cfg c then (⟨i, j⟩ : VCPURef) :: ret else ret) ↔
          (p = ⟨i, j⟩ ∧ isBuyer cfg c = true) ∨ p ∈ ret := by
        by_cases hb : isBuyer cfg c = true <;> simp [hb]
      rw [hcons, hmem]
      obtain ⟨pv, pc⟩ := p
      simp only [VCPURef.mk.injEq, List.length_cons]
      rcases Nat.lt_trichotomy pc j with hlt | rfl | hgt
      · constructor
        · rintro (⟨⟨_, h⟩, _⟩ | ⟨_, h, _⟩) <;> omega
        · rintro ⟨_, h, _⟩; omega
      · simp only [Nat.sub_self, List.getD_cons_zero]
        constructor
        · rintro (⟨⟨h1, _⟩, h2⟩ | ⟨_, h, _⟩)
          · exact ⟨h1, le_rfl, by omega, h2⟩
          · omega
        · rintro ⟨h1, _, _, h2⟩; exact Or.inl ⟨⟨h1, trivial⟩, h2⟩
      · have hsub : pc - j = pc - (j + 1) + 1 := by omega
        rw [hsub, List.getD_cons_succ]
        constructor
        · rintro (⟨⟨_, h⟩, _⟩ | ⟨h1, _, h3, h4⟩)
          · omega
          · exact ⟨h1, by omega, by omega, h4⟩
        · rintro ⟨h1, _, h3, h4⟩; exact Or.inr ⟨h1, by omega, by omega, h4⟩
    · split
      · refine List.nodup_cons.mpr ⟨fun hin => ?_, hnd⟩
        have := ((hmem _).mp hin).2.1
        simp only at this
        omega
      · exact hnd
    · split
      · simp only [List.length_cons]; omega
      · simp only [List.length_cons]; omega

theorem sellBaseCyclesFrom_eq (cfg : VCPUMarketConfig) (i : ℕ) (vms : List LibvirtVM) (market : ℤ)
    (n : ℕ) :
    ∃ ret, sellBaseCyclesFrom cfg i vms market n =
        (vms.map (soldVM cfg), market - (total (current cfg) vms : ℕ), n + vcpuCount vms, ret) ∧
      (∀ p, p ∈ ret ↔ i ≤ p.vm ∧ Valid vms ⟨p.vm - i, p.vcpu⟩ ∧
        isBuyer cfg (vcpuAt vms ⟨p.vm - i, p.vcpu⟩) = true) ∧
      ret.Nodup ∧ ret.length ≤ vcpuCount vms := by
  induction vms generalizing i market n with
  | nil =>
    exact ⟨[], by simp [sellBaseCyclesFrom, vcpuCount, total], by simp [Valid], List.nodup_nil, by simp⟩
  | cons vm vms ih =>
    obtain ⟨ret₁, heq₁, hmem₁, hnd₁, hlen₁⟩ :=
      sellBaseCyclesVM_eq cfg i 0 vm.vcpuControllers vm.money market
    obtain ⟨ret₂, heq₂, hmem₂, hnd₂, hlen₂⟩ := ih (i + 1)
      (market - ((vm.vcpuControllers.map (current cfg)).sum : ℕ)) (n + vm.vcpuControllers.length)
    have hcount : vmSum (fun _ => 1) vm = vm.vcpuControllers.length := by simp [vmSum]
    have htotal : ∀ m, total m (vm :: vms) = vmSum m vm + total m vms := fun m => by simp [total]
    unfold vcpuCount at *
    refine ⟨ret₁ ++ ret₂, ?_, fun p => ?_, ?_, ?_⟩
    · simp only [sellBaseCyclesFrom, heq₁, heq₂, List.map_cons]
      refine Prod.ext rfl (Prod.ext ?_ (Prod.ext ?_ rfl))
      · simp only [htotal, vmSum]; omega
      · simp only [htotal, hcount]; omega
    · rw [List.mem_append, hmem₁, hmem₂]
      obtain ⟨pv, pc⟩ := p
      simp only [Valid, vcpuAt, List.length_cons, Nat.sub_zero, Nat.zero_le, true_and]
      rcases Nat.lt_trichotomy pv i with hlt | rfl | hgt
      · constructor
        · rintro (⟨h, _⟩ | ⟨h, _⟩) <;> omega
        · rintro ⟨h, _⟩; omega
      · simp only [Nat.sub_self, List.getD_cons_zero]
        constructor
        · rintro (⟨_, h2, h3⟩ | ⟨h, _⟩)
          · exact ⟨le_rfl, ⟨by omega, h2⟩, h3⟩
          · omega
        · rintro ⟨_, ⟨_, h2⟩, h3⟩; exact Or.inl ⟨trivial, h2, h3⟩
      · have hsub : pv - i = pv - (i + 1) + 1 := by omega
        rw [hsub, List.getD_cons_succ]
        constructor
        · rintro (⟨h, _⟩ | ⟨_, ⟨h2, h3⟩, h4⟩)
          · omega
          · exact ⟨by omega, ⟨by omega, h3⟩, h4⟩
        · rintro ⟨_, ⟨h2, h3⟩, h4⟩; exact Or.inr ⟨by omega, ⟨by omega, h3⟩, h4⟩
    · refine List.nodup_append.mpr ⟨hnd₁, hnd₂, ?_⟩
      intro a ha b hb hab
      have h1 := ((hmem₁ a).mp ha).1
      have h2 := ((hmem₂ b).mp hb).1
      rw [hab] at h1
      omega
    · rw [htotal, hcount, List.length_append]
      omega

/-! ## The base sale of all VMs -/

/-- The base sale in closed form; its buyers are the vCPUs whose demand exceeds their nominal share,
each once. -/
theorem sellBaseCycles_spec (cfg : VCPUMarketConfig) (vms : List LibvirtVM) (market : ℤ) :
    (sellBaseCycles cfg vms market).vms = vms.map (soldVM cfg) ∧
    (sellBaseCycles cfg vms market).market = market - (total (current cfg) vms : ℕ) ∧
    (sellBaseCycles cfg vms market).nbVcpus = vcpuCount vms ∧
    (∀ p, p ∈ (sellBaseCycles cfg vms market).buyers ↔
      Valid vms p ∧ isBuyer cfg (vcpuAt vms p) = true) ∧
    (sellBaseCycles cfg vms market).buyers.Nodup ∧
    (sellBaseCycles cfg vms market).buyers.length ≤ vcpuCount vms := by
  obtain ⟨ret, heq, hmem, hnd, hlen⟩ := sellBaseCyclesFrom_eq cfg 0 vms market 0
  simp only [sellBaseCycles, heq]
  exact ⟨trivial, trivial, by omega, fun p => by simpa using hmem p, hnd, hlen⟩

theorem totalAllocated_map_soldVM (cfg : VCPUMarketConfig) (vms : List LibvirtVM) :
    totalAllocated (vms.map (soldVM cfg)) = total (current cfg) vms :=
  total_map (f := sold cfg) (fun _ => rfl) _

end VCPUMarket
