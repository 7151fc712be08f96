import DioMonitor.Market.Vcpu
import DioMonitor.Lib.ListSum

/-!
# Proofs: writing through pointers to controllers

What `updateAt` changes at a valid pointer and what it leaves alone, and the sums over the vCPUs of
one VM (`vmSum`) and of all VMs (`total`).
-/

namespace VCPUMarket

/-- `p` points to a vCPU of a running VM. -/
def Valid (vms : List LibvirtVM) (p : VCPURef) : Prop :=
  p.vm < vms.length ∧ p.vcpu < (vms.getD p.vm default).vcpuControllers.length

instance (vms : List LibvirtVM) (p : VCPURef) : Decidable (Valid vms p) :=
  inferInstanceAs (Decidable (_ ∧ _))

/-- The sum of a quantity over the vCPUs of a VM. -/
def vmSum (m : LibvirtVCPUController → ℕ) (vm : LibvirtVM) : ℕ := (vm.vcpuControllers.map m).sum

/-- The sum of a quantity over the vCPUs of all VMs. -/
def total (m : LibvirtVCPUController → ℕ) (vms : List LibvirtVM) : ℕ := (vms.map (vmSum m)).sum

/-- The cycles allocated to all the vCPUs. -/
def totalAllocated (vms : List LibvirtVM) : ℕ := total (·.allocated) vms

/-- The number of vCPUs. -/
def vcpuCount (vms : List LibvirtVM) : ℕ := total (fun _ => 1) vms

/-- What a VM owns: the cycles allocated to its vCPUs and its account. -/
def worth (vm : LibvirtVM) : ℕ := vmSum (·.allocated) vm + vm.money

variable {vms : List LibvirtVM} {p q : VCPURef} {a : ℕ → ℕ}
  {f : LibvirtVCPUController → LibvirtVCPUController}

@[simp] theorem updateAt_length (p : VCPURef) (a : ℕ → ℕ)
    (f : LibvirtVCPUController → LibvirtVCPUController) :
    (updateAt vms p a f).length = vms.length := by
  simp [updateAt]

/-- The VM that `updateAt` writes to. -/
theorem updateAt_getD_self (h : p.vm < vms.length) :
    (updateAt vms p a f).getD p.vm default = updateVM p.vcpu a f (vms.getD p.vm default) :=
  ListSum.getD_modify_self _ _ _ h

/-- The other VMs stay as they are. -/
theorem updateAt_getD_ne {i : ℕ} (h : p.vm ≠ i) :
    (updateAt vms p a f).getD i default = vms.getD i default :=
  ListSum.getD_modify_ne _ _ _ h

theorem valid_updateAt : Valid (updateAt vms p a f) q ↔ Valid vms q := by
  unfold Valid
  rw [updateAt_length]
  by_cases h : p.vm = q.vm
  · refine and_congr_right fun hq => ?_
    rw [← h] at hq ⊢
    rw [updateAt_getD_self hq]
    simp [updateVM]
  · rw [updateAt_getD_ne h]

/-- The controller that `updateAt` writes to. -/
theorem vcpuAt_updateAt_self (h : Valid vms p) :
    vcpuAt (updateAt vms p a f) p = f (vcpuAt vms p) := by
  unfold vcpuAt
  rw [updateAt_getD_self h.1]
  exact ListSum.getD_modify_self _ _ _ h.2

/-- The other controllers stay as they are. -/
theorem vcpuAt_updateAt_ne (h : p ≠ q) (hp : p.vm < vms.length) :
    vcpuAt (updateAt vms p a f) q = vcpuAt vms q := by
  unfold vcpuAt
  by_cases hvm : p.vm = q.vm
  · have hvcpu : p.vcpu ≠ q.vcpu := by
      intro hc
      exact h (by cases p; cases q; simp_all)
    rw [← hvm, updateAt_getD_self hp]
    exact ListSum.getD_modify_ne _ _ _ hvcpu
  · rw [updateAt_getD_ne hvm]

/-- The account of the VM that `updateAt` writes to, seen from any of its vCPUs. -/
theorem moneyAt_updateAt_same (h : p.vm < vms.length) (hvm : p.vm = q.vm) :
    moneyAt (updateAt vms p a f) q = a (moneyAt vms q) := by
  unfold moneyAt
  rw [← hvm, updateAt_getD_self h]
  rfl

theorem moneyAt_updateAt_ne (hvm : p.vm ≠ q.vm) :
    moneyAt (updateAt vms p a f) q = moneyAt vms q := by
  unfold moneyAt
  rw [updateAt_getD_ne hvm]

/-- Adding `n` to a quantity of one vCPU adds `n` to its sum over the VM. -/
theorem vmSum_updateAt {m : LibvirtVCPUController → ℕ} {n : ℕ} (h : Valid vms p)
    (hm : m (f (vcpuAt vms p)) = m (vcpuAt vms p) + n) :
    vmSum m ((updateAt vms p a f).getD p.vm default) = vmSum m (vms.getD p.vm default) + n := by
  rw [updateAt_getD_self h.1]
  have hsum := ListSum.sum_map_modify m (vms.getD p.vm default).vcpuControllers f default h.2
  unfold vcpuAt at hm
  unfold vmSum updateVM
  dsimp only
  omega

/-- Adding `n` to a quantity of one vCPU adds `n` to its sum over all VMs. -/
theorem total_updateAt {m : LibvirtVCPUController → ℕ} {n : ℕ} (h : Valid vms p)
    (hm : m (f (vcpuAt vms p)) = m (vcpuAt vms p) + n) :
    total m (updateAt vms p a f) = total m vms + n := by
  have hvm := vmSum_updateAt (a := a) h hm
  have hsum := ListSum.sum_map_modify (vmSum m) vms (updateVM p.vcpu a f) default h.1
  rw [updateAt_getD_self h.1] at hvm
  unfold total updateAt
  omega

/-! ## All vCPUs at once -/

/-- The controller behind a valid pointer. -/
theorem vcpuAt_eq (h : Valid vms p) :
    ∃ (h1 : p.vm < vms.length) (h2 : p.vcpu < (vms[p.vm]).vcpuControllers.length),
      vcpuAt vms p = (vms[p.vm]).vcpuControllers[p.vcpu] := by
  obtain ⟨h1, h2⟩ := h
  have hget : vms.getD p.vm default = vms[p.vm] := List.getD_eq_getElem _ _ h1
  rw [hget] at h2
  refine ⟨h1, h2, ?_⟩
  unfold vcpuAt
  rw [hget, List.getD_eq_getElem _ _ h2]

/-- Every vCPU of every VM is reached through a valid pointer. -/
theorem forall_vcpuAt {P : LibvirtVCPUController → Prop} :
    (∀ p, Valid vms p → P (vcpuAt vms p)) ↔ ∀ vm ∈ vms, ∀ c ∈ vm.vcpuControllers, P c := by
  constructor
  · intro h vm hvm c hc
    obtain ⟨i, hi, rfl⟩ := List.getElem_of_mem hvm
    obtain ⟨j, hj, rfl⟩ := List.getElem_of_mem hc
    have hget : vms.getD i default = vms[i] := List.getD_eq_getElem _ _ hi
    have hvalid : Valid vms ⟨i, j⟩ := ⟨hi, by rw [hget]; exact hj⟩
    have hP := h _ hvalid
    obtain ⟨_, _, heq⟩ := vcpuAt_eq hvalid
    rwa [heq] at hP
  · intro h p hp
    obtain ⟨h1, h2, heq⟩ := vcpuAt_eq hp
    rw [heq]
    exact h _ (List.getElem_mem h1) _ (List.getElem_mem h2)

/-- Pointers are valid as soon as there is a controller behind them. -/
theorem valid_iff : Valid vms p ↔ p.vcpu < (vms.getD p.vm default).vcpuControllers.length := by
  refine ⟨And.right, fun h => ⟨?_, h⟩⟩
  by_contra hp
  have hget : vms.getD p.vm default = default := List.getD_eq_default _ _ (not_lt.mp hp)
  rw [hget] at h
  exact absurd h (Nat.not_lt_zero _)

/-- Two lists with the same pointers have the same sums of quantities that agree behind each pointer. -/
theorem vmSum_congr {ws : List LibvirtVM} {m m' : LibvirtVCPUController → ℕ}
    (hv : ∀ p, Valid ws p ↔ Valid vms p)
    (h : ∀ p, Valid vms p → m (vcpuAt ws p) = m' (vcpuAt vms p)) (i : ℕ) :
    vmSum m (ws.getD i default) = vmSum m' (vms.getD i default) := by
  have hlen : (ws.getD i default).vcpuControllers.length = (vms.getD i default).vcpuControllers.length := by
    refine Nat.le_antisymm (not_lt.mp fun hlt => ?_) (not_lt.mp fun hlt => ?_)
    · exact absurd (valid_iff.mp ((hv ⟨i, _⟩).mp (valid_iff.mpr hlt))) (lt_irrefl _)
    · exact absurd (valid_iff.mp ((hv ⟨i, _⟩).mpr (valid_iff.mpr hlt))) (lt_irrefl _)
  unfold vmSum
  refine congrArg List.sum (List.ext_getElem (by rw [List.length_map, List.length_map, hlen])
    fun j h1 h2 => ?_)
  rw [List.length_map] at h1 h2
  have hj := h ⟨i, j⟩ (valid_iff.mpr h2)
  rw [List.getElem_map, List.getElem_map]
  rwa [vcpuAt, vcpuAt, List.getD_eq_getElem _ _ h1, List.getD_eq_getElem _ _ h2] at hj

theorem vcpuCount_pos (h : Valid vms p) : 0 < vcpuCount vms := by
  have h1 : vms.getD p.vm default ∈ vms := by
    rw [List.getD_eq_getElem _ _ h.1]
    exact List.getElem_mem h.1
  have h2 : vmSum (fun _ => 1) (vms.getD p.vm default) ≤ vcpuCount vms :=
    List.single_le_sum (fun _ _ => Nat.zero_le _) _ (List.mem_map_of_mem h1)
  have h3 : vmSum (fun _ => 1) (vms.getD p.vm default) =
      (vms.getD p.vm default).vcpuControllers.length := by simp [vmSum]
  have := h.2
  omega

theorem total_mono {m m' : LibvirtVCPUController → ℕ} (h : ∀ c, m c ≤ m' c) (vms : List LibvirtVM) :
    total m vms ≤ total m' vms :=
  List.sum_le_sum fun _ _ => List.sum_le_sum fun c _ => h c

theorem vmSum_add (m m' : LibvirtVCPUController → ℕ) (vm : LibvirtVM) :
    vmSum (fun c => m c + m' c) vm = vmSum m vm + vmSum m' vm :=
  List.sum_map_add

theorem total_add (m m' : LibvirtVCPUController → ℕ) (vms : List LibvirtVM) :
    total (fun c => m c + m' c) vms = total m vms + total m' vms := by
  unfold total
  rw [List.map_congr_left fun vm _ => vmSum_add m m' vm, List.sum_map_add]

theorem total_const (n : ℕ) (vms : List LibvirtVM) : total (fun _ => n) vms = n * vcpuCount vms := by
  have h : ∀ vm, vmSum (fun _ => n) vm = n * vmSum (fun _ => 1) vm := fun vm => by
    simp [vmSum, Nat.mul_comm]
  unfold vcpuCount total
  rw [List.map_congr_left fun vm _ => h vm, List.sum_map_mul_left]

/-- Without vCPUs every sum over the vCPUs is empty. -/
theorem total_eq_zero (h : vcpuCount vms = 0) (m : LibvirtVCPUController → ℕ) : total m vms = 0 := by
  unfold total
  apply List.sum_eq_zero
  intro n hn
  obtain ⟨vm, hvm, rfl⟩ := List.mem_map.mp hn
  have hle : vmSum (fun _ => 1) vm ≤ vcpuCount vms :=
    List.single_le_sum (fun _ _ => Nat.zero_le _) _ (List.mem_map_of_mem hvm)
  have hnil : vm.vcpuControllers = [] := by
    rw [h] at hle
    simpa [vmSum] using hle
  rw [vmSum, hnil]
  rfl

section Map

variable {g : LibvirtVM → LibvirtVM}

theorem valid_map (hg : ∀ vm, (g vm).vcpuControllers = vm.vcpuControllers.map f) :
    Valid (vms.map g) p ↔ Valid vms p := by
  unfold Valid
  rw [List.length_map]
  refine and_congr_right fun hp => ?_
  simp [List.getD_eq_getElem?_getD, List.getElem?_eq_getElem hp, hg]

/-- The controller behind a pointer after a change of all controllers. -/
theorem vcpuAt_map (hg : ∀ vm, (g vm).vcpuControllers = vm.vcpuControllers.map f) (hp : Valid vms p) :
    vcpuAt (vms.map g) p = f (vcpuAt vms p) := by
  obtain ⟨h1, h2, heq⟩ := vcpuAt_eq hp
  obtain ⟨_, _, heq'⟩ := vcpuAt_eq ((valid_map hg).mpr hp)
  rw [heq, heq']
  simp [hg]

theorem total_map (hg : ∀ vm, (g vm).vcpuControllers = vm.vcpuControllers.map f)
    (m : LibvirtVCPUController → ℕ) : total m (vms.map g) = total (fun c => m (f c)) vms := by
  simp only [total, List.map_map]
  refine congrArg List.sum (List.map_congr_left fun vm _ => ?_)
  simp [vmSum, hg, Function.comp_def]

end Map

end VCPUMarket
