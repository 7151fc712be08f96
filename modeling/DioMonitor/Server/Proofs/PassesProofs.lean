import DioMonitor.Server.Passes
import DioMonitor.Server.Proofs.ControlProofs

/-!
# Proofs: the passes of the control loop, VM by VM

The pointers of the registry, of the copies and of the pass under way stay valid (`Wf`). While the vCPUs
of a frame with a market are sampled, and until the loop that averages them has fixed its end, every
running VM is sampled or still to be sampled, provided no other VM gets into the registry. So no average
divides by zero (`averages_sampled`).
-/

namespace ControlLoop

open Pointers

variable {ctl : Controller} {s s' : State} {e : Event} {p : ℕ}

/-! ## What a step can do -/

/-- A step, with what enables it. -/
inductive Stepped (ctl : Controller) (s : State) : Event → State → Prop where
  | began {freq : List ℕ} (h : s.place = .updateControllers) :
      Stepped ctl s (.beginSampling freq) { s with place := .sampling freq s.running }
  | sampled {freq : List ℕ} {read : ℕ → Reading} {p : ℕ} {todo : List ℕ}
      (h : s.place = .sampling freq (p :: todo)) :
      Stepped ctl s (.sample read) { s with
        place := .sampling freq todo, objects := s.objects.modify p (updateVM freq read) }
  | ended {freq : List ℕ} (h : s.place = .sampling freq []) :
      Stepped ctl s .endSampling { s with
        place := if s.i = 1 then .updateBeforeMarket else .waitFrame }
  | beganAveraging (h : s.place = .updateBeforeMarket) :
      Stepped ctl s .beginAveraging { s with place := .averaging s.running }
  | averaged {p : ℕ} {todo : List ℕ} {vm : LibvirtVM} (h : s.place = .averaging (p :: todo))
      (hvm : averageVM (s.vm p) = some vm) :
      Stepped ctl s .average { s with place := .averaging todo, objects := s.objects.set p vm }
  | divByZero {p : ℕ} {todo : List ℕ} (h : s.place = .averaging (p :: todo))
      (hvm : averageVM (s.vm p) = none) : Stepped ctl s .average { s with place := .dead }
  | endedAveraging (h : s.place = .averaging []) :
      Stepped ctl s .endAveraging { s with place := .market }
  | sold (h : s.place = .market) : Stepped ctl s .market (market ctl s)
  | waited (h : s.place = .waitFrame) :
      Stepped ctl s .waitFrame { s with i := s.i + 1, place := .updateControllers }
  | registered {vm : LibvirtVM} (hfresh : Controller.Fresh ctl.host vm) :
      Stepped ctl s (.register vm) { s with
        objects := s.objects ++ [vm], running := s.running ++ [s.objects.length] }
  | copied {name : Str} :
      Stepped ctl s (.copy name) { s with copies := s.copies ++ [removeCopy s name s.running] }
  | assigned {k : ℕ} {res : List ℕ} (h : s.copies[k]? = some res) :
      Stepped ctl s (.assign k) { s with running := res, copies := s.copies.eraseIdx k }
  | reset : Stepped ctl s .reset { s with objects :=
      if ctl.vcpuMarketEnabled then writeAll s.objects s.running (VCPUMarket.reset s.vms)
      else s.objects }

theorem step_cases (hstep : step ctl s e = some s') : Stepped ctl s e s' := by
  cases e with
  | beginSampling freq =>
    obtain ⟨hplace, heq⟩ := Option.ite_none_right_eq_some.mp hstep
    cases heq
    exact .began hplace
  | sample read =>
    simp only [step] at hstep
    split at hstep
    · rename_i freq p todo hplace
      cases hstep
      exact .sampled hplace
    · cases hstep
  | endSampling =>
    simp only [step] at hstep
    split at hstep
    · rename_i freq hplace
      cases hstep
      exact .ended hplace
    · cases hstep
  | beginAveraging =>
    obtain ⟨hplace, heq⟩ := Option.ite_none_right_eq_some.mp hstep
    cases heq
    exact .beganAveraging hplace
  | average =>
    simp only [step] at hstep
    split at hstep
    · rename_i p todo hplace
      split at hstep
      · rename_i vm hvm
        cases hstep
        exact .averaged hplace hvm
      · rename_i hvm
        cases hstep
        exact .divByZero hplace hvm
    · cases hstep
  | endAveraging =>
    obtain ⟨hplace, heq⟩ := Option.ite_none_right_eq_some.mp hstep
    cases heq
    exact .endedAveraging hplace
  | market =>
    obtain ⟨hplace, heq⟩ := Option.ite_none_right_eq_some.mp hstep
    cases heq
    exact .sold hplace
  | waitFrame =>
    obtain ⟨hplace, heq⟩ := Option.ite_none_right_eq_some.mp hstep
    cases heq
    exact .waited hplace
  | register vm =>
    obtain ⟨hcond, heq⟩ := Option.ite_none_right_eq_some.mp hstep
    cases heq
    exact .registered hcond.2
  | copy name =>
    obtain ⟨-, heq⟩ := Option.ite_none_right_eq_some.mp hstep
    cases heq
    exact .copied
  | assign k =>
    obtain ⟨-, heq⟩ := Option.ite_none_right_eq_some.mp hstep
    obtain ⟨res, hres, rfl⟩ := Option.map_eq_some_iff.mp heq
    exact .assigned hres
  | reset =>
    obtain ⟨-, heq⟩ := Option.ite_none_right_eq_some.mp hstep
    cases heq
    exact .reset

theorem step_sample {freq : List ℕ} {read : ℕ → Reading} {todo : List ℕ}
    (h : s.place = .sampling freq (p :: todo)) :
    step ctl s (.sample read) = some { s with
      place := .sampling freq todo, objects := s.objects.modify p (updateVM freq read) } := by
  simp only [step, h]

theorem step_endSampling {freq : List ℕ} (h : s.place = .sampling freq []) (hi : s.i = 1) :
    step ctl s .endSampling = some { s with place := .updateBeforeMarket } := by
  simp only [step, h, if_pos hi]

theorem step_beginAveraging (h : s.place = .updateBeforeMarket) :
    step ctl s .beginAveraging = some { s with place := .averaging s.running } :=
  if_pos h

theorem step_average {todo : List ℕ} {vm : LibvirtVM} (h : s.place = .averaging (p :: todo))
    (hvm : averageVM (s.vm p) = some vm) :
    step ctl s .average = some { s with place := .averaging todo, objects := s.objects.set p vm } := by
  simp only [step, h, hvm]

theorem step_average_none {todo : List ℕ} (h : s.place = .averaging (p :: todo))
    (hvm : averageVM (s.vm p) = none) : step ctl s .average = some { s with place := .dead } := by
  simp only [step, h, hvm]

/-! ## The pointers -/

/-- The VMs that the pass under way still has to visit. -/
def State.todo (s : State) : List ℕ :=
  match s.place with
  | .sampling _ todo => todo
  | .averaging todo => todo
  | _ => []

theorem todo_sampling {freq todo : List ℕ} (h : s.place = .sampling freq todo) : s.todo = todo := by
  rw [State.todo, h]

theorem todo_averaging {todo : List ℕ} (h : s.place = .averaging todo) : s.todo = todo := by
  rw [State.todo, h]

/-- Every pointer of the registry, of a copy of it and of a pass is valid. -/
structure Wf (s : State) : Prop where
  running : Valid s.objects.length s.running
  copies : ∀ res ∈ s.copies, Valid s.objects.length res
  todo : Valid s.objects.length s.todo

theorem removeCopy_valid {name : Str} {n : ℕ} {ps : List ℕ} (h : Valid n ps) :
    Valid n (removeCopy s name ps) := by
  induction ps with
  | nil => exact h
  | cons p ps ih =>
    unfold removeCopy
    split
    · exact ⟨by simp, fun q hq => h.lt q (List.mem_singleton.mp hq ▸ List.mem_cons_self ..)⟩
    · exact ih h.tail

/-- The market keeps the number of VMs, and no pass is under way after it. -/
theorem market_frame (ctl : Controller) (s : State) :
    (market ctl s).running = s.running ∧ (market ctl s).copies = s.copies ∧
      (market ctl s).objects.length = s.objects.length ∧
      ((market ctl s).place = .waitFrame ∨ (market ctl s).place = .dead) := by
  unfold market
  split
  · split <;> simp
  · simp

theorem wf_start : Wf start where
  running := .nil _
  copies := by simp [start]
  todo := .nil _

theorem wf_step (h : Wf s) (hstep : step ctl s e = some s') : Wf s' := by
  obtain ⟨hrunning, hcopies, htodo⟩ := h
  cases step_cases hstep with
  | began => exact ⟨hrunning, hcopies, hrunning⟩
  | @sampled freq read p todo hplace =>
    rw [todo_sampling hplace] at htodo
    have hlen : (s.objects.modify p (updateVM freq read)).length = s.objects.length := List.length_modify ..
    constructor
    · exact hrunning.mono hlen.ge
    · exact fun res hres => (hcopies res hres).mono hlen.ge
    · exact htodo.tail.mono hlen.ge
  | ended => exact ⟨hrunning, hcopies, by unfold State.todo; split <;> simp_all [Valid.nil]⟩
  | beganAveraging => exact ⟨hrunning, hcopies, hrunning⟩
  | @averaged p todo vm hplace hvm =>
    rw [todo_averaging hplace] at htodo
    have hlen : (s.objects.set p vm).length = s.objects.length := List.length_set ..
    constructor
    · exact hrunning.mono hlen.ge
    · exact fun res hres => (hcopies res hres).mono hlen.ge
    · exact htodo.tail.mono hlen.ge
  | divByZero | endedAveraging | waited => exact ⟨hrunning, hcopies, .nil _⟩
  | sold =>
    obtain ⟨hrun, hcopy, hlen, hplace⟩ := market_frame ctl s
    refine ⟨hrun ▸ hrunning.mono hlen.ge, hcopy ▸ fun res hres => (hcopies res hres).mono hlen.ge, ?_⟩
    rcases hplace with hplace | hplace <;> rw [State.todo, hplace] <;> exact .nil _
  | @registered vm hfresh =>
    have hlen : (s.objects ++ [vm]).length = s.objects.length + 1 := List.length_append
    have hle : s.objects.length ≤ (s.objects ++ [vm]).length := hlen ▸ Nat.le_succ _
    exact ⟨hlen ▸ hrunning.concat, fun res hres => (hcopies res hres).mono hle, htodo.mono hle⟩
  | copied =>
    refine ⟨hrunning, fun res hres => ?_, htodo⟩
    rcases List.mem_append.mp hres with hres | hres
    · exact hcopies res hres
    · rw [List.mem_singleton.mp hres]
      exact removeCopy_valid hrunning
  | assigned hres =>
    exact ⟨hcopies _ (List.mem_of_getElem? hres), fun res h => hcopies res (List.mem_of_mem_eraseIdx h), htodo⟩
  | reset =>
    have hlen : (if ctl.vcpuMarketEnabled then writeAll s.objects s.running (VCPUMarket.reset s.vms)
        else s.objects).length = s.objects.length := by
      split <;> simp
    exact ⟨hrunning.mono hlen.ge, fun res hres => (hcopies res hres).mono hlen.ge, htodo.mono hlen.ge⟩

/-! ## What a step does to a VM -/

theorem vm_modify_self (f : LibvirtVM → LibvirtVM) (place : Place) (hp : p < s.objects.length) :
    State.vm { s with place, objects := s.objects.modify p f } p = f (s.vm p) := by
  simp [State.vm, List.getD_eq_getElem?_getD, List.getElem?_eq_getElem hp]

theorem vm_modify_ne {f : LibvirtVM → LibvirtVM} {place : Place} {q : ℕ} (hne : p ≠ q) :
    State.vm { s with place, objects := s.objects.modify p f } q = s.vm q := by
  simp [State.vm, List.getD_eq_getElem?_getD, hne]

theorem vm_set_self {vm : LibvirtVM} {place : Place} (hp : p < s.objects.length) :
    State.vm { s with place, objects := s.objects.set p vm } p = vm := by
  simp [State.vm, List.getD_eq_getElem?_getD, hp]

theorem vm_set_ne {vm : LibvirtVM} {place : Place} {q : ℕ} (hne : p ≠ q) :
    State.vm { s with place, objects := s.objects.set p vm } q = s.vm q := by
  simp [State.vm, List.getD_eq_getElem?_getD, hne]

theorem vm_register (vm : LibvirtVM) (running : List ℕ) (hp : p < s.objects.length) :
    State.vm { s with objects := s.objects ++ [vm], running } p = s.vm p := by
  simp [State.vm, List.getD_eq_getElem?_getD, List.getElem?_append_left hp]

theorem vm_registered {vm : LibvirtVM} {running : List ℕ} :
    State.vm { s with objects := s.objects ++ [vm], running } s.objects.length = vm := by
  simp [State.vm, List.getD_eq_getElem?_getD]

/-- A reset empties the accounts of the running VMs. -/
theorem vm_reset (hp : p < s.objects.length) :
    State.vm { s with objects := writeAll s.objects s.running (VCPUMarket.reset s.vms) } p =
      if p ∈ s.running then { s.vm p with money := 0 } else s.vm p := by
  have hreset : VCPUMarket.reset s.vms = s.running.map fun p => { s.vm p with money := 0 } := by
    rw [VCPUMarket.reset, State.vms, readAll, List.map_map]
    rfl
  unfold State.vm
  rw [hreset]
  split
  · rename_i hmem
    exact getD_writeAll_map hp hmem
  · rename_i hmem
    exact getD_writeAll_of_not_mem hmem

/-! ## Averages -/

/-- Every vCPU of the VM was sampled since its creation or its last average. -/
def Sampled (s : State) (p : ℕ) : Prop := ∀ c ∈ (s.vm p).vcpuControllers, c.nbMicros ≠ 0

instance (s : State) (p : ℕ) : Decidable (Sampled s p) := inferInstanceAs (Decidable (∀ _ ∈ _, _))

/-- The VM is sampled, or the pass under way will visit it. -/
def Covered (s : State) (p : ℕ) : Prop := p ∈ s.todo ∨ Sampled s p

instance (s : State) (p : ℕ) : Decidable (Covered s p) := inferInstanceAs (Decidable (_ ∨ _))

/-- The VMs of a frame with a market are being sampled, or the loop that averages them has not fixed its
end yet. -/
def State.exposed (s : State) : Bool :=
  match s.place with
  | .sampling _ _ => s.i = 1
  | .updateBeforeMarket => true
  | _ => false

/-- While the loop is exposed no VM gets into the registry that would be averaged without a sample: no
VM with a vCPU is pushed, and no removal puts one back. -/
def InTime (s : State) : Event → Prop
  | .register vm => s.exposed = true → vm.vcpuControllers = []
  | .assign k => s.exposed = true → ∀ res ∈ s.copies[k]?, ∀ p ∈ res, Covered s p
  | _ => True

instance (s : State) : ∀ e, Decidable (InTime s e)
  | .register _ => inferInstanceAs (Decidable (_ → _))
  | .assign _ => inferInstanceAs (Decidable (_ → ∀ _ ∈ _, ∀ _ ∈ _, _))
  | .beginSampling _ | .sample _ | .endSampling | .beginAveraging | .average | .endAveraging | .market
  | .waitFrame | .copy _ | .reset => isTrue trivial

/-- The VMs that are to be averaged are sampled, or will be before. -/
structure Ready (s : State) : Prop where
  covered : s.exposed = true → ∀ p ∈ s.running, Covered s p
  averaging : ∀ todo, s.place = .averaging todo → ∀ p ∈ todo, Sampled s p

theorem Sampled.congr (h : Sampled s p) (hvm : (s'.vm p).vcpuControllers = (s.vm p).vcpuControllers) :
    Sampled s' p := by
  unfold Sampled at *
  rw [hvm]
  exact h

theorem sampled_updateVM {freq : List ℕ} {read : ℕ → Reading} (h : s'.vm p = updateVM freq read (s.vm p)) :
    Sampled s' p := by
  intro c hc
  rw [h] at hc
  obtain ⟨j, hj, rfl⟩ := List.mem_mapIdx.mp hc
  exact Nat.succ_ne_zero _

theorem ready_sample {freq : List ℕ} {read : ℕ → Reading} {todo : List ℕ} (hwf : Wf s) (h : Ready s)
    (hplace : s.place = .sampling freq (p :: todo)) :
    Ready { s with place := .sampling freq todo, objects := s.objects.modify p (updateVM freq read) } where
  covered := by
    intro hexposed q hq
    have hself := sampled_updateVM (vm_modify_self (updateVM freq read)
      (.sampling freq todo) (hwf.todo.lt p (by simp [todo_sampling hplace])))
    by_cases hpq : p = q
    · exact Or.inr (hpq ▸ hself)
    · rcases h.covered (by simpa [State.exposed, hplace] using hexposed) q hq with htodo | hsampled
      · refine Or.inl ?_
        rw [todo_sampling hplace] at htodo
        exact (List.mem_cons.mp htodo).resolve_left (Ne.symm hpq)
      · exact Or.inr (hsampled.congr (congrArg _ (vm_modify_ne hpq)))
  averaging := nofun

theorem ready_average {vm : LibvirtVM} {todo : List ℕ} (hwf : Wf s) (h : Ready s)
    (hplace : s.place = .averaging (p :: todo)) :
    Ready { s with place := .averaging todo, objects := s.objects.set p vm } where
  covered := nofun
  averaging := by
    intro todo' htodo' q hq
    cases htodo'
    have hnd : (p :: todo).Nodup := todo_averaging hplace ▸ hwf.todo.nodup
    have hne : p ≠ q := by
      rintro rfl
      exact (List.nodup_cons.mp hnd).1 hq
    exact (h.averaging _ hplace q (List.mem_cons_of_mem p hq)).congr (congrArg _ (vm_set_ne hne))

theorem ready_register {vm : LibvirtVM} (hwf : Wf s) (h : Ready s) (htime : InTime s (.register vm)) :
    Ready { s with objects := s.objects ++ [vm], running := s.running ++ [s.objects.length] } where
  covered := by
    intro hexposed q hq
    rcases List.mem_append.mp hq with hq | hq
    · have hsame := vm_register vm (s.running ++ [s.objects.length])
        (hwf.running.lt q hq)
      exact (h.covered hexposed q hq).imp_right fun hs => hs.congr (congrArg _ hsame)
    · rw [List.mem_singleton.mp hq]
      refine Or.inr fun c hc => ?_
      rw [vm_registered, htime hexposed] at hc
      cases hc
  averaging := by
    intro todo hplace q hq
    have hlt : q < s.objects.length := hwf.todo.lt q ((todo_averaging hplace).symm ▸ hq)
    exact (h.averaging todo hplace q hq).congr (congrArg _ (vm_register vm _ hlt))

theorem ready_reset (hwf : Wf s) (h : Ready s) :
    Ready { s with objects := writeAll s.objects s.running (VCPUMarket.reset s.vms) } := by
  have hsame : ∀ q < s.objects.length,
      (State.vm { s with objects := writeAll s.objects s.running (VCPUMarket.reset s.vms) }
        q).vcpuControllers = (s.vm q).vcpuControllers := by
    intro q hq
    rw [vm_reset hq]
    split <;> rfl
  constructor
  · intro hexposed q hq
    exact (h.covered hexposed q hq).imp_right fun hs => hs.congr (hsame q (hwf.running.lt q hq))
  · intro todo hplace q hq
    have hlt : q < s.objects.length := hwf.todo.lt q ((todo_averaging hplace).symm ▸ hq)
    exact (h.averaging todo hplace q hq).congr (hsame q hlt)

/-- Every step keeps the VMs ready, provided the registry changes in time. -/
theorem ready_step (hwf : Wf s) (h : Ready s) (htime : InTime s e) (hstep : step ctl s e = some s') :
    Ready s' := by
  cases step_cases hstep with
  | began => exact ⟨fun _ p hp => Or.inl hp, nofun⟩
  | sampled hplace => exact ready_sample hwf h hplace
  | ended hplace =>
    constructor
    · intro hexposed p hp
      by_cases hi : s.i = 1
      · have hcovered := h.covered (by simpa [State.exposed, hplace] using hi) p hp
        exact Or.inr (hcovered.resolve_left (by simp [todo_sampling hplace]))
      · simp [State.exposed, hi] at hexposed
    · intro todo htodo
      simp only at htodo
      split at htodo <;> cases htodo
  | beganAveraging hplace =>
    refine ⟨nofun, fun todo htodo p hp => ?_⟩
    cases htodo
    have hcovered := h.covered (by simp [State.exposed, hplace]) p hp
    exact hcovered.resolve_left (by simp [State.todo, hplace])
  | averaged hplace => exact ready_average hwf h hplace
  | divByZero | endedAveraging | waited => exact ⟨nofun, nofun⟩
  | sold =>
    obtain ⟨-, -, -, hplace⟩ := market_frame ctl s
    rcases hplace with hplace | hplace
    · exact ⟨by simp [State.exposed, hplace], by simp [hplace]⟩
    · exact ⟨by simp [State.exposed, hplace], by simp [hplace]⟩
  | registered => exact ready_register hwf h htime
  | copied => exact ⟨h.covered, h.averaging⟩
  | assigned hres => exact ⟨fun hexposed => htime hexposed _ hres, h.averaging⟩
  | reset =>
    split
    · exact ready_reset hwf h
    · exact h

/-- With every vCPU sampled, the averages of a VM divide by zero for none of them. -/
theorem averageVM_eq_none {vm : LibvirtVM} :
    averageVM vm = none ↔ ∃ c ∈ vm.vcpuControllers, c.nbMicros = 0 := by
  have hmap : averageVM vm = none ↔ vm.vcpuControllers.mapM (·.updateBeforeMarket) = none := by
    unfold averageVM
    cases vm.vcpuControllers.mapM (·.updateBeforeMarket) <;> simp
  rw [hmap, ListOption.mapM_eq_none]
  simp only [LibvirtVCPUController.updateBeforeMarket_eq_none]

theorem wf_run {events : List Event} (hrun : Transition.run (step ctl) start events = some s) : Wf s :=
  Transition.run_invariant (fun _ _ _ h hstep => wf_step h hstep) wf_start hrun

/-- A second VM with one vCPU. -/
def spareVM : LibvirtVM :=
  { (default : LibvirtVM) with
    id := "b".toList, vcpus := 1, freq := 600
    vcpuControllers := LibvirtVM.newControllers Controller.plainHost "b".toList 600 1 }

/-- The VM that a pass visits is sampled. -/
def reading : ℕ → Reading := fun _ => { cpu := 0, counter := 400000, elapsed := 1 }

/-- Two frames: in the first a VM is pushed while another one is sampled, in the second both are sampled,
and one is removed before the averages. -/
def twoFrames : List Event :=
  [.register Controller.plainVM, .beginSampling [2000], .register spareVM, .sample reading, .endSampling,
    .waitFrame, .beginSampling [2000], .sample reading, .copy "b".toList, .sample reading, .assign 0,
    .endSampling, .beginAveraging]

theorem twoFrames_run :
    (Transition.run (step Controller.plainController) start twoFrames).isSome = true := by
  decide +kernel

/-- The rest of the sampling pass reaches its end without a look at the VMs it did not plan to visit. -/
theorem exists_endSampling (ctl : Controller) {freq : List ℕ} (todo : List ℕ) (hplace : s.place = .sampling freq todo)
    (hp : p ∉ todo) :
    ∃ events s', Transition.run (step ctl) s events = some s' ∧ s'.place = .sampling freq [] ∧
      s'.i = s.i ∧ s'.running = s.running ∧ s'.vm p = s.vm p := by
  induction todo generalizing s with
  | nil => exact ⟨[], s, rfl, hplace, rfl, rfl, rfl⟩
  | cons q todo ih =>
    rw [List.mem_cons, not_or] at hp
    obtain ⟨events, s', hrun, hend, hi, hrunning, hvm⟩ :=
      ih (s := { s with place := .sampling freq todo, objects := s.objects.modify q (updateVM freq reading) })
        rfl hp.2
    refine ⟨.sample reading :: events, s', ?_, hend, hi, hrunning,
      hvm.trans (vm_modify_ne (Ne.symm hp.1))⟩
    rw [Transition.run_cons (step_sample hplace)]
    exact hrun

/-- A pass that has to average a VM without a sample ends in a division by zero. -/
theorem exists_divByZero (ctl : Controller) (todo : List ℕ) (hplace : s.place = .averaging todo) (hnd : todo.Nodup)
    (hp : p ∈ todo) (hzero : ∃ c ∈ (s.vm p).vcpuControllers, c.nbMicros = 0) :
    ∃ events s', Transition.run (step ctl) s events = some s' ∧ s'.place = .dead := by
  induction todo generalizing s with
  | nil => cases hp
  | cons q todo ih =>
    obtain ⟨hq, hnd⟩ := List.nodup_cons.mp hnd
    cases hvm : averageVM (s.vm q) with
    | none =>
      refine ⟨[.average], { s with place := .dead }, ?_, rfl⟩
      rw [Transition.run_cons (step_average_none hplace hvm), Transition.run_nil]
    | some vm =>
      have hpq : q ≠ p := by
        rintro rfl
        rw [averageVM_eq_none.mpr hzero] at hvm
        cases hvm
      obtain ⟨events, s', hrun, hdead⟩ :=
        ih (s := { s with place := .averaging todo, objects := s.objects.set q vm }) rfl hnd
          ((List.mem_cons.mp hp).resolve_left (Ne.symm hpq)) (by rwa [vm_set_ne hpq])
      refine ⟨.average :: events, s', ?_, hdead⟩
      rw [Transition.run_cons (step_average hplace hvm)]
      exact hrun

theorem exists_divByZero_of_unsampled (ctl : Controller) (hplace : s.place = .updateBeforeMarket) (hnd : s.running.Nodup)
    (hp : p ∈ s.running) (hzero : ∃ c ∈ (s.vm p).vcpuControllers, c.nbMicros = 0) :
    ∃ events s', Transition.run (step ctl) s events = some s' ∧ s'.place = .dead := by
  obtain ⟨events, s', hrun, hdead⟩ := exists_divByZero ctl
    (s := { s with place := .averaging s.running }) s.running rfl hnd hp hzero
  exact ⟨.beginAveraging :: events, s', by rwa [Transition.run_cons (step_beginAveraging hplace)], hdead⟩

/-- While the loop is exposed, a running VM that is neither sampled nor going to be kills the process
when nothing else happens. -/
theorem exists_divByZero_of_exposed (hexposed : s.exposed = true) (hnd : s.running.Nodup)
    (hp : p ∈ s.running) (hlate : p ∉ s.todo) (hzero : ∃ c ∈ (s.vm p).vcpuControllers, c.nbMicros = 0) :
    ∃ events s', Transition.run (step ctl) s events = some s' ∧ s'.place = .dead := by
  cases hat : s.place with
  | sampling freq todo =>
    have hi : s.i = 1 := by simpa [State.exposed, hat] using hexposed
    rw [todo_sampling hat] at hlate
    obtain ⟨events, s', hrun, hend, hi', hrunning, hvm⟩ := exists_endSampling ctl todo hat hlate
    obtain ⟨rest, t, hrest, hdead⟩ := exists_divByZero_of_unsampled ctl
      (s := { s' with place := .updateBeforeMarket }) rfl (hrunning ▸ hnd) (hrunning ▸ hp) (hvm ▸ hzero)
    refine ⟨events ++ .endSampling :: rest, t, ?_, hdead⟩
    rw [Transition.run_append hrun, Transition.run_cons (step_endSampling hend (hi'.trans hi))]
    exact hrest
  | updateBeforeMarket => exact exists_divByZero_of_unsampled ctl hat hnd hp hzero
  | updateControllers | averaging | market | waitFrame | dead =>
    simp [State.exposed, hat] at hexposed

/-- A VM with a vCPU that is pushed while the loop is exposed kills the process when nothing else happens
until it is averaged. -/
theorem late_registration {vm : LibvirtVM} (hwf : Wf s) (hexposed : s.exposed = true)
    (hfresh : Controller.Fresh ctl.host vm) (hvcpu : vm.vcpuControllers ≠ []) :
    ∃ events s', Transition.run (step ctl) s (.register vm :: events) = some s' ∧ s'.place = .dead := by
  have hplace : s.place ≠ .dead := by
    intro hdead
    simp [State.exposed, hdead] at hexposed
  have hregister : step ctl s (.register vm) = some { s with
      objects := s.objects ++ [vm], running := s.running ++ [s.objects.length] } :=
    if_pos ⟨hplace, hfresh⟩
  have hzero : ∃ c ∈ vm.vcpuControllers, c.nbMicros = 0 := by
    obtain ⟨c, hc⟩ := List.exists_mem_of_ne_nil _ hvcpu
    refine ⟨c, hc, ?_⟩
    rw [hfresh.2] at hc
    obtain ⟨i, -, rfl⟩ := List.mem_map.mp hc
    rfl
  simp only [Transition.run_cons hregister]
  refine exists_divByZero_of_exposed (p := s.objects.length) hexposed hwf.running.concat.nodup (by simp) ?_
    (by rwa [vm_registered])
  exact fun hmem => Nat.lt_irrefl _ (hwf.todo.lt _ hmem)

end ControlLoop
