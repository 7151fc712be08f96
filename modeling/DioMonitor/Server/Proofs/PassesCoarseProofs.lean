import DioMonitor.Server.Proofs.PassesProofs

/-!
# Proofs: a pass as one step

`Controller` takes a whole pass of the loop in one step. Its runs cover the runs of `ControlLoop` in which
a removal assigns what it copied: what the other threads do in the middle of a pass has the effect it would
have right after the pass, since a pass neither visits a VM that is pushed meanwhile nor skips one that is
removed (`run_coarse`).
-/

namespace ControlLoop

open Pointers

variable {ctl : Controller} {s s' : State} {e : Event} {p : ℕ}

/-- A removal assigns the copy of the registry that it would make now. -/
def Prompt (s : State) : Event → Prop
  | .assign k => ∃ name, LibvirtClient.hasVM s.vms name = true ∧
      s.copies[k]? = some (removeCopy s name s.running)
  | _ => True

/-! ## Runs of the system with whole passes -/

/-- Some run of `Controller` ends in this state. -/
def Reaches (ctl : Controller) (t : Controller.State) : Prop :=
  ∃ actions, Transition.run (Controller.step ctl) Controller.start actions = some t

/-- Some run of `Controller` ends with the death of the process. -/
def Dies (ctl : Controller) : Prop := ∃ t, Reaches ctl t ∧ t.next = .dead

theorem Reaches.step {t t' : Controller.State} {a : Controller.Action} (h : Reaches ctl t)
    (hstep : Controller.step ctl t a = some t') : Reaches ctl t' := by
  obtain ⟨actions, hrun⟩ := h
  refine ⟨actions ++ [a], ?_⟩
  rw [Transition.run_append hrun, Transition.run_cons hstep, Transition.run_nil]

/-! ## The end of the pass under way -/

/-- What a pass does to the vCPUs of the VM behind a pointer. -/
abbrev Visit := ℕ → List LibvirtVCPUController → List LibvirtVCPUController

/-- The sampling of a VM. -/
def sampleVisit (freq : List ℕ) (read : ℕ → ℕ → Reading) : Visit := fun p cs =>
  cs.mapIdx fun j c => c.update freq (read p j)

/-- The averages of a VM, when no division by zero interrupts them. -/
def averageVisit : Visit := fun _ cs => (cs.mapM LibvirtVCPUController.updateBeforeMarket).getD []

/-- The VM behind a pointer at the end of the pass under way. -/
def State.visited (s : State) (visit : Visit) (p : ℕ) : LibvirtVM :=
  if p ∈ s.todo then { s.vm p with vcpuControllers := visit p (s.vm p).vcpuControllers } else s.vm p

/-- The state at the end of the pass under way. -/
def State.coarse (s : State) (next : Controller.Next) (visit : Visit) : Controller.State :=
  { i := s.i, next, running := s.running.map (s.visited visit) }

theorem visited_of_mem {visit : Visit} (hp : p ∈ s.todo) :
    s.visited visit p = { s.vm p with vcpuControllers := visit p (s.vm p).vcpuControllers } :=
  if_pos hp

theorem visited_of_not_mem {visit : Visit} (hp : p ∉ s.todo) : s.visited visit p = s.vm p := if_neg hp

theorem visited_id (visit : Visit) (p : ℕ) : (s.visited visit p).id = (s.vm p).id := by
  unfold State.visited
  split <;> rfl

theorem coarse_of_todo {next : Controller.Next} (visit : Visit) (h : s.todo = []) :
    s.coarse next visit = { i := s.i, next, running := s.vms } := by
  have hsame : s.visited visit = s.vm := funext fun p => visited_of_not_mem (by simp [h])
  rw [State.coarse, hsame]
  rfl

/-- At the beginning of a pass. -/
theorem coarse_of_all {next : Controller.Next} {visit : Visit} (h : s.todo = s.running) :
    s.coarse next visit =
      { i := s.i, next, running := s.running.map fun p =>
          { s.vm p with vcpuControllers := visit p (s.vm p).vcpuControllers } } := by
  rw [State.coarse, List.map_congr_left fun p hp => visited_of_mem (h ▸ hp)]

theorem coarse_congr {next : Controller.Next} {visit visit' : Visit} (hi : s'.i = s.i)
    (hrunning : s'.running = s.running)
    (h : ∀ p ∈ s.running, s'.visited visit' p = s.visited visit p) :
    s'.coarse next visit' = s.coarse next visit := by
  unfold State.coarse
  rw [hi, hrunning, List.map_congr_left h]

/-! ## The other threads -/

theorem removeCopy_map {name : Str} {f : ℕ → LibvirtVM} (ps : List ℕ) (hid : ∀ p, (f p).id = (s.vm p).id) :
    LibvirtClient.removeCopy name (ps.map f) = (removeCopy s name ps).map f := by
  induction ps with
  | nil => rfl
  | cons p ps ih =>
    rw [List.map_cons, LibvirtClient.removeCopy, removeCopy, hid p]
    split
    · rfl
    · exact ih

theorem hasVM_map {name : Str} {f : ℕ → LibvirtVM} (hid : ∀ p, (f p).id = (s.vm p).id) :
    LibvirtClient.hasVM (s.running.map f) name = LibvirtClient.hasVM s.vms name := by
  unfold LibvirtClient.hasVM State.vms readAll
  rw [List.any_map, List.any_map]
  refine congrArg (s.running.any ·) (funext fun p => ?_)
  show decide ((f p).id = name) = decide ((s.vm p).id = name)
  rw [hid p]

theorem visited_register (vm : LibvirtVM) (visit : Visit) (hp : p < s.objects.length) :
    State.visited { s with objects := s.objects ++ [vm], running := s.running ++ [s.objects.length] }
      visit p = s.visited visit p := by
  have hvm := vm_register vm (s.running ++ [s.objects.length]) hp
  unfold State.visited
  rw [hvm]
  rfl

theorem visited_registered {vm : LibvirtVM} {visit : Visit} (hwf : Wf s) :
    State.visited { s with objects := s.objects ++ [vm], running := s.running ++ [s.objects.length] }
      visit s.objects.length = vm := by
  have hlate : s.objects.length ∉ s.todo := fun hmem => Nat.lt_irrefl _ (hwf.todo.lt _ hmem)
  exact (if_neg hlate).trans vm_registered

theorem coarse_register {vm : LibvirtVM} {next : Controller.Next} {visit : Visit} (hwf : Wf s)
    (hfresh : Controller.Fresh ctl.host vm) (hnext : next ≠ .dead)
    (h : Reaches ctl (s.coarse next visit)) :
    Reaches ctl (State.coarse { s with
      objects := s.objects ++ [vm], running := s.running ++ [s.objects.length] } next visit) := by
  refine h.step (a := .register vm) ((if_pos ⟨hnext, hfresh⟩).trans (congrArg some ?_))
  have hold := List.map_congr_left fun p hp =>
    visited_register vm visit (hwf.running.lt p hp)
  unfold State.coarse
  dsimp only
  rw [List.map_append, hold, List.map_singleton, visited_registered hwf]

theorem coarse_assign {k : ℕ} {res : List ℕ} {next : Controller.Next} {visit : Visit}
    (hprompt : Prompt s (.assign k)) (hres : s.copies[k]? = some res) (hnext : next ≠ .dead)
    (h : Reaches ctl (s.coarse next visit)) :
    Reaches ctl (State.coarse { s with running := res, copies := s.copies.eraseIdx k } next visit) := by
  obtain ⟨name, hhas, hcopy⟩ := hprompt
  obtain rfl : res = removeCopy s name s.running := Option.some.inj (hres.symm.trans hcopy)
  refine h.step (a := .kill name) ?_
  have hfound : LibvirtClient.hasVM (s.running.map (s.visited visit)) name = true := by
    rw [hasVM_map (visited_id visit), hhas]
  obtain ⟨vm, hvm⟩ := LibvirtClient.exists_getVM hfound
  have hkill : LibvirtClient.kill (s.running.map (s.visited visit)) name =
      (removeCopy s name s.running).map (s.visited visit) := by
    rw [LibvirtClient.kill, hvm]
    exact removeCopy_map s.running (visited_id visit)
  refine (if_pos hnext).trans (congrArg some ?_)
  rw [State.coarse, hkill]
  rfl

theorem visited_reset (visit : Visit) (hp : p ∈ s.running) (hlt : p < s.objects.length) :
    State.visited { s with objects := writeAll s.objects s.running (VCPUMarket.reset s.vms) } visit p =
      { s.visited visit p with money := 0 } := by
  have hvm := (vm_reset hlt).trans (if_pos hp)
  unfold State.visited
  rw [hvm]
  by_cases hmem : p ∈ s.todo
  · rw [if_pos hmem]
    exact if_pos hmem
  · rw [if_neg hmem]
    exact if_neg hmem

theorem coarse_reset {next : Controller.Next} {visit : Visit} (hwf : Wf s) (hnext : next ≠ .dead)
    (h : Reaches ctl (s.coarse next visit)) :
    Reaches ctl (State.coarse { s with objects :=
      if ctl.vcpuMarketEnabled then writeAll s.objects s.running (VCPUMarket.reset s.vms)
      else s.objects } next visit) := by
  refine h.step (a := .reset) ((if_pos hnext).trans (congrArg some ?_))
  split
  · have hreset := List.map_congr_left fun p hp => visited_reset visit hp (hwf.running.lt p hp)
    rw [State.coarse, State.coarse, hreset, VCPUMarket.reset, List.map_map]
    rfl
  · rfl

/-! ## Every run -/

/-- The step of `Controller` in front of which the loop is, outside its passes. -/
def Place.next : Place → Option Controller.Next
  | .updateControllers => some .updateControllers
  | .updateBeforeMarket => some .updateBeforeMarket
  | .market => some .market
  | .waitFrame => some .waitFrame
  | .sampling _ _ | .averaging _ | .dead => none

/-- Some run of `Controller` is where this state will be at the end of the pass under way. What the pass
will read is not known yet, and it may end with the death of the process. -/
structure Settled (ctl : Controller) (s : State) : Prop where
  outside : ∀ next, s.place.next = some next → Reaches ctl { i := s.i, next, running := s.vms }
  sampling : ∀ freq todo, s.place = .sampling freq todo → ∀ read,
    Reaches ctl (s.coarse (if s.i = 1 then .updateBeforeMarket else .waitFrame) (sampleVisit freq read))
  averaging : ∀ todo, s.place = .averaging todo → (∀ p ∈ todo, averageVM (s.vm p) ≠ none) →
    Reaches ctl (s.coarse .market averageVisit)
  failing : ∀ todo, s.place = .averaging todo → (∃ p ∈ todo, averageVM (s.vm p) = none) → Dies ctl
  dead : s.place = .dead → Dies ctl

theorem settled_start : Settled ctl start where
  outside := by
    intro next hnext
    cases hnext
    exact ⟨[], rfl⟩
  sampling := nofun
  averaging := nofun
  failing := nofun
  dead := nofun

theorem todo_outside {next : Controller.Next} (h : s.place.next = some next) : s.todo = [] := by
  unfold State.todo
  cases hplace : s.place with
  | sampling | averaging | dead => simp [Place.next, hplace] at h
  | updateControllers | updateBeforeMarket | market | waitFrame => rfl

theorem next_ne_dead {next : Controller.Next} (h : s.place.next = some next) : next ≠ .dead := by
  rintro rfl
  cases hplace : s.place <;> simp [Place.next, hplace] at h

theorem averageVM_none_congr {vm vm' : LibvirtVM} (h : vm'.vcpuControllers = vm.vcpuControllers) :
    averageVM vm' = none ↔ averageVM vm = none := by
  rw [averageVM_eq_none, averageVM_eq_none, h]

/-- A step of another thread. -/
theorem Settled.serve (h : Settled ctl s) (hplace : s'.place = s.place) (hi : s'.i = s.i)
    (hcoarse : ∀ next visit, next ≠ .dead → Reaches ctl (s.coarse next visit) →
      Reaches ctl (s'.coarse next visit))
    (hvcpus : ∀ p ∈ s.todo, (s'.vm p).vcpuControllers = (s.vm p).vcpuControllers) : Settled ctl s' := by
  have htodo : s'.todo = s.todo := by rw [State.todo, State.todo, hplace]
  have haverage : ∀ todo, s.place = .averaging todo → ∀ p ∈ todo,
      (averageVM (s'.vm p) = none ↔ averageVM (s.vm p) = none) := fun todo hat p hp =>
    averageVM_none_congr (hvcpus p ((todo_averaging hat).symm ▸ hp))
  constructor
  · intro next hnext
    have hidle : s.todo = [] := todo_outside (hplace ▸ hnext)
    have hreach := h.outside next (hplace ▸ hnext)
    rw [← coarse_of_todo averageVisit hidle] at hreach
    have hreach' := hcoarse next averageVisit (next_ne_dead hnext) hreach
    rwa [coarse_of_todo _ (htodo.trans hidle)] at hreach'
  · intro freq todo hat read
    rw [hi]
    exact hcoarse _ _ (by split <;> simp) (h.sampling freq todo (hplace ▸ hat) read)
  · intro todo hat hall
    have hat' : s.place = .averaging todo := hplace ▸ hat
    refine hcoarse _ _ (by simp) (h.averaging todo hat' fun p hp hnone => ?_)
    exact hall p hp ((haverage todo hat' p hp).mpr hnone)
  · rintro todo hat ⟨p, hp, hnone⟩
    have hat' : s.place = .averaging todo := hplace ▸ hat
    exact h.failing todo hat' ⟨p, hp, (haverage todo hat' p hp).mp hnone⟩
  · exact fun hdead => h.dead (hplace ▸ hdead)

/-- Outside a pass only the first condition says something. -/
theorem Settled.of_outside {next : Controller.Next} (hplace : s.place.next = some next)
    (h : Reaches ctl { i := s.i, next, running := s.vms }) : Settled ctl s where
  outside := by
    intro next' hnext'
    obtain rfl : next' = next := Option.some.inj (hnext'.symm.trans hplace)
    exact h
  sampling := by
    intro freq todo hat
    simp [hat, Place.next] at hplace
  averaging := by
    intro todo hat
    simp [hat, Place.next] at hplace
  failing := by
    intro todo hat
    simp [hat, Place.next] at hplace
  dead := by
    intro hat
    simp [hat, Place.next] at hplace

theorem Settled.of_dead (hplace : s.place = .dead) (h : Dies ctl) : Settled ctl s where
  outside := by
    intro next hnext
    simp [hplace, Place.next] at hnext
  sampling := by
    intro freq todo hat
    simp [hplace] at hat
  averaging := by
    intro todo hat
    simp [hplace] at hat
  failing := by
    intro todo hat
    simp [hplace] at hat
  dead := fun _ => h

/-- The whole sampling pass. -/
theorem updateVCPUControllers_vms (freq : List ℕ) (read : ℕ → ℕ → Reading) :
    LibvirtClient.updateVCPUControllers s.vms freq (fun i => read (s.running.getD i 0)) =
      s.running.map fun p =>
        { s.vm p with vcpuControllers := sampleVisit freq read p (s.vm p).vcpuControllers } := by
  unfold LibvirtClient.updateVCPUControllers State.vms readAll
  refine List.ext_getElem (by simp) fun k hk hk' => ?_
  rw [List.length_map] at hk'
  simp only [List.getElem_mapIdx, List.getElem_map, List.getD_eq_getElem _ _ hk']
  rfl

/-- The pass is taken as a whole when it begins, with what it will read. -/
theorem Settled.began {freq : List ℕ} (h : Settled ctl s) (hat : s.place = .updateControllers) :
    Settled ctl { s with place := .sampling freq s.running } where
  outside := nofun
  sampling := by
    intro freq' todo hplace read
    cases hplace
    have hreach := h.outside .updateControllers (by rw [hat]; rfl)
    refine hreach.step (a := .updateControllers freq fun i => read (s.running.getD i 0)) ?_
    rw [coarse_of_all rfl, Controller.step, if_pos rfl, updateVCPUControllers_vms]
    rfl
  averaging := nofun
  failing := nofun
  dead := nofun

theorem Settled.sampled {freq : List ℕ} {read : ℕ → Reading} {todo : List ℕ} (hwf : Wf s)
    (h : Settled ctl s) (hat : s.place = .sampling freq (p :: todo)) :
    Settled ctl { s with
      place := .sampling freq todo, objects := s.objects.modify p (updateVM freq read) } where
  outside := nofun
  sampling := by
    intro freq' todo' hplace read'
    cases hplace
    have htodo : s.todo = p :: todo := todo_sampling hat
    have hp : p ∈ s.todo := by simp [htodo]
    have hnd : (p :: todo).Nodup := htodo ▸ hwf.todo.nodup
    have hreach := h.sampling freq (p :: todo) hat (Function.update read' p read)
    refine Eq.mp (congrArg (Reaches ctl) (Eq.symm (coarse_congr (s := s) rfl rfl fun q _ => ?_))) hreach
    by_cases hpq : p = q
    · subst hpq
      have hleft : p ∉ State.todo { s with
          place := .sampling freq todo, objects := s.objects.modify p (updateVM freq read) } :=
        (List.nodup_cons.mp hnd).1
      rw [visited_of_mem hp, visited_of_not_mem hleft, vm_modify_self _ _ (hwf.todo.lt p hp), sampleVisit,
        Function.update_self]
      rfl
    · have hmem : q ∈ s.todo ↔ q ∈ todo := by simp [htodo, Ne.symm hpq]
      unfold State.visited sampleVisit
      rw [vm_modify_ne hpq, Function.update_of_ne (Ne.symm hpq)]
      simp only [hmem]
      rfl
  averaging := nofun
  failing := nofun
  dead := nofun

/-- The averages of a VM, when no division by zero interrupts them. -/
theorem averageVM_eq_some {vm : LibvirtVM} (h : averageVM vm ≠ none) :
    averageVM vm = some { vm with vcpuControllers := averageVisit 0 vm.vcpuControllers } := by
  unfold averageVM averageVisit at *
  cases hcs : vm.vcpuControllers.mapM LibvirtVCPUController.updateBeforeMarket with
  | none => simp [hcs] at h
  | some cs => rfl

/-- The whole pass of averages. -/
theorem updateVCPUBeforeMarket_vms (hall : ∀ p ∈ s.running, averageVM (s.vm p) ≠ none) :
    LibvirtClient.updateVCPUBeforeMarket s.vms = some (s.running.map fun p =>
      { s.vm p with vcpuControllers := averageVisit p (s.vm p).vcpuControllers }) := by
  refine ListOption.mapM_eq_some.mpr (List.forall₂_map_left_iff.mpr (List.forall₂_map_right_iff.mpr ?_))
  exact List.forall₂_same.mpr fun p hp => averageVM_eq_some (hall p hp)

theorem updateVCPUBeforeMarket_vms_none (hp : p ∈ s.running) (hnone : averageVM (s.vm p) = none) :
    LibvirtClient.updateVCPUBeforeMarket s.vms = none :=
  ListOption.mapM_eq_none.mpr ⟨s.vm p, List.mem_map_of_mem hp, hnone⟩

/-- The averages are taken as a whole when the pass begins. -/
theorem Settled.beganAveraging (h : Settled ctl s) (hat : s.place = .updateBeforeMarket) :
    Settled ctl { s with place := .averaging s.running } where
  outside := nofun
  sampling := nofun
  averaging := by
    intro todo hplace hall
    cases hplace
    have hreach := h.outside .updateBeforeMarket (by rw [hat]; rfl)
    refine hreach.step (a := .updateBeforeMarket) ?_
    rw [coarse_of_all rfl, Controller.step, if_pos rfl]
    simp only [updateVCPUBeforeMarket_vms hall]
    rfl
  failing := by
    rintro todo hplace ⟨p, hp, hnone⟩
    cases hplace
    have hreach := h.outside .updateBeforeMarket (by rw [hat]; rfl)
    refine ⟨{ i := s.i, next := .dead, running := s.vms }, hreach.step (a := .updateBeforeMarket) ?_, rfl⟩
    rw [Controller.step, if_pos rfl]
    simp only [updateVCPUBeforeMarket_vms_none hp hnone]
  dead := nofun

theorem Settled.averaged {vm : LibvirtVM} {todo : List ℕ} (hwf : Wf s) (h : Settled ctl s)
    (hat : s.place = .averaging (p :: todo)) (hvm : averageVM (s.vm p) = some vm) :
    Settled ctl { s with place := .averaging todo, objects := s.objects.set p vm } := by
  have htodo : s.todo = p :: todo := todo_averaging hat
  have hp : p ∈ s.todo := by simp [htodo]
  have hleft : p ∉ todo := (List.nodup_cons.mp (htodo ▸ hwf.todo.nodup)).1
  have hother : ∀ q ∈ todo, p ≠ q := by
    rintro q hq rfl
    exact hleft hq
  constructor
  · nofun
  · nofun
  · intro todo' hplace hall
    cases hplace
    have hreach : Reaches ctl (s.coarse .market averageVisit) := by
      refine h.averaging _ hat fun q hq hnone => ?_
      rcases List.mem_cons.mp hq with rfl | hq
      · rw [hvm] at hnone
        cases hnone
      · exact hall q hq (by rwa [vm_set_ne (hother q hq)])
    refine Eq.mp (congrArg (Reaches ctl) (Eq.symm (coarse_congr (s := s) rfl rfl fun q _ => ?_))) hreach
    by_cases hpq : p = q
    · subst hpq
      have hdone : p ∉ State.todo { s with
          place := .averaging todo, objects := s.objects.set p vm } := hleft
      have hne : averageVM (s.vm p) ≠ none := by simp [hvm]
      rw [visited_of_mem hp, visited_of_not_mem hdone, vm_set_self (hwf.todo.lt p hp)]
      exact Option.some.inj (hvm.symm.trans (averageVM_eq_some hne))
    · have hmem : q ∈ s.todo ↔ q ∈ todo := by simp [htodo, Ne.symm hpq]
      unfold State.visited
      rw [vm_set_ne hpq]
      simp only [hmem]
      rfl
  · rintro todo' hplace ⟨q, hq, hnone⟩
    cases hplace
    rw [vm_set_ne (hother q hq)] at hnone
    exact h.failing _ hat ⟨q, List.mem_cons_of_mem p hq, hnone⟩
  · nofun

/-- The market, on the running VMs. -/
theorem Settled.sold (hwf : Wf s) (h : Settled ctl s) (hat : s.place = .market) :
    Settled ctl (market ctl s) := by
  have hreach := h.outside .market (by rw [hat]; rfl)
  have hmarket : Reaches ctl (Controller.market ctl { i := s.i, next := .market, running := s.vms }) :=
    hreach.step (a := .market) (by rw [Controller.step, if_pos rfl])
  have hwritten : ∀ vms : List LibvirtVM, vms.length = s.vms.length →
      readAll default (writeAll s.objects s.running vms) s.running = vms := fun vms hlen =>
    readAll_writeAll hwf.running (by simp [hlen, State.vms, readAll])
  have hdone : ∀ vms : List LibvirtVM, vms.length = s.vms.length →
      Reaches ctl { i := 0, next := .waitFrame, running := vms } →
      Settled ctl { s with
        i := 0, place := .waitFrame, objects := writeAll s.objects s.running vms } := by
    intro vms hlen hvms
    refine .of_outside (show Place.waitFrame.next = some .waitFrame from rfl) ?_
    rwa [State.vms, hwritten vms hlen]
  unfold Controller.market at hmarket
  unfold market
  split
  · rename_i henabled
    rw [if_pos henabled] at hmarket
    split
    · rename_i hrun
      simp only [hrun] at hmarket
      exact hdone s.vms rfl hmarket
    · rename_i vms hrun
      simp only [hrun] at hmarket
      refine hdone vms ?_ hmarket
      rw [(VCPUMarket.run_overAllocated hrun).2, VCPUMarket.baseSale_vms, List.length_map]
    · rename_i hrun
      simp only [hrun] at hmarket
      exact .of_dead rfl ⟨_, hmarket, rfl⟩
    · rename_i vms hrun
      simp only [hrun] at hmarket
      exact hdone vms (VCPUMarket.length_applied hrun) hmarket
  · rename_i henabled
    rw [if_neg henabled] at hmarket
    exact hdone s.vms rfl hmarket

/-- Every step keeps the system with whole passes in step. -/
theorem settled_step (hwf : Wf s) (h : Settled ctl s) (hprompt : Prompt s e)
    (hstep : step ctl s e = some s') : Settled ctl s' := by
  cases step_cases hstep with
  | began hat => exact h.began hat
  | sampled hat => exact h.sampled hwf hat
  | @ended freq hat =>
    have hreach := h.sampling freq [] hat fun _ => reading
    rw [coarse_of_todo _ (todo_sampling hat)] at hreach
    refine .of_outside ?_ hreach
    split <;> rfl
  | beganAveraging hat => exact h.beganAveraging hat
  | averaged hat hvm => exact h.averaged hwf hat hvm
  | divByZero hat hvm => exact .of_dead rfl (h.failing _ hat ⟨_, List.mem_cons_self .., hvm⟩)
  | endedAveraging hat =>
    have hreach := h.averaging [] hat (by simp)
    rw [coarse_of_todo _ (todo_averaging hat)] at hreach
    exact .of_outside rfl hreach
  | sold hat => exact h.sold hwf hat
  | waited hat =>
    have hreach := h.outside .waitFrame (by rw [hat]; rfl)
    refine .of_outside rfl (hreach.step (a := .waitFrame) ?_)
    rw [Controller.step, if_pos rfl]
    rfl
  | registered hfresh =>
    refine h.serve rfl rfl (fun _ _ hnext => coarse_register hwf hfresh hnext) fun p hp => ?_
    exact congrArg _ (vm_register _ _ (hwf.todo.lt p hp))
  | copied => exact h.serve rfl rfl (fun _ _ _ hreach => hreach) fun _ _ => rfl
  | assigned hres => exact h.serve rfl rfl (fun _ _ => coarse_assign hprompt hres) fun _ _ => rfl
  | reset =>
    refine h.serve rfl rfl (fun _ _ => coarse_reset hwf) fun p hp => ?_
    split
    · rw [vm_reset (hwf.todo.lt p hp)]
      split <;> rfl
    · rfl

/-- A run that takes its passes VM by VM, and whose removals assign what they copied, ends in a state of
the system that takes them as a whole. -/
theorem run_coarse (ctl : Controller) {events : List Event} {next : Controller.Next}
    (hrun : Transition.run (step ctl) start events = some s)
    (hprompt : Transition.Guarded (step ctl) Prompt start events) (hplace : s.place.next = some next) :
    ∃ actions, Transition.run (Controller.step ctl) Controller.start actions =
      some { i := s.i, next, running := s.vms } := by
  have hsettled : Wf s ∧ Settled ctl s := by
    refine Transition.run_invariant_of_guarded (P := fun s => Wf s ∧ Settled ctl s) ?_
      ⟨wf_start, settled_start⟩ (Transition.throughout_true start events) hprompt hrun
    exact fun s e s' h _ hprompt hstep => ⟨wf_step h.1 hstep, settled_step h.1 h.2 hprompt hstep⟩
  exact hsettled.2.outside next hplace

end ControlLoop
