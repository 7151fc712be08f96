import DioMonitor.Libvirt.Client
import Mathlib.Data.List.Nodup

/-!
# Proofs: the registry of running VMs

`live` says which VMs a history of requests leaves alive. The registry follows it as long as no VM is
killed while more than two are running: the loop of `removeVM` stops after the first VM it copies, so
all but one of the other VMs are lost.
-/

namespace LibvirtClient

/-- What a request means for the live VMs. -/
def liveStep (vms : List LibvirtVM) : Request → List LibvirtVM
  | .provision vm => vms ++ [vm]
  | .kill name => vms.filter (·.id ≠ name)

/-- The VMs provisioned and not killed since, in the order of their provision. -/
def live (history : List Request) : List LibvirtVM := history.foldl liveStep []

/-- The registry is exactly the list of the live VMs, with no name twice, and answers accordingly. -/
structure Tracks (running vms : List LibvirtVM) : Prop where
  eq : running = vms
  nodup : (vms.map (·.id)).Nodup
  hasVM : ∀ name, hasVM running name = true ↔ ∃ vm ∈ vms, vm.id = name
  getVM : ∀ name vm, getVM running name = some vm ↔ vm ∈ vms ∧ vm.id = name

/-- A kill only reaches a registered VM while at most two VMs are registered. -/
def KillsFew (running : List LibvirtVM) (r : Request) : Prop :=
  ∀ name, r = .kill name → hasVM running name = true → running.length ≤ 2

theorem live_append (h : List Request) (r : Request) : live (h ++ [r]) = liveStep (live h) r := by
  simp [live]

variable {running : List LibvirtVM} {name : Str}

theorem hasVM_iff : hasVM running name = true ↔ ∃ vm ∈ running, vm.id = name := by
  simp [hasVM]

theorem getVM_eq_none : getVM running name = none ↔ hasVM running name = false := by
  simp [getVM, hasVM]

theorem exists_getVM (h : hasVM running name = true) : ∃ vm, getVM running name = some vm := by
  cases hg : getVM running name with
  | none => rw [getVM_eq_none.mp hg] at h; cases h
  | some vm => exact ⟨vm, rfl⟩

theorem getVM_isSome : (getVM running name).isSome = hasVM running name := by
  cases hhas : hasVM running name with
  | false => rw [getVM_eq_none.mpr hhas]; rfl
  | true =>
    obtain ⟨vm, hvm⟩ := exists_getVM hhas
    rw [hvm]
    rfl

theorem hasVM_append {vm : LibvirtVM} :
    hasVM (running ++ [vm]) name = (hasVM running name || decide (vm.id = name)) := by
  simp [hasVM]

/-- A VM whose name is free keeps the names different. -/
theorem nodup_append_of_hasVM {vm : LibvirtVM} (hnd : (running.map (·.id)).Nodup)
    (hfree : hasVM running vm.id = false) : ((running ++ [vm]).map (·.id)).Nodup := by
  rw [List.map_append]
  refine List.nodup_append.mpr ⟨hnd, by simp, ?_⟩
  intro a ha b hb hab
  obtain ⟨vm', hmem, rfl⟩ := List.mem_map.mp ha
  obtain rfl : b = vm.id := by simpa using hb
  rw [hasVM_iff.mpr ⟨vm', hmem, hab⟩] at hfree
  cases hfree

/-- Names that occur once identify the VM that `getVM` finds. -/
theorem getVM_iff (hnd : (running.map (·.id)).Nodup) {vm : LibvirtVM} :
    getVM running name = some vm ↔ vm ∈ running ∧ vm.id = name := by
  constructor
  · intro h
    exact ⟨List.mem_of_find?_eq_some h, by simpa using List.find?_some h⟩
  · rintro ⟨hmem, rfl⟩
    cases h : getVM running vm.id with
    | none => exact absurd (hasVM_iff.mpr ⟨vm, hmem, rfl⟩) (by simp [getVM_eq_none.mp h])
    | some vm' =>
      have hmem' : vm' ∈ running := List.mem_of_find?_eq_some h
      have hid : vm'.id = vm.id := by simpa using List.find?_some h
      rw [List.inj_on_of_nodup_map hnd hmem' hmem hid]

theorem Tracks.of_nodup (hnd : (running.map (·.id)).Nodup) : Tracks running running :=
  ⟨rfl, hnd, fun _ => hasVM_iff, fun _ _ => getVM_iff hnd⟩

/-! ## Killing -/

theorem removeCopy_length (name : Str) (vms : List LibvirtVM) : (removeCopy name vms).length ≤ 1 := by
  induction vms with
  | nil => simp [removeCopy]
  | cons vm vms ih =>
    unfold removeCopy
    split
    · simp
    · exact ih

theorem removeCopy_sublist (name : Str) (vms : List LibvirtVM) : (removeCopy name vms).Sublist vms := by
  induction vms with
  | nil => exact List.Sublist.refl _
  | cons vm vms ih =>
    unfold removeCopy
    split
    · exact (List.nil_sublist _).cons_cons vm
    · exact ih.cons vm

/-- Of two VMs the copy keeps all but those with the name. -/
theorem removeCopy_of_le_two (hlen : running.length ≤ 2) (hhas : hasVM running name = true) :
    removeCopy name running = running.filter (·.id ≠ name) := by
  obtain ⟨vm, hmem, hid⟩ := hasVM_iff.mp hhas
  match running, hlen with
  | [], _ => cases hmem
  | [a], _ =>
    obtain rfl : vm = a := by simpa using hmem
    simp [removeCopy, hid]
  | [a, b], _ =>
    by_cases ha : a.id = name
    · by_cases hb : b.id = name <;> simp [removeCopy, ha, hb]
    · have hb : b.id = name := by
        rcases List.mem_pair.mp hmem with rfl | rfl
        · exact absurd hid ha
        · exact hid
      simp [removeCopy, ha, hb]

theorem filter_kill_absent (h : hasVM running name = false) :
    running.filter (·.id ≠ name) = running := by
  apply List.filter_eq_self.mpr
  intro vm hmem
  have hid : vm.id ≠ name := fun hid => by
    rw [hasVM_iff.mpr ⟨vm, hmem, hid⟩] at h
    cases h
  simpa using hid

/-- Distinct names: killing takes one VM from the list. -/
theorem length_filter_kill (hnd : (running.map (·.id)).Nodup) (hhas : hasVM running name = true) :
    (running.filter (·.id ≠ name)).length + 1 = running.length := by
  induction running with
  | nil => simp [hasVM] at hhas
  | cons vm vms ih =>
    rw [List.map_cons, List.nodup_cons] at hnd
    by_cases hid : vm.id = name
    · have hrest : hasVM vms name = false := by
        rw [← Bool.not_eq_true, hasVM_iff]
        rintro ⟨vm', hmem, hid'⟩
        exact hnd.1 (List.mem_map.mpr ⟨vm', hmem, hid'.trans hid.symm⟩)
      rw [List.filter_cons_of_neg (by simp [hid]), filter_kill_absent hrest, List.length_cons]
    · have hhas' : hasVM vms name = true := by simpa [hasVM, hid] using hhas
      rw [List.filter_cons_of_pos (by simpa using hid), List.length_cons, List.length_cons,
        ih hnd.2 hhas']

/-! ## Histories -/

theorem request_provision {vm : LibvirtVM} (h : hasVM running vm.id = false) :
    request running (.provision vm) = some (running ++ [vm]) := by
  simp [request, h, provision, kill, getVM_eq_none.mpr h]

theorem request_kill (h : hasVM running name = true) :
    request running (.kill name) = some (removeCopy name running) := by
  obtain ⟨vm, hvm⟩ := exists_getVM h
  simp [request, h, kill, hvm, removeVM]

theorem request_kill_absent (h : hasVM running name = false) :
    request running (.kill name) = some running := by
  simp [request, h]

/-- One request that kills no VM among more than two keeps the registry exact. -/
theorem tracks_request {vms running' : List LibvirtVM} {r : Request} (h : Tracks running vms)
    (hfew : KillsFew running r) (hstep : request running r = some running') :
    Tracks running' (liveStep vms r) := by
  obtain rfl := h.eq
  cases r with
  | provision vm =>
    by_cases hhas : hasVM running vm.id = true
    · simp [request, hhas] at hstep
    · rw [Bool.not_eq_true] at hhas
      rw [request_provision hhas] at hstep
      cases hstep
      exact Tracks.of_nodup (nodup_append_of_hasVM h.nodup hhas)
  | kill name =>
    have hnd : ((running.filter (·.id ≠ name)).map (·.id)).Nodup :=
      h.nodup.sublist (List.filter_sublist.map _)
    by_cases hhas : hasVM running name = true
    · rw [request_kill hhas, removeCopy_of_le_two (hfew name rfl hhas) hhas] at hstep
      cases hstep
      exact Tracks.of_nodup hnd
    · rw [Bool.not_eq_true] at hhas
      rw [request_kill_absent hhas] at hstep
      cases hstep
      rw [liveStep, filter_kill_absent hhas]
      exact h

/-- The registry is exact after every prefix of a history if and only if no VM is killed while more
than two are registered. -/
theorem tracks_live_iff (history : List Request) :
    (∀ h h' running, history = h ++ h' → Transition.run request [] h = some running →
      Tracks running (live h)) ↔
    Transition.Guarded request KillsFew [] history := by
  constructor
  · intro h
    apply Transition.guarded_iff.mpr
    intro h₁ r h₂ u hist hrun name hr hhas
    subst hr
    have hbefore := h h₁ _ u hist hrun
    have hafter := h (h₁ ++ [.kill name]) h₂ (removeCopy name u) (by simp [hist])
      (by rw [Transition.run_append hrun, Transition.run_cons (request_kill hhas)]; rfl)
    have hcopy := removeCopy_length name u
    have hlen := length_filter_kill hbefore.nodup (hbefore.eq ▸ hhas)
    rw [hafter.eq, live_append, liveStep] at hcopy
    rw [← hbefore.eq] at hcopy hlen
    omega
  · intro hg h h' running hist hrun
    refine Transition.run_history (P := fun h running => ∀ h', history = h ++ h' → Tracks running (live h))
      (fun _ _ => Tracks.of_nodup List.nodup_nil) (fun h u r u' hu ih hstep h' hist => ?_) hrun h' hist
    have hist' : history = h ++ r :: h' := by simp [hist]
    rw [live_append]
    exact tracks_request (ih _ hist') (Transition.guarded_iff.mp hg h r h' u hist' hu) hstep

/-- A VM of which only the name matters. -/
def named (name : String) : LibvirtVM := { (default : LibvirtVM) with id := name.toList }

/-- Killing the first of three VMs also loses the third: the registry is then wrong about it. -/
theorem kill_loses_vm :
    let history := [.provision (named "a"), .provision (named "b"), .provision (named "c"),
      .kill "a".toList]
    Transition.run request [] history = some [named "b"] ∧ live history = [named "b", named "c"] ∧
      ¬ Tracks [named "b"] (live history) := by
  refine ⟨by decide, by decide, ?_⟩
  intro h
  exact absurd h.eq (by decide)

end LibvirtClient
