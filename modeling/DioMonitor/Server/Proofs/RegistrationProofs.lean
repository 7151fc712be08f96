import DioMonitor.Server.Proofs.RequestsProofs

/-!
# Proofs: kept registrations

The copy and the assignment of `removeVM` are separate steps: no registration is lost when none happens
between the two (`registered_kept`).
-/

namespace VMServer

open LibvirtClient

variable {s s' : State} {i j : ℕ} {h h' : Handler}

/-- A removal stands between its copy and its assignment. -/
def Stage.isAssign : Stage → Bool
  | .assign _ => true
  | _ => false

/-- Every provision is for a name of its own, and only VMs that were provisioned are killed. -/
def OwnNames (s : State) : Event → Prop
  | .accept (.provision vm) => ∀ u ∈ s.handlers, u.request.provides vm.id = false
  | .accept (.kill name) => ∃ u ∈ s.handlers, u.request.provides name = true ∧ u.stage = .completed
  | _ => True

instance (s : State) : ∀ e, Decidable (OwnNames s e)
  | .accept (.provision _) => inferInstanceAs (Decidable (∀ _ ∈ _, _))
  | .accept (.kill _) => inferInstanceAs (Decidable (∃ _ ∈ _, _ ∧ _))
  | .advance _ => isTrue trivial
  | .fail _ => isTrue trivial

/-- A VM is only registered while no removal stands between its copy and its assignment. -/
def PushesAlone (s : State) : Event → Prop
  | .advance i =>
    ∀ h ∈ s.handlers[i]?, h.stage = .install → ∀ u ∈ s.handlers, u.stage.isAssign = false
  | _ => True

instance (s : State) : ∀ e, Decidable (PushesAlone s e)
  | .advance _ => inferInstanceAs (Decidable (∀ _ ∈ _, _ → ∀ _ ∈ _, _))
  | .accept _ => isTrue trivial
  | .fail _ => isTrue trivial

/-- The VM was provisioned. -/
def Provisioned (s : State) (vm : LibvirtVM) : Prop :=
  ∃ u ∈ s.handlers, u.request = .provision vm ∧ u.stage = .completed

/-- The VM was provisioned and nobody asked to kill it. -/
def Alive (s : State) (vm : LibvirtVM) : Prop :=
  Provisioned s vm ∧ ∀ u ∈ s.handlers, u.request ≠ .kill vm.id

/-- The invariant behind `registered_kept`. -/
structure Kept (s : State) : Prop where
  /-- No two provisions are for the same name. -/
  own : ∀ (i j : ℕ) (h u : Handler), s.handlers[i]? = some h → s.handlers[j]? = some u →
    ∀ vm vm', h.request = .provision vm → u.request = .provision vm' → vm.id = vm'.id → i = j
  /-- The accepting loop handles one KILL request at a time. -/
  one : ∀ (i j : ℕ) (h u : Handler), s.handlers[i]? = some h → s.handlers[j]? = some u →
    h.busy = true → u.busy = true → i = j
  /-- A provision finds no VM of its name to kill. -/
  noKill : ∀ h ∈ s.handlers, ∀ vm, h.request = .provision vm →
    h.stage ≠ .copy ∧ ∀ res, h.stage ≠ .assign res
  /-- The registry, and every copy of it, holds VMs that were provisioned. -/
  known : ∀ vm ∈ s.running, Provisioned s vm
  knownCopy : ∀ h ∈ s.handlers, ∀ res, h.stage = .assign res → ∀ vm ∈ res, Provisioned s vm
  /-- The VM about to be removed is registered. -/
  target : ∀ h ∈ s.handlers, h.stage = .copy → hasVM s.running h.request.name = true
  /-- The registry, and every copy of it, holds every VM alive. -/
  alive : ∀ vm, Alive s vm → vm ∈ s.running
  aliveCopy : ∀ h ∈ s.handlers, ∀ res, h.stage = .assign res → ∀ vm, Alive s vm → vm ∈ res

/-- A handler that was not provisioned yet does not count as provisioned after a step. -/
theorem provisioned_set (hi : s.handlers[i]? = some h) (hst : h.stage ≠ .completed) {stage : Stage}
    (hstage : stage ≠ .completed) {running : List LibvirtVM} {vm : LibvirtVM} :
    Provisioned ⟨running, s.handlers.set i { h with stage }⟩ vm ↔ Provisioned s vm := by
  constructor
  · rintro ⟨u, hu, hreq, hcomp⟩
    rcases mem_set hi hu with rfl | ⟨j, -, hj⟩
    · exact absurd hcomp hstage
    · exact ⟨u, List.mem_of_getElem? hj, hreq, hcomp⟩
  · rintro ⟨u, hu, hreq, hcomp⟩
    obtain ⟨j, hj⟩ := List.mem_iff_getElem?.mp hu
    have hji : j ≠ i := by
      rintro rfl
      rw [hi, Option.some.injEq] at hj
      exact hst (hj ▸ hcomp)
    exact ⟨u, List.mem_of_getElem? ((getElem?_set_iff hi).mpr (Or.inr ⟨hji, hj⟩)), hreq, hcomp⟩

/-- The requests stay when a handler advances. -/
theorem request_set (hi : s.handlers[i]? = some h) {stage : Stage} {r : Request}
    (hr : ∀ u ∈ s.handlers.set i { h with stage }, u.request ≠ r) : ∀ u ∈ s.handlers, u.request ≠ r := by
  intro u hu
  obtain ⟨j, hj⟩ := List.mem_iff_getElem?.mp hu
  by_cases hji : j = i
  · subst hji
    rw [hi, Option.some.injEq] at hj
    have hself := hr { h with stage }
      (List.mem_of_getElem? ((getElem?_set_iff hi).mpr (Or.inl ⟨rfl, rfl⟩)))
    exact hj ▸ hself
  · exact hr u (List.mem_of_getElem? ((getElem?_set_iff hi).mpr (Or.inr ⟨hji, hj⟩)))

theorem alive_of_set (hi : s.handlers[i]? = some h) (hst : h.stage ≠ .completed) {stage : Stage}
    (hstage : stage ≠ .completed) {running : List LibvirtVM} {vm : LibvirtVM}
    (hal : Alive ⟨running, s.handlers.set i { h with stage }⟩ vm) : Alive s vm :=
  ⟨(provisioned_set hi hst hstage).mp hal.1, request_set hi hal.2⟩

/-- Two provisions for the same name. -/
def SameName (h u : Handler) : Prop :=
  ∃ vm vm', h.request = .provision vm ∧ u.request = .provision vm' ∧ vm.id = vm'.id

theorem Kept.eq_of_sameName (hk : Kept s) (i j : ℕ) (h u : Handler) (hi : s.handlers[i]? = some h)
    (hj : s.handlers[j]? = some u) (hsame : SameName h u) : i = j := by
  obtain ⟨vm, vm', hh, hu, hid⟩ := hsame
  exact hk.own i j h u hi hj vm vm' hh hu hid

/-- Two KILL requests under way. -/
def BothBusy (h u : Handler) : Prop := h.busy = true ∧ u.busy = true

theorem Kept.eq_of_bothBusy (hk : Kept s) (i j : ℕ) (h u : Handler) (hi : s.handlers[i]? = some h)
    (hj : s.handlers[j]? = some u) (hbusy : BothBusy h u) : i = j :=
  hk.one i j h u hi hj hbusy.1 hbusy.2

/-- A step of a handler that registers no VM; the registry may be replaced by a copy of it. -/
theorem Kept.set (hk : Kept s) (hi : s.handlers[i]? = some h) (hst : h.stage ≠ .completed)
    (hfin : h.stage ≠ .finished) {stage : Stage} (hstage : stage ≠ .completed)
    {running : List LibvirtVM}
    (hprov : ∀ vm, h.request = .provision vm → stage ≠ .copy ∧ ∀ res, stage ≠ .assign res)
    (hrunning : ∀ vm ∈ running, Provisioned s vm) (halive : ∀ vm, Alive s vm → vm ∈ running)
    (htarget : ∀ u ∈ s.handlers.set i { h with stage }, u.stage = .copy →
      hasVM running u.request.name = true)
    (hcopy : ∀ res, stage = .assign res →
      (∀ vm ∈ res, Provisioned s vm) ∧ ∀ vm, Alive s vm → vm ∈ res) :
    Kept ⟨running, s.handlers.set i { h with stage }⟩ where
  own j k u v hj hk' vm vm' hu hv hid := by
    refine eq_of_set_of_imp (R := SameName) hi hk.eq_of_sameName ?_ ?_ hj hk' ⟨vm, vm', hu, hv, hid⟩
    · exact fun _ hr => hr
    · exact fun _ hr => hr
  one j k u v hj hk' hu hv := by
    have hbusy : Handler.busy { h with stage } = true → h.busy = true := by
      obtain ⟨r, st⟩ := h
      cases r <;> simp_all [Handler.busy]
    exact eq_of_set_of_imp (R := BothBusy) hi hk.eq_of_bothBusy (fun _ hr => ⟨hbusy hr.1, hr.2⟩)
      (fun _ hr => ⟨hr.1, hbusy hr.2⟩) hj hk' ⟨hu, hv⟩
  noKill := forall_mem_set hk.noKill hprov
  known := fun vm hvm => (provisioned_set hi hst hstage).mpr (hrunning vm hvm)
  knownCopy := by
    intro u hu res hres vm hvm
    refine (provisioned_set hi hst hstage).mpr ?_
    exact forall_mem_set (P := fun u => ∀ res, u.stage = .assign res → ∀ vm ∈ res, Provisioned s vm)
      hk.knownCopy (fun res hres => (hcopy res hres).1) u hu res hres vm hvm
  target := htarget
  alive := fun vm hvm => halive vm (alive_of_set hi hst hstage hvm)
  aliveCopy := by
    intro u hu res hres vm hvm
    exact forall_mem_set (P := fun u => ∀ res, u.stage = .assign res → ∀ vm, Alive s vm → vm ∈ res)
      hk.aliveCopy (fun res hres => (hcopy res hres).2) u hu res hres vm (alive_of_set hi hst hstage hvm)

theorem Kept.accept (hk : Kept s) {r : Request} (hidle : ∀ h ∈ s.handlers, h.busy = false)
    (hown : OwnNames s (.accept r)) :
    Kept { s with handlers := s.handlers ++ [{ request := r, stage := .check }] } := by
  have hprov : ∀ vm, Provisioned { s with handlers := s.handlers ++ [⟨r, .check⟩] } vm ↔
      Provisioned s vm := by
    intro vm
    constructor
    · rintro ⟨u, hu, hreq, hcomp⟩
      rcases List.mem_append.mp hu with hu | hu
      · exact ⟨u, hu, hreq, hcomp⟩
      · obtain rfl := List.mem_singleton.mp hu
        cases hcomp
    · rintro ⟨u, hu, hreq, hcomp⟩
      exact ⟨u, List.mem_append_left _ hu, hreq, hcomp⟩
  have halive : ∀ vm, Alive { s with handlers := s.handlers ++ [⟨r, .check⟩] } vm → Alive s vm :=
    fun vm hal => ⟨(hprov vm).mp hal.1, fun u hu => hal.2 u (List.mem_append_left _ hu)⟩
  refine
    { own := fun i j h u hi hj vm vm' hh hu hid => ?_
      one := fun i j h u hi hj hh hu => ?_
      noKill := forall_mem_concat hk.noKill fun _ _ => ⟨by simp, by simp⟩
      known := fun vm hvm => (hprov vm).mpr (hk.known vm hvm)
      knownCopy := forall_mem_concat (fun u hu res hres vm hvm => (hprov vm).mpr
        (hk.knownCopy u hu res hres vm hvm)) (by simp)
      target := forall_mem_concat hk.target (by simp)
      alive := fun vm hal => hk.alive vm (halive vm hal)
      aliveCopy := forall_mem_concat (fun u hu res hres vm hal =>
        hk.aliveCopy u hu res hres vm (halive vm hal)) (by simp) }
  · refine eq_of_concat (R := SameName) hk.eq_of_sameName (fun u hu => ⟨?_, ?_⟩) hi hj
      ⟨vm, vm', hh, hu, hid⟩
    · rintro ⟨va, vb, rfl, hb, hab⟩
      have := hown u hu
      simp [Request.provides, hb, hab] at this
    · rintro ⟨va, vb, ha, rfl, hab⟩
      have := hown u hu
      simp [Request.provides, ha, hab] at this
  · refine eq_of_concat (R := BothBusy) hk.eq_of_bothBusy (fun u hu => ⟨?_, ?_⟩) hi hj ⟨hh, hu⟩
    · rintro ⟨-, hb⟩
      rw [hidle u hu] at hb
      cases hb
    · rintro ⟨hb, -⟩
      rw [hidle u hu] at hb
      cases hb

/-- A VM is registered while no removal is under way. -/
theorem Kept.push (hk : Kept s) {vm : LibvirtVM} (hi : s.handlers[i]? = some ⟨.provision vm, .install⟩)
    (halone : ∀ u ∈ s.handlers, u.stage.isAssign = false) :
    Kept ⟨s.running ++ [vm], s.handlers.set i ⟨.provision vm, .completed⟩⟩ := by
  have hset : ∀ {j : ℕ} {u : Handler}, j ≠ i → s.handlers[j]? = some u →
      u ∈ s.handlers.set i ⟨.provision vm, .completed⟩ := fun hji hj =>
    List.mem_of_getElem? ((getElem?_set_iff hi).mpr (Or.inr ⟨hji, hj⟩))
  have hself : (⟨.provision vm, .completed⟩ : Handler) ∈
      s.handlers.set i ⟨.provision vm, .completed⟩ :=
    List.mem_of_getElem? ((getElem?_set_iff hi).mpr (Or.inl ⟨rfl, rfl⟩))
  have hkeep : ∀ vm', Provisioned s vm' →
      Provisioned ⟨s.running ++ [vm], s.handlers.set i ⟨.provision vm, .completed⟩⟩ vm' := by
    rintro vm' ⟨u, hu, hreq, hcomp⟩
    obtain ⟨j, hj⟩ := List.mem_iff_getElem?.mp hu
    refine ⟨u, hset ?_ hj, hreq, hcomp⟩
    rintro rfl
    rw [hi, Option.some.injEq] at hj
    subst hj
    cases hcomp
  have hnew : ∀ vm', Alive ⟨s.running ++ [vm], s.handlers.set i ⟨.provision vm, .completed⟩⟩ vm' →
      vm' = vm ∨ Alive s vm' := by
    rintro vm' ⟨⟨u, hu, hreq, hcomp⟩, hkill⟩
    rcases mem_set hi hu with rfl | ⟨j, -, hj⟩
    · cases hreq
      exact Or.inl rfl
    · exact Or.inr ⟨⟨u, List.mem_of_getElem? hj, hreq, hcomp⟩, request_set hi hkill⟩
  -- there is no copy that could lack the VM
  have hcopies : ∀ u ∈ s.handlers.set i ⟨.provision vm, .completed⟩, ∀ res, u.stage ≠ .assign res := by
    refine forall_mem_set (fun u hu res hres => ?_) (by simp)
    have := halone u hu
    rw [hres] at this
    cases this
  refine
    { own := fun j k u v hj hk' va vb hu hv hid => ?_
      one := fun j k u v hj hk' hu hv => ?_
      noKill := forall_mem_set hk.noKill fun _ _ => ⟨by simp, by simp⟩
      known := fun va hva => ?_
      knownCopy := fun u hu res hres => absurd hres (hcopies u hu res)
      target := forall_mem_set (fun u hu hst => ?_) (by simp)
      alive := fun va hal => ?_
      aliveCopy := fun u hu res hres => absurd hres (hcopies u hu res) }
  · refine eq_of_set_of_imp (R := SameName) hi hk.eq_of_sameName ?_ ?_ hj hk' ⟨va, vb, hu, hv, hid⟩
    · exact fun _ hr => hr
    · exact fun _ hr => hr
  · refine eq_of_set (R := BothBusy) hi hk.eq_of_bothBusy (fun _ _ _ _ => ⟨?_, ?_⟩) hj hk' ⟨hu, hv⟩
    · exact fun hr => absurd hr.1 (by simp [Handler.busy])
    · exact fun hr => absurd hr.2 (by simp [Handler.busy])
  · rcases List.mem_append.mp hva with hva | hva
    · exact hkeep va (hk.known va hva)
    · obtain rfl := List.mem_singleton.mp hva
      exact ⟨_, hself, rfl, rfl⟩
  · rw [hasVM_append, hk.target u hu hst, Bool.true_or]
  · rcases hnew va hal with rfl | hal
    · simp
    · exact List.mem_append_left _ (hk.alive va hal)

/-- Of at most two VMs, of which one has the name, the copy of `removeVM` keeps the other. -/
theorem mem_removeCopy {running : List LibvirtVM} {name : Str} (hlen : running.length ≤ 2)
    (hhas : hasVM running name = true) {vm : LibvirtVM} (hvm : vm ∈ running) (hid : vm.id ≠ name) :
    vm ∈ removeCopy name running := by
  rw [removeCopy_of_le_two hlen hhas]
  exact List.mem_filter.mpr ⟨hvm, by simpa using hid⟩

/-- A provision finds no VM of its name in the registry: the only provision of that name is itself. -/
theorem Kept.absent (hk : Kept s) {vm : LibvirtVM} {stage : Stage}
    (hi : s.handlers[i]? = some ⟨.provision vm, stage⟩) (hstage : stage ≠ .completed) :
    hasVM s.running vm.id = false := by
  rw [← Bool.not_eq_true, hasVM_iff]
  rintro ⟨vm', hmem, hid⟩
  obtain ⟨u, hu, hreq, hcomp⟩ := hk.known vm' hmem
  obtain ⟨j, hj⟩ := List.mem_iff_getElem?.mp hu
  obtain rfl := hk.own j i u _ hj hi vm' vm hreq rfl hid
  rw [hi, Option.some.injEq] at hj
  subst hj
  exact hstage hcomp

/-- A removal ends: the registry becomes its copy. -/
theorem Kept.assign (hk : Kept s) {name : Str} {res : List LibvirtVM}
    (hi : s.handlers[i]? = some ⟨.kill name, .assign res⟩) :
    Kept ⟨res, s.handlers.set i ⟨.kill name, .finished⟩⟩ := by
  have hmem := List.mem_of_getElem? hi
  refine hk.set hi (by simp) (by simp) (by simp) (by simp) (hk.knownCopy _ hmem res rfl)
    (hk.aliveCopy _ hmem res rfl) (fun u hu hst => ?_) (by simp)
  rcases mem_set hi hu with rfl | ⟨j, hji, hj⟩
  · cases hst
  · -- another removal would be a second KILL request under way
    obtain ⟨ru, su⟩ := u
    obtain rfl : su = .copy := hst
    cases ru with
    | provision vm => exact absurd rfl (hk.noKill _ (List.mem_of_getElem? hj) vm rfl).1
    | kill name' =>
      exact absurd (hk.one j i _ _ hj hi (by simp [Handler.busy]) (by simp [Handler.busy])) hji

/-- A handler that has removed its VM neither copies the registry nor assigns it. -/
theorem afterKill_plain (r : Request) :
    afterKill r ≠ .completed ∧ (∀ res, afterKill r ≠ .assign res) ∧ afterKill r ≠ .copy := by
  cases r <;> simp [afterKill]

/-- Every step keeps the VMs alive in the registry, provided VMs are registered while no removal is
under way. -/
theorem kept_step {e : Event} (hk : Kept s) (hown : OwnNames s e) (halone : PushesAlone s e)
    (hlen : s.running.length ≤ 2) (hstep : step s e = some s') : Kept s' := by
  rcases step_cases hstep with ⟨r, rfl, hidle, rfl⟩ | ⟨i, h, stage, he, hi, hadv, hs'⟩
  · exact hk.accept hidle hown
  · have hmem : h ∈ s.handlers := List.mem_of_getElem? hi
    obtain ⟨r, st⟩ := h
    obtain ⟨running, handlers⟩ := s'
    simp only at hadv hs'
    subst hs'
    -- a step that leaves the registry and makes no copy
    have hsame : ∀ stage, st ≠ .completed → st ≠ .finished → stage ≠ .completed →
        (∀ res, stage ≠ .assign res) → (stage = .copy → hasVM s.running r.name = true) →
        (stage = .copy → ∀ vm, r ≠ .provision vm) →
        Kept ⟨s.running, s.handlers.set i ⟨r, stage⟩⟩ := by
      intro stage hst hfin hstage hassign htarget hkill
      refine hk.set hi hst hfin hstage (fun vm hvm => ⟨fun hc => hkill hc vm hvm, hassign⟩) hk.known
        hk.alive (fun u hu hc => ?_) fun res hres => absurd hres (hassign res)
      rcases mem_set hi hu with rfl | ⟨j, -, hj⟩
      · exact htarget hc
      · exact hk.target u (List.mem_of_getElem? hj) hc
    -- and does not go on to make one
    have hplain : ∀ stage, st ≠ .completed → st ≠ .finished →
        stage ≠ .completed ∧ (∀ res, stage ≠ .assign res) ∧ stage ≠ .copy →
        Kept ⟨s.running, s.handlers.set i ⟨r, stage⟩⟩ := by
      rintro stage hst hfin ⟨hstage, hassign, hcopy⟩
      exact hsame stage hst hfin hstage hassign (fun hc => absurd hc hcopy) fun hc => absurd hc hcopy
    cases hadv with
    | refused => exact hplain _ (by simp) (by simp) (by simp)
    | provision _ => exact hplain _ (by simp) (by simp) (by simp)
    | kill _ => exact hplain _ (by simp) (by simp) (by simp)
    | found hhas =>
      refine hsame _ (by simp) (by simp) (by simp) (by simp) (fun _ => hhas) ?_
      rintro - vm rfl
      rw [Request.name, hk.absent hi (by simp)] at hhas
      cases hhas
    | absent _ => exact hplain _ (by simp) (by simp) (afterKill_plain r)
    | copy =>
      cases r with
      | provision vm => exact absurd rfl (hk.noKill _ hmem vm rfl).1
      | kill name =>
        refine hk.set hi (by simp) (by simp) (by simp) (by simp) hk.known hk.alive (fun u hu hc => ?_) ?_
        · rcases mem_set hi hu with rfl | ⟨j, -, hj⟩
          · cases hc
          · exact hk.target u (List.mem_of_getElem? hj) hc
        · intro res hres
          cases hres
          refine ⟨fun vm hvm => hk.known vm ((removeCopy_sublist _ _).subset hvm), ?_⟩
          intro vm hal
          exact mem_removeCopy hlen (hk.target _ hmem rfl) (hk.alive vm hal) fun hid =>
            hal.2 _ hmem (by simp [hid, Request.name])
    | assign =>
      cases r with
      | provision vm => exact absurd rfl ((hk.noKill _ hmem vm rfl).2 _)
      | kill name => exact hk.assign hi
    | push =>
      obtain rfl := he.resolve_right (by simp)
      exact hk.push hi (halone _ hi rfl)
    | fail => exact hplain _ (by simp) (by simp) (by simp)

/-- In every run in which every provision is for a name of its own, only provisioned VMs are killed,
at most two VMs are registered at any time and no VM is registered between the copy and the assignment
of a removal, every VM provisioned and not asked to be killed is registered. -/
theorem registered_kept {events : List Event} (hrun : Transition.run step start events = some s)
    (hown : Transition.Guarded step OwnNames start events)
    (hlen : Transition.Throughout step (fun s => s.running.length ≤ 2) start events)
    (halone : Transition.Guarded step PushesAlone start events) :
    ∀ vm, Alive s vm → vm ∈ s.running := by
  have hstart : Kept start :=
    ⟨by simp [start], by simp [start], by simp [start], by simp [start], by simp [start], by simp [start],
      fun _ hal => by simp [Alive, Provisioned, start] at hal, by simp [start]⟩
  exact (Transition.run_invariant_of_guarded (fun s e s' hk hl he hstep => kept_step hk he.1 he.2 hl hstep)
    hstart hlen (hown.and halone) hrun).alive

/-- Two provisions and then a kill, none of them overlapping. -/
theorem registered_kept_two :
    let events : List Event :=
      [.accept (.provision (named "a")), .advance 0, .advance 0, .advance 0,
        .accept (.provision (named "b")), .advance 1, .advance 1, .advance 1,
        .accept (.kill "a".toList), .advance 2, .advance 2, .advance 2, .advance 2]
    ∃ s, Transition.run step start events = some s ∧ Alive s (named "b") ∧ named "b" ∈ s.running := by
  intro events
  let s : State :=
    { running := [named "b"], handlers :=
      [⟨.provision (named "a"), .completed⟩, ⟨.provision (named "b"), .completed⟩,
        ⟨.kill "a".toList, .finished⟩] }
  have hrun : Transition.run step start events = some s := rfl
  have halive : Alive s (named "b") := by
    refine ⟨⟨⟨.provision (named "b"), .completed⟩, by simp [s], rfl, rfl⟩, ?_⟩
    simp [s, named]
  exact ⟨_, hrun, halive, registered_kept hrun (by decide) (by decide) (by decide) _ halive⟩

/-- A VM registered between the copy and the assignment of the removal of another one is lost. -/
theorem registration_lost :
    let events : List Event :=
      [.accept (.provision (named "a")), .advance 0, .advance 0, .advance 0,
        .accept (.provision (named "b")), .advance 1, .advance 1,
        .accept (.kill "a".toList), .advance 2, .advance 2, .advance 2, .advance 1, .advance 2]
    Transition.Guarded step OwnNames start events ∧
      Transition.Throughout step (fun s => s.running.length ≤ 2) start events ∧
      ∃ s, Transition.run step start events = some s ∧ Alive s (named "b") ∧ named "b" ∉ s.running := by
  refine ⟨by decide, by decide, { running := [], handlers :=
    [⟨.provision (named "a"), .completed⟩, ⟨.provision (named "b"), .completed⟩,
      ⟨.kill "a".toList, .finished⟩] }, rfl, ⟨⟨⟨.provision (named "b"), .completed⟩, by simp, rfl, rfl⟩, ?_⟩,
    by simp⟩
  simp [named]

end VMServer
