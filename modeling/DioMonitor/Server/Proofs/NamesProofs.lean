import DioMonitor.Server.Proofs.RequestsProofs

/-!
# Proofs: unique names

The check of a name and the registration of the VM are separate steps: names stay unique when no two
requests for one name overlap (`names_unique`).
-/

namespace VMServer

open LibvirtClient

variable {s s' : State} {i j : ℕ} {h h' : Handler}

/-- The handler is between the check of its name and its end. -/
def Handler.Checked (h : Handler) : Prop :=
  h.stage ≠ .check ∧ h.stage ≠ .completed ∧ h.stage ≠ .finished

instance (h : Handler) : Decidable h.Checked := inferInstanceAs (Decidable (_ ∧ _ ∧ _))

/-- A request passes the check of its name only while no other request for the same name is between
its check and its end. -/
def ChecksAlone (s : State) : Event → Prop
  | .advance i =>
    ∀ h ∈ s.handlers[i]?, h.stage = .check → hasVM s.running h.request.name = false →
      ∀ u ∈ s.handlers, u.request.name = h.request.name → ¬ u.Checked
  | _ => True

instance (s : State) : ∀ e, Decidable (ChecksAlone s e)
  | .advance _ => inferInstanceAs (Decidable (∀ _ ∈ _, _ → _ → ∀ _ ∈ _, _ → _))
  | .accept _ => isTrue trivial
  | .fail _ => isTrue trivial

/-- The names of the registered VMs and of the VMs being installed are all different. -/
structure Unique (s : State) : Prop where
  nodup : (s.running.map (·.id)).Nodup
  provisions : ∀ h ∈ s.handlers, ∃ vm, h.request = .provision vm
  noKill : ∀ h ∈ s.handlers, h.stage ≠ .copy ∧ ∀ res, h.stage ≠ .assign res
  free : ∀ h ∈ s.handlers, h.Checked → hasVM s.running h.request.name = false
  apart : ∀ (i j : ℕ) (h u : Handler), s.handlers[i]? = some h → s.handlers[j]? = some u →
    h.Checked → u.Checked → h.request.name = u.request.name → i = j

/-- A step of a provision handler that neither registers a VM nor passes its check. -/
theorem Unique.set (hu : Unique s) (hi : s.handlers[i]? = some h) {stage : Stage}
    (hstage : stage ≠ .copy ∧ ∀ res, stage ≠ .assign res)
    (hfree : Handler.Checked { h with stage } → hasVM s.running h.request.name = false)
    (hapart : Handler.Checked { h with stage } → ∀ j u, j ≠ i → s.handlers[j]? = some u → u.Checked →
      u.request.name ≠ h.request.name) :
    Unique { s with handlers := s.handlers.set i { h with stage } } where
  nodup := hu.nodup
  provisions := forall_mem_set hu.provisions (hu.provisions h (List.mem_of_getElem? hi))
  noKill := forall_mem_set hu.noKill hstage
  free := forall_mem_set hu.free hfree
  apart j k u v hj hk hcu hcv hname := by
    refine eq_of_set (R := fun h u => h.Checked ∧ u.Checked ∧ h.request.name = u.request.name) hi
      (fun j k u v hj hk hr => hu.apart j k u v hj hk hr.1 hr.2.1 hr.2.2) (fun j u hji hj => ?_)
      hj hk ⟨hcu, hcv, hname⟩
    exact ⟨fun hr => hapart hr.1 j u hji hj hr.2.1 hr.2.2.symm,
      fun hr => hapart hr.2.1 j u hji hj hr.1 hr.2.2⟩

/-- A VM whose name nobody has or wants is registered. -/
theorem Unique.register (hu : Unique s) {vm : LibvirtVM} (hfree : hasVM s.running vm.id = false)
    (hwanted : ∀ u ∈ s.handlers, u.Checked → u.request.name ≠ vm.id) :
    Unique { s with running := s.running ++ [vm] } where
  nodup := nodup_append_of_hasVM hu.nodup hfree
  provisions := hu.provisions
  noKill := hu.noKill
  free := by
    intro u hmem hc
    rw [hasVM_append, hu.free u hmem hc, Bool.false_or, decide_eq_false_iff_not]
    exact (hwanted u hmem hc).symm
  apart := hu.apart

theorem Unique.accept (hu : Unique s) (vm : LibvirtVM) :
    Unique { s with handlers := s.handlers ++ [{ request := .provision vm, stage := .check }] } where
  nodup := hu.nodup
  provisions := forall_mem_concat hu.provisions ⟨vm, rfl⟩
  noKill := forall_mem_concat hu.noKill ⟨by simp, by simp⟩
  free := forall_mem_concat hu.free fun hc => absurd rfl hc.1
  apart i j h u hi hj hch hcu hname :=
    eq_of_concat (R := fun h u => h.Checked ∧ u.Checked ∧ h.request.name = u.request.name)
      (fun j k u v hj hk hr => hu.apart j k u v hj hk hr.1 hr.2.1 hr.2.2)
      (fun _ _ => ⟨fun hr => hr.1.1 rfl, fun hr => hr.2.1.1 rfl⟩) hi hj ⟨hch, hcu, hname⟩

/-- Every step keeps the names unique, provided that names are checked alone. -/
theorem unique_step {e : Event} (hu : Unique s) (hprov : ∀ name, e ≠ .accept (.kill name))
    (halone : ChecksAlone s e) (hstep : step s e = some s') : Unique s' := by
  rcases step_cases hstep with ⟨r, rfl, -, rfl⟩ | ⟨i, h, stage, he, hi, hadv, hs'⟩
  · cases r with
    | provision vm => exact hu.accept vm
    | kill name => exact absurd rfl (hprov name)
  · have hmem : h ∈ s.handlers := List.mem_of_getElem? hi
    obtain ⟨vm, hvm⟩ := hu.provisions h hmem
    obtain ⟨r, st⟩ := h
    obtain rfl : r = .provision vm := hvm
    obtain ⟨running, handlers⟩ := s'
    simp only at hadv hs'
    subst hs'
    -- once a handler is checked, the others that are checked have other names
    have hothers : Handler.Checked ⟨.provision vm, st⟩ → ∀ j u, j ≠ i → s.handlers[j]? = some u →
        u.Checked → u.request.name ≠ vm.id := fun hc j u hji hj hcu hname =>
      hji (hu.apart j i u _ hj hi hcu hc hname)
    have hend : ∀ stage, stage = .completed ∨ stage = .finished →
        Unique { s with handlers := s.handlers.set i { request := .provision vm, stage } } := by
      intro stage hstage
      refine hu.set hi ?_ ?_ ?_
      · rcases hstage with rfl | rfl <;> simp
      · rcases hstage with rfl | rfl <;> simp [Handler.Checked]
      · rcases hstage with rfl | rfl <;> simp [Handler.Checked]
    generalize hr : Request.provision vm = r at hadv
    cases hadv with
    | refused =>
      subst hr
      exact hend _ (Or.inr rfl)
    | provision hfree =>
      cases hr
      have hadvance : e = .advance i := he.resolve_right (by simp)
      refine hu.set hi (by simp) (fun _ => hfree) ?_
      intro _ j u hji hj hcu hname
      subst hadvance
      exact halone _ hi rfl hfree u (List.mem_of_getElem? hj) hname hcu
    | kill _ => cases hr
    | found hhas =>
      subst hr
      have hfree := hu.free _ hmem ⟨by simp, by simp, by simp⟩
      rw [hfree] at hhas
      cases hhas
    | absent hfree =>
      subst hr
      exact hu.set hi (by simp [afterKill]) (fun _ => hfree) fun _ =>
        hothers ⟨by simp, by simp, by simp⟩
    | copy => exact absurd rfl (hu.noKill _ hmem).1
    | assign => exact absurd rfl ((hu.noKill _ hmem).2 _)
    | push =>
      cases hr
      have hc : Handler.Checked ⟨.provision vm, .install⟩ := ⟨by simp, by simp, by simp⟩
      refine (hend .completed (Or.inl rfl)).register (hu.free _ hmem hc) ?_
      intro u hmem' hcu
      rcases mem_set hi hmem' with rfl | ⟨j, hji, hj⟩
      · exact absurd rfl hcu.2.1
      · exact hothers hc j u hji hj hcu
    | fail =>
      subst hr
      exact hend _ (Or.inr rfl)

/-- In every run with PROVISION requests only, in which names are checked alone, no two registered VMs
have the same name. -/
theorem names_unique {events : List Event} (hprov : ∀ e ∈ events, ∀ name, e ≠ .accept (.kill name))
    (hrun : Transition.run step start events = some s)
    (halone : Transition.Guarded step ChecksAlone start events) : (s.running.map (·.id)).Nodup := by
  have hforall : Transition.Guarded step (fun _ e => ∀ name, e ≠ .accept (.kill name)) start events :=
    Transition.guarded_of_forall (fun _ => hprov) start
  have hguard := hforall.and halone
  have hstart : Unique start := ⟨List.nodup_nil, by simp [start], by simp [start], by simp [start],
    by simp [start]⟩
  exact (Transition.run_invariant_of_guarded (fun s e s' hu _ he hstep => unique_step hu he.1 he.2 hstep)
    hstart (Transition.throughout_true start events) hguard hrun).nodup

/-- Two requests for different names that are handled at the same time. -/
theorem names_unique_two :
    let events : List Event :=
      [.accept (.provision (named "a")), .accept (.provision (named "b")), .advance 0, .advance 1,
        .advance 0, .advance 1, .advance 0, .advance 1]
    ∃ s, Transition.run step start events = some s ∧ s.running = [named "a", named "b"] ∧
      (s.running.map (·.id)).Nodup := by
  intro events
  have hrun : Transition.run step start events = some
      { running := [named "a", named "b"], handlers :=
        [⟨.provision (named "a"), .completed⟩, ⟨.provision (named "b"), .completed⟩] } := rfl
  exact ⟨_, hrun, rfl, names_unique (by simp [events]) hrun (by decide)⟩

/-- Two requests for one name that both pass the check before one of them registers its VM. -/
theorem names_collide :
    let events : List Event :=
      [.accept (.provision (named "a")), .accept (.provision (named "a")), .advance 0, .advance 1,
        .advance 0, .advance 1, .advance 0, .advance 1]
    (∀ e ∈ events, ∀ name, e ≠ .accept (.kill name)) ∧
      ∃ s, Transition.run step start events = some s ∧ s.running = [named "a", named "a"] ∧
        ¬ (s.running.map (·.id)).Nodup := by
  refine ⟨by simp, { running := [named "a", named "a"], handlers :=
    [⟨.provision (named "a"), .completed⟩, ⟨.provision (named "a"), .completed⟩] }, rfl, rfl, by decide⟩

end VMServer
