import DioMonitor.Lib.Places
import DioMonitor.Server.Objects
import Mathlib.Data.List.Nodup

/-!
# Proofs: the VM objects that the handlers share

While requests for one VM are not handled at the same time, and the storage of the registry is replaced only
while no loop runs over it, no handler reads a deleted object or a freed storage or deletes an object twice,
and the registry holds no deleted one (`no_use_after_free`). Without the first condition a provision can
read the address of its VM after a kill deleted it (`read_after_kill`), without the second a lookup can read
the storage that another kill freed (`read_after_assignment`).
-/

namespace VMObjects

variable {s s' : State} {i j : ℕ} {h u : Handler} {v w : Obj}

/-! ## One turn of a loop -/

section Turns

variable {r : Request} {c : Scan} {vs : List Obj}

theorem checkTurn_nil (hc : c.rest = []) : checkTurn r c = afterCheck false r := by rw [checkTurn, hc]

theorem checkTurn_found (hc : c.rest = w :: vs) (hw : w.id = r.name) :
    checkTurn r c = afterCheck true r := by
  rw [checkTurn, hc]
  exact if_pos hw

theorem checkTurn_other (hc : c.rest = w :: vs) (hw : w.id ≠ r.name) :
    checkTurn r c = .checking { c with rest := vs } := by
  rw [checkTurn, hc]
  exact if_neg hw

theorem findTurn_nil (hc : c.rest = []) : findTurn r c = afterKill r := by rw [findTurn, hc]

theorem findTurn_found (hc : c.rest = w :: vs) (hw : w.id = r.name) : findTurn r c = afterFind w r := by
  rw [findTurn, hc]
  exact if_pos hw

theorem findTurn_other (hc : c.rest = w :: vs) (hw : w.id ≠ r.name) :
    findTurn r c = .finding { c with rest := vs } := by
  rw [findTurn, hc]
  exact if_neg hw

theorem copyTurn_nil (hc : c.rest = []) : copyTurn r v c = .assign v [] := by rw [copyTurn, hc]

theorem copyTurn_other (hc : c.rest = w :: vs) (hw : w.id ≠ r.name) :
    copyTurn r v c = .assign v [w] := by
  rw [copyTurn, hc]
  exact if_pos hw

theorem copyTurn_same (hc : c.rest = w :: vs) (hw : w.id = r.name) :
    copyTurn r v c = .copying v { c with rest := vs } := by
  rw [copyTurn, hc]
  exact if_neg (not_not.mpr hw)

end Turns

/-! ## What a step can do -/

def Stage.assigns : Stage → Bool
  | .assign _ _ => true
  | _ => false

/-- The storage of the registry is replaced only while no loop runs over it. -/
def Undisturbed (s : State) : Event → Prop
  | .advance i => (s.handlers[i]?).any (·.stage.assigns) = true → s.Unlocked
  | .grow _ => s.Unlocked
  | _ => True

/-- What a step of the handler `i` can do: to the registry and its storage, to the deleted objects and to
its stage. -/
inductive Stepped (s : State) (i : ℕ) (h : Handler) : List Obj → ℕ → List ℕ → Stage → Prop where
  | quit : Stepped s i h s.running s.storage s.freed .finished
  | checks (hstage : h.stage = .check) :
      Stepped s i h s.running s.storage s.freed (.checking ⟨s.storage, s.running⟩)
  | checked {c : Scan} (hstage : h.stage = .checking c) :
      Stepped s i h s.running s.storage s.freed (checkTurn h.request c)
  | finds (hstage : h.stage = .find) :
      Stepped s i h s.running s.storage s.freed (.finding ⟨s.storage, s.running⟩)
  | found {c : Scan} (hstage : h.stage = .finding c) :
      Stepped s i h s.running s.storage s.freed (findTurn h.request c)
  | destroyed {v : Obj} (hstage : h.stage = .destroy v) :
      Stepped s i h s.running s.storage s.freed (.copy v)
  | copies {v : Obj} (hstage : h.stage = .copy v) :
      Stepped s i h s.running s.storage s.freed (.copying v ⟨s.storage, s.running⟩)
  | copied {v : Obj} {c : Scan} (hstage : h.stage = .copying v c) :
      Stepped s i h s.running s.storage s.freed (copyTurn h.request v c)
  | assigned {v : Obj} {res : List Obj} (hstage : h.stage = .assign v res) (hlock : s.Unlocked) :
      Stepped s i h res (s.storage + 1) s.freed (.delete v)
  | deleted {v : Obj} (hstage : h.stage = .delete v) :
      Stepped s i h s.running s.storage (s.freed ++ [v.address]) (afterKill h.request)
  | pushed {storage : ℕ} (hstage : h.stage = .install) (hstorage : storage = s.storage ∨ s.Unlocked) :
      Stepped s i h (s.running ++ [⟨i, h.request.name⟩]) storage s.freed .answer
  | failed (hstage : h.stage = .install) :
      Stepped s i h s.running s.storage (s.freed ++ [i]) .finished

theorem active_of_advance (hadv : advance s i h = some s') : h.Active := by
  obtain ⟨r, stage⟩ := h
  intro hfinished
  have hstage : stage = .finished := hfinished
  subst hstage
  cases hadv

theorem advance_cases (hadv : advance s i h = some s')
    (hassign : ∀ v res, h.stage = .assign v res → s.Unlocked) :
    ∃ running storage freed stage, Stepped s i h running storage freed stage ∧
      s' = { running, storage, freed, handlers := s.handlers.set i { h with stage } } := by
  obtain ⟨r, stage⟩ := h
  cases stage with
  | check =>
    obtain ⟨-, heq⟩ := Option.ite_none_right_eq_some.mp hadv
    exact ⟨_, _, _, _, .checks rfl, (Option.some.inj heq).symm⟩
  | checking c => exact ⟨_, _, _, _, .checked rfl, (Option.some.inj hadv).symm⟩
  | find =>
    obtain ⟨-, heq⟩ := Option.ite_none_right_eq_some.mp hadv
    exact ⟨_, _, _, _, .finds rfl, (Option.some.inj heq).symm⟩
  | finding c => exact ⟨_, _, _, _, .found rfl, (Option.some.inj hadv).symm⟩
  | destroy v => exact ⟨_, _, _, _, .destroyed rfl, (Option.some.inj hadv).symm⟩
  | copy v =>
    obtain ⟨-, heq⟩ := Option.ite_none_right_eq_some.mp hadv
    exact ⟨_, _, _, _, .copies rfl, (Option.some.inj heq).symm⟩
  | copying v c => exact ⟨_, _, _, _, .copied rfl, (Option.some.inj hadv).symm⟩
  | assign v res => exact ⟨_, _, _, _, .assigned rfl (hassign v res rfl), (Option.some.inj hadv).symm⟩
  | delete v => exact ⟨_, _, _, _, .deleted rfl, (Option.some.inj hadv).symm⟩
  | install => exact ⟨_, _, _, _, .pushed rfl (Or.inl rfl), (Option.some.inj hadv).symm⟩
  | answer => exact ⟨_, _, _, _, .quit, (Option.some.inj hadv).symm⟩
  | use v => exact ⟨_, _, _, _, .quit, (Option.some.inj hadv).symm⟩
  | finished => cases hadv

theorem active_of_stage {stage : Stage} (hstage : h.stage = stage) (hne : stage ≠ .finished) :
    h.Active := by
  rw [Handler.Active, hstage]
  exact hne

theorem step_cases {e : Event} (hstep : step s e = some s') (hstill : Undisturbed s e) :
    (∃ r, e = .accept r ∧ (∀ h ∈ s.handlers, h.request.spawned = false → ¬ h.Active) ∧
      s' = { s with handlers := s.handlers ++ [{ request := r, stage := .check }] }) ∨
    ∃ i h running storage freed stage, s.handlers[i]? = some h ∧
      Stepped s i h running storage freed stage ∧ h.Active ∧
      s' = { running, storage, freed, handlers := s.handlers.set i { h with stage } } := by
  cases e with
  | accept r =>
    obtain ⟨hidle, heq⟩ := Option.ite_none_right_eq_some.mp hstep
    exact Or.inl ⟨r, rfl, hidle, (Option.some.inj heq).symm⟩
  | advance i =>
    simp only [step] at hstep
    split at hstep
    · cases hstep
    · rename_i h hi
      have hassign : ∀ v res, h.stage = .assign v res → s.Unlocked := by
        intro v res hstage
        refine hstill ?_
        rw [hi, Option.any_some, hstage]
        rfl
      obtain ⟨running, storage, freed, stage, hs, heq⟩ := advance_cases hstep hassign
      exact Or.inr ⟨i, h, running, storage, freed, stage, hi, hs, active_of_advance hstep, heq⟩
  | grow i =>
    simp only [step] at hstep
    split at hstep
    · cases hstep
    · rename_i h hi
      obtain ⟨hstage, heq⟩ := Option.ite_none_right_eq_some.mp hstep
      have hactive := active_of_stage hstage (by simp)
      exact Or.inr ⟨i, h, _, _, _, _, hi, .pushed hstage (Or.inr hstill), hactive,
        (Option.some.inj heq).symm⟩
  | reject i =>
    simp only [step] at hstep
    split at hstep
    · cases hstep
    · rename_i h hi
      obtain ⟨hstage, heq⟩ := Option.ite_none_right_eq_some.mp hstep
      have hactive := active_of_stage hstage.2 (by simp)
      exact Or.inr ⟨i, h, _, _, _, _, hi, .quit, hactive, (Option.some.inj heq).symm⟩
  | fail i =>
    simp only [step] at hstep
    split at hstep
    · cases hstep
    · rename_i h hi
      obtain ⟨hstage, heq⟩ := Option.ite_none_right_eq_some.mp hstep
      have hactive := active_of_stage hstage (by simp)
      exact Or.inr ⟨i, h, _, _, _, _, hi, .failed hstage, hactive, (Option.some.inj heq).symm⟩

/-! ## The invariant -/

/-- The object was built by a provision of its name that registered it. -/
def Built (s : State) (v : Obj) : Prop :=
  ∃ h, s.handlers[v.address]? = some h ∧ h.request = .provision v.id ∧
    (h.stage = .answer ∨ h.stage = .finished)

/-- The object that a handler keeps a pointer to. -/
def Stage.held : Stage → Option Obj
  | .destroy v => some v
  | .copy v => some v
  | .copying v _ => some v
  | .assign v _ => some v
  | .delete v => some v
  | .use v => some v
  | _ => none

/-- A provision in this stage has begun to look for its name, and did not register its VM yet. -/
def Stage.Pending : Stage → Prop
  | .checking _ => True
  | .find => True
  | .finding _ => True
  | .install => True
  | _ => False

/-- The objects that the loop of `hasVM` has still to compare. -/
def Stage.unread : Stage → List Obj
  | .checking c => c.rest
  | _ => []

/-- No VM of the name of the request is registered, but for those not compared yet: a provision is to
register one, or a kill just removed it. -/
def Handler.Absent (h : Handler) : Prop :=
  (h.request.spawned ∧ h.stage.Pending) ∨ ∃ v, h.stage = .delete v

/-- What a handler relies on. -/
structure Fine (s : State) (i : ℕ) (h : Handler) : Prop where
  own : h.Active → h.request.spawned → i ∉ s.freed
  held : ∀ v, h.stage.held = some v →
    h.request.spawned = false ∧ v.id = h.request.name ∧ Built s v ∧ v.address ∉ s.freed
  scan : ∀ c, h.stage.scan = some c → c.storage = s.storage ∧ c.rest ⊆ s.running
  copied : ∀ v res, h.stage = .assign v res →
    res.Sublist s.running ∧ ∀ w ∈ res, w.id ≠ h.request.name
  gone : h.Absent → ∀ w ∈ s.running, w.id = h.request.name → w ∈ h.stage.unread
  spawned : h.stage = .install ∨ h.stage = .answer → h.request.spawned

/-- The two handlers are of one name, or both of the accepting loop, and are not finished. -/
def Clash (h u : Handler) : Prop :=
  h.Active ∧ u.Active ∧
    (h.request.name = u.request.name ∨ (h.request.spawned = false ∧ u.request.spawned = false))

structure Inv (s : State) : Prop where
  apart : Places.Apart Clash s.handlers
  nodup : (s.running.map (·.id)).Nodup
  live : ∀ v ∈ s.running, Built s v ∧ v.address ∉ s.freed
  bound : ∀ a ∈ s.freed, a < s.handlers.length
  once : s.freed.Nodup
  fine : ∀ i h, s.handlers[i]? = some h → Fine s i h

/-- What a step of another handler leaves of what the handler `j` relies on. -/
structure Kept (s : State) (j : ℕ) (u : Handler) (running : List Obj) (storage : ℕ) (freed : List ℕ) :
    Prop where
  own : j ∈ freed → u.Active → u.request.spawned → j ∈ s.freed
  held : ∀ v, u.stage.held = some v → v.address ∈ freed → v.address ∈ s.freed
  scan : ∀ c, u.stage.scan = some c → storage = s.storage ∧ s.running ⊆ running
  copied : ∀ v res, u.stage = .assign v res → s.running.Sublist running
  gone : u.Absent → ∀ w ∈ running, w ∈ s.running ∨ w.id ≠ u.request.name

theorem Kept.refl (s : State) (j : ℕ) (u : Handler) : Kept s j u s.running s.storage s.freed where
  own hmem _ _ := hmem
  held _ _ hmem := hmem
  scan _ _ := ⟨rfl, List.Subset.refl _⟩
  copied _ _ _ := List.Sublist.refl _
  gone _ _ hw := Or.inl hw

/-- A handler that does not act keeps what it relies on. -/
theorem Fine.frame (hf : Fine s j u) (hbuilt : ∀ v, Built s v → Built s' v)
    (hkept : Kept s j u s'.running s'.storage s'.freed) : Fine s' j u where
  own hactive hspawned hmem := hf.own hactive hspawned (hkept.own hmem hactive hspawned)
  held v hv := by
    obtain ⟨hspawned, hid, hb, hlive⟩ := hf.held v hv
    exact ⟨hspawned, hid, hbuilt v hb, fun hmem => hlive (hkept.held v hv hmem)⟩
  scan c hc := by
    obtain ⟨hstorage, hrest⟩ := hf.scan c hc
    obtain ⟨hsame, hsub⟩ := hkept.scan c hc
    exact ⟨hstorage.trans hsame.symm, List.Subset.trans hrest hsub⟩
  copied v res hstage := by
    obtain ⟨hsub, hid⟩ := hf.copied v res hstage
    exact ⟨hsub.trans (hkept.copied v res hstage), hid⟩
  gone habsent w hw hid := by
    rcases hkept.gone habsent w hw with hw | hne
    · exact hf.gone habsent w hw hid
    · exact absurd hid hne
  spawned := hf.spawned

/-- The state after the handler `i` made a step. -/
def State.after (s : State) (i : ℕ) (h : Handler) (running : List Obj) (storage : ℕ) (freed : List ℕ)
    (stage : Stage) : State :=
  { running, storage, freed, handlers := s.handlers.set i { h with stage } }

variable {running : List Obj} {storage : ℕ} {freed : List ℕ} {stage : Stage}

theorem request_of_spawned {r : Request} (h : r.spawned) : r = .provision r.name := by
  cases r with
  | provision name => rfl
  | kill name => cases h
  | use name => cases h

theorem Built.after (hb : Built s v) (hi : s.handlers[i]? = some h) (hactive : h.Active)
    (hanswer : h.stage = .answer → stage = .finished) : Built (s.after i h running storage freed stage) v := by
  obtain ⟨u, hu, hreq, hstage⟩ := hb
  by_cases hv : v.address = i
  · rw [hv, hi, Option.some.injEq] at hu
    subst hu
    refine ⟨{ h with stage }, (Places.set_iff hi).mpr (Or.inl ⟨hv, rfl⟩), hreq, Or.inr ?_⟩
    rcases hstage with hstage | hstage
    · exact hanswer hstage
    · exact absurd hstage hactive
  · exact ⟨u, (Places.set_iff hi).mpr (Or.inr ⟨hv, hu⟩), hreq, hstage⟩

/-- The objects at one address are one. -/
theorem Built.id_eq (hv : Built s v) (hw : Built s w) (h : v.address = w.address) : v.id = w.id := by
  obtain ⟨x, hx, hxreq, -⟩ := hv
  obtain ⟨y, hy, hyreq, -⟩ := hw
  rw [h, hy, Option.some.injEq] at hx
  subst hx
  rw [hxreq] at hyreq
  exact Request.provision.inj hyreq

theorem Clash.of_stage (h' : ({ h with stage } : Handler).Active → h.Active) :
    (Clash { h with stage } u → Clash h u) ∧ (Clash u { h with stage } → Clash u h) :=
  ⟨fun hc => ⟨h' hc.1, hc.2⟩, fun hc => ⟨hc.1, h' hc.2.1, hc.2.2⟩⟩

/-- A step keeps the invariant when the handler finds what it relies on after it, and the others keep
theirs. -/
theorem Inv.after (hs : Inv s) (hi : s.handlers[i]? = some h) (hactive : h.Active)
    (hanswer : h.stage = .answer → stage = .finished) (hnodup : (running.map (·.id)).Nodup)
    (hlive : ∀ w ∈ running, Built (s.after i h running storage freed stage) w ∧ w.address ∉ freed)
    (hbound : ∀ a ∈ freed, a < s.handlers.length) (honce : freed.Nodup)
    (hfine : Fine (s.after i h running storage freed stage) i { h with stage })
    (hothers : ∀ j u, j ≠ i → s.handlers[j]? = some u → Kept s j u running storage freed) :
    Inv (s.after i h running storage freed stage) where
  apart := by
    apply hs.apart.set hi
    · exact fun u => (Clash.of_stage fun _ => hactive).1
    · exact fun u => (Clash.of_stage fun _ => hactive).2
  nodup := hnodup
  live := hlive
  bound a ha := by
    show a < (s.handlers.set i { h with stage }).length
    rw [List.length_set]
    exact hbound a ha
  once := honce
  fine j u hj := by
    rcases (Places.set_iff hi).mp hj with ⟨rfl, rfl⟩ | ⟨hji, hj⟩
    · exact hfine
    · exact (hs.fine j u hj).frame (fun v hv => hv.after hi hactive hanswer) (hothers j u hji hj)

/-- A step that leaves the registry and the objects alone. -/
theorem Inv.moved (hs : Inv s) (hi : s.handlers[i]? = some h) (hactive : h.Active)
    (hanswer : h.stage = .answer → stage = .finished)
    (hfine : Fine (s.after i h s.running s.storage s.freed stage) i { h with stage }) :
    Inv (s.after i h s.running s.storage s.freed stage) := by
  refine hs.after hi hactive hanswer hs.nodup ?_ hs.bound hs.once hfine ?_
  · exact fun w hw => ⟨(hs.live w hw).1.after hi hactive hanswer, (hs.live w hw).2⟩
  · exact fun j u _ _ => .refl s j u

/-- What a handler relies on that keeps no pointer. -/
theorem fine_free {r : Request} (hown : r.spawned → i ∉ s.freed) (hheld : stage.held = none)
    (hscan : ∀ c, stage.scan = some c → c.storage = s.storage ∧ c.rest ⊆ s.running)
    (hgone : r.spawned → stage.Pending → ∀ w ∈ s.running, w.id = r.name → w ∈ stage.unread)
    (hspawned : stage = .install ∨ stage = .answer → r.spawned) : Fine s i { request := r, stage } where
  own _ := hown
  held v hv := by
    rw [show stage.held = some v from hv] at hheld
    cases hheld
  scan := hscan
  copied v res hstage := by
    rw [show stage = .assign v res from hstage] at hheld
    cases hheld
  gone habsent := by
    rcases habsent with ⟨hsp, hpending⟩ | ⟨v, hstage⟩
    · exact hgone hsp hpending
    · rw [show stage = .delete v from hstage] at hheld
      cases hheld
  spawned := hspawned

/-- A handler that is finished relies on nothing. -/
theorem fine_finished (s : State) (i : ℕ) (r : Request) : Fine s i { request := r, stage := .finished } where
  own hactive := absurd rfl hactive
  held _ hv := by cases hv
  scan _ hc := by cases hc
  copied _ _ hstage := by cases hstage
  gone habsent := by
    rcases habsent with ⟨-, hpending⟩ | ⟨v, hstage⟩
    · cases hpending
    · cases hstage
  spawned hstage := by
    rcases hstage with hstage | hstage <;> cases hstage

/-! ## One step -/

theorem not_answer {old : Stage} (hstage : h.stage = old) (hne : old ≠ .answer) :
    h.stage = .answer → stage = .finished := fun hanswer => absurd (hstage.symm.trans hanswer) hne

/-- Only the steps of the accepting loop keep a pointer to an object that is not their own. -/
theorem Inv.eq_of_held (hs : Inv s) (hi : s.handlers[i]? = some h) (hj : s.handlers[j]? = some u)
    (hh : h.stage.held = some v) (hu : u.stage.held = some w) : j = i := by
  have hactive : ∀ {x : Handler} {y : Obj}, x.stage.held = some y → x.Active := by
    intro x y hx hfinished
    rw [hfinished] at hx
    cases hx
  have hspawned := ((hs.fine i h hi).held v hh).1
  have huspawned := ((hs.fine j u hj).held w hu).1
  exact hs.apart j i u h hj hi ⟨hactive hu, hactive hh, Or.inr ⟨huspawned, hspawned⟩⟩

/-- What a handler of the accepting loop relies on when it keeps a pointer. -/
theorem fine_held {r : Request} (hspawned : r.spawned = false) (hv : stage.held = some v)
    (hid : v.id = r.name) (hbuilt : Built s v) (hlive : v.address ∉ s.freed)
    (hscan : ∀ c, stage.scan = some c → c.storage = s.storage ∧ c.rest ⊆ s.running)
    (hcopied : ∀ w res, stage = .assign w res → res.Sublist s.running ∧ ∀ x ∈ res, x.id ≠ r.name)
    (hgone : ∀ w, stage = .delete w → ∀ x ∈ s.running, x.id ≠ r.name) :
    Fine s i { request := r, stage } where
  own _ hsp := by
    rw [hspawned] at hsp
    cases hsp
  held w hw := by
    have heq : w = v := Option.some.inj (hw.symm.trans hv)
    subst heq
    exact ⟨hspawned, hid, hbuilt, hlive⟩
  scan := hscan
  copied := hcopied
  gone habsent := by
    rcases habsent with ⟨hsp, -⟩ | ⟨w, hstage⟩
    · rw [hspawned] at hsp
      cases hsp
    · exact fun x hx hname => absurd hname (hgone w hstage x hx)
  spawned hstage := by
    rcases hstage with hstage | hstage
    · rw [show stage = .install from hstage] at hv
      cases hv
    · rw [show stage = .answer from hstage] at hv
      cases hv

theorem Inv.checks (hs : Inv s) (hi : s.handlers[i]? = some h) (hactive : h.Active)
    (hstage : h.stage = .check) :
    Inv (s.after i h s.running s.storage s.freed (.checking ⟨s.storage, s.running⟩)) := by
  apply hs.moved hi hactive (not_answer hstage (by simp))
  refine fine_free ((hs.fine i h hi).own hactive) rfl ?_ (fun _ _ w hw _ => hw) ?_
  · rintro c ⟨rfl⟩
    exact ⟨rfl, List.Subset.refl _⟩
  · rintro (hst | hst) <;> cases hst

/-- What a handler relies on after `hasVM`. -/
theorem fine_afterCheck {r : Request} {found : Bool} (hown : r.spawned → i ∉ s.freed)
    (hgone : found = false → r.spawned → ∀ w ∈ s.running, w.id ≠ r.name) :
    Fine s i { request := r, stage := afterCheck found r } := by
  unfold afterCheck
  split_ifs with hsame
  · exact fine_finished _ _ _
  · refine fine_free hown rfl nofun (fun hsp _ w hw hid => ?_) (by simp)
    have hfound : found = false := by
      rw [hsp] at hsame
      exact Bool.eq_false_iff.mpr hsame
    exact absurd hid (hgone hfound hsp w hw)

/-- After each turn of `hasVM`, a VM of the name of a provision can only be among those not compared yet. -/
theorem Inv.checked (hs : Inv s) (hi : s.handlers[i]? = some h) (hactive : h.Active) {c : Scan}
    (hstage : h.stage = .checking c) :
    Inv (s.after i h s.running s.storage s.freed (checkTurn h.request c)) := by
  apply hs.moved hi hactive (not_answer hstage (by simp))
  have hown := (hs.fine i h hi).own hactive
  obtain ⟨hstorage, hrest⟩ := (hs.fine i h hi).scan c (by rw [hstage]; rfl)
  have hgone : h.request.spawned → ∀ w ∈ s.running, w.id = h.request.name → w ∈ c.rest := by
    intro hsp w hw hid
    have hmem := (hs.fine i h hi).gone (Or.inl ⟨hsp, by rw [hstage]; trivial⟩) w hw hid
    rwa [hstage] at hmem
  cases hc : c.rest with
  | nil =>
    rw [checkTurn_nil hc]
    refine fine_afterCheck hown fun _ hsp w hw hid => ?_
    have hmem := hgone hsp w hw hid
    rw [hc] at hmem
    cases hmem
  | cons v vs =>
    rw [hc] at hgone hrest
    by_cases hid : v.id = h.request.name
    · rw [checkTurn_found hc hid]
      exact fine_afterCheck hown nofun
    · rw [checkTurn_other hc hid]
      refine fine_free hown rfl ?_ (fun hsp _ w hw hname => ?_) (by simp)
      · rintro d ⟨rfl⟩
        exact ⟨hstorage, fun w hw => hrest (List.mem_cons_of_mem v hw)⟩
      · refine (List.mem_cons.mp (hgone hsp w hw hname)).resolve_left ?_
        rintro rfl
        exact hid hname

/-- No VM of the name of a provision is registered while it looks for one in `kill`. -/
theorem Inv.nobody (hs : Inv s) (hi : s.handlers[i]? = some h) (hsp : h.request.spawned)
    (hpending : h.stage.Pending) (hunread : h.stage.unread = []) :
    ∀ w ∈ s.running, w.id ≠ h.request.name := by
  intro w hw hid
  have hmem := (hs.fine i h hi).gone (Or.inl ⟨hsp, hpending⟩) w hw hid
  rw [hunread] at hmem
  cases hmem

theorem Inv.finds (hs : Inv s) (hi : s.handlers[i]? = some h) (hactive : h.Active)
    (hstage : h.stage = .find) :
    Inv (s.after i h s.running s.storage s.freed (.finding ⟨s.storage, s.running⟩)) := by
  apply hs.moved hi hactive (not_answer hstage (by simp))
  refine fine_free ((hs.fine i h hi).own hactive) rfl ?_ ?_ ?_
  · rintro c ⟨rfl⟩
    exact ⟨rfl, List.Subset.refl _⟩
  · intro hsp _ w hw hid
    exact absurd hid (hs.nobody hi hsp (by rw [hstage]; trivial) (by rw [hstage]; rfl) w hw)
  · rintro (hst | hst) <;> cases hst

theorem Inv.found (hs : Inv s) (hi : s.handlers[i]? = some h) (hactive : h.Active) {c : Scan}
    (hstage : h.stage = .finding c) :
    Inv (s.after i h s.running s.storage s.freed (findTurn h.request c)) := by
  have hanswer : ∀ {stage : Stage}, h.stage = .answer → stage = .finished := not_answer hstage (by simp)
  apply hs.moved hi hactive hanswer
  have hown := (hs.fine i h hi).own hactive
  obtain ⟨hstorage, hrest⟩ := (hs.fine i h hi).scan c (by rw [hstage]; rfl)
  -- a provision found no VM when it checked the name, and none was registered since
  have hnobody : h.request.spawned → ∀ w ∈ s.running, w.id ≠ h.request.name :=
    fun hsp => hs.nobody hi hsp (by rw [hstage]; trivial) (by rw [hstage]; rfl)
  cases hc : c.rest with
  | nil =>
    rw [findTurn_nil hc]
    obtain ⟨r, st⟩ := h
    cases r with
    | provision name =>
      refine fine_free hown rfl nofun (fun hsp _ w hw hid => ?_) (fun _ => rfl)
      exact absurd hid (hnobody hsp w hw)
    | kill name => exact fine_finished _ _ _
    | use name => exact fine_finished _ _ _
  | cons v vs =>
    rw [hc] at hrest
    by_cases hid : v.id = h.request.name
    · rw [findTurn_found hc hid]
      have hmem : v ∈ s.running := hrest List.mem_cons_self
      obtain ⟨hbuilt, hlive⟩ := hs.live v hmem
      obtain ⟨r, st⟩ := h
      cases r with
      | provision name => exact absurd hid (hnobody rfl v hmem)
      | kill name => exact fine_held rfl rfl hid (hbuilt.after hi hactive hanswer) hlive nofun nofun nofun
      | use name => exact fine_held rfl rfl hid (hbuilt.after hi hactive hanswer) hlive nofun nofun nofun
    · rw [findTurn_other hc hid]
      refine fine_free hown rfl ?_ (fun hsp _ w hw hname => absurd hname (hnobody hsp w hw)) (by simp)
      rintro d ⟨rfl⟩
      exact ⟨hstorage, fun w hw => hrest (List.mem_cons_of_mem v hw)⟩

theorem Inv.destroyed (hs : Inv s) (hi : s.handlers[i]? = some h) (hactive : h.Active)
    (hstage : h.stage = .destroy v) : Inv (s.after i h s.running s.storage s.freed (.copy v)) := by
  have hanswer : h.stage = .answer → Stage.copy v = .finished := not_answer hstage (by simp)
  apply hs.moved hi hactive hanswer
  obtain ⟨hspawned, hid, hbuilt, hlive⟩ := (hs.fine i h hi).held v (by rw [hstage]; rfl)
  exact fine_held hspawned rfl hid (hbuilt.after hi hactive hanswer) hlive nofun nofun nofun

theorem Inv.copies (hs : Inv s) (hi : s.handlers[i]? = some h) (hactive : h.Active)
    (hstage : h.stage = .copy v) :
    Inv (s.after i h s.running s.storage s.freed (.copying v ⟨s.storage, s.running⟩)) := by
  have hanswer : h.stage = .answer → Stage.copying v ⟨s.storage, s.running⟩ = .finished :=
    not_answer hstage (by simp)
  apply hs.moved hi hactive hanswer
  obtain ⟨hspawned, hid, hbuilt, hlive⟩ := (hs.fine i h hi).held v (by rw [hstage]; rfl)
  refine fine_held hspawned rfl hid (hbuilt.after hi hactive hanswer) hlive ?_ nofun nofun
  rintro c ⟨rfl⟩
  exact ⟨rfl, List.Subset.refl _⟩

theorem Inv.copied (hs : Inv s) (hi : s.handlers[i]? = some h) (hactive : h.Active) {c : Scan}
    (hstage : h.stage = .copying v c) :
    Inv (s.after i h s.running s.storage s.freed (copyTurn h.request v c)) := by
  have hanswer : ∀ {stage : Stage}, h.stage = .answer → stage = .finished := not_answer hstage (by simp)
  apply hs.moved hi hactive hanswer
  obtain ⟨hspawned, hid, hbuilt, hlive⟩ := (hs.fine i h hi).held v (by rw [hstage]; rfl)
  obtain ⟨hstorage, hrest⟩ := (hs.fine i h hi).scan c (by rw [hstage]; rfl)
  cases hc : c.rest with
  | nil =>
    rw [copyTurn_nil hc]
    refine fine_held hspawned rfl hid (hbuilt.after hi hactive hanswer) hlive nofun ?_ nofun
    rintro _ _ ⟨rfl⟩
    exact ⟨List.nil_sublist _, nofun⟩
  | cons w ws =>
    rw [hc] at hrest
    by_cases hw : w.id = h.request.name
    · rw [copyTurn_same hc hw]
      refine fine_held hspawned rfl hid (hbuilt.after hi hactive hanswer) hlive ?_ nofun nofun
      rintro d ⟨rfl⟩
      exact ⟨hstorage, fun x hx => hrest (List.mem_cons_of_mem w hx)⟩
    · rw [copyTurn_other hc hw]
      refine fine_held hspawned rfl hid (hbuilt.after hi hactive hanswer) hlive nofun ?_ nofun
      rintro _ _ ⟨rfl⟩
      refine ⟨List.singleton_sublist.mpr (hrest List.mem_cons_self), fun x hx => ?_⟩
      rwa [List.mem_singleton.mp hx]

/-- The copy still is a part of the registry when it is assigned: only provisions can have registered VMs
since it was made. -/
theorem Inv.assigned (hs : Inv s) (hi : s.handlers[i]? = some h) (hactive : h.Active)
    {res : List Obj} (hstage : h.stage = .assign v res) (hlock : s.Unlocked) :
    Inv (s.after i h res (s.storage + 1) s.freed (.delete v)) := by
  have hanswer : h.stage = .answer → Stage.delete v = .finished := not_answer hstage (by simp)
  have hheld : h.stage.held = some v := by rw [hstage]; rfl
  obtain ⟨hspawned, hid, hbuilt, hlive⟩ := (hs.fine i h hi).held v hheld
  obtain ⟨hsub, hne⟩ := (hs.fine i h hi).copied v res hstage
  refine hs.after hi hactive hanswer ((hsub.map _).nodup hs.nodup) ?_ hs.bound hs.once ?_ ?_
  · intro w hw
    obtain ⟨hb, hl⟩ := hs.live w (hsub.subset hw)
    exact ⟨hb.after hi hactive hanswer, hl⟩
  · exact fine_held hspawned rfl hid (hbuilt.after hi hactive hanswer) hlive nofun nofun (fun _ _ => hne)
  · intro j u hji hj
    refine { Kept.refl s j u with
      scan := fun c hc => ?_, copied := fun w res' hst => ?_, gone := fun _ w hw => Or.inl (hsub.subset hw) }
    · exact absurd (hc.symm.trans (hlock u (List.mem_of_getElem? hj))) (by simp)
    · have hu : u.stage.held = some w := by rw [hst]; rfl
      exact absurd (hs.eq_of_held hi hj hheld hu) hji

/-- The deleted object is one that nobody else knows: another VM of its name would be registered or be
provisioned by now. -/
theorem Inv.deleted (hs : Inv s) (hi : s.handlers[i]? = some h) (hactive : h.Active)
    (hstage : h.stage = .delete v) :
    Inv (s.after i h s.running s.storage (s.freed ++ [v.address]) (afterKill h.request)) := by
  have hheld : h.stage.held = some v := by rw [hstage]; rfl
  obtain ⟨hspawned, hid, hbuilt, hlive⟩ := (hs.fine i h hi).held v hheld
  have hgone : ∀ w ∈ s.running, w.id ≠ h.request.name := by
    intro w hw hname
    have hmem := (hs.fine i h hi).gone (Or.inr ⟨v, hstage⟩) w hw hname
    rw [hstage] at hmem
    cases hmem
  have hkill : afterKill h.request = .finished := by
    cases hr : h.request with
    | provision name =>
      rw [hr] at hspawned
      cases hspawned
    | kill name => rfl
    | use name => rfl
  rw [hkill]
  have hanswer : h.stage = .answer → Stage.finished = .finished := fun _ => rfl
  -- the objects of other names are elsewhere
  have helse : ∀ w, Built s w → w.id ≠ h.request.name → w.address ≠ v.address := by
    intro w hw hne heq
    exact hne ((hw.id_eq hbuilt heq).trans hid)
  refine hs.after hi hactive hanswer hs.nodup ?_ ?_ ?_ (fine_finished _ _ _) ?_
  · intro w hw
    obtain ⟨hb, hl⟩ := hs.live w hw
    refine ⟨hb.after hi hactive hanswer, fun hmem => ?_⟩
    rcases List.mem_append.mp hmem with hmem | hmem
    · exact hl hmem
    · exact helse w hb (hgone w hw) (List.mem_singleton.mp hmem)
  · intro a ha
    rcases List.mem_append.mp ha with ha | ha
    · exact hs.bound a ha
    · obtain ⟨x, hx, -, -⟩ := hbuilt
      rw [List.mem_singleton.mp ha]
      exact Places.lt_length hx
  · rw [← List.concat_eq_append]
    exact hs.once.concat hlive
  · intro j u hji hj
    refine { Kept.refl s j u with own := fun hmem huactive husp => ?_, held := fun w hw hmem => ?_ }
    · rcases List.mem_append.mp hmem with hmem | hmem
      · exact hmem
      · -- a provision that still runs did not build a VM of this name
        have haddress := List.mem_singleton.mp hmem
        obtain ⟨x, hx, hreq, -⟩ := hbuilt
        rw [← haddress, hj, Option.some.injEq] at hx
        subst hx
        have hname : u.request.name = h.request.name := by
          rw [hreq]
          exact hid
        exact absurd (hs.apart j i u h hj hi ⟨huactive, hactive, Or.inl hname⟩) hji
    · exact absurd (hs.eq_of_held hi hj hheld hw) hji

theorem Inv.pushed (hs : Inv s) (hi : s.handlers[i]? = some h) (hactive : h.Active)
    (hstage : h.stage = .install) (hstorage : storage = s.storage ∨ s.Unlocked) :
    Inv (s.after i h (s.running ++ [⟨i, h.request.name⟩]) storage s.freed .answer) := by
  have hanswer : h.stage = .answer → Stage.answer = .finished := not_answer hstage (by simp)
  have hspawned := (hs.fine i h hi).spawned (Or.inl hstage)
  have hown := (hs.fine i h hi).own hactive hspawned
  have hgone := hs.nobody hi hspawned (by rw [hstage]; trivial) (by rw [hstage]; rfl)
  refine hs.after hi hactive hanswer ?_ ?_ hs.bound hs.once ?_ ?_
  · rw [List.map_append, List.map_singleton, ← List.concat_eq_append]
    refine hs.nodup.concat fun hmem => ?_
    obtain ⟨w, hw, hid⟩ := List.mem_map.mp hmem
    exact hgone w hw hid
  · intro w hw
    rcases List.mem_append.mp hw with hw | hw
    · exact ⟨(hs.live w hw).1.after hi hactive hanswer, (hs.live w hw).2⟩
    · rw [List.mem_singleton.mp hw]
      refine ⟨⟨{ h with stage := .answer }, (Places.set_iff hi).mpr (Or.inl ⟨rfl, rfl⟩), ?_, Or.inl rfl⟩,
        hown⟩
      exact request_of_spawned hspawned
  · exact fine_free (fun _ => hown) rfl nofun nofun (fun _ => hspawned)
  · intro j u hji hj
    refine { Kept.refl s j u with
      scan := fun c hc => ?_
      copied := fun _ _ _ => List.sublist_append_left _ _
      gone := fun habsent w hw => ?_ }
    · rcases hstorage with hsame | hlock
      · exact ⟨hsame, List.subset_append_left _ _⟩
      · exact absurd (hc.symm.trans (hlock u (List.mem_of_getElem? hj))) (by simp)
    rcases List.mem_append.mp hw with hw | hw
    · exact Or.inl hw
    · rw [List.mem_singleton.mp hw]
      refine Or.inr fun hname => hji ?_
      have huactive : u.Active := by
        intro hfinished
        rcases habsent with ⟨-, hpending⟩ | ⟨w, hst⟩
        · rw [hfinished] at hpending
          cases hpending
        · exact absurd (hst.symm.trans hfinished) (by simp)
      exact hs.apart j i u h hj hi ⟨huactive, hactive, Or.inl hname.symm⟩

theorem Inv.failed (hs : Inv s) (hi : s.handlers[i]? = some h) (hactive : h.Active)
    (hstage : h.stage = .install) :
    Inv (s.after i h s.running s.storage (s.freed ++ [i]) .finished) := by
  have hanswer : h.stage = .answer → Stage.finished = .finished := fun _ => rfl
  have hspawned := (hs.fine i h hi).spawned (Or.inl hstage)
  have hown := (hs.fine i h hi).own hactive hspawned
  -- the VM of this handler was not registered yet, so nobody knows it
  have helse : ∀ w, Built s w → w.address ≠ i := by
    rintro w ⟨x, hx, -, hbuilt⟩ rfl
    rw [hi, Option.some.injEq] at hx
    subst hx
    rw [hstage] at hbuilt
    rcases hbuilt with hbuilt | hbuilt <;> cases hbuilt
  refine hs.after hi hactive hanswer hs.nodup ?_ ?_ ?_ (fine_finished _ _ _) ?_
  · intro w hw
    obtain ⟨hb, hl⟩ := hs.live w hw
    refine ⟨hb.after hi hactive hanswer, fun hmem => ?_⟩
    rcases List.mem_append.mp hmem with hmem | hmem
    · exact hl hmem
    · exact helse w hb (List.mem_singleton.mp hmem)
  · intro a ha
    rcases List.mem_append.mp ha with ha | ha
    · exact hs.bound a ha
    · rw [List.mem_singleton.mp ha]
      exact Places.lt_length hi
  · rw [← List.concat_eq_append]
    exact hs.once.concat hown
  · intro j u hji hj
    refine { Kept.refl s j u with own := fun hmem _ _ => ?_, held := fun w hw hmem => ?_ }
    · exact (List.mem_append.mp hmem).resolve_right fun hmem => hji (List.mem_singleton.mp hmem)
    · refine (List.mem_append.mp hmem).resolve_right fun hmem => ?_
      exact helse w ((hs.fine j u hj).held w hw).2.2.1 (List.mem_singleton.mp hmem)

theorem Inv.stepped (hs : Inv s) (hi : s.handlers[i]? = some h) (hactive : h.Active)
    (hstep : Stepped s i h running storage freed stage) :
    Inv (s.after i h running storage freed stage) := by
  cases hstep with
  | quit => exact hs.moved hi hactive (fun _ => rfl) (fine_finished _ _ _)
  | checks hstage => exact hs.checks hi hactive hstage
  | checked hstage => exact hs.checked hi hactive hstage
  | finds hstage => exact hs.finds hi hactive hstage
  | found hstage => exact hs.found hi hactive hstage
  | destroyed hstage => exact hs.destroyed hi hactive hstage
  | copies hstage => exact hs.copies hi hactive hstage
  | copied hstage => exact hs.copied hi hactive hstage
  | assigned hstage hlock => exact hs.assigned hi hactive hstage hlock
  | deleted hstage => exact hs.deleted hi hactive hstage
  | pushed hstage hstorage => exact hs.pushed hi hactive hstage hstorage
  | failed hstage => exact hs.failed hi hactive hstage

/-! ## Whole runs -/

/-- A request is accepted only while no other request for the same VM is being handled. -/
def Separate (s : State) : Event → Prop
  | .accept r => ∀ h ∈ s.handlers, h.Active → h.request.name ≠ r.name
  | _ => True

instance (s : State) : ∀ e, Decidable (Separate s e)
  | .accept _ => inferInstanceAs (Decidable (∀ _ ∈ _, _ → _))
  | .advance _ => isTrue trivial
  | .grow _ => isTrue trivial
  | .reject _ => isTrue trivial
  | .fail _ => isTrue trivial

instance (s : State) : ∀ e, Decidable (Undisturbed s e)
  | .accept _ => isTrue trivial
  | .advance _ => inferInstanceAs (Decidable (_ → _))
  | .grow _ => inferInstanceAs (Decidable s.Unlocked)
  | .reject _ => isTrue trivial
  | .fail _ => isTrue trivial

theorem inv_start : Inv start where
  apart i j h u hi := by cases hi
  nodup := List.nodup_nil
  live v hv := by cases hv
  bound a ha := by cases ha
  once := List.nodup_nil
  fine i h hi := by cases hi

theorem Inv.accepted (hs : Inv s) {r : Request}
    (hidle : ∀ h ∈ s.handlers, h.request.spawned = false → ¬ h.Active)
    (hseparate : ∀ h ∈ s.handlers, h.Active → h.request.name ≠ r.name) :
    Inv { s with handlers := s.handlers ++ [{ request := r, stage := .check }] } := by
  have hbuilt : ∀ v, Built s v →
      Built { s with handlers := s.handlers ++ [{ request := r, stage := .check }] } v := by
    rintro v ⟨h, hh, hreq, hstage⟩
    exact ⟨h, Places.concat_iff.mpr (Or.inl hh), hreq, hstage⟩
  refine ⟨?_, hs.nodup, fun v hv => ⟨hbuilt v (hs.live v hv).1, (hs.live v hv).2⟩, ?_, hs.once, ?_⟩
  · refine hs.apart.concat fun h hh => ⟨?_, ?_⟩
    · rintro ⟨hactive, -, hname | ⟨hspawned, -⟩⟩
      · exact hseparate h hh hactive hname
      · exact hidle h hh hspawned hactive
    · rintro ⟨-, hactive, hname | ⟨-, hspawned⟩⟩
      · exact hseparate h hh hactive hname.symm
      · exact hidle h hh hspawned hactive
  · intro a ha
    rw [List.length_append]
    exact Nat.lt_add_right _ (hs.bound a ha)
  · intro j u hj
    rcases Places.concat_iff.mp hj with hj | ⟨rfl, rfl⟩
    · exact (hs.fine j u hj).frame hbuilt (.refl s j u)
    · exact fine_free (fun _ hmem => Nat.lt_irrefl _ (hs.bound _ hmem)) rfl nofun nofun (by simp)

theorem Inv.step {e : Event} (hs : Inv s) (hseparate : Separate s e) (hstill : Undisturbed s e)
    (hstep : VMObjects.step s e = some s') : Inv s' := by
  rcases step_cases hstep hstill with
    ⟨r, rfl, hidle, rfl⟩ | ⟨i, h, running, storage, freed, stage, hi, hst, hactive, rfl⟩
  · exact hs.accepted hidle hseparate
  · exact hs.stepped hi hactive hst

theorem inv_run {es : List Event} (hrun : Transition.run step start es = some s)
    (hseparate : Transition.Guarded step Separate start es)
    (hstill : Transition.Guarded step Undisturbed start es) : Inv s :=
  Transition.run_invariant_of_guarded (Q := fun _ => True)
    (fun _ _ _ hs _ hc hstep => hs.step hc.1 hc.2 hstep) inv_start (Transition.throughout_true _ _)
    (hseparate.and hstill) hrun

/-- What a handler accesses next is not deleted. -/
theorem Inv.accessed (hs : Inv s) (hi : s.handlers[i]? = some h) :
    ∀ v ∈ accessed i h, v.address ∉ s.freed := by
  have hfine := hs.fine i h hi
  have hscan : ∀ c, h.stage.scan = some c → ∀ v ∈ c.rest.take 1, v.address ∉ s.freed :=
    fun c hc v hv => (hs.live v ((hfine.scan c hc).2 (List.mem_of_mem_take hv))).2
  have hheld : ∀ {v : Obj}, h.stage.held = some v → ∀ w ∈ [v], w.address ∉ s.freed := by
    intro v hv w hw
    rw [List.mem_singleton.mp hw]
    exact (hfine.held v hv).2.2.2
  have hown : h.Active → h.request.spawned →
      ∀ w ∈ [(⟨i, h.request.name⟩ : Obj)], w.address ∉ s.freed := by
    intro hactive hspawned w hw
    rw [List.mem_singleton.mp hw]
    exact hfine.own hactive hspawned
  have hmine : h.Active → ∀ w ∈ (if h.request.spawned then [(⟨i, h.request.name⟩ : Obj)] else []),
      w.address ∉ s.freed := by
    intro hactive
    split_ifs with hspawned
    · exact hown hactive hspawned
    · exact fun _ hw => absurd hw List.not_mem_nil
  have hnil : ∀ w ∈ ([] : List Obj), w.address ∉ s.freed := fun _ hw => absurd hw List.not_mem_nil
  unfold VMObjects.accessed
  cases hstage : h.stage with
  | check | copy v | assign v res | finished => exact hnil
  | checking c | copying v c => exact hscan c (by rw [hstage]; rfl)
  | find => exact hmine (active_of_stage hstage (by simp))
  | finding c =>
    intro v hv
    rcases List.mem_append.mp hv with hv | hv
    · exact hmine (active_of_stage hstage (by simp)) v hv
    · exact hscan c (by rw [hstage]; rfl) v hv
  | destroy v | delete v | use v => exact hheld (by rw [hstage]; rfl)
  | install => exact hown (active_of_stage hstage (by simp)) (hfine.spawned (Or.inl hstage))
  | answer => exact hown (active_of_stage hstage (by simp)) (hfine.spawned (Or.inr hstage))

/-- Two provisions and a kill: the VM of the first one is deleted while the second one is answered. -/
def killRun : List Event :=
  [.accept (.provision "a".toList), .advance 0, .advance 0, .advance 0, .advance 0,
    .accept (.provision "b".toList), .advance 1, .advance 1, .grow 0, .advance 0,
    .accept (.kill "a".toList), .advance 2, .advance 2, .advance 1, .advance 1, .advance 1, .advance 2,
    .advance 2, .grow 1, .advance 2, .advance 2, .advance 2, .advance 2, .advance 2, .advance 2]

theorem killRun_some : (Transition.run step start killRun).isSome = true := by decide +kernel

/-- A kill that is accepted between the registration of a VM and the reply to its provision. -/
def racingRun : List Event :=
  [.accept (.provision "a".toList), .advance 0, .advance 0, .advance 0, .advance 0, .grow 0,
    .accept (.kill "a".toList), .advance 1, .advance 1, .advance 1, .advance 1, .advance 1, .advance 1,
    .advance 1, .advance 1, .advance 1, .advance 1]

/-- While requests for one VM are handled at the same time, a provision reads the address of its VM after
the kill deleted it. -/
theorem read_after_kill :
    (Transition.run step start racingRun).map (fun s => (s.freed, (s.handlers[0]?).map (accessed 0))) =
      some ([0], some [⟨0, "a".toList⟩]) := by decide +kernel

/-- A provision whose loop of `hasVM` begins before a kill assigns the registry. -/
def lookupRun : List Event :=
  [.accept (.provision "a".toList), .advance 0, .advance 0, .advance 0, .advance 0, .grow 0, .advance 0,
    .accept (.provision "b".toList), .accept (.kill "a".toList), .advance 2, .advance 2, .advance 2,
    .advance 2, .advance 2, .advance 2, .advance 2, .advance 2, .advance 1, .advance 2, .advance 2]

/-- Requests for different VMs are enough: the loop goes on in the storage that the assignment freed, and at
an object that is deleted. -/
theorem read_after_assignment :
    Transition.Guarded step Separate start lookupRun ∧
      (Transition.run step start lookupRun).map
        (fun s => (s.storage, s.freed, (s.handlers[1]?).map fun h => (h.stage.scan, accessed 1 h))) =
        some (2, [0], some (some ⟨1, [⟨0, "a".toList⟩]⟩, [⟨0, "a".toList⟩])) := by decide +kernel

end VMObjects
