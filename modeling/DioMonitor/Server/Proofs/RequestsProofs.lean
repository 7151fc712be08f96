import DioMonitor.Server.Requests
import DioMonitor.Libvirt.Proofs.ClientProofs

/-!
# Proofs: concurrent requests

`step_cases` says what a step of the server can do, and the lemmas after it what the list of handlers is
then.
-/

namespace VMServer

open LibvirtClient

variable {s s' : State} {i j : ℕ} {h h' : Handler}

/-- What a step of a handler can do. -/
inductive Advance : List LibvirtVM → Request → Stage → List LibvirtVM → Stage → Prop where
  | refused {running : List LibvirtVM} {r : Request} : Advance running r .check running .finished
  | provision {running : List LibvirtVM} {vm : LibvirtVM} (h : hasVM running vm.id = false) :
      Advance running (.provision vm) .check running .find
  | kill {running : List LibvirtVM} {name : Str} (h : hasVM running name = true) :
      Advance running (.kill name) .check running .find
  | found {running : List LibvirtVM} {r : Request} (h : hasVM running r.name = true) :
      Advance running r .find running .copy
  | absent {running : List LibvirtVM} {r : Request} (h : hasVM running r.name = false) :
      Advance running r .find running (afterKill r)
  | copy {running : List LibvirtVM} {r : Request} :
      Advance running r .copy running (.assign (removeCopy r.name running))
  | assign {running res : List LibvirtVM} {r : Request} :
      Advance running r (.assign res) res (afterKill r)
  | push {running : List LibvirtVM} {vm : LibvirtVM} :
      Advance running (.provision vm) .install (running ++ [vm]) .completed
  | fail {running : List LibvirtVM} {r : Request} : Advance running r .install running .finished

theorem advance_cases {running running' : List LibvirtVM} {stage : Stage}
    (hadv : advance running h = some (running', stage)) :
    Advance running h.request h.stage running' stage := by
  obtain ⟨r, st⟩ := h
  unfold advance at hadv
  cases st with
  | check =>
    cases r with
    | provision vm =>
      simp only [Option.some.injEq, Prod.mk.injEq] at hadv
      obtain ⟨rfl, rfl⟩ := hadv
      cases hhas : hasVM running vm.id with
      | true => exact .refused
      | false => exact .provision hhas
    | kill name =>
      simp only [Option.some.injEq, Prod.mk.injEq] at hadv
      obtain ⟨rfl, rfl⟩ := hadv
      cases hhas : hasVM running name with
      | true => exact .kill hhas
      | false => exact .refused
  | find =>
    simp only [Option.some.injEq, Prod.mk.injEq, getVM_isSome] at hadv
    obtain ⟨rfl, rfl⟩ := hadv
    cases hhas : hasVM running r.name with
    | true => exact .found hhas
    | false => exact .absent hhas
  | copy =>
    simp only [Option.some.injEq, Prod.mk.injEq] at hadv
    obtain ⟨rfl, rfl⟩ := hadv
    exact .copy
  | assign res =>
    simp only [Option.some.injEq, Prod.mk.injEq] at hadv
    obtain ⟨rfl, rfl⟩ := hadv
    exact .assign
  | install =>
    cases r with
    | provision vm =>
      simp only [Option.some.injEq, Prod.mk.injEq] at hadv
      obtain ⟨rfl, rfl⟩ := hadv
      exact .push
    | kill name => cases hadv
  | completed => cases r <;> cases hadv
  | finished => cases r <;> cases hadv

/-- A step of the server accepts a request while the accepting loop is not busy, or advances one
handler. -/
theorem step_cases {e : Event} (hstep : step s e = some s') :
    (∃ r, e = .accept r ∧ (∀ h ∈ s.handlers, h.busy = false) ∧
      s' = { s with handlers := s.handlers ++ [{ request := r, stage := .check }] }) ∨
    (∃ i h stage, (e = .advance i ∨ stage = .finished) ∧ s.handlers[i]? = some h ∧
      Advance s.running h.request h.stage s'.running stage ∧
      s'.handlers = s.handlers.set i { h with stage }) := by
  cases e with
  | accept r =>
    simp only [step] at hstep
    split at hstep
    · rename_i hidle
      cases hstep
      exact Or.inl ⟨r, rfl, hidle, rfl⟩
    · cases hstep
  | advance i =>
    simp only [step] at hstep
    split at hstep
    · cases hstep
    · rename_i h hi
      split at hstep
      · cases hstep
      · rename_i running stage hadv
        cases hstep
        exact Or.inr ⟨i, h, stage, Or.inl rfl, hi, advance_cases hadv, rfl⟩
  | fail i =>
    simp only [step] at hstep
    split at hstep
    · cases hstep
    · rename_i h hi
      split at hstep
      · rename_i hstage
        cases hstep
        exact Or.inr ⟨i, h, .finished, Or.inr rfl, hi, hstage ▸ .fail, rfl⟩
      · cases hstep

/-! ## Handlers after a step -/

/-- The handlers after one of them advanced. -/
theorem getElem?_set_iff {hs : List Handler} (hi : hs[i]? = some h) {u : Handler} :
    (hs.set i h')[j]? = some u ↔ (j = i ∧ u = h') ∨ (j ≠ i ∧ hs[j]? = some u) := by
  have hlt : i < hs.length := (List.getElem?_eq_some_iff.mp hi).1
  rw [List.getElem?_set]
  by_cases hij : i = j
  · subst hij
    simp [hlt, eq_comm]
  · simp [hij, Ne.symm hij]

/-- The handlers after one more was accepted. -/
theorem getElem?_concat_iff {hs : List Handler} {u : Handler} :
    (hs ++ [h])[j]? = some u ↔ hs[j]? = some u ∨ (j = hs.length ∧ u = h) := by
  rcases Nat.lt_trichotomy j hs.length with hlt | rfl | hgt
  · rw [List.getElem?_append_left hlt]
    constructor
    · exact Or.inl
    · rintro (hu | ⟨rfl, -⟩)
      · exact hu
      · omega
  · simp [eq_comm]
  · rw [List.getElem?_eq_none (by simp; omega), List.getElem?_eq_none (by omega)]
    simp
    omega

/-- A handler that stays after the others advanced. -/
theorem mem_set {hs : List Handler} (hi : hs[i]? = some h) {u : Handler} (hu : u ∈ hs.set i h') :
    u = h' ∨ ∃ j, j ≠ i ∧ hs[j]? = some u := by
  obtain ⟨j, hj⟩ := List.mem_iff_getElem?.mp hu
  rcases (getElem?_set_iff hi).mp hj with ⟨-, rfl⟩ | ⟨hne, hj⟩
  · exact Or.inl rfl
  · exact Or.inr ⟨j, hne, hj⟩

theorem forall_mem_set {hs : List Handler} {P : Handler → Prop} (hold : ∀ u ∈ hs, P u) (hnew : P h') :
    ∀ u ∈ hs.set i h', P u := by
  intro u hu
  rcases List.mem_or_eq_of_mem_set hu with hu | rfl
  · exact hold u hu
  · exact hnew

theorem forall_mem_concat {hs : List Handler} {P : Handler → Prop} (hold : ∀ u ∈ hs, P u)
    (hnew : P h) : ∀ u ∈ hs ++ [h], P u :=
  List.forall_mem_append.mpr ⟨hold, List.forall_mem_singleton.mpr hnew⟩

/-- Two places that `R` relates are one place, also after a handler advanced that `R` relates to none of
the others. -/
theorem eq_of_set {hs : List Handler} {R : Handler → Handler → Prop} (hi : hs[i]? = some h)
    (hold : ∀ (j k : ℕ) (u v : Handler), hs[j]? = some u → hs[k]? = some v → R u v → j = k)
    (hnew : ∀ (j : ℕ) (u : Handler), j ≠ i → hs[j]? = some u → ¬ R h' u ∧ ¬ R u h')
    {j k : ℕ} {u v : Handler}
    (hj : (hs.set i h')[j]? = some u) (hk : (hs.set i h')[k]? = some v) (hr : R u v) : j = k := by
  rcases (getElem?_set_iff hi).mp hj with ⟨rfl, rfl⟩ | ⟨hji, hj'⟩
  · rcases (getElem?_set_iff hi).mp hk with ⟨rfl, -⟩ | ⟨hki, hk'⟩
    · rfl
    · exact absurd hr (hnew k v hki hk').1
  · rcases (getElem?_set_iff hi).mp hk with ⟨rfl, rfl⟩ | ⟨hki, hk'⟩
    · exact absurd hr (hnew j u hji hj').2
    · exact hold j k u v hj' hk' hr

/-- The same when `R` relates the handler to no more than before it advanced. -/
theorem eq_of_set_of_imp {hs : List Handler} {R : Handler → Handler → Prop} (hi : hs[i]? = some h)
    (hold : ∀ (j k : ℕ) (u v : Handler), hs[j]? = some u → hs[k]? = some v → R u v → j = k)
    (hleft : ∀ u, R h' u → R h u) (hright : ∀ u, R u h' → R u h) {j k : ℕ} {u v : Handler}
    (hj : (hs.set i h')[j]? = some u) (hk : (hs.set i h')[k]? = some v) (hr : R u v) : j = k := by
  refine eq_of_set hi hold (fun l w hli hl => ⟨fun hr => ?_, fun hr => ?_⟩) hj hk hr
  · exact hli (hold i l h w hi hl (hleft w hr)).symm
  · exact hli (hold l i w h hl hi (hright w hr))

/-- The same after one more handler was accepted, that `R` relates to none of the others. -/
theorem eq_of_concat {hs : List Handler} {R : Handler → Handler → Prop}
    (hold : ∀ (j k : ℕ) (u v : Handler), hs[j]? = some u → hs[k]? = some v → R u v → j = k)
    (hnew : ∀ u ∈ hs, ¬ R h u ∧ ¬ R u h) {j k : ℕ} {u v : Handler}
    (hj : (hs ++ [h])[j]? = some u) (hk : (hs ++ [h])[k]? = some v) (hr : R u v) : j = k := by
  rcases getElem?_concat_iff.mp hj with hj' | ⟨rfl, rfl⟩
  · rcases getElem?_concat_iff.mp hk with hk' | ⟨rfl, rfl⟩
    · exact hold j k u v hj' hk' hr
    · exact absurd hr (hnew u (List.mem_of_getElem? hj')).2
  · rcases getElem?_concat_iff.mp hk with hk' | ⟨rfl, -⟩
    · exact absurd hr (hnew v (List.mem_of_getElem? hk')).1
    · rfl

end VMServer
