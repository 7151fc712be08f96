import Mathlib.Data.List.Basic
import Mathlib.Data.List.Induction

/-!
# Labelled transition systems given by a step function

A system is a function `step : σ → ℓ → Option σ`: in a state, a label is either not enabled
(`none`) or leads to the next state. A schedule is a list of labels; `run` executes it. The
induction principles below are what invariant proofs use: an invariant only has to be shown
preserved by one step.
-/

namespace Transition

variable {σ ℓ : Type} (step : σ → ℓ → Option σ)

/-- Executes a schedule; `none` when some label is not enabled where the schedule takes it. -/
def run : σ → List ℓ → Option σ
  | s, [] => some s
  | s, l :: ls =>
    match step s l with
    | some s' => run s' ls
    | none => none

/-- Every step of the schedule meets `C`, a condition on the state before the step and its label. -/
def Guarded (C : σ → ℓ → Prop) : σ → List ℓ → Prop
  | _, [] => True
  | s, l :: ls => C s l ∧ ∀ s', step s l = some s' → Guarded C s' ls

/-- Every state that the schedule goes through satisfies `Q`. -/
def Throughout (Q : σ → Prop) : σ → List ℓ → Prop
  | s, [] => Q s
  | s, l :: ls => Q s ∧ ∀ s', step s l = some s' → Throughout Q s' ls

variable {step}

@[simp] theorem run_nil (s : σ) : run step s [] = some s := rfl

theorem run_cons {s s' : σ} {l : ℓ} {ls : List ℓ} (h : step s l = some s') :
    run step s (l :: ls) = run step s' ls := by
  simp [run, h]

/-- A schedule that runs takes an enabled first step. -/
theorem run_cons_some {s t : σ} {l : ℓ} {ls : List ℓ} (h : run step s (l :: ls) = some t) :
    ∃ s', step s l = some s' ∧ run step s' ls = some t := by
  cases hs : step s l with
  | none => simp [run, hs] at h
  | some s' => exact ⟨s', rfl, by rwa [run_cons hs] at h⟩

/-- A schedule that runs can be cut anywhere. -/
theorem run_append_some : ∀ {ls₁ ls₂ : List ℓ} {s t : σ}, run step s (ls₁ ++ ls₂) = some t →
    ∃ u, run step s ls₁ = some u ∧ run step u ls₂ = some t := by
  intro ls₁
  induction ls₁ with
  | nil => intro ls₂ s t h; exact ⟨s, rfl, h⟩
  | cons l ls₁ ih =>
    intro ls₂ s t h
    rw [List.cons_append] at h
    obtain ⟨s', hs, hrun⟩ := run_cons_some h
    obtain ⟨u, hu, ht⟩ := ih hrun
    exact ⟨u, by rw [run_cons hs]; exact hu, ht⟩

theorem run_append {ls₁ ls₂ : List ℓ} {s u : σ} (h : run step s ls₁ = some u) :
    run step s (ls₁ ++ ls₂) = run step u ls₂ := by
  induction ls₁ generalizing s with
  | nil => cases h; rfl
  | cons l ls₁ ih =>
    obtain ⟨s', hs, hrun⟩ := run_cons_some h
    rw [List.cons_append, run_cons hs, ih hrun]

/-- Induction over a run whose statement also mentions the labels taken so far. -/
theorem run_history {P : List ℓ → σ → Prop} {s : σ} (hinit : P [] s)
    (hstep : ∀ ls u l u', run step s ls = some u → P ls u → step u l = some u' → P (ls ++ [l]) u')
    {ls : List ℓ} {t : σ} (h : run step s ls = some t) : P ls t := by
  induction ls using List.reverseRecOn generalizing t with
  | nil => cases h; exact hinit
  | append_singleton ls l ih =>
    obtain ⟨u, hu, hl⟩ := run_append_some h
    obtain ⟨u', hu', hnil⟩ := run_cons_some hl
    cases hnil
    exact hstep ls u l _ hu (ih hu) hu'

/-- An invariant that every step preserves holds at the end of every run. -/
theorem run_invariant {P : σ → Prop} (hstep : ∀ s l s', P s → step s l = some s' → P s') :
    ∀ {ls : List ℓ} {s t : σ}, P s → run step s ls = some t → P t := by
  intro ls
  induction ls with
  | nil => intro s t hs h; cases h; exact hs
  | cons l ls ih =>
    intro s t hs h
    obtain ⟨s', hs', hrun⟩ := run_cons_some h
    exact ih (hstep s l s' hs hs') hrun

/-- The same for an invariant that only the steps meeting `C` preserve, in states satisfying `Q`. -/
theorem run_invariant_of_guarded {P Q : σ → Prop} {C : σ → ℓ → Prop}
    (hstep : ∀ s l s', P s → Q s → C s l → step s l = some s' → P s') :
    ∀ {ls : List ℓ} {s t : σ}, P s → Throughout step Q s ls → Guarded step C s ls →
      run step s ls = some t → P t := by
  intro ls
  induction ls with
  | nil => intro s t hs _ _ h; cases h; exact hs
  | cons l ls ih =>
    intro s t hs hq hg h
    obtain ⟨s', hs', hrun⟩ := run_cons_some h
    exact ih (hstep s l s' hs hq.1 hg.1 hs') (hq.2 s' hs') (hg.2 s' hs') hrun

/-- A guarded schedule meets its condition at each of its steps. -/
theorem Guarded.at {C : σ → ℓ → Prop} : ∀ {ls₁ ls₂ : List ℓ} {l : ℓ} {s u : σ},
    Guarded step C s (ls₁ ++ l :: ls₂) → run step s ls₁ = some u → C u l := by
  intro ls₁
  induction ls₁ with
  | nil => intro ls₂ l s u hg h; cases h; exact hg.1
  | cons l' ls₁ ih =>
    intro ls₂ l s u hg h
    obtain ⟨s', hs', hrun⟩ := run_cons_some h
    exact ih (hg.2 s' hs') hrun

/-- A schedule is guarded when each of its reachable steps meets the condition. -/
theorem guarded_iff {C : σ → ℓ → Prop} {ls : List ℓ} {s : σ} :
    Guarded step C s ls ↔
      ∀ ls₁ l ls₂ u, ls = ls₁ ++ l :: ls₂ → run step s ls₁ = some u → C u l := by
  refine ⟨fun h ls₁ l ls₂ u hls hrun => Guarded.at (hls ▸ h) hrun, ?_⟩
  intro h
  induction ls generalizing s with
  | nil => trivial
  | cons l ls ih =>
    refine ⟨h [] l ls s rfl rfl, fun s' hs' => ih ?_⟩
    intro ls₁ l' ls₂ u hls hrun
    exact h (l :: ls₁) l' ls₂ u (by rw [hls, List.cons_append]) (by rw [run_cons hs', hrun])

theorem Guarded.and {C D : σ → ℓ → Prop} {ls : List ℓ} {s : σ} (hc : Guarded step C s ls)
    (hd : Guarded step D s ls) : Guarded step (fun s l => C s l ∧ D s l) s ls :=
  guarded_iff.mpr fun ls₁ l ls₂ u hls hrun =>
    ⟨guarded_iff.mp hc ls₁ l ls₂ u hls hrun, guarded_iff.mp hd ls₁ l ls₂ u hls hrun⟩

/-- A property that each step keeps or destroys, by whether it meets `C`, holds at the end of a run
exactly when it held at the start and every step met `C`. -/
theorem run_iff_guarded {P : σ → Prop} {C : σ → ℓ → Prop}
    (hstep : ∀ s l s', step s l = some s' → (P s' ↔ P s ∧ C s l)) {ls : List ℓ} {s t : σ}
    (h : run step s ls = some t) : P t ↔ P s ∧ Guarded step C s ls := by
  induction ls generalizing s with
  | nil =>
    cases h
    exact (and_iff_left trivial).symm
  | cons l ls ih =>
    obtain ⟨s', hs', hrun⟩ := run_cons_some h
    have hguarded : Guarded step C s (l :: ls) ↔ C s l ∧ Guarded step C s' ls := by
      refine and_congr_right fun _ => ⟨fun hg => hg s' hs', fun hg s'' hs'' => ?_⟩
      rw [hs'] at hs''
      cases hs''
      exact hg
    rw [ih hrun, hstep s l s' hs', hguarded, and_assoc]

/-- A schedule can be checked against a decidable condition by running it. -/
instance decidableGuarded {C : σ → ℓ → Prop} [hC : ∀ s l, Decidable (C s l)] :
    ∀ (s : σ) (ls : List ℓ), Decidable (Guarded step C s ls)
  | _, [] => isTrue trivial
  | s, l :: ls =>
    match h : step s l with
    | none => decidable_of_iff (C s l) (by simp [Guarded, h])
    | some s' =>
      have : Decidable (Guarded step C s' ls) := decidableGuarded s' ls
      decidable_of_iff (C s l ∧ Guarded step C s' ls) (by simp [Guarded, h])

instance decidableThroughout {Q : σ → Prop} [hQ : DecidablePred Q] :
    ∀ (s : σ) (ls : List ℓ), Decidable (Throughout step Q s ls)
  | s, [] => hQ s
  | s, l :: ls =>
    match h : step s l with
    | none => decidable_of_iff (Q s) (by simp [Throughout, h])
    | some s' =>
      have : Decidable (Throughout step Q s' ls) := decidableThroughout s' ls
      decidable_of_iff (Q s ∧ Throughout step Q s' ls) (by simp [Throughout, h])

theorem guarded_of_forall {C : σ → ℓ → Prop} {ls : List ℓ} (h : ∀ s, ∀ l ∈ ls, C s l) (s : σ) :
    Guarded step C s ls :=
  guarded_iff.mpr fun ls₁ l ls₂ u hls _ => h u l (by simp [hls])

theorem throughout_true (s : σ) (ls : List ℓ) : Throughout step (fun _ => True) s ls := by
  induction ls generalizing s with
  | nil => trivial
  | cons l ls ih => exact ⟨trivial, fun s' _ => ih s'⟩

end Transition
