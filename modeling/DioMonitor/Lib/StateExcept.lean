import Mathlib.Tactic.TypeStar

/-!
# Running code that has a state and can fail

A computation that is followed by another one: either the second goes on from the result and the state
of the first, or the first has failed.
-/

namespace StateExcept

variable {σ ε α β : Type} {m : StateT σ (Except ε) α} {f : α → StateT σ (Except ε) β} {s s' : σ}

theorem bind_ok {a : α} (h : m s = .ok (a, s')) : (m >>= f) s = f a s' := by
  show (m s >>= fun r => f r.1 r.2) = _
  rw [h]
  rfl

theorem bind_error {e : ε} (h : m s = .error e) : (m >>= f) s = .error e := by
  show (m s >>= fun r => f r.1 r.2) = _
  rw [h]
  rfl

/-- The second computation has succeeded after the first. -/
theorem bind_eq_ok {r : β × σ} (h : (m >>= f) s = .ok r) :
    ∃ a s', m s = .ok (a, s') ∧ f a s' = .ok r := by
  cases hm : m s with
  | error e =>
    rw [bind_error hm] at h
    cases h
  | ok p =>
    rw [bind_ok hm] at h
    exact ⟨p.1, p.2, rfl, h⟩

end StateExcept
