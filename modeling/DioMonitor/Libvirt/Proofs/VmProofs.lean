import DioMonitor.Libvirt.Vm

/-!
# Building a VM from a configuration

A VM has the name that its section gives. Reading a field only throws exceptions of the program; the
other ways to fail are a missing `HOME` and controllers that do not fit in memory.
-/

open Config

section Bind

variable {ε α β : Type} {x : Except ε α} {f : α → Except ε β}

theorem except_bind_ok {b : β} (h : (x >>= f) = .ok b) : ∃ a, x = .ok a ∧ f a = .ok b := by
  cases x with
  | error e => exact absurd h nofun
  | ok a => exact ⟨a, rfl, h⟩

theorem except_bind_error {e : ε} (h : (x >>= f) = .error e) :
    x = .error e ∨ ∃ a, x = .ok a ∧ f a = .error e := by
  cases x with
  | error e' => exact .inl (congrArg _ (Except.error.inj h))
  | ok a => exact .inr ⟨a, rfl, h⟩

end Bind

namespace Config.Dict

variable {d : Dict} {name : Str} {e : Exn}

theorem getDict_isUtils (h : d.getDict name = .error e) : e.isUtils = true := by
  unfold getDict at h
  split at h <;> cases h <;> rfl

theorem getString_isUtils (h : d.getString name = .error e) : e.isUtils = true := by
  unfold getString at h
  split at h <;> cases h <;> rfl

theorem getOrString_isUtils {orVal : Str} (h : d.getOrString name orVal = .error e) :
    e.isUtils = true := by
  unfold getOrString at h
  split at h <;> cases h
  rfl

theorem getOrInt_isUtils {orVal : ℤ} (h : d.getOrInt name orVal = .error e) : e.isUtils = true := by
  unfold getOrInt at h
  split at h <;> cases h
  rfl

theorem getOrFloat_isUtils {orVal : FloatVal} (h : d.getOrFloat name orVal = .error e) :
    e.isUtils = true := by
  unfold getOrFloat at h
  split at h <;> cases h
  rfl

end Config.Dict

namespace LibvirtVM

open Config.Dict

variable {host : Host} {cfg : Dict}

theorem ofDict_id {vm : LibvirtVM} (h : ofDict host cfg = .ok vm) :
    ∃ inner, cfg.getDict "vm".toList = .ok inner ∧ inner.getString "name".toList = .ok vm.id := by
  obtain ⟨inner, hinner, h⟩ := except_bind_ok h
  obtain ⟨id, hid, h⟩ := except_bind_ok h
  refine ⟨inner, hinner, ?_⟩
  obtain ⟨_, -, h⟩ := except_bind_ok h
  obtain ⟨_, -, h⟩ := except_bind_ok h
  obtain ⟨_, -, h⟩ := except_bind_ok h
  obtain ⟨vcpus, -, h⟩ := except_bind_ok h
  obtain ⟨_, -, h⟩ := except_bind_ok h
  obtain ⟨_, -, h⟩ := except_bind_ok h
  obtain ⟨_, -, h⟩ := except_bind_ok h
  cases hhome : host.home with
  | false =>
    rw [hhome] at h
    exact absurd h nofun
  | true =>
    rw [hhome] at h
    obtain ⟨_, -, h⟩ := except_bind_ok h
    cases hgrow : host.canGrow vcpus.toNat with
    | false =>
      rw [hgrow] at h
      exact absurd h nofun
    | true =>
      rw [hgrow] at h
      cases h
      exact hid

/-- With `HOME` set and room for the controllers, building a VM only throws exceptions of the program. -/
theorem ofDict_isUtils (hhome : host.home = true) (hgrow : ∀ n, host.canGrow n = true) {e : Exn}
    (h : ofDict host cfg = .error e) : e.isUtils = true := by
  rcases except_bind_error h with h | ⟨inner, -, h⟩
  · exact getDict_isUtils h
  rcases except_bind_error h with h | ⟨id, -, h⟩
  · exact getString_isUtils h
  rcases except_bind_error h with h | ⟨_, -, h⟩
  · exact getOrString_isUtils h
  rcases except_bind_error h with h | ⟨_, -, h⟩
  · exact getString_isUtils h
  rcases except_bind_error h with h | ⟨_, -, h⟩
  · exact getOrInt_isUtils h
  rcases except_bind_error h with h | ⟨vcpus, -, h⟩
  · exact getOrInt_isUtils h
  rcases except_bind_error h with h | ⟨_, -, h⟩
  · exact getOrInt_isUtils h
  rcases except_bind_error h with h | ⟨_, -, h⟩
  · exact getOrInt_isUtils h
  rcases except_bind_error h with h | ⟨_, -, h⟩
  · exact getOrFloat_isUtils h
  rw [hhome] at h
  rcases except_bind_error h with h | ⟨_, -, h⟩
  · exact getOrString_isUtils h
  rw [hgrow] at h
  exact absurd h nofun

end LibvirtVM
