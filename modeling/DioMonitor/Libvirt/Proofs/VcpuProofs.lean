import DioMonitor.Libvirt.Vcpu
import Mathlib.Tactic.NormNum

/-!
# Proofs: the controller of a vCPU

What averaging leaves unchanged, and the capping that a quota leaves.
-/

namespace LibvirtVCPUController

/-- The slope is all that `computeSlope` writes. -/
theorem computeSlope_eq (c : LibvirtVCPUController) : ∃ x, c.computeSlope = { c with slope := x } := by
  unfold computeSlope
  dsimp only
  split <;> exact ⟨_, rfl⟩

/-- The history and the slope are all that `addToHistory` writes. -/
theorem addToHistory_eq (c : LibvirtVCPUController) :
    ∃ h x, c.addToHistory = { c with history := h, slope := x } := by
  have key : ∀ h : List ℚ, ∃ x, (if h.length = c.maxHistory then computeSlope { c with history := h }
      else { c with history := h }) = { c with history := h, slope := x } := by
    intro h
    split
    · exact computeSlope_eq { c with history := h }
    · exact ⟨c.slope, rfl⟩
  obtain ⟨x, hx⟩ := key
    (if (c.history ++ [c.getPercentageConsumption]).length > c.maxHistory then
      (c.history ++ [c.getPercentageConsumption]).tail else c.history ++ [c.getPercentageConsumption])
  exact ⟨_, x, hx⟩

/-- Averaging keeps the quota, the nominal frequency and the last sample; it publishes the sum of
the samples and starts a new one. -/
theorem updateBeforeMarket_spec {c c' : LibvirtVCPUController} (h : c.updateBeforeMarket = some c') :
    c'.period = c.period ∧ c'.quota = c.quota ∧ c'.nominalFreq = c.nominalFreq ∧
      c'.cgroup = c.cgroup ∧ c'.microConsumption = c.microConsumption ∧
      c'.consumption = c.sumConsumption ∧ c'.sumConsumption = 0 := by
  unfold updateBeforeMarket at h
  split at h
  · cases h
  · rw [Option.some.injEq] at h
    obtain ⟨hist, x, hx⟩ := addToHistory_eq { c with
      lastFrequency := c.sumFrequency / c.nbMicros
      consumption := c.sumConsumption
      delta := c.sumDelta
      sumConsumption := 0
      sumFrequency := 0
      nbMicros := 0
      sumDelta := 0
      allocated := 0
      buying := 0 }
    rw [← h, hx]
    exact ⟨rfl, rfl, rfl, rfl, rfl, rfl, rfl⟩

/-- Averaging needs a sample. -/
theorem updateBeforeMarket_eq_none {c : LibvirtVCPUController} :
    c.updateBeforeMarket = none ↔ c.nbMicros = 0 := by
  unfold updateBeforeMarket
  split <;> simp [*]

/-- The quota of a tick of the market is rounded down to tenths of the allocation. -/
theorem getAbsoluteCapping_setQuota (c : LibvirtVCPUController) (n : ℕ) :
    (c.setQuota n 100000).getAbsoluteCapping = n / 10 * 10 := by
  have hquota : (c.setQuota n 100000).quota = n / 10 := by
    have hq : (n : ℚ) / 1000000 * (100000 : ℕ) = (n : ℚ) / (10 : ℕ) := by
      push_cast
      ring
    simp only [setQuota, FloatVal.mul_num, FloatVal.toULong_num]
    rw [hq, floor_natCast_div]
  have hcap : ((n / 10 : ℕ) : ℚ) * 1000000 / (100000 : ℕ) = ((n / 10 * 10 : ℕ) : ℚ) := by
    push_cast
    ring
  unfold getAbsoluteCapping
  rw [hquota]
  have hperiod : (c.setQuota n 100000).period = 100000 := rfl
  rw [hperiod, FloatVal.div_num (by norm_num), hcap, toULong_natCast]

end LibvirtVCPUController
