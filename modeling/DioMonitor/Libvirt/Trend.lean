import DioMonitor.Lib.LeastSquares
import DioMonitor.Lib.Transition
import DioMonitor.Libvirt.Vcpu

/-!
# The trend of a vCPU

The percentages that a controller records over a run, and what its slope is to say about the last of
them.
-/

namespace LibvirtVCPUController

/-- The constructor. -/
def new (id nominalFreq maxHistory : ℕ) (cgroup : Cgroup) : LibvirtVCPUController :=
  { id, nominalFreq, cgroup, maxHistory }

/-- The calls of a macro tick. -/
def Call.isTick : Call → Bool
  | .updateBeforeMarket => true
  | _ => false

/-- The number of macro ticks. -/
def ticks (calls : List Call) : ℕ := calls.countP Call.isTick

/-- The percentages that some calls record, one for each macro tick. -/
def recorded : LibvirtVCPUController → List Call → List ℚ
  | _, [] => []
  | c, k :: ks =>
    match c.call k with
    | none => []
    | some c' =>
      if k.isTick then c'.getPercentageConsumption :: recorded c' ks else recorded c' ks

/-- The line `a + b * x` fits the samples best, which are taken at `0, 1, 2, …`. -/
def Fitted (samples : List ℚ) (a b : ℚ) : Prop :=
  LeastSquares.Fits (Finset.range samples.length) Nat.cast (samples.getD · 0) a b

/-- The slope of the history is `m`. -/
structure Trend (c : LibvirtVCPUController) (m : ℚ) : Prop where
  slope_eq : c.slope = .num m
  fitted : ∀ b, (∃ a, Fitted c.history a b) ↔ b = m
  line : ∀ a b : ℚ, (∀ (i : ℕ) x, c.history[i]? = some x → x = a + b * i) → m = b
  shift : ∀ k, { c with history := c.history.map (· + k) }.computeSlope.slope = .num m
  increasing : c.history.Pairwise (· < ·) → 0 < m
  decreasing : c.history.Pairwise (· > ·) → m < 0

end LibvirtVCPUController
