import DioMonitor.Utils.Config

/-!
# The controller of a vCPU

`LibvirtVCPUController` samples the consumption of one vCPU at every micro tick (`update`), folds
the samples at every macro tick (`updateBeforeMarket`), and applies the quota that the market
decided (`setQuota`) to the cgroup of the vCPU.

The division by the number of samples in `updateBeforeMarket` is an integer division: with no sample
it is a fault that kills the process, modelled by `none`.
-/

/-- What is written into the limit file of a cgroup. -/
inductive CpuLimit where
  /-- `cpu.max` of cgroup v2, no limit: `max <period>`. -/
  | max (period : ℕ)
  /-- `cpu.max` of cgroup v2: `<quota> <period>`. -/
  | quota (nbMicros : ℤ) (period : ℕ)
  /-- `cpu.cfs_quota_us` of cgroup v1, `-1` for no limit. -/
  | cfsQuota (nbMicros : ℤ)
  deriving DecidableEq, Repr

/-- The cgroup of a vCPU: the name of its VM, the version of cgroup and the last limit written. -/
structure Cgroup where
  vmName : Str
  v2 : Bool
  limit : Option CpuLimit := none
  deriving DecidableEq, Repr

namespace Cgroup

/-- `cgroup::readUsage`: the usage counter of the kernel, in microseconds under v2 and in nanoseconds
under v1. The result type is `unsigned int`, so the value is cut to 32 bits. -/
def readUsage (g : Cgroup) (counter : ℕ) : ℕ :=
  if g.v2 then counter % 2 ^ 32 else counter / 1000 % 2 ^ 32

/-- `cgroup::setLimit`. -/
def setLimit (g : Cgroup) (nbMicros : ℤ) (period : ℕ) : Cgroup :=
  { g with
    limit := some
      (if g.v2 then if nbMicros = -1 then .max period else .quota nbMicros period
       else .cfsQuota nbMicros) }

end Cgroup

/-- The fields of a `LibvirtVCPUController`. The values are those its constructor gives, where it
gives one; `_lastFrequency`, `_microDelta`, `_allocated` and `_buying` start undefined. -/
structure LibvirtVCPUController where
  id : ℕ
  nominalFreq : ℕ
  cgroup : Cgroup
  maxHistory : ℕ := 5
  /-- The period of the cpu domain, in microseconds. -/
  period : ℕ := 10000
  /-- The quota of the cpu domain in one period; initially `-1` as an `unsigned long`. -/
  quota : ℕ := 2 ^ 64 - 1
  /-- The last consumptions, in percent of a core. -/
  history : List ℚ := []
  slope : FloatVal := .num 0
  sumFrequency : ℕ := 0
  lastFrequency : ℕ := 0
  sumConsumption : ℕ := 0
  nbMicros : ℕ := 0
  microConsumption : ℕ := 0
  lastMicroConsumption : ℕ := 0
  consumption : ℕ := 0
  microDelta : ℚ := 0
  sumDelta : ℚ := 0
  delta : ℚ := 0
  /-- The number of cycles allocated to the vCPU. -/
  allocated : ℕ := 0
  /-- The number of cycles to buy. -/
  buying : ℕ := 0
  deriving DecidableEq, Repr

/-- What `update` reads from the machine: the processor that runs the vCPU, the usage counter of its
cgroup and the time since the previous update, in seconds. -/
structure Reading where
  cpu : ℕ
  counter : ℕ
  elapsed : ℚ
  deriving DecidableEq, Repr

namespace LibvirtVCPUController

instance : Inhabited LibvirtVCPUController := ⟨{ id := 0, nominalFreq := 0, cgroup := ⟨[], true, none⟩ }⟩

/-! ## Acquiring -/

/-- `LibvirtVCPUController::update`; `freq` is the frequency of each cpu. -/
def update (c : LibvirtVCPUController) (freq : List ℕ) (r : Reading) : LibvirtVCPUController :=
  let last := c.microConsumption
  let micro := c.cgroup.readUsage r.counter
  let used := usub micro last
  let deltaUsed : ℚ := (used : ℚ) / 1000000
  let speed := (FloatVal.num (freq.getD r.cpu 0 : ℚ)).mul ((FloatVal.num deltaUsed).div (.num r.elapsed))
  { c with
    lastMicroConsumption := last
    microConsumption := micro
    microDelta := r.elapsed
    sumFrequency := c.sumFrequency + speed.toULong
    sumConsumption := (c.sumConsumption + used) % 2 ^ 64
    sumDelta := c.sumDelta + r.elapsed
    nbMicros := c.nbMicros + 1 }

/-! ## Getters -/

/-- `getConsumption`: the consumption of the last macro tick. -/
def getConsumption (c : LibvirtVCPUController) : ℕ := c.consumption

def getSlope (c : LibvirtVCPUController) : FloatVal := c.slope

def getNominalFreq (c : LibvirtVCPUController) : ℕ := c.nominalFreq

/-- `getAbsoluteConsumption`: the consumption of the last macro tick scaled to the second. -/
def getAbsoluteConsumption (c : LibvirtVCPUController) : ℕ :=
  ((FloatVal.num c.consumption).div (.num c.delta)).toULong

/-- `getAbsoluteCapping`: the cycles the vCPU may use in one second under its quota. -/
def getAbsoluteCapping (c : LibvirtVCPUController) : ℕ :=
  ((FloatVal.num (c.quota * 1000000)).div (.num c.period)).toULong

/-- `getPercentageConsumption`: the consumption in percent of a core. -/
def getPercentageConsumption (c : LibvirtVCPUController) : ℚ :=
  (c.getAbsoluteConsumption : ℚ) / 1000000 * 100

/-- `getRelativePercentConsumption`: the consumption in percent of the capping. -/
def getRelativePercentConsumption (c : LibvirtVCPUController) : FloatVal :=
  ((FloatVal.num c.getAbsoluteConsumption).div (.num c.getAbsoluteCapping)).mul (.num 100)

/-! ## Slope -/

/-- `computeSlope`: the least-squares slope of the history against `0, 1, 2, …`. -/
def computeSlope (c : LibvirtVCPUController) : LibvirtVCPUController :=
  let n : ℚ := c.history.length
  let xs : List ℚ := (List.range c.history.length).map Nat.cast
  let mX := (FloatVal.num xs.sum).div (.num n)
  let mY := (FloatVal.num c.history.sum).div (.num n)
  match mX, mY with
  | .num mX, .num mY =>
    let ssX := (xs.map fun x => (x - mX) * (x - mX)).sum
    let sp := ((xs.zip c.history).map fun xy => (xy.1 - mX) * (xy.2 - mY)).sum
    { c with slope := (FloatVal.num sp).div (.num ssX) }
  -- an empty history: the means are not numbers, both sums are empty
  | _, _ => { c with slope := (FloatVal.num 0).div (.num 0) }

/-- `addToHistory`: keeps the last `maxHistory` percentages, and the slope once there are that many. -/
def addToHistory (c : LibvirtVCPUController) : LibvirtVCPUController :=
  let history := c.history ++ [c.getPercentageConsumption]
  let history := if history.length > c.maxHistory then history.tail else history
  let c := { c with history := history }
  if history.length = c.maxHistory then c.computeSlope else c

/-- `updateBeforeMarket`: the means of the last macro tick. `none` is the integer division by zero. -/
def updateBeforeMarket (c : LibvirtVCPUController) : Option LibvirtVCPUController :=
  if c.nbMicros = 0 then none
  else
    let c := { c with
      lastFrequency := c.sumFrequency / c.nbMicros
      consumption := c.sumConsumption
      delta := c.sumDelta
      sumConsumption := 0
      sumFrequency := 0
      nbMicros := 0
      sumDelta := 0
      allocated := 0
      buying := 0 }
    some c.addToHistory

/-! ## Controlling -/

/-- `setQuota`: `nbMicros` of cpu usage are allowed in one second. From 85% of a core on, the cgroup
is not limited. -/
def setQuota (c : LibvirtVCPUController) (nbMicros period : ℕ) : LibvirtVCPUController :=
  let cap := (FloatVal.num ((nbMicros : ℚ) / 1000000)).mul (.num period)
  let quota := cap.toULong
  { c with
    period := period
    quota := quota
    cgroup := if nbMicros ≥ 850000 then c.cgroup.setLimit (-1) period else c.cgroup.setLimit quota period }

/-! ## Calls -/

/-- What the daemon does with a controller over time. -/
inductive Call where
  | update (freq : List ℕ) (r : Reading)
  | updateBeforeMarket
  /-- The market writes through the references that `allocated ()` and `buying ()` return. -/
  | market (allocated buying : ℕ)
  | setQuota (nbMicros period : ℕ)

/-- One call; `none` is the integer division by zero of `updateBeforeMarket`. -/
def call (c : LibvirtVCPUController) : Call → Option LibvirtVCPUController
  | .update freq r => some (c.update freq r)
  | .updateBeforeMarket => c.updateBeforeMarket
  | .market allocated buying => some { c with allocated := allocated, buying := buying }
  | .setQuota nbMicros period => some (c.setQuota nbMicros period)

end LibvirtVCPUController
