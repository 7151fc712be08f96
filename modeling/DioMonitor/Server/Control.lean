import DioMonitor.Libvirt.Client
import DioMonitor.Market.Vcpu

/-!
# The control loop

`Controller::cpuControlLoop` passes over the running VMs once per frame to sample their vCPUs, and a
second and a third time in the frames where the market runs. No lock covers two passes: the threads
of the server register VMs, kill them and reset their accounts between any two of them. One pass is
one step here, and so is each of these interventions. What comes in the middle of a pass is the subject of
`ControlLoop`, whose runs end in the states of this system (`ControlLoop.run_coarse`).
-/

/-- A `Controller`: its configuration and the machine it controls. -/
structure Controller where
  host : Host
  nprocs : ℕ
  vcpuMarketEnabled : Bool
  vcpuMarket : VCPUMarketConfig

namespace Controller

/-- The next action of the loop. -/
inductive Next where
  /-- `updateVCPUControllers`. -/
  | updateControllers
  /-- `updateVCPUBeforeMarket`. -/
  | updateBeforeMarket
  /-- `VCPUMarket::run` when the market is enabled, and the log. -/
  | market
  /-- `waitCpuFrame`. -/
  | waitFrame
  /-- None: an integer division by zero killed the process. -/
  | dead
  deriving DecidableEq, Repr

/-- The state of the loop: its counter, where it is, and the running VMs. -/
structure State where
  i : ℕ
  next : Next
  running : List LibvirtVM

/-- The loop starts before any VM is registered. -/
def start : State := { i := 0, next := .updateControllers, running := [] }

/-- The steps of the loop and of the threads of the server. -/
inductive Action where
  /-- The controllers are updated with the frequencies of the cpus and what they read. -/
  | updateControllers (freq : List ℕ) (read : ℕ → ℕ → Reading)
  | updateBeforeMarket
  | market
  | waitFrame
  /-- A provisioning thread registers a VM. -/
  | register (vm : LibvirtVM)
  /-- A VM is killed. -/
  | kill (name : Str)
  /-- `resetMarketCounters`. -/
  | reset

/-- The VM as its constructor leaves it. -/
def Fresh (host : Host) (vm : LibvirtVM) : Prop :=
  vm.money = 0 ∧ vm.vcpuControllers = LibvirtVM.newControllers host vm.id vm.freq vm.vcpus

instance (host : Host) (vm : LibvirtVM) : Decidable (Fresh host vm) :=
  inferInstanceAs (Decidable (_ ∧ _))

/-- The market in one frame. -/
def market (ctl : Controller) (s : State) : State :=
  let done (running : List LibvirtVM) : State := { i := 0, next := .waitFrame, running }
  if ctl.vcpuMarketEnabled then
    match VCPUMarket.run ctl.vcpuMarket ctl.nprocs s.running with
    | .noVM => done s.running
    | .overAllocated vms => done vms
    | .divByZero => { s with next := .dead }
    | .applied vms => done vms
  else done s.running

/-- One step. The actions of the loop are enabled where the loop is, the others always, until the
process is dead. -/
def step (ctl : Controller) (s : State) : Action → Option State
  | .updateControllers freq read =>
    if s.next = .updateControllers then
      some { s with
        next := if s.i = 1 then .updateBeforeMarket else .waitFrame
        running := LibvirtClient.updateVCPUControllers s.running freq read }
    else none
  | .updateBeforeMarket =>
    if s.next = .updateBeforeMarket then
      match LibvirtClient.updateVCPUBeforeMarket s.running with
      | some running => some { s with next := .market, running }
      | none => some { s with next := .dead }
    else none
  | .market => if s.next = .market then some (market ctl s) else none
  | .waitFrame =>
    if s.next = .waitFrame then some { s with i := s.i + 1, next := .updateControllers } else none
  | .register vm =>
    if s.next ≠ .dead ∧ Fresh ctl.host vm then some { s with running := s.running ++ [vm] } else none
  | .kill name =>
    if s.next ≠ .dead then some { s with running := LibvirtClient.kill s.running name } else none
  | .reset =>
    if s.next ≠ .dead then
      some { s with
        running := if ctl.vcpuMarketEnabled then VCPUMarket.reset s.running else s.running }
    else none

end Controller
