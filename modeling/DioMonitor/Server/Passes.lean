import DioMonitor.Server.Control
import DioMonitor.Lib.Pointers

/-!
# The passes of the control loop, VM by VM

`updateVCPUControllers` and `updateVCPUBeforeMarket` go over `_running` without a lock. A range-for fixes
its end when it begins: a VM that is pushed during the pass is not visited, and one that is removed still
is. So a pass is not one step here but one for each VM, and a removal is two, the copy that `removeVM`
makes of `_running` and the assignment of the copy.

A pointer to a VM is an index into `objects`. A VM that was deleted keeps its place there: what a pass
finds behind a pointer to it is what the memory held.
-/

namespace ControlLoop

/-- Where the loop is. -/
inductive Place where
  /-- In front of `updateVCPUControllers`. -/
  | updateControllers
  /-- In its loop, with the frequencies of the cpus and the VMs that are still to be sampled. -/
  | sampling (freq : List ℕ) (todo : List ℕ)
  /-- In front of `updateVCPUBeforeMarket`. -/
  | updateBeforeMarket
  /-- In its loop. -/
  | averaging (todo : List ℕ)
  | market
  | waitFrame
  /-- An integer division by zero killed the process. -/
  | dead
  deriving DecidableEq, Repr

/-- The state of the loop: its counter, where it is, every VM that was registered, the registry, and the
copies of it that removals have made and not yet assigned. -/
structure State where
  i : ℕ
  place : Place
  objects : List LibvirtVM
  running : List ℕ
  copies : List (List ℕ)
  deriving DecidableEq

def start : State := { i := 0, place := .updateControllers, objects := [], running := [], copies := [] }

/-- The VM behind a pointer. -/
def State.vm (s : State) (p : ℕ) : LibvirtVM := s.objects.getD p default

/-- The running VMs. -/
def State.vms (s : State) : List LibvirtVM := Pointers.readAll default s.objects s.running

/-- `vt.update (speed)` for each vCPU of a VM. -/
def updateVM (freq : List ℕ) (read : ℕ → Reading) (vm : LibvirtVM) : LibvirtVM :=
  { vm with vcpuControllers := vm.vcpuControllers.mapIdx fun j c => c.update freq (read j) }

/-- `vt.updateBeforeMarket ()` for each vCPU of a VM. `none` is the integer division by zero. -/
def averageVM (vm : LibvirtVM) : Option LibvirtVM := do
  let cs ← vm.vcpuControllers.mapM (·.updateBeforeMarket)
  return { vm with vcpuControllers := cs }

/-- The copy that `removeVM` makes: its loop stops after the first VM it copies. -/
def removeCopy (s : State) (name : Str) : List ℕ → List ℕ
  | [] => []
  | p :: ps => if (s.vm p).id ≠ name then [p] else removeCopy s name ps

/-- The steps of the loop and of the threads of the server. -/
inductive Event where
  /-- `readCPUFrequency`, and the loop of `updateVCPUControllers` fixes its end. -/
  | beginSampling (freq : List ℕ)
  /-- The next VM is sampled. -/
  | sample (read : ℕ → Reading)
  | endSampling
  /-- The loop of `updateVCPUBeforeMarket` fixes its end. -/
  | beginAveraging
  /-- The next VM is averaged. -/
  | average
  | endAveraging
  | market
  | waitFrame
  /-- A provisioning thread pushes a VM. -/
  | register (vm : LibvirtVM)
  /-- A removal copies the registry. -/
  | copy (name : Str)
  /-- A removal assigns its copy. -/
  | assign (k : ℕ)
  /-- `resetMarketCounters`. -/
  | reset

/-- The market in one frame, and the log. -/
def market (ctl : Controller) (s : State) : State :=
  let done (vms : List LibvirtVM) : State :=
    { s with i := 0, place := .waitFrame, objects := Pointers.writeAll s.objects s.running vms }
  if ctl.vcpuMarketEnabled then
    match VCPUMarket.run ctl.vcpuMarket ctl.nprocs s.vms with
    | .noVM => done s.vms
    | .overAllocated vms => done vms
    | .divByZero => { s with place := .dead }
    | .applied vms => done vms
  else done s.vms

/-- One step. The events of the loop are enabled where the loop is, the others always, until the process
is dead. -/
def step (ctl : Controller) (s : State) : Event → Option State
  | .beginSampling freq =>
    if s.place = .updateControllers then some { s with place := .sampling freq s.running } else none
  | .sample read =>
    match s.place with
    | .sampling freq (p :: todo) =>
      some { s with
        place := .sampling freq todo, objects := s.objects.modify p (updateVM freq read) }
    | _ => none
  | .endSampling =>
    match s.place with
    | .sampling _ [] =>
      some { s with place := if s.i = 1 then .updateBeforeMarket else .waitFrame }
    | _ => none
  | .beginAveraging =>
    if s.place = .updateBeforeMarket then some { s with place := .averaging s.running } else none
  | .average =>
    match s.place with
    | .averaging (p :: todo) =>
      match averageVM (s.vm p) with
      | some vm => some { s with place := .averaging todo, objects := s.objects.set p vm }
      | none => some { s with place := .dead }
    | _ => none
  | .endAveraging => if s.place = .averaging [] then some { s with place := .market } else none
  | .market => if s.place = .market then some (market ctl s) else none
  | .waitFrame =>
    if s.place = .waitFrame then some { s with i := s.i + 1, place := .updateControllers } else none
  | .register vm =>
    if s.place ≠ .dead ∧ Controller.Fresh ctl.host vm then
      some { s with objects := s.objects ++ [vm], running := s.running ++ [s.objects.length] }
    else none
  | .copy name =>
    if s.place ≠ .dead then some { s with copies := s.copies ++ [removeCopy s name s.running] } else none
  | .assign k =>
    if s.place ≠ .dead then
      s.copies[k]?.map fun res => { s with running := res, copies := s.copies.eraseIdx k }
    else none
  | .reset =>
    if s.place ≠ .dead then
      some { s with objects :=
        if ctl.vcpuMarketEnabled then Pointers.writeAll s.objects s.running (VCPUMarket.reset s.vms)
        else s.objects }
    else none

end ControlLoop
