import DioMonitor.Libvirt.Vm
import DioMonitor.Lib.Transition

/-!
# The libvirt client

`LibvirtClient` keeps the list `_running` of the VMs it provisioned. The calls to libvirt and to the
commands that install and destroy a VM are left out; only what they mean for the list is modelled.
-/

namespace LibvirtClient

/-! ## The list of running VMs -/

/-- `hasVM`: a VM of this name is running. -/
def hasVM (running : List LibvirtVM) (name : Str) : Bool := running.any (·.id = name)

/-- `getVM`: the first running VM of this name. -/
def getVM (running : List LibvirtVM) (name : Str) : Option LibvirtVM := running.find? (·.id = name)

/-- The copy that `removeVM` makes of `_running`: the loop stops after the first VM it copies. -/
def removeCopy (name : Str) : List LibvirtVM → List LibvirtVM
  | [] => []
  | vm :: vms => if vm.id ≠ name then [vm] else removeCopy name vms

/-- `removeVM`: `_running` becomes the copy. -/
def removeVM (running : List LibvirtVM) (name : Str) : List LibvirtVM := removeCopy name running

/-- `kill`: destroys the VM of this name, when there is one. -/
def kill (running : List LibvirtVM) (name : Str) : List LibvirtVM :=
  match getVM running name with
  | some _ => removeVM running name
  | none => running

/-- `provision`, when it succeeds: a VM of the same name is killed first, and the new one is
registered at the end. -/
def provision (running : List LibvirtVM) (vm : LibvirtVM) : List LibvirtVM :=
  kill running vm.id ++ [vm]

/-! ## The passes of the control loop -/

/-- `updateVCPUControllers`; `read` is what each controller reads from the machine. -/
def updateVCPUControllers (running : List LibvirtVM) (freq : List ℕ) (read : ℕ → ℕ → Reading) :
    List LibvirtVM :=
  running.mapIdx fun i vm =>
    { vm with vcpuControllers := vm.vcpuControllers.mapIdx fun j c => c.update freq (read i j) }

/-- `updateVCPUBeforeMarket`. `none` is the integer division by zero. -/
def updateVCPUBeforeMarket (running : List LibvirtVM) : Option (List LibvirtVM) :=
  running.mapM fun vm => do
    let cs ← vm.vcpuControllers.mapM (·.updateBeforeMarket)
    return { vm with vcpuControllers := cs }

/-! ## Requests, one after the other -/

/-- The requests of the clients that change the list. -/
inductive Request where
  /-- A provision of a VM that completes. -/
  | provision (vm : LibvirtVM)
  | kill (name : Str)

/-- The name of the VM that a request is about. -/
def Request.name : Request → Str
  | .provision vm => vm.id
  | .kill name => name

/-- The request is a provision of a VM of this name. -/
def Request.provides (name : Str) : Request → Bool
  | .provision vm => vm.id = name
  | .kill _ => false

/-- What the server does for a request: `treatProvision` only provisions a VM whose name is not
registered, `treatKill` only kills one whose name is. -/
def request (running : List LibvirtVM) : Request → Option (List LibvirtVM)
  | .provision vm => if hasVM running vm.id then none else some (provision running vm)
  | .kill name => some (if hasVM running name then kill running name else running)

end LibvirtClient
