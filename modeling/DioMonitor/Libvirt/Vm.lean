import DioMonitor.Libvirt.Vcpu

/-!
# Virtual machines

A `LibvirtVM` is built from a configuration, with one controller for each of its vCPUs. It owns the
account of the market (`_money`), shared by its vCPUs.
-/

open Config

/-- What the program finds on the machine it runs on. -/
structure Host where
  /-- The variable `HOME` is set. -/
  home : Bool
  /-- `/sys/fs/cgroup/cgroup.controllers` exists. -/
  cgroupV2 : Bool
  /-- `new char [n]` succeeds. -/
  canAlloc : ℕ → Bool
  /-- A vector of `n` controllers can be grown. -/
  canGrow : ℕ → Bool
  /-- The text in a buffer that nothing has been written to. -/
  garbage : Str := []

/-- The fields of a `LibvirtVM`; `_dom`, the handle of its libvirt domain, is left out. -/
structure LibvirtVM where
  id : Str
  userName : Str
  pubKey : Str
  qcow : Str
  disk : ℤ
  vcpus : ℤ
  mem : ℤ
  freq : ℤ
  memorySLA : FloatVal
  ip : Str := []
  mac : Str := []
  vcpuControllers : List LibvirtVCPUController
  /-- The account of the VM in the market. -/
  money : ℕ := 0
  deriving DecidableEq, Repr

namespace LibvirtVM

instance : Inhabited LibvirtVM :=
  ⟨{ id := [], userName := [], pubKey := [], qcow := [], disk := 0, vcpus := 0, mem := 0, freq := 0,
     memorySLA := default, vcpuControllers := [] }⟩

/-- The constructor of `LibvirtVCPUController`, for vCPU `i` of the VM `id`. -/
def newController (host : Host) (id : Str) (freq : ℤ) (i : ℕ) : LibvirtVCPUController :=
  { id := i
    -- an `int` stored into an `unsigned long`
    nominalFreq := (freq % 2 ^ 64).toNat
    cgroup := { vmName := id, v2 := host.cgroupV2 } }

/-- The controllers of a new VM: one for each `i` with `0 ≤ i < vcpus`. -/
def newControllers (host : Host) (id : Str) (freq vcpus : ℤ) : List LibvirtVCPUController :=
  (List.range vcpus.toNat).map (newController host id freq)

/-- The constructor of `LibvirtVM` from a configuration. -/
def ofDict (host : Host) (cfg : Dict) : Except Exn LibvirtVM := do
  let inner ← cfg.getDict "vm".toList
  let id ← inner.getString "name".toList
  let userName ← inner.getOrString "user".toList "phil".toList
  let qcow ← inner.getString "image".toList
  let disk ← inner.getOrInt "disk".toList 10000
  let vcpus ← inner.getOrInt "vcpus".toList 1
  let mem ← inner.getOrInt "memory".toList 2048
  let freq ← inner.getOrInt "frequency".toList 1000
  let memorySLA ← inner.getOrFloat "memorySLA".toList (.num (1 / 2))
  -- a path built from the null pointer that `getenv` returns
  if !host.home then throw .logicError
  let pubKey ← inner.getOrString "ssh_key".toList []
  if !host.canGrow vcpus.toNat then throw .badAlloc
  return {
    id, userName, pubKey, qcow, disk, vcpus, mem, freq, memorySLA
    vcpuControllers := newControllers host id freq vcpus }

/-- `applyMarketAllocation`: every vCPU gets its allocation as quota. -/
def applyMarketAllocation (vm : LibvirtVM) (period : ℕ) : LibvirtVM :=
  { vm with vcpuControllers := vm.vcpuControllers.map fun c => c.setQuota c.allocated period }

end LibvirtVM
