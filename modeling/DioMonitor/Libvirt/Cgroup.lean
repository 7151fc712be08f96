import DioMonitor.Libvirt.Vcpu
import Mathlib.Data.List.Infix

/-!
# The search for the cgroup of a VM

`cgroup::enable` binds a controller to the cgroup of its vCPU. It searches the directory tree of the
hypervisor for a directory whose path contains the name that the VM has for libvirt, and waits as long
as there is none. Paths are strings; a directory is searched in the order in which it is listed.
-/

/-- What a directory lists: files, and directories with what they list. -/
inductive Listing where
  | nil
  | file (name : Str) (rest : Listing)
  | dir (name : Str) (entries : Listing) (rest : Listing)

namespace Cgroup

/-- The loop of `recursiveSearch` over the entries of the directory `path`. -/
def searchEntries (name path : Str) : Listing → Str
  | .nil => []
  | .file _ rest => searchEntries name path rest
  | .dir n entries rest =>
    let sub := path ++ '/' :: n
    let ret := if name <:+: sub then sub else searchEntries name sub entries
    if ret ≠ [] then ret else searchEntries name path rest

/-- `recursiveSearch` from a directory; the result is empty when nothing is found. -/
def recursiveSearch (path : Str) (entries : Listing) (name : Str) : Str :=
  if name <:+: path then path else searchEntries name path entries

/-- The directory where the hypervisor keeps its cgroups. -/
def machineSlice (v2 : Bool) : Str :=
  if v2 then "/sys/fs/cgroup/machine.slice".toList else "/sys/fs/cgroup/cpu/machine.slice".toList

/-- The directory that `enable` finds for the VM of the cgroup. -/
def search (g : Cgroup) (machine : Listing) : Str :=
  recursiveSearch (machineSlice g.v2) machine ('v' :: g.vmName)

/-- The cgroup of vCPU `i` that `enable` binds; `none` while it waits. -/
def enable (g : Cgroup) (machine : Listing) (i : ℕ) : Option Str :=
  let path := g.search machine
  if path.length ≠ 0 then some (path ++ '/' :: ("vcpu".toList ++ Nat.toDigits 10 i)) else none

end Cgroup
