import DioMonitor.Test.Scenario

/-!
# The launcher of the test VMs

`ExecoClient` writes the configuration file of a VM, that `dio-client` sends to the daemon of a node. What
Python writes for a `float` is a parameter.
-/

namespace ExecoClient

open Config (showInt)

/-- A line `key = value` of a configuration file, for a value between `before` and `after`. -/
def line (before value after : Str) : Str := before ++ value ++ after

/-- `createVMConfigFile`. -/
def createVMConfigFile (repr : ℚ → Str) (vmInfo : VM) (pubKey : Str) : Str :=
  "[vm]\n".toList ++
    line "name = \"".toList vmInfo.name "\"\n".toList ++
    line "image = \"/root/.qcow2/".toList vmInfo.image ".qcow2\"\n".toList ++
    line "ssh_key = \"".toList pubKey "\"\n".toList ++
    line "vcpus = ".toList (showInt vmInfo.vcpus) "\n".toList ++
    line "memory = ".toList (showInt vmInfo.memory) "\n".toList ++
    line "disk = ".toList (showInt vmInfo.disk) "\n".toList ++
    line "frequency = ".toList (showInt vmInfo.frequency) "\n".toList ++
    line "memorySLA = ".toList (repr vmInfo.memorySLA) "\n".toList

end ExecoClient
