import DioMonitor.Utils.Config

/-!
# Test scenarios

`Scenario` reads a scenario file and names the VMs that it starts; `ResultAnalyser` reads the results of
a scenario and recovers from the name of a VM which test it ran. Both read YAML with the functions of a
library, which are parameters here.
-/

/-- The test of a VM group; its other entries are handed on to the VM. -/
structure Test where
  type : Str
  name : Option Str
  deriving DecidableEq

/-- A group of VMs in a scenario. -/
structure VMGroup where
  name : Str
  image : Str
  vcpus : ℤ
  memory : ℤ
  frequency : ℤ
  memorySLA : ℚ
  disk : ℤ
  instances : ℤ
  test : Test
  deriving DecidableEq

/-- A VM to start. -/
structure VM where
  name : Str
  image : Str
  vcpus : ℤ
  memory : ℤ
  frequency : ℤ
  memorySLA : ℚ
  disk : ℤ
  deriving DecidableEq

/-- What a scenario file contains. -/
structure Scenario where
  vms : List VMGroup
  cpuMarket : Option Config.Dict := none
  memMarket : Option Config.Dict := none

/-- What `Scenario` keeps of its file. -/
structure Setup where
  toInstall : List (VM × Test)
  cpuconfig : Config.Dict
  memconfig : Config.Dict

/-- The page of a result that is stored; the logs and the outputs are left out. -/
structure Page where
  scenario : Str

/-- `yaml.load` and `yaml.dump`. -/
structure Yaml where
  load : Str → Scenario
  dump : Scenario → Str

namespace VMGroup

/-- The instance `j` of a group. -/
def vm (vi : VMGroup) (j : ℕ) : VM :=
  { name := vi.name ++ Nat.toDigits 10 j
    image := vi.image
    vcpus := vi.vcpus
    memory := vi.memory
    frequency := vi.frequency
    memorySLA := vi.memorySLA
    disk := vi.disk }

/-- The instances of a group: one for each `j` with `0 ≤ j < instances`. -/
def vms (vi : VMGroup) : List (VM × Test) :=
  (List.range vi.instances.toNat).map fun j => (vi.vm j, vi.test)

end VMGroup

namespace Scenario

variable (yaml : Yaml)

/-- `_readScenario`, for a file that holds the text `file`. -/
def readScenario (file : Str) : Setup :=
  let content := yaml.load file
  { toInstall := content.vms.flatMap VMGroup.vms
    cpuconfig := content.cpuMarket.getD []
    memconfig := content.memMarket.getD [] }

/-- `store`: the page of a run. -/
def store (file : Str) : Page := { scenario := yaml.dump (yaml.load file) }

end Scenario

namespace ResultAnalyser

variable (yaml : Yaml)

/-- What is returned for a VM of the group `v`: the type of its test and the name, when it has one. -/
def typeAndName (v : VMGroup) : Str × Str := (v.test.type, v.test.name.getD [])

/-- `_readScenarioType`, when `results` are the pages that were found for the scenario. -/
def readScenarioType (results : List Page) (vmName : Str) : Str × Str :=
  match results with
  | [] => ([], [])
  | r :: _ =>
    match (yaml.load r.scenario).vms.find? fun v => v.name = vmName.dropLast with
    | some v => typeAndName v
    | none => ([], [])

/-! ## Attribution -/

/-- Every VM of the scenario is attributed to the test of its group. -/
def Attributed (results : List Page) (content : Scenario) : Prop :=
  ∀ g ∈ content.vms, ∀ vm ∈ g.vms, readScenarioType yaml results vm.1.name = typeAndName g

/-- The first group of the given name has the test of `g`. Without such a group both are empty. -/
def Finds (content : Scenario) (name : Str) (g : VMGroup) : Prop :=
  ((content.vms.find? fun v => v.name = name).map typeAndName).getD ([], []) = typeAndName g

end ResultAnalyser
