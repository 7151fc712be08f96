import DioMonitor.Lib.Assoc
import DioMonitor.Test.Ports

/-!
# Running a scenario

`Scenario.run` goes through the instants at which a test starts or ends, in their order, sleeps in between,
and collects the outputs of the tests. The commands are launched on the VMs, which the launcher gave
different ports, by a library that is not modelled: a command is the number of its launch. The clock counts
the sleeps between the instants alone, and a command that is waited for is taken to come to its end.
-/

/-- What a test of a scenario file says; an entry may be missing. -/
structure Bench where
  type : Str
  name : Option Str := none
  start : ℤ
  /-- The entry `end`. -/
  stop : Option ℤ := none
  nbRun : Option ℤ := none
  nbCpus : Option ℤ := none
  params : Option Str := none
  nbThreads : Option ℤ := none
  nbConnections : Option ℤ := none
  nbPerSeconds : Option ℤ := none

/-- How the launcher reaches a VM: a port of its node. -/
structure VMHost (ν : Type) where
  node : ν
  port : ℕ
  deriving DecidableEq, Repr

namespace Scenario

/-- The exceptions of a run. -/
inductive PyError where
  | KeyError (key : Str)
  | AttributeError
  deriving DecidableEq, Repr

/-- `d[key]` for an entry that may be missing. -/
def entry {α : Type} (key : Str) : Option α → Except PyError α
  | some a => .ok a
  | none => .error (.KeyError key)

/-- A command: it runs on the VM, or on the node that attacks the VMs. -/
structure Launch where
  onLoadNode : Bool
  cmd : Str
  deriving DecidableEq, Repr

section

variable {ν : Type} [DecidableEq ν]

/-- The VMs of a scenario once they are connected. A test is the number of its group: the VMs of a group
share one. -/
structure Connected (ν : Type) where
  test : ℕ → Bench
  /-- The port of a deathstar test, once it is installed. -/
  testPort : ℕ → Option ℕ
  address : ν → Str
  /-- `_vms`. -/
  vms : List (Str × VMHost ν × ℕ)
  /-- `_vmNames`. -/
  vmNames : List (VMHost ν × Str)

/-- The loop of `configure` that connects the VMs: `_vms` and `_vmNames` after it. -/
def connectAll (toInstall : List (Str × VMHost ν × ℕ)) :
    List (Str × VMHost ν × ℕ) × List (VMHost ν × Str) :=
  toInstall.foldl (fun s v => (Assoc.set s.1 v.1 v.2, Assoc.set s.2 v.2.1 v.1)) ([], [])

/-- `_configureRun`. -/
def configureRun (test : ℕ → Bench) (vms : List (Str × VMHost ν × ℕ)) :
    List (ℤ × List (ℕ × VMHost ν)) :=
  vms.foldl (fun toRun v =>
    let (vm, t) := v.2
    let toRun := Assoc.add toRun (test t).start (t, vm)
    match (test t).stop with
    | some stop => Assoc.add toRun stop (t, vm)
    | none => toRun) []

/-- What `_installTests` does for the deathstar tests: the next ports of the nodes, the ports of the tests,
and the port that was opened for each VM. -/
structure Installed (ν : Type) where
  ports : ν → Option ℕ
  testPort : ℕ → Option ℕ := fun _ => none
  opened : List (VMHost ν × ℕ) := []

/-- `_installTests`, for one VM: a port is opened for a deathstar test with `openVMPort`. The test is the one
of the group, so its port is the port of the last VM. -/
def installTest (test : ℕ → Bench) (i : Installed ν) (v : Str × VMHost ν × ℕ) : Installed ν :=
  if (test v.2.2).type = "deathstar".toList then
    let unused := ExecoClient.createUnusedPort i.ports v.2.1.node
    { ports := unused.2
      testPort := Function.update i.testPort v.2.2 (some unused.1)
      opened := i.opened ++ [(v.2.1, unused.1)] }
  else i

/-- `_installTests`. -/
def installTests (test : ℕ → Bench) (ports : ν → Option ℕ) (vms : List (Str × VMHost ν × ℕ)) :
    Installed ν := vms.foldl (installTest test) { ports }

/-- `_startDeathstarWorkload`: no command for a test with another name. -/
def startDeathstarWorkload (s : Connected ν) (vm : VMHost ν) (t : ℕ) : Except PyError (Option Launch) := do
  let test := s.test t
  let port ← entry "port".toList (s.testPort t)
  let name ← entry "name".toList test.name
  if name = "hotel".toList then
    let nbThreads ← entry "nb-threads".toList test.nbThreads
    let nbConnections ← entry "nb-connections".toList test.nbConnections
    let stop ← entry "end".toList test.stop
    let nbPerSeconds ← entry "nb-per-seconds".toList test.nbPerSeconds
    return some {
      onLoadNode := true
      cmd := "/tmp/wrk -D exp -t ".toList ++ Config.showInt nbThreads ++ " -c ".toList ++
        Config.showInt nbConnections ++ " -d ".toList ++ Config.showInt (stop - test.start - 10) ++
        " -L -s /tmp/mixed-workload_type_1.lua http://".toList ++ s.address vm.node ++ ":".toList ++
        Config.showInt port ++ " -R ".toList ++ Config.showInt nbPerSeconds }
  else return none

/-- The command that `_startTest` launches. -/
def launch (s : Connected ν) (vm : VMHost ν) (t : ℕ) : Except PyError (Option Launch) := do
  let test := s.test t
  if test.type = "phoronix".toList then
    let nbRun ← entry "nb-run".toList test.nbRun
    let name ← entry "name".toList test.name
    return some {
      onLoadNode := false
      cmd := "export FORCE_TIMES_TO_RUN=".toList ++ Config.showInt nbRun ++
        " ; phoronix-test-suite batch-run ".toList ++ name }
  else if test.type = "deathstar".toList then startDeathstarWorkload s vm t
  else if test.type = "stress".toList then
    let nbCpus ← entry "nb-cpus".toList test.nbCpus
    return some { onLoadNode := false, cmd := "stress -c ".toList ++ Config.showInt nbCpus }
  else
    let rootPath ← entry "name".toList test.name
    let params ← entry "params".toList test.params
    return some {
      onLoadNode := false
      cmd := "cd ".toList ++ rootPath ++ " ; ./launch.sh ".toList ++ params }

/-! ## The run -/

/-- What happens to the commands of a VM, with the time since the counters of the monitors were reset. -/
inductive Event (ν : Type) where
  | launch (vm : VMHost ν) (time : ℤ) (cmd : ℕ) (l : Launch)
  | kill (vm : VMHost ν) (time : ℤ) (cmd : ℕ)
  | wait (vm : VMHost ν) (cmd : ℕ)
  deriving DecidableEq, Repr

/-- The VM of an event. -/
def Event.vm : Event ν → VMHost ν
  | launch vm _ _ _ => vm
  | kill vm _ _ => vm
  | wait vm _ => vm

/-- The state of a run. -/
structure Run (ν : Type) where
  clock : ℤ := 0
  /-- The number of commands launched so far. -/
  launched : ℕ := 0
  /-- `_running`. -/
  running : List (VMHost ν × Option ℕ) := []
  /-- `_output`: whose output is kept for a VM. -/
  output : List (Str × ℕ) := []
  log : List (Event ν) := []

/-- `_startTest`. -/
def startTest (s : Connected ν) (r : Run ν) (vm : VMHost ν) (t : ℕ) : Except PyError (Run ν) := do
  match ← launch s vm t with
  | some l =>
    return { r with
      launched := r.launched + 1
      running := Assoc.set r.running vm (some r.launched)
      log := r.log ++ [.launch vm r.clock r.launched l] }
  | none => return { r with running := Assoc.set r.running vm none }

/-- The end of a command, killed or waited for: its output is kept. -/
def keepOutput (s : Connected ν) (r : Run ν) (vm : VMHost ν) (event : ℕ → Event ν) :
    Option ℕ → Except PyError (Run ν)
  | some cmd => do
    let name ← entry "vm".toList (Assoc.get s.vmNames vm)
    return { r with output := Assoc.set r.output name cmd, log := r.log ++ [event cmd] }
  | none => .error .AttributeError

/-- `_killTest`. -/
def killTest (s : Connected ν) (r : Run ν) (vm : VMHost ν) : Except PyError (Run ν) :=
  match Assoc.get r.running vm with
  | some cmd => keepOutput s r vm (.kill vm r.clock) cmd
  | none => .ok r

/-- `_runTests`, for one test. -/
def runTest (s : Connected ν) (instant : ℤ) (r : Run ν) (t : ℕ × VMHost ν) : Except PyError (Run ν) :=
  if instant = (s.test t.1).start then startTest s r t.2 t.1
  else if (s.test t.1).stop = some instant then killTest s r t.2
  else .ok r

/-- `_runTests`. -/
def runTests (s : Connected ν) (instant : ℤ) (tests : List (ℕ × VMHost ν)) (r : Run ν) :
    Except PyError (Run ν) := tests.foldlM (runTest s instant) r

/-- The loop of `run` over the instants. -/
def runFrom (s : Connected ν) (toRun : List (ℤ × List (ℕ × VMHost ν))) (r : Run ν) :
    List ℤ → Except PyError (Run ν)
  | [] => .ok r
  | [i] => runTests s i (Assoc.group toRun i) r
  | i :: j :: is => do
    let r ← runTests s i (Assoc.group toRun i) r
    runFrom s toRun { r with clock := r.clock + (j - i) } (j :: is)

/-- The end of `run`: the commands that are still in `_running` are waited for, the killed ones too. The
`wait` of the library returns when the command has ended; for one that is not killed and never ends
(`stress` in a test without an end) the source stays in it for ever. -/
def waitAll (s : Connected ν) (r : Run ν) : Except PyError (Run ν) :=
  r.running.foldlM (fun r t => keepOutput s r t.1 (.wait t.1) t.2) r

/-- `run`. -/
def run (s : Connected ν) : Except PyError (Run ν) := do
  let toRun := configureRun s.test s.vms
  let instants := (Assoc.keys toRun).mergeSort (· ≤ ·)
  let r ← runFrom s toRun {} instants
  waitAll s r

end

end Scenario
