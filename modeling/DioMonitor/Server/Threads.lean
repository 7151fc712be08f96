import DioMonitor.Lib.Locks
import DioMonitor.Utils.Log

/-!
# The threads of the daemon and their locks

The accepting loop of `VMServer`, the threads that provision VMs and the control loop share four
mutexes. A thread is the list of the locks it takes and of what it does under them. What it does without
a lock is left out: the reads and changes of the list of VMs outside its own mutex, the accounts that
`dumpCpuLogs` reads, the text that a failed command leaves on the console. What happens on the way (is the
VM known, how does the market end) is part of the program, so that all possible programs are covered. The
end of the daemon is not modelled: `Daemon::kill` cancels the threads where they are, and a mutex that one
of them holds stays locked.
-/

namespace Daemon

/-- The mutexes. -/
inductive Mutex where
  /-- `Controller::_mutex`, for the log file of the controller. -/
  | control
  /-- `Controller::_vcpuMutex`, for the market. -/
  | vcpu
  /-- `LibvirtClient::_mutex`, for the registry. -/
  | client
  /-- `logging::__mutex__`, for the console. -/
  | logging
  deriving DecidableEq, Repr

/-- What is done under a mutex. -/
inductive Access where
  /-- The phases of `VCPUMarket::run`. -/
  | sellBaseCycles | buyCycles | splitRest | redistribute | applyMarketAllocation
  /-- `VCPUMarket::reset`. -/
  | resetAccounts
  /-- `resetMarketCounters` removes the log file, `dumpCpuLogs` opens it and appends a record. -/
  | removeLog | openLog | writeLog | closeLog
  /-- The loop of `hasVM` or `getVM`, the copy of `removeVM`, and the command of `installVM`. -/
  | lookup | copy | install
  /-- A piece of text for the console. -/
  | print (piece : Str)
  deriving DecidableEq, Repr

/-- A program: its locks and what it does under them. -/
abbrev Program := List (Locks.Op Mutex Access)

open Locks (locked)

/-! ## Functions with a lock -/

/-- A call of `utils::logging`. -/
def log (level : Logging.Level) (time : Str) (msg : List Str) : Program :=
  locked .logging ((Logging.pieces level time msg).map .print)

def hasVM : Program := locked .client [.lookup]

def getVM : Program := locked .client [.lookup]

def removeVM : Program := locked .client [.copy]

def installVM : Program := locked .client [.install]

/-- How `VCPUMarket::run` ends. -/
inductive Tick where
  | noVM | overAllocated | applied
  deriving DecidableEq, Repr

/-- The phases of `VCPUMarket::run`. -/
def Tick.phases : Tick → List Access
  | .noVM => []
  | .overAllocated => [.sellBaseCycles]
  | .applied => [.sellBaseCycles, .buyCycles, .splitRest, .redistribute, .applyMarketAllocation]

/-- `Controller::resetMarketCounters`. -/
def resetMarketCounters (vcpuMarketEnabled : Bool) : Program :=
  .lock .control ::
    ((if vcpuMarketEnabled then locked .vcpu [.resetAccounts] else []) ++
      [.access .control .removeLog, .unlock .control])

/-- `Controller::dumpCpuLogs`: its mutex is that of the log file. The list of VMs and their accounts are read
without the mutex of the market, so a reset can come between two reads of one record. -/
def dumpCpuLogs : Program := locked .control [.openLog, .writeLog, .closeLog]

/-! ## Requests -/

/-- `LibvirtClient::kill`; `found` tells whether `getVM` finds the VM. -/
def kill (found : Bool) (time id : Str) : Program :=
  getVM ++
    if found then log .success time ["VM".toList, id, "is killed".toList] ++ removeVM else []

/-- What a client asks for, and what the server finds. -/
inductive Request where
  /-- A provision: the accepting loop only spawns a thread. -/
  | provision
  | kill (known found : Bool) (time id : Str)
  | ip (known : Bool)
  | nat (known : Bool)
  | resetCounters
  /-- An unknown protocol. -/
  | other

/-- Does the request reset the counters? -/
def Request.resets : Request → Bool
  | .resetCounters => true
  | _ => false

/-- The handler of a request in the accepting loop. -/
def treat (vcpuMarketEnabled : Bool) : Request → Program
  | .provision => []
  | .kill known found time id => hasVM ++ if known then kill found time id else []
  | .ip known => hasVM ++ if known then getVM else []
  | .nat known => hasVM ++ if known then getVM else []
  | .resetCounters => resetMarketCounters vcpuMarketEnabled
  | .other => []

/-- A client: the time it is accepted at, the number of the protocol as text, and its request. -/
structure Client where
  time : Str
  prot : Str
  request : Request

/-- One turn of `VMServer::acceptingLoop`. -/
def accept (vcpuMarketEnabled : Bool) (c : Client) : Program :=
  log .info c.time ["New client with protocol :".toList, c.prot] ++
    treat vcpuMarketEnabled c.request

/-- `VMServer::acceptingLoop`, for any number of clients. -/
def acceptingLoop (vcpuMarketEnabled : Bool) (time port : Str) (clients : List Client) : Program :=
  log .info time ["Server running on port :".toList, port] ++
    clients.flatMap (accept vcpuMarketEnabled)

/-! ## Provisions -/

/-- How far a provision gets. -/
inductive Provision where
  /-- The configuration names no VM. -/
  | invalid
  /-- The VM is already running, or the VM can not be built. -/
  | refused
  /-- It fails after the VM of the same name was killed, before the installation. -/
  | failed (found : Bool) (time id : Str)
  /-- The VM is running; `ready` is the time it is logged at. -/
  | done (found : Bool) (time id ready ip : Str)

/-- `VMServer::treatProvision`. -/
def treatProvision : Provision → Program
  | .invalid => []
  | .refused => hasVM
  | .failed found time id => hasVM ++ kill found time id
  | .done found time id ready ip =>
    hasVM ++ kill found time id ++ installVM ++
      log .success ready ["VM".toList, id, "is ready at ip : ".toList, ip]

/-! ## The control loop -/

/-- One turn of `Controller::cpuControlLoop`: in the first one the market does not run. The controllers are
updated without a lock. -/
inductive Frame where
  | sampled
  | market (tick : Tick)

/-- The tick of a frame. -/
def Frame.tick : Frame → Option Tick
  | .sampled => none
  | .market tick => some tick

def frame (vcpuMarketEnabled : Bool) : Frame → Program
  | .sampled => []
  | .market tick => (if vcpuMarketEnabled then locked .vcpu tick.phases else []) ++ dumpCpuLogs

/-- `Controller::cpuControlLoop`, for any number of frames. -/
def cpuControlLoop (vcpuMarketEnabled : Bool) (frames : List Frame) : Program :=
  frames.flatMap (frame vcpuMarketEnabled)

/-! ## The daemon -/

/-- What happens in a run of the daemon. -/
structure Run where
  vcpuMarketEnabled : Bool
  time : Str
  port : Str
  clients : List Client
  provisions : List Provision
  frames : List Frame

/-- The threads: the accepting loop, the control loop and the provisions. -/
def Run.threads (r : Run) : List Program :=
  acceptingLoop r.vcpuMarketEnabled r.time r.port r.clients ::
    cpuControlLoop r.vcpuMarketEnabled r.frames :: r.provisions.map treatProvision

/-- The state after the threads were scheduled in this order; `none` when one of them could not go on. -/
def Run.exec (r : Run) (schedule : List ℕ) : Option (Locks.State Mutex Access) :=
  Transition.run Locks.step (Locks.start r.threads) schedule

end Daemon
