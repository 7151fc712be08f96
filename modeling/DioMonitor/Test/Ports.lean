import DioMonitor.Client.Main
import DioMonitor.Lib.Transition
import DioMonitor.Libvirt.Nat
import DioMonitor.Server.Accept

/-!
# The ports of the test VMs

`ExecoClient` hands out the ports of a node one after the other, and lets `dio-client` ask the daemon of
the node to redirect each to a VM. The control loop of a daemon, its other threads and other clients act in
between.
-/

namespace ExecoClient

open LibvirtClient

/-- The daemon of a node: its control loop with the registry, and the redirections that it made. -/
structure Daemon where
  loop : Controller.State := Controller.start
  nat : List (Str × ℤ × ℤ) := []

/-- The address that a daemon has for a VM: none when the VM is not registered, or the daemon is dead. -/
def Daemon.address (d : Daemon) (name : Str) : Option Str :=
  if d.loop.next = .dead then none else (getVM d.loop.running name).map LibvirtVM.ip

/-- A port that was handed out, and the address that the daemon had for the VM then. -/
structure Opened (ν : Type) where
  node : ν
  port : ℕ
  guest : ℤ
  ip : Option Str

/-- What the launcher keeps, and the daemons of its nodes. -/
structure State (ν : Type) where
  /-- `_ports`: the next port of a node. -/
  ports : ν → Option ℕ
  /-- `_vmInfos`: the node of a VM. -/
  vmInfos : Str → Option ν
  daemons : ν → Daemon
  /-- The ports handed out so far. -/
  opened : List (Opened ν)

inductive Action (ν : Type) where
  /-- `startVM`, on the node that the load balancer selects. Its request is handled later. -/
  | startVM (name : Str) (node : ν)
  | connectVM (name : Str)
  | openVMPort (vmName : Str) (port : ℤ) (outPort : Option ℤ)
  /-- A client sends a request to the daemon of a node. -/
  | request (node : ν) (r : DioClient.Request)
  /-- The control loop of the daemon of a node, or one of its threads, takes a step. -/
  | daemon (node : ν) (a : Controller.Action)

section

variable {ν : Type} [DecidableEq ν]

/-- The launcher and the daemons are started. -/
def start : State ν :=
  { ports := fun _ => none, vmInfos := fun _ => none, daemons := fun _ => {}, opened := [] }

/-- `createUnusedPort`: the port, and `_ports` after it. -/
def createUnusedPort (ports : ν → Option ℕ) (node : ν) : ℕ × (ν → Option ℕ) :=
  match ports node with
  | some port => (port, Function.update ports node (some (port + 1)))
  | none => (3030, Function.update ports node (some (3030 + 1)))

/-- A daemon handles a request of `dio-client`; nobody listens any more when its process is dead. A run ends
with a handler that never returns or that kills the process. -/
def handle (env : VMServer.Env) (d : Daemon) (r : DioClient.Request) : Option Daemon :=
  if d.loop.next = .dead then some d
  else
    let client : Socket := { incoming := Socket.push r.encode [], eof := false }
    match VMServer.acceptClient env
      { stream := TcpListener.accept (some client), running := d.loop.running, nat := d.nat } with
    | (.ok _, w) => some { loop := { d.loop with running := w.running }, nat := w.nat }
    | (.error _, _) => none

/-- A request to the daemon of a node. -/
def request (env : ν → VMServer.Env) (s : State ν) (node : ν) (r : DioClient.Request) :
    Option (State ν) := do
  let d ← handle (env node) (s.daemons node) r
  some { s with daemons := Function.update s.daemons node d }

/-- The daemon of a node is asked to redirect an unused port. -/
def openUnused (env : ν → VMServer.Env) (s : State ν) (name : Str) (guest : ℤ) : Option (State ν) := do
  let node ← s.vmInfos name
  let unused := createUnusedPort s.ports node
  let ip := (s.daemons node).address name
  let s ← request env s node (.nat name unused.1 guest)
  some { s with ports := unused.2, opened := s.opened ++ [{ node, port := unused.1, guest, ip }] }

/-- `connectVM`. -/
def connectVM (env : ν → VMServer.Env) (s : State ν) (name : Str) : Option (State ν) :=
  openUnused env s name 22

/-- `openVMPort`. -/
def openVMPort (env : ν → VMServer.Env) (s : State ν) (vmName : Str) (port : ℤ) :
    Option ℤ → Option (State ν)
  | none => openUnused env s vmName port
  | some outPort => do
    let node ← s.vmInfos vmName
    request env s node (.nat vmName outPort port)

/-- One step. The launcher waits for the end of the commands that redirect a port. -/
def step (env : ν → VMServer.Env) (s : State ν) : Action ν → Option (State ν)
  | .startVM name node => some { s with vmInfos := Function.update s.vmInfos name (some node) }
  | .connectVM name => connectVM env s name
  | .openVMPort vmName port outPort => openVMPort env s vmName port outPort
  | .request node r => request env s node r
  | .daemon node a => do
    let loop ← Controller.step (env node).ctl (s.daemons node).loop a
    some { s with daemons := Function.update s.daemons node { s.daemons node with loop } }

end

/-! ## Names and ports -/

/-- A name that the daemon receives as it was sent. -/
def Sendable (name : Str) : Prop :=
  (∀ c ∈ name, 0 < c.toNat ∧ c.toNat < 2 ^ 8) ∧ name.length ≤ Socket.maxRead

/-- What an action sends is received as it was sent. -/
def Action.Sendable {ν : Type} : Action ν → Prop
  | startVM _ _ => True
  | connectVM name => ExecoClient.Sendable name
  | openVMPort vmName _ _ => ExecoClient.Sendable vmName
  | request _ r => ExecoClient.Sendable r.text
  | daemon _ _ => True

/-- A port, as the `int` of an option of `dio-client`, that the launcher never hands out. -/
def Reserved (port : ℤ) : Prop := -2 ^ 31 ≤ port ∧ port < 3030

/-- The action names no port that the launcher may hand out. -/
def Action.Apart {ν : Type} : Action ν → Prop
  | openVMPort _ _ (some outPort) => Reserved outPort
  | request _ (.nat _ host _) => Reserved host
  | _ => True

end ExecoClient
