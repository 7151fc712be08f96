import DioMonitor.Net.Stream
import DioMonitor.Server.Control
import DioMonitor.Utils.Toml

/-!
# The handlers of the server

`VMServer::acceptingLoop` reads the number of a protocol from each client and runs the handler of that
protocol, in a thread of its own for PROVISION. A handler reads the rest of the request, acts on the
registry of VMs, and replies. An exception that leaves a handler kills the process.

A handler runs alone here: the registry only changes by its own actions.
-/

/-- `VMProtocol`. -/
inductive VMProtocol where
  | PROVISION | KILL | OK | ERR | IP | NAT | RESET_COUNTERS
  deriving DecidableEq, Repr

/-- `VMProtocolError`. -/
inductive VMProtocolError where
  | ALREADY_EXISTS | NOT_FOUND | PROTOCOL
  deriving DecidableEq, Repr

/-- The value of an enumerator. -/
def VMProtocol.code : VMProtocol → ℕ
  | PROVISION => 0
  | KILL => 1
  | OK => 2
  | ERR => 3
  | IP => 4
  | NAT => 5
  | RESET_COUNTERS => 6

/-- The value of an enumerator. -/
def VMProtocolError.code : VMProtocolError → ℕ
  | ALREADY_EXISTS => 0
  | NOT_FOUND => 1
  | PROTOCOL => 2

namespace VMServer

open LibvirtClient

/-! ## What a handler runs on -/

/-- The controller, and what the commands and libvirt do when a handler calls them. -/
structure Env where
  ctl : Controller
  /-- The installation of a VM, until its cgroups are found: its MAC address and its IP address. -/
  install : LibvirtVM → Except Fault (Str × Str)
  /-- The destruction of a VM and of its files. -/
  destroy : LibvirtVM → Except Fault Unit
  /-- The commands that redirect a port of the host to a port of an address. -/
  iptables : Str → ℤ → ℤ → Except Fault Unit

/-- The stream of the client, the registry, and the redirections made so far. -/
structure World where
  stream : TcpStream
  running : List LibvirtVM
  nat : List (Str × ℤ × ℤ) := []

/-- A handler: what it did to the world stays when it throws. -/
abbrev Handle := ExceptT Fault (StateM World)

/-- An action on the stream. -/
def onStream {α : Type} (m : StateT TcpStream (Except Fault) α) : Handle α := fun w =>
  match m w.stream with
  | .ok (a, stream) => (.ok a, { w with stream })
  | .error f => (.error f, w)

/-- A computation that leaves the world as it is. -/
def purely {α : Type} (r : Except Fault α) : Handle α := fun w => (r, w)

/-- What a function returns or throws. -/
def orThrow {α : Type} : Except Exn α → Except Fault α
  | .ok a => .ok a
  | .error e => .error (.throws e)

def receiveInt : Handle ℕ := onStream TcpStream.receiveInt

def receive (env : Env) (len : ℕ) : Handle Str := onStream (TcpStream.receive env.ctl.host len)

/-- `sendInt`; no handler looks at its result. -/
def sendInt (i : ℕ) : Handle Unit := modify fun w => { w with stream := (w.stream.sendInt i).2 }

def send (msg : Str) : Handle Unit := modify fun w => { w with stream := (w.stream.send msg).2 }

def close : Handle Unit := modify fun w => { w with stream := w.stream.close }

/-! ## The client -/

/-- `LibvirtClient::kill`. -/
def kill (env : Env) (name : Str) : Handle Unit := do
  match getVM (← get).running name with
  | none => pure ()
  | some vm =>
    purely (env.destroy vm)
    modify fun w => { w with running := removeVM w.running name }

/-- The end of `provision`: the VM is registered. -/
def pushBack (vm : LibvirtVM) : Handle LibvirtVM := do
  modify fun w => { w with running := w.running ++ [vm] }
  return vm

/-- `LibvirtClient::provision`. The `LibvirtError` that it catches is thrown again. -/
def provision (env : Env) (cfg : Config.Dict) : Handle LibvirtVM := do
  let vm ← purely (orThrow (LibvirtVM.ofDict env.ctl.host cfg))
  kill env vm.id
  let net ← purely (env.install vm)
  pushBack { vm with mac := net.1, ip := net.2 }

/-- `LibvirtClient::openNat`; the ports are converted to `int`. -/
def openNat (env : Env) (vm : LibvirtVM) (host guest : ℕ) : Handle Unit :=
  if vm.ip ≠ [] then do
    let host := Config.Dict.toInt host
    let guest := Config.Dict.toInt guest
    purely (env.iptables vm.ip host guest)
    modify fun w => { w with nat := w.nat ++ [(vm.ip, host, guest)] }
  else pure ()

/-! ## The handlers -/

/-- How a request begins: the length of a text, and the text. -/
def receiveText (env : Env) : Handle Str := do
  let len ← receiveInt
  receive env len

/-- The reply to a request that fails. -/
def sendError (e : VMProtocolError) : Handle Unit := do
  sendInt VMProtocol.ERR.code
  sendInt e.code

/-- The reply to a request that succeeds. -/
def sendOk : Handle Unit := do
  sendInt VMProtocol.OK.code
  close

/-- The reply that carries the address of a VM. -/
def sendIp (ip : Str) : Handle Unit := do
  sendInt VMProtocol.IP.code
  sendInt ip.length
  send ip
  close

/-- `try { body } catch`, for the exceptions `caught`. The body tells whether it returned from the
handler; otherwise the handler replies that there is no such VM. -/
def respond (caught : Exn → Bool) (body : Handle Bool) : Handle Unit := fun w =>
  match body w with
  | (.ok true, w') => (.ok (), w')
  | (.ok false, w') => notFound w'
  | (.error (.throws e), w') => if caught e then notFound w' else (.error (.throws e), w')
  | (.error f, w') => (.error f, w')
where
  notFound : Handle Unit := do
    sendError .NOT_FOUND
    close

/-- The `try` block of `treatProvision`. -/
def tryProvision (env : Env) (cfg : Config.Dict) : Handle Bool := do
  let inner ← purely (orThrow (cfg.getDict "vm".toList))
  let name ← purely (orThrow (inner.getString "name".toList))
  if !hasVM (← get).running name then
    let vm ← provision env cfg
    sendIp vm.ip
    return true
  else return false

/-- `treatProvision`. The text is parsed before the `try` block. -/
def treatProvision (env : Env) : Handle Unit := do
  let file ← receiveText env
  let cfg ← purely (Toml.parse file)
  respond Exn.isUtils (tryProvision env cfg)

/-- The `try` block of `treatKill`. -/
def tryKill (env : Env) (name : Str) : Handle Bool := do
  if hasVM (← get).running name then
    kill env name
    sendOk
    return true
  else return false

/-- `treatKill`. -/
def treatKill (env : Env) : Handle Unit := do
  let name ← receiveText env
  respond (fun _ => true) (tryKill env name)

/-- The `try` block of `treatIp`. -/
def tryIp (name : Str) : Handle Bool := do
  if hasVM (← get).running name then
    match getVM (← get).running name with
    | some vm =>
      sendIp vm.ip
      return true
    | none => return false
  else return false

/-- `treatIp`. -/
def treatIp (env : Env) : Handle Unit := do
  let name ← receiveText env
  respond (fun _ => true) (tryIp name)

/-- The `try` block of `treatNat`. -/
def tryNat (env : Env) (name : Str) : Handle Bool := do
  if hasVM (← get).running name then
    match getVM (← get).running name with
    | some vm =>
      let host ← receiveInt
      let guest ← receiveInt
      openNat env vm host guest
      sendOk
      return true
    | none => return false
  else return false

/-- `treatNat`. -/
def treatNat (env : Env) : Handle Unit := do
  let name ← receiveText env
  respond (fun _ => true) (tryNat env name)

/-- `treatResetCounters`, with `Controller::resetMarketCounters`. -/
def treatResetCounters (env : Env) : Handle Unit := do
  modify fun w => { w with
    running := if env.ctl.vcpuMarketEnabled then VCPUMarket.reset w.running else w.running }
  sendOk

/-- The handler that `acceptingLoop` runs for a protocol number. -/
def treat (env : Env) (prot : ℕ) : Handle Unit :=
  if prot = VMProtocol.PROVISION.code then treatProvision env
  else if prot = VMProtocol.KILL.code then treatKill env
  else if prot = VMProtocol.IP.code then treatIp env
  else if prot = VMProtocol.NAT.code then treatNat env
  else if prot = VMProtocol.RESET_COUNTERS.code then treatResetCounters env
  else sendError .PROTOCOL

end VMServer
