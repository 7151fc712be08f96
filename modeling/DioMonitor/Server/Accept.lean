import DioMonitor.Net.Framing
import DioMonitor.Server.Vm

/-!
# The accepting loop

`VMServer::acceptingLoop` accepts one client after the other, reads the number of a protocol, and
switches on it. A stream whose `accept` failed is handed on like the others: it has no descriptor, so
nothing is read from it.
-/

/-- `TcpListener::accept`: the socket of a client, or none when it fails. -/
def TcpListener.accept : Option Socket → TcpStream
  | some socket => { connected := true, socket }
  | none => { connected := false, socket := { incoming := [], eof := true } }

namespace VMServer

/-- The `switch` of `acceptingLoop`: the operation whose handler runs, none in the `default` case. -/
def dispatch (prot : ℕ) : Option VMProtocol :=
  if prot = VMProtocol.PROVISION.code then some .PROVISION
  else if prot = VMProtocol.KILL.code then some .KILL
  else if prot = VMProtocol.IP.code then some .IP
  else if prot = VMProtocol.NAT.code then some .NAT
  else if prot = VMProtocol.RESET_COUNTERS.code then some .RESET_COUNTERS
  else none

/-- The handler of an operation; `OK` and `ERR` are not in the `switch`. -/
def handler (env : Env) : VMProtocol → Handle Unit
  | .PROVISION => treatProvision env
  | .KILL => treatKill env
  | .IP => treatIp env
  | .NAT => treatNat env
  | .RESET_COUNTERS => treatResetCounters env
  | .OK | .ERR => sendError .PROTOCOL

/-- The body of `acceptingLoop` for one client. -/
def acceptClient (env : Env) : Handle Unit := do
  let prot ← receiveInt
  treat env prot

/-! ## What the client sent -/

/-- The bytes that the client sends before it closes its side; none when `accept` failed. -/
def sentBytes : Option Socket → List UInt8
  | some s => Framing.bytes s.incoming
  | none => []

/-- The server starts the handler of the operation `p` for a client. -/
def Dispatches (client : Option Socket) (p : VMProtocol) : Prop :=
  ∃ prot t, TcpStream.receiveInt (TcpListener.accept client) = .ok (prot, t) ∧ dispatch prot = some p

/-- The number of the protocol cannot be taken for another: the first read waits for ever or finds
eight bytes, or the bytes that it finds are no operation, or the zeros that it adds are what the client
sends next. -/
def HeaderArrives (eof : Bool) : List Arrival → Prop
  | [] => eof = false
  | .failure :: rest => List.replicate 8 0 <+: Framing.bytes rest
  | .bytes b bs :: rest =>
    8 ≤ (b :: bs).length ∨ dispatch (TcpStream.toULong (b :: bs)) = none ∨
      List.replicate (8 - (b :: bs).length) 0 <+: Framing.bytes rest

/-- The client was accepted, and the number of its protocol cannot be taken for another. -/
def HeaderRead : Option Socket → Prop
  | some s => HeaderArrives s.eof s.incoming
  | none => False

end VMServer
