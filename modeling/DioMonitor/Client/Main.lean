import DioMonitor.Net.Stream
import DioMonitor.Server.Vm

/-!
# The client

`dio-client` sends one request over a new connection and reads the reply. Both are encoded by hand, in
each of its functions, and once more in the handlers of the server.

The server may close its end as soon as it has read what it wants of the request. A write of the client
that comes later may fail, and `TcpStream` gives the connection up then, with the reply unread.
-/

namespace DioClient

/-- What the client reports at the end. -/
inductive Report where
  | killed
  | noVM
  | started (ip : Str)
  | vmError (err : ℕ)
  | natEnabled
  | countersReset
  | resetFailed
  deriving DecidableEq, Repr

/-- The report is a success. -/
def Report.success : Report → Bool
  | killed | started _ | natEnabled | countersReset => true
  | noVM | vmError _ | resetFailed => false

/-- The client talks over one stream. -/
abbrev Session := StateT TcpStream (Except Fault)

def sendInt (i : ℕ) : Session Unit := modify fun t => (t.sendInt i).2

def send (msg : Str) : Session Unit := modify fun t => (t.send msg).2

/-- A text is sent with its length in front. -/
def sendText (text : Str) : Session Unit := do
  sendInt text.length
  send text

/-- An `int` stored into an `unsigned long`. -/
def toULong (i : ℤ) : ℕ := (i % 2 ^ 64).toNat

/-- The `switch` of the functions whose reply is `OK`; the default case reads an error code and does not
look at it. -/
def okReply (success failure : Report) : Session Report := do
  let resp ← TcpStream.receiveInt
  if resp = VMProtocol.OK.code then return success
  else
    let _err ← TcpStream.receiveInt
    return failure

/-- The `switch` of `provisionVM`, whose reply is `IP`. -/
def ipReply (host : Host) : Session Report := do
  let resp ← TcpStream.receiveInt
  if resp = VMProtocol.IP.code then
    let ipLen ← TcpStream.receiveInt
    let ip ← TcpStream.receive host ipLen
    return .started ip
  else
    let err ← TcpStream.receiveInt
    return .vmError err

/-- `killVM`. -/
def killVM (name : Str) : Session Report := do
  sendInt VMProtocol.KILL.code
  sendText name
  okReply .killed .noVM

/-- `provisionVM`, for the text of a configuration file. -/
def provisionVM (host : Host) (vmCfg : Str) : Session Report := do
  sendInt VMProtocol.PROVISION.code
  sendText vmCfg
  ipReply host

/-- `natVM`. -/
def natVM (name : Str) (host guest : ℤ) : Session Report := do
  sendInt VMProtocol.NAT.code
  sendText name
  sendInt (toULong host)
  sendInt (toULong guest)
  okReply .natEnabled .noVM

/-- `resetCounters`. -/
def resetCounters : Session Report := do
  sendInt VMProtocol.RESET_COUNTERS.code
  okReply .countersReset .resetFailed

/-! ## Requests -/

/-- A request of the client. -/
inductive Request where
  | kill (name : Str)
  | provision (vmCfg : Str)
  | nat (name : Str) (host guest : ℤ)
  | reset

/-- The function that makes a request. -/
def Request.run (host : Host) : Request → Session Report
  | kill name => killVM name
  | provision vmCfg => provisionVM host vmCfg
  | nat name natHost natGuest => natVM name natHost natGuest
  | reset => resetCounters

/-- The text of a request. -/
def Request.text : Request → Str
  | kill name => name
  | provision vmCfg => vmCfg
  | nat name _ _ => name
  | reset => []

/-- The bytes of a request. -/
def Request.encode : Request → List UInt8
  | kill name =>
    TcpStream.ofULong VMProtocol.KILL.code ++ (TcpStream.ofULong name.length ++ TcpStream.ofStr name)
  | provision vmCfg =>
    TcpStream.ofULong VMProtocol.PROVISION.code ++
      (TcpStream.ofULong vmCfg.length ++ TcpStream.ofStr vmCfg)
  | nat name host guest =>
    TcpStream.ofULong VMProtocol.NAT.code ++ (TcpStream.ofULong name.length ++ (TcpStream.ofStr name ++
      (TcpStream.ofULong (toULong host) ++ TcpStream.ofULong (toULong guest))))
  | reset => TcpStream.ofULong VMProtocol.RESET_COUNTERS.code

/-! ## Sessions -/

/-- The writes of a request, one for each call of `sendInt` and `send`. -/
def Request.writes : Request → List (List UInt8)
  | kill name =>
    [TcpStream.ofULong VMProtocol.KILL.code, TcpStream.ofULong name.length, TcpStream.ofStr name]
  | provision vmCfg =>
    [TcpStream.ofULong VMProtocol.PROVISION.code, TcpStream.ofULong vmCfg.length, TcpStream.ofStr vmCfg]
  | nat name host guest =>
    [TcpStream.ofULong VMProtocol.NAT.code, TcpStream.ofULong name.length, TcpStream.ofStr name,
      TcpStream.ofULong (toULong host), TcpStream.ofULong (toULong guest)]
  | reset => [TcpStream.ofULong VMProtocol.RESET_COUNTERS.code]

/-- The results that the writes of a client can have, when the server has closed its end without reading the
bytes `unread`. A write whose bytes the server has read has succeeded; a later one may come after the
close. -/
inductive Delivered (unread : List UInt8) : List (List UInt8) → List Bool → Prop where
  | nil : Delivered unread [] []
  | sent {bs : List UInt8} {writes : List (List UInt8)} {results : List Bool}
      (h : Delivered unread writes results) : Delivered unread (bs :: writes) (true :: results)
  | failed {bs : List UInt8} {writes : List (List UInt8)} {results : List Bool} (hbs : bs ≠ [])
      (hunread : bs ++ writes.flatten <:+ unread) (h : Delivered unread writes results) :
      Delivered unread (bs :: writes) (false :: results)

/-- The connection of a client: the reply is all that it will receive, and its writes have these
results. -/
def connection (reply : List UInt8) (results : List Bool) : TcpStream :=
  { connected := true, socket := { incoming := Socket.push reply [], eof := false, writes := results } }

/-- The client reads the reply to its last byte, waits for nothing else, and reports a success exactly
when `P` holds. -/
def Agreed (host : Host) (r : Request) (reply : List UInt8) (results : List Bool) (P : Prop) : Prop :=
  ∃ report t, r.run host (connection reply results) = .ok (report, t) ∧ t.socket.unread = [] ∧
    (report.success = true ↔ P)

end DioClient
