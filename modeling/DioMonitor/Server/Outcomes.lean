import DioMonitor.Server.Accept
import DioMonitor.Server.Answers

/-!
# What a handler does

Between reading its request and sending its reply a handler acts on the registry. The functions below
say what it does and what it replies, for the text (and the ports) that it read, whatever becomes of
the connection meanwhile.
-/

namespace VMServer

open Config LibvirtClient

/-- How many writes send a reply. -/
def Reply.writes : Reply → ℕ
  | ok => 1
  | ip _ => 3
  | err _ => 2

/-- The end of a handler: the reply, and the connection is closed. -/
def put : Reply → Handle Unit
  | .ok => sendOk
  | .ip address => sendIp address
  | .err code => do
    sendError code
    close

/-- The name of the VM of a configuration. -/
def nameOf (cfg : Dict) : Except Exn Str := do
  let inner ← cfg.getDict "vm".toList
  inner.getString "name".toList

/-- What `treatProvision` does for a configuration. -/
def provisionOutcome (env : Env) (cfg : Dict) (w : World) : Reply × World :=
  match nameOf cfg with
  | .error _ => (.err .NOT_FOUND, w)
  | .ok name =>
    if hasVM w.running name then (.err .NOT_FOUND, w)
    else
      match LibvirtVM.ofDict env.ctl.host cfg with
      | .error _ => (.err .NOT_FOUND, w)
      | .ok vm =>
        match env.install vm with
        | .error _ => (.err .NOT_FOUND, w)
        | .ok net =>
          (.ip net.2, { w with running := w.running ++ [{ vm with mac := net.1, ip := net.2 }] })

/-- What `treatKill` does for a name. -/
def killOutcome (env : Env) (name : Str) (w : World) : Reply × World :=
  match getVM w.running name with
  | none => (.err .NOT_FOUND, w)
  | some vm =>
    match env.destroy vm with
    | .error _ => (.err .NOT_FOUND, w)
    | .ok _ => (.ok, { w with running := removeVM w.running name })

/-- What `treatIp` does for a name. -/
def ipOutcome (name : Str) (w : World) : Reply × World :=
  match getVM w.running name with
  | none => (.err .NOT_FOUND, w)
  | some vm => (.ip vm.ip, w)

/-- What `treatNat` does for a registered VM and two ports. -/
def natOutcome (env : Env) (vm : LibvirtVM) (host guest : ℕ) (w : World) : Reply × World :=
  if vm.ip ≠ [] then
    match env.iptables vm.ip (Dict.toInt host) (Dict.toInt guest) with
    | .error _ => (.err .NOT_FOUND, w)
    | .ok _ => (.ok, { w with nat := w.nat ++ [(vm.ip, Dict.toInt host, Dict.toInt guest)] })
  else (.ok, w)

/-- What `treatResetCounters` does. -/
def resetOutcome (env : Env) (w : World) : Reply × World :=
  (.ok, { w with
    running := if env.ctl.vcpuMarketEnabled then VCPUMarket.reset w.running else w.running })

/-- The end of a handler that comes to an outcome. -/
def ended (o : Reply × World) : World := (put o.1 o.2).2

end VMServer
