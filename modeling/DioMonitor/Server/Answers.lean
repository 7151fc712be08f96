import DioMonitor.Server.Vm
import DioMonitor.Utils.Grammar

/-!
# Requests and their answers

What it means that a handler answers a request, and what a request must be for that. The network is
without failures here, so only the request, the registry and the outside world count.
-/

namespace VMServer

open Config LibvirtClient

/-- A complete reply. -/
inductive Reply where
  | ok
  | ip (address : Str)
  | err (code : VMProtocolError)

/-- The bytes of a reply. -/
def Reply.encode : Reply → List UInt8
  | ok => TcpStream.ofULong VMProtocol.OK.code
  | ip address =>
    TcpStream.ofULong VMProtocol.IP.code ++ TcpStream.ofULong address.length ++ TcpStream.ofStr address
  | err code => TcpStream.ofULong VMProtocol.ERR.code ++ TcpStream.ofULong code.code

/-- A handler that started in `w` returned, and wrote exactly one complete reply. -/
def Answered {α : Type} (w : World) (r : Except Fault α × World) : Prop :=
  (∃ a, r.1 = .ok a) ∧
    ∃ reply : Reply, r.2.stream.socket.sent = w.stream.socket.sent ++ reply.encode

/-- The client sends a length that a buffer can be allocated for, then the text. Neither read waits for
bytes that never come; `s'` is the socket after them. -/
def Delivers (host : Host) (s : Socket) (text : Str) (s' : Socket) : Prop :=
  ∃ hd s₁ bs, s.read 8 = .ok (some hd, s₁) ∧ TcpStream.toULong hd < 2 ^ 63 ∧
    host.canAlloc (TcpStream.toULong hd + 1) = true ∧
    s₁.read (TcpStream.toULong hd) = .ok (some bs, s') ∧ text = TcpStream.toStr bs

/-- A command ends, and throws nothing but exceptions of `caught`. -/
def Ends {α : Type} (caught : Exn → Bool) (r : Except Fault α) : Prop :=
  ∀ f, r = .error f → ∃ e, f = .throws e ∧ caught e = true

/-- A VM that is not registered yet can be built from the configuration and installed without an
exception that `utils::exception` does not cover. -/
def Installable (env : Env) (running : List LibvirtVM) (cfg : Dict) : Prop :=
  ∀ inner name, cfg.getDict "vm".toList = .ok inner → inner.getString "name".toList = .ok name →
    hasVM running name = false →
    (∀ e, LibvirtVM.ofDict env.ctl.host cfg = .error e → e.isUtils = true) ∧
      ∀ vm, LibvirtVM.ofDict env.ctl.host cfg = .ok vm → Ends Exn.isUtils (env.install vm)

/-- The client sends two port numbers, and the commands that redirect them end. -/
def Redirects (env : Env) (vm : LibvirtVM) (s : Socket) : Prop :=
  ∃ host s₁ guest s₂, s.read 8 = .ok (some host, s₁) ∧ s₁.read 8 = .ok (some guest, s₂) ∧
    (vm.ip ≠ [] → Ends (fun _ => true) (env.iptables vm.ip (Dict.toInt (TcpStream.toULong host))
      (Dict.toInt (TcpStream.toULong guest))))

/-- What a request needs to be answered: a PROVISION request a text of the configuration language, a NAT
request for a registered VM its ports, and every request that names something the announced text. -/
structure Answerable (env : Env) (prot : ℕ) (w : World) : Prop where
  provision : prot = VMProtocol.PROVISION.code → ∃ text s',
    Delivers env.ctl.host w.stream.socket text s' ∧
      ∃ cfg, Toml.Document text cfg ∧ Installable env w.running cfg
  kill : prot = VMProtocol.KILL.code → ∃ name s',
    Delivers env.ctl.host w.stream.socket name s' ∧
      ∀ vm, getVM w.running name = some vm → Ends (fun _ => true) (env.destroy vm)
  ip : prot = VMProtocol.IP.code → ∃ name s', Delivers env.ctl.host w.stream.socket name s'
  nat : prot = VMProtocol.NAT.code → ∃ name s',
    Delivers env.ctl.host w.stream.socket name s' ∧
      ∀ vm, getVM w.running name = some vm → Redirects env vm s'

end VMServer
