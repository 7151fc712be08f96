import DioMonitor.Lib.Transition
import DioMonitor.Server.Accept

/-!
# The descriptors of the clients

Every accepted client has a descriptor. It is open until its handler closes it; nothing else does, since
a `TcpStream` has no destructor. Handlers may be running for any number of clients, in any order.
-/

namespace VMServer

/-- The clients accepted so far. -/
structure Connections where
  running : List LibvirtVM := []
  nat : List (Str × ℤ × ℤ) := []
  /-- The clients whose handler is still running. -/
  pending : List Socket := []
  /-- How often each handler that returned closed the descriptor of its client. -/
  closed : List ℕ := []

namespace Connections

/-- A client is accepted, the handler of one returns, or the rest of the server changes the registry. -/
inductive Event where
  | accept (incoming : List Arrival) (eof : Bool) (writes : List Bool)
  | finish (i : ℕ)
  | registry (running : List LibvirtVM)

/-- How many clients have been accepted. -/
def accepted (c : Connections) : ℕ := c.pending.length + c.closed.length

/-- How many descriptors are open: each was opened once. -/
def opened (c : Connections) : ℤ := c.accepted - (c.closed.sum : ℕ)

/-- What the handler of a client starts from. -/
def world (c : Connections) (s : Socket) : World :=
  { stream := TcpListener.accept (some s), running := c.running, nat := c.nat }

/-- One event. A handler that waits for ever, or whose exception kills the process, does not return. -/
def step (env : Env) (c : Connections) : Event → Option Connections
  | .accept incoming eof writes =>
    some { c with pending := c.pending ++ [{ incoming, eof, writes }] }
  | .finish i =>
    match c.pending[i]? with
    | none => none
    | some s =>
      match acceptClient env (c.world s) with
      | (.ok (), w) => some {
          running := w.running
          nat := w.nat
          pending := c.pending.eraseIdx i
          closed := c.closed ++ [w.stream.socket.closes - s.closes] }
      | (.error _, _) => none
  | .registry running => some { c with running }

end Connections

end VMServer
