import DioMonitor.Libvirt.Client

/-!
# Requests handled concurrently

`VMServer::acceptingLoop` handles a PROVISION request in a thread of its own and a KILL request itself,
before it accepts another one. The critical sections of `hasVM`, `getVM` and of the copy in `removeVM`
are single steps; so are the accesses to `_running` outside any lock: the assignment at the end of
`removeVM` and the `push_back` at the end of `provision`.
-/

namespace VMServer

open LibvirtClient

/-- The next step of a handler. -/
inductive Stage where
  /-- `hasVM`, in `treatProvision` or `treatKill`. -/
  | check
  /-- `getVM`, in `LibvirtClient::kill`. -/
  | find
  /-- The copy made under the lock of `removeVM`. -/
  | copy
  /-- The assignment of the copy to `_running`. -/
  | assign (res : List LibvirtVM)
  /-- The installation of the VM and its `push_back` into `_running`. -/
  | install
  /-- None: the VM was provisioned. -/
  | completed
  /-- None: the VM was killed, or the request was refused or failed. -/
  | finished
  deriving DecidableEq

/-- A request being handled. -/
structure Handler where
  request : Request
  stage : Stage

/-- The registry and the requests accepted so far. -/
structure State where
  running : List LibvirtVM
  handlers : List Handler

/-- The server starts with an empty registry. -/
def start : State := { running := [], handlers := [] }

/-- What is left to do after `LibvirtClient::kill`, which `provision` calls first. -/
def afterKill : Request → Stage
  | .provision _ => .install
  | .kill _ => .finished

/-- One step of a handler: the registry and the stage after it. -/
def advance (running : List LibvirtVM) (h : Handler) : Option (List LibvirtVM × Stage) :=
  match h.stage, h.request with
  | .check, .provision vm => some (running, if hasVM running vm.id then .finished else .find)
  | .check, .kill name => some (running, if hasVM running name then .find else .finished)
  | .find, r => some (running, if (getVM running r.name).isSome then .copy else afterKill r)
  | .copy, r => some (running, .assign (removeCopy r.name running))
  | .assign res, r => some (res, afterKill r)
  | .install, .provision vm => some (running ++ [vm], .completed)
  | .install, .kill _ => none
  | .completed, _ => none
  | .finished, _ => none

/-- The accepting loop is still handling this KILL request. -/
def Handler.busy (h : Handler) : Bool :=
  match h.request with
  | .kill _ => decide (h.stage ≠ .finished)
  | .provision _ => false

/-- What can happen next. -/
inductive Event where
  /-- The accepting loop accepts a request. -/
  | accept (r : Request)
  /-- The handler `i` makes its next step. -/
  | advance (i : ℕ)
  /-- The installation of the VM of handler `i` throws a `LibvirtError`. -/
  | fail (i : ℕ)

/-- One step of the server. -/
def step (s : State) : Event → Option State
  | .accept r =>
    if ∀ h ∈ s.handlers, h.busy = false then
      some { s with handlers := s.handlers ++ [{ request := r, stage := .check }] }
    else none
  | .advance i =>
    match s.handlers[i]? with
    | none => none
    | some h =>
      match advance s.running h with
      | none => none
      | some (running, stage) => some { running, handlers := s.handlers.set i { h with stage } }
  | .fail i =>
    match s.handlers[i]? with
    | none => none
    | some h =>
      if h.stage = .install then
        some { s with handlers := s.handlers.set i { h with stage := .finished } }
      else none

end VMServer
