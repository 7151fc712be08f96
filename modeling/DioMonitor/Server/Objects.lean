import DioMonitor.Lib.Transition
import DioMonitor.Utils.Config

/-!
# The VM objects that the handlers share

A provision builds a `LibvirtVM`, and `_running`, `getVM` and the copies of `removeVM` hold pointers to
it. The handlers of requests for a VM use these pointers outside any lock until `kill` deletes the
object. A pointer is the number of the provision that built the object; the name of an object is written
next to it, and stays readable when the object was deleted.

The loops of `hasVM`, `getVM` and `removeVM` run under `_mutex`, but `_running` is changed without it: the
assignment of `removeVM` and a `push_back` that has to grow free the storage that a loop may be reading. So
a loop takes its steps on the storage that it started on, up to the end that it had then. That
`virt-install` holds the mutex too only makes loops wait and is left out.

The provisions run in threads of their own, all other requests in the accepting loop, one at a time. The
control loop is left out.
-/

namespace VMObjects

/-- A pointer to a VM, and the name of the VM. -/
structure Obj where
  address : ℕ
  id : Str
  deriving DecidableEq

/-- The requests for a VM. -/
inductive Request where
  | provision (name : Str)
  | kill (name : Str)
  /-- `treatIp` or `treatNat`: the VM is looked up, and its address is read. -/
  | use (name : Str)
  deriving DecidableEq

def Request.name : Request → Str
  | .provision name => name
  | .kill name => name
  | .use name => name

/-- The request is handled in a thread of its own. -/
def Request.spawned : Request → Bool
  | .provision _ => true
  | _ => false

/-- A loop over `_running`: the storage that it reads, and the pointers in it that it did not read yet. -/
structure Scan where
  storage : ℕ
  rest : List Obj
  deriving DecidableEq

/-- The next step of a handler. -/
inductive Stage where
  /-- `hasVM`. -/
  | check
  /-- The loop of `hasVM`. -/
  | checking (c : Scan)
  /-- `getVM`; a provision builds its VM before. -/
  | find
  /-- The loop of `getVM`. -/
  | finding (c : Scan)
  /-- `killDomain`, `deleteDirAndVMFile` and the message of `kill`. -/
  | destroy (v : Obj)
  /-- `removeVM`. -/
  | copy (v : Obj)
  /-- The loop of `removeVM`. -/
  | copying (v : Obj) (c : Scan)
  /-- The assignment of the copy to `_running`. -/
  | assign (v : Obj) (res : List Obj)
  /-- The `delete` at the end of `kill`. -/
  | delete (v : Obj)
  /-- The installation of the VM and its `push_back` into `_running`, or its `delete`. -/
  | install
  /-- `treatProvision` reads the address of the new VM. -/
  | answer
  /-- `treatIp` or `treatNat` reads the address of the VM. -/
  | use (v : Obj)
  | finished
  deriving DecidableEq

/-- The loop over the registry that is running. -/
def Stage.scan : Stage → Option Scan
  | .checking c => some c
  | .finding c => some c
  | .copying _ c => some c
  | _ => none

/-- A request being handled. -/
structure Handler where
  request : Request
  stage : Stage
  deriving DecidableEq

/-- The registry, the number of the storage it is in, the objects deleted so far and the requests accepted
so far. The storages before the present one are freed. -/
structure State where
  running : List Obj
  storage : ℕ
  freed : List ℕ
  handlers : List Handler

def start : State := { running := [], storage := 0, freed := [], handlers := [] }

/-- Nobody holds `_mutex`. -/
def State.Unlocked (s : State) : Prop := ∀ h ∈ s.handlers, h.stage.scan = none

instance (s : State) : Decidable s.Unlocked := inferInstanceAs (Decidable (∀ _ ∈ _, _))

/-! ## Steps -/

/-- What is left to do after `LibvirtClient::kill`. -/
def afterKill : Request → Stage
  | .provision _ => .install
  | _ => .finished

/-- What is done with an object that `getVM` found. -/
def afterFind (v : Obj) : Request → Stage
  | .use _ => .use v
  | _ => .destroy v

/-- A provision goes on when `hasVM` found nothing, every other request when it found a VM. -/
def afterCheck (found : Bool) (r : Request) : Stage := if found = r.spawned then .finished else .find

/-- One turn of the loop of `hasVM`. -/
def checkTurn (r : Request) (c : Scan) : Stage :=
  match c.rest with
  | [] => afterCheck false r
  | v :: vs => if v.id = r.name then afterCheck true r else .checking { c with rest := vs }

/-- One turn of the loop of `getVM`. -/
def findTurn (r : Request) (c : Scan) : Stage :=
  match c.rest with
  | [] => afterKill r
  | v :: vs => if v.id = r.name then afterFind v r else .finding { c with rest := vs }

/-- One turn of the loop of `removeVM`: it stops after the first object that it copies. -/
def copyTurn (r : Request) (v : Obj) (c : Scan) : Stage :=
  match c.rest with
  | [] => .assign v []
  | w :: ws => if w.id ≠ r.name then .assign v [w] else .copying v { c with rest := ws }

/-- The handler `i` makes its next step. -/
def advance (s : State) (i : ℕ) (h : Handler) : Option State :=
  let next (stage : Stage) : List Handler := s.handlers.set i { h with stage }
  let scan : Scan := { storage := s.storage, rest := s.running }
  match h.stage with
  | .check => if s.Unlocked then some { s with handlers := next (.checking scan) } else none
  | .checking c => some { s with handlers := next (checkTurn h.request c) }
  | .find => if s.Unlocked then some { s with handlers := next (.finding scan) } else none
  | .finding c => some { s with handlers := next (findTurn h.request c) }
  | .destroy v => some { s with handlers := next (.copy v) }
  | .copy v => if s.Unlocked then some { s with handlers := next (.copying v scan) } else none
  | .copying v c => some { s with handlers := next (copyTurn h.request v c) }
  | .assign v res =>
    some { s with running := res, storage := s.storage + 1, handlers := next (.delete v) }
  | .delete v => some { s with freed := s.freed ++ [v.address], handlers := next (afterKill h.request) }
  | .install => some { s with running := s.running ++ [⟨i, h.request.name⟩], handlers := next .answer }
  | .answer => some { s with handlers := next .finished }
  | .use _ => some { s with handlers := next .finished }
  | .finished => none

/-- The objects that the next step of the handler `i` reads or deletes. -/
def accessed (i : ℕ) (h : Handler) : List Obj :=
  let own : List Obj := if h.request.spawned then [⟨i, h.request.name⟩] else []
  match h.stage with
  | .check => []
  | .checking c => c.rest.take 1
  | .find => own
  | .finding c => own ++ c.rest.take 1
  | .destroy v => [v]
  | .copy _ => []
  | .copying _ c => c.rest.take 1
  | .assign _ _ => []
  | .delete v => [v]
  | .install => [⟨i, h.request.name⟩]
  | .answer => [⟨i, h.request.name⟩]
  | .use v => [v]
  | .finished => []

/-- What can happen next. -/
inductive Event where
  /-- The accepting loop accepts a request. -/
  | accept (r : Request)
  | advance (i : ℕ)
  /-- The `push_back` of handler `i` moves `_running` to a larger storage. -/
  | grow (i : ℕ)
  /-- The VM of handler `i` can not be built from its configuration. -/
  | reject (i : ℕ)
  /-- The installation of handler `i` throws a `LibvirtError`, and its VM is deleted. -/
  | fail (i : ℕ)
  deriving DecidableEq

/-- The request is still being handled. -/
def Handler.Active (h : Handler) : Prop := h.stage ≠ .finished

instance (h : Handler) : Decidable h.Active := inferInstanceAs (Decidable (_ ≠ _))

/-- One step of the server: the accepting loop accepts a request when it has handled the one before. -/
def step (s : State) : Event → Option State
  | .accept r =>
    if ∀ h ∈ s.handlers, h.request.spawned = false → ¬ h.Active then
      some { s with handlers := s.handlers ++ [{ request := r, stage := .check }] }
    else none
  | .advance i =>
    match s.handlers[i]? with
    | none => none
    | some h => advance s i h
  | .grow i =>
    match s.handlers[i]? with
    | none => none
    | some h =>
      if h.stage = .install then
        some { s with
          running := s.running ++ [⟨i, h.request.name⟩]
          storage := s.storage + 1
          handlers := s.handlers.set i { h with stage := .answer } }
      else none
  | .reject i =>
    match s.handlers[i]? with
    | none => none
    | some h =>
      if h.request.spawned ∧ h.stage = .find then
        some { s with handlers := s.handlers.set i { h with stage := .finished } }
      else none
  | .fail i =>
    match s.handlers[i]? with
    | none => none
    | some h =>
      if h.stage = .install then
        some { s with freed := s.freed ++ [i], handlers := s.handlers.set i { h with stage := .finished } }
      else none

end VMObjects
