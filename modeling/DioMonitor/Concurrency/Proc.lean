import DioMonitor.Lib.Transition
import Mathlib.Logic.Function.Basic

/-!
# Sub processes and their pipes

A `SubProcess` owns three pipes from its construction on, hands one end of each to the child that
`start` forks, and closes the rest in `wait` and when it is destroyed. Several threads of the daemon use
sub processes at the same time, and descriptors are numbers of one table: a number that was closed is
given out again. The threads are interleaved at the granularity of the system calls; which free numbers
`pipe` returns is left to the system.
-/

namespace SubProcess

/-- The members `_stdin`, `_stdout` and `_stderr`. -/
inductive Stream where
  | stdin | stdout | stderr
  deriving DecidableEq, Repr

/-- The ends of a pipe: an `IPipe` reads, an `OPipe` writes. -/
inductive Side where
  | read | write
  deriving DecidableEq, Repr

/-- What a descriptor stands for: an end of a pipe of sub process `k`, or anything else. -/
inductive File where
  | other
  | pipe (k : ℕ) (st : Stream) (side : Side)
  deriving DecidableEq, Repr

/-- The descriptors of a process. -/
abbrev Table := ℕ → Option File

/-- The fields `_pipe` of the six pipe objects of a sub process. -/
abbrev Handles := Stream → Side → ℕ

/-- `IPipe::close` and `OPipe::close` close the descriptor, and set the field to 0; else they do
nothing. -/
def closes : Side → ℕ → Bool
  | .read, fd => fd != 0
  | .write, fd => fd != 0 && fd != 1 && fd != 2

/-! ## The system calls of a sub process -/

inductive Call where
  /-- `pipe`, in `createPipes`. -/
  | pipe (st : Stream)
  | fork
  /-- `close` of an `IPipe` or an `OPipe`. -/
  | close (st : Stream) (side : Side)
  deriving DecidableEq, Repr

/-- `IOPipe::close`. -/
def closeBoth (st : Stream) : List Call := [.close st .read, .close st .write]

/-- The constructor creates the members in the order of their declaration. -/
def construct : List Call := [.pipe .stdin, .pipe .stdout, .pipe .stderr]

/-- `SubProcess::start`, in the parent. -/
def start : List Call := [.fork, .close .stdin .read, .close .stdout .write, .close .stderr .write]

/-- `SubProcess::wait`. -/
def wait : List Call := closeBoth .stdin

/-- The destructor of an `IOPipe`, and then those of its `OPipe` and its `IPipe`. -/
def destroyPipe (st : Stream) : List Call := closeBoth st ++ [.close st .write, .close st .read]

/-- The destructor of a `SubProcess`, and then those of its members. -/
def destroy : List Call :=
  closeBoth .stderr ++ closeBoth .stdout ++ closeBoth .stdin ++
    (destroyPipe .stderr ++ destroyPipe .stdout ++ destroyPipe .stdin)

/-- The methods that use descriptors. -/
inductive Method where
  | start | wait
  deriving DecidableEq, Repr

def Method.calls : Method → List Call
  | .start => SubProcess.start
  | .wait => SubProcess.wait

/-- Everything that happens to a sub process. -/
def life (methods : List Method) : List Call := construct ++ methods.flatMap Method.calls ++ destroy

/-! ## The child -/

/-- `dup2`. -/
def dup2 (t : Table) (old new : ℕ) : Table :=
  match t old with
  | none => t
  | some f => Function.update t new (some f)

/-- `close` of an `IPipe` or an `OPipe`, as far as the table is concerned. -/
def closePipe (side : Side) (fd : ℕ) (t : Table) : Table :=
  if closes side fd then Function.update t fd none else t

/-- `SubProcess::child`, up to `execvp`. -/
def child (handles : Handles) (t : Table) : Table :=
  let t := dup2 t (handles .stdin .read) 0
  let t := dup2 t (handles .stdout .write) 1
  let t := dup2 t (handles .stderr .write) 2
  let closed := fun (st : Stream) (t : Table) =>
    closePipe .write (handles st .write) (closePipe .read (handles st .read) t)
  closed .stderr (closed .stdout (closed .stdin t))

/-! ## The daemon -/

/-- A sub process: its handles and what is left of its life. -/
structure Proc where
  handles : Handles
  todo : List Call

/-- The descriptors of the daemon and its sub processes. -/
structure State where
  table : Table
  procs : List Proc

/-- What can happen next. -/
inductive Event where
  /-- A thread declares a sub process. -/
  | create (methods : List Method)
  /-- The next `pipe` of sub process `k` returns these descriptors, or fails. -/
  | pipe (k : ℕ) (fds : Option (ℕ × ℕ))
  /-- Sub process `k` makes its next call, which is not `pipe`. -/
  | call (k : ℕ)
  /-- The daemon opens or closes another descriptor. -/
  | opened (fd : ℕ)
  | closed (fd : ℕ)
  deriving DecidableEq, Repr

/-- The handles with one of them changed. -/
def setHandle (handles : Handles) (st : Stream) (side : Side) (fd : ℕ) : Handles :=
  Function.update handles st (Function.update (handles st) side fd)

def step (s : State) : Event → Option State
  | .create methods => some { s with procs := s.procs ++ [{ handles := fun _ _ => 0, todo := life methods }] }
  | .pipe k fds =>
    match s.procs[k]? with
    | some { handles, todo := .pipe st :: todo } =>
      match fds with
      -- `pipes` keeps its zeros
      | none => some { s with procs := s.procs.set k { handles := Function.update handles st fun _ => 0, todo } }
      | some (i, o) =>
        if s.table i = none ∧ s.table o = none ∧ i ≠ o then
          some {
            table := Function.update (Function.update s.table i (some (.pipe k st .read))) o
              (some (.pipe k st .write))
            procs := s.procs.set k
              { handles := setHandle (setHandle handles st .read i) st .write o, todo } }
        else none
    | _ => none
  | .call k =>
    match s.procs[k]? with
    | some { handles, todo := .fork :: todo } => some { s with procs := s.procs.set k { handles, todo } }
    | some { handles, todo := .close st side :: todo } =>
      let fd := handles st side
      some {
        table := closePipe side fd s.table
        procs := s.procs.set k
          { handles := if closes side fd then setHandle handles st side 0 else handles, todo } }
    | _ => none
  | .opened fd =>
    if s.table fd = none then some { s with table := Function.update s.table fd (some .other) } else none
  | .closed fd =>
    if s.table fd = some .other ∧ 2 < fd then some { s with table := Function.update s.table fd none } else none

/-- The daemon with these descriptors and no sub process. -/
def init (isOpen : ℕ → Bool) : State :=
  { table := fun fd => if isOpen fd then some .other else none, procs := [] }

end SubProcess
