import DioMonitor.Libvirt.Vcpu
import DioMonitor.Utils.Numbers

/-!
# The processor of a vCPU thread

`cgroup::readCpu` reads the file `/proc/<pid>/stat` of the thread of a vCPU into a buffer and looks for
the processor behind the 39th space.
-/

namespace Cgroup

/-- The size of the buffer. -/
def bufferSize : ℕ := 1024

/-- The loop of `readCpu`, when `i` spaces were counted up to the index `j`, where the text begins. It does
not look for the end of the data: `none` is that it leaves the bytes that were read. -/
def scan : ℕ → ℕ → Str → Option ℕ
  | _, _, [] => none
  | i, j, c :: s =>
    if c = ' ' then
      if i + 1 = 39 then some j else scan (i + 1) (j + 1) s
    else scan i (j + 1) s

/-- `readCpu`; `none` is a file that cannot be opened. -/
def readCpu : Option Str → Except Fault ℕ
  | none => .ok 0
  | some file =>
    let content := file.take bufferSize
    -- `content[len] = 0` is outside the buffer when the buffer is full
    if content.length < bufferSize then
      match scan 0 0 content with
      | some j => .ok (Numbers.atoi (content.drop j) % 2 ^ 32).toNat
      | none => .error .undefined
    else .error .undefined

/-! ## Well-formed files -/

/-- The line of a `stat` file. The name of the command is arbitrary. -/
structure StatLine where
  pid : ℕ
  comm : Str
  /-- Field 3. -/
  state : Char
  /-- The fields 4 to 38. -/
  before : List ℤ
  /-- Field 39. -/
  processor : ℕ
  /-- The fields from 40 on. -/
  after : List ℤ
  state_letter : state.isAlpha = true
  before_length : before.length = 35
  processor_lt : processor < 2 ^ 31

namespace StatLine

/-- A field with the space in front of it. -/
def field (i : ℤ) : Str := ' ' :: Config.showInt i

/-- What stands in front of the space before field 39. -/
def upTo38 (l : StatLine) : Str :=
  Nat.toDigits 10 l.pid ++ (" (".toList ++ (l.comm ++ (") ".toList ++ (l.state :: l.before.flatMap field))))

/-- The text from field 39 on. -/
def from39 (l : StatLine) : Str :=
  Nat.toDigits 10 l.processor ++ (l.after.flatMap field ++ ['\n'])

def text (l : StatLine) : Str := l.upTo38 ++ ' ' :: l.from39

/-- The spaces in the name of the command. -/
def spaces (l : StatLine) : ℕ := l.comm.count ' '

/-- What stands behind the `n`th space of a text. -/
def behind : ℕ → Str → Str
  | 0, s => s
  | _, [] => []
  | n + 1, c :: s => if c = ' ' then behind n s else behind (n + 1) s

/-- A field as `strtol` reads it, kept in an `int`. -/
def asInt (i : ℤ) : ℤ := (max (-2 ^ 63) (min (2 ^ 63 - 1) i)).bmod (2 ^ 32)

/-- What the loop takes for field 39 has its value by chance. That is field 40 when the name has no space,
field `40 - k` when it has `k` of them, the state, which is no number, when it has 37, and otherwise a number
in the name, behind its 38th space. -/
def Coincides (l : StatLine) : Prop :=
  (l.spaces = 0 ∧ ∃ i ∈ l.after.head?, asInt i = l.processor) ∨
  (2 ≤ l.spaces ∧ l.spaces ≤ 36 ∧ asInt (l.before.getD (36 - l.spaces) 0) = l.processor) ∨
  (l.spaces = 37 ∧ l.processor = 0) ∨
  (38 ≤ l.spaces ∧ Numbers.atoi (behind 38 l.comm) = l.processor)

end StatLine

end Cgroup
