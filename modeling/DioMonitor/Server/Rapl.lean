import DioMonitor.Lib.Arith
import DioMonitor.Utils.Extract

/-!
# The energy counters

`RaplReader` reads the energy counters of the two packages of the host from two files, which it opens
once. Each reading returns what the counter has grown by since the last one. A variable that is not
initialised holds anything; it is an argument here.
-/

/-- The largest `unsigned long`. -/
def maxULong : ℕ := 2 ^ 64 - 1

structure RaplReader where
  raplEnabled : Bool
  raplValue0 : ℕ
  raplValue1 : ℕ
  raplFile0 : IFStream
  raplFile1 : IFStream
  deriving DecidableEq, Repr

namespace RaplReader

/-- `checkRaplCapabilities`, for the files of the two packages and members that hold `junk`. -/
def checkRaplCapabilities (file0 file1 : Option Str) (junk0 junk1 : ℕ) : RaplReader :=
  let raplFile0 := IFStream.new file0
  let raplFile1 := IFStream.new file1
  if raplFile0.isOpen then
    let (raplValue0, raplFile0) := raplFile0.extract maxULong (file0.getD []) junk0
    let (raplValue1, raplFile1) := raplFile1.extract maxULong (file1.getD []) junk1
    { raplEnabled := true, raplValue0, raplValue1, raplFile0, raplFile1 }
  else { raplEnabled := false, raplValue0 := junk0, raplValue1 := junk1, raplFile0, raplFile1 }

/-- The common part of the readings: the value that `content` holds from the position `pos` on. -/
def readFrom (pos : ℕ) (content : Str) (junk : ℕ) (file : IFStream) : ℕ × IFStream :=
  file.sync.seekg.extract maxULong (content.drop pos) junk

/-- `readPP0`, when the file holds `content` and the variable `value` holds `junk`. -/
def readPP0 (content : Str) (junk : ℕ) (r : RaplReader) : ℕ × RaplReader :=
  let (value, raplFile0) := readFrom 0 content junk r.raplFile0
  (usub value r.raplValue0, { r with raplFile0, raplValue0 := value })

/-- `readPP1`, when the file holds `content` and the variable `value` holds `junk`. -/
def readPP1 (content : Str) (junk : ℕ) (r : RaplReader) : ℕ × RaplReader :=
  let (value, raplFile1) := readFrom 1 content junk r.raplFile1
  (usub value r.raplValue1, { r with raplFile1, raplValue1 := value })

/-! ## Runs -/

/-- What a file presents for a counter. -/
def counterFile (counter : ℕ) : Str := Nat.toDigits 10 counter ++ ['\n']

/-- The reader when the counters of the packages are `counter0` and `counter1`. -/
def start (counter0 counter1 : ℕ) : RaplReader :=
  checkRaplCapabilities (some (counterFile counter0)) (some (counterFile counter1)) 0 0

/-- A reading, and the counter of its package at that time. -/
inductive Call where
  | readPP0 (counter : ℕ)
  | readPP1 (counter : ℕ)
  deriving DecidableEq, Repr

/-- What a call returns, and the reader after it. -/
def Call.perform (junk : UInt64) (r : RaplReader) : Call → ℕ × RaplReader
  | .readPP0 counter => r.readPP0 (counterFile counter) junk.toNat
  | .readPP1 counter => r.readPP1 (counterFile counter) junk.toNat

/-- The counters that the calls of `readPP0` see. -/
def counters0 (calls : List Call) : List ℕ :=
  calls.filterMap fun
    | .readPP0 counter => some counter
    | .readPP1 _ => none

/-- The counters that the calls of `readPP1` see. -/
def counters1 (calls : List Call) : List ℕ :=
  calls.filterMap fun
    | .readPP0 _ => none
    | .readPP1 counter => some counter

/-- The sums of what the calls of `readPP0` and of `readPP1` return. The variable of the `n`-th call
holds `junk n`. -/
def sums (junk : ℕ → UInt64) (r : RaplReader) : List Call → ℕ × ℕ
  | [] => (0, 0)
  | call :: calls =>
    let (res, r) := call.perform (junk 0) r
    let (sum0, sum1) := sums (fun n => junk (n + 1)) r calls
    match call with
    | .readPP0 _ => (res + sum0, sum1)
    | .readPP1 _ => (sum0, res + sum1)

end RaplReader
