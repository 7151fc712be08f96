import DioMonitor.Utils.Extract

/-!
# The frequencies of the cores

`LibvirtClient::readCPUFrequency` keeps a table with the frequency of each core of the host, and the path
of the file that shows it.
-/

namespace LibvirtClient

/-- The members `_cpuPath` and `_cpuFreq`. -/
structure FrequencyTable where
  cpuPath : List Str
  cpuFreq : List ℕ

/-- The largest `unsigned int`. -/
def maxUInt : ℕ := 2 ^ 32 - 1

/-- The file with the frequency of the core `i`. -/
def scalingCurFreq (i : ℕ) : Str :=
  "/sys/devices/system/cpu/cpu".toList ++ (Nat.toDigits 10 i ++ "/cpufreq/scaling_cur_freq".toList)

/-- What is read from a file; `none` keeps the old value. -/
def readFreq (file : Option Str) : Option ℕ := file.bind fun s => (Extraction.unsigned maxUInt s).value

/-- A call of `readCPUFrequency`: what `get_nprocs` returns, and the files. -/
structure FrequencyCall where
  nprocs : ℕ
  files : Str → Option Str

/-- `readCPUFrequency`. -/
def readCPUFrequency (t : FrequencyTable) (call : FrequencyCall) : FrequencyTable :=
  let t :=
    if t.cpuPath.length ≠ call.nprocs then
      { cpuPath := t.cpuPath ++ (List.range call.nprocs).map scalingCurFreq
        cpuFreq := t.cpuFreq ++ List.replicate call.nprocs 0 }
    else t
  { t with
    cpuFreq := t.cpuFreq.mapIdx fun i freq =>
      (readFreq (call.files (t.cpuPath.getD i []))).getD freq }

/-- The table of a new client. -/
def FrequencyTable.empty : FrequencyTable := { cpuPath := [], cpuFreq := [] }

/-- The table has one entry for each core, in their order. -/
structure Follows (call : FrequencyCall) (t : FrequencyTable) : Prop where
  path : t.cpuPath = (List.range call.nprocs).map scalingCurFreq
  length : t.cpuFreq.length = call.nprocs
  freq : ∀ i < call.nprocs, ∀ f, readFreq (call.files (scalingCurFreq i)) = some f → t.cpuFreq[i]? = some f

end LibvirtClient
