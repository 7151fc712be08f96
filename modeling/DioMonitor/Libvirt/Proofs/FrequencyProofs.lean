import DioMonitor.Lib.Transition
import DioMonitor.Libvirt.Frequency
import Mathlib.Data.List.Chain
import Mathlib.Data.List.GetD

/-!
# Proofs: the table of frequencies

The table is extended whenever its size is not the number of processors, and never rebuilt: it follows
the processors exactly as long as their number does not change (`follows_iff`).
-/

namespace LibvirtClient

/-- The system whose steps are the calls of `readCPUFrequency`. -/
def frequencyStep (t : FrequencyTable) (call : FrequencyCall) : Option FrequencyTable :=
  some (readCPUFrequency t call)

/-- The table has the right entries for `m` cores. -/
structure Sized (m : ℕ) (t : FrequencyTable) : Prop where
  path : t.cpuPath = (List.range m).map scalingCurFreq
  length : t.cpuFreq.length = m

theorem Sized.empty : Sized 0 FrequencyTable.empty := ⟨rfl, rfl⟩

theorem readCPUFrequency_path (t : FrequencyTable) (call : FrequencyCall) :
    (readCPUFrequency t call).cpuPath =
      if t.cpuPath.length ≠ call.nprocs then
        t.cpuPath ++ (List.range call.nprocs).map scalingCurFreq
      else t.cpuPath := by
  unfold readCPUFrequency
  by_cases h : t.cpuPath.length ≠ call.nprocs
  · simp only [if_pos h]
  · simp only [if_neg h]

theorem readCPUFrequency_length (t : FrequencyTable) (call : FrequencyCall) :
    (readCPUFrequency t call).cpuFreq.length =
      if t.cpuPath.length ≠ call.nprocs then t.cpuFreq.length + call.nprocs else t.cpuFreq.length := by
  unfold readCPUFrequency
  by_cases h : t.cpuPath.length ≠ call.nprocs
  · simp only [if_pos h, List.length_mapIdx, List.length_append, List.length_replicate]
  · simp only [if_neg h, List.length_mapIdx]

/-- Every entry is read from the file of the path at the same index. -/
theorem readCPUFrequency_freq {t : FrequencyTable} {call : FrequencyCall} {i f : ℕ}
    (hi : i < (readCPUFrequency t call).cpuFreq.length)
    (hf : readFreq (call.files ((readCPUFrequency t call).cpuPath.getD i [])) = some f) :
    (readCPUFrequency t call).cpuFreq[i]? = some f := by
  unfold readCPUFrequency at hi hf ⊢
  simp only [List.length_mapIdx] at hi
  rw [List.getElem?_mapIdx, List.getElem?_eq_getElem hi, Option.map_some, hf, Option.getD_some]

/-- A table of the right size is right. -/
theorem Sized.follows {t : FrequencyTable} {call : FrequencyCall}
    (h : Sized call.nprocs (readCPUFrequency t call)) : Follows call (readCPUFrequency t call) := by
  refine ⟨h.path, h.length, fun i hi f hf => ?_⟩
  apply readCPUFrequency_freq
  · rw [h.length]
    exact hi
  · rw [h.path, List.getD_eq_getElem _ _ (by simpa using hi)]
    simpa using hf

/-- One call: the table follows the processors exactly when it was empty or had the right size. -/
theorem Sized.follows_iff {m : ℕ} {t : FrequencyTable} (h : Sized m t) (call : FrequencyCall) :
    Follows call (readCPUFrequency t call) ↔ m = 0 ∨ m = call.nprocs := by
  have hlen : t.cpuPath.length = m := by simp [h.path]
  constructor
  · intro hf
    have hsize := hf.length
    rw [readCPUFrequency_length, hlen, h.length] at hsize
    by_cases hm : m ≠ call.nprocs
    · rw [if_pos hm] at hsize
      omega
    · exact Or.inr (not_not.mp hm)
  · intro hm
    apply Sized.follows
    refine ⟨?_, ?_⟩
    · rw [readCPUFrequency_path, hlen]
      by_cases hne : m ≠ call.nprocs
      · have hzero : m = 0 := hm.resolve_right hne
        subst hzero
        rw [if_pos hne, h.path]
        rfl
      · rw [if_neg hne, h.path, not_not.mp hne]
    · rw [readCPUFrequency_length, hlen, h.length]
      by_cases hne : m ≠ call.nprocs
      · rw [if_pos hne, hm.resolve_right hne, Nat.zero_add]
      · rw [if_neg hne, not_not.mp hne]

theorem Follows.sized {call : FrequencyCall} {t : FrequencyTable} (h : Follows call t) :
    Sized call.nprocs t := ⟨h.path, h.length⟩

theorem guarded_follows {m : ℕ} {t : FrequencyTable} (h : Sized m t) (calls : List FrequencyCall) :
    Transition.Guarded frequencyStep (fun t call => Follows call (readCPUFrequency t call)) t calls ↔
      List.IsChain (fun a b => a = 0 ∨ a = b) (m :: calls.map (·.nprocs)) := by
  induction calls generalizing m t with
  | nil => exact iff_of_true trivial (List.isChain_singleton m)
  | cons call calls ih =>
    rw [List.map_cons, List.isChain_cons_cons, ← h.follows_iff call]
    refine and_congr_right fun hf => ?_
    rw [← ih hf.sized]
    exact ⟨fun hall => hall _ rfl, fun hone t' ht' => Option.some.inj ht' ▸ hone⟩

/-- After every call of a run the table follows the processors, exactly when the number of processors,
once positive, stays the same. -/
theorem frequencyTable_follows_iff (calls : List FrequencyCall) :
    Transition.Guarded frequencyStep (fun t call => Follows call (readCPUFrequency t call))
        FrequencyTable.empty calls ↔
      List.IsChain (fun a b => a = 0 ∨ a = b) (calls.map (·.nprocs)) := by
  rw [guarded_follows Sized.empty]
  cases calls with
  | nil => exact iff_of_true (List.isChain_singleton 0) List.isChain_nil
  | cons call calls =>
    rw [List.map_cons, List.isChain_cons_cons]
    exact and_iff_right (Or.inl rfl)

/-- A second processor comes online: the table has three entries instead of two. -/
theorem frequencyTable_hotplug :
    ¬ Transition.Guarded frequencyStep (fun t call => Follows call (readCPUFrequency t call))
      FrequencyTable.empty
      [{ nprocs := 1, files := fun _ => none }, { nprocs := 2, files := fun _ => none }] := by
  intro h
  have hsecond := (h.2 _ rfl).1.length
  exact absurd hsecond (by decide)

end LibvirtClient
