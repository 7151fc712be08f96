import DioMonitor.Lib.SlidingWindow
import DioMonitor.Libvirt.Proofs.VcpuProofs
import DioMonitor.Libvirt.Trend
import Mathlib.Data.List.GetD

/-!
# Proofs: the trend of a vCPU

`computeSlope` computes the least-squares slope of the history, and over a run the history is a sliding
window on the recorded percentages.
-/

namespace LibvirtVCPUController

open LeastSquares SlidingWindow

/-! ## The slope of the history -/

/-- The least-squares slope of samples that are taken at `0, 1, 2, …`. -/
def sampleSlope (samples : List ℚ) : ℚ :=
  LeastSquares.slope (Finset.range samples.length) Nat.cast (samples.getD · 0)

theorem samples_eq (l : List ℚ) : l = (List.range l.length).map (l.getD · 0) := by
  apply List.ext_getElem
  · simp
  · intro i h₁ h₂
    simp [h₁]

/-- Two samples are taken at different places. -/
theorem exists_range {n : ℕ} (hn : 2 ≤ n) :
    ∃ i ∈ Finset.range n, ∃ j ∈ Finset.range n, (i : ℚ) < j :=
  ⟨0, Finset.mem_range.mpr (by omega), 1, Finset.mem_range.mpr (by omega), by simp⟩

/-- `computeSlope` computes the least-squares slope. -/
theorem computeSlope_slope (c : LibvirtVCPUController) (h : 2 ≤ c.history.length) :
    c.computeSlope.slope = .num (sampleSlope c.history) := by
  have hn : (c.history.length : ℚ) ≠ 0 := by
    have hpos : c.history.length ≠ 0 := by omega
    exact_mod_cast hpos
  have hss := (codev_self_pos (exists_range h)).ne'
  have hlist := samples_eq c.history
  unfold computeSlope sampleSlope
  dsimp only
  set n := c.history.length
  set y : ℕ → ℚ := (c.history.getD · 0)
  set x : ℕ → ℚ := Nat.cast
  have hmX : (FloatVal.num ((List.range n).map x).sum).div (.num n) =
      .num (mean (Finset.range n) x) := by
    rw [FloatVal.div_num hn, mean, Finset.card_range]
    rfl
  have hmY : (FloatVal.num c.history.sum).div (.num n) = .num (mean (Finset.range n) y) := by
    rw [FloatVal.div_num hn, mean, Finset.card_range, hlist]
    rfl
  have hssX : (((List.range n).map x).map fun i =>
      (i - mean (Finset.range n) x) * (i - mean (Finset.range n) x)).sum =
        codev (Finset.range n) x x := by
    rw [List.map_map]
    rfl
  have hsp : ((((List.range n).map x).zip c.history).map fun xy =>
      (xy.1 - mean (Finset.range n) x) * (xy.2 - mean (Finset.range n) y)).sum =
        codev (Finset.range n) x y := by
    rw [hlist, List.zip_map', List.map_map]
    rfl
  rw [hmX, hmY]
  dsimp only
  rw [hsp, hssX, FloatVal.div_num hss, LeastSquares.slope]

section

variable {l : List ℚ} (hl : 2 ≤ l.length)
include hl

theorem fitted_iff (b : ℚ) : (∃ a, Fitted l a b) ↔ b = sampleSlope l := by
  constructor
  · rintro ⟨a, hfit⟩
    exact ((fits_iff (exists_range hl)).mp hfit).1
  · intro hb
    exact ⟨_, (fits_iff (exists_range hl)).mpr ⟨hb, rfl⟩⟩

theorem sampleSlope_line {a b : ℚ} (h : ∀ (i : ℕ) x, l[i]? = some x → x = a + b * i) :
    sampleSlope l = b := by
  refine slope_line (exists_range hl) (a := a) fun i hi => ?_
  have hlt := Finset.mem_range.mp hi
  rw [List.getD_eq_getElem l 0 hlt]
  exact h i _ (List.getElem?_eq_getElem hlt)

theorem sampleSlope_shift (k : ℚ) : sampleSlope (l.map (· + k)) = sampleSlope l := by
  have hs : (Finset.range l.length).Nonempty := ⟨0, Finset.mem_range.mpr (by omega)⟩
  unfold sampleSlope
  rw [List.length_map, slope_affine hs (z := (l.getD · 0)) (a := k) (b := 1), one_mul]
  intro i hi
  have hlt := Finset.mem_range.mp hi
  rw [List.getD_eq_getElem _ 0 (by rwa [List.length_map]), List.getD_eq_getElem l 0 hlt,
    List.getElem_map]
  ring

theorem sampleSlope_pos (h : l.Pairwise (· < ·)) : 0 < sampleSlope l := by
  refine slope_pos (fun i hi j hj hij => ?_) (exists_range hl)
  rw [List.getD_eq_getElem l 0 (Finset.mem_range.mp hi),
    List.getD_eq_getElem l 0 (Finset.mem_range.mp hj)]
  exact List.pairwise_iff_getElem.mp h i j _ _ (Nat.cast_lt.mp hij)

theorem sampleSlope_neg (h : l.Pairwise (· > ·)) : sampleSlope l < 0 := by
  refine slope_neg (fun i hi j hj hij => ?_) (exists_range hl)
  rw [List.getD_eq_getElem l 0 (Finset.mem_range.mp hi),
    List.getD_eq_getElem l 0 (Finset.mem_range.mp hj)]
  exact List.pairwise_iff_getElem.mp h i j _ _ (Nat.cast_lt.mp hij)

end

/-- The least-squares slope of at least two samples is their trend. -/
theorem trend_sampleSlope {c : LibvirtVCPUController} (hl : 2 ≤ c.history.length)
    (hslope : c.slope = .num (sampleSlope c.history)) : Trend c (sampleSlope c.history) where
  slope_eq := hslope
  fitted := fitted_iff hl
  line := fun a b h => sampleSlope_line hl h
  shift := by
    intro k
    rw [computeSlope_slope _ (by rwa [List.length_map]), sampleSlope_shift hl]
  increasing := sampleSlope_pos hl
  decreasing := sampleSlope_neg hl

/-! ## The sliding window -/

/-- After the percentages `ps` have been recorded. -/
structure Window (maxHistory : ℕ) (ps : List ℚ) (c : LibvirtVCPUController) : Prop where
  maxHistory_eq : c.maxHistory = maxHistory
  history_eq : c.history = window maxHistory ps
  early : ps.length < maxHistory → c.slope = .num 0
  late : maxHistory ≤ ps.length → c.slope = .num (sampleSlope c.history)

section

variable {maxHistory : ℕ} {ps : List ℚ} {c c' : LibvirtVCPUController}

/-- A call that leaves the history and the slope leaves the window. -/
theorem Window.congr (h : Window maxHistory ps c) (hmax : c'.maxHistory = c.maxHistory)
    (hhistory : c'.history = c.history) (hslope : c'.slope = c.slope) : Window maxHistory ps c' where
  maxHistory_eq := hmax.trans h.maxHistory_eq
  history_eq := hhistory.trans h.history_eq
  early := fun hlt => hslope.trans (h.early hlt)
  late := fun hle => by rw [hslope, hhistory, h.late hle]

theorem Window.addToHistory (hmax : 2 ≤ maxHistory) (h : Window maxHistory ps c) :
    Window maxHistory (ps ++ [c.getPercentageConsumption]) c.addToHistory := by
  obtain rfl := h.maxHistory_eq
  have hpush := push_window (n := c.maxHistory) ps c.getPercentageConsumption
  have hqs : (ps ++ [c.getPercentageConsumption]).length = ps.length + 1 := List.length_append
  rw [← h.history_eq, push] at hpush
  unfold LibvirtVCPUController.addToHistory
  dsimp only
  rw [hpush, length_window]
  generalize ps ++ [c.getPercentageConsumption] = qs at hqs ⊢
  by_cases hfull : min qs.length c.maxHistory = c.maxHistory
  · have hlen : 2 ≤ (window c.maxHistory qs).length := by
      rw [length_window]
      omega
    obtain ⟨x, hx⟩ := computeSlope_eq { c with history := window c.maxHistory qs }
    have hslope := computeSlope_slope { c with history := window c.maxHistory qs } hlen
    rw [if_pos hfull]
    rw [hx] at hslope ⊢
    exact ⟨rfl, rfl, fun hlt => by omega, fun _ => hslope⟩
  · rw [if_neg hfull]
    exact ⟨rfl, rfl, fun _ => h.early (by omega), fun hle => by omega⟩

theorem addToHistory_percentage (c : LibvirtVCPUController) :
    c.addToHistory.getPercentageConsumption = c.getPercentageConsumption := by
  obtain ⟨l, x, hx⟩ := addToHistory_eq c
  rw [hx]
  rfl

/-- A macro tick ends with `addToHistory`, and has not touched the history before. -/
theorem updateBeforeMarket_eq (h : c.updateBeforeMarket = some c') :
    ∃ d : LibvirtVCPUController, d.maxHistory = c.maxHistory ∧ d.history = c.history ∧ d.slope = c.slope ∧
      c' = d.addToHistory := by
  unfold updateBeforeMarket at h
  split_ifs at h with hzero
  obtain rfl := Option.some.inj h
  refine ⟨_, ?_, ?_, ?_, rfl⟩
  all_goals rfl

/-- A call records one percentage in a macro tick, and nothing otherwise. -/
theorem Window.call (hmax : 2 ≤ maxHistory) (h : Window maxHistory ps c) {k : Call}
    (hc : c.call k = some c') :
    Window maxHistory (ps ++ if k.isTick then [c'.getPercentageConsumption] else []) c' := by
  cases k with
  | update freq r =>
    obtain rfl := Option.some.inj hc
    show Window maxHistory (ps ++ []) _
    rw [List.append_nil]
    exact h.congr rfl rfl rfl
  | updateBeforeMarket =>
    obtain ⟨d, hmaxHistory, hhistory, hslope, rfl⟩ := updateBeforeMarket_eq hc
    have hd := (h.congr hmaxHistory hhistory hslope).addToHistory hmax
    rwa [Call.isTick, if_pos rfl, addToHistory_percentage]
  | market allocated buying =>
    obtain rfl := Option.some.inj hc
    show Window maxHistory (ps ++ []) _
    rw [List.append_nil]
    exact h.congr rfl rfl rfl
  | setQuota nbMicros period =>
    obtain rfl := Option.some.inj hc
    show Window maxHistory (ps ++ []) _
    rw [List.append_nil]
    exact h.congr rfl rfl rfl

theorem recorded_cons {k : Call} (hc : c.call k = some c') (ks : List Call) :
    recorded c (k :: ks) =
      (if k.isTick then [c'.getPercentageConsumption] else []) ++ recorded c' ks := by
  rw [recorded, hc]
  dsimp only
  split_ifs <;> rfl

theorem Window.run (hmax : 2 ≤ maxHistory) (h : Window maxHistory ps c) {calls : List Call}
    (hrun : Transition.run LibvirtVCPUController.call c calls = some c') :
    Window maxHistory (ps ++ recorded c calls) c' := by
  induction calls generalizing c ps with
  | nil =>
    obtain rfl := Option.some.inj hrun
    rwa [recorded, List.append_nil]
  | cons k ks ih =>
    obtain ⟨d, hd, hrest⟩ := Transition.run_cons_some hrun
    rw [recorded_cons hd, ← List.append_assoc]
    exact ih (h.call hmax hd) hrest

theorem length_recorded {calls : List Call}
    (hrun : Transition.run LibvirtVCPUController.call c calls = some c') :
    (recorded c calls).length = ticks calls := by
  induction calls generalizing c with
  | nil => rfl
  | cons k ks ih =>
    obtain ⟨d, hd, hrest⟩ := Transition.run_cons_some hrun
    rw [recorded_cons hd, List.length_append, ih hrest, ticks, ticks, List.countP_cons, Nat.add_comm]
    split_ifs <;> rfl

end

theorem window_new {maxHistory : ℕ} (hmax : 2 ≤ maxHistory) (id nominalFreq : ℕ) (cgroup : Cgroup) :
    Window maxHistory [] (new id nominalFreq maxHistory cgroup) where
  maxHistory_eq := rfl
  history_eq := rfl
  early := fun _ => rfl
  late := fun hle => absurd (hmax.trans hle) (by decide)

/-- After any run the history is a window on the last percentages recorded. The slope is `0` until the
window is full, and from then on it is the trend of the history. -/
theorem history_trend {id nominalFreq maxHistory : ℕ} {cgroup : Cgroup} (hmax : 2 ≤ maxHistory)
    {calls : List Call} {c : LibvirtVCPUController}
    (hrun : Transition.run call (new id nominalFreq maxHistory cgroup) calls = some c) :
    (recorded (new id nominalFreq maxHistory cgroup) calls).length = ticks calls ∧
      c.history = (recorded (new id nominalFreq maxHistory cgroup) calls).rtake
        (min (ticks calls) maxHistory) ∧
      (ticks calls < maxHistory → c.slope = .num 0) ∧
      (maxHistory ≤ ticks calls → ∃ m, Trend c m) := by
  have hlen := length_recorded hrun
  have hwindow := (window_new hmax id nominalFreq cgroup).run hmax hrun
  rw [List.nil_append] at hwindow
  rw [← hlen]
  refine ⟨rfl, hwindow.history_eq, hwindow.early, fun hle => ?_⟩
  have hfull : c.history.length = maxHistory := by
    rw [hwindow.history_eq, length_window, min_eq_right hle]
  exact ⟨_, trend_sampleSlope (hmax.trans hfull.ge) (hwindow.late hle)⟩

/-- Two macro ticks fill a window of two. -/
theorem history_trend_two :
    ∃ c, Transition.run call (new 0 2000 2 ⟨[], true, none⟩)
        [.update [2000] ⟨0, 0, 1⟩, .updateBeforeMarket, .update [2000] ⟨0, 500000, 1⟩,
          .updateBeforeMarket] = some c ∧
      (∃ p q, c.history = [p, q]) ∧ ∃ m, Trend c m := by
  obtain ⟨c, hc⟩ := Option.isSome_iff_exists.mp (show (Transition.run call
    (new 0 2000 2 ⟨[], true, none⟩) [.update [2000] ⟨0, 0, 1⟩, .updateBeforeMarket,
      .update [2000] ⟨0, 500000, 1⟩, .updateBeforeMarket]).isSome by decide)
  obtain ⟨hlen, hhistory, -, htrend⟩ := history_trend (by decide) hc
  refine ⟨c, hc, List.length_eq_two.mp ?_, htrend (by decide)⟩
  rw [hhistory, ← hlen]
  exact (length_window _).trans (by rw [hlen]; rfl)

end LibvirtVCPUController
