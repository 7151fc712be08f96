import DioMonitor.Libvirt.Vm
import DioMonitor.Lib.Transition
import DioMonitor.Libvirt.Proofs.VcpuProofs

/-!
# Proofs: the consumption that a controller measures

Between two macro ticks the controller sums the differences of the samples of the kernel counter.
The sum telescopes, also when a difference wraps around zero, because the sum wraps with it: what a
macro tick publishes is the difference of the samples at its two ends. The samples are the counter
cut to 32 bits.
-/

namespace LibvirtVCPUController

open Transition

/-- The usage counter that a call reads. -/
def Call.counter? : Call → Option ℕ
  | .update _ r => some r.counter
  | _ => none

/-- The usage counters read by the calls, in order. -/
def counters (calls : List Call) : List ℕ := calls.filterMap Call.counter?

/-- The counter at the last update, `0` before the first. -/
def lastCounter (calls : List Call) : ℕ := (counters calls).getLastD 0

theorem counters_append (calls calls' : List Call) :
    counters (calls ++ calls') = counters calls ++ counters calls' :=
  List.filterMap_append

theorem lastCounter_update (calls : List Call) (freq : List ℕ) (r : Reading) :
    lastCounter (calls ++ [.update freq r]) = r.counter := by
  simp [lastCounter, counters, Call.counter?]

theorem lastCounter_other (calls : List Call) {k : Call} (hk : k.counter? = none) :
    lastCounter (calls ++ [k]) = lastCounter calls := by
  simp [lastCounter, counters, hk]

/-- What the fields of a controller of cgroup v2 say about the counter: `base` is its value at the
last update of the previous macro tick, `last` at the last update. -/
structure Sampled (base last : ℕ) (c : LibvirtVCPUController) : Prop where
  v2 : c.cgroup.v2 = true
  micro : c.microConsumption = last % 2 ^ 32
  sum : c.sumConsumption = usub (last % 2 ^ 32) (base % 2 ^ 32)

theorem setQuota_v2 (c : LibvirtVCPUController) (n period : ℕ) :
    (c.setQuota n period).cgroup.v2 = c.cgroup.v2 := by
  unfold setQuota
  dsimp only
  split <;> rfl

/-- A new controller has sampled nothing. -/
theorem newController_sampled {host : Host} (hv2 : host.cgroupV2 = true) (id : Str) (freq : ℤ) (i : ℕ) :
    Sampled 0 0 (LibvirtVM.newController host id freq i) where
  v2 := hv2
  micro := rfl
  sum := rfl

theorem Sampled.update {base last : ℕ} {c : LibvirtVCPUController} (h : Sampled base last c)
    (freq : List ℕ) (r : Reading) : Sampled base r.counter (c.update freq r) where
  v2 := h.v2
  micro := by
    show c.cgroup.readUsage r.counter = r.counter % 2 ^ 32
    unfold Cgroup.readUsage
    rw [if_pos h.v2]
  sum := by
    have husage : c.cgroup.readUsage r.counter = r.counter % 2 ^ 32 := if_pos h.v2
    have hsmall : ∀ n : ℕ, n % 2 ^ 32 < 2 ^ 64 := by
      intro n
      omega
    show (c.sumConsumption + usub (c.cgroup.readUsage r.counter) c.microConsumption) % 2 ^ 64 = _
    rw [husage, h.micro, h.sum]
    exact usub_add_usub (hsmall base) (hsmall last) (hsmall r.counter)

theorem Sampled.updateBeforeMarket {base last : ℕ} {c c' : LibvirtVCPUController}
    (h : Sampled base last c) (hc : c.updateBeforeMarket = some c') :
    Sampled last last c' ∧ c'.consumption = usub (last % 2 ^ 32) (base % 2 ^ 32) := by
  obtain ⟨-, -, -, hcgroup, hmicro, hconsumption, hsum⟩ := updateBeforeMarket_spec hc
  refine ⟨⟨?_, ?_, ?_⟩, ?_⟩
  · rw [hcgroup]
    exact h.v2
  · rw [hmicro]
    exact h.micro
  · rw [hsum, usub_self]
  · rw [hconsumption]
    exact h.sum

/-- A call that is no update and no average leaves the samples alone. -/
theorem Sampled.call {base last : ℕ} {c c' : LibvirtVCPUController} {k : Call} {calls : List Call}
    (hlast : lastCounter calls = last) (h : Sampled base last c) (hc : c.call k = some c')
    (hk : k ≠ .updateBeforeMarket) : Sampled base (lastCounter (calls ++ [k])) c' := by
  subst hlast
  cases k with
  | update freq r =>
    cases hc
    rw [lastCounter_update]
    exact h.update freq r
  | updateBeforeMarket => exact absurd rfl hk
  | market allocated buying =>
    cases hc
    rw [lastCounter_other calls rfl]
    exact ⟨h.v2, h.micro, h.sum⟩
  | setQuota n period =>
    cases hc
    rw [lastCounter_other calls rfl]
    exact ⟨by rw [setQuota_v2]; exact h.v2, h.micro, h.sum⟩

section Run

variable {host : Host} (hv2 : host.cgroupV2 = true) {id : Str} {freq : ℤ} {i : ℕ}
include hv2

/-- After any calls the last sample is the last counter, cut to 32 bits. -/
theorem run_sampled {calls : List Call} {c : LibvirtVCPUController}
    (hrun : run call (LibvirtVM.newController host id freq i) calls = some c) :
    ∃ base, Sampled base (lastCounter calls) c := by
  refine run_history (P := fun calls c => ∃ base, Sampled base (lastCounter calls) c)
    ⟨0, newController_sampled hv2 id freq i⟩ ?_ hrun
  rintro calls u k u' - ⟨base, hu⟩ hk
  by_cases hmarket : k = .updateBeforeMarket
  · subst hmarket
    rw [lastCounter_other calls rfl]
    exact ⟨_, (hu.updateBeforeMarket hk).1⟩
  · exact ⟨base, hu.call rfl hk hmarket⟩

/-- Between two macro ticks the samples are relative to the last counter of the previous one. -/
theorem run_tick {past tick : List Call} {c : LibvirtVCPUController}
    (hpast : past = [] ∨ ∃ calls, past = calls ++ [.updateBeforeMarket])
    (htick : Call.updateBeforeMarket ∉ tick)
    (hrun : run call (LibvirtVM.newController host id freq i) (past ++ tick) = some c) :
    Sampled (lastCounter past) (lastCounter (past ++ tick)) c := by
  obtain ⟨u, hu, hc⟩ := run_append_some hrun
  have hstart : Sampled (lastCounter past) (lastCounter past) u := by
    rcases hpast with rfl | ⟨calls, rfl⟩
    · cases hu
      exact newController_sampled hv2 id freq i
    · obtain ⟨w, hw, hwu⟩ := run_append_some hu
      obtain ⟨base, hbase⟩ := run_sampled hv2 hw
      obtain ⟨u', hu', hnil⟩ := run_cons_some hwu
      cases hnil
      rw [lastCounter_other calls rfl]
      exact (hbase.updateBeforeMarket hu').1
  refine run_history (P := fun ls v => .updateBeforeMarket ∉ ls →
    Sampled (lastCounter past) (lastCounter (past ++ ls)) v) ?_ ?_ hc htick
  · intro _
    rw [List.append_nil]
    exact hstart
  · intro ls v k v' _ ih hk hmem
    rw [List.mem_append, not_or, List.mem_singleton] at hmem
    rw [← List.append_assoc]
    exact (ih hmem.1).call rfl hk (Ne.symm hmem.2)

end Run

theorem lastCounter_le {past tick : List Call}
    (hmono : (counters (past ++ tick)).Pairwise (· ≤ ·)) :
    lastCounter past ≤ lastCounter (past ++ tick) := by
  rw [counters_append, List.pairwise_append] at hmono
  obtain ⟨-, -, hcross⟩ := hmono
  unfold lastCounter
  rw [counters_append]
  rcases List.eq_nil_or_concat (counters tick) with hnil | ⟨ns, n, hns⟩
  · rw [hnil, List.append_nil]
  · rcases List.eq_nil_or_concat (counters past) with hnil' | ⟨ms, m, hms⟩
    · simp [hnil']
    · have hle : m ≤ n := hcross m (by simp [hms]) n (by simp [hns])
      simpa [hms, hns, ← List.append_assoc] using hle

theorem lastCounter_lt {calls : List Call} (h : ∀ n ∈ counters calls, n < 2 ^ 64) :
    lastCounter calls < 2 ^ 64 := by
  unfold lastCounter
  rcases List.eq_nil_or_concat (counters calls) with hnil | ⟨ns, n, hns⟩
  · simp [hnil]
  · have hn := h n (by simp [hns])
    simpa [hns] using hn

/-- The consumption that a macro tick publishes is the progress of the counter since the previous
one exactly when both counters are in the same block of `2 ^ 32` microseconds, about 71 minutes. -/
theorem consumption_exact_iff {host : Host} (hv2 : host.cgroupV2 = true) {id : Str} {freq : ℤ} {i : ℕ}
    {past tick : List Call} (hpast : past = [] ∨ ∃ calls, past = calls ++ [.updateBeforeMarket])
    (htick : Call.updateBeforeMarket ∉ tick)
    (hmono : (counters (past ++ tick)).Pairwise (· ≤ ·))
    (hbound : ∀ n ∈ counters (past ++ tick), n < 2 ^ 64) {c : LibvirtVCPUController}
    (hrun : run call (LibvirtVM.newController host id freq i)
      (past ++ tick ++ [.updateBeforeMarket]) = some c) :
    c.getConsumption = lastCounter (past ++ tick) - lastCounter past ↔
      lastCounter past / 2 ^ 32 = lastCounter (past ++ tick) / 2 ^ 32 := by
  obtain ⟨u, hu, hlast⟩ := run_append_some hrun
  obtain ⟨c', hc', hnil⟩ := run_cons_some hlast
  cases hnil
  have hsampled := run_tick hv2 hpast htick hu
  have hpublished : c.getConsumption = _ := (hsampled.updateBeforeMarket hc').2
  rw [hpublished]
  exact usub_mod_eq_iff (lastCounter_le hmono) (lastCounter_lt hbound)

/-- Two macro ticks of one update each, with the counter at `n` and then at `m`. -/
def twoTicks (n m : ℕ) : List Call :=
  [.update [] ⟨0, n, 1⟩, .updateBeforeMarket, .update [] ⟨0, m, 1⟩, .updateBeforeMarket]

/-- A machine with cgroup v2 and room for every buffer. -/
def v2Host : Host := { home := true, cgroupV2 := true, canAlloc := fun _ => true, canGrow := fun _ => true }

theorem consumption_exact_iff_two_ticks :
    ((run call (LibvirtVM.newController v2Host [] 1000 0) (twoTicks 5 12)).getD default).getConsumption =
        12 - 5 ↔ 5 / 2 ^ 32 = 12 / 2 ^ 32 := by
  have hrun : run call (LibvirtVM.newController v2Host [] 1000 0)
      ([.update [] ⟨0, 5, 1⟩, .updateBeforeMarket] ++ [.update [] ⟨0, 12, 1⟩] ++ [.updateBeforeMarket]) =
      some ((run call (LibvirtVM.newController v2Host [] 1000 0) (twoTicks 5 12)).getD default) := by
    decide +kernel
  exact consumption_exact_iff rfl (.inr ⟨[.update [] ⟨0, 5, 1⟩], rfl⟩) (by simp) (by decide)
    (by decide) hrun

/-- The counter passes `2 ^ 32` between two macro ticks: two microseconds of work are published as
almost `2 ^ 64`. -/
theorem consumption_wraps :
    (run call (LibvirtVM.newController v2Host [] 1000 0) (twoTicks (2 ^ 32 - 1) (2 ^ 32 + 1))).map
        getConsumption = some (2 ^ 64 - 2 ^ 32 + 2) ∧
      lastCounter (twoTicks (2 ^ 32 - 1) (2 ^ 32 + 1)) -
        lastCounter ((twoTicks (2 ^ 32 - 1) (2 ^ 32 + 1)).take 2) = 2 := by
  decide +kernel

end LibvirtVCPUController
