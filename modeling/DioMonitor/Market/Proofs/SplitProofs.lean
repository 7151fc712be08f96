import DioMonitor.Market.Proofs.BuyCyclesProofs
import DioMonitor.Lib.Share

/-!
# Proofs: the proportional split and the even split

The proportional split moves cycles from the market to the failed buyers, one for one and never more
than there are; the even split never hands out more than is left.
-/

namespace VCPUMarket

/-! ## Shares -/

theorem share_le (rnd : ℚ → ℚ) (b n r : ℕ) : shareBy rnd b n r ≤ b := by
  unfold shareBy
  exact Nat.min_le_left _ _

/-- The share of a failed buyer is the integer part of its proportional part. -/
theorem share_eq {b n r : ℕ} (hn : 0 < n) (hr : r ≤ n) : shareBy id b n r = b * r / n := by
  have hq : (n : ℚ) ≠ 0 := by exact_mod_cast hn.ne'
  have hfloor : ((FloatVal.num (b : ℚ)).div (.num (n : ℚ))).mul (.num (r : ℚ)) =
      .num (((b * r : ℕ) : ℚ) / (n : ℚ)) := by
    rw [FloatVal.div_num hq, FloatVal.mul_num]
    push_cast
    ring_nf
  have hle : b * r / n ≤ b := Nat.div_le_of_le_mul (by
    rw [Nat.mul_comm n b]
    exact Nat.mul_le_mul_left b hr)
  unfold shareBy
  simp only [FloatVal.rounded_id]
  rw [hfloor, FloatVal.toULong_num, floor_natCast_div]
  exact Nat.min_eq_right hle

/-- A failed buyer whose need can be met entirely gets all of it. -/
theorem share_self {b n : ℕ} (hn : 0 < n) : shareBy id b n n = b := by
  rw [share_eq hn le_rfl]
  exact Nat.mul_div_cancel b hn

/-! ## The proportional split -/

theorem valid_give {vms : List LibvirtVM} {p q : VCPURef} {n : ℕ} :
    Valid (give vms p n) q ↔ Valid vms q := valid_updateAt

theorem vcpuAt_give_self {vms : List LibvirtVM} {p : VCPURef} {n : ℕ} (h : Valid vms p) :
    vcpuAt (give vms p n) p =
      { vcpuAt vms p with
        allocated := (vcpuAt vms p).allocated + n, buying := usub (vcpuAt vms p).buying n } :=
  vcpuAt_updateAt_self h

theorem vcpuAt_give_ne {vms : List LibvirtVM} {p q : VCPURef} {n : ℕ} (h : Valid vms p) (hq : p ≠ q) :
    vcpuAt (give vms p n) q = vcpuAt vms q :=
  vcpuAt_updateAt_ne hq h.1

theorem vcpuCount_give {vms : List LibvirtVM} {p : VCPURef} {n : ℕ} (h : Valid vms p) :
    vcpuCount (give vms p n) = vcpuCount vms :=
  total_updateAt (n := 0) h rfl

/-- What the split changes: each vCPU of `ps` receives its share, the others stay as they are, and the
shares are taken from the market. -/
theorem splitLoop_spec (rnd : ℚ → ℚ) (need rest : ℕ) :
    ∀ (ps : List VCPURef) (vms : List LibvirtVM) (notSold : ℤ), ps.Nodup → (∀ p ∈ ps, Valid vms p) →
    vcpuCount (splitLoopBy rnd need rest vms notSold ps).1 = vcpuCount vms ∧
    (∀ q, Valid (splitLoopBy rnd need rest vms notSold ps).1 q ↔ Valid vms q) ∧
    (∀ q, q ∉ ps → vcpuAt (splitLoopBy rnd need rest vms notSold ps).1 q = vcpuAt vms q) ∧
    (∀ q ∈ ps, vcpuAt (splitLoopBy rnd need rest vms notSold ps).1 q =
      { vcpuAt vms q with
        allocated := (vcpuAt vms q).allocated + shareBy rnd (vcpuAt vms q).buying need rest
        buying := (vcpuAt vms q).buying - shareBy rnd (vcpuAt vms q).buying need rest }) ∧
    (totalAllocated (splitLoopBy rnd need rest vms notSold ps).1 : ℤ) +
      (splitLoopBy rnd need rest vms notSold ps).2 = totalAllocated vms + notSold ∧
    (splitLoopBy rnd need rest vms notSold ps).2 =
      notSold - ((ps.map fun q => shareBy rnd (vcpuAt vms q).buying need rest).sum : ℕ) := by
  intro ps
  induction ps with
  | nil => intro vms notSold _ _; simp [splitLoopBy]
  | cons p ps ih =>
    intro vms notSold hnd hv
    obtain ⟨hp, hnd'⟩ := List.nodup_cons.mp hnd
    have hvp : Valid vms p := hv p (List.mem_cons_self ..)
    set add := shareBy rnd (vcpuAt vms p).buying need rest with hadd
    have hne : ∀ q, q ≠ p → vcpuAt (give vms p add) q = vcpuAt vms q := fun q hq =>
      vcpuAt_give_ne hvp hq.symm
    obtain ⟨h0, h1, h2, h3, h4, h5⟩ := ih (give vms p add) (notSold - add) hnd'
      fun q hq => valid_give.mpr (hv q (List.mem_cons_of_mem _ hq))
    have hunfold : splitLoopBy rnd need rest vms notSold (p :: ps) =
        splitLoopBy rnd need rest (give vms p add) (notSold - add) ps := rfl
    rw [hunfold]
    refine ⟨by rw [h0, vcpuCount_give hvp], fun q => (h1 q).trans valid_give, fun q hq => ?_,
      fun q hq => ?_, ?_, ?_⟩
    · rw [h2 q fun hin => hq (List.mem_cons_of_mem _ hin)]
      exact hne q fun heq => hq (heq ▸ List.mem_cons_self ..)
    · rcases List.mem_cons.mp hq with rfl | hq
      · rw [h2 q hp, vcpuAt_give_self hvp, usub_of_le (share_le _ _ _ _)]
      · rw [h3 q hq, hne q fun heq => hp (heq ▸ hq)]
    · have htot : totalAllocated (give vms p add) = totalAllocated vms + add := total_updateAt hvp rfl
      rw [h4, htot]
      push_cast
      ring
    · have hsum := ListSum.sum_map_congr ps
        (f := fun q => shareBy rnd (vcpuAt (give vms p add) q).buying need rest)
        (g := fun q => shareBy rnd (vcpuAt vms q).buying need rest)
        fun q hq => by rw [hne q fun heq => hp (heq ▸ hq)]
      rw [h5, hsum, List.map_cons, List.sum_cons]
      push_cast
      ring

/-! ## The even split -/

theorem totalAllocated_raise_le (n : ℕ) (vms : List LibvirtVM) :
    totalAllocated (raise n vms) ≤ totalAllocated vms + n * vcpuCount vms := by
  unfold totalAllocated raise
  rw [total_map (f := fun c => { c with allocated := min maxCycles (c.allocated + n) }) fun _ => rfl,
    ← total_const, ← total_add]
  exact total_mono (fun c => min_le_right _ _) vms

theorem valid_raise {n : ℕ} {vms : List LibvirtVM} {p : VCPURef} :
    Valid (raise n vms) p ↔ Valid vms p :=
  valid_map (f := fun c => { c with allocated := min maxCycles (c.allocated + n) }) fun _ => rfl

theorem vcpuAt_raise {n : ℕ} {vms : List LibvirtVM} {p : VCPURef} (h : Valid vms p) :
    vcpuAt (raise n vms) p =
      { vcpuAt vms p with allocated := min maxCycles ((vcpuAt vms p).allocated + n) } :=
  vcpuAt_map (f := fun c => { c with allocated := min maxCycles (c.allocated + n) }) (fun _ => rfl) h

/-- With nothing to hand out, allocations up to a full core stay as they are. -/
theorem totalAllocated_raise_zero {vms : List LibvirtVM}
    (h : ∀ p, Valid vms p → (vcpuAt vms p).allocated ≤ maxCycles) :
    totalAllocated (raise 0 vms) = totalAllocated vms := by
  have hc : ∀ vm ∈ vms, ∀ c ∈ vm.vcpuControllers, c.allocated ≤ maxCycles := forall_vcpuAt.mp h
  unfold totalAllocated total raise
  rw [List.map_map]
  refine congrArg List.sum (List.map_congr_left fun vm hvm => ?_)
  simp only [Function.comp, vmSum, List.map_map]
  refine congrArg List.sum (List.map_congr_left fun c hmem => ?_)
  exact Nat.min_eq_right (hc vm hvm c hmem)

/-- The even split hands out at most what is left. -/
theorem redistribute_spec {n : ℕ} {vms vms' : List LibvirtVM} {market : ℤ}
    (h : redistribute n vms market = some vms') :
    (vms' = vms ∧ market ≤ 0) ∨ (0 < market ∧ 0 < n ∧ vms' = raise (market.toNat / n) vms) := by
  unfold redistribute at h
  by_cases hm : market > 0
  · rw [if_pos hm] at h
    by_cases hn : n = 0
    · rw [if_pos hn] at h
      cases h
    · rw [if_neg hn, Option.some.injEq] at h
      exact Or.inr ⟨hm, Nat.pos_of_ne_zero hn, h.symm⟩
  · rw [if_neg hm, Option.some.injEq] at h
    exact Or.inl ⟨h.symm, by omega⟩

end VCPUMarket
