import DioMonitor.Market.Proofs.SplitProofs

/-!
# Proofs: one tick of the market

The phases of `run` chained: the capacity of the host is never oversold (`run_capacity`), every vCPU
keeps its nominal share as far as it needs it (`run_nominal`), and nothing but the rounding stays
unsold while a buyer still needs cycles (`run_unsold`).
-/

namespace VCPUMarket

/-- The state of the market after the base sale of `run`. -/
def baseSale (cfg : VCPUMarketConfig) (nprocs : ℕ) (vms : List LibvirtVM) : Base :=
  sellBaseCycles cfg vms (nprocs * maxCycles : ℕ)

/-- The state of the market after the auction of `run`. -/
def auction (cfg : VCPUMarketConfig) (nprocs : ℕ) (vms : List LibvirtVM) : Auction :=
  buyCycles cfg (baseSale cfg nprocs vms).vms (baseSale cfg nprocs vms).buyers
    (baseSale cfg nprocs vms).market 0

variable {cfg : VCPUMarketConfig} {nprocs : ℕ} {vms vms' : List LibvirtVM}

/-- One tick, phase by phase. -/
theorem runBy_eq (rnd : ℚ → ℚ) (cfg : VCPUMarketConfig) (nprocs : ℕ) (vms : List LibvirtVM) :
    runBy rnd cfg nprocs vms =
      if vms.length = 0 then .noVM
      else if (baseSale cfg nprocs vms).market < 0 then .overAllocated (baseSale cfg nprocs vms).vms
      else
        match redistribute (vcpuCount vms) (splitRestBy rnd (auction cfg nprocs vms)).1
            (splitRestBy rnd (auction cfg nprocs vms)).2 with
        | none => .divByZero
        | some vms => .applied (vms.map (·.applyMarketAllocation marketPeriod)) := by
  have hnb : (baseSale cfg nprocs vms).nbVcpus = vcpuCount vms := (sellBaseCycles_spec cfg vms _).2.2.1
  rw [← hnb]
  rfl

/-- One tick with exact shares. -/
theorem run_eq (cfg : VCPUMarketConfig) (nprocs : ℕ) (vms : List LibvirtVM) :
    run cfg nprocs vms =
      if vms.length = 0 then .noVM
      else if (baseSale cfg nprocs vms).market < 0 then .overAllocated (baseSale cfg nprocs vms).vms
      else
        match redistribute (vcpuCount vms) (splitRest (auction cfg nprocs vms)).1
            (splitRest (auction cfg nprocs vms)).2 with
        | none => .divByZero
        | some vms => .applied (vms.map (·.applyMarketAllocation marketPeriod)) :=
  runBy_eq id cfg nprocs vms

/-- A tick that applies quotas did not oversell the host in its base sale. -/
theorem run_applied (h : run cfg nprocs vms = .applied vms') :
    0 ≤ (baseSale cfg nprocs vms).market ∧
    ∃ ws, redistribute (vcpuCount vms) (splitRest (auction cfg nprocs vms)).1
        (splitRest (auction cfg nprocs vms)).2 = some ws ∧
      vms' = ws.map (·.applyMarketAllocation marketPeriod) := by
  rw [run_eq] at h
  by_cases hvms : vms.length = 0
  · rw [if_pos hvms] at h
    cases h
  · rw [if_neg hvms] at h
    by_cases hneg : (baseSale cfg nprocs vms).market < 0
    · rw [if_pos hneg] at h
      cases h
    · rw [if_neg hneg] at h
      refine ⟨not_lt.mp hneg, ?_⟩
      cases hr : redistribute (vcpuCount vms) (splitRest (auction cfg nprocs vms)).1
          (splitRest (auction cfg nprocs vms)).2 with
      | none => rw [hr] at h; cases h
      | some ws =>
        rw [hr] at h
        exact ⟨ws, rfl, (Outcome.applied.inj h).symm⟩

/-- A tick that oversells the host stops after its base sale. -/
theorem run_overAllocated (h : run cfg nprocs vms = .overAllocated vms') :
    (baseSale cfg nprocs vms).market < 0 ∧ vms' = (baseSale cfg nprocs vms).vms := by
  rw [run_eq] at h
  by_cases hvms : vms.length = 0
  · rw [if_pos hvms] at h
    cases h
  · rw [if_neg hvms] at h
    by_cases hneg : (baseSale cfg nprocs vms).market < 0
    · rw [if_pos hneg] at h
      exact ⟨hneg, (Outcome.overAllocated.inj h).symm⟩
    · rw [if_neg hneg] at h
      split at h <;> cases h

/-- A tick with a vCPU that does not oversell the host applies quotas. -/
theorem exists_runBy_applied (rnd : ℚ → ℚ) (hn : 0 < vcpuCount vms)
    (hm : 0 ≤ (baseSale cfg nprocs vms).market) : ∃ vms', runBy rnd cfg nprocs vms = .applied vms' := by
  have hvms : vms.length ≠ 0 := by
    intro h0
    rw [List.length_eq_zero_iff.mp h0] at hn
    exact absurd hn (by decide)
  rw [runBy_eq, if_neg hvms, if_neg (not_lt.mpr hm)]
  cases hr : redistribute (vcpuCount vms) (splitRestBy rnd (auction cfg nprocs vms)).1
      (splitRestBy rnd (auction cfg nprocs vms)).2 with
  | none =>
    unfold redistribute at hr
    split at hr
    · rw [if_neg hn.ne'] at hr
      cases hr
    · cases hr
  | some ws => exact ⟨_, rfl⟩

theorem exists_run_applied (hn : 0 < vcpuCount vms) (hm : 0 ≤ (baseSale cfg nprocs vms).market) :
    ∃ vms', run cfg nprocs vms = .applied vms' :=
  exists_runBy_applied id hn hm

/-! ## The phases -/

theorem baseSale_vms : (baseSale cfg nprocs vms).vms = vms.map (soldVM cfg) :=
  (sellBaseCycles_spec cfg vms _).1

theorem baseSale_market :
    (baseSale cfg nprocs vms).market =
      (nprocs * maxCycles : ℕ) - totalAllocated (baseSale cfg nprocs vms).vms := by
  obtain ⟨h1, h2, -⟩ := sellBaseCycles_spec cfg vms (nprocs * maxCycles : ℕ)
  unfold baseSale
  rw [h2, h1, totalAllocated_map_soldVM]

theorem baseSale_buyers {p : VCPURef} :
    p ∈ (baseSale cfg nprocs vms).buyers ↔ Valid vms p ∧ isBuyer cfg (vcpuAt vms p) = true :=
  (sellBaseCycles_spec cfg vms _).2.2.2.1 p

theorem valid_soldVM {p : VCPURef} : Valid (vms.map (soldVM cfg)) p ↔ Valid vms p :=
  valid_map (f := sold cfg) fun _ => rfl

theorem vcpuAt_soldVM {p : VCPURef} (h : Valid vms p) :
    vcpuAt (vms.map (soldVM cfg)) p = sold cfg (vcpuAt vms p) :=
  vcpuAt_map (fun _ => rfl) h

/-- The invariant of the auction, for the auction of `run`. -/
theorem auction_inv (cfg : VCPUMarketConfig) (nprocs : ℕ) (vms : List LibvirtVM) :
    ∃ active, BidInv cfg.windowSize (baseSale cfg nprocs vms).buyers
        { vms := (baseSale cfg nprocs vms).vms, market := (baseSale cfg nprocs vms).market,
          allNeeded := 0, fails := [] } (auction cfg nprocs vms) active ∧
      ((auction cfg nprocs vms).market ≤ 0 ∨ active = []) := by
  refine buyCycles_inv cfg _ _ _ 0 (sellBaseCycles_spec cfg vms _).2.2.2.2.1 ?_
  intro p hp
  rw [baseSale_vms]
  exact valid_soldVM.mpr (baseSale_buyers.mp hp).1

/-- What the proportional split keeps: no cycle is made or lost, and a vCPU only gains. -/
structure Split (a : Auction) (vms : List LibvirtVM) (market : ℤ) : Prop where
  valid : ∀ p, Valid vms p ↔ Valid a.vms p
  count : vcpuCount vms = vcpuCount a.vms
  total : (totalAllocated vms : ℤ) + market = totalAllocated a.vms + a.market
  market : 0 ≤ a.market → 0 ≤ market
  sum : ∀ p, Valid a.vms p → (vcpuAt vms p).allocated + (vcpuAt vms p).buying =
    (vcpuAt a.vms p).allocated + (vcpuAt a.vms p).buying
  mono : ∀ p, Valid a.vms p → (vcpuAt a.vms p).allocated ≤ (vcpuAt vms p).allocated
  frame : ∀ p, Valid a.vms p → unpriced (vcpuAt vms p) = unpriced (vcpuAt a.vms p)
  others : ∀ p, p ∉ a.fails → vcpuAt vms p = vcpuAt a.vms p

/-- The shares of the failed buyers, as parts of what they need together. -/
theorem shares_eq {a : Auction} (hneed : a.allNeeded = (a.fails.map fun p => (vcpuAt a.vms p).buying).sum)
    (hpos : 0 < a.allNeeded) {rest : ℕ} (hrest : rest ≤ a.allNeeded) :
    (a.fails.map fun p => shareBy id (vcpuAt a.vms p).buying a.allNeeded rest).sum =
      ((a.fails.map fun p => (vcpuAt a.vms p).buying).map fun b =>
        b * rest / (a.fails.map fun p => (vcpuAt a.vms p).buying).sum).sum := by
  rw [List.map_map, ← hneed]
  exact ListSum.sum_map_congr _ fun p _ => share_eq hpos hrest

theorem splitRest_split {a : Auction} (hnd : a.fails.Nodup) (hv : ∀ p ∈ a.fails, Valid a.vms p)
    (hneed : a.allNeeded = (a.fails.map fun p => (vcpuAt a.vms p).buying).sum) :
    Split a (splitRest a).1 (splitRest a).2 := by
  unfold splitRest splitRestBy
  by_cases hm : a.market > 0
  · rw [if_pos hm]
    obtain ⟨h0, h1, h2, h3, h4, h5⟩ :=
      splitLoop_spec id a.allNeeded (min a.allNeeded a.market.toNat) a.fails a.vms a.market hnd hv
    refine ⟨h1, h0, h4, fun _ => ?_, fun p hp => ?_, fun p hp => ?_, fun p hp => ?_, h2⟩
    · rw [h5]
      rcases Nat.eq_zero_or_pos a.allNeeded with hz | hpos
      · -- nobody needs anything: all shares are zero
        have hzero : ∀ p ∈ a.fails, shareBy id (vcpuAt a.vms p).buying a.allNeeded
            (min a.allNeeded a.market.toNat) = 0 := by
          intro p hp
          have hb : (vcpuAt a.vms p).buying ≤ 0 := by
            rw [← hz, hneed]
            exact List.single_le_sum (fun _ _ => Nat.zero_le _) _ (List.mem_map_of_mem hp)
          have := share_le id (vcpuAt a.vms p).buying a.allNeeded (min a.allNeeded a.market.toNat)
          omega
        rw [ListSum.sum_map_congr a.fails hzero]
        simp
        omega
      · rw [shares_eq hneed hpos (Nat.min_le_left _ _)]
        have := Share.sum_div_le (a.fails.map fun p => (vcpuAt a.vms p).buying)
          (min a.allNeeded a.market.toNat)
        omega
    · by_cases hin : p ∈ a.fails
      · rw [h3 p hin]
        have := share_le id (vcpuAt a.vms p).buying a.allNeeded (min a.allNeeded a.market.toNat)
        simp only
        omega
      · rw [h2 p hin]
    · by_cases hin : p ∈ a.fails
      · rw [h3 p hin]
        simp only
        omega
      · rw [h2 p hin]
    · by_cases hin : p ∈ a.fails
      · rw [h3 p hin]
        rfl
      · rw [h2 p hin]
  · rw [if_neg hm]
    exact ⟨fun _ => Iff.rfl, rfl, rfl, id, fun _ _ => rfl, fun _ _ => le_rfl, fun _ _ => rfl,
      fun _ _ => rfl⟩

/-- A failed buyer that still needs cycles after the split leaves less than one cycle for each failed
buyer in the market. -/
theorem splitRest_rest {a : Auction} (hnd : a.fails.Nodup) (hv : ∀ p ∈ a.fails, Valid a.vms p)
    (hneed : a.allNeeded = (a.fails.map fun p => (vcpuAt a.vms p).buying).sum)
    (hm : 0 < a.market) {p : VCPURef} (hp : p ∈ a.fails)
    (hb : 0 < (vcpuAt (splitRest a).1 p).buying) : (splitRest a).2 < a.fails.length := by
  unfold splitRest splitRestBy at hb ⊢
  rw [if_pos hm] at hb ⊢
  obtain ⟨-, -, -, h3, -, h5⟩ :=
    splitLoop_spec id a.allNeeded (min a.allNeeded a.market.toNat) a.fails a.vms a.market hnd hv
  rw [h3 p hp] at hb
  simp only at hb
  have hle : (vcpuAt a.vms p).buying ≤ a.allNeeded := by
    rw [hneed]
    exact List.single_le_sum (fun _ _ => Nat.zero_le _) _ (List.mem_map_of_mem hp)
  have hpos : 0 < a.allNeeded := by omega
  by_cases hall : a.allNeeded ≤ a.market.toNat
  · rw [Nat.min_eq_left hall, share_self hpos] at hb
    omega
  · have hrest : min a.allNeeded a.market.toNat = a.market.toNat := by omega
    rw [hrest] at h5 ⊢
    rw [h5, shares_eq hneed hpos (by omega)]
    have hlt := Share.lt_sum_div (a.fails.map fun p => (vcpuAt a.vms p).buying) a.market.toNat
      (by rw [← hneed]; exact hpos)
    rw [List.length_map] at hlt
    omega

/-- The failed buyers of the auction of `run`. -/
theorem auction_fails (cfg : VCPUMarketConfig) (nprocs : ℕ) (vms : List LibvirtVM) :
    (auction cfg nprocs vms).fails.Nodup ∧
    (∀ p ∈ (auction cfg nprocs vms).fails,
      p ∈ (baseSale cfg nprocs vms).buyers ∧ Valid (auction cfg nprocs vms).vms p) ∧
    (auction cfg nprocs vms).allNeeded =
      ((auction cfg nprocs vms).fails.map fun p => (vcpuAt (auction cfg nprocs vms).vms p).buying).sum := by
  obtain ⟨active, hinv, -⟩ := auction_inv cfg nprocs vms
  refine ⟨(List.nodup_append.mp hinv.nodup).2.1, fun p hp => ?_, by simpa using hinv.needed⟩
  have hb := hinv.sub p (List.mem_append_right _ hp)
  refine ⟨hb, (hinv.traded.valid p).mpr ?_⟩
  simp only [baseSale_vms]
  exact valid_soldVM.mpr (baseSale_buyers.mp hb).1

/-- The proportional split of `run`. -/
theorem run_split (cfg : VCPUMarketConfig) (nprocs : ℕ) (vms : List LibvirtVM) :
    Split (auction cfg nprocs vms) (splitRest (auction cfg nprocs vms)).1
      (splitRest (auction cfg nprocs vms)).2 := by
  obtain ⟨hnd, hv, hneed⟩ := auction_fails cfg nprocs vms
  exact splitRest_split hnd (fun p hp => (hv p hp).2) hneed

theorem valid_auction {p : VCPURef} : Valid (auction cfg nprocs vms).vms p ↔ Valid vms p := by
  obtain ⟨_, hinv, -⟩ := auction_inv cfg nprocs vms
  have h := hinv.traded.valid p
  simp only [baseSale_vms] at h
  exact h.trans valid_soldVM

theorem valid_splitRest {p : VCPURef} :
    Valid (splitRest (auction cfg nprocs vms)).1 p ↔ Valid vms p :=
  ((run_split cfg nprocs vms).valid p).trans valid_auction

theorem vcpuCount_auction : vcpuCount (auction cfg nprocs vms).vms = vcpuCount vms := by
  obtain ⟨_, hinv, -⟩ := auction_inv cfg nprocs vms
  have hcount : vcpuCount (vms.map (soldVM cfg)) = vcpuCount vms :=
    total_map (f := sold cfg) (fun _ => rfl) _
  rw [hinv.traded.count]
  simp only [baseSale_vms, hcount]

theorem vcpuCount_splitRest : vcpuCount (splitRest (auction cfg nprocs vms)).1 = vcpuCount vms := by
  rw [(run_split cfg nprocs vms).count, vcpuCount_auction]

/-! ## Capacity -/

theorem totalAllocated_applied (ws : List LibvirtVM) :
    totalAllocated (ws.map (·.applyMarketAllocation marketPeriod)) = totalAllocated ws :=
  total_map (f := fun c => c.setQuota c.allocated marketPeriod) (fun _ => rfl) _

/-- Once the base sale did not oversell the host, the auction and the split do not either. -/
theorem phases_market (hm : 0 ≤ (baseSale cfg nprocs vms).market) :
    (auction cfg nprocs vms).market =
      (nprocs * maxCycles : ℕ) - totalAllocated (auction cfg nprocs vms).vms ∧
    0 ≤ (auction cfg nprocs vms).market ∧
    (splitRest (auction cfg nprocs vms)).2 =
      (nprocs * maxCycles : ℕ) - totalAllocated (splitRest (auction cfg nprocs vms)).1 ∧
    0 ≤ (splitRest (auction cfg nprocs vms)).2 := by
  obtain ⟨_, hinv, -⟩ := auction_inv cfg nprocs vms
  have htraded := hinv.traded.total
  have hbase : (baseSale cfg nprocs vms).market =
      (nprocs * maxCycles : ℕ) - totalAllocated (baseSale cfg nprocs vms).vms := baseSale_market
  have hsplit := run_split cfg nprocs vms
  have hs := hsplit.total
  have ha : 0 ≤ (auction cfg nprocs vms).market := hinv.traded.market hm
  simp only at htraded
  exact ⟨by omega, ha, by omega, hsplit.market ha⟩

/-- Through all the phases the market is what the allocations leave of the host, and it is never
negative once the base sale did not oversell the host; the quotas applied never exceed the host. -/
theorem run_capacity (cfg : VCPUMarketConfig) (nprocs : ℕ) (vms : List LibvirtVM) :
    (baseSale cfg nprocs vms).market =
      (nprocs * maxCycles : ℕ) - totalAllocated (baseSale cfg nprocs vms).vms ∧
    (0 ≤ (baseSale cfg nprocs vms).market →
      (auction cfg nprocs vms).market =
        (nprocs * maxCycles : ℕ) - totalAllocated (auction cfg nprocs vms).vms ∧
      0 ≤ (auction cfg nprocs vms).market ∧
      (splitRest (auction cfg nprocs vms)).2 =
        (nprocs * maxCycles : ℕ) - totalAllocated (splitRest (auction cfg nprocs vms)).1 ∧
      0 ≤ (splitRest (auction cfg nprocs vms)).2) ∧
    ∀ vms', run cfg nprocs vms = .applied vms' → totalAllocated vms' ≤ nprocs * maxCycles := by
  have hbase : (baseSale cfg nprocs vms).market =
      (nprocs * maxCycles : ℕ) - totalAllocated (baseSale cfg nprocs vms).vms := baseSale_market
  refine ⟨hbase, phases_market, ?_⟩
  intro vms' happ
  obtain ⟨hm, ws, hr, rfl⟩ := run_applied happ
  obtain ⟨-, -, hsplit, hs⟩ := phases_market hm
  rw [totalAllocated_applied]
  rcases redistribute_spec hr with ⟨rfl, -⟩ | ⟨hpos, hn, rfl⟩
  · omega
  · have hle := totalAllocated_raise_le
      ((splitRest (auction cfg nprocs vms)).2.toNat / vcpuCount vms) (splitRest (auction cfg nprocs vms)).1
    have hdiv := Nat.div_mul_le_self (splitRest (auction cfg nprocs vms)).2.toNat (vcpuCount vms)
    rw [vcpuCount_splitRest] at hle
    omega

/-- Two VMs with a nominal share of 300000 cycles that use all of their quota of 800000. -/
def busyVMs : List LibvirtVM :=
  let busy : LibvirtVCPUController :=
    { id := 0, nominalFreq := 600, cgroup := ⟨"a".toList, true, none⟩, period := 100000, quota := 80000
      slope := .num 1, delta := 1, consumption := 799999 }
  [{ (default : LibvirtVM) with id := "a".toList, vcpuControllers := [busy] },
    { (default : LibvirtVM) with id := "b".toList, vcpuControllers := [busy] }]

def busyConfig : VCPUMarketConfig :=
  { cpuFreq := 2000, triggerIncrement := 95 / 100, triggerDecrement := 1 / 2
    increasingSpeed := 5 / 100, decreasingSpeed := 9 / 10, windowSize := 10000 }

theorem run_capacity_busy :
    ∃ vms', run busyConfig 1 busyVMs = .applied vms' ∧ totalAllocated vms' ≤ 1 * maxCycles := by
  obtain ⟨vms', h⟩ : ∃ vms', run busyConfig 1 busyVMs = .applied vms' :=
    exists_run_applied (by decide +kernel) (by decide +kernel)
  exact ⟨vms', h, (run_capacity busyConfig 1 busyVMs).2.2 vms' h⟩

/-! ## The nominal share -/

/-- What the vCPU `p` is allocated grows from phase to phase, and nothing else of it changes. -/
theorem phases_vcpu (cfg : VCPUMarketConfig) (nprocs : ℕ) {p : VCPURef} (hp : Valid vms p) :
    current cfg (vcpuAt vms p) ≤ (vcpuAt (splitRest (auction cfg nprocs vms)).1 p).allocated ∧
    unpriced (vcpuAt (splitRest (auction cfg nprocs vms)).1 p) = unpriced (vcpuAt vms p) := by
  obtain ⟨_, hinv, -⟩ := auction_inv cfg nprocs vms
  have hsplit := run_split cfg nprocs vms
  have hbase : vcpuAt (baseSale cfg nprocs vms).vms p = sold cfg (vcpuAt vms p) := by
    rw [baseSale_vms, vcpuAt_soldVM hp]
  have hmono := hinv.traded.mono p
  have hframe := hinv.traded.frame p
  simp only [hbase] at hmono hframe
  have hv : Valid (auction cfg nprocs vms).vms p := valid_auction.mpr hp
  exact ⟨hmono.trans (hsplit.mono p hv), (hsplit.frame p hv).trans hframe⟩

/-- A tick that applies quotas gives every vCPU, as quota, at least what the base sale allocated to it
(the even split cuts at a full core), and leaves the rest of the vCPU as it was. -/
theorem applied_vcpu (happ : run cfg nprocs vms = .applied vms') (p : VCPURef) :
    (Valid vms' p ↔ Valid vms p) ∧
    (Valid vms p → ∃ c, unpriced c = unpriced (vcpuAt vms p) ∧
      vcpuAt vms' p = c.setQuota c.allocated marketPeriod ∧
      min maxCycles (current cfg (vcpuAt vms p)) ≤ c.allocated) := by
  obtain ⟨-, ws, hr, rfl⟩ := run_applied happ
  have hquota : ∀ {ws : List LibvirtVM},
      Valid (ws.map (·.applyMarketAllocation marketPeriod)) p ↔ Valid ws p :=
    valid_map (f := fun c => c.setQuota c.allocated marketPeriod) fun _ => rfl
  have hset : ∀ {ws : List LibvirtVM}, Valid ws p →
      vcpuAt (ws.map (·.applyMarketAllocation marketPeriod)) p =
        (vcpuAt ws p).setQuota (vcpuAt ws p).allocated marketPeriod := fun hw =>
    vcpuAt_map (f := fun c => c.setQuota c.allocated marketPeriod) (fun _ => rfl) hw
  rcases redistribute_spec hr with ⟨rfl, -⟩ | ⟨-, -, rfl⟩
  · refine ⟨hquota.trans valid_splitRest, ?_⟩
    intro hp
    obtain ⟨hcur, hframe⟩ := phases_vcpu cfg nprocs hp
    exact ⟨_, hframe, hset (valid_splitRest.mpr hp), (min_le_right _ _).trans hcur⟩
  · refine ⟨hquota.trans (valid_raise.trans valid_splitRest), ?_⟩
    intro hp
    obtain ⟨hcur, hframe⟩ := phases_vcpu cfg nprocs hp
    have hv : Valid (splitRest (auction cfg nprocs vms)).1 p := valid_splitRest.mpr hp
    refine ⟨_, ?_, hset (valid_raise.mpr hv), ?_⟩
    · rw [vcpuAt_raise hv, ← hframe]
      rfl
    · rw [vcpuAt_raise hv]
      exact min_le_min_left _ (hcur.trans (Nat.le_add_right _ _))

/-- A host that can give every vCPU its nominal share does so, as far as the vCPU needs it, whatever
the other VMs do. -/
theorem run_nominal (cfg : VCPUMarketConfig) (nprocs : ℕ) (vms : List LibvirtVM)
    (h : total (fun c => max minCycles (nominal cfg c)) vms ≤ nprocs * maxCycles) :
    (∀ vms', run cfg nprocs vms ≠ .overAllocated vms') ∧
    ∀ p, Valid vms p → ∃ vms' c, run cfg nprocs vms = .applied vms' ∧ Valid vms' p ∧
      unpriced c = unpriced (vcpuAt vms p) ∧ vcpuAt vms' p = c.setQuota c.allocated marketPeriod ∧
      (nominal cfg (vcpuAt vms p) ≤ maxCycles →
        min (nominal cfg (vcpuAt vms p)) (demand cfg (vcpuAt vms p)) ≤ (vcpuAt vms' p).allocated) := by
  have hmarket : 0 ≤ (baseSale cfg nprocs vms).market := by
    have hle : total (current cfg) vms ≤ total (fun c => max minCycles (nominal cfg c)) vms :=
      total_mono (current_le cfg) vms
    rw [baseSale_market, baseSale_vms, totalAllocated_map_soldVM]
    omega
  refine ⟨fun vms' hover => absurd (run_overAllocated hover).1 (not_lt.mpr hmarket), ?_⟩
  intro p hp
  obtain ⟨vms', happ⟩ : ∃ vms', run cfg nprocs vms = .applied vms' :=
    exists_run_applied (vcpuCount_pos hp) hmarket
  obtain ⟨hvalid, hvcpu⟩ := applied_vcpu happ p
  obtain ⟨c, hframe, heq, hcur⟩ := hvcpu hp
  refine ⟨vms', c, happ, hvalid.mpr hp, hframe, heq, ?_⟩
  intro hnom
  rw [heq]
  have hmin := min_le_current cfg (vcpuAt vms p)
  -- the cap of the even split is not below the nominal share
  exact (le_min ((min_le_left _ _).trans hnom) hmin).trans hcur

theorem run_nominal_busy :
    ∃ vms' c, run busyConfig 1 busyVMs = .applied vms' ∧ Valid vms' ⟨0, 0⟩ ∧
      unpriced c = unpriced (vcpuAt busyVMs ⟨0, 0⟩) ∧
      vcpuAt vms' ⟨0, 0⟩ = c.setQuota c.allocated marketPeriod ∧
      (nominal busyConfig (vcpuAt busyVMs ⟨0, 0⟩) ≤ maxCycles →
        min (nominal busyConfig (vcpuAt busyVMs ⟨0, 0⟩)) (demand busyConfig (vcpuAt busyVMs ⟨0, 0⟩)) ≤
          (vcpuAt vms' ⟨0, 0⟩).allocated) :=
  (run_nominal busyConfig 1 busyVMs (by decide +kernel)).2 ⟨0, 0⟩ (by decide +kernel)

/-! ## Unsold cycles -/

/-- A buyer that still needs cycles after the split leaves less than one cycle for each vCPU. -/
theorem splitRest_lt {p : VCPURef} (hp : p ∈ (baseSale cfg nprocs vms).buyers)
    (hpos : 0 < (splitRest (auction cfg nprocs vms)).2)
    (hb : 0 < (vcpuAt (splitRest (auction cfg nprocs vms)).1 p).buying) :
    (splitRest (auction cfg nprocs vms)).2 < vcpuCount vms := by
  obtain ⟨active, hinv, hend⟩ := auction_inv cfg nprocs vms
  obtain ⟨hnd, hv, hneed⟩ := auction_fails cfg nprocs vms
  have hm : 0 < (auction cfg nprocs vms).market := by
    by_contra hle
    unfold splitRest splitRestBy at hpos
    rw [if_neg hle] at hpos
    exact hle hpos
  -- the auction ended because no buyer was active any more
  have hactive : active = [] := hend.resolve_left (not_le.mpr hm)
  have hfails : p ∈ (auction cfg nprocs vms).fails := by
    by_contra hf
    rw [(run_split cfg nprocs vms).others p hf] at hb
    rcases hinv.cover p hp with ha | hf' | hz
    · rw [hactive] at ha
      cases ha
    · exact hf hf'
    · omega
  have hlt := splitRest_rest hnd (fun q hq => (hv q hq).2) hneed hm hfails hb
  have hlen : (auction cfg nprocs vms).fails.length ≤ (baseSale cfg nprocs vms).buyers.length :=
    (List.subperm_of_subset hnd fun q hq => (hv q hq).1).length_le
  have hbuyers : (baseSale cfg nprocs vms).buyers.length ≤ vcpuCount vms :=
    (sellBaseCycles_spec cfg vms _).2.2.2.2.2
  omega

/-- A vCPU whose nominal share is at most a full core has at most a full core before the even split. -/
theorem phases_le {p : VCPURef} (hp : Valid vms p) (hmin : minCycles ≤ nominal cfg (vcpuAt vms p))
    (hmax : nominal cfg (vcpuAt vms p) ≤ maxCycles) :
    (vcpuAt (splitRest (auction cfg nprocs vms)).1 p).allocated ≤ maxCycles := by
  obtain ⟨_, hinv, -⟩ := auction_inv cfg nprocs vms
  have hsplit := run_split cfg nprocs vms
  have hbase : vcpuAt (baseSale cfg nprocs vms).vms p = sold cfg (vcpuAt vms p) := by
    rw [baseSale_vms, vcpuAt_soldVM hp]
  have hcur := current_le cfg (vcpuAt vms p)
  by_cases hb : p ∈ (baseSale cfg nprocs vms).buyers
  · have hauction := hinv.traded.sum p
    have hs := hsplit.sum p (valid_auction.mpr hp)
    have hbuyer := (baseSale_buyers.mp hb).2
    have husub : usub maxCycles (nominal cfg (vcpuAt vms p)) = maxCycles - nominal cfg (vcpuAt vms p) :=
      usub_of_le hmax
    simp only [hbase, sold, hbuyer, if_true, husub] at hauction
    omega
  · have hfails : p ∉ (auction cfg nprocs vms).fails := fun hf =>
      hb ((auction_fails cfg nprocs vms).2.1 p hf).1
    rw [hsplit.others p hfails, hinv.others p hb]
    simp only [hbase, sold]
    omega

/-- While a buyer of the auction still needs cycles, less than one cycle for each vCPU is unsold. -/
theorem run_unsold (cfg : VCPUMarketConfig) (nprocs : ℕ) (vms vms' : List LibvirtVM)
    (hnom : ∀ p, Valid vms p →
      minCycles ≤ nominal cfg (vcpuAt vms p) ∧ nominal cfg (vcpuAt vms p) ≤ maxCycles)
    (happ : run cfg nprocs vms = .applied vms') (p : VCPURef)
    (hp : p ∈ (baseSale cfg nprocs vms).buyers) (hb : 0 < (vcpuAt vms' p).buying) :
    ((nprocs * maxCycles : ℕ) : ℤ) - totalAllocated vms' < vcpuCount vms := by
  obtain ⟨hvp, -⟩ := baseSale_buyers.mp hp
  obtain ⟨hm, ws, hr, rfl⟩ := run_applied happ
  obtain ⟨-, -, hsplit, -⟩ := phases_market hm
  have hcount := vcpuCount_pos hvp
  have hv : Valid (splitRest (auction cfg nprocs vms)).1 p := valid_splitRest.mpr hvp
  rw [totalAllocated_applied]
  rcases redistribute_spec hr with ⟨rfl, hz⟩ | ⟨hpos, hn, rfl⟩
  · omega
  · have hb' : 0 < (vcpuAt (splitRest (auction cfg nprocs vms)).1 p).buying := by
      rw [vcpuAt_map (f := fun c => c.setQuota c.allocated marketPeriod) (fun _ => rfl)
        (valid_raise.mpr hv), vcpuAt_raise hv] at hb
      exact hb
    have hlt := splitRest_lt hp hpos hb'
    have hzero : (splitRest (auction cfg nprocs vms)).2.toNat / vcpuCount vms = 0 :=
      Nat.div_eq_of_lt (by omega)
    rw [hzero, totalAllocated_raise_zero fun q hq => by
      have hq' := valid_splitRest.mp hq
      exact phases_le hq' (hnom q hq').1 (hnom q hq').2]
    omega

theorem run_unsold_busy :
    ∃ vms', run busyConfig 1 busyVMs = .applied vms' ∧
      ((1 * maxCycles : ℕ) : ℤ) - totalAllocated vms' < vcpuCount busyVMs := by
  obtain ⟨vms', h⟩ : ∃ vms', run busyConfig 1 busyVMs = .applied vms' :=
    exists_run_applied (by decide +kernel) (by decide +kernel)
  have hnom : ∀ vm ∈ busyVMs, ∀ c ∈ vm.vcpuControllers,
      minCycles ≤ nominal busyConfig c ∧ nominal busyConfig c ≤ maxCycles := by decide +kernel
  have hb : (match run busyConfig 1 busyVMs with
      | .applied vms' => decide (0 < (vcpuAt vms' ⟨0, 0⟩).buying)
      | _ => false) = true := by decide +kernel
  rw [h] at hb
  exact ⟨vms', h, run_unsold busyConfig 1 busyVMs vms' (forall_vcpuAt.mpr hnom) h ⟨0, 0⟩
    (by decide +kernel) (of_decide_eq_true hb)⟩

/-! ## The number of VMs -/

theorem length_bidRound (w : ℕ) (a : Auction) (ps : List VCPURef) :
    (bidRound w a ps).1.vms.length = a.vms.length := by
  induction ps generalizing a with
  | nil => rfl
  | cons p ps ih =>
    refine (ih (bidStep w a p).1).trans ?_
    unfold bidStep
    split
    · dsimp only
      split
      · exact updateAt_length ..
      · rfl
    · rfl

theorem length_buyLoop (w : ℕ) (a : Auction) (ps : List VCPURef) :
    (buyLoop w a ps).vms.length = a.vms.length := by
  induction a, ps using buyLoop.induct w with
  | case1 a ps hcond ih =>
    rw [buyLoop, if_pos hcond, ih]
    exact length_bidRound w a ps
  | case2 a ps hcond => rw [buyLoop, if_neg hcond]

theorem length_splitLoop (rnd : ℚ → ℚ) (need rest : ℕ) (ps : List VCPURef) :
    ∀ (vms : List LibvirtVM) (notSold : ℤ),
      (splitLoopBy rnd need rest vms notSold ps).1.length = vms.length := by
  induction ps with
  | nil => exact fun _ _ => rfl
  | cons p ps ih => exact fun vms notSold => (ih _ _).trans (updateAt_length ..)

theorem length_splitRest (rnd : ℚ → ℚ) (a : Auction) :
    (splitRestBy rnd a).1.length = a.vms.length := by
  unfold splitRestBy
  split
  · exact length_splitLoop ..
  · rfl

/-- A tick that applies quotas applies them to the VMs it was given. -/
theorem length_applied (happ : run cfg nprocs vms = .applied vms') : vms'.length = vms.length := by
  obtain ⟨-, ws, hws, rfl⟩ := run_applied happ
  have hsplit : (splitRest (auction cfg nprocs vms)).1.length = vms.length := by
    rw [splitRest, length_splitRest]
    exact (length_buyLoop ..).trans (by rw [baseSale_vms, List.length_map])
  have hraised : ws.length = (splitRest (auction cfg nprocs vms)).1.length := by
    rcases redistribute_spec hws with ⟨rfl, -⟩ | ⟨-, -, rfl⟩
    · rfl
    · exact List.length_map ..
  rw [List.length_map, hraised, hsplit]

end VCPUMarket
