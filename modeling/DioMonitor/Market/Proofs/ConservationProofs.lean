import DioMonitor.Market.Proofs.RunProofs

/-!
# Proofs: money and cycles are conserved

The base sale applies the one percent floor to the allocation of a vCPU but not to the amount its VM
is credited. Where the capping of the vCPU is above that floor the two agree, and for every VM the
cycles it is allocated and the money it owns add up to its nominal share and its previous account.
-/

namespace VCPUMarket

variable {cfg : VCPUMarketConfig} {nprocs : ℕ} {vms : List LibvirtVM}

/-- What conservation asks of a vCPU: a nominal share between the floor and a full core, and a capping
that is not below the floor. -/
structure Sound (cfg : VCPUMarketConfig) (c : LibvirtVCPUController) : Prop where
  min_le : minCycles ≤ nominal cfg c
  le_max : nominal cfg c ≤ maxCycles
  capping : minCycles ≤ c.getAbsoluteCapping

/-- What the base sale followed by the auction conserves. -/
structure Conserved (cfg : VCPUMarketConfig) (nprocs : ℕ) (vms : List LibvirtVM) : Prop where
  /-- Cycles and money of each VM add up to its nominal share and its previous account. -/
  worth : ∀ i, i < vms.length →
    vmSum (·.allocated) ((auction cfg nprocs vms).vms.getD i default) +
        ((auction cfg nprocs vms).vms.getD i default).money =
      (vms.getD i default).money + vmSum (nominal cfg) (vms.getD i default)
  /-- The base sale credits a seller with the part of its nominal share it does not allocate, and the
  auction leaves the seller alone. -/
  seller : ∀ p, Valid vms p → p ∉ (baseSale cfg nprocs vms).buyers → ∀ money market,
    (sellBaseCyclesVCPU cfg (vcpuAt vms p) money market).money =
      money + (nominal cfg (vcpuAt vms p) - (vcpuAt (auction cfg nprocs vms).vms p).allocated) ∧
    (vcpuAt (auction cfg nprocs vms).vms p).allocated ≤ nominal cfg (vcpuAt vms p)
  /-- The base sale allocates its nominal share to a buyer, for free; the auction adds to it. -/
  buyer : ∀ p ∈ (baseSale cfg nprocs vms).buyers, ∀ money market,
    (sellBaseCyclesVCPU cfg (vcpuAt vms p) money market).money = money ∧
    (vcpuAt (baseSale cfg nprocs vms).vms p).allocated = nominal cfg (vcpuAt vms p) ∧
    nominal cfg (vcpuAt vms p) ≤ (vcpuAt (auction cfg nprocs vms).vms p).allocated
  /-- Every purchase is covered by the account it is paid from. -/
  payment : ∀ (a : Auction) (p : VCPURef), bid cfg.windowSize a p ≤ moneyAt a.vms p
  /-- The account of a VM receives what its sellers do not use and pays what its buyers receive above
  their nominal share. -/
  account : ∀ i, i < vms.length →
    ((auction cfg nprocs vms).vms.getD i default).money +
        vmSum (fun c => if isBuyer cfg c then c.allocated - nominal cfg c else 0)
          ((auction cfg nprocs vms).vms.getD i default) =
      (vms.getD i default).money +
        vmSum (fun c => if isBuyer cfg c then 0 else nominal cfg c - c.allocated)
          ((auction cfg nprocs vms).vms.getD i default)

/-! ## The base sale -/

/-- With a capping above the floor, no demand is below it. -/
theorem min_le_demand {c : LibvirtVCPUController} (hspeed : 0 ≤ cfg.increasingSpeed)
    (hcap : minCycles ≤ c.getAbsoluteCapping) : minCycles ≤ demand cfg c := by
  unfold demand
  cases branch cfg c with
  | stable =>
    have hsum : (c.getConsumption : ℚ) + (maxCycles : ℕ) * (1 / 100) =
        ((c.getConsumption + minCycles : ℕ) : ℚ) := by
      have : ((maxCycles : ℕ) : ℚ) * (1 / 100) = ((minCycles : ℕ) : ℚ) := by
        norm_num [minCycles, maxCycles]
      push_cast
      linarith
    simp only [hsum, toULong_natCast]
    exact le_min (by decide) (Nat.le_add_left _ _)
  | decrement => exact Nat.le_max_left _ _
  | increment =>
    have hle : (c.getAbsoluteCapping : ℚ) ≤ c.getAbsoluteCapping * (1 + cfg.increasingSpeed) := by
      have hnn : (0 : ℚ) ≤ c.getAbsoluteCapping := Nat.cast_nonneg _
      nlinarith
    exact hcap.trans (Nat.le_floor hle)
  | between => exact hcap

/-- The base sale credits exactly what it does not allocate. -/
theorem current_add_credit {c : LibvirtVCPUController} (hspeed : 0 ≤ cfg.increasingSpeed)
    (h : Sound cfg c) : current cfg c + credit cfg c = nominal cfg c := by
  have hmin := h.min_le
  have hdemand : minCycles ≤ demand cfg c := min_le_demand hspeed h.capping
  unfold credit isBuyer current
  cases branch cfg c <;> simp only [decide_eq_true_eq] <;> split <;> omega

/-- A buyer is allocated its nominal share. -/
theorem current_buyer {c : LibvirtVCPUController} (h : minCycles ≤ nominal cfg c)
    (hb : isBuyer cfg c = true) : current cfg c = nominal cfg c := by
  have hlt : nominal cfg c < demand cfg c := by simpa [isBuyer] using hb
  unfold current
  cases branch cfg c <;> simp only <;> omega

theorem worth_soldVM {vm : LibvirtVM} (hspeed : 0 ≤ cfg.increasingSpeed)
    (h : ∀ c ∈ vm.vcpuControllers, Sound cfg c) :
    worth (soldVM cfg vm) = vm.money + vmSum (nominal cfg) vm := by
  have hsum : vmSum (nominal cfg) vm = vmSum (current cfg) vm + vmSum (credit cfg) vm := by
    unfold vmSum
    rw [← List.sum_map_add]
    exact ListSum.sum_map_congr _ fun c hc => (current_add_credit hspeed (h c hc)).symm
  have hcurrent : vmSum (·.allocated) (soldVM cfg vm) = vmSum (current cfg) vm := by
    simp [vmSum, soldVM, sold, Function.comp_def]
  unfold worth
  rw [hcurrent, hsum]
  simp only [soldVM]
  omega

/-! ## The auction -/

/-- The base sale and the auction leave the demand of a vCPU as it was. -/
theorem isBuyer_auction (nprocs : ℕ) {p : VCPURef} (hp : Valid vms p) :
    isBuyer cfg (vcpuAt (auction cfg nprocs vms).vms p) = isBuyer cfg (vcpuAt vms p) ∧
    nominal cfg (vcpuAt (auction cfg nprocs vms).vms p) = nominal cfg (vcpuAt vms p) := by
  obtain ⟨_, hinv, -⟩ := auction_inv cfg nprocs vms
  have hframe := hinv.traded.frame p
  simp only [baseSale_vms, vcpuAt_soldVM hp] at hframe
  have hunpriced : unpriced (vcpuAt (auction cfg nprocs vms).vms p) = unpriced (vcpuAt vms p) := hframe
  -- neither reads what the market writes
  have hb : ∀ c, isBuyer cfg (unpriced c) = isBuyer cfg c := fun _ => rfl
  have hn : ∀ c, nominal cfg (unpriced c) = nominal cfg c := fun _ => rfl
  rw [← hb, ← hn, hunpriced, hb, hn]
  exact ⟨rfl, rfl⟩

/-- What the auction leaves of the allocation of a vCPU: at most its nominal share for a seller, at
least for a buyer. -/
theorem auction_allocated (nprocs : ℕ) {p : VCPURef} (hspeed : 0 ≤ cfg.increasingSpeed) (hp : Valid vms p)
    (h : Sound cfg (vcpuAt vms p)) :
    if isBuyer cfg (vcpuAt vms p) then
      nominal cfg (vcpuAt vms p) ≤ (vcpuAt (auction cfg nprocs vms).vms p).allocated
    else (vcpuAt (auction cfg nprocs vms).vms p).allocated + credit cfg (vcpuAt vms p) =
      nominal cfg (vcpuAt vms p) := by
  obtain ⟨_, hinv, -⟩ := auction_inv cfg nprocs vms
  have hbase : vcpuAt (baseSale cfg nprocs vms).vms p = sold cfg (vcpuAt vms p) := by
    rw [baseSale_vms, vcpuAt_soldVM hp]
  by_cases hb : isBuyer cfg (vcpuAt vms p) = true
  · rw [if_pos hb, ← current_buyer h.min_le hb]
    have hmono := hinv.traded.mono p
    simp only [hbase] at hmono
    exact hmono
  · rw [if_neg hb, hinv.others p fun hin => hb (baseSale_buyers.mp hin).2]
    simp only [hbase]
    exact current_add_credit hspeed h

/-- The base sale followed by the auction conserves money and cycles. -/
theorem auction_conserved (hspeed : 0 ≤ cfg.increasingSpeed)
    (h : ∀ p, Valid vms p → Sound cfg (vcpuAt vms p)) : Conserved cfg nprocs vms := by
  obtain ⟨_, hinv, -⟩ := auction_inv cfg nprocs vms
  have hworth : ∀ i, i < vms.length →
      vmSum (·.allocated) ((auction cfg nprocs vms).vms.getD i default) +
          ((auction cfg nprocs vms).vms.getD i default).money =
        (vms.getD i default).money + vmSum (nominal cfg) (vms.getD i default) := by
    intro i hi
    have hget : vms.getD i default ∈ vms := by
      rw [List.getD_eq_getElem _ _ hi]
      exact List.getElem_mem hi
    have hvm := worth_soldVM hspeed (forall_vcpuAt.mp h (vms.getD i default) hget)
    have hsold : (vms.map (soldVM cfg)).getD i default = soldVM cfg (vms.getD i default) := by
      rw [List.getD_eq_getElem _ _ (by rwa [List.length_map]), List.getElem_map,
        List.getD_eq_getElem _ _ hi]
    have htraded := hinv.traded.worth i
    simp only [baseSale_vms, hsold, hvm] at htraded
    exact htraded
  refine
    { worth := hworth
      seller := fun p hp hnb money market => ?_
      buyer := fun p hp money market => ?_
      payment := fun a p => (min_le_left _ _).trans ((min_le_left _ _).trans (min_le_right _ _))
      account := fun i hi => ?_ }
  · have hb : isBuyer cfg (vcpuAt vms p) = false := by
      rw [← Bool.not_eq_true]
      exact fun hb => hnb (baseSale_buyers.mpr ⟨hp, hb⟩)
    have halloc := auction_allocated nprocs hspeed hp (h p hp)
    rw [hb, if_neg (by simp)] at halloc
    rw [sellBaseCyclesVCPU_eq]
    simp only
    omega
  · obtain ⟨hvp, hb⟩ := baseSale_buyers.mp hp
    have halloc := auction_allocated nprocs hspeed hvp (h p hvp)
    rw [hb, if_pos rfl] at halloc
    refine ⟨?_, ?_, halloc⟩
    · rw [sellBaseCyclesVCPU_eq]
      simp [credit, hb]
    · rw [baseSale_vms, vcpuAt_soldVM hvp]
      exact current_buyer (h p hvp).min_le hb
  · have hsum : vmSum (·.allocated) ((auction cfg nprocs vms).vms.getD i default) +
          vmSum (fun c => if isBuyer cfg c then 0 else nominal cfg c - c.allocated)
            ((auction cfg nprocs vms).vms.getD i default) =
        vmSum (nominal cfg) ((auction cfg nprocs vms).vms.getD i default) +
          vmSum (fun c => if isBuyer cfg c then c.allocated - nominal cfg c else 0)
            ((auction cfg nprocs vms).vms.getD i default) := by
      rw [← vmSum_add, ← vmSum_add]
      refine vmSum_congr (fun _ => Iff.rfl) (fun p hp => ?_) i
      have hvp : Valid vms p := valid_auction.mp hp
      obtain ⟨hb, hn⟩ := isBuyer_auction nprocs hvp
      have halloc := auction_allocated nprocs hspeed hvp (h p hvp)
      rw [hb, hn]
      by_cases hbuyer : isBuyer cfg (vcpuAt vms p) = true
      · rw [if_pos hbuyer] at halloc ⊢
        rw [if_pos hbuyer]
        omega
      · rw [if_neg hbuyer] at halloc ⊢
        rw [if_neg hbuyer]
        omega
    have hnominal : vmSum (nominal cfg) ((auction cfg nprocs vms).vms.getD i default) =
        vmSum (nominal cfg) (vms.getD i default) :=
      vmSum_congr (fun p => valid_auction) (fun p hp => (isBuyer_auction nprocs hp).2) i
    have := hworth i hi
    omega

end VCPUMarket
