import DioMonitor.Lib.RoundRobinStock
import DioMonitor.Market.Proofs.AuctionProofs

/-!
# Proofs: what the capacity of the host changes

The auction sells the whole market or everything that the VMs can pay for and need (`buyCycles_sold`).
A host with more processors never gives a vCPU less: the two auctions run in step until the smaller
market is exhausted, and the two splits of the rest are then ordered as well (`run_mono`).
-/

namespace VCPUMarket

variable {cfg : VCPUMarketConfig} {n m : ℕ} {vms vms' : List LibvirtVM} {buyers : List VCPURef}

/-! ## The cycles sold by an auction -/

/-- The account of the VM at position `i`. -/
def accountOf (vms : List LibvirtVM) (i : ℕ) : ℕ := (vms.getD i default).money

/-- What the buyers of the VM at position `i` need together. -/
def demandOf (vms : List LibvirtVM) (buyers : List VCPURef) (i : ℕ) : ℕ :=
  ((buyers.filter fun p => p.vm = i).map fun p => (vcpuAt vms p).buying).sum

theorem owed_ledger (a : Auction) (hnd : buyers.Nodup) (i : ℕ) :
    RoundRobin.owed VCPURef.vm buyers.toFinset (ledger a) i = demandOf a.vms buyers i := by
  have hfilter : buyers.toFinset.filter (VCPURef.vm · = i) =
      (buyers.filter fun p => p.vm = i).toFinset := by
    ext p
    simp
  unfold RoundRobin.owed demandOf
  rw [hfilter, List.sum_toFinset _ (hnd.filter _)]
  rfl

/-- VMs without a buyer and positions without a VM buy nothing. -/
theorem sum_owners (vms : List LibvirtVM) (buyers : List VCPURef) :
    ∑ i ∈ buyers.toFinset.image VCPURef.vm, min (accountOf vms i) (demandOf vms buyers i) =
      ∑ i ∈ Finset.range vms.length, min (accountOf vms i) (demandOf vms buyers i) := by
  refine Finset.sum_congr_of_eq_on_inter ?_ ?_ fun _ _ _ => rfl
  · intro i _ hi
    have hdefault : vms.getD i default = default :=
      List.getD_eq_default _ _ (not_lt.mp fun h => hi (Finset.mem_range.mpr h))
    unfold accountOf
    rw [hdefault]
    exact Nat.zero_min _
  · intro i _ hi
    have hnil : buyers.filter (fun p => p.vm = i) = [] := by
      rw [List.filter_eq_nil_iff]
      intro p hp heq
      apply hi
      rw [Finset.mem_image]
      exact ⟨p, List.mem_toFinset.mpr hp, of_decide_eq_true heq⟩
    unfold demandOf
    rw [hnil]
    exact Nat.min_zero _

theorem bidRound_market_nonneg (w : ℕ) (a : Auction) (ps : List VCPURef) (h : 0 ≤ a.market) :
    0 ≤ (bidRound w a ps).1.market := by
  induction ps generalizing a with
  | nil => exact h
  | cons p ps ih =>
    have hbid := bid_le_market w a p
    refine ih (bidStep w a p).1 ?_
    by_cases hneed : (vcpuAt a.vms p).buying = 0
    · rwa [bidStep_none hneed]
    · by_cases hzero : bid w a p = 0
      · rwa [bidStep_fail hneed hzero]
      · rw [bidStep_buy hneed hzero]
        show 0 ≤ a.market - bid w a p
        omega

/-- The loop sells no more than the market holds, and nothing of a market that is not positive. -/
theorem buyLoop_market (w : ℕ) (a : Auction) (ps : List VCPURef) :
    (0 ≤ a.market → 0 ≤ (buyLoop w a ps).market) ∧
      (a.market ≤ 0 → (buyLoop w a ps).market = a.market) := by
  induction a, ps using buyLoop.induct w with
  | case1 a ps hcond ih =>
    rw [buyLoop, if_pos hcond]
    exact ⟨fun h => ih.1 (bidRound_market_nonneg w a ps h), fun h => absurd hcond.1 (not_lt.mpr h)⟩
  | case2 a ps hcond =>
    rw [buyLoop, if_neg hcond]
    exact ⟨id, fun _ => rfl⟩

/-- An auction with a window sells the whole market, or for each VM as many cycles as it can pay for
and its buyers need; when it does not sell the whole market, every VM has paid for exactly as many. -/
theorem buyCycles_sold (cfg : VCPUMarketConfig) (vms : List LibvirtVM) (buyers : List VCPURef)
    (market : ℤ) (allNeeded : ℕ) (hnd : buyers.Nodup) (hw : 0 < cfg.windowSize) :
    (buyCycles cfg vms buyers market allNeeded).market +
        (min market.toNat
          (∑ i ∈ Finset.range vms.length, min (accountOf vms i) (demandOf vms buyers i)) : ℕ) =
        market ∧
      (0 < (buyCycles cfg vms buyers market allNeeded).market → ∀ i,
        accountOf (buyCycles cfg vms buyers market allNeeded).vms i +
            min (accountOf vms i) (demandOf vms buyers i) =
          accountOf vms i) := by
  let a₀ : Auction := { vms, market, allNeeded, fails := [] }
  have hsell := ledger_buyLoop cfg.windowSize a₀ buyers
  refine ⟨?_, fun hmarket i => ?_⟩
  · have htotal := RoundRobin.sell_total VCPURef.vm (ledger a₀) buyers hw
    rw [← hsell] at htotal
    simp only [owed_ledger a₀ hnd] at htotal
    rw [← sum_owners]
    obtain ⟨hnonneg, hnone⟩ := buyLoop_market cfg.windowSize a₀ buyers
    have hstock : (buyCycles cfg vms buyers market allNeeded).market.toNat +
        min market.toNat (∑ i ∈ buyers.toFinset.image VCPURef.vm,
          min (accountOf vms i) (demandOf vms buyers i)) = market.toNat := htotal
    rcases le_or_gt market 0 with hle | hpos
    · have hsame : (buyCycles cfg vms buyers market allNeeded).market = market := hnone hle
      omega
    · have hleft : 0 ≤ (buyCycles cfg vms buyers market allNeeded).market := hnonneg hpos.le
      omega
  · have hstock : 0 < (RoundRobin.sell VCPURef.vm cfg.windowSize (ledger a₀) buyers).stock := by
      rw [← hsell]
      show 0 < (buyCycles cfg vms buyers market allNeeded).market.toNat
      omega
    have hpaid := RoundRobin.sell_paid hw hstock i
    rw [← hsell, owed_ledger a₀ hnd] at hpaid
    exact hpaid

theorem buyCycles_sold_two :
    (buyCycles busyConfig twoBuyers [⟨0, 0⟩, ⟨1, 0⟩] 9 0).market +
        (min (9 : ℤ).toNat (∑ i ∈ Finset.range twoBuyers.length,
          min (accountOf twoBuyers i) (demandOf twoBuyers [⟨0, 0⟩, ⟨1, 0⟩] i)) : ℕ) = 9 ∧
      (0 < (buyCycles busyConfig twoBuyers [⟨0, 0⟩, ⟨1, 0⟩] 9 0).market → ∀ i,
        accountOf (buyCycles busyConfig twoBuyers [⟨0, 0⟩, ⟨1, 0⟩] 9 0).vms i +
            min (accountOf twoBuyers i) (demandOf twoBuyers [⟨0, 0⟩, ⟨1, 0⟩] i) =
          accountOf twoBuyers i) :=
  buyCycles_sold busyConfig twoBuyers [⟨0, 0⟩, ⟨1, 0⟩] 9 0 (by decide) (by decide)

/-! ## A larger host -/

/-- Which vCPUs enter the auction does not depend on the market. -/
theorem sellBaseCyclesVM_buyers (cfg : VCPUMarketConfig) (i : ℕ) (cs : List LibvirtVCPUController) :
    ∀ (j money : ℕ) (market market' : ℤ),
      (sellBaseCyclesVM cfg i j cs money market').2.2.2 =
        (sellBaseCyclesVM cfg i j cs money market).2.2.2 := by
  induction cs with
  | nil => exact fun _ _ _ _ => rfl
  | cons c cs ih =>
    intro j money market market'
    simp only [sellBaseCyclesVM, sellBaseCyclesVCPU_eq]
    rw [ih (j + 1) (money + credit cfg c) (market - current cfg c) (market' - current cfg c)]

theorem sellBaseCyclesFrom_buyers (cfg : VCPUMarketConfig) (vms : List LibvirtVM) :
    ∀ (i : ℕ) (market market' : ℤ) (nb : ℕ),
      (sellBaseCyclesFrom cfg i vms market' nb).2.2.2 =
        (sellBaseCyclesFrom cfg i vms market nb).2.2.2 := by
  induction vms with
  | nil => exact fun _ _ _ _ => rfl
  | cons vm vms ih =>
    intro i market market' nb
    simp only [sellBaseCyclesFrom]
    rw [sellBaseCyclesVM_buyers cfg i vm.vcpuControllers 0 vm.money market market',
      ih (i + 1) (sellBaseCyclesVM cfg i 0 vm.vcpuControllers vm.money market).2.2.1
        (sellBaseCyclesVM cfg i 0 vm.vcpuControllers vm.money market').2.2.1]

/-- The base sale on a larger host: only the market differs. -/
theorem baseSale_larger (cfg : VCPUMarketConfig) (hnm : n ≤ m) (vms : List LibvirtVM) :
    (baseSale cfg m vms).vms = (baseSale cfg n vms).vms ∧
    (baseSale cfg m vms).buyers = (baseSale cfg n vms).buyers ∧
    (baseSale cfg m vms).market = (baseSale cfg n vms).market + ((m - n) * maxCycles : ℕ) := by
  refine ⟨by rw [baseSale_vms, baseSale_vms], sellBaseCyclesFrom_buyers cfg vms 0 _ _ 0, ?_⟩
  have hprod : m * maxCycles = n * maxCycles + (m - n) * maxCycles := by
    rw [← Nat.add_mul, Nat.add_sub_cancel' hnm]
  rw [baseSale_market, baseSale_market, baseSale_vms, baseSale_vms, hprod]
  push_cast
  ring

/-- The two auctions differ by the market left over at the end, or the smaller one was exhausted and no
vCPU got less in the larger one. -/
theorem auction_larger (cfg : VCPUMarketConfig) (hnm : n ≤ m)
    (hmarket : 0 ≤ (baseSale cfg n vms).market) :
    ledger (auction cfg m vms) =
        RoundRobin.stocked (ledger (auction cfg n vms)) ((m - n) * maxCycles) ∨
      RoundRobin.Behind (ledger (auction cfg n vms)) (ledger (auction cfg m vms)) := by
  obtain ⟨hvms, hbuyers, hlarger⟩ := baseSale_larger cfg hnm vms
  let start (k : ℕ) : Auction :=
    { vms := (baseSale cfg k vms).vms, market := (baseSale cfg k vms).market, allNeeded := 0
      fails := [] }
  have hstart : ledger (start m) = RoundRobin.stocked (ledger (start n)) ((m - n) * maxCycles) := by
    have htoNat : (baseSale cfg m vms).market.toNat =
        (baseSale cfg n vms).market.toNat + (m - n) * maxCycles := by omega
    simp only [start, ledger, RoundRobin.stocked, hvms, htoNat]
  have hledger : ∀ k, ledger (auction cfg k vms) =
      RoundRobin.sell VCPURef.vm cfg.windowSize (ledger (start k)) (baseSale cfg k vms).buyers :=
    fun k => ledger_buyLoop cfg.windowSize (start k) _
  rw [hledger m, hledger n, hstart, hbuyers]
  exact RoundRobin.sell_stocked _ _ _ _ _

/-- When the auction leaves something in the market, the vCPUs that failed are the buyers that still
need cycles. -/
theorem mem_fails (hmarket : 0 < (auction cfg n vms).market) {p : VCPURef} :
    p ∈ (auction cfg n vms).fails ↔
      p ∈ (baseSale cfg n vms).buyers ∧ (vcpuAt (auction cfg n vms).vms p).buying ≠ 0 := by
  obtain ⟨active, hinv, hend⟩ := auction_inv cfg n vms
  obtain rfl : active = [] := hend.resolve_left (not_le.mpr hmarket)
  constructor
  · intro hp
    exact ⟨hinv.sub p hp, (hinv.failed p hp).1⟩
  · rintro ⟨hp, hneed⟩
    rcases hinv.cover p hp with hactive | hfail | hzero
    · exact absurd hactive List.not_mem_nil
    · exact hfail
    · exact absurd hzero hneed

/-- There are at most as many failed buyers as vCPUs. -/
theorem length_fails_le (cfg : VCPUMarketConfig) (n : ℕ) (vms : List LibvirtVM) :
    (auction cfg n vms).fails.length ≤ vcpuCount vms := by
  obtain ⟨hnd, hv, -⟩ := auction_fails cfg n vms
  have hsub : (auction cfg n vms).fails.length ≤ (baseSale cfg n vms).buyers.length :=
    (List.subperm_of_subset hnd fun q hq => (hv q hq).1).length_le
  exact hsub.trans (sellBaseCycles_spec cfg vms _).2.2.2.2.2

/-! ## The split of the rest -/

/-- What the split gives to the vCPU `p` and what it leaves, when the auction left something. -/
theorem splitRest_eq (hmarket : 0 < (auction cfg n vms).market) (p : VCPURef) :
    (vcpuAt (splitRest (auction cfg n vms)).1 p).allocated =
        (vcpuAt (auction cfg n vms).vms p).allocated +
          (if p ∈ (auction cfg n vms).fails then
            shareBy id (vcpuAt (auction cfg n vms).vms p).buying (auction cfg n vms).allNeeded
              (min (auction cfg n vms).allNeeded (auction cfg n vms).market.toNat)
          else 0) ∧
      (splitRest (auction cfg n vms)).2 = (auction cfg n vms).market -
        (((auction cfg n vms).fails.map fun q =>
          shareBy id (vcpuAt (auction cfg n vms).vms q).buying (auction cfg n vms).allNeeded
            (min (auction cfg n vms).allNeeded (auction cfg n vms).market.toNat)).sum : ℕ) := by
  obtain ⟨hnd, hv, -⟩ := auction_fails cfg n vms
  obtain ⟨-, -, hothers, hfails, -, hleft⟩ :=
    splitLoop_spec id (auction cfg n vms).allNeeded
      (min (auction cfg n vms).allNeeded (auction cfg n vms).market.toNat) (auction cfg n vms).fails
      (auction cfg n vms).vms (auction cfg n vms).market hnd fun q hq => (hv q hq).2
  unfold splitRest splitRestBy
  rw [if_pos hmarket]
  refine ⟨?_, hleft⟩
  by_cases hp : p ∈ (auction cfg n vms).fails
  · rw [if_pos hp, hfails p hp]
  · rw [if_neg hp, hothers p hp, Nat.add_zero]

/-- What the applied tick allocates: the even split adds its part up to a full core. -/
theorem applied_allocated (happ : run cfg n vms = .applied vms') {p : VCPURef} (hp : Valid vms p)
    (hmin : minCycles ≤ nominal cfg (vcpuAt vms p)) (hmax : nominal cfg (vcpuAt vms p) ≤ maxCycles) :
    (vcpuAt vms' p).allocated = min maxCycles
      ((vcpuAt (splitRest (auction cfg n vms)).1 p).allocated +
        (splitRest (auction cfg n vms)).2.toNat / vcpuCount vms) := by
  obtain ⟨-, ws, hr, rfl⟩ := run_applied happ
  have hset : ∀ {ws : List LibvirtVM}, Valid ws p →
      (vcpuAt (ws.map (·.applyMarketAllocation marketPeriod)) p).allocated = (vcpuAt ws p).allocated := by
    intro ws hw
    rw [vcpuAt_map (f := fun c => c.setQuota c.allocated marketPeriod) (fun _ => rfl) hw]
    rfl
  have hv : Valid (splitRest (auction cfg n vms)).1 p := valid_splitRest.mpr hp
  rcases redistribute_spec hr with ⟨rfl, hz⟩ | ⟨-, -, rfl⟩
  · have hzero : (splitRest (auction cfg n vms)).2.toNat = 0 := by omega
    rw [hset hv, hzero, Nat.zero_div, Nat.add_zero, Nat.min_eq_right (phases_le hp hmin hmax)]
  · rw [hset (valid_raise.mpr hv), vcpuAt_raise hv]

/-- The shares of a smaller rest are smaller. -/
theorem share_mono {b needed r r' : ℕ} (hr : r ≤ r') (hr' : r' ≤ needed) :
    shareBy id b needed r ≤ shareBy id b needed r' := by
  rcases Nat.eq_zero_or_pos needed with hz | hpos
  · have hrr : r = r' := by omega
    rw [hrr]
  · rw [share_eq hpos (hr.trans hr'), share_eq hpos hr']
    exact Nat.div_le_div_right (Nat.mul_le_mul_left b hr)

/-- A rest that does not cover all needs leaves less than one cycle for each failed buyer. -/
theorem splitRest_lt_fails (hmarket : 0 < (auction cfg n vms).market)
    (hshort : (auction cfg n vms).market.toNat < (auction cfg n vms).allNeeded) :
    (splitRest (auction cfg n vms)).2.toNat < vcpuCount vms := by
  obtain ⟨-, -, hneed⟩ := auction_fails cfg n vms
  have hpos : 0 < (auction cfg n vms).allNeeded := by omega
  have hleft := (splitRest_eq hmarket ⟨0, 0⟩).2
  rw [Nat.min_eq_right hshort.le, shares_eq hneed hpos hshort.le] at hleft
  have hlt := Share.lt_sum_div
    ((auction cfg n vms).fails.map fun p => (vcpuAt (auction cfg n vms).vms p).buying)
    (auction cfg n vms).market.toNat (by rw [← hneed]; exact hpos)
  rw [List.length_map] at hlt
  have hlen := length_fails_le cfg n vms
  have hsome : 0 < (auction cfg n vms).fails.length := by
    rw [List.length_pos_iff]
    intro hnil
    rw [hneed, hnil] at hpos
    exact absurd hpos (lt_irrefl 0)
  omega

/-- Auctions that only differ by what they left: the same vCPUs failed and need as much. -/
theorem fails_larger {d : ℕ} (hnm : n ≤ m) (hmarket : 0 < (auction cfg n vms).market)
    (heq : ledger (auction cfg m vms) = RoundRobin.stocked (ledger (auction cfg n vms)) d) :
    0 < (auction cfg m vms).market ∧
      (auction cfg m vms).market.toNat = (auction cfg n vms).market.toNat + d ∧
      (∀ p, (vcpuAt (auction cfg m vms).vms p).allocated =
        (vcpuAt (auction cfg n vms).vms p).allocated) ∧
      (∀ p, (vcpuAt (auction cfg m vms).vms p).buying = (vcpuAt (auction cfg n vms).vms p).buying) ∧
      (auction cfg m vms).fails.Perm (auction cfg n vms).fails ∧
      (auction cfg m vms).allNeeded = (auction cfg n vms).allNeeded := by
  have hstock : (auction cfg m vms).market.toNat = (auction cfg n vms).market.toNat + d :=
    congrArg RoundRobin.Sale.stock heq
  have hgot : ∀ p, (vcpuAt (auction cfg m vms).vms p).allocated =
      (vcpuAt (auction cfg n vms).vms p).allocated :=
    congrFun (congrArg RoundRobin.Sale.got heq)
  have hneed : ∀ p, (vcpuAt (auction cfg m vms).vms p).buying =
      (vcpuAt (auction cfg n vms).vms p).buying :=
    congrFun (congrArg RoundRobin.Sale.need heq)
  have hmarket' : 0 < (auction cfg m vms).market := by omega
  have hperm : (auction cfg m vms).fails.Perm (auction cfg n vms).fails := by
    refine (List.perm_ext_iff_of_nodup (auction_fails cfg m vms).1 (auction_fails cfg n vms).1).mpr ?_
    intro p
    rw [mem_fails hmarket', mem_fails hmarket, hneed, (baseSale_larger cfg hnm vms).2.1]
  refine ⟨hmarket', hstock, hgot, hneed, hperm, ?_⟩
  rw [(auction_fails cfg m vms).2.2, (auction_fails cfg n vms).2.2, (hperm.map _).sum_eq]
  exact ListSum.sum_map_congr _ fun p _ => hneed p

/-- Before the cut at a full core, a larger host gives every vCPU at least as much. -/
theorem phases_mono (hnm : n ≤ m) (hmarket : 0 ≤ (baseSale cfg n vms).market) {p : VCPURef}
    (hp : Valid vms p) :
    (vcpuAt (splitRest (auction cfg n vms)).1 p).allocated +
        (splitRest (auction cfg n vms)).2.toNat / vcpuCount vms ≤
      (vcpuAt (splitRest (auction cfg m vms)).1 p).allocated +
        (splitRest (auction cfg m vms)).2.toNat / vcpuCount vms := by
  have hlarger := auction_larger cfg hnm hmarket
  have hgrow : (vcpuAt (auction cfg m vms).vms p).allocated ≤
      (vcpuAt (splitRest (auction cfg m vms)).1 p).allocated :=
    (run_split cfg m vms).mono p (valid_auction.mpr hp)
  by_cases hleft : 0 < (auction cfg n vms).market
  · -- the smaller auction was not exhausted, so both sold the same
    have heq : ledger (auction cfg m vms) =
        RoundRobin.stocked (ledger (auction cfg n vms)) ((m - n) * maxCycles) := by
      refine hlarger.resolve_right fun hbehind => ?_
      have hstock : (auction cfg n vms).market.toNat = 0 := hbehind.exhausted
      omega
    obtain ⟨hleft', hstock, hgot, hneed, hperm, hall⟩ := fails_larger hnm hleft heq
    obtain ⟨halloc, hrest⟩ := splitRest_eq hleft p
    obtain ⟨halloc', hrest'⟩ := splitRest_eq hleft' p
    have hmem : p ∈ (auction cfg m vms).fails ↔ p ∈ (auction cfg n vms).fails := hperm.mem_iff
    rw [halloc, halloc', hgot, hneed, hall]
    simp only [hmem]
    have hmin : min (auction cfg n vms).allNeeded (auction cfg n vms).market.toNat ≤
        min (auction cfg n vms).allNeeded (auction cfg m vms).market.toNat := by omega
    have hshare := share_mono (b := (vcpuAt (auction cfg n vms).vms p).buying) hmin
      (Nat.min_le_left _ _)
    by_cases hcover : (auction cfg n vms).allNeeded ≤ (auction cfg n vms).market.toNat
    · -- both rests cover all needs: the larger one leaves more
      have hsame : min (auction cfg n vms).allNeeded (auction cfg m vms).market.toNat =
          min (auction cfg n vms).allNeeded (auction cfg n vms).market.toNat := by omega
      have hsums : ((auction cfg m vms).fails.map fun q =>
            shareBy id (vcpuAt (auction cfg m vms).vms q).buying (auction cfg m vms).allNeeded
              (min (auction cfg m vms).allNeeded (auction cfg m vms).market.toNat)).sum =
          ((auction cfg n vms).fails.map fun q =>
            shareBy id (vcpuAt (auction cfg n vms).vms q).buying (auction cfg n vms).allNeeded
              (min (auction cfg n vms).allNeeded (auction cfg n vms).market.toNat)).sum := by
        rw [(hperm.map _).sum_eq]
        exact ListSum.sum_map_congr _ fun q _ => by rw [hneed, hall, hsame]
      have hmore : (splitRest (auction cfg n vms)).2.toNat ≤
          (splitRest (auction cfg m vms)).2.toNat := by
        rw [hrest, hrest', hsums]
        omega
      rw [hsame]
      exact Nat.add_le_add_left (Nat.div_le_div_right hmore) _
    · -- the smaller rest leaves nothing for the even split
      rw [Nat.div_eq_of_lt (splitRest_lt_fails hleft (not_le.mp hcover)), Nat.add_zero]
      refine Nat.le_add_right_of_le (Nat.add_le_add_left ?_ _)
      split
      · exact hshare
      · exact Nat.le_refl _
  · -- the smaller auction sold everything, so its splits have nothing to give
    have hsplit : splitRest (auction cfg n vms) =
        ((auction cfg n vms).vms, (auction cfg n vms).market) := by
      unfold splitRest splitRestBy
      rw [if_neg hleft]
    have hzero : (auction cfg n vms).market.toNat = 0 := by omega
    have hgot : (vcpuAt (auction cfg n vms).vms p).allocated ≤
        (vcpuAt (auction cfg m vms).vms p).allocated := by
      rcases hlarger with heq | hbehind
      · exact (congrFun (congrArg RoundRobin.Sale.got heq) p).ge
      · exact hbehind.got p
    rw [hsplit, hzero, Nat.zero_div, Nat.add_zero]
    exact (hgot.trans hgrow).trans (Nat.le_add_right _ _)

/-- A tick that applies quotas on a host with processors has a vCPU to apply them to. -/
theorem vcpuCount_pos_of_applied (hn : 0 < n) (happ : run cfg n vms = .applied vms') :
    0 < vcpuCount vms := by
  obtain ⟨hmarket, ws, hr, -⟩ := run_applied happ
  by_contra hnone
  have hcount : vcpuCount (splitRest (auction cfg n vms)).1 = 0 := by
    rw [vcpuCount_splitRest]
    exact Nat.eq_zero_of_not_pos hnone
  have hleft := (phases_market hmarket).2.2.1
  have hall : totalAllocated (splitRest (auction cfg n vms)).1 = 0 := total_eq_zero hcount _
  have hhost : 0 < n * maxCycles := Nat.mul_pos hn (by decide)
  rcases redistribute_spec hr with ⟨-, hz⟩ | ⟨-, hpos, -⟩
  · omega
  · exact hnone hpos

/-- When the host with fewer processors applies quotas, so does the one with more, and no vCPU is
allocated less there. -/
theorem run_mono (cfg : VCPUMarketConfig) (n m : ℕ) (vms vms' : List LibvirtVM) (hn : 0 < n)
    (hnm : n ≤ m)
    (hnom : ∀ p, Valid vms p →
      minCycles ≤ nominal cfg (vcpuAt vms p) ∧ nominal cfg (vcpuAt vms p) ≤ maxCycles)
    (happ : run cfg n vms = .applied vms') :
    ∃ ws, run cfg m vms = .applied ws ∧
      ∀ p, Valid vms p → (vcpuAt vms' p).allocated ≤ (vcpuAt ws p).allocated := by
  have hvcpus := vcpuCount_pos_of_applied hn happ
  obtain ⟨hmarket, -⟩ := run_applied happ
  have hmarket' : 0 ≤ (baseSale cfg m vms).market := by
    have hlarger := (baseSale_larger cfg hnm vms).2.2
    omega
  obtain ⟨ws, happ'⟩ := exists_run_applied hvcpus hmarket'
  refine ⟨ws, happ', fun p hp => ?_⟩
  obtain ⟨hmin, hmax⟩ := hnom p hp
  rw [applied_allocated happ hp hmin hmax, applied_allocated happ' hp hmin hmax]
  exact min_le_min_left _ (phases_mono hnm hmarket hp)

/-- Two VMs that could use more than one processor: with a second one both get more. -/
theorem run_mono_busy :
    ∃ vms' ws, run busyConfig 1 busyVMs = .applied vms' ∧ run busyConfig 2 busyVMs = .applied ws ∧
      ∀ p, Valid busyVMs p → (vcpuAt vms' p).allocated ≤ (vcpuAt ws p).allocated := by
  obtain ⟨vms', happ⟩ : ∃ vms', run busyConfig 1 busyVMs = .applied vms' :=
    exists_run_applied (by decide +kernel) (by decide +kernel)
  have hnom : ∀ vm ∈ busyVMs, ∀ c ∈ vm.vcpuControllers,
      minCycles ≤ nominal busyConfig c ∧ nominal busyConfig c ≤ maxCycles := by decide +kernel
  obtain ⟨ws, happ', hmono⟩ := run_mono busyConfig 1 2 busyVMs vms' (by decide) (by decide)
    (forall_vcpuAt.mpr hnom) happ
  exact ⟨vms', ws, happ, happ', hmono⟩

end VCPUMarket
