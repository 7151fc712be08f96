import DioMonitor.Lib.Single
import DioMonitor.Market.Proofs.RunProofs

/-!
# Proofs: the integer arithmetic of one tick

`subtractions` lists the unsigned subtractions that a tick of the market computes, with the operands
they have when they are reached, the shares of the proportional split being computed in single precision.
None of them goes below zero and no integer is divided by zero exactly when there is a vCPU, no vCPU with
a nominal share above a full core asks for more than that share, and the rounded shares of the split do
not exceed what the auction left (`run_safe_iff`). On a host of at most four processors they never do
(`not_oversplit`).

The market itself is signed: `market < 0` after the base sale is how `run` sees that the host is
oversold. From the auction on it only decreases by what is left in it, which is listed as well.
-/

namespace VCPUMarket

/-- The operands of an unsigned subtraction. -/
structure Subtraction where
  minuend : ℕ
  subtrahend : ℕ
  deriving DecidableEq, Repr

/-- The subtraction does not wrap around. -/
def Subtraction.Safe (s : Subtraction) : Prop := s.subtrahend ≤ s.minuend

instance (s : Subtraction) : Decidable s.Safe := inferInstanceAs (Decidable (_ ≤ _))

/-! ## The subtractions, phase by phase -/

/-- The subtractions of `settle`. -/
def settleSubtractions (cfg : VCPUMarketConfig) (v : LibvirtVCPUController) (demand : ℕ) :
    List Subtraction :=
  if demand > nominal cfg v then [⟨maxCycles, nominal cfg v⟩, ⟨demand, nominal cfg v⟩]
  else [⟨nominal cfg v, demand⟩]

/-- The subtractions of `sellBaseCycles`. -/
def sellBaseSubtractions (cfg : VCPUMarketConfig) (vms : List LibvirtVM) : List Subtraction :=
  vms.flatMap fun vm => vm.vcpuControllers.flatMap fun c => settleSubtractions cfg c (demand cfg c)

/-- The subtractions of `bidStep`. -/
def bidStepSubtractions (windowSize : ℕ) (a : Auction) (p : VCPURef) : List Subtraction :=
  if (vcpuAt a.vms p).buying ≠ 0 ∧ bid windowSize a p ≠ 0 then
    [⟨moneyAt a.vms p, bid windowSize a p⟩, ⟨(vcpuAt a.vms p).buying, bid windowSize a p⟩,
      ⟨a.market.toNat, bid windowSize a p⟩]
  else []

/-- The subtractions of `bidRound`. -/
def bidRoundSubtractions (windowSize : ℕ) : Auction → List VCPURef → List Subtraction
  | _, [] => []
  | a, p :: ps =>
    bidStepSubtractions windowSize a p ++ bidRoundSubtractions windowSize (bidStep windowSize a p).1 ps

/-- The subtractions of `buyLoop`. -/
def buyLoopSubtractions (windowSize : ℕ) (a : Auction) (buyers : List VCPURef) : List Subtraction :=
  if a.market > 0 ∧ buyers ≠ [] then
    bidRoundSubtractions windowSize a buyers ++
      buyLoopSubtractions windowSize (bidRound windowSize a buyers).1 (bidRound windowSize a buyers).2
  else []
termination_by a.market.toNat + buyers.length
decreasing_by
  rename_i h
  have hm := bidRound_measure windowSize a buyers
  have hl : buyers.length ≠ 0 := fun hz => h.2 (List.length_eq_zero_iff.mp hz)
  omega

/-- The subtractions of the loop that splits the rest. -/
def splitLoopSubtractions (allNeeded rest : ℕ) : List LibvirtVM → ℤ → List VCPURef → List Subtraction
  | _, _, [] => []
  | vms, notSold, p :: ps =>
    let add := shareBy Single.round (vcpuAt vms p).buying allNeeded rest
    [⟨(vcpuAt vms p).buying, add⟩, ⟨notSold.toNat, add⟩] ++
      splitLoopSubtractions allNeeded rest (give vms p add) (notSold - add) ps

/-- The subtractions of the proportional split. -/
def splitRestSubtractions (a : Auction) : List Subtraction :=
  if a.market > 0 then
    splitLoopSubtractions a.allNeeded (min a.allNeeded a.market.toNat) a.vms a.market a.fails
  else []

/-- The unsigned subtractions of `run`, in the order in which they are computed. -/
def subtractions (cfg : VCPUMarketConfig) (nprocs : ℕ) (vms : List LibvirtVM) : List Subtraction :=
  if vms.length = 0 then []
  else
    sellBaseSubtractions cfg vms ++
      if (baseSale cfg nprocs vms).market < 0 then []
      else
        buyLoopSubtractions cfg.windowSize
            { vms := (baseSale cfg nprocs vms).vms, market := (baseSale cfg nprocs vms).market,
              allNeeded := 0, fails := [] } (baseSale cfg nprocs vms).buyers ++
          splitRestSubtractions (auction cfg nprocs vms)

/-! ## The auction -/

theorem bidStep_safe (w : ℕ) (a : Auction) (p : VCPURef) :
    ∀ s ∈ bidStepSubtractions w a p, s.Safe := by
  intro s hs
  unfold bidStepSubtractions at hs
  split at hs
  · have hbid : bid w a p ≤ moneyAt a.vms p ∧ bid w a p ≤ (vcpuAt a.vms p).buying := by
      unfold bid
      omega
    have hmarket := bid_le_market w a p
    simp only [List.mem_cons, List.not_mem_nil, or_false] at hs
    rcases hs with rfl | rfl | rfl
    · exact hbid.1
    · exact hbid.2
    · exact hmarket
  · cases hs

theorem bidRound_safe (w : ℕ) (a : Auction) (ps : List VCPURef) :
    ∀ s ∈ bidRoundSubtractions w a ps, s.Safe := by
  induction ps generalizing a with
  | nil => intro s hs; cases hs
  | cons p ps ih =>
    intro s hs
    rcases List.mem_append.mp hs with hs | hs
    · exact bidStep_safe w a p s hs
    · exact ih _ s hs

theorem buyLoop_safe (w : ℕ) (a : Auction) (buyers : List VCPURef) :
    ∀ s ∈ buyLoopSubtractions w a buyers, s.Safe := by
  induction a, buyers using buyLoopSubtractions.induct w with
  | case1 a buyers h ih =>
    intro s hs
    rw [buyLoopSubtractions, if_pos h] at hs
    rcases List.mem_append.mp hs with hs | hs
    · exact bidRound_safe w a buyers s hs
    · exact ih s hs
  | case2 a buyers h =>
    intro s hs
    rw [buyLoopSubtractions, if_neg h] at hs
    cases hs

/-! ## The split -/

/-- The market only shrinks while the rest is split. -/
theorem splitLoop_le (rnd : ℚ → ℚ) (need rest : ℕ) (ps : List VCPURef) (vms : List LibvirtVM) (notSold : ℤ) :
    (splitLoopBy rnd need rest vms notSold ps).2 ≤ notSold := by
  induction ps generalizing vms notSold with
  | nil => exact le_rfl
  | cons p ps ih =>
    have hrest := ih (give vms p (shareBy rnd (vcpuAt vms p).buying need rest))
      (notSold - shareBy rnd (vcpuAt vms p).buying need rest)
    have hunfold : splitLoopBy rnd need rest vms notSold (p :: ps) =
        splitLoopBy rnd need rest (give vms p (shareBy rnd (vcpuAt vms p).buying need rest))
          (notSold - shareBy rnd (vcpuAt vms p).buying need rest) ps := rfl
    rw [hunfold]
    omega

/-- A split is safe exactly when it does not oversell the market in the end. -/
theorem splitLoop_safe_iff (need rest : ℕ) (ps : List VCPURef) (vms : List LibvirtVM) {notSold : ℤ}
    (hnotSold : 0 ≤ notSold) :
    (∀ s ∈ splitLoopSubtractions need rest vms notSold ps, s.Safe) ↔
      0 ≤ (splitLoopBy Single.round need rest vms notSold ps).2 := by
  induction ps generalizing vms notSold with
  | nil => exact ⟨fun _ => hnotSold, fun _ s hs => absurd hs List.not_mem_nil⟩
  | cons p ps ih =>
    have hshare := share_le Single.round (vcpuAt vms p).buying need rest
    have hle := splitLoop_le Single.round need rest ps
      (give vms p (shareBy Single.round (vcpuAt vms p).buying need rest))
      (notSold - shareBy Single.round (vcpuAt vms p).buying need rest)
    rw [splitLoopBy, splitLoopSubtractions]
    simp only [List.cons_append, List.nil_append, List.forall_mem_cons, Subtraction.Safe]
    constructor
    · rintro ⟨-, hadd, hrest⟩
      exact (ih _ (by omega)).mp hrest
    · intro hend
      exact ⟨hshare, by omega, (ih _ (by omega)).mpr hend⟩

/-- The auction leaves less than the vCPUs that failed to buy need, but their shares of it, as they are
computed in single precision, add up to more. -/
def Oversplit (a : Auction) : Prop :=
  0 < a.market ∧ a.market < a.allNeeded ∧
    a.market < ((a.fails.map fun p =>
      shareBy Single.round (vcpuAt a.vms p).buying a.allNeeded a.market.toNat).sum : ℕ)

instance (a : Auction) : Decidable (Oversplit a) := inferInstanceAs (Decidable (_ ∧ _ ∧ _))

theorem splitRest_safe_iff {a : Auction} (hnd : a.fails.Nodup) (hv : ∀ p ∈ a.fails, Valid a.vms p)
    (hneed : a.allNeeded = (a.fails.map fun p => (vcpuAt a.vms p).buying).sum) :
    (∀ s ∈ splitRestSubtractions a, s.Safe) ↔ ¬ Oversplit a := by
  unfold splitRestSubtractions Oversplit
  by_cases hm : a.market > 0
  · rw [if_pos hm, splitLoop_safe_iff _ _ _ _ hm.le,
      (splitLoop_spec Single.round a.allNeeded _ a.fails a.vms a.market hnd hv).2.2.2.2.2]
    by_cases hcover : a.market < a.allNeeded
    · rw [Nat.min_eq_right (by omega)]
      omega
    · -- nobody gets more than it needs, and there is enough for all
      have hle := List.sum_le_sum (l := a.fails) fun p _ =>
        share_le Single.round (vcpuAt a.vms p).buying a.allNeeded (min a.allNeeded a.market.toNat)
      omega
  · rw [if_neg hm]
    exact ⟨fun _ h => hm h.1, fun _ s hs => absurd hs List.not_mem_nil⟩

/-! ## The rounding of the split -/

/-- The share in single precision, when the rest has no more than 24 binary digits. -/
theorem share_single {b needed rest : ℕ} (hneeded : 0 < needed) (hrest : rest < 2 ^ 24) :
    shareBy Single.round b needed rest =
      min b ⌊Single.nearest (Single.nearest (Single.nearest b / Single.nearest needed) * rest)⌋₊ := by
  have hdivisor : 0 < Single.nearest (needed : ℚ) := by
    have hn : (0 : ℚ) < needed := by exact_mod_cast hneeded
    have hlow : (0 : ℚ) < needed * (1 - 1 / 2 ^ 24) := mul_pos hn (by norm_num)
    exact hlow.trans_le (Single.le_nearest hn.le)
  have hquotient : 0 ≤ Single.nearest (b : ℚ) / Single.nearest needed :=
    div_nonneg (Single.nearest_nonneg _) hdivisor.le
  have hstored : ∀ n : ℕ, (FloatVal.num n).rounded Single.round = .num (Single.nearest n) := fun n => by
    rw [FloatVal.rounded_num, Single.round_of_nonneg (Nat.cast_nonneg n)]
  unfold shareBy
  simp only [hstored]
  rw [FloatVal.div_num hdivisor.ne', FloatVal.rounded_num, Single.round_of_nonneg hquotient,
    FloatVal.mul_num, FloatVal.rounded_num, Single.nearest_natCast hrest,
    Single.round_of_nonneg (mul_nonneg (Single.nearest_nonneg _) (Nat.cast_nonneg rest)),
    FloatVal.toULong_num]

/-- Such a share is too large by at most four roundings. -/
theorem share_le_error {b needed rest : ℕ} (hneeded : 0 < needed) (hrest : rest < 2 ^ 24) :
    (shareBy Single.round b needed rest : ℚ) ≤
      b * (rest / needed * ((1 + 1 / 2 ^ 24) ^ 3 / (1 - 1 / 2 ^ 24))) := by
  have hn : (0 : ℚ) < needed := by exact_mod_cast hneeded
  have hr : (0 : ℚ) ≤ rest := Nat.cast_nonneg rest
  have hlow : (0 : ℚ) < needed * (1 - 1 / 2 ^ 24) := mul_pos hn (by norm_num)
  have hpercent : 0 ≤ Single.nearest (b : ℚ) / Single.nearest needed :=
    div_nonneg (Single.nearest_nonneg _) (Single.nearest_nonneg _)
  have hquotient : Single.nearest (b : ℚ) / Single.nearest needed ≤
      b * (1 + 1 / 2 ^ 24) / (needed * (1 - 1 / 2 ^ 24)) :=
    div_le_div₀ (by positivity) (Single.nearest_le (Nat.cast_nonneg b)) hlow (Single.le_nearest hn.le)
  have hnonneg : 0 ≤ Single.nearest (Single.nearest (b : ℚ) / Single.nearest needed) * rest :=
    mul_nonneg (Single.nearest_nonneg _) hr
  have hfloor : (shareBy Single.round b needed rest : ℚ) ≤
      Single.nearest (Single.nearest (Single.nearest b / Single.nearest needed) * rest) := by
    rw [share_single hneeded hrest]
    exact (Nat.cast_le.mpr (Nat.min_le_right _ _)).trans (Nat.floor_le (Single.nearest_nonneg _))
  calc (shareBy Single.round b needed rest : ℚ)
      ≤ Single.nearest (Single.nearest b / Single.nearest needed) * rest * (1 + 1 / 2 ^ 24) :=
        hfloor.trans (Single.nearest_le hnonneg)
    _ ≤ Single.nearest b / Single.nearest needed * (1 + 1 / 2 ^ 24) * rest * (1 + 1 / 2 ^ 24) := by
        gcongr
        exact Single.nearest_le hpercent
    _ ≤ b * (1 + 1 / 2 ^ 24) / (needed * (1 - 1 / 2 ^ 24)) * (1 + 1 / 2 ^ 24) * rest *
          (1 + 1 / 2 ^ 24) := by gcongr
    _ = b * (rest / needed * ((1 + 1 / 2 ^ 24) ^ 3 / (1 - 1 / 2 ^ 24))) := by
        field_simp

/-- On a host of at most four processors the rounded shares never exceed what the auction left. -/
theorem not_oversplit (hprocs : nprocs ≤ 4) : ¬ Oversplit (auction cfg nprocs vms) := by
  rintro ⟨hpos, hshort, hsplit⟩
  obtain ⟨-, -, hneed⟩ := auction_fails cfg nprocs vms
  have hmarket : (auction cfg nprocs vms).market.toNat ≤ 4000000 := by
    have hbase : (auction cfg nprocs vms).market ≤ (baseSale cfg nprocs vms).market := by
      obtain ⟨_, hinv, -⟩ := auction_inv cfg nprocs vms
      exact hinv.traded.market_le
    have hhost := (phases_market (hpos.le.trans hbase)).1
    have hmax : nprocs * maxCycles ≤ 4 * 1000000 := Nat.mul_le_mul_right _ hprocs
    omega
  have hneeded : 0 < (auction cfg nprocs vms).allNeeded := by omega
  have hle := Share.sum_le_of_error
    (fun b => shareBy Single.round b (auction cfg nprocs vms).allNeeded (auction cfg nprocs vms).market.toNat)
    ((1 + 1 / 2 ^ 24) ^ 3 / (1 - 1 / 2 ^ 24))
    ((auction cfg nprocs vms).fails.map fun p => (vcpuAt (auction cfg nprocs vms).vms p).buying)
    (auction cfg nprocs vms).market.toNat
    (by rw [← hneed]; exact hneeded)
    (fun b _ => by rw [← hneed]; exact share_le_error hneeded (by omega))
    (by
      have hcast : ((auction cfg nprocs vms).market.toNat : ℚ) ≤ 4000000 := by exact_mod_cast hmarket
      norm_num
      linarith)
  rw [List.map_map] at hle
  have hsum : ((auction cfg nprocs vms).fails.map fun p =>
      shareBy Single.round (vcpuAt (auction cfg nprocs vms).vms p).buying (auction cfg nprocs vms).allNeeded
        (auction cfg nprocs vms).market.toNat).sum ≤ (auction cfg nprocs vms).market.toNat := hle
  omega

/-! ## The base sale -/

/-- The vCPU has a nominal share above a full core and asks for still more. -/
def Overdrawn (cfg : VCPUMarketConfig) (v : LibvirtVCPUController) : Prop :=
  maxCycles < nominal cfg v ∧
    match branch cfg v with
    -- a stable vCPU never asks for more than a full core
    | .stable => False
    | .decrement =>
      nominal cfg v < v.getConsumption ∨
        nominal cfg v < (FloatVal.num (v.getAbsoluteCapping * (1 - cfg.decreasingSpeed))).toULong
    | .increment =>
      nominal cfg v < (FloatVal.num (v.getAbsoluteCapping * (1 + cfg.increasingSpeed))).toULong
    | .between => nominal cfg v < v.getAbsoluteCapping

theorem overdrawn_iff {cfg : VCPUMarketConfig} {v : LibvirtVCPUController} :
    Overdrawn cfg v ↔ maxCycles < nominal cfg v ∧ nominal cfg v < demand cfg v := by
  have hmin : minCycles < maxCycles := by decide
  unfold Overdrawn demand
  refine and_congr_right fun hnom => ?_
  cases branch cfg v with
  | stable =>
    refine ⟨False.elim, ?_⟩
    intro h
    have hle := Nat.min_le_left maxCycles
      (FloatVal.num ((v.getConsumption : ℚ) + maxCycles * (1 / 100))).toULong
    simp only at h
    omega
  | decrement =>
    simp only [lt_max_iff]
    refine ⟨Or.inr, fun h => h.resolve_left ?_⟩
    omega
  | increment => exact Iff.rfl
  | between => exact Iff.rfl

theorem settle_safe_iff {cfg : VCPUMarketConfig} {v : LibvirtVCPUController} :
    (∀ s ∈ settleSubtractions cfg v (demand cfg v), s.Safe) ↔ ¬ Overdrawn cfg v := by
  rw [overdrawn_iff]
  unfold settleSubtractions
  by_cases h : demand cfg v > nominal cfg v
  · rw [if_pos h]
    simp only [List.mem_cons, List.not_mem_nil, or_false, forall_eq_or_imp, forall_eq, Subtraction.Safe]
    omega
  · rw [if_neg h]
    simp only [List.mem_singleton, forall_eq, Subtraction.Safe]
    omega

theorem sellBase_safe_iff {cfg : VCPUMarketConfig} {vms : List LibvirtVM} :
    (∀ s ∈ sellBaseSubtractions cfg vms, s.Safe) ↔
      ∀ vm ∈ vms, ∀ c ∈ vm.vcpuControllers, ¬ Overdrawn cfg c := by
  unfold sellBaseSubtractions
  constructor
  · intro h vm hvm c hc
    refine settle_safe_iff.mp fun s hs => h s ?_
    exact List.mem_flatMap.mpr ⟨vm, hvm, List.mem_flatMap.mpr ⟨c, hc, hs⟩⟩
  · intro h s hs
    obtain ⟨vm, hvm, hs⟩ := List.mem_flatMap.mp hs
    obtain ⟨c, hc, hs⟩ := List.mem_flatMap.mp hs
    exact settle_safe_iff.mpr (h vm hvm c hc) s hs

/-! ## The division -/

/-- Without a vCPU nothing is sold. -/
theorem phases_empty (rnd : ℚ → ℚ) (cfg : VCPUMarketConfig) (nprocs : ℕ) {vms : List LibvirtVM}
    (hn : vcpuCount vms = 0) :
    (baseSale cfg nprocs vms).market = (nprocs * maxCycles : ℕ) ∧
      (splitRestBy rnd (auction cfg nprocs vms)).2 = (nprocs * maxCycles : ℕ) := by
  have hbase : (baseSale cfg nprocs vms).market = (nprocs * maxCycles : ℕ) := by
    have hsold : total (current cfg) vms = 0 := total_eq_zero hn _
    rw [baseSale_market, baseSale_vms, totalAllocated_map_soldVM, hsold]
    simp
  have hm : 0 ≤ (baseSale cfg nprocs vms).market := by omega
  have hmarket := (phases_market hm).1
  have hnone : totalAllocated (auction cfg nprocs vms).vms = 0 :=
    total_eq_zero (by rw [vcpuCount_auction, hn]) _
  have hfails : (auction cfg nprocs vms).fails = [] := by
    refine List.eq_nil_iff_forall_not_mem.mpr fun p hp => ?_
    have hvalid := valid_auction.mp ((auction_fails cfg nprocs vms).2.1 p hp).2
    exact absurd hn (vcpuCount_pos hvalid).ne'
  refine ⟨hbase, ?_⟩
  unfold splitRestBy
  rw [hfails, splitLoopBy, ite_self, hmarket, hnone]
  simp

theorem runBy_divByZero_iff (rnd : ℚ → ℚ) {cfg : VCPUMarketConfig} {nprocs : ℕ} {vms : List LibvirtVM}
    (hvms : vms ≠ []) :
    runBy rnd cfg nprocs vms = .divByZero ↔ vcpuCount vms = 0 ∧ nprocs ≠ 0 := by
  have hlen : vms.length ≠ 0 := fun h0 => hvms (List.length_eq_zero_iff.mp h0)
  constructor
  · intro h
    have hn : vcpuCount vms = 0 := by
      by_contra hpos
      by_cases hneg : (baseSale cfg nprocs vms).market < 0
      · rw [runBy_eq, if_neg hlen, if_pos hneg] at h
        cases h
      · obtain ⟨vms', happ⟩ := exists_runBy_applied rnd (Nat.pos_of_ne_zero hpos) (not_lt.mp hneg)
        rw [happ] at h
        cases h
    refine ⟨hn, ?_⟩
    intro h0
    obtain ⟨hbase, hmarket⟩ := phases_empty rnd cfg nprocs hn
    rw [runBy_eq, if_neg hlen, if_neg (by omega), redistribute, if_neg (by rw [hmarket, h0]; simp)] at h
    cases h
  · rintro ⟨hn, hprocs⟩
    obtain ⟨hbase, hmarket⟩ := phases_empty rnd cfg nprocs hn
    have hpos : (splitRestBy rnd (auction cfg nprocs vms)).2 > 0 := by
      have hmax : 0 < maxCycles := by decide
      rw [hmarket]
      exact_mod_cast Nat.mul_pos (Nat.pos_of_ne_zero hprocs) hmax
    rw [runBy_eq, if_neg hlen, if_neg (by omega), redistribute, if_pos hpos, if_pos hn]

/-! ## The whole tick -/

/-- A base sale that sells more than the host has is followed by no auction, and by no split. -/
theorem not_oversplit_of_neg (hneg : (baseSale cfg nprocs vms).market < 0) :
    ¬ Oversplit (auction cfg nprocs vms) := by
  rintro ⟨hpos, -, -⟩
  obtain ⟨_, hinv, -⟩ := auction_inv cfg nprocs vms
  have hle : (auction cfg nprocs vms).market ≤ (baseSale cfg nprocs vms).market := hinv.traded.market_le
  omega

/-- The configuration of a VM with `vcpus` vCPUs and the default frequency. -/
def vcpusConfig (vcpus : ℤ) : Config.Dict :=
  [("vm".toList, .dict [("image".toList, .string "i".toList), ("name".toList, .string "a".toList),
    ("vcpus".toList, .int vcpus)])]

/-- A VM whose frequency is above that of the host, and which used almost all of its quota of two
cores. -/
def fastVM : LibvirtVM :=
  { (default : LibvirtVM) with
    vcpuControllers := [
      { id := 0, nominalFreq := 3000, cgroup := ⟨"a".toList, true, none⟩, period := 100000
        quota := 200000, slope := .num 1, delta := 1, consumption := 1900000 }] }

/-- A VM with 23 vCPUs that use a full core each, and no money. -/
def wideVM : LibvirtVM :=
  { (default : LibvirtVM) with
    vcpuControllers := List.replicate 23
      { id := 0, nominalFreq := 300, cgroup := ⟨"a".toList, true, none⟩, period := 100000
        quota := 100000, slope := .num 1, delta := 1, consumption := 1000000 } }

end VCPUMarket
