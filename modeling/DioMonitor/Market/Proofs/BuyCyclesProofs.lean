import DioMonitor.Market.Proofs.SellBaseProofs

/-!
# Proofs: the auction

`Traded` is what any number of purchases preserves: cycles move from the market to the vCPUs and money
out of the accounts, one for one. `BidInv` is the invariant of the loops of `buyCycles`: it follows
the buyers that are still active and those that failed.
-/

namespace VCPUMarket

/-- The controller without what the market decides about it. -/
def unpriced (c : LibvirtVCPUController) : LibvirtVCPUController :=
  { c with allocated := 0, buying := 0 }

/-- The state `b` follows from `a` by purchases. -/
structure Traded (a b : Auction) : Prop where
  valid : ∀ p, Valid b.vms p ↔ Valid a.vms p
  count : vcpuCount b.vms = vcpuCount a.vms
  total : (totalAllocated b.vms : ℤ) + b.market = totalAllocated a.vms + a.market
  market : 0 ≤ a.market → 0 ≤ b.market
  market_le : b.market ≤ a.market
  worth : ∀ i, worth (b.vms.getD i default) = worth (a.vms.getD i default)
  money_le : ∀ p, moneyAt b.vms p ≤ moneyAt a.vms p
  sum : ∀ p, (vcpuAt b.vms p).allocated + (vcpuAt b.vms p).buying =
    (vcpuAt a.vms p).allocated + (vcpuAt a.vms p).buying
  mono : ∀ p, (vcpuAt a.vms p).allocated ≤ (vcpuAt b.vms p).allocated
  frame : ∀ p, unpriced (vcpuAt b.vms p) = unpriced (vcpuAt a.vms p)

theorem Traded.refl (a : Auction) : Traded a a where
  valid := fun _ => Iff.rfl
  count := rfl
  total := rfl
  market := id
  market_le := le_rfl
  worth := fun _ => rfl
  money_le := fun _ => le_rfl
  sum := fun _ => rfl
  mono := fun _ => le_rfl
  frame := fun _ => rfl

theorem Traded.trans {a b c : Auction} (h : Traded a b) (h' : Traded b c) : Traded a c where
  valid := fun p => (h'.valid p).trans (h.valid p)
  count := h'.count.trans h.count
  total := h'.total.trans h.total
  market := fun hm => h'.market (h.market hm)
  market_le := h'.market_le.trans h.market_le
  worth := fun i => (h'.worth i).trans (h.worth i)
  money_le := fun p => (h'.money_le p).trans (h.money_le p)
  sum := fun p => (h'.sum p).trans (h.sum p)
  mono := fun p => (h.mono p).trans (h'.mono p)
  frame := fun p => (h'.frame p).trans (h.frame p)

/-! ## One purchase -/

section Buy

variable {vms : List LibvirtVM} {p q : VCPURef} {n : ℕ}

theorem vcpuAt_buy_self (h : Valid vms p) :
    vcpuAt (buy vms p n) p =
      { vcpuAt vms p with
        allocated := (vcpuAt vms p).allocated + n, buying := usub (vcpuAt vms p).buying n } :=
  vcpuAt_updateAt_self h

theorem vcpuAt_buy_ne (h : Valid vms p) (hq : p ≠ q) : vcpuAt (buy vms p n) q = vcpuAt vms q :=
  vcpuAt_updateAt_ne hq h.1

theorem moneyAt_buy_same (h : Valid vms p) (hvm : p.vm = q.vm) :
    moneyAt (buy vms p n) q = usub (moneyAt vms q) n :=
  moneyAt_updateAt_same h.1 hvm

theorem moneyAt_buy_ne (hvm : p.vm ≠ q.vm) : moneyAt (buy vms p n) q = moneyAt vms q :=
  moneyAt_updateAt_ne hvm

theorem valid_buy : Valid (buy vms p n) q ↔ Valid vms q := valid_updateAt

/-- What a VM pays for a purchase is what its vCPU receives. -/
theorem worth_buy (h : Valid vms p) (hn : n ≤ moneyAt vms p) (i : ℕ) :
    worth ((buy vms p n).getD i default) = worth (vms.getD i default) := by
  by_cases hi : p.vm = i
  · subst hi
    have hsum : vmSum (·.allocated) ((buy vms p n).getD p.vm default) =
        vmSum (·.allocated) (vms.getD p.vm default) + n := vmSum_updateAt h rfl
    have hmoney : ((buy vms p n).getD p.vm default).money = (vms.getD p.vm default).money - n := by
      have := moneyAt_buy_same (n := n) h (q := p) rfl
      rw [usub_of_le hn] at this
      exact this
    unfold moneyAt at hn
    unfold worth
    omega
  · rw [buy, updateAt_getD_ne hi]

end Buy

/-- A purchase that the account, the need and the market allow. -/
theorem buy_traded {a : Auction} {p : VCPURef} {n : ℕ} (h : Valid a.vms p) (hm : n ≤ moneyAt a.vms p)
    (hb : n ≤ (vcpuAt a.vms p).buying) (hk : n ≤ a.market.toNat) :
    Traded a { a with vms := buy a.vms p n, market := a.market - n } where
  valid := fun _ => valid_buy
  count := total_updateAt (n := 0) h rfl
  total := by
    have : totalAllocated (buy a.vms p n) = totalAllocated a.vms + n := total_updateAt h rfl
    simp only [this]
    omega
  market := by simp only; omega
  market_le := by simp only; omega
  worth := worth_buy h hm
  money_le := by
    intro q
    by_cases hvm : p.vm = q.vm
    · have heq : moneyAt a.vms q = moneyAt a.vms p := by unfold moneyAt; rw [hvm]
      rw [moneyAt_buy_same h hvm, usub_of_le (by rw [heq]; exact hm)]
      omega
    · rw [moneyAt_buy_ne hvm]
  sum := by
    intro q
    by_cases hq : p = q
    · subst hq
      rw [vcpuAt_buy_self h, usub_of_le hb]
      simp only
      omega
    · rw [vcpuAt_buy_ne h hq]
  mono := by
    intro q
    by_cases hq : p = q
    · subst hq
      rw [vcpuAt_buy_self h]
      simp only
      omega
    · rw [vcpuAt_buy_ne h hq]
  frame := by
    intro q
    by_cases hq : p = q
    · subst hq
      rw [vcpuAt_buy_self h]
      rfl
    · rw [vcpuAt_buy_ne h hq]

/-! ## The three outcomes of an iteration -/

theorem bidStep_none {w : ℕ} {a : Auction} {p : VCPURef} (h : (vcpuAt a.vms p).buying = 0) :
    bidStep w a p = (a, false) := by
  simp [bidStep, h]

theorem bidStep_fail {w : ℕ} {a : Auction} {p : VCPURef} (h : (vcpuAt a.vms p).buying ≠ 0)
    (hbid : bid w a p = 0) :
    bidStep w a p =
      ({ a with allNeeded := a.allNeeded + (vcpuAt a.vms p).buying, fails := a.fails ++ [p] },
        false) := by
  simp [bidStep, h, hbid]

theorem bidStep_buy {w : ℕ} {a : Auction} {p : VCPURef} (h : (vcpuAt a.vms p).buying ≠ 0)
    (hbid : bid w a p ≠ 0) :
    bidStep w a p =
      ({ a with vms := buy a.vms p (bid w a p), market := a.market - bid w a p }, true) := by
  simp [bidStep, h, hbid]

/-- A vCPU that needs cycles but bids nothing has no money, or no window, or no market is left. -/
theorem bid_eq_zero {w : ℕ} {a : Auction} {p : VCPURef} (h : (vcpuAt a.vms p).buying ≠ 0)
    (hbid : bid w a p = 0) : 0 < a.market → w = 0 ∨ moneyAt a.vms p = 0 := by
  unfold bid at hbid
  intro hm
  omega

/-! ## The invariant of the loops -/

/-- The auction started from `a₀` with the list `buyers` and is now in the state `a`, where the buyers
of the list `active` still bid. -/
structure BidInv (w : ℕ) (buyers : List VCPURef) (a₀ a : Auction) (active : List VCPURef) : Prop where
  traded : Traded a₀ a
  nodup : (active ++ a.fails).Nodup
  sub : ∀ p ∈ active ++ a.fails, p ∈ buyers
  cover : ∀ p ∈ buyers, p ∈ active ∨ p ∈ a.fails ∨ (vcpuAt a.vms p).buying = 0
  others : ∀ p, p ∉ buyers → vcpuAt a.vms p = vcpuAt a₀.vms p
  needed : a.allNeeded = a₀.allNeeded + (a.fails.map fun p => (vcpuAt a.vms p).buying).sum
  failed : ∀ p ∈ a.fails,
    (vcpuAt a.vms p).buying ≠ 0 ∧ (0 < a.market → w = 0 ∨ moneyAt a.vms p = 0)

variable {w : ℕ} {buyers : List VCPURef} {a₀ a : Auction}

theorem BidInv.start (hnd : buyers.Nodup) (hf : a₀.fails = []) : BidInv w buyers a₀ a₀ buyers where
  traded := Traded.refl a₀
  nodup := by simpa [hf] using hnd
  sub := by simp [hf]
  cover := fun p hp => Or.inl hp
  others := fun _ _ => rfl
  needed := by simp [hf]
  failed := by simp [hf]

/-- An active buyer buys. -/
theorem BidInv.buy {active : List VCPURef} (h : BidInv w buyers a₀ a active)
    (hv : ∀ p ∈ buyers, Valid a₀.vms p) {p : VCPURef} (hp : p ∈ active) {n : ℕ}
    (hm : n ≤ moneyAt a.vms p) (hb : n ≤ (vcpuAt a.vms p).buying) (hk : n ≤ a.market.toNat) :
    BidInv w buyers a₀ { a with vms := buy a.vms p n, market := a.market - n } active := by
  have hpb : p ∈ buyers := h.sub p (List.mem_append_left _ hp)
  have hvp : Valid a.vms p := (h.traded.valid p).mpr (hv p hpb)
  have hstep := buy_traded hvp hm hb hk
  -- a failed buyer is no longer active, so its need does not change
  have hfail : ∀ q ∈ a.fails, vcpuAt (VCPUMarket.buy a.vms p n) q = vcpuAt a.vms q := fun q hq =>
    vcpuAt_buy_ne hvp fun heq => (List.nodup_append.mp h.nodup).2.2 p hp q hq heq
  refine
    { traded := h.traded.trans hstep
      nodup := h.nodup
      sub := h.sub
      cover := ?_
      others := ?_
      needed := ?_
      failed := ?_ }
  · intro q hq
    by_cases hpq : p = q
    · exact Or.inl (hpq ▸ hp)
    · rw [vcpuAt_buy_ne hvp hpq]
      exact h.cover q hq
  · intro q hq
    rw [vcpuAt_buy_ne hvp fun heq : p = q => hq (heq ▸ hpb)]
    exact h.others q hq
  · have hsum := ListSum.sum_map_congr a.fails
      (f := fun q => (vcpuAt (VCPUMarket.buy a.vms p n) q).buying)
      (g := fun q => (vcpuAt a.vms q).buying) fun q hq => by rw [hfail q hq]
    rw [h.needed, hsum]
  · intro q hq
    obtain ⟨h1, h2⟩ := h.failed q hq
    refine ⟨by rw [hfail q hq]; exact h1, ?_⟩
    intro hpos
    have hle := hstep.money_le q
    simp only at hpos hle ⊢
    rcases h2 (by omega) with hw | hz
    · exact Or.inl hw
    · exact Or.inr (by omega)

/-- An active buyer fails. -/
theorem BidInv.fail {ks ps : List VCPURef} {p : VCPURef}
    (h : BidInv w buyers a₀ a (ks ++ p :: ps)) (hb : (vcpuAt a.vms p).buying ≠ 0)
    (hbid : 0 < a.market → w = 0 ∨ moneyAt a.vms p = 0) :
    BidInv w buyers a₀
      { a with allNeeded := a.allNeeded + (vcpuAt a.vms p).buying, fails := a.fails ++ [p] }
      (ks ++ ps) := by
  have hperm : (ks ++ ps ++ (a.fails ++ [p])).Perm (ks ++ p :: ps ++ a.fails) := by
    rw [← List.append_assoc, List.append_assoc ks (p :: ps), List.append_assoc ks ps]
    refine (List.perm_append_singleton p _).trans ?_
    exact List.perm_middle.symm
  refine
    { traded := h.traded.trans ⟨fun _ => Iff.rfl, rfl, rfl, id, le_rfl, fun _ => rfl, fun _ => le_rfl,
        fun _ => rfl, fun _ => le_rfl, fun _ => rfl⟩
      nodup := hperm.nodup_iff.mpr h.nodup
      sub := fun q hq => h.sub q (hperm.mem_iff.mp hq)
      cover := ?_
      others := h.others
      needed := ?_
      failed := ?_ }
  · intro q hq
    rcases h.cover q hq with hact | hf | hz
    · rcases List.mem_append.mp hact with hks | hps
      · exact Or.inl (List.mem_append_left _ hks)
      · rcases List.mem_cons.mp hps with rfl | hps
        · exact Or.inr (Or.inl (by simp))
        · exact Or.inl (List.mem_append_right _ hps)
    · exact Or.inr (Or.inl (List.mem_append_left _ hf))
    · exact Or.inr (Or.inr hz)
  · simp only [h.needed, List.map_append, List.map_cons, List.map_nil, List.sum_append,
      List.sum_cons, List.sum_nil]
    omega
  · intro q hq
    rcases List.mem_append.mp hq with hf | hq
    · exact h.failed q hf
    · obtain rfl : q = p := by simpa using hq
      exact ⟨hb, hbid⟩

/-- An active buyer that needs nothing more is dropped. -/
theorem BidInv.drop {ks ps : List VCPURef} {p : VCPURef}
    (h : BidInv w buyers a₀ a (ks ++ p :: ps)) (hb : (vcpuAt a.vms p).buying = 0) :
    BidInv w buyers a₀ a (ks ++ ps) := by
  have hsubl : (ks ++ ps ++ a.fails).Sublist (ks ++ p :: ps ++ a.fails) :=
    ((List.sublist_cons_self p ps).append_left ks).append_right a.fails
  refine
    { traded := h.traded
      nodup := h.nodup.sublist hsubl
      sub := fun q hq => h.sub q (hsubl.subset hq)
      cover := ?_
      others := h.others
      needed := h.needed
      failed := h.failed }
  intro q hq
  rcases h.cover q hq with hact | hf | hz
  · rcases List.mem_append.mp hact with hks | hps
    · exact Or.inl (List.mem_append_left _ hks)
    · rcases List.mem_cons.mp hps with rfl | hps
      · exact Or.inr (Or.inr hb)
      · exact Or.inl (List.mem_append_right _ hps)
  · exact Or.inr (Or.inl hf)
  · exact Or.inr (Or.inr hz)

/-- One iteration of the inner loop; the buyers `ks` were already visited in this round. -/
theorem bidStep_inv (hv : ∀ p ∈ buyers, Valid a₀.vms p) {ks ps : List VCPURef} {p : VCPURef}
    (h : BidInv w buyers a₀ a (ks ++ p :: ps)) :
    BidInv w buyers a₀ (bidStep w a p).1 (ks ++ if (bidStep w a p).2 then p :: ps else ps) := by
  by_cases hb : (vcpuAt a.vms p).buying = 0
  · rw [bidStep_none hb]
    exact h.drop hb
  · by_cases hbid : bid w a p = 0
    · rw [bidStep_fail hb hbid]
      exact h.fail hb (bid_eq_zero hb hbid)
    · rw [bidStep_buy hb hbid]
      have hmem : p ∈ ks ++ p :: ps := by simp
      exact h.buy hv hmem (by unfold bid; omega) (by unfold bid; omega) (bid_le_market w a p)

/-- A round keeps the invariant. -/
theorem bidRound_inv (hv : ∀ p ∈ buyers, Valid a₀.vms p) :
    ∀ {ps k : List VCPURef} {a : Auction}, BidInv w buyers a₀ a (k ++ ps) →
      BidInv w buyers a₀ (bidRound w a ps).1 (k ++ (bidRound w a ps).2) := by
  intro ps
  induction ps with
  | nil => intro k a h; exact h
  | cons p ps ih =>
    intro k a h
    have hstep := bidStep_inv hv h
    simp only [bidRound]
    cases hs : (bidStep w a p).2 with
    | false =>
      rw [hs] at hstep
      exact ih hstep
    | true =>
      rw [hs] at hstep
      have hstep' : BidInv w buyers a₀ (bidStep w a p).1 (k ++ [p] ++ ps) := by
        simpa using hstep
      have := ih hstep'
      simpa using this

/-- The loop ends with an exhausted market or without active buyers. -/
theorem buyLoop_inv (hv : ∀ p ∈ buyers, Valid a₀.vms p) (a : Auction) (active : List VCPURef)
    (h : BidInv w buyers a₀ a active) :
    ∃ active', BidInv w buyers a₀ (buyLoop w a active) active' ∧
      ((buyLoop w a active).market ≤ 0 ∨ active' = []) := by
  induction a, active using buyLoop.induct w with
  | case1 a active hcond ih =>
    rw [buyLoop, if_pos hcond]
    exact ih (bidRound_inv (k := []) hv h)
  | case2 a active hcond =>
    rw [buyLoop, if_neg hcond]
    refine ⟨active, h, ?_⟩
    by_cases hm : a.market ≤ 0
    · exact Or.inl hm
    · exact Or.inr (by_contra fun hne => hcond ⟨by omega, hne⟩)

/-- `buyCycles` from distinct buyers that point to vCPUs. -/
theorem buyCycles_inv (cfg : VCPUMarketConfig) (vms : List LibvirtVM) (buyers : List VCPURef)
    (market : ℤ) (allNeeded : ℕ) (hnd : buyers.Nodup) (hv : ∀ p ∈ buyers, Valid vms p) :
    ∃ active, BidInv cfg.windowSize buyers { vms, market, allNeeded, fails := [] }
        (buyCycles cfg vms buyers market allNeeded) active ∧
      ((buyCycles cfg vms buyers market allNeeded).market ≤ 0 ∨ active = []) :=
  buyLoop_inv hv _ _ (BidInv.start hnd rfl)

end VCPUMarket
