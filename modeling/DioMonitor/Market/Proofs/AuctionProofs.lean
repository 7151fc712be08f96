import DioMonitor.Lib.RoundRobinPair
import DioMonitor.Market.Proofs.SubtractionProofs

/-!
# Proofs: the auction as a whole

`buyCycles` is a sale in rounds: the vCPUs are the clients, the VMs own the purses and the market is the
stock (`ledger_buyLoop`). From the general facts about such sales follow that the auction is fair up
to one window (`buyCycles_fair`) and that a richer VM only helps its own vCPUs (`buyCycles_enrich`).
How the auction ends is `buyCycles_ends`.
-/

namespace VCPUMarket

/-! ## How the auction ends -/

/-- The condition of the loop `while (market > 0 && buyers.size () > 0)`. -/
def Continues (s : Auction × List VCPURef) : Prop := s.1.market > 0 ∧ s.2 ≠ []

/-- The auction and the buyers that are left after `n` rounds. -/
def buyRounds (w n : ℕ) (s : Auction × List VCPURef) : Auction × List VCPURef :=
  (fun s => bidRound w s.1 s.2)^[n] s

/-- The auction that starts in `a` with the list `buyers` ends in `b`. -/
structure AuctionEnds (w : ℕ) (buyers : List VCPURef) (a b : Auction) : Prop where
  /-- The loop runs for finitely many rounds. -/
  rounds : ∃ n, (buyRounds w n (a, buyers)).1 = b ∧
    (∀ m < n, Continues (buyRounds w m (a, buyers))) ∧ ¬ Continues (buyRounds w n (a, buyers))
  /-- No account, demand or market value goes below zero. -/
  subtractions : ∀ s ∈ buyLoopSubtractions w a buyers, s.Safe
  market : 0 ≤ a.market → 0 ≤ b.market
  /-- Without a market nothing happens. -/
  untouched : a.market ≤ 0 → b = a
  sum : ∀ p, (vcpuAt b.vms p).allocated + (vcpuAt b.vms p).buying =
    (vcpuAt a.vms p).allocated + (vcpuAt a.vms p).buying
  /-- While the market is not exhausted, whoever still needs cycles failed, for lack of money. -/
  fails : 0 < b.market → ∀ p ∈ buyers, (vcpuAt b.vms p).buying > 0 →
    b.fails.count p = 1 ∧ (moneyAt b.vms p = 0 ∨ w = 0)
  allNeeded : 0 < b.market → b.allNeeded = a.allNeeded +
    ((buyers.filter fun p => (vcpuAt b.vms p).buying > 0).map fun p => (vcpuAt b.vms p).buying).sum

/-- Every round takes a cycle from the market or a buyer from the list. -/
theorem buyLoop_rounds (w : ℕ) (a : Auction) (ps : List VCPURef) :
    ∃ n, (buyRounds w n (a, ps)).1 = buyLoop w a ps ∧
      (∀ m < n, Continues (buyRounds w m (a, ps))) ∧ ¬ Continues (buyRounds w n (a, ps)) := by
  induction a, ps using buyLoop.induct w with
  | case1 a ps hcond ih =>
    obtain ⟨n, hend, hgoes, hstops⟩ := ih
    refine ⟨n + 1, ?_, ?_, ?_⟩
    · rw [buyLoop, if_pos hcond]
      exact hend
    · intro m hm
      cases m with
      | zero => exact hcond
      | succ m => exact hgoes m (Nat.lt_of_succ_lt_succ hm)
    · exact hstops
  | case2 a ps hcond =>
    refine ⟨0, ?_, fun m hm => absurd hm (Nat.not_lt_zero m), hcond⟩
    rw [buyLoop, if_neg hcond]
    rfl

/-- When every buyer left the list, those that failed are those that still need cycles. -/
theorem BidInv.fails_perm {w : ℕ} {buyers : List VCPURef} {a₀ a : Auction}
    (h : BidInv w buyers a₀ a []) (hnd : buyers.Nodup) :
    a.fails.Perm (buyers.filter fun p => (vcpuAt a.vms p).buying > 0) := by
  refine (List.perm_ext_iff_of_nodup h.nodup (hnd.filter _)).mpr fun p => ?_
  rw [List.mem_filter, decide_eq_true_eq]
  constructor
  · intro hp
    exact ⟨h.sub p hp, Nat.pos_iff_ne_zero.mpr (h.failed p hp).1⟩
  · rintro ⟨hp, hneed⟩
    rcases h.cover p hp with hact | hfail | hzero
    · exact absurd hact List.not_mem_nil
    · exact hfail
    · omega

/-- The auction terminates, nothing in it goes below zero, and when the market is not exhausted the
list of those that failed and their total need are right. -/
theorem buyCycles_ends (cfg : VCPUMarketConfig) (vms : List LibvirtVM) (buyers : List VCPURef)
    (market : ℤ) (allNeeded : ℕ) (hnd : buyers.Nodup) (hv : ∀ p ∈ buyers, Valid vms p) :
    AuctionEnds cfg.windowSize buyers { vms, market, allNeeded, fails := [] }
      (buyCycles cfg vms buyers market allNeeded) := by
  obtain ⟨active, hinv, hend⟩ := buyCycles_inv cfg vms buyers market allNeeded hnd hv
  have hleft : 0 < (buyCycles cfg vms buyers market allNeeded).market → active = [] :=
    fun hm => hend.resolve_left (not_le.mpr hm)
  refine
    { rounds := buyLoop_rounds _ _ _
      subtractions := buyLoop_safe _ _ _
      market := hinv.traded.market
      untouched := ?_
      sum := hinv.traded.sum
      fails := ?_
      allNeeded := ?_ }
  · intro hm
    have hcond : ¬ (market > 0 ∧ buyers ≠ []) := fun hc => absurd hc.1 (not_lt.mpr hm)
    rw [buyCycles, buyLoop, if_neg hcond]
  · intro hm p hp hneed
    obtain rfl := hleft hm
    have hmem : p ∈ (buyCycles cfg vms buyers market allNeeded).fails := by
      rw [(hinv.fails_perm hnd).mem_iff, List.mem_filter]
      exact ⟨hp, by simpa using hneed⟩
    exact ⟨List.count_eq_one_of_mem hinv.nodup hmem, ((hinv.failed p hmem).2 hm).symm⟩
  · intro hm
    obtain rfl := hleft hm
    rw [hinv.needed, ((hinv.fails_perm hnd).map _).sum_eq]

/-- Two VMs with one vCPU each that needs 5 cycles; the first one cannot pay for all of them. -/
def twoBuyers : List LibvirtVM :=
  let needy : LibvirtVCPUController :=
    { id := 0, nominalFreq := 600, cgroup := ⟨"a".toList, true, none⟩, buying := 5 }
  [{ (default : LibvirtVM) with vcpuControllers := [needy], money := 3 },
    { (default : LibvirtVM) with vcpuControllers := [needy], money := 10 }]

theorem buyCycles_ends_two :
    AuctionEnds busyConfig.windowSize [⟨0, 0⟩, ⟨1, 0⟩]
        { vms := twoBuyers, market := 9, allNeeded := 0, fails := [] }
        (buyCycles busyConfig twoBuyers [⟨0, 0⟩, ⟨1, 0⟩] 9 0) ∧
      (buyCycles busyConfig twoBuyers [⟨0, 0⟩, ⟨1, 0⟩] 9 0).market = 1 ∧
      (buyCycles busyConfig twoBuyers [⟨0, 0⟩, ⟨1, 0⟩] 9 0).fails = [⟨0, 0⟩] :=
  ⟨buyCycles_ends busyConfig twoBuyers [⟨0, 0⟩, ⟨1, 0⟩] 9 0 (by decide) (by decide),
    by decide +kernel, by decide +kernel⟩

/-! ## The auction is a sale in rounds -/

/-- The auction as a sale: what the vCPUs have and still need, the accounts, and the market. -/
def ledger (a : Auction) : RoundRobin.Sale VCPURef ℕ where
  got p := (vcpuAt a.vms p).allocated
  need p := (vcpuAt a.vms p).buying
  purse i := (a.vms.getD i default).money
  stock := a.market.toNat

theorem offer_ledger (w : ℕ) (a : Auction) (p : VCPURef) :
    RoundRobin.offer VCPURef.vm w (ledger a) p = bid w a p := rfl

/-- A vCPU that needs cycles is a vCPU of a running VM. -/
theorem valid_of_buying {vms : List LibvirtVM} {p : VCPURef} (h : (vcpuAt vms p).buying ≠ 0) :
    Valid vms p := by
  by_contra hv
  have hdefault : vcpuAt vms p = default :=
    List.getD_eq_default _ _ (not_lt.mp fun hlt => hv (valid_iff.mpr hlt))
  rw [hdefault] at h
  exact h rfl

theorem ledger_buy {a : Auction} {p : VCPURef} {n : ℕ} (hv : Valid a.vms p) (hm : n ≤ moneyAt a.vms p)
    (hb : n ≤ (vcpuAt a.vms p).buying) :
    ledger { a with vms := buy a.vms p n, market := a.market - n } =
      RoundRobin.take VCPURef.vm (ledger a) p n := by
  unfold ledger RoundRobin.take
  congr 1
  · funext q
    by_cases hq : q = p
    · subst hq
      rw [Function.update_self, vcpuAt_buy_self hv]
    · rw [Function.update_of_ne hq, vcpuAt_buy_ne hv (Ne.symm hq)]
  · funext q
    by_cases hq : q = p
    · subst hq
      rw [Function.update_self, vcpuAt_buy_self hv, usub_of_le hb]
    · rw [Function.update_of_ne hq, vcpuAt_buy_ne hv (Ne.symm hq)]
  · funext i
    by_cases hi : i = p.vm
    · subst hi
      rw [Function.update_self]
      exact (moneyAt_buy_same hv rfl).trans (usub_of_le hm)
    · rw [Function.update_of_ne hi, buy, updateAt_getD_ne (Ne.symm hi)]
  · show (a.market - n).toNat = a.market.toNat - n
    omega

/-- One iteration of the inner loop is one turn. -/
theorem ledger_bidStep (w : ℕ) (a : Auction) (p : VCPURef) :
    RoundRobin.turn VCPURef.vm w (ledger a) p = (ledger (bidStep w a p).1, (bidStep w a p).2) := by
  by_cases hb : (vcpuAt a.vms p).buying = 0
  · have hoffer : RoundRobin.offer VCPURef.vm w (ledger a) p = 0 := by
      rw [offer_ledger, bid, hb]
      omega
    rw [bidStep_none hb, RoundRobin.turn_of_offer hoffer]
  · by_cases hbid : bid w a p = 0
    · rw [bidStep_fail hb hbid, RoundRobin.turn_of_offer (by rw [offer_ledger, hbid])]
      rfl
    · have hle : bid w a p ≤ moneyAt a.vms p ∧ bid w a p ≤ (vcpuAt a.vms p).buying := by
        unfold bid
        omega
      rw [bidStep_buy hb hbid, RoundRobin.turn, offer_ledger,
        ← ledger_buy (valid_of_buying hb) hle.1 hle.2]
      simp [hbid]

theorem ledger_bidRound (w : ℕ) (a : Auction) (ps : List VCPURef) :
    RoundRobin.round VCPURef.vm w (ledger a) ps =
      (ledger (bidRound w a ps).1, (bidRound w a ps).2) := by
  induction ps generalizing a with
  | nil => rfl
  | cons p ps ih => rw [RoundRobin.round_cons, ledger_bidStep, ih]; rfl

/-- The loops of `buyCycles` are the rounds of the sale. -/
theorem ledger_buyLoop (w : ℕ) (a : Auction) (ps : List VCPURef) :
    ledger (buyLoop w a ps) = RoundRobin.sell VCPURef.vm w (ledger a) ps := by
  have hmarket : ∀ a : Auction, 0 < (ledger a).stock ↔ a.market > 0 := fun a => by
    show 0 < a.market.toNat ↔ a.market > 0
    omega
  induction a, ps using buyLoop.induct w with
  | case1 a ps hcond ih =>
    have hcond' : 0 < (ledger a).stock ∧ ps ≠ [] := ⟨(hmarket a).mpr hcond.1, hcond.2⟩
    rw [buyLoop, if_pos hcond, RoundRobin.sell, if_pos hcond', ledger_bidRound, ih]
  | case2 a ps hcond =>
    rw [buyLoop, if_neg hcond,
      RoundRobin.sell_end fun hcond' => hcond ⟨(hmarket a).mp hcond'.1, hcond'.2⟩]

/-! ## Fairness -/

/-- The cycles that the vCPU `p` bought between two states. -/
def bought (vms vms' : List LibvirtVM) (p : VCPURef) : ℤ :=
  ((vcpuAt vms' p).allocated : ℤ) - (vcpuAt vms p).allocated

/-- The VMs, where the account of the VM at position `k` holds `more` cycles more. -/
def enrich (vms : List LibvirtVM) (k more : ℕ) : List LibvirtVM :=
  vms.modify k fun vm => { vm with money := vm.money + more }

/-- Two VMs with one vCPU each that needs 5 cycles, and money for them. -/
def twoRich : List LibvirtVM := enrich twoBuyers 0 7

def smallWindow : VCPUMarketConfig := { busyConfig with windowSize := 3 }

/-- Two buyers that still need cycles at the end, and whose VMs can still pay, bought the same up to
one window. -/
theorem buyCycles_fair (cfg : VCPUMarketConfig) (vms : List LibvirtVM) (buyers : List VCPURef)
    (market : ℤ) (allNeeded : ℕ) (hnd : buyers.Nodup) {p q : VCPURef} (hp : p ∈ buyers)
    (hq : q ∈ buyers)
    (hpneed : (vcpuAt (buyCycles cfg vms buyers market allNeeded).vms p).buying > 0)
    (hpmoney : moneyAt (buyCycles cfg vms buyers market allNeeded).vms p > 0)
    (hqneed : (vcpuAt (buyCycles cfg vms buyers market allNeeded).vms q).buying > 0)
    (hqmoney : moneyAt (buyCycles cfg vms buyers market allNeeded).vms q > 0) :
    |bought vms (buyCycles cfg vms buyers market allNeeded).vms p -
      bought vms (buyCycles cfg vms buyers market allNeeded).vms q| ≤ cfg.windowSize := by
  let a₀ : Auction := { vms, market, allNeeded, fails := [] }
  have hsell := ledger_buyLoop cfg.windowSize a₀ buyers
  have halive : ∀ r, (vcpuAt (buyLoop cfg.windowSize a₀ buyers).vms r).buying > 0 →
      moneyAt (buyLoop cfg.windowSize a₀ buyers).vms r > 0 →
      RoundRobin.Alive VCPURef.vm
        (RoundRobin.sell VCPURef.vm cfg.windowSize (ledger a₀) buyers) r := by
    intro r hneed hmoney
    rw [← hsell]
    exact ⟨Nat.pos_iff_ne_zero.mp hneed, Nat.pos_iff_ne_zero.mp hmoney⟩
  have hpa := halive p hpneed hpmoney
  have hqa := halive q hqneed hqmoney
  have hpq := RoundRobin.sell_fair hnd hp hq hpa hqa
  have hqp := RoundRobin.sell_fair hnd hq hp hqa hpa
  rw [← hsell] at hpq hqp
  simp only [ledger] at hpq hqp
  show |((vcpuAt (buyLoop cfg.windowSize a₀ buyers).vms p).allocated : ℤ) -
      (vcpuAt a₀.vms p).allocated - (((vcpuAt (buyLoop cfg.windowSize a₀ buyers).vms q).allocated : ℤ) -
      (vcpuAt a₀.vms q).allocated)| ≤ cfg.windowSize
  rw [abs_le]
  omega

/-- Both vCPUs still need cycles when the market of 5 cycles is exhausted in the middle of a round. -/
theorem buyCycles_fair_two :
    |bought twoRich (buyCycles smallWindow twoRich [⟨0, 0⟩, ⟨1, 0⟩] 5 0).vms ⟨0, 0⟩ -
      bought twoRich (buyCycles smallWindow twoRich [⟨0, 0⟩, ⟨1, 0⟩] 5 0).vms ⟨1, 0⟩| ≤ 3 :=
  buyCycles_fair smallWindow twoRich [⟨0, 0⟩, ⟨1, 0⟩] 5 0 (by decide) (by decide) (by decide)
    (by decide +kernel) (by decide +kernel) (by decide +kernel) (by decide +kernel)

/-! ## A fuller account -/

theorem vcpuAt_enrich (vms : List LibvirtVM) (k more : ℕ) (p : VCPURef) :
    vcpuAt (enrich vms k more) p = vcpuAt vms p := by
  have hvcpus : ((enrich vms k more).getD p.vm default).vcpuControllers =
      (vms.getD p.vm default).vcpuControllers :=
    ListSum.getD_modify_of vms (fun vm : LibvirtVM => { vm with money := vm.money + more }) default
      (fun _ => rfl) p.vm
  unfold vcpuAt
  rw [hvcpus]

theorem alike_enrich (a : Auction) (k more : ℕ) :
    RoundRobin.Alike k (ledger a) (ledger { a with vms := enrich a.vms k more }) := by
  refine
    { got := funext fun p => ?_
      need := funext fun p => ?_
      purse := fun l hl => ?_
      richer := ?_
      stock := rfl }
  · simp only [ledger, vcpuAt_enrich]
  · simp only [ledger, vcpuAt_enrich]
  · simp only [ledger, enrich, ListSum.getD_modify_ne _ _ _ (Ne.symm hl)]
  · by_cases hk : k < a.vms.length
    · simp only [ledger, enrich, ListSum.getD_modify_self _ _ _ hk]
      exact Nat.le_add_right _ _
    · have hsame : enrich a.vms k more = a.vms := by
        unfold enrich
        exact List.modify_eq_self (not_lt.mp hk)
      simp only [ledger, hsame, le_refl]

/-- When one account is larger, every vCPU of its VM gets at least as many cycles, and every other vCPU
at most as many. -/
theorem buyCycles_enrich (cfg : VCPUMarketConfig) (vms : List LibvirtVM) (buyers : List VCPURef)
    (market : ℤ) (allNeeded k more : ℕ) :
    (∀ p : VCPURef, p.vm = k →
      (vcpuAt (buyCycles cfg vms buyers market allNeeded).vms p).allocated ≤
        (vcpuAt (buyCycles cfg (enrich vms k more) buyers market allNeeded).vms p).allocated) ∧
    (∀ p : VCPURef, p.vm ≠ k →
      (vcpuAt (buyCycles cfg (enrich vms k more) buyers market allNeeded).vms p).allocated ≤
        (vcpuAt (buyCycles cfg vms buyers market allNeeded).vms p).allocated) := by
  let a₀ : Auction := { vms, market, allNeeded, fails := [] }
  have hfavours : RoundRobin.Favours VCPURef.vm k
      (RoundRobin.sell VCPURef.vm cfg.windowSize (ledger a₀) buyers)
      (RoundRobin.sell VCPURef.vm cfg.windowSize
        (ledger { a₀ with vms := enrich vms k more }) buyers) :=
    (alike_enrich a₀ k more).sell buyers
  rw [← ledger_buyLoop, ← ledger_buyLoop] at hfavours
  refine ⟨fun p hp => ?_, fun p hp => ?_⟩
  · have hle := hfavours p
    rw [if_pos hp] at hle
    exact hle
  · have hle := hfavours p
    rw [if_neg hp] at hle
    exact hle

end VCPUMarket
