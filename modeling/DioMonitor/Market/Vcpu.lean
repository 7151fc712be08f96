import DioMonitor.Libvirt.Vm

/-!
# The market of vCPU cycles

`VCPUMarket::run` allocates the cycles of the host for one tick. Every vCPU first gets its base
cycles, at most its nominal share (`sellBaseCycles`); a vCPU that uses less than its share earns
money for its VM, one that needs more enters an auction (`buyCycles`) in which the VMs pay with the
money they earned. What is left then goes to the vCPUs that could not pay (`splitRestBy`), and what is
still left to everyone (`redistribute`).

Pointers to controllers are positions in the list of running VMs. `market` is a signed `long`, all
other quantities are `unsigned long`. The reals of the source are read exactly; the proportional split takes
a rounding (`runBy`), so that its shares can also be those of single precision.
-/

/-- A `LibvirtVCPUController *`: the position of a VM and of one of its vCPUs. -/
structure VCPURef where
  vm : ℕ
  vcpu : ℕ
  deriving DecidableEq, Repr

/-- The controller behind a pointer. -/
def vcpuAt (vms : List LibvirtVM) (p : VCPURef) : LibvirtVCPUController :=
  (vms.getD p.vm default).vcpuControllers.getD p.vcpu default

/-- The account of the VM of a vCPU: `p-> vm ().money ()`. -/
def moneyAt (vms : List LibvirtVM) (p : VCPURef) : ℕ := (vms.getD p.vm default).money

/-- Writes to the account of a VM and to its vCPU `j`. -/
def updateVM (j : ℕ) (account : ℕ → ℕ) (controller : LibvirtVCPUController → LibvirtVCPUController)
    (vm : LibvirtVM) : LibvirtVM :=
  { vm with
    money := account vm.money
    vcpuControllers := vm.vcpuControllers.modify j controller }

/-- Writes through a pointer: to the account of the VM and to the controller. -/
def updateAt (vms : List LibvirtVM) (p : VCPURef) (account : ℕ → ℕ)
    (controller : LibvirtVCPUController → LibvirtVCPUController) : List LibvirtVM :=
  vms.modify p.vm (updateVM p.vcpu account controller)

/-- `VCPUMarketConfig`. -/
structure VCPUMarketConfig where
  cpuFreq : ℤ
  triggerIncrement : ℚ
  triggerDecrement : ℚ
  increasingSpeed : ℚ
  decreasingSpeed : ℚ
  windowSize : ℕ
  deriving DecidableEq, Repr

namespace VCPUMarket

/-- A full core, in cycles per second. -/
def maxCycles : ℕ := 1000000

/-- The least allocation, one percent of a core. -/
def minCycles : ℕ := maxCycles / 100

/-- The nominal share of a vCPU: the part of a core that gives its nominal frequency. -/
def nominal (cfg : VCPUMarketConfig) (v : LibvirtVCPUController) : ℕ :=
  (((FloatVal.num v.getNominalFreq).div (.num cfg.cpuFreq)).mul (.num maxCycles)).toULong

/-! ## The base sale -/

/-- What `sellBaseCycles` changes for one vCPU: the controller, the account of its VM, the market,
and whether the vCPU enters the auction. -/
structure BaseSale where
  v : LibvirtVCPUController
  money : ℕ
  market : ℤ
  buyer : Bool

/-- The common end of the branches of `sellBaseCycles`: `current` cycles are allocated; a demand above
the nominal share is bought, one below it sells the difference. -/
def settle (cfg : VCPUMarketConfig) (v : LibvirtVCPUController) (money : ℕ) (market : ℤ)
    (demand current : ℕ) : BaseSale :=
  let nom := nominal cfg v
  let v := { v with allocated := current }
  let market := market - current
  if demand > nom then
    { v := { v with buying := min (usub maxCycles nom) (usub demand nom) }, money, market, buyer := true }
  else
    { v, money := money + usub nom demand, market, buyer := false }

/-- `sellBaseCycles` for one vCPU. -/
def sellBaseCyclesVCPU (cfg : VCPUMarketConfig) (v : LibvirtVCPUController) (money : ℕ) (market : ℤ) :
    BaseSale :=
  let usage := v.getConsumption
  let nom := nominal cfg v
  let capp := v.getAbsoluteCapping
  let percUsage := v.getRelativePercentConsumption.div (.num 100)
  let slope := v.getSlope
  if (FloatVal.num (-1 / 10)).lt slope && slope.lt (.num (1 / 10)) then
    -- 1) the consumption is stable
    let increase := min maxCycles (FloatVal.num (usage + maxCycles * (1 / 100))).toULong
    let current := max minCycles (min nom increase)
    settle cfg v money market increase current
  else if percUsage.lt (.num cfg.triggerDecrement) then
    -- 2) the usage is below the decrease trigger
    let decrease := max minCycles (max usage (FloatVal.num (capp * (1 - cfg.decreasingSpeed))).toULong)
    let current := min nom decrease
    settle cfg v money market decrease current
  else if (FloatVal.num cfg.triggerIncrement).lt percUsage then
    -- 3) the usage is above the increase trigger
    let increase := (FloatVal.num (capp * (1 + cfg.increasingSpeed))).toULong
    let current := max minCycles (min nom increase)
    settle cfg v money market increase current
  else
    -- 4) the usage is between the two triggers
    let current := max minCycles (min nom capp)
    settle cfg v money market capp current

/-- The loop of `sellBaseCycles` over the vCPUs of the VM at position `i`, from vCPU `j` on. -/
def sellBaseCyclesVM (cfg : VCPUMarketConfig) (i : ℕ) : ℕ → List LibvirtVCPUController → ℕ → ℤ →
    List LibvirtVCPUController × ℕ × ℤ × List VCPURef
  | _, [], money, market => ([], money, market, [])
  | j, c :: cs, money, market =>
    let sale := sellBaseCyclesVCPU cfg c money market
    let (cs', money', market', ret) := sellBaseCyclesVM cfg i (j + 1) cs sale.money sale.market
    (sale.v :: cs', money', market', if sale.buyer then ⟨i, j⟩ :: ret else ret)

/-- The loop of `sellBaseCycles` over the VMs, from position `i` on: the VMs, the market, `nbVcpus`
and the buyers. -/
def sellBaseCyclesFrom (cfg : VCPUMarketConfig) : ℕ → List LibvirtVM → ℤ → ℕ →
    List LibvirtVM × ℤ × ℕ × List VCPURef
  | _, [], market, nbVcpus => ([], market, nbVcpus, [])
  | i, vm :: vms, market, nbVcpus =>
    let (cs, money, market, ret) := sellBaseCyclesVM cfg i 0 vm.vcpuControllers vm.money market
    let (vms', market', nbVcpus', ret') :=
      sellBaseCyclesFrom cfg (i + 1) vms market (nbVcpus + vm.vcpuControllers.length)
    ({ vm with vcpuControllers := cs, money := money } :: vms', market', nbVcpus', ret ++ ret')

/-- The state of the market after the base sale. -/
structure Base where
  vms : List LibvirtVM
  market : ℤ
  nbVcpus : ℕ
  buyers : List VCPURef

/-- `sellBaseCycles` for all the VMs. -/
def sellBaseCycles (cfg : VCPUMarketConfig) (vms : List LibvirtVM) (market : ℤ) : Base :=
  let (vms, market, nbVcpus, buyers) := sellBaseCyclesFrom cfg 0 vms market 0
  { vms, market, nbVcpus, buyers }

/-! ## The auction -/

/-- The state of the auction. -/
structure Auction where
  vms : List LibvirtVM
  market : ℤ
  allNeeded : ℕ
  fails : List VCPURef

/-- The vCPU `p` buys `bought` cycles, paid by its VM. -/
def buy (vms : List LibvirtVM) (p : VCPURef) (bought : ℕ) : List LibvirtVM :=
  updateAt vms p (fun money => usub money bought) fun c =>
    { c with allocated := c.allocated + bought, buying := usub c.buying bought }

/-- What the vCPU `p` can buy in one round: what its VM can pay and the window allows, what it needs,
and what is left in the market. -/
def bid (windowSize : ℕ) (a : Auction) (p : VCPURef) : ℕ :=
  min (min (min windowSize (moneyAt a.vms p)) (vcpuAt a.vms p).buying) a.market.toNat

/-- One iteration of the inner loop of `buyCycles`: the buyer `p` buys, fails, or needs nothing. The
second component tells whether it stays in the list of buyers. -/
def bidStep (windowSize : ℕ) (a : Auction) (p : VCPURef) : Auction × Bool :=
  if (vcpuAt a.vms p).buying ≠ 0 then
    let bought := bid windowSize a p
    if bought ≠ 0 then
      ({ a with vms := buy a.vms p bought, market := a.market - bought }, true)
    else
      ({ a with allNeeded := a.allNeeded + (vcpuAt a.vms p).buying, fails := a.fails ++ [p] }, false)
  else (a, false)

/-- The inner loop of `buyCycles`: one round over the buyers, and those that stay. -/
def bidRound (windowSize : ℕ) : Auction → List VCPURef → Auction × List VCPURef
  | a, [] => (a, [])
  | a, p :: ps =>
    let (a, stays) := bidStep windowSize a p
    let (a, ps) := bidRound windowSize a ps
    (a, if stays then p :: ps else ps)

theorem bid_le_market (w : ℕ) (a : Auction) (p : VCPURef) : bid w a p ≤ a.market.toNat := by
  unfold bid; omega

/-- Every buyer that stays has taken at least one cycle from the market, so a round leaves at most as
many buyers as it took cycles. -/
theorem bidRound_measure (w : ℕ) (a : Auction) (ps : List VCPURef) :
    (bidRound w a ps).1.market.toNat + (bidRound w a ps).2.length ≤ a.market.toNat := by
  induction ps generalizing a with
  | nil => simp [bidRound]
  | cons p ps ih =>
    have hrest := ih (bidStep w a p).1
    have hle := bid_le_market w a p
    by_cases hb : (vcpuAt a.vms p).buying ≠ 0
    · by_cases hn : bid w a p ≠ 0
      · have hstep : bidStep w a p =
            ({ a with vms := buy a.vms p (bid w a p), market := a.market - bid w a p }, true) := by
          simp only [bidStep, hb, hn, ne_eq, not_false_eq_true, if_true]
        simp only [hstep] at hrest
        simp only [bidRound, hstep, if_true, List.length_cons]
        omega
      · have hstep : (bidStep w a p).1.market = a.market ∧ (bidStep w a p).2 = false := by
          simp only [bidStep, hb, hn, ne_eq, not_false_eq_true, if_true, if_false, and_self]
        rw [hstep.1] at hrest
        simp only [bidRound, hstep.2, Bool.false_eq_true, if_false]
        exact hrest
    · have hstep : bidStep w a p = (a, false) := by simp only [bidStep, hb, if_false]
      rw [hstep] at hrest
      simp only [bidRound, hstep, Bool.false_eq_true, if_false]
      exact hrest

/-- The loop `while (market > 0 && buyers.size () > 0)` of `buyCycles`. -/
def buyLoop (windowSize : ℕ) (a : Auction) (buyers : List VCPURef) : Auction :=
  if a.market > 0 ∧ buyers ≠ [] then
    buyLoop windowSize (bidRound windowSize a buyers).1 (bidRound windowSize a buyers).2
  else a
termination_by a.market.toNat + buyers.length
decreasing_by
  rename_i h
  have hm := bidRound_measure windowSize a buyers
  have hl : buyers.length ≠ 0 := fun hz => h.2 (List.length_eq_zero_iff.mp hz)
  omega

/-- `buyCycles`: the result holds the VMs, the market, `allNeeded` and the list `fails`. -/
def buyCycles (cfg : VCPUMarketConfig) (vms : List LibvirtVM) (buyers : List VCPURef) (market : ℤ)
    (allNeeded : ℕ) : Auction :=
  buyLoop cfg.windowSize { vms, market, allNeeded, fails := [] } buyers

/-! ## The rest of the market -/

/-- The vCPU `p` gets `add` of the cycles it could not buy. -/
def give (vms : List LibvirtVM) (p : VCPURef) (add : ℕ) : List LibvirtVM :=
  updateAt vms p id fun c =>
    { c with allocated := c.allocated + add, buying := usub c.buying add }

/-- The share of `rest` that goes to a vCPU that needs `buying` out of `allNeeded`. The numbers, their
quotient and the product are rounded as they are stored in a `float`. -/
def shareBy (rnd : ℚ → ℚ) (buying allNeeded rest : ℕ) : ℕ :=
  let stored (n : ℕ) : FloatVal := (FloatVal.num n).rounded rnd
  let percent := ((stored buying).div (stored allNeeded)).rounded rnd
  min buying ((percent.mul (stored rest)).rounded rnd).toULong

/-- The loop that splits the rest of the market between the vCPUs that failed to buy. -/
def splitLoopBy (rnd : ℚ → ℚ) (allNeeded rest : ℕ) :
    List LibvirtVM → ℤ → List VCPURef → List LibvirtVM × ℤ
  | vms, notSold, [] => (vms, notSold)
  | vms, notSold, p :: ps =>
    let add := shareBy rnd (vcpuAt vms p).buying allNeeded rest
    splitLoopBy rnd allNeeded rest (give vms p add) (notSold - add) ps

/-- The proportional split, when the auction left something: the VMs and the market after it. -/
def splitRestBy (rnd : ℚ → ℚ) (a : Auction) : List LibvirtVM × ℤ :=
  if a.market > 0 then
    splitLoopBy rnd a.allNeeded (min a.allNeeded a.market.toNat) a.vms a.market a.fails
  else (a.vms, a.market)

/-- The proportional split with exact shares. -/
def splitRest (a : Auction) : List LibvirtVM × ℤ := splitRestBy id a

/-- Every vCPU gets `percent` more cycles, up to a full core. -/
def raise (percent : ℕ) (vms : List LibvirtVM) : List LibvirtVM :=
  vms.map fun vm =>
    { vm with vcpuControllers := vm.vcpuControllers.map fun c =>
        { c with allocated := min maxCycles (c.allocated + percent) } }

/-- The even split of what is still left. `none` is the integer division by zero. -/
def redistribute (nbVcpus : ℕ) (vms : List LibvirtVM) (market : ℤ) : Option (List LibvirtVM) :=
  if market > 0 then
    if nbVcpus = 0 then none else some (raise (market.toNat / nbVcpus) vms)
  else some vms

/-! ## One tick of the market -/

/-- How `run` ends. -/
inductive Outcome where
  /-- There is no VM. -/
  | noVM
  /-- The base sale sold more than the host has; the quotas stay as they are. -/
  | overAllocated (vms : List LibvirtVM)
  /-- The process is killed by an integer division by zero. -/
  | divByZero
  /-- The allocations were applied as quotas. -/
  | applied (vms : List LibvirtVM)
  deriving DecidableEq, Repr

/-- The period of the quotas set by the market, in microseconds. -/
def marketPeriod : ℕ := 100000

/-- `VCPUMarket::run` on a host with `nprocs` processors; `rnd` is the rounding of the proportional split.
The source computes the cycles of the host as an `int`, which holds those of up to 2147 processors. -/
def runBy (rnd : ℚ → ℚ) (cfg : VCPUMarketConfig) (nprocs : ℕ) (vms : List LibvirtVM) : Outcome :=
  if vms.length = 0 then .noVM
  else
    let base := sellBaseCycles cfg vms (nprocs * maxCycles : ℕ)
    if base.market < 0 then .overAllocated base.vms
    else
      let auction := buyCycles cfg base.vms base.buyers base.market 0
      let (vms, market) := splitRestBy rnd auction
      match redistribute base.nbVcpus vms market with
      | none => .divByZero
      | some vms => .applied (vms.map (·.applyMarketAllocation marketPeriod))

/-- `VCPUMarket::run` with exact shares. -/
def run (cfg : VCPUMarketConfig) (nprocs : ℕ) (vms : List LibvirtVM) : Outcome :=
  runBy id cfg nprocs vms

/-- `VCPUMarket::reset`: empties the accounts. -/
def reset (vms : List LibvirtVM) : List LibvirtVM := vms.map fun vm => { vm with money := 0 }

end VCPUMarket
