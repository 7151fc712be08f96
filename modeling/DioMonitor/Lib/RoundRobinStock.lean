import DioMonitor.Lib.RoundRobinPair
import Mathlib.Algebra.BigOperators.Group.Finset.Piecewise
import Mathlib.Algebra.Order.BigOperators.Group.Finset

/-!
# The stock of a sale in rounds

How much a whole sale sells, and what a larger stock changes. The clients of one owner together buy at
most what their purse holds and at most what they need, and a sale only leaves something in stock when
every owner has bought as much (`sell_paid`, `sell_total`). Two sales that differ in their stock alone
run in step until the smaller stock is exhausted, so nobody gets less from the larger one
(`sell_stocked`).
-/

namespace RoundRobin

variable {ι κ : Type*} [DecidableEq ι] [DecidableEq κ] {owner : ι → κ} {quota : ℕ} {s t : Sale ι κ}

omit [DecidableEq ι] [DecidableEq κ] in
/-- A turn takes no more than the purse, the need and the stock allow. -/
theorem offer_le (owner : ι → κ) (quota : ℕ) (s : Sale ι κ) (i : ι) :
    offer owner quota s i ≤ s.purse (owner i) ∧ offer owner quota s i ≤ s.need i ∧
      offer owner quota s i ≤ s.stock := by
  unfold offer
  omega

/-! ## What every turn keeps -/

/-- A property of sales that no purchase destroys. -/
def Kept (owner : ι → κ) (P : Sale ι κ → Prop) (C : Finset ι) : Prop :=
  ∀ s i n, i ∈ C → n ≤ s.purse (owner i) → n ≤ s.need i → n ≤ s.stock → P s → P (take owner s i n)

variable {P : Sale ι κ → Prop} {C : Finset ι}

theorem Kept.turn (h : Kept owner P C) {i : ι} (hi : i ∈ C) (hs : P s) :
    P (turn owner quota s i).1 := by
  obtain ⟨hpurse, hneed, hstock⟩ := offer_le owner quota s i
  exact h s i _ hi hpurse hneed hstock hs

theorem Kept.round (h : Kept owner P C) {is : List ι} (hC : ∀ i ∈ is, i ∈ C) (hs : P s) :
    P (round owner quota s is).1 := by
  induction is generalizing s with
  | nil => exact hs
  | cons i is ih =>
    rw [round_cons]
    exact ih (fun j hj => hC j (List.mem_cons_of_mem _ hj)) (h.turn (hC i List.mem_cons_self) hs)

/-- The rule for a whole sale: what one purchase keeps, the sale keeps. -/
theorem Kept.sell (h : Kept owner P C) (s : Sale ι κ) (is : List ι) :
    (∀ i ∈ is, i ∈ C) → P s → P (sell owner quota s is) := by
  induction s, is using sell.induct owner quota with
  | case1 s is hcond ih =>
    intro hC hs
    rw [RoundRobin.sell, if_pos hcond]
    exact ih (fun i hi => hC i ((round_sublist owner quota s is).mem hi)) (h.round hC hs)
  | case2 s is hcond =>
    intro _ hs
    rwa [sell_end hcond]

/-! ## How much is sold -/

/-- What the clients of the owner `k` need together. -/
def owed (owner : ι → κ) (C : Finset ι) (s : Sale ι κ) (k : κ) : ℕ :=
  ∑ i ∈ C with owner i = k, s.need i

/-- A purchase lowers what the owner of the client still needs. -/
theorem owed_take_self (owner : ι → κ) {i : ι} {n : ℕ} (hi : i ∈ C) (hn : n ≤ s.need i) :
    owed owner C (take owner s i n) (owner i) + n = owed owner C s (owner i) := by
  have hmem : i ∈ C.filter (owner · = owner i) := Finset.mem_filter.mpr ⟨hi, rfl⟩
  have hsplit := Finset.add_sum_erase _ s.need hmem
  have htake : owed owner C (take owner s i n) (owner i) =
      (s.need i - n) + ∑ j ∈ (C.filter (owner · = owner i)).erase i, s.need j := by
    unfold owed take
    dsimp only
    rw [Finset.sum_update_of_mem hmem, Finset.sdiff_singleton_eq_erase]
  have hs : owed owner C s (owner i) =
      s.need i + ∑ j ∈ (C.filter (owner · = owner i)).erase i, s.need j := hsplit.symm
  omega

theorem owed_take_ne {i : ι} {n : ℕ} {k : κ} (hk : k ≠ owner i) :
    owed owner C (take owner s i n) k = owed owner C s k := by
  unfold owed
  refine Finset.sum_congr rfl fun j hj => need_take_ne ?_
  rintro rfl
  exact hk (Finset.mem_filter.mp hj).2.symm

/-- The books of a sale that started in `s₀`: every owner paid for what its clients received, and the
stock lost what the owners paid for. -/
structure Balanced (owner : ι → κ) (C : Finset ι) (s₀ s : Sale ι κ) : Prop where
  purse : ∀ k, s.purse k ≤ s₀.purse k
  owed : ∀ k, RoundRobin.owed owner C s k + (s₀.purse k - s.purse k) = RoundRobin.owed owner C s₀ k
  stock : s.stock + ∑ k ∈ C.image owner, (s₀.purse k - s.purse k) = s₀.stock

omit [DecidableEq ι] in
theorem Balanced.refl (owner : ι → κ) (C : Finset ι) (s : Sale ι κ) : Balanced owner C s s where
  purse := fun _ => le_rfl
  owed := fun k => by rw [Nat.sub_self, Nat.add_zero]
  stock := by simp

theorem kept_balanced (owner : ι → κ) (C : Finset ι) (s₀ : Sale ι κ) :
    Kept owner (Balanced owner C s₀) C := by
  intro s i n hi hpurse hneed hstock hs
  have hle := hs.purse (owner i)
  have hself : (take owner s i n).purse (owner i) = s.purse (owner i) - n := purse_take_self
  refine ⟨fun k => (purse_take_le owner s i n k).trans (hs.purse k), fun k => ?_, ?_⟩
  · have howed := hs.owed k
    by_cases hk : k = owner i
    · subst hk
      have htake := owed_take_self owner hi hneed
      omega
    · rw [owed_take_ne hk, purse_take_ne hk]
      exact howed
  · have hmem : owner i ∈ C.image owner := Finset.mem_image_of_mem owner hi
    have hbefore := Finset.add_sum_erase _ (fun k => s₀.purse k - s.purse k) hmem
    have hafter := Finset.add_sum_erase _ (fun k => s₀.purse k - (take owner s i n).purse k) hmem
    have hrest : ∑ k ∈ (C.image owner).erase (owner i), (s₀.purse k - (take owner s i n).purse k) =
        ∑ k ∈ (C.image owner).erase (owner i), (s₀.purse k - s.purse k) :=
      Finset.sum_congr rfl fun k hk => by rw [purse_take_ne (Finset.ne_of_mem_erase hk)]
    have htotal := hs.stock
    have hstock' : (take owner s i n).stock = s.stock - n := rfl
    simp only [hself] at hafter
    omega

/-- The client `i` can buy no more: it needs nothing, its owner cannot pay, or there is no stock. -/
def Done (owner : ι → κ) (s : Sale ι κ) (i : ι) : Prop :=
  s.need i = 0 ∨ s.purse (owner i) = 0 ∨ s.stock = 0

theorem Done.take {i : ι} (h : Done owner s i) (j : ι) (n : ℕ) : Done owner (take owner s j n) i := by
  have hneed := need_take_le owner s j n i
  have hpurse := purse_take_le owner s j n (owner i)
  have hstock : (RoundRobin.take owner s j n).stock ≤ s.stock := Nat.sub_le _ _
  unfold Done at h ⊢
  omega

theorem Done.round {i : ι} (h : Done owner s i) (is : List ι) :
    Done owner (round owner quota s is).1 i := by
  induction is generalizing s with
  | nil => exact h
  | cons j is ih =>
    rw [round_cons]
    exact ih (h.take j _)

/-- A client that leaves a round can buy no more. -/
theorem done_of_left (hq : 0 < quota) (s : Sale ι κ) (is : List ι) :
    ∀ i ∈ is, i ∉ (round owner quota s is).2 → Done owner (round owner quota s is).1 i := by
  induction is generalizing s with
  | nil => exact fun i hi => absurd hi List.not_mem_nil
  | cons j is ih =>
    intro i hi hleft
    rw [round_cons] at hleft ⊢
    have hrest : i ∉ (RoundRobin.round owner quota (RoundRobin.turn owner quota s j).1 is).2 := by
      intro hmem
      apply hleft
      dsimp only
      split
      · exact List.mem_cons_of_mem _ hmem
      · exact hmem
    rcases List.mem_cons.mp hi with rfl | hi
    · by_cases hoffer : offer owner quota s i = 0
      · have hdone : Done owner s i := by
          unfold offer at hoffer
          unfold Done
          omega
        exact (hdone.take i _).round is
      · have hstays : (RoundRobin.turn owner quota s i).2 = true := by
          simp [RoundRobin.turn, hoffer]
        rw [hstays] at hleft
        exact absurd List.mem_cons_self hleft
    · exact ih _ i hi hrest

/-- At the end of a sale no client can buy any more. -/
theorem done_of_sell (hq : 0 < quota) (s : Sale ι κ) (is : List ι) :
    (∀ i ∈ C, i ∈ is ∨ Done owner s i) → ∀ i ∈ C, Done owner (sell owner quota s is) i := by
  induction s, is using sell.induct owner quota with
  | case1 s is hcond ih =>
    intro h
    rw [RoundRobin.sell, if_pos hcond]
    refine ih fun i hi => ?_
    by_cases hstays : i ∈ (RoundRobin.round owner quota s is).2
    · exact Or.inl hstays
    · rcases h i hi with hmem | hdone
      · exact Or.inr (done_of_left hq s is i hmem hstays)
      · exact Or.inr (hdone.round is)
  | case2 s is hcond =>
    intro h i hi
    rw [sell_end hcond]
    rcases h i hi with hmem | hdone
    · have hstock : ¬ 0 < s.stock := fun hs => hcond ⟨hs, List.ne_nil_of_mem hmem⟩
      exact Or.inr (Or.inr (by omega))
    · exact hdone

section Totals

variable {is : List ι}

theorem sell_balanced (owner : ι → κ) (quota : ℕ) (s : Sale ι κ) (is : List ι) :
    Balanced owner is.toFinset s (sell owner quota s is) :=
  (kept_balanced owner is.toFinset s).sell s is (fun _ => List.mem_toFinset.mpr) (Balanced.refl _ _ s)

/-- No owner buys for more than its purse holds or its clients need. -/
theorem paid_le (owner : ι → κ) (quota : ℕ) (s : Sale ι κ) (is : List ι) (k : κ) :
    s.purse k - (sell owner quota s is).purse k ≤ min (s.purse k) (owed owner is.toFinset s k) := by
  have howed := (sell_balanced owner quota s is).owed k
  omega

/-- While something is in stock at the end, every owner bought all it could. -/
theorem sell_paid (hq : 0 < quota) (hstock : 0 < (sell owner quota s is).stock) (k : κ) :
    (sell owner quota s is).purse k + min (s.purse k) (owed owner is.toFinset s k) = s.purse k := by
  have howed := (sell_balanced owner quota s is).owed k
  have hpurse := (sell_balanced owner quota s is).purse k
  have hdone : ∀ i ∈ is.toFinset, Done owner (sell owner quota s is) i :=
    done_of_sell hq s is fun i hi => Or.inl (List.mem_toFinset.mp hi)
  by_cases hempty : (sell owner quota s is).purse k = 0
  · omega
  · have hzero : owed owner is.toFinset (sell owner quota s is) k = 0 := by
      refine Finset.sum_eq_zero fun i hi => ?_
      obtain ⟨hmem, rfl⟩ := Finset.mem_filter.mp hi
      rcases hdone i hmem with hneed | hpaid | hout
      · exact hneed
      · exact absurd hpaid hempty
      · omega
    omega

/-- A sale sells the whole stock, or everything that the owners can pay for and need. -/
theorem sell_total (owner : ι → κ) (s : Sale ι κ) (is : List ι) (hq : 0 < quota) :
    (sell owner quota s is).stock +
      min s.stock (∑ k ∈ is.toFinset.image owner, min (s.purse k) (owed owner is.toFinset s k)) =
      s.stock := by
  have hbooks := (sell_balanced owner quota s is).stock
  have hle : ∑ k ∈ is.toFinset.image owner, (s.purse k - (sell owner quota s is).purse k) ≤
      ∑ k ∈ is.toFinset.image owner, min (s.purse k) (owed owner is.toFinset s k) :=
    Finset.sum_le_sum fun k _ => paid_le owner quota s is k
  by_cases hstock : 0 < (sell owner quota s is).stock
  · have heq : ∑ k ∈ is.toFinset.image owner, (s.purse k - (sell owner quota s is).purse k) =
        ∑ k ∈ is.toFinset.image owner, min (s.purse k) (owed owner is.toFinset s k) :=
      Finset.sum_congr rfl fun k _ => (Nat.eq_sub_of_add_eq' (sell_paid hq hstock k)).symm
    omega
  · omega

end Totals

/-! ## A larger stock -/

/-- The sale with `d` more units in stock. -/
def stocked (s : Sale ι κ) (d : ℕ) : Sale ι κ := { s with stock := s.stock + d }

/-- The stock of `s` is exhausted, and in `t` nobody got less and nobody has more money left. -/
structure Behind (s t : Sale ι κ) : Prop where
  exhausted : s.stock = 0
  got : ∀ i, s.got i ≤ t.got i
  purse : ∀ k, t.purse k ≤ s.purse k

theorem kept_behind (owner : ι → κ) (s : Sale ι κ) (C : Finset ι) : Kept owner (Behind s) C := by
  intro t i n _ _ _ _ h
  exact ⟨h.exhausted, fun j => (h.got j).trans (got_le_take owner t i n j),
    fun k => (purse_take_le owner t i n k).trans (h.purse k)⟩

/-- One turn with more in stock: the client gets the same and stays in both sales or in none, or the
smaller stock is exhausted by this turn. -/
theorem turn_stocked (owner : ι → κ) (quota : ℕ) (s : Sale ι κ) (d : ℕ) (i : ι) :
    (turn owner quota (stocked s d) i = (stocked (turn owner quota s i).1 d, (turn owner quota s i).2)) ∨
      Behind (turn owner quota s i).1 (turn owner quota (stocked s d) i).1 := by
  have hle := offer_le_stock owner quota s i
  by_cases hsame : offer owner quota (stocked s d) i = offer owner quota s i
  · refine Or.inl ?_
    have hstock : s.stock + d - offer owner quota s i = s.stock - offer owner quota s i + d := by omega
    unfold turn
    rw [hsame]
    simp only [take, stocked, hstock]
  · have hall : offer owner quota s i = s.stock ∧
        offer owner quota s i ≤ offer owner quota (stocked s d) i := by
      unfold offer stocked at hsame ⊢
      dsimp only at hsame ⊢
      omega
    refine Or.inr ⟨?_, fun j => ?_, fun k => ?_⟩
    · show s.stock - offer owner quota s i = 0
      omega
    · show (take owner s i _).got j ≤ (take owner (stocked s d) i _).got j
      by_cases hj : j = i
      · subst hj
        rw [got_take_self, got_take_self]
        exact Nat.add_le_add_left hall.2 _
      · rw [got_take_ne hj, got_take_ne hj]
        exact Nat.le_refl _
    · show (take owner (stocked s d) i _).purse k ≤ (take owner s i _).purse k
      by_cases hk : k = owner i
      · subst hk
        rw [purse_take_self, purse_take_self]
        exact Nat.sub_le_sub_left hall.2 _
      · rw [purse_take_ne hk, purse_take_ne hk]
        exact Nat.le_refl _

theorem round_stocked (owner : ι → κ) (quota : ℕ) (d : ℕ) (is : List ι) : ∀ s : Sale ι κ,
    (round owner quota (stocked s d) is =
        (stocked (round owner quota s is).1 d, (round owner quota s is).2)) ∨
      Behind (round owner quota s is).1 (round owner quota (stocked s d) is).1 := by
  induction is with
  | nil => exact fun s => Or.inl rfl
  | cons i is ih =>
    intro s
    rw [round_cons, round_cons]
    rcases turn_stocked owner quota s d i with hturn | hbehind
    · rw [hturn]
      rcases ih (turn owner quota s i).1 with hround | hbehind
      · exact Or.inl (by rw [hround])
      · exact Or.inr hbehind
    · refine Or.inr ?_
      rw [round_of_exhausted hbehind.exhausted]
      exact (kept_behind owner _ is.toFinset).round (fun _ => List.mem_toFinset.mpr) hbehind

/-- A sale with more in stock: it differs by the stock left over at the end, or the smaller stock was
exhausted and nobody got less from the larger one. -/
theorem sell_stocked (owner : ι → κ) (quota d : ℕ) (s : Sale ι κ) (is : List ι) :
    sell owner quota (stocked s d) is = stocked (sell owner quota s is) d ∨
      Behind (sell owner quota s is) (sell owner quota (stocked s d) is) := by
  induction s, is using sell.induct owner quota with
  | case1 s is hcond ih =>
    have hcond' : 0 < (stocked s d).stock ∧ is ≠ [] := ⟨Nat.add_pos_left hcond.1 d, hcond.2⟩
    rw [sell_round hcond'.1 is, sell_round hcond.1 is]
    rcases round_stocked owner quota d is s with hround | hbehind
    · rw [hround]
      exact ih
    · refine Or.inr ?_
      rw [sell_end fun h => absurd hbehind.exhausted (Nat.ne_of_gt h.1)]
      exact (kept_behind owner _ _).sell _ _ (fun _ => List.mem_toFinset.mpr) hbehind
  | case2 s is hcond =>
    rw [sell_end hcond]
    by_cases hnil : is = []
    · subst hnil
      exact Or.inl (sell_end fun h => h.2 rfl)
    · have hstock : s.stock = 0 := by
        by_contra hne
        exact hcond ⟨Nat.pos_of_ne_zero hne, hnil⟩
      exact Or.inr ((kept_behind owner s _).sell _ _ (fun _ => List.mem_toFinset.mpr)
        ⟨hstock, fun _ => Nat.le_refl _, fun _ => Nat.le_refl _⟩)

end RoundRobin
