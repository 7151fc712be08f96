import Mathlib.Data.List.Nodup
import Mathlib.Logic.Function.Basic
import Mathlib.Order.Nat

/-!
# Selling a stock in rounds

Clients take turns to buy from a common stock. In its turn a client gets at most a fixed quota, at
most what it still needs, at most what its owner can pay (one purse serves all the clients of an
owner) and at most what is left. A client that gets nothing leaves. The rounds go on until the stock
is exhausted or every client has left.

The main result on one sale is fairness: two clients that could still buy at the end have got the same
amount, up to one quota (`sell_fair`).
-/

namespace RoundRobin

variable {ι κ : Type*} [DecidableEq ι] [DecidableEq κ]

/-- A sale: what the clients `ι` got and still need, the purses of the owners `κ`, and the stock. -/
structure Sale (ι κ : Type*) where
  got : ι → ℕ
  need : ι → ℕ
  purse : κ → ℕ
  stock : ℕ

variable (owner : ι → κ)

/-- What the client `i` gets in its turn. -/
def offer (quota : ℕ) (s : Sale ι κ) (i : ι) : ℕ :=
  min (min (min quota (s.purse (owner i))) (s.need i)) s.stock

/-- The client `i` takes `n` units. -/
def take (s : Sale ι κ) (i : ι) (n : ℕ) : Sale ι κ where
  got := Function.update s.got i (s.got i + n)
  need := Function.update s.need i (s.need i - n)
  purse := Function.update s.purse (owner i) (s.purse (owner i) - n)
  stock := s.stock - n

/-- The turn of the client `i`, and whether it stays. -/
def turn (quota : ℕ) (s : Sale ι κ) (i : ι) : Sale ι κ × Bool :=
  (take owner s i (offer owner quota s i), offer owner quota s i ≠ 0)

/-- One round over the clients, and those that stay. -/
def round (quota : ℕ) : Sale ι κ → List ι → Sale ι κ × List ι
  | s, [] => (s, [])
  | s, i :: is =>
    let t := turn owner quota s i
    let r := round quota t.1 is
    (r.1, if t.2 then i :: r.2 else r.2)

variable {owner} {quota : ℕ} {s : Sale ι κ} {i j : ι} {n : ℕ}

/-! ## One turn -/

theorem take_zero (s : Sale ι κ) (i : ι) : take owner s i 0 = s := by
  simp [take]

theorem got_take_self : (take owner s i n).got i = s.got i + n := by simp [take]

theorem got_take_ne (h : j ≠ i) : (take owner s i n).got j = s.got j := by simp [take, h]

theorem need_take_self : (take owner s i n).need i = s.need i - n := by simp [take]

theorem need_take_ne (h : j ≠ i) : (take owner s i n).need j = s.need j := by simp [take, h]

theorem purse_take_self : (take owner s i n).purse (owner i) = s.purse (owner i) - n := by simp [take]

theorem purse_take_ne {k : κ} (h : k ≠ owner i) : (take owner s i n).purse k = s.purse k := by
  simp [take, h]

theorem got_le_take (owner : ι → κ) (s : Sale ι κ) (i : ι) (n : ℕ) (j : ι) :
    s.got j ≤ (take owner s i n).got j := by
  by_cases h : j = i
  · subst h
    rw [got_take_self]
    exact Nat.le_add_right _ _
  · exact (got_take_ne h).ge

theorem need_take_le (owner : ι → κ) (s : Sale ι κ) (i : ι) (n : ℕ) (j : ι) :
    (take owner s i n).need j ≤ s.need j := by
  by_cases h : j = i
  · subst h
    rw [need_take_self]
    exact Nat.sub_le _ _
  · exact (need_take_ne h).le

theorem purse_take_le (owner : ι → κ) (s : Sale ι κ) (i : ι) (n : ℕ) (k : κ) :
    (take owner s i n).purse k ≤ s.purse k := by
  by_cases h : k = owner i
  · subst h
    rw [purse_take_self]
    exact Nat.sub_le _ _
  · exact (purse_take_ne h).le

/-- Without stock, without money or without need a turn changes nothing and the client leaves. -/
theorem turn_of_offer (h : offer owner quota s i = 0) : turn owner quota s i = (s, false) := by
  simp [turn, h, take_zero]

omit [DecidableEq ι] [DecidableEq κ] in
theorem offer_le_stock (owner : ι → κ) (quota : ℕ) (s : Sale ι κ) (i : ι) :
    offer owner quota s i ≤ s.stock :=
  Nat.min_le_right _ _

/-! ## Rounds -/

theorem round_cons (quota : ℕ) (s : Sale ι κ) (i : ι) (is : List ι) :
    round owner quota s (i :: is) =
      ((round owner quota (turn owner quota s i).1 is).1,
        if (turn owner quota s i).2 then i :: (round owner quota (turn owner quota s i).1 is).2
        else (round owner quota (turn owner quota s i).1 is).2) := rfl

/-- A client that gets nothing may be left out of the round. -/
theorem round_of_offer {is : List ι} (h : offer owner quota s i = 0) :
    round owner quota s (i :: is) = round owner quota s is := by
  rw [round_cons, turn_of_offer h]
  rfl

/-- Every client that stays has taken at least one unit. -/
theorem round_measure (owner : ι → κ) (quota : ℕ) (s : Sale ι κ) (is : List ι) :
    (round owner quota s is).1.stock + (round owner quota s is).2.length ≤ s.stock := by
  induction is generalizing s with
  | nil => exact Nat.le_refl _
  | cons i is ih =>
    have hrest := ih (turn owner quota s i).1
    have hle := offer_le_stock owner quota s i
    rw [round_cons]
    by_cases h : offer owner quota s i = 0
    · rw [turn_of_offer h] at hrest ⊢
      exact hrest
    · have hstock : (turn owner quota s i).1.stock = s.stock - offer owner quota s i := rfl
      have hstays : (turn owner quota s i).2 = true := by simp [turn, h]
      rw [hstays]
      simp only [if_true, List.length_cons]
      omega

variable (owner)

/-- The rounds until the stock is exhausted or every client has left. -/
def sell (quota : ℕ) (s : Sale ι κ) (is : List ι) : Sale ι κ :=
  if 0 < s.stock ∧ is ≠ [] then sell quota (round owner quota s is).1 (round owner quota s is).2 else s
termination_by s.stock + is.length
decreasing_by
  rename_i h
  have hm := round_measure owner quota s is
  have hl : is.length ≠ 0 := fun hz => h.2 (List.length_eq_zero_iff.mp hz)
  omega

variable {owner}

/-- A round of the sale, also when no client is left. -/
theorem sell_round (hs : 0 < s.stock) (is : List ι) :
    sell owner quota s is = sell owner quota (round owner quota s is).1 (round owner quota s is).2 := by
  by_cases h : is = []
  · subst h
    rfl
  · rw [sell, if_pos ⟨hs, h⟩]

theorem sell_end {is : List ι} (h : ¬(0 < s.stock ∧ is ≠ [])) : sell owner quota s is = s := by
  rw [sell, if_neg h]

/-! ## Fairness -/

/-- The client `i` still needs something and its owner can still pay. -/
def Alive (owner : ι → κ) (s : Sale ι κ) (i : ι) : Prop := s.need i ≠ 0 ∧ s.purse (owner i) ≠ 0

theorem Alive.of_take (h : Alive owner (take owner s i n) j) : Alive owner s j := by
  have hneed := need_take_le owner s i n j
  have hpurse := purse_take_le owner s i n (owner j)
  obtain ⟨h1, h2⟩ := h
  exact ⟨by omega, by omega⟩

/-- A client that is alive after its turn got a whole quota, or the rest of the stock. -/
theorem offer_of_alive (h : Alive owner (turn owner quota s i).1 i) :
    offer owner quota s i = min quota s.stock := by
  have hneed : s.need i - offer owner quota s i ≠ 0 := by
    have hself : (take owner s i (offer owner quota s i)).need i ≠ 0 := h.1
    rwa [need_take_self] at hself
  have hpurse : s.purse (owner i) - offer owner quota s i ≠ 0 := by
    have hself : (take owner s i (offer owner quota s i)).purse (owner i) ≠ 0 := h.2
    rwa [purse_take_self] at hself
  unfold offer at hneed hpurse ⊢
  omega

/-- In round `k` of a sale that started from `s₀`, when the clients `kept` had their turn and the
clients `todo` did not: those that can still buy got `k` or `k + 1` quotas, according to whether they
had their turn; when the stock is exhausted, something between the two. -/
def Fair (owner : ι → κ) (quota k : ℕ) (s₀ s : Sale ι κ) (clients kept todo : List ι) : Prop :=
  ∀ i ∈ clients, Alive owner s i →
    s₀.got i + k * quota ≤ s.got i ∧ s.got i ≤ s₀.got i + (k + 1) * quota ∧
      (0 < s.stock → quota = 0 ∨ (i ∈ todo ∧ s.got i = s₀.got i + k * quota) ∨
        (i ∈ kept ∧ s.got i = s₀.got i + (k + 1) * quota))

variable {s₀ : Sale ι κ} {clients kept todo : List ι} {k : ℕ}

/-- One turn. -/
theorem Fair.turn (h : Fair owner quota k s₀ s clients kept (i :: todo))
    (hnd : (kept ++ i :: todo).Nodup) :
    Fair owner quota k s₀ (turn owner quota s i).1 clients
      (if (RoundRobin.turn owner quota s i).2 then kept ++ [i] else kept) todo := by
  intro j hj hal
  obtain ⟨hlo, hhi, hpos⟩ := h j hj hal.of_take
  have hquota : (k + 1) * quota = k * quota + quota := Nat.succ_mul k quota
  by_cases hji : j = i
  · subst hji
    have hoffer := offer_of_alive hal
    have hgot : (RoundRobin.turn owner quota s j).1.got j = s.got j + min quota s.stock := by
      rw [← hoffer]
      exact got_take_self
    have hstock : (RoundRobin.turn owner quota s j).1.stock = s.stock - min quota s.stock := by
      rw [← hoffer]
      rfl
    rw [hgot, hstock]
    -- before its turn the client is in `todo` and, the clients being distinct, not in `kept`
    have hkept : j ∉ kept := fun hmem =>
      (List.nodup_append.mp hnd).2.2 j hmem j List.mem_cons_self rfl
    by_cases hs : 0 < s.stock
    · rcases hpos hs with hz | ⟨-, heq⟩ | ⟨hmem, -⟩
      · have hk : k * quota = 0 := by rw [hz, Nat.mul_zero]
        exact ⟨by omega, by omega, fun _ => Or.inl hz⟩
      · refine ⟨by omega, by omega, fun hleft => ?_⟩
        by_cases hz : quota = 0
        · exact Or.inl hz
        · refine Or.inr (Or.inr ⟨?_, by omega⟩)
          have hstays : (RoundRobin.turn owner quota s j).2 = true := by
            simp only [RoundRobin.turn, decide_eq_true_eq]
            omega
          simp [hstays]
      · exact absurd hmem hkept
    · refine ⟨by omega, by omega, fun hleft => ?_⟩
      omega
  · have hgot : (RoundRobin.turn owner quota s i).1.got j = s.got j := got_take_ne hji
    rw [hgot]
    refine ⟨hlo, hhi, fun hleft => ?_⟩
    have hs : 0 < s.stock := Nat.lt_of_lt_of_le hleft (Nat.sub_le _ _)
    rcases hpos hs with hz | ⟨hmem, heq⟩ | ⟨hmem, heq⟩
    · exact Or.inl hz
    · rcases List.mem_cons.mp hmem with hmem | hmem
      · exact absurd hmem hji
      · exact Or.inr (Or.inl ⟨hmem, heq⟩)
    · refine Or.inr (Or.inr ⟨?_, heq⟩)
      split
      · exact List.mem_append_left _ hmem
      · exact hmem

/-- The clients that stay, in their order, are among those of the round. -/
theorem round_sublist (owner : ι → κ) (quota : ℕ) (s : Sale ι κ) (is : List ι) :
    List.Sublist (round owner quota s is).2 is := by
  induction is generalizing s with
  | nil => exact List.Sublist.refl _
  | cons i is ih =>
    rw [round_cons]
    by_cases h : (RoundRobin.turn owner quota s i).2 = true
    · rw [if_pos h]
      exact (ih _).cons_cons i
    · rw [if_neg h]
      exact (ih _).cons i

/-- One round. -/
theorem Fair.round : ∀ {todo kept : List ι} {s : Sale ι κ},
    Fair owner quota k s₀ s clients kept todo → (kept ++ todo).Nodup →
      Fair owner quota k s₀ (round owner quota s todo).1 clients
        (kept ++ (round owner quota s todo).2) [] := by
  intro todo
  induction todo with
  | nil =>
    intro kept s h _
    rw [show kept ++ (RoundRobin.round owner quota s []).2 = kept from List.append_nil kept]
    exact h
  | cons i todo ih =>
    intro kept s h hnd
    have hturn := h.turn hnd
    rw [round_cons]
    by_cases hstays : (RoundRobin.turn owner quota s i).2 = true
    · rw [if_pos hstays] at hturn ⊢
      have hnd' : (kept ++ [i] ++ todo).Nodup := by simpa using hnd
      have hround := ih hturn hnd'
      rwa [List.append_assoc] at hround
    · rw [if_neg hstays] at hturn ⊢
      refine ih hturn (hnd.sublist ?_)
      exact (List.sublist_cons_self i todo).append_left kept

omit [DecidableEq ι] [DecidableEq κ] in
/-- Between two rounds, the clients that stayed are those of the next round. -/
theorem Fair.next (h : Fair owner quota k s₀ s clients kept []) (hs : 0 < s.stock) :
    Fair owner quota (k + 1) s₀ s clients [] kept := by
  intro i hi hal
  obtain ⟨hlo, hhi, hpos⟩ := h i hi hal
  have hquota : (k + 1 + 1) * quota = (k + 1) * quota + quota := Nat.succ_mul _ quota
  have hquota' : (k + 1) * quota = k * quota + quota := Nat.succ_mul _ quota
  rcases hpos hs with hz | ⟨hmem, -⟩ | ⟨hmem, heq⟩
  · have hk : k * quota = 0 := by rw [hz, Nat.mul_zero]
    exact ⟨by omega, by omega, fun _ => Or.inl hz⟩
  · exact absurd hmem List.not_mem_nil
  · exact ⟨heq.ge, by omega, fun _ => Or.inr (Or.inl ⟨hmem, heq⟩)⟩

/-- At the end, the clients that could still buy got the same number of quotas, up to one. -/
theorem Fair.sell (s : Sale ι κ) (todo : List ι) :
    ∀ k, Fair owner quota k s₀ s clients [] todo → todo.Nodup →
      ∃ k', ∀ i ∈ clients, Alive owner (sell owner quota s todo) i →
        s₀.got i + k' * quota ≤ (sell owner quota s todo).got i ∧
          (sell owner quota s todo).got i ≤ s₀.got i + (k' + 1) * quota := by
  induction s, todo using sell.induct owner quota with
  | case1 s todo hcond ih =>
    intro k h hnd
    have hround : Fair owner quota k s₀ (RoundRobin.round owner quota s todo).1 clients
        (RoundRobin.round owner quota s todo).2 [] := h.round hnd
    by_cases hs : 0 < (RoundRobin.round owner quota s todo).1.stock
    · rw [RoundRobin.sell, if_pos hcond]
      exact ih (k + 1) (hround.next hs) (hnd.sublist (round_sublist owner quota s todo))
    · refine ⟨k, ?_⟩
      rw [RoundRobin.sell, if_pos hcond, sell_end fun hc => hs hc.1]
      exact fun i hi hal => ⟨(hround i hi hal).1, (hround i hi hal).2.1⟩
  | case2 s todo hcond =>
    intro k h _
    refine ⟨k, ?_⟩
    rw [sell_end hcond]
    exact fun i hi hal => ⟨(h i hi hal).1, (h i hi hal).2.1⟩

/-- Two clients that could still buy at the end got the same amount, up to one quota. -/
theorem sell_fair (hnd : clients.Nodup) (hi : i ∈ clients) (hj : j ∈ clients)
    (hali : Alive owner (sell owner quota s clients) i)
    (halj : Alive owner (sell owner quota s clients) j) :
    (sell owner quota s clients).got i + s.got j ≤
      (sell owner quota s clients).got j + s.got i + quota := by
  have hstart : Fair owner quota 0 s s clients [] clients := fun p hp _ =>
    ⟨by simp, by simp, fun _ => Or.inr (Or.inl ⟨hp, by simp⟩)⟩
  obtain ⟨k, hk⟩ := Fair.sell s clients 0 hstart hnd
  have hboth := hk i hi hali
  have hboth' := hk j hj halj
  have hquota : (k + 1) * quota = k * quota + quota := Nat.succ_mul k quota
  omega

end RoundRobin
