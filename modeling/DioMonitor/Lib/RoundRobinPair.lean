import DioMonitor.Lib.RoundRobin

/-!
# Two sales that differ in one purse

The sale `s` and the sale `t` start alike, except that the owner `k` has a fuller purse in `t`. They
run in step until the poorer purse is empty (`Alike`). From then on the clients of `k` get nothing in
`s`, while in `t` they take away from the stock (`Dry`), until the stock of `t` is exhausted first and
only `s` goes on (`Over`). In every phase the clients of `k` got at least as much in `t` as in `s`, and
all the others at most as much.
-/

namespace RoundRobin

variable {ι κ : Type*} [DecidableEq ι] [DecidableEq κ] {owner : ι → κ} {quota : ℕ} {k : κ}
  {s t : Sale ι κ} {i : ι}

/-- The clients of `k` got at least as much in `t` as in `s`, the others at most as much. -/
def Favours (owner : ι → κ) (k : κ) (s t : Sale ι κ) : Prop :=
  ∀ i, if owner i = k then s.got i ≤ t.got i else t.got i ≤ s.got i

/-- The sales only differ in the purse of `k`, which is fuller in `t`. -/
structure Alike (k : κ) (s t : Sale ι κ) : Prop where
  got : s.got = t.got
  need : s.need = t.need
  purse : ∀ l, l ≠ k → s.purse l = t.purse l
  richer : s.purse k ≤ t.purse k
  stock : s.stock = t.stock

/-- In `s` the purse of `k` is empty. The clients of the other owners stand alike. -/
structure Dry (owner : ι → κ) (k : κ) (s t : Sale ι κ) : Prop where
  got : ∀ i, owner i ≠ k → s.got i = t.got i
  need : ∀ i, owner i ≠ k → s.need i = t.need i
  purse : ∀ l, l ≠ k → s.purse l = t.purse l
  empty : s.purse k = 0
  stock : t.stock ≤ s.stock
  favoured : ∀ i, owner i = k → s.got i ≤ t.got i

/-- In `s` the purse of `k` is empty, in `t` there is no stock. -/
structure Over (owner : ι → κ) (k : κ) (s t : Sale ι κ) : Prop where
  favours : Favours owner k s t
  empty : s.purse k = 0
  exhausted : t.stock = 0

omit [DecidableEq ι] in
theorem Dry.favours (h : Dry owner k s t) : Favours owner k s t := by
  intro i
  by_cases hk : owner i = k
  · rw [if_pos hk]
    exact h.favoured i hk
  · rw [if_neg hk]
    exact (h.got i hk).ge

omit [DecidableEq ι] in
theorem Alike.favours (h : Alike k s t) : Favours owner k s t := by
  intro i
  rw [h.got]
  split
  · exact Nat.le_refl _
  · exact Nat.le_refl _

/-! ## One turn -/

omit [DecidableEq ι] [DecidableEq κ] in
/-- With an empty purse a client gets nothing. -/
theorem offer_of_empty (h : s.purse (owner i) = 0) : offer owner quota s i = 0 := by
  unfold offer
  omega

omit [DecidableEq ι] [DecidableEq κ] in
theorem offer_of_exhausted (h : s.stock = 0) : offer owner quota s i = 0 := by
  unfold offer
  omega

/-! What is the same in two sales stays the same when the same client takes as much in both. -/

theorem got_take_congr (n : ℕ) {j : ι} (h : s.got j = t.got j) :
    (take owner s i n).got j = (take owner t i n).got j := by
  by_cases hji : j = i
  · subst hji
    rw [got_take_self, got_take_self, h]
  · rw [got_take_ne hji, got_take_ne hji, h]

theorem need_take_congr (n : ℕ) {j : ι} (h : s.need j = t.need j) :
    (take owner s i n).need j = (take owner t i n).need j := by
  by_cases hji : j = i
  · subst hji
    rw [need_take_self, need_take_self, h]
  · rw [need_take_ne hji, need_take_ne hji, h]

theorem purse_take_congr (n : ℕ) {l : κ} (h : s.purse l = t.purse l) :
    (take owner s i n).purse l = (take owner t i n).purse l := by
  by_cases hli : l = owner i
  · subst hli
    rw [purse_take_self, purse_take_self, h]
  · rw [purse_take_ne hli, purse_take_ne hli, h]

/-- A client that gets the same in both sales stays in both, or in none. -/
theorem turn_stays (h : offer owner quota s i = offer owner quota t i) :
    (turn owner quota s i).2 = (turn owner quota t i).2 := by
  simp only [turn, h]

/-- The clients of the other owners get the same in both sales. -/
theorem Alike.turn_other (quota : ℕ) (h : Alike k s t) (hi : owner i ≠ k) :
    offer owner quota s i = offer owner quota t i ∧
      Alike k (turn owner quota s i).1 (turn owner quota t i).1 := by
  have hoffer : offer owner quota s i = offer owner quota t i := by
    unfold offer
    rw [h.purse _ hi, h.need, h.stock]
  refine ⟨hoffer, ?_⟩
  unfold turn
  rw [hoffer]
  refine
    { got := by simp only [take, h.got]
      need := by simp only [take, h.need]
      purse := fun l hl => purse_take_congr _ (h.purse l hl)
      richer := ?_
      stock := by simp only [take, h.stock] }
  rw [purse_take_ne hi.symm, purse_take_ne hi.symm]
  exact h.richer

/-- A client of `k` gets the same in both sales, or the poorer purse is empty afterwards. -/
theorem Alike.turn_own (quota : ℕ) (h : Alike k s t) (hi : owner i = k) :
    (offer owner quota s i = offer owner quota t i ∧
        Alike k (turn owner quota s i).1 (turn owner quota t i).1) ∨
      Dry owner k (turn owner quota s i).1 (turn owner quota t i).1 := by
  have hne : ∀ j, owner j ≠ k → j ≠ i := fun j hj hji => hj (hji ▸ hi)
  by_cases hoffer : offer owner quota s i = offer owner quota t i
  · refine Or.inl ⟨hoffer, ?_⟩
    unfold turn
    rw [hoffer]
    have hrich := h.richer
    refine
      { got := by simp only [take, h.got]
        need := by simp only [take, h.need]
        purse := fun l hl => purse_take_congr _ (h.purse l hl)
        richer := ?_
        stock := by simp only [take, h.stock] }
    subst hi
    rw [purse_take_self, purse_take_self]
    omega
  · -- the offers differ because the poorer purse limits the one in `s`
    have hrich : s.purse (owner i) ≤ t.purse (owner i) := hi ▸ h.richer
    have hlimit : offer owner quota s i = s.purse (owner i) ∧
        offer owner quota s i ≤ offer owner quota t i := by
      unfold offer at hoffer ⊢
      rw [h.need, h.stock] at hoffer ⊢
      omega
    right
    refine
      { got := fun j hj => ?_
        need := fun j hj => ?_
        purse := fun l hl => ?_
        empty := ?_
        stock := ?_
        favoured := fun j hj => ?_ }
    · show (take owner s i _).got j = (take owner t i _).got j
      rw [got_take_ne (hne j hj), got_take_ne (hne j hj), h.got]
    · show (take owner s i _).need j = (take owner t i _).need j
      rw [need_take_ne (hne j hj), need_take_ne (hne j hj), h.need]
    · show (take owner s i _).purse l = (take owner t i _).purse l
      rw [← hi] at hl
      rw [purse_take_ne hl, purse_take_ne hl, h.purse l (hi ▸ hl)]
    · show (take owner s i _).purse k = 0
      subst hi
      rw [purse_take_self, hlimit.1, Nat.sub_self]
    · show t.stock - offer owner quota t i ≤ s.stock - offer owner quota s i
      rw [h.stock]
      omega
    · show (take owner s i _).got j ≤ (take owner t i _).got j
      by_cases hji : j = i
      · subst hji
        rw [got_take_self, got_take_self, h.got]
        omega
      · rw [got_take_ne hji, got_take_ne hji, h.got]

/-- The clients of `k` take from the stock of `t` only. -/
theorem Dry.turn_own (quota : ℕ) (h : Dry owner k s t) (hi : owner i = k) :
    Dry owner k s (turn owner quota t i).1 := by
  have hne : ∀ j, owner j ≠ k → j ≠ i := fun j hj hji => hj (hji ▸ hi)
  refine
    { got := fun j hj => ?_
      need := fun j hj => ?_
      purse := fun l hl => ?_
      empty := h.empty
      stock := Nat.le_trans (Nat.sub_le _ _) h.stock
      favoured := fun j hj => Nat.le_trans (h.favoured j hj) (got_le_take owner t i _ j) }
  · show s.got j = (take owner t i _).got j
    rw [got_take_ne (hne j hj), h.got j hj]
  · show s.need j = (take owner t i _).need j
    rw [need_take_ne (hne j hj), h.need j hj]
  · show s.purse l = (take owner t i _).purse l
    rw [purse_take_ne (hi ▸ hl), h.purse l hl]

/-- The other clients get the same in both sales, or the stock of `t` is exhausted afterwards. -/
theorem Dry.turn_other (quota : ℕ) (h : Dry owner k s t) (hi : owner i ≠ k) :
    (offer owner quota s i = offer owner quota t i ∧
        Dry owner k (turn owner quota s i).1 (turn owner quota t i).1) ∨
      Over owner k (turn owner quota s i).1 (turn owner quota t i).1 := by
  have hne : ∀ j, owner j = k → j ≠ i := fun j hj hji => hi (hji ▸ hj)
  have hstock := h.stock
  have hpurse := h.purse _ hi
  have hneed := h.need i hi
  have hgot := h.got i hi
  have hempty : (turn owner quota s i).1.purse k = 0 := by
    show (take owner s i _).purse k = 0
    rw [purse_take_ne hi.symm]
    exact h.empty
  by_cases hoffer : offer owner quota s i = offer owner quota t i
  · refine Or.inl ⟨hoffer, ?_⟩
    refine
      { got := fun j hj => ?_
        need := fun j hj => ?_
        purse := fun l hl => ?_
        empty := hempty
        stock := ?_
        favoured := fun j hj => ?_ }
    · show (take owner s i _).got j = (take owner t i _).got j
      rw [hoffer]
      exact got_take_congr _ (h.got j hj)
    · show (take owner s i _).need j = (take owner t i _).need j
      rw [hoffer]
      exact need_take_congr _ (h.need j hj)
    · show (take owner s i _).purse l = (take owner t i _).purse l
      rw [hoffer]
      exact purse_take_congr _ (h.purse l hl)
    · show t.stock - offer owner quota t i ≤ s.stock - offer owner quota s i
      omega
    · show (take owner s i _).got j ≤ (take owner t i _).got j
      rw [got_take_ne (hne j hj), got_take_ne (hne j hj)]
      exact h.favoured j hj
  · -- the offers differ because the stock limits the one in `t`
    have hlimit : offer owner quota t i = t.stock ∧
        offer owner quota t i ≤ offer owner quota s i := by
      unfold offer at hoffer ⊢
      omega
    refine Or.inr ⟨?_, hempty, ?_⟩
    · intro j
      by_cases hj : owner j = k
      · rw [if_pos hj]
        show (take owner s i _).got j ≤ (take owner t i _).got j
        rw [got_take_ne (hne j hj), got_take_ne (hne j hj)]
        exact h.favoured j hj
      · rw [if_neg hj]
        show (take owner t i _).got j ≤ (take owner s i _).got j
        by_cases hji : j = i
        · subst hji
          rw [got_take_self, got_take_self]
          omega
        · rw [got_take_ne hji, got_take_ne hji, h.got j hj]
    · show t.stock - offer owner quota t i = 0
      omega

/-! ## The poorer sale alone -/

/-- With an empty purse, only the clients of the other owners go on. -/
theorem behind_turn (quota : ℕ) (h : Favours owner k s t) (hempty : s.purse k = 0) (i : ι) :
    Favours owner k (turn owner quota s i).1 t ∧ (turn owner quota s i).1.purse k = 0 := by
  by_cases hi : owner i = k
  · subst hi
    rw [turn_of_offer (offer_of_empty hempty)]
    exact ⟨h, hempty⟩
  · refine ⟨fun j => ?_, ?_⟩
    · have hj := h j
      by_cases hjk : owner j = k
      · rw [if_pos hjk] at hj ⊢
        have hji : j ≠ i := fun hji => hi (hji ▸ hjk)
        exact Nat.le_trans (got_take_ne hji).le hj
      · rw [if_neg hjk] at hj ⊢
        exact Nat.le_trans hj (got_le_take owner s i _ j)
    · exact (purse_take_ne (Ne.symm hi)).trans hempty

theorem behind_round (quota : ℕ) (h : Favours owner k s t) (hempty : s.purse k = 0) (is : List ι) :
    Favours owner k (round owner quota s is).1 t ∧ (round owner quota s is).1.purse k = 0 := by
  induction is generalizing s with
  | nil => exact ⟨h, hempty⟩
  | cons i is ih =>
    have hturn := behind_turn quota h hempty i
    exact ih hturn.1 hturn.2

theorem behind_sell (s : Sale ι κ) (is : List ι) (h : Favours owner k s t) (hempty : s.purse k = 0) :
    Favours owner k (sell owner quota s is) t := by
  induction s, is using sell.induct owner quota with
  | case1 s is hcond ih =>
    have hround := behind_round quota h hempty is
    rw [sell, if_pos hcond]
    exact ih hround.1 hround.2
  | case2 s is hcond =>
    rw [sell_end hcond]
    exact h

/-! ## One round -/

/-- With an empty purse the clients of its owner leave and nothing else changes. -/
theorem round_filter (hempty : s.purse k = 0) (is : List ι) :
    round owner quota s is = round owner quota s (is.filter (owner · ≠ k)) := by
  induction is generalizing s with
  | nil => rfl
  | cons i is ih =>
    by_cases hi : owner i = k
    · have hdrop : (i :: is).filter (owner · ≠ k) = is.filter (owner · ≠ k) := by simp [hi]
      rw [hdrop, round_of_offer (offer_of_empty (by rw [hi]; exact hempty))]
      exact ih hempty
    · have hkeep : (i :: is).filter (owner · ≠ k) = i :: is.filter (owner · ≠ k) := by simp [hi]
      have hempty' : (turn owner quota s i).1.purse k = 0 :=
        (purse_take_ne (Ne.symm hi)).trans hempty
      rw [hkeep, round_cons, round_cons, ih hempty']

theorem round_of_exhausted (h : s.stock = 0) (is : List ι) : round owner quota s is = (s, []) := by
  induction is with
  | nil => rfl
  | cons i is ih => rw [round_of_offer (offer_of_exhausted h), ih]

omit [DecidableEq ι] in
/-- A filter sees the clients that stay in both lists, or in none. -/
theorem filter_keep {p : ι → Bool} {b : Bool} {is js : List ι} (h : is.filter p = js.filter p) :
    (if b then i :: is else is).filter p = (if b then i :: js else js).filter p := by
  cases b with
  | false => exact h
  | true => simp only [if_true, List.filter_cons, h]

omit [DecidableEq ι] in
/-- A filter does not see whether a client that it drops stays. -/
theorem filter_drop {p : ι → Bool} {b : Bool} {is : List ι} (hp : p i = false) :
    (if b then i :: is else is).filter p = is.filter p := by
  cases b with
  | false => rfl
  | true => exact List.filter_cons_of_neg (by simp [hp])

/-- A round of two sales in which the clients of the other owners stand alike. -/
theorem Dry.round (quota : ℕ) : ∀ (js : List ι) {s t : Sale ι κ}, Dry owner k s t →
    (Dry owner k (round owner quota s (js.filter (owner · ≠ k))).1 (round owner quota t js).1 ∧
        (RoundRobin.round owner quota s (js.filter (owner · ≠ k))).2.filter (owner · ≠ k) =
          (RoundRobin.round owner quota t js).2.filter (owner · ≠ k)) ∨
      Over owner k (RoundRobin.round owner quota s (js.filter (owner · ≠ k))).1
        (RoundRobin.round owner quota t js).1 := by
  intro js
  induction js with
  | nil => exact fun h => Or.inl ⟨h, rfl⟩
  | cons i js ih =>
    intro s t h
    by_cases hi : owner i = k
    · have hdrop : (i :: js).filter (owner · ≠ k) = js.filter (owner · ≠ k) := by simp [hi]
      rw [hdrop, round_cons]
      refine (ih (h.turn_own quota hi)).imp (fun hdry => ⟨hdry.1, ?_⟩) id
      exact hdry.2.trans (filter_drop (by simp [hi])).symm
    · have hkeep : (i :: js).filter (owner · ≠ k) = i :: js.filter (owner · ≠ k) := by simp [hi]
      rw [hkeep, round_cons, round_cons]
      rcases h.turn_other quota hi with ⟨hoffer, hturn⟩ | hover
      · rw [turn_stays hoffer]
        exact (ih hturn).imp (fun hdry => ⟨hdry.1, filter_keep hdry.2⟩) id
      · right
        have hround := behind_round quota hover.favours hover.empty
          (js.filter (owner · ≠ k))
        rw [round_of_exhausted hover.exhausted]
        exact ⟨hround.1, hround.2, hover.exhausted⟩

/-- How the two sales stand between two rounds: the sales and the clients that are left. -/
inductive Related (owner : ι → κ) (k : κ) : Sale ι κ × List ι → Sale ι κ × List ι → Prop
  | alike {s t is} : Alike k s t → Related owner k (s, is) (t, is)
  | dry {s t is js} : Dry owner k s t → is.filter (owner · ≠ k) = js.filter (owner · ≠ k) →
      Related owner k (s, is) (t, js)
  | soldOut {s t is js} : Over owner k s t → Related owner k (s, is) (t, js)

omit [DecidableEq ι] in
/-- The sales still stand in a relation when the same client stays in both. -/
theorem Related.keep {r u : Sale ι κ × List ι} (h : Related owner k r u) (b : Bool) (i : ι) :
    Related owner k (r.1, if b then i :: r.2 else r.2) (u.1, if b then i :: u.2 else u.2) := by
  cases h with
  | alike h => exact Related.alike h
  | dry h hfilter => exact Related.dry h (filter_keep hfilter)
  | soldOut h => exact Related.soldOut h

theorem Related.of_dry (h : Dry owner k s t) {is js : List ι}
    (hfilter : is.filter (owner · ≠ k) = js.filter (owner · ≠ k)) :
    Related owner k (round owner quota s is) (round owner quota t js) := by
  rw [round_filter h.empty, hfilter]
  rcases h.round quota js with ⟨hdry, hrest⟩ | hover
  · exact Related.dry hdry hrest
  · exact Related.soldOut hover

/-- A round of two sales that stand alike. -/
theorem Alike.round : ∀ {is : List ι} {s t : Sale ι κ}, Alike k s t →
    Related owner k (round owner quota s is) (round owner quota t is) := by
  intro is
  induction is with
  | nil => exact fun h => Related.alike h
  | cons i is ih =>
    intro s t h
    rw [round_cons, round_cons]
    by_cases hi : owner i = k
    · rcases h.turn_own quota hi with ⟨hoffer, hturn⟩ | hdry
      · rw [turn_stays hoffer]
        exact (ih hturn).keep _ i
      · have hround := hdry.round quota is
        rw [← round_filter hdry.empty] at hround
        rcases hround with ⟨hdry', hrest⟩ | hover
        · apply Related.dry hdry'
          -- the client itself is dropped by the filter, whether it stays or not
          refine (filter_drop (by simp [hi])).trans (hrest.trans ?_)
          exact (filter_drop (by simp [hi])).symm
        · exact Related.soldOut hover
    · obtain ⟨hoffer, hturn⟩ := h.turn_other quota hi
      rw [turn_stays hoffer]
      exact (ih hturn).keep _ i

theorem Related.round {r u : Sale ι κ × List ι} (h : Related owner k r u) :
    Related owner k (round owner quota r.1 r.2) (round owner quota u.1 u.2) := by
  cases h with
  | alike h => exact h.round
  | dry h hfilter => exact Related.of_dry h hfilter
  | soldOut h =>
    have hround := behind_round quota h.favours h.empty
    rw [round_of_exhausted h.exhausted]
    exact Related.soldOut ⟨(hround _).1, (hround _).2, h.exhausted⟩

/-! ## The whole sale -/

/-- The richer sale decides when the rounds that both sales share are over. -/
theorem Related.sell (t : Sale ι κ) (js : List ι) : ∀ {s : Sale ι κ} {is : List ι},
    Related owner k (s, is) (t, js) →
      Favours owner k (sell owner quota s is) (sell owner quota t js) := by
  induction t, js using sell.induct owner quota with
  | case1 t js hcond ih =>
    intro s is h
    have hs : 0 < s.stock := by
      cases h with
      | alike h => exact h.stock ▸ hcond.1
      | dry h _ => exact Nat.lt_of_lt_of_le hcond.1 h.stock
      | soldOut h => exact absurd h.exhausted (Nat.pos_iff_ne_zero.mp hcond.1)
    rw [sell_round hs, sell_round hcond.1]
    exact ih h.round
  | case2 t js hcond =>
    intro s is h
    rw [sell_end hcond]
    cases h with
    | alike h =>
      rw [sell_end (h.stock ▸ hcond)]
      exact h.favours
    | dry h _ => exact behind_sell s is h.favours h.empty
    | soldOut h => exact behind_sell s is h.favours h.empty

/-- With a fuller purse, the clients of its owner get at least as much and all the others at most as
much. -/
theorem Alike.sell (h : Alike k s t) (is : List ι) :
    Favours owner k (sell owner quota s is) (sell owner quota t is) :=
  Related.sell t is (Related.alike h)

end RoundRobin
