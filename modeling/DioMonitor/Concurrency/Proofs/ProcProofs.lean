import DioMonitor.Lib.Places
import DioMonitor.Concurrency.Proc

/-!
# Proofs: sub processes and their pipes

While the descriptors 0, 1 and 2 of the daemon are open, every handle that a sub process keeps is an end
of its own pipe, and every open end of a pipe is kept by a sub process that is not destroyed
(`descriptors_owned`): no call closes a descriptor of somebody else, and none is left open. A child runs
with the other ends of the three pipes as its standard streams and without any other end of them
(`child_streams`).
-/

namespace SubProcess

variable {s s' : State} {k j : ℕ} {p : Proc} {handles : Handles} {st st' : Stream} {side side' : Side}
  {fd : ℕ} {t : Table}

/-! ## Handles -/

theorem setHandle_self : setHandle handles st side fd st side = fd := by
  unfold setHandle
  rw [Function.update_self, Function.update_self]

theorem setHandle_ne (h : st' ≠ st ∨ side' ≠ side) :
    setHandle handles st side fd st' side' = handles st' side' := by
  unfold setHandle
  by_cases hst : st' = st
  · subst hst
    rw [Function.update_self, Function.update_of_ne (h.resolve_left fun hne => hne rfl)]
  · rw [Function.update_of_ne hst]

theorem closes_zero (side : Side) : closes side 0 = false := by
  cases side <;> rfl

/-- Above the standard descriptors, a handle is closed. -/
theorem closes_of_lt (h : 2 < fd) (side : Side) : closes side fd = true := by
  cases side
  · simp [closes]
    omega
  · simp [closes]
    omega

/-! ## What is left to do -/

/-- What is left of the life of a sub process: the pipes `new` are still to be created, and every end of a
pipe is still to be closed, unless it is closed already. -/
structure Pending (handles : Handles) (todo : List Call) (new : List Stream) (rest : List Call) :
    Prop where
  todo : todo = new.map Call.pipe ++ rest
  nodup : new.Nodup
  fresh : ∀ st ∈ new, ∀ side, handles st side = 0
  created : ∀ st, Call.pipe st ∉ rest
  close : ∀ st side, st ∈ new ∨ handles st side ≠ 0 → Call.close st side ∈ rest

theorem pending_life (methods : List Method) :
    Pending (fun _ _ => 0) (life methods) [.stdin, .stdout, .stderr]
      (methods.flatMap Method.calls ++ destroy) where
  todo := by
    unfold life construct
    rw [List.append_assoc]
    rfl
  nodup := by simp
  fresh _ _ _ := rfl
  created st hmem := by
    rcases List.mem_append.mp hmem with hmem | hmem
    · obtain ⟨m, -, hm⟩ := List.mem_flatMap.mp hmem
      cases m <;> simp [Method.calls, start, wait, closeBoth] at hm
    · simp [destroy, destroyPipe, closeBoth] at hmem
  close st side _ := by
    apply List.mem_append_right
    cases st <;> cases side <;> simp [destroy, destroyPipe, closeBoth]

/-- The next call creates a pipe. -/
theorem Pending.pipe {todo : List Call} {new : List Stream} {rest : List Call}
    (h : Pending handles (.pipe st :: todo) new rest) :
    ∃ new', new = st :: new' ∧ st ∉ new' ∧ (∀ side, handles st side = 0) ∧
      ∀ handles', (∀ st' side, st' ≠ st → handles' st' side = handles st' side) →
        Pending handles' todo new' rest := by
  cases new with
  | nil =>
    have hrest : rest = .pipe st :: todo := h.todo.symm
    exact absurd (hrest ▸ List.mem_cons_self) (h.created st)
  | cons st₀ new' =>
    obtain ⟨heq, htodo⟩ := List.cons.inj h.todo
    obtain rfl : st = st₀ := Call.pipe.inj heq
    obtain ⟨hnot, hnodup⟩ := List.nodup_cons.mp h.nodup
    refine ⟨new', rfl, hnot, h.fresh st List.mem_cons_self, fun handles' hsame => ?_⟩
    refine ⟨htodo, hnodup, fun st' hmem side => ?_, h.created, fun st' side hor => ?_⟩
    · rw [hsame st' side (ne_of_mem_of_not_mem hmem hnot)]
      exact h.fresh st' (List.mem_cons_of_mem _ hmem) side
    · by_cases hst : st' = st
      · exact h.close st' side (Or.inl (hst ▸ List.mem_cons_self))
      · rw [hsame st' side hst] at hor
        exact h.close st' side (hor.imp_left (List.mem_cons_of_mem _))

/-- The next call is of another kind. -/
theorem Pending.call {c : Call} {todo : List Call} {new : List Stream} {rest : List Call}
    (h : Pending handles (c :: todo) new rest) (hc : ∀ st, c ≠ .pipe st) :
    new = [] ∧ rest = c :: todo := by
  cases new with
  | nil => exact ⟨rfl, h.todo.symm⟩
  | cons st new' => exact absurd (List.cons.inj h.todo).1 (hc st)

theorem Pending.fork {todo : List Call} {new : List Stream} {rest : List Call}
    (h : Pending handles (.fork :: todo) new rest) : Pending handles todo [] todo := by
  obtain ⟨-, rfl⟩ := h.call (by simp)
  refine ⟨rfl, List.nodup_nil, fun _ hmem => absurd hmem List.not_mem_nil, fun st hmem => ?_,
    fun st side hor => ?_⟩
  · exact h.created st (List.mem_cons_of_mem _ hmem)
  · have hmem := h.close st side (Or.inr (hor.resolve_left List.not_mem_nil))
    exact (List.mem_cons.mp hmem).resolve_left (by simp)

theorem Pending.closed {todo : List Call} {new : List Stream} {rest : List Call}
    (h : Pending handles (.close st side :: todo) new rest) {handles' : Handles}
    (hzero : handles' st side = 0)
    (hsame : ∀ st' side', st' ≠ st ∨ side' ≠ side → handles' st' side' = handles st' side') :
    Pending handles' todo [] todo := by
  obtain ⟨-, rfl⟩ := h.call (by simp)
  refine ⟨rfl, List.nodup_nil, fun _ hmem => absurd hmem List.not_mem_nil, fun st hmem => ?_,
    fun st' side' hor => ?_⟩
  · exact h.created st (List.mem_cons_of_mem _ hmem)
  · have hne := hor.resolve_left List.not_mem_nil
    by_cases heq : st' = st ∧ side' = side
    · rw [heq.1, heq.2] at hne
      exact absurd hzero hne
    · have hor' : st' ≠ st ∨ side' ≠ side := Decidable.not_and_iff_not_or_not.mp heq
      rw [hsame st' side' hor'] at hne
      have hmem := h.close st' side' (Or.inr hne)
      refine (List.mem_cons.mp hmem).resolve_left fun hcall => ?_
      obtain ⟨h₁, h₂⟩ := Call.close.inj hcall
      exact heq ⟨h₁, h₂⟩

/-! ## The invariant -/

/-- The standard descriptors are open, every handle is an end of its own pipe, and every end of a pipe is
the handle of a sub process that is to close it. -/
structure Inv (s : State) : Prop where
  std : ∀ fd ≤ 2, s.table fd = some .other
  owned : ∀ k p st side, s.procs[k]? = some p → p.handles st side ≠ 0 →
    s.table (p.handles st side) = some (.pipe k st side)
  kept : ∀ fd k st side, s.table fd = some (.pipe k st side) →
    ∃ p, s.procs[k]? = some p ∧ p.handles st side = fd
  pending : ∀ (k : ℕ) (p : Proc), s.procs[k]? = some p →
    ∃ new rest, Pending p.handles p.todo new rest

theorem Inv.lt_of_pipe (hs : Inv s) {f : File} (hf : f ≠ .other) (h : s.table fd = some f) : 2 < fd := by
  by_contra hle
  rw [hs.std fd (by omega), Option.some.injEq] at h
  exact hf h.symm

/-- Two handles that are the same descriptor are one. -/
theorem Inv.handle_inj (hs : Inv s) {q : Proc} (hk : s.procs[k]? = some p) (hj : s.procs[j]? = some q)
    (hp : p.handles st side ≠ 0) (hq : q.handles st' side' ≠ 0)
    (heq : p.handles st side = q.handles st' side') : k = j ∧ st = st' ∧ side = side' := by
  have hpo := hs.owned k p st side hk hp
  have hqo := hs.owned j q st' side' hj hq
  rw [heq, hqo, Option.some.injEq] at hpo
  obtain ⟨h₁, h₂, h₃⟩ := File.pipe.inj hpo
  exact ⟨h₁.symm, h₂.symm, h₃.symm⟩

/-- Other descriptors come and go. -/
theorem Inv.other (hs : Inv s) {v : Option File} (hnone : ∀ k st side, v ≠ some (.pipe k st side))
    (hfd : ∀ k st side, s.table fd ≠ some (.pipe k st side)) (hstd : fd ≤ 2 → v = some .other) :
    Inv { s with table := Function.update s.table fd v } where
  std x hx := by
    show Function.update s.table fd v x = _
    by_cases hxfd : x = fd
    · subst hxfd
      rw [Function.update_self]
      exact hstd hx
    · rw [Function.update_of_ne hxfd]
      exact hs.std x hx
  owned k p st side hk hne := by
    have howned := hs.owned k p st side hk hne
    show Function.update s.table fd v _ = _
    rw [Function.update_of_ne]
    · exact howned
    · intro heq
      rw [heq] at howned
      exact hfd k st side howned
  kept x k st side hx := by
    by_cases hxfd : x = fd
    · subst hxfd
      simp only [Function.update_self] at hx
      exact absurd hx (hnone k st side)
    · simp only [Function.update_of_ne hxfd] at hx
      exact hs.kept x k st side hx
  pending := hs.pending

theorem Inv.create (hs : Inv s) (methods : List Method) :
    Inv { s with procs := s.procs ++ [{ handles := fun _ _ => 0, todo := life methods }] } where
  std := hs.std
  owned k p st side hk hne := by
    rcases Places.concat_iff.mp hk with hk | ⟨-, rfl⟩
    · exact hs.owned k p st side hk hne
    · exact absurd rfl hne
  kept fd k st side hfd := by
    obtain ⟨p, hp, heq⟩ := hs.kept fd k st side hfd
    exact ⟨p, Places.concat_iff.mpr (Or.inl hp), heq⟩
  pending k p hk := by
    rcases Places.concat_iff.mp hk with hk | ⟨-, rfl⟩
    · exact hs.pending k p hk
    · exact ⟨_, _, pending_life methods⟩

/-- A call that leaves the table and the handles alone. -/
theorem Inv.skip (hs : Inv s) (hk : s.procs[k]? = some p) {handles : Handles} {todo : List Call}
    (hhandles : ∀ st side, handles st side = p.handles st side)
    (hpending : ∃ new rest, Pending handles todo new rest) :
    Inv { s with procs := s.procs.set k { handles, todo } } where
  std := hs.std
  owned j q st side hj hne := by
    rcases (Places.set_iff hk).mp hj with ⟨rfl, rfl⟩ | ⟨-, hj⟩
    · simp only [hhandles] at hne ⊢
      exact hs.owned _ p st side hk hne
    · exact hs.owned j q st side hj hne
  kept fd j st side hfd := by
    obtain ⟨q, hq, heq⟩ := hs.kept fd j st side hfd
    by_cases hjk : j = k
    · subst hjk
      rw [hk, Option.some.injEq] at hq
      subst hq
      exact ⟨_, (Places.set_iff hk).mpr (Or.inl ⟨rfl, rfl⟩), (hhandles st side).trans heq⟩
    · exact ⟨q, (Places.set_iff hk).mpr (Or.inr ⟨hjk, hq⟩), heq⟩
  pending j q hj := by
    rcases (Places.set_iff hk).mp hj with ⟨-, rfl⟩ | ⟨-, hj⟩
    · exact hpending
    · exact hs.pending j q hj

/-- A new pipe: both numbers were free. -/
theorem Inv.piped (hs : Inv s) {todo : List Call} (hk : s.procs[k]? = some ⟨handles, .pipe st :: todo⟩)
    {i o : ℕ} (hi : s.table i = none) (ho : s.table o = none) (hio : i ≠ o) :
    Inv {
      table := Function.update (Function.update s.table i (some (.pipe k st .read))) o
        (some (.pipe k st .write))
      procs := s.procs.set k
        { handles := setHandle (setHandle handles st .read i) st .write o, todo } } := by
  obtain ⟨new, rest, hpending⟩ := hs.pending k _ hk
  obtain ⟨new', -, -, hzero, hnext⟩ := hpending.pipe
  -- the handles of this pipe are the new numbers, the others are as before
  generalize hhandles : setHandle (setHandle handles st .read i) st .write o = handles'
  have hread : handles' st .read = i := by
    rw [← hhandles, setHandle_ne (Or.inr (by simp)), setHandle_self]
  have hwrite : handles' st .write = o := by rw [← hhandles, setHandle_self]
  have hrest : ∀ st' side, st' ≠ st → handles' st' side = handles st' side := by
    intro st' side hst
    rw [← hhandles, setHandle_ne (Or.inl hst), setHandle_ne (Or.inl hst)]
  generalize htable : Function.update (Function.update s.table i (some (.pipe k st .read))) o
    (some (.pipe k st .write)) = t
  have hti : t i = some (.pipe k st .read) := by
    rw [← htable, Function.update_of_ne hio, Function.update_self]
  have hto : t o = some (.pipe k st .write) := by rw [← htable, Function.update_self]
  have hne : ∀ fd, fd ≠ i → fd ≠ o → t fd = s.table fd := by
    intro fd hfi hfo
    rw [← htable, Function.update_of_ne hfo, Function.update_of_ne hfi]
  have hold : ∀ fd f, s.table fd = some f → t fd = some f := by
    intro fd f hfd
    rw [hne fd, hfd]
    · rintro rfl
      rw [hi] at hfd
      cases hfd
    · rintro rfl
      rw [ho] at hfd
      cases hfd
  refine ⟨fun fd hfd => hold fd _ (hs.std fd hfd), fun j q st' side hj hne' => ?_,
    fun fd j st' side hfd => ?_, fun j q hj => ?_⟩
  · rcases (Places.set_iff hk).mp hj with ⟨rfl, rfl⟩ | ⟨-, hj⟩
    · by_cases hst : st' = st
      · subst hst
        cases side with
        | read =>
          show t (handles' st' .read) = _
          rw [hread]
          exact hti
        | write =>
          show t (handles' st' .write) = _
          rw [hwrite]
          exact hto
      · simp only [hrest st' side hst] at hne' ⊢
        exact hold _ _ (hs.owned _ _ st' side hk hne')
    · exact hold _ _ (hs.owned j q st' side hj hne')
  · by_cases hfo : fd = o
    · subst hfo
      obtain ⟨rfl, rfl, rfl⟩ := File.pipe.inj (Option.some.inj (hto.symm.trans hfd))
      exact ⟨_, (Places.set_iff hk).mpr (Or.inl ⟨rfl, rfl⟩), hwrite⟩
    · by_cases hfi : fd = i
      · subst hfi
        obtain ⟨rfl, rfl, rfl⟩ := File.pipe.inj (Option.some.inj (hti.symm.trans hfd))
        exact ⟨_, (Places.set_iff hk).mpr (Or.inl ⟨rfl, rfl⟩), hread⟩
      · have hfd' : s.table fd = some (.pipe j st' side) := (hne fd hfi hfo).symm.trans hfd
        obtain ⟨q, hq, heq⟩ := hs.kept fd j st' side hfd'
        by_cases hjk : j = k
        · subst hjk
          rw [hk, Option.some.injEq] at hq
          subst hq
          refine ⟨_, (Places.set_iff hk).mpr (Or.inl ⟨rfl, rfl⟩), ?_⟩
          have hst : st' ≠ st := by
            rintro rfl
            have hlt := hs.lt_of_pipe (by simp) hfd'
            rw [← heq, hzero side] at hlt
            exact absurd hlt (Nat.not_lt_zero _)
          exact (hrest st' side hst).trans heq
        · exact ⟨q, (Places.set_iff hk).mpr (Or.inr ⟨hjk, hq⟩), heq⟩
  · rcases (Places.set_iff hk).mp hj with ⟨rfl, rfl⟩ | ⟨-, hj⟩
    · exact ⟨_, _, hnext _ hrest⟩
    · exact hs.pending j q hj

/-- A handle is closed: the end of a pipe that it is disappears. -/
theorem Inv.closed (hs : Inv s) {todo : List Call}
    (hk : s.procs[k]? = some ⟨handles, .close st side :: todo⟩) (hne : handles st side ≠ 0) :
    Inv {
      table := Function.update s.table (handles st side) none
      procs := s.procs.set k { handles := setHandle handles st side 0, todo } } := by
  obtain ⟨new, rest, hpending⟩ := hs.pending k _ hk
  have hown := hs.owned k _ st side hk hne
  have hlt : 2 < handles st side := hs.lt_of_pipe (by simp) hown
  refine ⟨fun fd hfd => ?_, fun j q st' side' hj hne' => ?_, fun fd j st' side' hfd => ?_, fun j q hj => ?_⟩
  · have hfd' : fd ≠ handles st side := fun heq => absurd hfd (by omega)
    simp only [Function.update_of_ne hfd']
    exact hs.std fd hfd
  · -- a handle that stays is another descriptor
    have hother : ∀ q, s.procs[j]? = some q → q.handles st' side' ≠ 0 →
        (j ≠ k ∨ st' ≠ st ∨ side' ≠ side) →
        Function.update s.table (handles st side) none (q.handles st' side') =
          some (.pipe j st' side') := by
      intro q hq hq0 hdiff
      rw [Function.update_of_ne]
      · exact hs.owned j q st' side' hq hq0
      · intro heq
        obtain ⟨h₁, h₂, h₃⟩ := hs.handle_inj hq hk hq0 hne heq
        rcases hdiff with h | h | h
        · exact h h₁
        · exact h h₂
        · exact h h₃
    rcases (Places.set_iff hk).mp hj with ⟨rfl, rfl⟩ | ⟨hjk, hj⟩
    · by_cases hsame : st' = st ∧ side' = side
      · obtain ⟨rfl, rfl⟩ := hsame
        simp only [setHandle_self] at hne'
        exact absurd rfl hne'
      · have hdiff : st' ≠ st ∨ side' ≠ side := Decidable.not_and_iff_not_or_not.mp hsame
        simp only [setHandle_ne hdiff] at hne' ⊢
        exact hother _ hk hne' (Or.inr hdiff)
    · exact hother q hj hne' (Or.inl hjk)
  · by_cases hfd₀ : fd = handles st side
    · subst hfd₀
      simp only [Function.update_self] at hfd
      cases hfd
    · simp only [Function.update_of_ne hfd₀] at hfd
      obtain ⟨q, hq, heq⟩ := hs.kept fd j st' side' hfd
      by_cases hjk : j = k
      · subst hjk
        rw [hk, Option.some.injEq] at hq
        subst hq
        refine ⟨_, (Places.set_iff hk).mpr (Or.inl ⟨rfl, rfl⟩), ?_⟩
        have hdiff : st' ≠ st ∨ side' ≠ side := by
          by_contra hsame
          obtain ⟨rfl, rfl⟩ : st' = st ∧ side' = side := by
            constructor
            · by_contra h
              exact hsame (Or.inl h)
            · by_contra h
              exact hsame (Or.inr h)
          exact hfd₀ heq.symm
        exact (setHandle_ne hdiff).trans heq
      · exact ⟨q, (Places.set_iff hk).mpr (Or.inr ⟨hjk, hq⟩), heq⟩
  · rcases (Places.set_iff hk).mp hj with ⟨rfl, rfl⟩ | ⟨-, hj⟩
    · exact ⟨_, _, hpending.closed setHandle_self fun st' side' hdiff => setHandle_ne hdiff⟩
    · exact hs.pending j q hj

/-! ## Whole runs -/

theorem Inv.step {e : Event} (hs : Inv s) (hstep : SubProcess.step s e = some s') : Inv s' := by
  cases e with
  | create methods =>
    cases hstep
    exact hs.create methods
  | pipe k fds =>
    simp only [SubProcess.step] at hstep
    split at hstep
    · rename_i handles st todo hk
      cases fds with
      | none =>
        cases hstep
        obtain ⟨new, rest, hpending⟩ := hs.pending k _ hk
        obtain ⟨new', -, -, hzero, hnext⟩ := hpending.pipe
        refine hs.skip hk (fun st' side => ?_) ⟨new', rest, hnext _ fun st' side hst => ?_⟩
        · by_cases hst : st' = st
          · subst hst
            rw [Function.update_self]
            exact (hzero side).symm
          · rw [Function.update_of_ne hst]
        · rw [Function.update_of_ne hst]
      | some io =>
        obtain ⟨i, o⟩ := io
        obtain ⟨⟨hi, ho, hio⟩, heq⟩ := Option.ite_none_right_eq_some.mp hstep
        cases heq
        exact hs.piped hk hi ho hio
    · cases hstep
  | call k =>
    simp only [SubProcess.step] at hstep
    split at hstep
    · rename_i handles todo hk
      cases hstep
      obtain ⟨new, rest, hpending⟩ := hs.pending k _ hk
      exact hs.skip hk (fun _ _ => rfl) ⟨_, _, hpending.fork⟩
    · rename_i handles st side todo hk
      cases hstep
      obtain ⟨new, rest, hpending⟩ := hs.pending k _ hk
      by_cases hzero : handles st side = 0
      · have hkeeps : closes side (handles st side) = false := by rw [hzero, closes_zero]
        simp only [closePipe, hkeeps, Bool.false_eq_true, if_false]
        exact hs.skip hk (fun _ _ => rfl) ⟨_, _, hpending.closed hzero fun _ _ _ => rfl⟩
      · have hown := hs.owned k _ st side hk hzero
        have hcloses : closes side (handles st side) = true :=
          closes_of_lt (hs.lt_of_pipe (by simp) hown) side
        simp only [closePipe, hcloses, if_true]
        exact hs.closed hk hzero
    · cases hstep
  | opened fd =>
    obtain ⟨hfree, heq⟩ := Option.ite_none_right_eq_some.mp hstep
    cases heq
    exact hs.other (by simp) (by simp [hfree]) fun _ => rfl
  | closed fd =>
    obtain ⟨⟨hother, hlt⟩, heq⟩ := Option.ite_none_right_eq_some.mp hstep
    cases heq
    refine hs.other (by simp) (by simp [hother]) fun hle => ?_
    omega

theorem inv_init {isOpen : ℕ → Bool} (h : ∀ fd ≤ 2, isOpen fd) : Inv (init isOpen) where
  std fd hfd := if_pos (h fd hfd)
  owned k p st side hk := by cases hk
  kept fd k st side hfd := by
    unfold init at hfd
    by_cases hopen : isOpen fd
    · simp [hopen] at hfd
    · simp [hopen] at hfd
  pending k p hk := by cases hk

theorem inv_run {isOpen : ℕ → Bool} (h : ∀ fd ≤ 2, isOpen fd) {es : List Event}
    (hrun : Transition.run step (init isOpen) es = some s) : Inv s :=
  Transition.run_invariant (fun _ _ _ hs hstep => hs.step hstep) (inv_init h) hrun

/-- In every order of the calls of any number of sub processes and of the rest of the daemon, and whatever
free descriptors the system returns: the handle that a sub process is to close is an end of its own pipe,
and an end of a pipe that is open is a handle of a sub process that is still to be destroyed. -/
theorem descriptors_owned {isOpen : ℕ → Bool} (h : ∀ fd ≤ 2, isOpen fd) {es : List Event}
    (hrun : Transition.run step (init isOpen) es = some s) :
    (∀ k p st side, s.procs[k]? = some p → p.handles st side ≠ 0 →
      s.table (p.handles st side) = some (.pipe k st side)) ∧
    ∀ fd k st side, s.table fd = some (.pipe k st side) →
      ∃ p, s.procs[k]? = some p ∧ p.handles st side = fd ∧ .close st side ∈ p.todo := by
  have hs := inv_run h hrun
  refine ⟨hs.owned, fun fd k st side hfd => ?_⟩
  obtain ⟨p, hp, heq⟩ := hs.kept fd k st side hfd
  obtain ⟨new, rest, hpending⟩ := hs.pending k p hp
  have hne : p.handles st side ≠ 0 := by
    have hlt := hs.lt_of_pipe (by simp) hfd
    omega
  refine ⟨p, hp, heq, ?_⟩
  rw [hpending.todo]
  exact List.mem_append_right _ (hpending.close st side (Or.inr hne))

/-- Two sub processes, the second one created while the first one runs, on the descriptors that the first
one freed. -/
def twoRun : List Event :=
  [.create [.start, .wait], .create [.start, .wait], .pipe 0 (some (3, 4)), .pipe 0 (some (5, 6)),
    .pipe 0 (some (7, 8)), .call 0, .call 0, .call 0, .pipe 1 (some (3, 6)), .call 0, .opened 9, .call 0,
    .pipe 1 none]

theorem twoRun_some : (Transition.run step (init fun fd => fd < 3) twoRun).isSome = true := by
  decide +kernel

theorem descriptors_owned_two :
    ∃ s, Transition.run step (init fun fd => fd < 3) twoRun = some s ∧
      (∀ k p st side, s.procs[k]? = some p → p.handles st side ≠ 0 →
        s.table (p.handles st side) = some (.pipe k st side)) ∧
      ∀ fd k st side, s.table fd = some (.pipe k st side) →
        ∃ p, s.procs[k]? = some p ∧ p.handles st side = fd ∧ .close st side ∈ p.todo :=
  ⟨_, (Option.some_get twoRun_some).symm,
    descriptors_owned (by simp; omega) (Option.some_get twoRun_some).symm⟩

/-! ## The child -/

theorem dup2_eq {f : File} (h : t fd = some f) (new : ℕ) : dup2 t fd new = Function.update t new (some f) := by
  unfold dup2
  rw [h]

theorem closePipe_eq (h : 2 < fd) (side : Side) (t : Table) :
    closePipe side fd t = Function.update t fd none := by
  unfold closePipe
  rw [if_pos (closes_of_lt h side)]

/-- The table after the ends of a pipe were closed. -/
theorem closed_apply {a b x : ℕ} (ha : 2 < a) (hb : 2 < b) (t : Table) :
    closePipe .write b (closePipe .read a t) x = if x = a ∨ x = b then none else t x := by
  rw [closePipe_eq hb, closePipe_eq ha, Function.update_apply, Function.update_apply]
  by_cases hxb : x = b
  · rw [if_pos hxb, if_pos (Or.inr hxb)]
  · by_cases hxa : x = a
    · rw [if_neg hxb, if_pos hxa, if_pos (Or.inl hxa)]
    · rw [if_neg hxb, if_neg hxa, if_neg (not_or.mpr ⟨hxa, hxb⟩)]

/-- The child before it closes its handles: the standard streams are replaced. -/
theorem dup2_apply {a b c x : ℕ} {f g e : File} (ha : t a = some f) (hb : t b = some g) (hc : t c = some e)
    (hblt : 2 < b) (hclt : 2 < c) :
    dup2 (dup2 (dup2 t a 0) b 1) c 2 x =
      if x = 2 then some e else if x = 1 then some g else if x = 0 then some f else t x := by
  have hb' : Function.update t 0 (some f) b = some g := by
    rw [Function.update_of_ne (by omega)]
    exact hb
  have hc' : Function.update (Function.update t 0 (some f)) 1 (some g) c = some e := by
    rw [Function.update_of_ne (by omega), Function.update_of_ne (by omega)]
    exact hc
  rw [dup2_eq ha, dup2_eq hb', dup2_eq hc']
  simp only [Function.update_apply]

/-- The handles are closed in the child. -/
theorem child_handle (h : ∀ st side, 2 < handles st side) (st : Stream) (side : Side) :
    child handles t (handles st side) = none := by
  unfold child
  simp only
  rw [closed_apply (h _ _) (h _ _), closed_apply (h _ _) (h _ _), closed_apply (h _ _) (h _ _)]
  cases st <;> cases side <;> simp

/-- Every other descriptor is as it was before. -/
theorem child_ne (h : ∀ st side, 2 < handles st side) {x : ℕ} (hx : ∀ st side, x ≠ handles st side) :
    child handles t x =
      dup2 (dup2 (dup2 t (handles .stdin .read) 0) (handles .stdout .write) 1) (handles .stderr .write) 2 x := by
  have hnot : ∀ st, ¬ (x = handles st .read ∨ x = handles st .write) :=
    fun st hor => hor.elim (hx st .read) (hx st .write)
  unfold child
  simp only
  rw [closed_apply (h _ _) (h _ _), if_neg (hnot _), closed_apply (h _ _) (h _ _), if_neg (hnot _),
    closed_apply (h _ _) (h _ _), if_neg (hnot _)]

/-- A child that is forked while none of the handles of its sub process is closed has the read end of
`_stdin` and the write ends of `_stdout` and `_stderr` as its standard streams, no other end of these
pipes, and else the descriptors of the daemon at that moment. -/
theorem child_streams {isOpen : ℕ → Bool} (h : ∀ fd ≤ 2, isOpen fd) {es : List Event}
    (hrun : Transition.run step (init isOpen) es = some s) (hk : s.procs[k]? = some p)
    (hopen : ∀ st side, p.handles st side ≠ 0) :
    child p.handles s.table 0 = some (.pipe k .stdin .read) ∧
      child p.handles s.table 1 = some (.pipe k .stdout .write) ∧
      child p.handles s.table 2 = some (.pipe k .stderr .write) ∧
      ∀ fd, 2 < fd →
        (∀ st side, child p.handles s.table fd ≠ some (.pipe k st side)) ∧
        ((∀ st side, s.table fd ≠ some (.pipe k st side)) → child p.handles s.table fd = s.table fd) := by
  have hs := inv_run h hrun
  have hown : ∀ st side, s.table (p.handles st side) = some (.pipe k st side) :=
    fun st side => hs.owned k p st side hk (hopen st side)
  have hlt : ∀ st side, 2 < p.handles st side := fun st side => hs.lt_of_pipe (by simp) (hown st side)
  have hdup := fun x => dup2_apply (x := x) (hown .stdin .read) (hown .stdout .write) (hown .stderr .write)
    (hlt _ _) (hlt _ _)
  have hstd : ∀ x ≤ 2, ∀ st side, x ≠ p.handles st side := by
    rintro x hx st side rfl
    have := hlt st side
    omega
  refine ⟨?_, ?_, ?_, fun fd hfd => ⟨fun st side hpipe => ?_, fun hother => ?_⟩⟩
  · rw [child_ne hlt (hstd 0 (by omega)), hdup]
    rfl
  · rw [child_ne hlt (hstd 1 (by omega)), hdup]
    rfl
  · rw [child_ne hlt (hstd 2 (by omega)), hdup]
    rfl
  · by_cases hhandle : ∃ st side, fd = p.handles st side
    · obtain ⟨st', side', rfl⟩ := hhandle
      rw [child_handle hlt] at hpipe
      cases hpipe
    · rw [child_ne hlt (fun st side heq => hhandle ⟨st, side, heq⟩), hdup, if_neg (by omega),
        if_neg (by omega), if_neg (by omega)] at hpipe
      -- an end of its pipes is one of its handles
      obtain ⟨q, hq, heq⟩ := hs.kept fd k st side hpipe
      rw [hk, Option.some.injEq] at hq
      subst hq
      exact hhandle ⟨st, side, heq.symm⟩
  · have hne : ∀ st side, fd ≠ p.handles st side := by
      rintro st side rfl
      exact hother st side (hown st side)
    rw [child_ne hlt hne, hdup, if_neg (by omega), if_neg (by omega), if_neg (by omega)]

/-- One sub process, about to be forked while another one has a pipe. -/
def forkRun : List Event :=
  [.create [.start, .wait], .create [.start, .wait], .pipe 0 (some (3, 4)), .pipe 1 (some (5, 6)),
    .pipe 0 (some (7, 8)), .pipe 0 (some (9, 10))]

theorem forkRun_some : (Transition.run step (init fun fd => fd < 3) forkRun).isSome = true := by
  decide +kernel

theorem forkRun_proc :
    (((Transition.run step (init fun fd => fd < 3) forkRun).get forkRun_some).procs[0]?).isSome = true := by
  decide +kernel

theorem child_streams_fork :
    ∃ s p, Transition.run step (init fun fd => fd < 3) forkRun = some s ∧ s.procs[0]? = some p ∧
      child p.handles s.table 0 = some (.pipe 0 .stdin .read) ∧
      child p.handles s.table 1 = some (.pipe 0 .stdout .write) ∧
      child p.handles s.table 2 = some (.pipe 0 .stderr .write) ∧
      ∀ fd, 2 < fd →
        (∀ st side, child p.handles s.table fd ≠ some (.pipe 0 st side)) ∧
        ((∀ st side, s.table fd ≠ some (.pipe 0 st side)) → child p.handles s.table fd = s.table fd) := by
  refine ⟨_, _, (Option.some_get forkRun_some).symm, (Option.some_get forkRun_proc).symm, ?_⟩
  refine child_streams (by simp; omega) (Option.some_get forkRun_some).symm
    (Option.some_get forkRun_proc).symm ?_
  intro st side
  cases st <;> cases side <;> decide +kernel

end SubProcess
