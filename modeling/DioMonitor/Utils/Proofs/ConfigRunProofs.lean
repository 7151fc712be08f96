import DioMonitor.Utils.Proofs.ConfigCallProofs

/-!
# Proofs: programs on the heap and on values

A whole program does on the heap what it does on values (`value_semantics`), so the cells that are left at
its end are those of its values and of the values that an insertion has lost (`cells_counted`).
-/

namespace ConfigHeap

open Config Heap

variable {g : Piece Cell} {F : Assertion Cell} {objects : Objects} {values : List (Option Value)}
  {s : Values} {c : Call}

/-- What is known after a program that does on the heap what it does on values. -/
def AfterRun (s : Values) (cs : List Call) :
    Except Fault (Objects × List (Except Exn (Option Value))) → Assertion Cell
  | .ok r => ⨆ s', ⨆ _ : Values.run s cs = .ok (s', r.2), represents r.1 s'
  | .error e => ⨆ _ : Values.run s cs = .error e, ⊤

/-- The rest of a program, after a call that answered or threw. -/
theorem rest_represents {cs : List Call} {s' : Values} {objects' : Objects}
    {answer : Except Exn (Option Value)}
    (hrest : Triple (represents objects' s') (run objects' cs) (AfterRun s' cs))
    (hvalues : Values.run s (c :: cs) = Values.run s' cs >>= fun r => .ok (r.1, answer :: r.2)) :
    Triple (represents objects' s')
      (run objects' cs >>= fun r => pure (r.1, answer :: r.2)) (AfterRun s (c :: cs)) := by
  refine hrest.bind ?_ ?_
  · intro r
    apply Triple.iSup
    intro s''
    apply Triple.iSup
    intro hrun
    refine Triple.pure (le_iSup_of_le s'' (le_iSup_of_le ?_ le_rfl))
    rw [hvalues, hrun]
    rfl
  · intro e
    apply iSup_le
    intro hrun
    refine le_iSup_of_le ?_ le_rfl
    rw [hvalues, hrun]
    rfl

/-- A program ends where a call is undefined. -/
theorem stuck_represents {cs : List Call} {st' : State Cell} {e : Fault} (he : ∀ x, e ≠ .throws x)
    (hr : call objects c st = (.error e, st')) (hcall : Values.call s c = .error e)
    (hst' : (⊤ * F) st'.cells) :
    (AfterRun s (c :: cs) (run objects (c :: cs) st).1 * F) (run objects (c :: cs) st).2.cells := by
  have hattempt : attempt (call objects c) st = (.error e, st') := by
    unfold attempt
    rw [hr]
    cases e with
    | throws x => exact absurd rfl (he x)
    | _ => rfl
  have hvalues : Values.run s (c :: cs) = .error e := by
    rw [Values.run, hcall]
    cases e with
    | throws x => exact absurd rfl (he x)
    | _ => rfl
  rw [run, bind_error hattempt]
  exact mul_le_mul_left (le_iSup_of_le hvalues le_rfl) F st'.cells hst'

/-- A program does on the heap what it does on values. -/
theorem run_represents (objects : Objects) (s : Values) (cs : List Call) :
    Triple (represents objects s) (run objects cs) (AfterRun s cs) := by
  induction cs generalizing objects s with
  | nil => exact Triple.pure (le_iSup_of_le s (le_iSup_of_le rfl le_rfl))
  | cons c cs ih =>
    intro F st hst
    have hc := call_represents objects s c F st hst
    rcases hr : call objects c st with ⟨e | r, st'⟩
    · rw [hr] at hc
      cases e with
      | throws e =>
        obtain ⟨hcall, hst'⟩ := Assertion.guard_mul_iff.mp hc
        have hattempt : attempt (call objects c) st = (.ok (.error e), st') := by
          unfold attempt
          rw [hr]
        rw [run, bind_ok hattempt]
        have hvalues : Values.run s (c :: cs) =
            Values.run s cs >>= fun r => .ok (r.1, .error e :: r.2) := by
          rw [Values.run, hcall]
          rfl
        exact rest_represents (ih objects s) hvalues F st' hst'
      | _ =>
        obtain ⟨hcall, hst'⟩ := Assertion.guard_mul_iff.mp hc
        exact stuck_represents (by simp) hr hcall hst'
    · rw [hr] at hc
      change ((⨆ s', ⨆ _ : Values.call s c = .ok (s', r.2), represents r.1 s') * F) st'.cells at hc
      rw [Quantale.iSup_mul_distrib, Assertion.iSup_iff] at hc
      obtain ⟨s', hc⟩ := hc
      obtain ⟨hcall, hst'⟩ := Assertion.guard_mul_iff.mp hc
      have hattempt : attempt (call objects c) st = (.ok (.ok r), st') := by
        unfold attempt
        rw [hr]
      rw [run, bind_ok hattempt]
      have hvalues : Values.run s (c :: cs) =
          Values.run s' cs >>= fun x => .ok (x.1, .ok r.2 :: x.2) := by
        rw [Values.run, hcall]
        rfl
      exact rest_represents (ih r.1 s') hvalues F st' hst'

theorem run_empty (cs : List Call) :
    AfterRun ⟨[], []⟩ cs (run [] cs .empty).1 (run [] cs .empty).2.cells := by
  have hempty : (represents [] ⟨[], []⟩ * 1) (State.empty : State Cell).cells := by
    show (1 * 1 * 1 : Assertion Cell) _
    rw [one_mul, one_mul]
    exact fun _ => rfl
  have h := run_represents [] ⟨[], []⟩ cs 1 .empty hempty
  rw [mul_one] at h
  exact h

theorem run_empty_ok {cs : List Call} {s : Values} {answers : List (Except Exn (Option Value))}
    (h : Values.run ⟨[], []⟩ cs = .ok (s, answers)) :
    ∃ objects st, run [] cs .empty = (.ok (objects, answers), st) ∧ represents objects s st.cells := by
  have hafter := run_empty cs
  rcases hr : run [] cs .empty with ⟨e | r, st⟩
  · rw [hr] at hafter
    obtain ⟨herror, -⟩ := Assertion.iSup_iff.mp hafter
    cases h.symm.trans herror
  · rw [hr] at hafter
    obtain ⟨s', hafter⟩ := Assertion.iSup_iff.mp hafter
    obtain ⟨hok, hst⟩ := Assertion.iSup_iff.mp hafter
    cases h.symm.trans hok
    exact ⟨r.1, st, rfl, hst⟩

/-- A program of copies, assignments, insertions and deletions does with its objects on the heap what it
would do with values: it answers and throws the same. At its end every object owns the cells of its value,
and the only other cells are those of values that an insertion has lost. It is undefined on the heap just
when it is on values. -/
theorem value_semantics (cs : List Call) :
    (∀ s answers, Values.run ⟨[], []⟩ cs = .ok (s, answers) →
      ∃ objects st, run [] cs .empty = (.ok (objects, answers), st) ∧ represents objects s st.cells) ∧
    ∀ e, Values.run ⟨[], []⟩ cs = .error e ↔ ∃ st, run [] cs .empty = (.error e, st) := by
  refine ⟨fun s answers h => run_empty_ok h, fun e => ⟨fun h => ?_, fun h => ?_⟩⟩
  · have hafter := run_empty cs
    rcases hr : run [] cs .empty with ⟨e' | r, st⟩
    · rw [hr] at hafter
      obtain ⟨herror, -⟩ := Assertion.iSup_iff.mp hafter
      cases h.symm.trans herror
      exact ⟨st, rfl⟩
    · rw [hr] at hafter
      obtain ⟨s', hafter⟩ := Assertion.iSup_iff.mp hafter
      obtain ⟨hok, -⟩ := Assertion.iSup_iff.mp hafter
      cases h.symm.trans hok
  · obtain ⟨st, hr⟩ := h
    have hafter := run_empty cs
    rw [hr] at hafter
    obtain ⟨herror, -⟩ := Assertion.iSup_iff.mp hafter
    exact herror

/-- How many objects the values of a program take, the lost ones included. -/
def objectCount (s : Values) : ℕ :=
  ((s.values.filterMap id).map valueSize).sum + (s.lost.map valueSize).sum

theorem encard_slots (h : slots objects values g) :
    g.support.encard = (((values.filterMap id).map valueSize).sum : ℕ) := by
  induction objects generalizing values g with
  | nil =>
    cases values with
    | nil =>
      rw [Assertion.one_iff.mp h]
      simp [Piece.support]
    | cons v values => exact h.elim
  | cons o objects ih =>
    cases values with
    | nil => exact h.elim
    | cons v values =>
      cases o with
      | none =>
        cases v with
        | none =>
          have h' : (1 * slots objects values : Assertion Cell) g := h
          rw [one_mul] at h'
          have hrest := ih h'
          exact hrest
        | some v =>
          have hbot : (⊥ * slots objects values : Assertion Cell) g := h
          rw [Quantale.bot_mul] at hbot
          exact hbot.elim
      | some o =>
        cases v with
        | none =>
          have hbot : (⊥ * slots objects values : Assertion Cell) g := h
          rw [Quantale.bot_mul] at hbot
          exact hbot.elim
        | some v =>
          obtain ⟨-, h'⟩ := Assertion.guard_mul_iff.mp h
          exact encard_mul (fun f => encard_owns) (fun f => ih) h'

theorem encard_lost {vs : List Value} (h : lost vs g) :
    g.support.encard = ((vs.map valueSize).sum : ℕ) := by
  induction vs generalizing g with
  | nil =>
    rw [Assertion.one_iff.mp h]
    simp [Piece.support]
  | cons v vs ih =>
    have h' : ((⨆ p, owns v p) * lost vs) g := h
    refine encard_mul (fun f hf => ?_) (fun f => ih) h'
    obtain ⟨p, hp⟩ := Assertion.iSup_iff.mp hf
    exact encard_owns hp

/-- At the end of a program there are as many cells as its values and the lost ones take: the objects that
a copy has made are given back when it is destroyed, and only insertions over an old value leave objects
behind. -/
theorem cells_counted (cs : List Call) (s : Values) (answers : List (Except Exn (Option Value)))
    (h : Values.run ⟨[], []⟩ cs = .ok (s, answers)) :
    (run [] cs .empty).2.cells.support.encard = objectCount s := by
  obtain ⟨objects, st, hr, hst⟩ := run_empty_ok h
  rw [hr]
  exact encard_mul (fun f => encard_slots) (fun f => encard_lost) hst

/-- A dictionary, a copy of it whose value is replaced, and both destroyed: the value that was replaced is
what is left. -/
def replaceInCopy : List Call :=
  [.make .dict, .make (.long 1), .insert 0 ['a'] 1, .copy ⟨0, []⟩, .make (.long 2), .insert 2 ['a'] 3,
    .ask ⟨0, []⟩ (.getInt ['a']), .destroy 0, .destroy 2]

theorem cells_counted_replace : (run [] replaceInCopy .empty).2.cells.support.encard = 1 :=
  cells_counted replaceInCopy ⟨[none, none, none, none], [.int 1]⟩
    [.ok none, .ok none, .ok none, .ok none, .ok none, .ok none, .ok (some (.int 1)), .ok none, .ok none] rfl

end ConfigHeap
