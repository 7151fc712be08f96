import DioMonitor.Lib.Transition
import Mathlib.Data.List.Nodup
import Mathlib.Data.Option.Basic
import Mathlib.Logic.Function.Basic
import Mathlib.Logic.Relation
import Mathlib.Order.Nat

/-!
# Threads that share locks

Threads run programs of three instructions: take a lock, release it, access what it protects. A thread
that takes a lock which is not free waits. The programs are assumed to take their locks in the order of
a rank, to access only what they hold the lock of, and to end without a lock (`Ordered`).

Then no set of threads waits forever: from every unfinished thread the chain of those that wait for
each other ends at one that can go on (`progress`). And critical sections are atomic: the accesses under
a lock are those of whole sections, one after the other, each thread's in the order of its program
(`serial`).
-/

namespace Locks

variable {κ α : Type}

/-- An instruction of a thread. -/
inductive Op (κ α : Type) where
  | lock (l : κ)
  | unlock (l : κ)
  /-- An access to what the lock `l` protects. -/
  | access (l : κ) (a : α)
  deriving DecidableEq

/-- What is left of the program of each thread, the thread that holds each lock, and the accesses under
each lock so far. -/
structure State (κ α : Type) where
  threads : List (List (Op κ α))
  owner : κ → Option ℕ
  log : κ → List α

/-- The programs before their first instruction. -/
def start (programs : List (List (Op κ α))) : State κ α :=
  { threads := programs, owner := fun _ => none, log := fun _ => [] }

variable [DecidableEq κ]

/-- The thread `i` executes its next instruction; `none` when it waits, or has finished. -/
def step (s : State κ α) (i : ℕ) : Option (State κ α) :=
  match s.threads[i]? with
  | some (.lock l :: p) =>
    if s.owner l = none then
      some { s with threads := s.threads.set i p, owner := Function.update s.owner l (some i) }
    else none
  | some (.unlock l :: p) =>
    if s.owner l = some i then
      some { s with threads := s.threads.set i p, owner := Function.update s.owner l none }
    else none
  | some (.access l a :: p) =>
    some { s with threads := s.threads.set i p, log := Function.update s.log l (s.log l ++ [a]) }
  | _ => none

/-! ## Programs that take their locks in order -/

/-- The program, started with the locks `held`, takes only locks of a higher rank than those it holds,
releases and uses only locks that it holds, and ends without one. -/
def Ordered (rank : κ → ℕ) : List κ → List (Op κ α) → Prop
  | held, [] => held = []
  | held, .lock l :: p => (∀ k ∈ held, rank k < rank l) ∧ Ordered rank (l :: held) p
  | held, .unlock l :: p => l ∈ held ∧ Ordered rank (held.erase l) p
  | held, .access l _ :: p => l ∈ held ∧ Ordered rank held p

variable {rank : κ → ℕ} {held : List κ} {p q : List (Op κ α)} {s s' : State κ α} {i : ℕ}

/-- A program followed by one that starts without locks. -/
theorem Ordered.append (hp : Ordered rank held p) (hq : Ordered rank [] q) :
    Ordered rank held (p ++ q) := by
  induction p generalizing held with
  | nil =>
    have hnil : held = [] := hp
    rw [hnil]
    exact hq
  | cons op p ih =>
    cases op with
    | lock l => exact ⟨hp.1, ih hp.2⟩
    | unlock l => exact ⟨hp.1, ih hp.2⟩
    | access l a => exact ⟨hp.1, ih hp.2⟩

theorem Ordered.flatMap {β : Type} {f : β → List (Op κ α)} (h : ∀ b, Ordered rank [] (f b)) (bs : List β) :
    Ordered rank [] (bs.flatMap f) := by
  induction bs with
  | nil => exact rfl
  | cons b bs ih => exact (h b).append ih

/-- A critical section: the lock is taken, what it protects is accessed, and it is released. -/
def locked (l : κ) (as : List α) : List (Op κ α) :=
  .lock l :: (as.map (Op.access l) ++ [.unlock l])

theorem ordered_accesses {l : κ} (hl : l ∈ held) (as : List α) (h : Ordered rank held p) :
    Ordered rank held (as.map (Op.access l) ++ p) := by
  induction as with
  | nil => exact h
  | cons a as ih => exact ⟨hl, ih⟩

theorem ordered_locked (rank : κ → ℕ) (l : κ) (as : List α) : Ordered rank [] (locked l as) := by
  refine ⟨fun k hk => absurd hk List.not_mem_nil, ordered_accesses List.mem_cons_self as ?_⟩
  refine ⟨List.mem_cons_self, ?_⟩
  rw [List.erase_cons_head]
  exact rfl

/-! ## What a step can do -/

/-- A step of the thread `i`, with what enables it. -/
inductive Stepped (s : State κ α) (i : ℕ) : State κ α → Prop where
  | took {l : κ} {p : List (Op κ α)} (h : s.threads[i]? = some (.lock l :: p)) (hfree : s.owner l = none) :
      Stepped s i
        { s with threads := s.threads.set i p, owner := Function.update s.owner l (some i) }
  | released {l : κ} {p : List (Op κ α)} (h : s.threads[i]? = some (.unlock l :: p))
      (hown : s.owner l = some i) :
      Stepped s i { s with threads := s.threads.set i p, owner := Function.update s.owner l none }
  | accessed {l : κ} {a : α} {p : List (Op κ α)} (h : s.threads[i]? = some (.access l a :: p)) :
      Stepped s i
        { s with threads := s.threads.set i p, log := Function.update s.log l (s.log l ++ [a]) }

theorem step_cases (h : step s i = some s') : Stepped s i s' := by
  unfold step at h
  split at h
  · rename_i l p hp
    obtain ⟨hfree, heq⟩ := Option.ite_none_right_eq_some.mp h
    cases heq
    exact .took hp hfree
  · rename_i l p hp
    obtain ⟨hown, heq⟩ := Option.ite_none_right_eq_some.mp h
    cases heq
    exact .released hp hown
  · rename_i l a p hp
    cases h
    exact .accessed hp
  · cases h

omit [DecidableEq κ] in
/-- What is left of a program after a step. -/
theorem threads_set {j : ℕ} {p r : List (Op κ α)} {ps : List (List (Op κ α))}
    (h : (ps.set i p)[j]? = some r) : (j = i ∧ r = p) ∨ (j ≠ i ∧ ps[j]? = some r) := by
  by_cases hj : j = i
  · subst hj
    have hlen : j < ps.length := by
      have hlt := (List.getElem?_eq_some_iff.mp h).1
      rwa [List.length_set] at hlt
    rw [List.getElem?_set_self hlen, Option.some.injEq] at h
    exact Or.inl ⟨rfl, h.symm⟩
  · rw [List.getElem?_set_ne (Ne.symm hj)] at h
    exact Or.inr ⟨hj, h⟩

/-! ## The locks that a thread holds -/

/-- The locks of each thread, with what is left of its program. -/
structure Sound (rank : κ → ℕ) (s : State κ α) (held : ℕ → List κ) : Prop where
  ordered : ∀ i p, s.threads[i]? = some p → Ordered rank (held i) p
  owner : ∀ i l, l ∈ held i ↔ s.owner l = some i
  nodup : ∀ i, (held i).Nodup
  thread : ∀ i, held i ≠ [] → i < s.threads.length

theorem sound_start {programs : List (List (Op κ α))} (h : ∀ p ∈ programs, Ordered rank [] p) :
    Sound rank (start programs) fun _ => [] where
  ordered := fun _ p hp => h p (List.mem_of_getElem? hp)
  owner := fun _ _ => by simp [start]
  nodup := fun _ => List.nodup_nil
  thread := fun _ hne => absurd rfl hne

theorem Sound.step {held : ℕ → List κ} (hs : Sound rank s held) (h : step s i = some s') :
    ∃ held', Sound rank s' held' := by
  cases step_cases h with
  | @took l p hp hfree =>
    obtain ⟨hrank, hrest⟩ := hs.ordered i _ hp
    have hnot : l ∉ held i := fun hl => absurd (hrank l hl) (Nat.lt_irrefl _)
    refine ⟨Function.update held i (l :: held i), ?_, ?_, ?_, ?_⟩
    · intro j r hr
      rcases threads_set hr with ⟨rfl, rfl⟩ | ⟨hj, hr⟩
      · rw [Function.update_self]
        exact hrest
      · rw [Function.update_of_ne hj]
        exact hs.ordered j r hr
    · intro j k
      have hown := hs.owner j k
      by_cases hj : j = i
      · subst hj
        rw [Function.update_self, List.mem_cons]
        by_cases hk : k = l
        · subst hk
          simp
        · simp only [hk, false_or, Function.update_of_ne hk]
          exact hown
      · rw [Function.update_of_ne hj]
        by_cases hk : k = l
        · subst hk
          have hfree' : k ∉ held j := by rw [hown, hfree]; simp
          simp [hfree', Ne.symm hj]
        · simp only [Function.update_of_ne hk]
          exact hown
    · intro j
      by_cases hj : j = i
      · subst hj
        rw [Function.update_self]
        exact List.nodup_cons.mpr ⟨hnot, hs.nodup j⟩
      · rw [Function.update_of_ne hj]
        exact hs.nodup j
    · intro j hne
      rw [List.length_set]
      by_cases hj : j = i
      · subst hj
        exact (List.getElem?_eq_some_iff.mp hp).1
      · rw [Function.update_of_ne hj] at hne
        exact hs.thread j hne
  | @released l p hp hown =>
    obtain ⟨hmem, hrest⟩ := hs.ordered i _ hp
    refine ⟨Function.update held i ((held i).erase l), ?_, ?_, ?_, ?_⟩
    · intro j r hr
      rcases threads_set hr with ⟨rfl, rfl⟩ | ⟨hj, hr⟩
      · rw [Function.update_self]
        exact hrest
      · rw [Function.update_of_ne hj]
        exact hs.ordered j r hr
    · intro j k
      have howner := hs.owner j k
      by_cases hj : j = i
      · subst hj
        rw [Function.update_self, (hs.nodup j).mem_erase_iff]
        by_cases hk : k = l
        · subst hk
          simp
        · simp only [hk, ne_eq, not_false_eq_true, true_and, Function.update_of_ne hk]
          exact howner
      · rw [Function.update_of_ne hj]
        by_cases hk : k = l
        · subst hk
          have hother : k ∉ held j := by
            rw [howner, hown, Option.some.injEq]
            exact Ne.symm hj
          simp [hother]
        · simp only [Function.update_of_ne hk]
          exact howner
    · intro j
      by_cases hj : j = i
      · subst hj
        rw [Function.update_self]
        exact (hs.nodup j).erase l
      · rw [Function.update_of_ne hj]
        exact hs.nodup j
    · intro j hne
      rw [List.length_set]
      by_cases hj : j = i
      · subst hj
        exact (List.getElem?_eq_some_iff.mp hp).1
      · rw [Function.update_of_ne hj] at hne
        exact hs.thread j hne
  | @accessed l a p hp =>
    refine ⟨held, fun j r hr => ?_, hs.owner, hs.nodup, fun j hne => ?_⟩
    · rcases threads_set hr with ⟨rfl, rfl⟩ | ⟨-, hr⟩
      · exact (hs.ordered _ _ hp).2
      · exact hs.ordered j r hr
    · rw [List.length_set]
      exact hs.thread j hne

/-- In every state reached the locks are held as the programs say. -/
theorem sound_run {programs : List (List (Op κ α))} (h : ∀ p ∈ programs, Ordered rank [] p)
    {schedule : List ℕ} (hrun : Transition.run step (start programs) schedule = some s) :
    ∃ held, Sound rank s held :=
  Transition.run_invariant (P := fun s => ∃ held, Sound rank s held)
    (fun _ _ _ hs hstep => hs.elim fun _ hs => hs.step hstep) ⟨_, sound_start h⟩ hrun

/-! ## No deadlock -/

/-- The thread `i` waits for a lock that the thread `j` holds. -/
def WaitsFor (s : State κ α) (i j : ℕ) : Prop :=
  ∃ l p, s.threads[i]? = some (.lock l :: p) ∧ s.owner l = some j

/-- A thread that can not go on waits for another one, which holds a lock. -/
theorem Sound.waits {held : ℕ → List κ} (hs : Sound rank s held) {op : Op κ α}
    (hi : s.threads[i]? = some (op :: p)) (hstuck : Locks.step s i = none) :
    ∃ l j, op = .lock l ∧ s.owner l = some j := by
  unfold Locks.step at hstuck
  rw [hi] at hstuck
  have hordered := hs.ordered i _ hi
  cases op with
  | lock l =>
    cases howner : s.owner l with
    | none => simp [howner] at hstuck
    | some j => exact ⟨l, j, rfl, howner⟩
  | unlock l =>
    have hown : s.owner l = some i := (hs.owner i l).mp hordered.1
    simp [hown] at hstuck
  | access l a => simp at hstuck

/-- From a waiting thread on, the ranks of the locks that are waited for grow. -/
theorem Sound.chain {held : ℕ → List κ} (hs : Sound rank s held) {bound : ℕ}
    (hbound : ∀ l, rank l < bound) :
    ∀ (n : ℕ) (i : ℕ) (l : κ), s.owner l = some i → bound - rank l ≤ n →
      ∃ j, Relation.ReflTransGen (WaitsFor s) i j ∧ (Locks.step s j).isSome := by
  intro n
  induction n with
  | zero =>
    intro i l _ hn
    have := hbound l
    omega
  | succ n ih =>
    intro i l hown hn
    have hmem : l ∈ held i := (hs.owner i l).mpr hown
    have hlt : i < s.threads.length := hs.thread i (List.ne_nil_of_mem hmem)
    by_cases hcan : (Locks.step s i).isSome
    · exact ⟨i, .refl, hcan⟩
    · have hget : s.threads[i]? = some s.threads[i] := List.getElem?_eq_getElem hlt
      have hordered := hs.ordered i _ hget
      cases hprog : s.threads[i] with
      | nil =>
        rw [hprog] at hordered
        have hnil : held i = [] := hordered
        rw [hnil] at hmem
        exact absurd hmem List.not_mem_nil
      | cons op p =>
        rw [hprog] at hget hordered
        obtain ⟨k, j, rfl, hj⟩ := hs.waits hget (Option.not_isSome_iff_eq_none.mp hcan)
        -- the thread waits for a lock that ranks above the one it holds
        have hrank : rank l < rank k := hordered.1 l hmem
        have hk := hbound k
        obtain ⟨j', hchain, hgo⟩ := ih j k hj (by omega)
        exact ⟨j', .head ⟨k, p, hget, hj⟩ hchain, hgo⟩

/-- No deadlock: from every unfinished thread of a reachable state, the chain of threads that wait for
each other ends at one that can go on. -/
theorem progress {programs : List (List (Op κ α))} (h : ∀ p ∈ programs, Ordered rank [] p) {bound : ℕ}
    (hbound : ∀ l, rank l < bound) {schedule : List ℕ}
    (hrun : Transition.run step (start programs) schedule = some s) {op : Op κ α}
    (hi : s.threads[i]? = some (op :: p)) :
    ∃ j, Relation.ReflTransGen (WaitsFor s) i j ∧ (step s j).isSome := by
  obtain ⟨held, hs⟩ := sound_run h hrun
  by_cases hcan : (step s i).isSome
  · exact ⟨i, .refl, hcan⟩
  · obtain ⟨l, j, rfl, hj⟩ := hs.waits hi (Option.not_isSome_iff_eq_none.mp hcan)
    obtain ⟨j', hchain, hgo⟩ := hs.chain hbound _ j l hj (Nat.le_refl _)
    exact ⟨j', .head ⟨l, p, hi, hj⟩ hchain, hgo⟩

/-! ## Critical sections are atomic -/

/-- The accesses of each critical section of a program under the lock `l` that is still to be left;
`cur` are the accesses made in the one it is in. -/
def sections (l : κ) : List α → List (Op κ α) → List (List α)
  | _, [] => []
  | cur, .lock k :: p => sections l (if k = l then [] else cur) p
  | cur, .access k a :: p => sections l (if k = l then cur ++ [a] else cur) p
  | cur, .unlock k :: p => if k = l then cur :: sections l [] p else sections l cur p

/-- The accesses under `l` so far: the sections `done`, each with its thread, then the accesses `cur` of
the section that the lock is held for. -/
structure Serial (programs : List (List (Op κ α))) (l : κ) (s : State κ α) (done : List (ℕ × List α))
    (cur : List α) : Prop where
  log : s.log l = (done.map Prod.snd).flatten ++ cur
  free : s.owner l = none → cur = []
  length : s.threads.length = programs.length
  thread : ∀ d ∈ done, d.1 < programs.length
  program : ∀ i p₀ p, programs[i]? = some p₀ → s.threads[i]? = some p →
    sections l [] p₀ = ((done.filter fun d => d.1 = i).map Prod.snd) ++
      sections l (if s.owner l = some i then cur else []) p

variable {programs : List (List (Op κ α))} {l : κ}

theorem serial_start (programs : List (List (Op κ α))) (l : κ) :
    Serial programs l (start programs) [] [] where
  log := rfl
  free := fun _ => rfl
  length := rfl
  thread := fun _ hd => absurd hd List.not_mem_nil
  program := fun i p₀ p h₀ h => by
    have heq : p₀ = p := Option.some.inj (h₀.symm.trans h)
    simp [heq]

/-- One step: a section is opened, continued or closed. -/
theorem Serial.step {held : ℕ → List κ} (hs : Sound rank s held) {done : List (ℕ × List α)}
    {cur : List α} (hser : Serial programs l s done cur) (h : Locks.step s i = some s') :
    ∃ done' cur', Serial programs l s' done' cur' := by
  have hlen : ∀ p, (s.threads.set i p).length = programs.length :=
    fun p => List.length_set.trans hser.length
  cases step_cases h with
  | @took k p hp hfree =>
    by_cases hk : k = l
    · subst hk
      have hnil := hser.free hfree
      refine ⟨done, cur, hser.log, fun _ => hnil, hlen p, hser.thread, fun j p₀ r h₀ hr => ?_⟩
      rcases threads_set hr with ⟨rfl, rfl⟩ | ⟨hj, hr⟩
      · have hprog := hser.program j p₀ _ h₀ hp
        simpa [sections, hfree, hnil] using hprog
      · have hprog := hser.program j p₀ r h₀ hr
        simpa [hfree, hnil, Ne.symm hj] using hprog
    · have hsame : Function.update s.owner k (some i) l = s.owner l :=
        Function.update_of_ne (Ne.symm hk) _ _
      refine ⟨done, cur, hser.log, fun hfree' => hser.free (hsame ▸ hfree'), hlen p, hser.thread,
        fun j p₀ r h₀ hr => ?_⟩
      simp only [hsame]
      rcases threads_set hr with ⟨rfl, rfl⟩ | ⟨-, hr⟩
      · have hprog := hser.program j p₀ _ h₀ hp
        simpa [sections, hk] using hprog
      · exact hser.program j p₀ r h₀ hr
  | @released k p hp hown =>
    by_cases hk : k = l
    · subst hk
      refine ⟨done ++ [(i, cur)], [], ?_, fun _ => rfl, hlen p, ?_, fun j p₀ r h₀ hr => ?_⟩
      · show s.log k = _
        rw [hser.log]
        simp
      · intro d hd
        rcases List.mem_append.mp hd with hd | hd
        · exact hser.thread d hd
        · rw [List.mem_singleton.mp hd, ← hser.length]
          exact (List.getElem?_eq_some_iff.mp hp).1
      · simp only [Function.update_self]
        rcases threads_set hr with ⟨rfl, rfl⟩ | ⟨hj, hr⟩
        · have hprog := hser.program j p₀ _ h₀ hp
          simpa [sections, hown] using hprog
        · have hprog := hser.program j p₀ r h₀ hr
          simpa [hown, Ne.symm hj] using hprog
    · have hsame : Function.update s.owner k none l = s.owner l :=
        Function.update_of_ne (Ne.symm hk) _ _
      refine ⟨done, cur, hser.log, fun hfree' => hser.free (hsame ▸ hfree'), hlen p, hser.thread,
        fun j p₀ r h₀ hr => ?_⟩
      simp only [hsame]
      rcases threads_set hr with ⟨rfl, rfl⟩ | ⟨-, hr⟩
      · have hprog := hser.program j p₀ _ h₀ hp
        simpa [sections, hk] using hprog
      · exact hser.program j p₀ r h₀ hr
  | @accessed k a p hp =>
    by_cases hk : k = l
    · subst hk
      -- only the thread that holds the lock accesses what it protects
      have hown : s.owner k = some i := (hs.owner i k).mp (hs.ordered i _ hp).1
      refine ⟨done, cur ++ [a], ?_, fun hfree => ?_, hlen p, hser.thread, fun j p₀ r h₀ hr => ?_⟩
      · simp only [Function.update_self]
        rw [hser.log, List.append_assoc]
      · rw [hown] at hfree
        cases hfree
      · rcases threads_set hr with ⟨rfl, rfl⟩ | ⟨hj, hr⟩
        · have hprog := hser.program j p₀ _ h₀ hp
          simpa [sections, hown] using hprog
        · have hprog := hser.program j p₀ r h₀ hr
          simpa [hown, Ne.symm hj] using hprog
    · refine ⟨done, cur, ?_, hser.free, hlen p, hser.thread, fun j p₀ r h₀ hr => ?_⟩
      · show Function.update s.log k (s.log k ++ [a]) l = _
        rw [Function.update_of_ne (Ne.symm hk)]
        exact hser.log
      · rcases threads_set hr with ⟨rfl, rfl⟩ | ⟨-, hr⟩
        · have hprog := hser.program j p₀ _ h₀ hp
          simpa [sections, hk] using hprog
        · exact hser.program j p₀ r h₀ hr

/-- The accesses made in the section that a program is in begin a section of it. -/
theorem sections_held (h : Ordered rank held p) (hl : l ∈ held) (cur : List α) :
    ∃ sec ∈ sections l cur p, cur <+: sec := by
  induction p generalizing held cur with
  | nil =>
    have hnil : held = [] := h
    rw [hnil] at hl
    exact absurd hl List.not_mem_nil
  | cons op p ih =>
    cases op with
    | lock k =>
      have hk : k ≠ l := by
        rintro rfl
        exact absurd (h.1 k hl) (Nat.lt_irrefl _)
      rw [sections, if_neg hk]
      exact ih h.2 (List.mem_cons_of_mem _ hl) cur
    | access k a =>
      rw [sections]
      by_cases hk : k = l
      · rw [if_pos hk]
        obtain ⟨sec, hsec, hpre⟩ := ih h.2 hl (cur ++ [a])
        exact ⟨sec, hsec, (List.prefix_append cur [a]).trans hpre⟩
      · rw [if_neg hk]
        exact ih h.2 hl cur
    | unlock k =>
      rw [sections]
      by_cases hk : k = l
      · rw [if_pos hk]
        exact ⟨cur, List.mem_cons_self, List.prefix_refl cur⟩
      · rw [if_neg hk]
        exact ih h.2 ((List.mem_erase_of_ne (Ne.symm hk)).mpr hl) cur

/-- The accesses under `l` so far, in terms of the programs: whole sections of them, those of each thread
in the order of its program, and then the beginning `cur` of one. -/
structure Whole (programs : List (List (Op κ α))) (l : κ) (s : State κ α) (done : List (ℕ × List α))
    (cur : List α) : Prop where
  log : s.log l = (done.map Prod.snd).flatten ++ cur
  order : ∀ i p₀, programs[i]? = some p₀ →
    (done.filter fun d => d.1 = i).map Prod.snd <+: sections l [] p₀
  thread : ∀ d ∈ done, ∃ p₀, programs[d.1]? = some p₀ ∧ d.2 ∈ sections l [] p₀
  free : s.owner l = none → cur = []
  current : cur ≠ [] → ∃ p₀ ∈ programs, ∃ sec ∈ sections l [] p₀, cur <+: sec

theorem Serial.whole {held : ℕ → List κ} (hs : Sound rank s held) {done : List (ℕ × List α)}
    {cur : List α} (hser : Serial programs l s done cur) : Whole programs l s done cur := by
  have hrest : ∀ {i : ℕ} {p₀ : List (Op κ α)}, programs[i]? = some p₀ → ∃ p, s.threads[i]? = some p := by
    intro i p₀ h₀
    have hi : i < s.threads.length := by
      rw [hser.length]
      exact (List.getElem?_eq_some_iff.mp h₀).1
    exact ⟨_, List.getElem?_eq_getElem hi⟩
  have horder : ∀ i p₀, programs[i]? = some p₀ →
      (done.filter fun d => d.1 = i).map Prod.snd <+: sections l [] p₀ := by
    intro i p₀ h₀
    obtain ⟨p, hp⟩ := hrest h₀
    rw [hser.program i p₀ p h₀ hp]
    exact List.prefix_append _ _
  refine ⟨hser.log, horder, ?_, hser.free, ?_⟩
  · intro d hd
    obtain ⟨p₀, h₀⟩ : ∃ p₀, programs[d.1]? = some p₀ :=
      ⟨_, List.getElem?_eq_getElem (hser.thread d hd)⟩
    refine ⟨_, h₀, (horder _ _ h₀).subset ?_⟩
    exact List.mem_map.mpr ⟨d, List.mem_filter.mpr ⟨hd, by simp⟩, rfl⟩
  · intro hne
    obtain ⟨i, hown⟩ := Option.ne_none_iff_exists'.mp fun hfree => hne (hser.free hfree)
    have hmem : l ∈ held i := (hs.owner i l).mpr hown
    have hlt : i < s.threads.length := hs.thread i (List.ne_nil_of_mem hmem)
    have hp : s.threads[i]? = some s.threads[i] := List.getElem?_eq_getElem hlt
    obtain ⟨p₀, h₀⟩ : ∃ p₀, programs[i]? = some p₀ :=
      ⟨_, List.getElem?_eq_getElem (hser.length ▸ hlt)⟩
    obtain ⟨sec, hsec, hpre⟩ := sections_held (hs.ordered i _ hp) hmem cur
    refine ⟨_, List.mem_of_getElem? h₀, sec, ?_, hpre⟩
    rw [hser.program i _ _ h₀ hp, if_pos hown]
    exact List.mem_append_right _ hsec

/-- In every reachable state the accesses under a lock are those of whole critical sections, in some
order that keeps the order of each program, and then of the section the lock is held for. -/
theorem serial (h : ∀ p ∈ programs, Ordered rank [] p) (l : κ) {schedule : List ℕ}
    (hrun : Transition.run step (start programs) schedule = some s) :
    ∃ done cur, Whole programs l s done cur := by
  have hboth : (∃ held, Sound rank s held) ∧ ∃ done cur, Serial programs l s done cur := by
    refine Transition.run_invariant
      (P := fun s => (∃ held, Sound rank s held) ∧ ∃ done cur, Serial programs l s done cur)
      ?_ ⟨⟨_, sound_start h⟩, _, _, serial_start programs l⟩ hrun
    rintro s i s' ⟨⟨held, hs⟩, done, cur, hser⟩ hstep
    exact ⟨hs.step hstep, hser.step hs hstep⟩
  obtain ⟨⟨held, hs⟩, done, cur, hser⟩ := hboth
  exact ⟨done, cur, hser.whole hs⟩

/-- The sections of one program after another. -/
theorem sections_append (l : κ) (p q : List (Op κ α)) (h : Ordered rank held p) (cur : List α)
    (hcur : l ∈ held ∨ cur = []) :
    sections l cur (p ++ q) = sections l cur p ++ sections l [] q := by
  induction p generalizing held cur with
  | nil =>
    have hnil : held = [] := h
    have hnone : cur = [] := hcur.resolve_left (by rw [hnil]; exact List.not_mem_nil)
    rw [hnone]
    rfl
  | cons op p ih =>
    cases op with
    | lock k =>
      simp only [List.cons_append, sections]
      apply ih h.2
      by_cases hk : k = l
      · exact Or.inl (hk ▸ List.mem_cons_self)
      · rw [if_neg hk]
        exact hcur.imp (List.mem_cons_of_mem _) id
    | access k a =>
      simp only [List.cons_append, sections]
      apply ih h.2
      by_cases hk : k = l
      · exact Or.inl (hk ▸ h.1)
      · rw [if_neg hk]
        exact hcur
    | unlock k =>
      simp only [List.cons_append, sections]
      by_cases hk : k = l
      · rw [if_pos hk, if_pos hk, ih h.2 [] (Or.inr rfl)]
        rfl
      · rw [if_neg hk, if_neg hk]
        refine ih h.2 cur (hcur.imp (fun hl => ?_) id)
        exact (List.mem_erase_of_ne (Ne.symm hk)).mpr hl

theorem sections_flatMap {β : Type} {f : β → List (Op κ α)} (hord : ∀ b, Ordered rank [] (f b)) (l : κ)
    (bs : List β) : sections l [] (bs.flatMap f) = bs.flatMap fun b => sections l [] (f b) := by
  induction bs with
  | nil => rfl
  | cons b bs ih => rw [List.flatMap_cons, sections_append l _ _ (hord b) [] (Or.inr rfl), ih,
      List.flatMap_cons]

theorem sections_accesses (l k : κ) (as : List α) (cur : List α) (p : List (Op κ α)) :
    sections l cur (as.map (Op.access k) ++ p) = sections l (if k = l then cur ++ as else cur) p := by
  induction as generalizing cur with
  | nil => simp
  | cons a as ih =>
    simp only [List.map_cons, List.cons_append, sections]
    rw [ih]
    by_cases hk : k = l
    · simp [hk]
    · simp [hk]

/-- A critical section is the one section of its lock. -/
theorem sections_locked (l k : κ) (as : List α) :
    sections l [] (locked k as) = if k = l then [as] else [] := by
  unfold locked
  rw [sections, sections_accesses]
  by_cases hk : k = l
  · simp [sections, hk]
  · simp [sections, hk]

theorem sections_locked_append (l k : κ) (as : List α) (p : List (Op κ α)) :
    sections l [] (locked k as ++ p) = (if k = l then [as] else []) ++ sections l [] p := by
  have hord : Ordered (fun _ => 0) [] (locked k as) := ordered_locked _ k as
  rw [sections_append l _ p hord [] (Or.inr rfl), sections_locked]

/-- Every section of the program under the lock `l` is as `P` says. -/
def AllSections (l : κ) (P : List α → Prop) (p : List (Op κ α)) : Prop := ∀ sec ∈ sections l [] p, P sec

variable {P : List α → Prop}

theorem AllSections.append (hord : Ordered rank [] p) (hp : AllSections l P p) (hq : AllSections l P q) :
    AllSections l P (p ++ q) := by
  intro sec hsec
  rw [sections_append l p q hord [] (Or.inr rfl)] at hsec
  rcases List.mem_append.mp hsec with hsec | hsec
  · exact hp sec hsec
  · exact hq sec hsec

theorem AllSections.flatMap {β : Type} {f : β → List (Op κ α)} (hord : ∀ b, Ordered rank [] (f b))
    (h : ∀ b, AllSections l P (f b)) (bs : List β) : AllSections l P (bs.flatMap f) := by
  induction bs with
  | nil => exact fun sec hsec => absurd hsec List.not_mem_nil
  | cons b bs ih => exact (h b).append (hord b) ih

theorem allSections_nil (l : κ) (P : List α → Prop) : AllSections l P [] :=
  fun _ hsec => absurd hsec List.not_mem_nil

theorem allSections_locked (l : κ) {as : List α} (h : P as) : AllSections l P (locked l as) := by
  intro sec hsec
  rw [sections_locked, if_pos rfl] at hsec
  rwa [List.mem_singleton.mp hsec]

theorem allSections_locked_ne {k : κ} (hk : k ≠ l) (P : List α → Prop) (as : List α) :
    AllSections l P (locked k as) := by
  intro sec hsec
  rw [sections_locked, if_neg hk] at hsec
  cases hsec

end Locks
