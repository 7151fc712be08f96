import DioMonitor.Test.Proofs.PortsProofs
import DioMonitor.Test.Schedule

/-!
# Proofs: running a scenario

A run raises no exception exactly when a command can be launched for each test, and then every test is
started and ended at its instants, and its output is kept (`run_schedule`). The steps of one VM are found in the
order of their instants among those of the others, which do not touch it.
-/

namespace Scenario

variable {ν : Type} [DecidableEq ν] {s : Connected ν} {r r' : Run ν} {vm : VMHost ν} {t : ℕ}

theorem bind_ok {ε α β : Type} {m : Except ε α} {f : α → Except ε β} {b : β} (h : (m >>= f) = .ok b) :
    ∃ a, m = .ok a ∧ f a = .ok b := by
  cases m with
  | error e => cases h
  | ok a => exact ⟨a, rfl, h⟩

/-- A fold that succeeds can be cut anywhere. -/
theorem foldlM_append_ok {ε α β : Type} {f : β → α → Except ε β} {as bs : List α} {b b' : β}
    (h : (as ++ bs).foldlM f b = .ok b') : ∃ b₁, as.foldlM f b = .ok b₁ ∧ bs.foldlM f b₁ = .ok b' := by
  rw [List.foldlM_append] at h
  exact bind_ok h

theorem foldlM_cons_ok {ε α β : Type} {f : β → α → Except ε β} {a : α} {as : List α} {b b' : β}
    (h : (a :: as).foldlM f b = .ok b') : ∃ b₁, f b a = .ok b₁ ∧ as.foldlM f b₁ = .ok b' := by
  rw [List.foldlM_cons] at h
  exact bind_ok h

/-! ## The steps in their order -/

/-- The instants of the test of a VM. -/
def instants (test : ℕ → Bench) (v : Str × VMHost ν × ℕ) : List (ℤ × ℕ × VMHost ν) :=
  ((test v.2.2).start, v.2.2, v.2.1) :: (test v.2.2).stop.toList.map fun stop => (stop, v.2.2, v.2.1)

omit [DecidableEq ν] in
theorem configureRun_eq (test : ℕ → Bench) (vms : List (Str × VMHost ν × ℕ)) :
    configureRun test vms = Assoc.groupAll (vms.flatMap (instants test)) := by
  unfold configureRun Assoc.groupAll
  rw [List.foldl_flatMap]
  congr 1
  funext toRun v
  simp only [instants, List.foldl_cons]
  cases (test v.2.2).stop <;> rfl

/-- One step, with its instant as the time, counted from `base`. -/
def tick (s : Connected ν) (base : ℤ) (r : Run ν) (x : ℤ × ℕ × VMHost ν) : Except PyError (Run ν) :=
  runTest s x.1 { r with clock := x.1 - base } x.2

theorem keepOutput_ok {event : ℕ → Event ν} {cmd : Option ℕ} (h : keepOutput s r vm event cmd = .ok r') :
    ∃ c name, cmd = some c ∧ Assoc.get s.vmNames vm = some name ∧
      r' = { r with output := Assoc.set r.output name c, log := r.log ++ [event c] } := by
  cases cmd with
  | none => cases h
  | some c =>
    obtain ⟨name, hname, h⟩ := bind_ok h
    cases h
    unfold entry at hname
    split at hname
    · cases hname
      exact ⟨c, name, rfl, by assumption, rfl⟩
    · cases hname

theorem startTest_ok (h : startTest s r vm t = .ok r') :
    (∃ l, launch s vm t = .ok (some l) ∧ r' = { r with
      launched := r.launched + 1
      running := Assoc.set r.running vm (some r.launched)
      log := r.log ++ [.launch vm r.clock r.launched l] }) ∨
    (launch s vm t = .ok none ∧ r' = { r with running := Assoc.set r.running vm none }) := by
  obtain ⟨l, hl, h⟩ := bind_ok h
  cases l with
  | none =>
    cases h
    exact .inr ⟨hl, rfl⟩
  | some l =>
    cases h
    exact .inl ⟨l, hl, rfl⟩

theorem killTest_ok (h : killTest s r vm = .ok r') :
    (Assoc.get r.running vm = none ∧ r' = r) ∨
    ∃ c name, Assoc.get r.running vm = some (some c) ∧ Assoc.get s.vmNames vm = some name ∧
      r' = { r with
        output := Assoc.set r.output name c
        log := r.log ++ [.kill vm r.clock c] } := by
  unfold killTest at h
  split at h
  · rename_i cmd hcmd
    obtain ⟨c, name, rfl, hname, rfl⟩ := keepOutput_ok h
    exact .inr ⟨c, name, hcmd, hname, rfl⟩
  · rename_i hcmd
    cases h
    exact .inl ⟨hcmd, rfl⟩

/-- What one step can do. -/
theorem runTest_ok {i : ℤ} {x : ℕ × VMHost ν} (h : runTest s i r x = .ok r') :
    (i = (s.test x.1).start ∧ startTest s r x.2 x.1 = .ok r') ∨
    (i ≠ (s.test x.1).start ∧ (s.test x.1).stop = some i ∧ killTest s r x.2 = .ok r') ∨
    (i ≠ (s.test x.1).start ∧ (s.test x.1).stop ≠ some i ∧ r' = r) := by
  unfold runTest at h
  split_ifs at h with hstart hstop
  · exact .inl ⟨hstart, h⟩
  · exact .inr (.inl ⟨hstart, hstop, h⟩)
  · cases h
    exact .inr (.inr ⟨hstart, hstop, rfl⟩)

theorem runTest_clock {i : ℤ} {x : ℕ × VMHost ν} (h : runTest s i r x = .ok r') : r'.clock = r.clock := by
  rcases runTest_ok h with ⟨-, h⟩ | ⟨-, -, h⟩ | ⟨-, -, rfl⟩
  · rcases startTest_ok h with ⟨l, -, rfl⟩ | ⟨-, rfl⟩ <;> rfl
  · rcases killTest_ok h with ⟨-, rfl⟩ | ⟨c, name, -, -, rfl⟩ <;> rfl
  · rfl

/-- The tests of one instant are the steps with this instant. -/
theorem runTests_eq {i base : ℤ} (tests : List (ℕ × VMHost ν)) (hclock : r.clock = i - base) :
    runTests s i tests r = (tests.map fun x => (i, x)).foldlM (tick s base) r := by
  unfold runTests
  induction tests generalizing r with
  | nil => rfl
  | cons x tests ih =>
    rw [List.map_cons, List.foldlM_cons, List.foldlM_cons]
    have htick : tick s base r (i, x) = runTest s i r x := by
      show runTest s i { r with clock := i - base } x = _
      rw [← hclock]
    rw [htick]
    cases hr : runTest s i r x with
    | error e => rfl
    | ok r₁ => exact ih ((runTest_clock hr).trans hclock)

theorem runTests_clock {i : ℤ} {tests : List (ℕ × VMHost ν)} (h : runTests s i tests r = .ok r') :
    r'.clock = r.clock := by
  unfold runTests at h
  induction tests generalizing r with
  | nil =>
    cases h
    rfl
  | cons x tests ih =>
    obtain ⟨r₁, hr, h⟩ := foldlM_cons_ok h
    rw [ih h, runTest_clock hr]

/-- The loop sleeps until the next instant, so it takes the steps one after the other at their times. -/
theorem runFrom_eq {toRun : List (ℤ × List (ℕ × VMHost ν))} {i base : ℤ} {is : List ℤ}
    (hne : ∀ i ∈ is, Assoc.group toRun i ≠ []) (hclock : r.clock = i - base) :
    runFrom s toRun r (i :: is) =
      ((i :: is).flatMap fun i => (Assoc.group toRun i).map fun x => (i, x)).foldlM (tick s base) r := by
  induction is generalizing i r with
  | nil => rw [List.flatMap_cons, List.flatMap_nil, List.append_nil, ← runTests_eq _ hclock, runFrom]
  | cons j is ih =>
    rw [List.flatMap_cons, List.foldlM_append, ← runTests_eq _ hclock, runFrom]
    cases hr : runTests s i (Assoc.group toRun i) r with
    | error e => rfl
    | ok r₁ =>
      have hclock₁ : r₁.clock + (j - i) = j - base := by
        rw [runTests_clock hr, hclock]
        omega
      show runFrom s toRun { r₁ with clock := r₁.clock + (j - i) } (j :: is) = List.foldlM _ r₁ _
      rw [ih (fun k hk => hne k (List.mem_cons_of_mem _ hk)) hclock₁]
      -- the first step sets the time anyway
      obtain ⟨x, xs, hx⟩ := List.exists_cons_of_ne_nil (hne j List.mem_cons_self)
      rw [List.flatMap_cons, hx, List.map_cons, List.cons_append, List.foldlM_cons, List.foldlM_cons]
      rfl

/-! ## The VMs are apart -/

/-- Each VM has its own name and its own host. -/
structure Wired (s : Connected ν) : Prop where
  names : (Assoc.keys s.vms).Nodup
  hosts : (s.vms.map fun v => v.2.1).Nodup
  named : ∀ v ∈ s.vms, Assoc.get s.vmNames v.2.1 = some v.1

theorem connectAll_foldl {toInstall : List (Str × VMHost ν × ℕ)}
    {d : List (Str × VMHost ν × ℕ) × List (VMHost ν × Str)} (hnames : (Assoc.keys d.1).Nodup)
    (hhosts : (d.1.map fun v => v.2.1).Nodup) (hnamed : ∀ v ∈ d.1, Assoc.get d.2 v.2.1 = some v.1)
    (hnodup : (toInstall.map fun v => v.2.1).Nodup)
    (hnew : ∀ v ∈ toInstall, v.2.1 ∉ d.1.map fun v => v.2.1) {d' : _ × _}
    (hd : toInstall.foldl (fun s v => (Assoc.set s.1 v.1 v.2, Assoc.set s.2 v.2.1 v.1)) d = d') :
    (Assoc.keys d'.1).Nodup ∧ (d'.1.map fun v => v.2.1).Nodup ∧ ∀ v ∈ d'.1, Assoc.get d'.2 v.2.1 = some v.1 := by
  induction toInstall generalizing d with
  | nil =>
    obtain rfl := hd
    exact ⟨hnames, hhosts, hnamed⟩
  | cons u toInstall ih =>
    obtain ⟨name, vm, t⟩ := u
    obtain ⟨hvm, hnodup⟩ := List.nodup_cons.mp hnodup
    have hfresh := hnew _ List.mem_cons_self
    refine ih (Assoc.nodup_keys_set hnames name (vm, t)) (Assoc.nodup_map_set hhosts hfresh) ?_ hnodup ?_ hd
    · intro v hv
      rcases Assoc.mem_set hv with ⟨hname, hvalue⟩ | hv
      · rw [hname, hvalue]
        exact Assoc.get_set_self _ _ _
      · have hne : v.2.1 ≠ vm := fun heq => hfresh (List.mem_map.mpr ⟨v, hv, heq⟩)
        rw [Assoc.get_set_other _ _ hne]
        exact hnamed v hv
    · intro v hv hmem
      obtain ⟨w, hw, heq⟩ := List.mem_map.mp hmem
      rcases Assoc.mem_set hw with ⟨-, hvalue⟩ | hw
      · rw [hvalue] at heq
        exact hvm (List.mem_map.mpr ⟨v, hv, heq.symm⟩)
      · exact hnew v (List.mem_cons_of_mem _ hv) (List.mem_map.mpr ⟨w, hw, heq⟩)

/-- VMs that are connected through different hosts are apart, even when a name comes twice. -/
theorem connectAll_wired {toInstall : List (Str × VMHost ν × ℕ)}
    (hnodup : (toInstall.map fun v => v.2.1).Nodup)
    (hs : (s.vms, s.vmNames) = connectAll toInstall) : Wired s := by
  obtain ⟨hnames, hhosts, hnamed⟩ := connectAll_foldl (d := ([], [])) Assoc.nodup_keys_nil List.nodup_nil
    (fun v hv => absurd hv List.not_mem_nil) hnodup (fun v _ => List.not_mem_nil) hs.symm
  exact ⟨hnames, hhosts, hnamed⟩

omit [DecidableEq ν] in
theorem mem_instants {test : ℕ → Bench} {v : Str × VMHost ν × ℕ} {x : ℤ × ℕ × VMHost ν}
    (hx : x ∈ instants test v) : x.2 = (v.2.2, v.2.1) := by
  rcases List.mem_cons.mp hx with rfl | hx
  · rfl
  · obtain ⟨stop, -, rfl⟩ := List.mem_map.mp hx
    rfl

/-- The steps of one VM among all steps. -/
theorem filter_instants {test : ℕ → Bench} {vms : List (Str × VMHost ν × ℕ)}
    (hhosts : (vms.map fun v => v.2.1).Nodup) {v : Str × VMHost ν × ℕ} (hv : v ∈ vms) :
    (vms.flatMap (instants test)).filter (fun x => x.2.2 = v.2.1) = instants test v := by
  have hself : (instants test v).filter (fun x => x.2.2 = v.2.1) = instants test v := by
    rw [List.filter_eq_self]
    intro x hx
    simp [mem_instants hx]
  have hother : ∀ u : Str × VMHost ν × ℕ, u.2.1 ≠ v.2.1 →
      (instants test u).filter (fun x => x.2.2 = v.2.1) = [] := by
    intro u hu
    rw [List.filter_eq_nil_iff]
    intro x hx
    simpa [mem_instants hx] using hu
  induction vms with
  | nil => cases hv
  | cons u vms ih =>
    obtain ⟨hnot, hnodup⟩ := List.nodup_cons.mp hhosts
    rw [List.flatMap_cons, List.filter_append]
    rcases List.mem_cons.mp hv with rfl | hv
    · have hrest : (vms.flatMap (instants test)).filter (fun x => x.2.2 = v.2.1) = [] := by
        rw [List.filter_flatMap, List.flatMap_eq_nil_iff]
        intro u hu
        exact hother u fun heq => hnot (List.mem_map.mpr ⟨u, hu, heq⟩)
      rw [hself, hrest, List.append_nil]
    · have hne : u.2.1 ≠ v.2.1 := fun heq => hnot (List.mem_map.mpr ⟨v, hv, heq.symm⟩)
      rw [hother u hne, List.nil_append, ih hnodup hv]

/-! ## What a step does to a VM -/

/-- The events of a VM. -/
def eventsOf (r : Run ν) (vm : VMHost ν) : List (Event ν) := r.log.filter fun e => e.vm = vm

/-- Between two states nothing happened to a VM. -/
structure Untouched (vm : VMHost ν) (r r' : Run ν) : Prop where
  events : eventsOf r' vm = eventsOf r vm
  running : Assoc.get r'.running vm = Assoc.get r.running vm
  launched : r.launched ≤ r'.launched

theorem Untouched.refl (vm : VMHost ν) (r : Run ν) : Untouched vm r r := ⟨rfl, rfl, le_rfl⟩

theorem Untouched.trans {r₁ r₂ r₃ : Run ν} (h : Untouched vm r₁ r₂) (h' : Untouched vm r₂ r₃) :
    Untouched vm r₁ r₃ :=
  ⟨h'.events.trans h.events, h'.running.trans h.running, h.launched.trans h'.launched⟩

theorem eventsOf_concat_other (e : Event ν) (hne : e.vm ≠ vm) (hlog : r'.log = r.log ++ [e]) :
    eventsOf r' vm = eventsOf r vm := by
  unfold eventsOf
  rw [hlog, List.filter_append]
  simp [hne]

theorem eventsOf_concat_self (e : Event ν) (he : e.vm = vm) (hlog : r'.log = r.log ++ [e]) :
    eventsOf r' vm = eventsOf r vm ++ [e] := by
  unfold eventsOf
  rw [hlog, List.filter_append]
  simp [he]

theorem tick_other {base : ℤ} {x : ℤ × ℕ × VMHost ν} (h : tick s base r x = .ok r') (hne : x.2.2 ≠ vm) :
    Untouched vm r r' := by
  rcases runTest_ok h with ⟨-, h⟩ | ⟨-, -, h⟩ | ⟨-, -, rfl⟩
  · rcases startTest_ok h with ⟨l, -, rfl⟩ | ⟨-, rfl⟩
    · exact ⟨eventsOf_concat_other (.launch x.2.2 _ _ l) hne rfl, Assoc.get_set_other _ _ hne.symm,
        Nat.le_succ _⟩
    · exact ⟨rfl, Assoc.get_set_other _ _ hne.symm, le_rfl⟩
  · rcases killTest_ok h with ⟨-, rfl⟩ | ⟨c, name, -, -, rfl⟩
    · exact ⟨rfl, rfl, le_rfl⟩
    · exact ⟨eventsOf_concat_other (.kill x.2.2 _ c) hne rfl, rfl, le_rfl⟩
  · exact ⟨rfl, rfl, le_rfl⟩

theorem steps_other {base : ℤ} {xs : List (ℤ × ℕ × VMHost ν)} (h : xs.foldlM (tick s base) r = .ok r')
    (hne : ∀ x ∈ xs, x.2.2 ≠ vm) : Untouched vm r r' := by
  induction xs generalizing r with
  | nil =>
    cases h
    exact .refl vm _
  | cons x xs ih =>
    obtain ⟨r₁, hx, h⟩ := foldlM_cons_ok h
    exact (tick_other hx (hne x List.mem_cons_self)).trans (ih h fun y hy => hne y (List.mem_cons_of_mem _ hy))

/-- When all the steps of a VM have been taken, nothing happens to it any more. -/
theorem steps_nil {base : ℤ} {xs : List (ℤ × ℕ × VMHost ν)} (h : xs.foldlM (tick s base) r = .ok r')
    (hxs : xs.filter (fun x => x.2.2 = vm) = []) : Untouched vm r r' := by
  refine steps_other h fun x hx heq => ?_
  have hnot := List.filter_eq_nil_iff.mp hxs x hx
  simp [heq] at hnot

/-- The next step of a VM is taken, after steps of others. -/
theorem steps_cons {base : ℤ} {xs rest : List (ℤ × ℕ × VMHost ν)} {x : ℤ × ℕ × VMHost ν}
    (h : xs.foldlM (tick s base) r = .ok r') (hxs : xs.filter (fun x => x.2.2 = vm) = x :: rest) :
    ∃ (r₁ r₂ : Run ν) (ys : List (ℤ × ℕ × VMHost ν)), Untouched vm r r₁ ∧ tick s base r₁ x = .ok r₂ ∧ ys.filter (fun x => x.2.2 = vm) = rest ∧
      ys.foldlM (tick s base) r₂ = .ok r' := by
  obtain ⟨before, after, rfl, hbefore, -, hafter⟩ := List.filter_eq_cons_iff.mp hxs
  obtain ⟨r₁, hr₁, h⟩ := foldlM_append_ok h
  obtain ⟨r₂, hr₂, h⟩ := foldlM_cons_ok h
  exact ⟨r₁, r₂, after, steps_other hr₁ (by simpa using hbefore), hr₂, hafter, h⟩

/-- The step at the start of a test. -/
theorem tick_start {base : ℤ} (h : tick s base r ((s.test t).start, t, vm) = .ok r') :
    (∃ l, launch s vm t = .ok (some l) ∧
      eventsOf r' vm = eventsOf r vm ++ [.launch vm ((s.test t).start - base) r.launched l] ∧
      Assoc.get r'.running vm = some (some r.launched) ∧ r'.launched = r.launched + 1) ∨
    (launch s vm t = .ok none ∧ Assoc.get r'.running vm = some none) := by
  rcases runTest_ok h with ⟨-, h⟩ | ⟨hne, -, -⟩ | ⟨hne, -, -⟩
  · rcases startTest_ok h with ⟨l, hl, rfl⟩ | ⟨hl, rfl⟩
    · exact .inl ⟨l, hl, eventsOf_concat_self (.launch vm _ _ l) rfl rfl, Assoc.get_set_self _ _ _, rfl⟩
    · exact .inr ⟨hl, Assoc.get_set_self _ _ _⟩
  · exact absurd rfl hne
  · exact absurd rfl hne

/-- The step at the end of a test. -/
theorem tick_stop {base stop : ℤ} (hstop : (s.test t).stop = some stop) (hne : stop ≠ (s.test t).start)
    (h : tick s base r (stop, t, vm) = .ok r') :
    (Assoc.get r.running vm = none ∧ Untouched vm r r') ∨
    ∃ c, Assoc.get r.running vm = some (some c) ∧
      eventsOf r' vm = eventsOf r vm ++ [.kill vm (stop - base) c] ∧
      Assoc.get r'.running vm = Assoc.get r.running vm ∧ r'.launched = r.launched := by
  rcases runTest_ok h with ⟨heq, -⟩ | ⟨-, -, h⟩ | ⟨-, hnot, -⟩
  · exact absurd heq hne
  · rcases killTest_ok h with ⟨hnone, rfl⟩ | ⟨c, name, hc, -, rfl⟩
    · exact .inl ⟨hnone, rfl, rfl, le_rfl⟩
    · exact .inr ⟨c, hc, eventsOf_concat_self (.kill vm _ c) rfl rfl, rfl, rfl⟩
  · exact absurd hstop hnot

/-! ## The commands that are waited for -/

/-- The end of a run waits for the command of each VM once, and keeps its output. -/
theorem waits_ok {d : List (VMHost ν × Option ℕ)} {name : Str} (hd : (Assoc.keys d).Nodup)
    (hapart : ∀ k ∈ Assoc.keys d, Assoc.get s.vmNames k = some name → k = vm)
    (hname : Assoc.get s.vmNames vm = some name)
    (h : d.foldlM (fun r t => keepOutput s r t.1 (.wait t.1) t.2) r = .ok r') :
    Assoc.get d vm ≠ some none ∧
      (Assoc.get d vm = none → eventsOf r' vm = eventsOf r vm ∧ Assoc.get r'.output name = Assoc.get r.output name) ∧
      ∀ c, Assoc.get d vm = some (some c) →
        eventsOf r' vm = eventsOf r vm ++ [.wait vm c] ∧ Assoc.get r'.output name = some c := by
  induction d generalizing r with
  | nil =>
    cases h
    exact ⟨by simp [Assoc.get], fun _ => ⟨rfl, rfl⟩, fun c hc => absurd hc (by simp [Assoc.get])⟩
  | cons p d ih =>
    obtain ⟨k, cmd⟩ := p
    obtain ⟨r₁, hr₁, h⟩ := foldlM_cons_ok h
    obtain ⟨hnot, hnodup⟩ := List.nodup_cons.mp hd
    obtain ⟨hsome, hsame, hwait⟩ := ih hnodup (fun k hk => hapart k (List.mem_cons_of_mem _ hk)) h
    obtain ⟨c, name', rfl, hname', rfl⟩ := keepOutput_ok hr₁
    by_cases hk : k = vm
    · subst hk
      have hlookup : Assoc.get d k = none := Assoc.get_eq_none_of_not_mem hnot
      obtain rfl : name' = name := Option.some.inj (hname'.symm.trans hname)
      obtain ⟨hevents, houtput⟩ := hsame hlookup
      rw [Assoc.get_cons_self]
      refine ⟨by simp, fun hnone => absurd hnone (by simp), fun c' hc' => ?_⟩
      obtain rfl : c = c' := by simpa using hc'
      refine ⟨hevents.trans (eventsOf_concat_self (.wait k c) rfl rfl), houtput.trans ?_⟩
      exact Assoc.get_set_self _ _ _
    · have hne : name' ≠ name := fun heq => hk (hapart k List.mem_cons_self (heq ▸ hname'))
      have hlookup : Assoc.get ((k, some c) :: d) vm = Assoc.get d vm := Assoc.get_cons_other _ _ hk
      have hevents : eventsOf ({ r with
          output := Assoc.set r.output name' c, log := r.log ++ [.wait k c] } : Run ν) vm = eventsOf r vm :=
        eventsOf_concat_other (.wait k c) hk rfl
      rw [hlookup]
      refine ⟨hsome, fun hnone => ?_, fun c' hc' => ?_⟩
      · obtain ⟨hevents', houtput⟩ := hsame hnone
        exact ⟨hevents'.trans hevents, houtput.trans (Assoc.get_set_other _ _ hne.symm)⟩
      · obtain ⟨hevents', houtput⟩ := hwait c' hc'
        exact ⟨hevents'.trans (by rw [hevents]), houtput⟩

/-- The commands that are running are those of the VMs of the steps. -/
theorem steps_keys {base : ℤ} {xs : List (ℤ × ℕ × VMHost ν)} {K : VMHost ν → Prop}
    (h : xs.foldlM (tick s base) r = .ok r') (hxs : ∀ x ∈ xs, K x.2.2) (hnodup : (Assoc.keys r.running).Nodup)
    (hkeys : ∀ k ∈ Assoc.keys r.running, K k) :
    (Assoc.keys r'.running).Nodup ∧ ∀ k ∈ Assoc.keys r'.running, K k := by
  induction xs generalizing r with
  | nil =>
    cases h
    exact ⟨hnodup, hkeys⟩
  | cons x xs ih =>
    obtain ⟨r₁, hx, h⟩ := foldlM_cons_ok h
    have hset : ∀ cmd : Option ℕ, ∀ k ∈ Assoc.keys (Assoc.set r.running x.2.2 cmd), K k := by
      intro cmd k hk
      rcases Assoc.mem_keys_set.mp hk with rfl | hk
      · exact hxs x List.mem_cons_self
      · exact hkeys k hk
    have hone : (Assoc.keys r₁.running).Nodup ∧ ∀ k ∈ Assoc.keys r₁.running, K k := by
      rcases runTest_ok hx with ⟨-, hx⟩ | ⟨-, -, hx⟩ | ⟨-, -, rfl⟩
      · rcases startTest_ok hx with ⟨l, -, rfl⟩ | ⟨-, rfl⟩
        · exact ⟨Assoc.nodup_keys_set hnodup _ _, hset _⟩
        · exact ⟨Assoc.nodup_keys_set hnodup _ _, hset _⟩
      · rcases killTest_ok hx with ⟨-, rfl⟩ | ⟨c, name, -, -, rfl⟩
        · exact ⟨hnodup, hkeys⟩
        · exact ⟨hnodup, hkeys⟩
      · exact ⟨hnodup, hkeys⟩
    exact ih h (fun y hy => hxs y (List.mem_cons_of_mem _ hy)) hone.1 hone.2

/-! ## The whole run -/

/-- The steps of a run in their order. -/
def steps (s : Connected ν) : List (ℤ × ℕ × VMHost ν) :=
  Assoc.inOrder ((Assoc.keys (configureRun s.test s.vms)).mergeSort (· ≤ ·)) (s.vms.flatMap (instants s.test))

/-- The instants of a run. -/
def Instant (s : Connected ν) (i : ℤ) : Prop := ∃ v ∈ s.vms, ∃ x ∈ instants s.test v, x.1 = i

omit [DecidableEq ν] in
theorem mem_sorted {i : ℤ} :
    i ∈ (Assoc.keys (configureRun s.test s.vms)).mergeSort (· ≤ ·) ↔ Instant s i := by
  rw [List.mem_mergeSort, configureRun_eq, Assoc.mem_keys_groupAll]
  simp only [List.mem_map, List.mem_flatMap, Instant]
  constructor
  · rintro ⟨x, ⟨v, hv, hx⟩, rfl⟩
    exact ⟨v, hv, x, hx, rfl⟩
  · rintro ⟨v, hv, x, hx, rfl⟩
    exact ⟨x, ⟨v, hv, hx⟩, rfl⟩

omit [DecidableEq ν] in
theorem sorted_lt (s : Connected ν) :
    ((Assoc.keys (configureRun s.test s.vms)).mergeSort (· ≤ ·)).Pairwise (· < ·) := by
  have hsorted : ((Assoc.keys (configureRun s.test s.vms)).mergeSort (· ≤ ·)).Pairwise
      fun a b => decide (a ≤ b) = true :=
    List.pairwise_mergeSort (fun a b c hab hbc => by simp only [decide_eq_true_eq] at *; omega)
      (fun a b => by simp only [Bool.or_eq_true, decide_eq_true_eq]; omega) _
  have hnodup : ((Assoc.keys (configureRun s.test s.vms)).mergeSort (· ≤ ·)).Nodup := by
    rw [(List.mergeSort_perm _ _).nodup_iff, configureRun_eq]
    exact Assoc.nodup_keys_groupAll _
  refine (hsorted.and hnodup).imp ?_
  rintro a b ⟨hle, hne⟩
  exact lt_of_le_of_ne (by simpa using hle) hne

/-- A run takes the steps in their order, each at its instant. -/
theorem run_eq {base : ℤ} (hbase : IsLeast {i | Instant s i} base) :
    run s = ((steps s).foldlM (tick s base) {} >>= waitAll s) := by
  have hgroup : ∀ i, (Assoc.group (configureRun s.test s.vms) i).map (fun x => (i, x)) =
      (s.vms.flatMap (instants s.test)).filter fun x => x.1 = i := by
    intro i
    rw [configureRun_eq, Assoc.group_groupAll, List.map_map]
    refine (List.map_congr_left ?_).trans (List.map_id _)
    intro x hx
    have hi : x.1 = i := by simpa using (List.mem_filter.mp hx).2
    exact Prod.ext hi.symm rfl
  have hne : ∀ i, Instant s i → Assoc.group (configureRun s.test s.vms) i ≠ [] := by
    rintro i ⟨v, hv, x, hx, rfl⟩ hnil
    have hempty := hgroup x.1
    rw [hnil, List.map_nil] at hempty
    have hmem := List.filter_eq_nil_iff.mp hempty.symm x (List.mem_flatMap.mpr ⟨v, hv, hx⟩)
    simp at hmem
  have hsorted := sorted_lt s
  have hmem := fun i => mem_sorted (s := s) (i := i)
  unfold run steps
  simp only
  generalize (Assoc.keys (configureRun s.test s.vms)).mergeSort (· ≤ ·) = ks at hsorted hmem
  cases ks with
  | nil => exact absurd ((hmem base).mpr hbase.1) List.not_mem_nil
  | cons i is =>
    -- the loop begins with the first instant
    have hfirst : i = base := by
      have hle : base ≤ i := hbase.2 ((hmem i).mp List.mem_cons_self)
      rcases List.mem_cons.mp ((hmem base).mpr hbase.1) with heq | hmem
      · exact heq.symm
      · have hlt := (List.pairwise_cons.mp hsorted).1 base hmem
        omega
    have hclock : ({} : Run ν).clock = i - base := by simp [hfirst]
    rw [runFrom_eq (fun j hj => hne j ((hmem j).mp (List.mem_cons_of_mem _ hj))) hclock]
    unfold Assoc.inOrder
    congr 2
    congr 1
    funext j
    exact hgroup j

/-! ## The commands of one VM -/

variable {base : ℤ} {v : Str × VMHost ν × ℕ}

/-- What happens to a VM until the end of the last instant, when its last command is `c`: it is started at
the start of its test, and killed at the end if the end comes later. When the test ends at its start it is
started twice, and its first command is lost. -/
def Played (s : Connected ν) (base : ℤ) (v : Str × VMHost ν × ℕ) (l : Launch) (c : ℕ)
    (events : List (Event ν)) : Prop :=
  let test := s.test v.2.2
  let started (c : ℕ) : Event ν := .launch v.2.1 (test.start - base) c l
  if test.stop = some test.start then ∃ c₀, c₀ ≠ c ∧ events = [started c₀, started c]
  else events = started c ::
    (test.stop.toList.filter fun stop => test.start < stop).map fun stop => .kill v.2.1 (stop - base) c

/-- The VM has no command at the end of the last instant, or the last one of its test. -/
def Final (s : Connected ν) (base : ℤ) (v : Str × VMHost ν × ℕ) (r : Run ν) : Prop :=
  (∃ l c, launch s v.2.1 v.2.2 = .ok (some l) ∧ Assoc.get r.running v.2.1 = some (some c) ∧
    Played s base v l c (eventsOf r v.2.1)) ∨
  Assoc.get r.running v.2.1 = some none

/-- The steps of a VM in their order. -/
theorem filter_steps (hw : Wired s) (hv : v ∈ s.vms) :
    (steps s).filter (fun x => x.2.2 = v.2.1) =
      Assoc.inOrder ((Assoc.keys (configureRun s.test s.vms)).mergeSort (· ≤ ·)) (instants s.test v) := by
  rw [steps, Assoc.filter_inOrder, filter_instants hw.hosts hv]

omit [DecidableEq ν] in
theorem instants_other {test : ℕ → Bench} {i : ℤ} (hstart : i ≠ (test v.2.2).start)
    (hstop : ∀ stop, (test v.2.2).stop = some stop → i ≠ stop) :
    (instants test v).filter (fun x => x.1 = i) = [] := by
  rw [List.filter_eq_nil_iff]
  intro x hx
  rcases List.mem_cons.mp hx with rfl | hx
  · simpa using hstart.symm
  · obtain ⟨stop, hmem, rfl⟩ := List.mem_map.mp hx
    simpa using (hstop stop (by simpa using hmem)).symm

/-- A VM is started for the first time. -/
theorem first_start {r₀ : Run ν} (hr₀ : Untouched vm {} r₀)
    (h : tick s base r₀ ((s.test t).start, t, vm) = .ok r) :
    (∃ l c, launch s vm t = .ok (some l) ∧ Assoc.get r.running vm = some (some c) ∧
      eventsOf r vm = [.launch vm ((s.test t).start - base) c l] ∧ c < r.launched) ∨
    (launch s vm t = .ok none ∧ Assoc.get r.running vm = some none) := by
  rcases tick_start h with ⟨l, hl, hevents, hget, hlaunched⟩ | hnone
  · rw [hr₀.events] at hevents
    exact .inl ⟨l, r₀.launched, hl, hget, hevents, by omega⟩
  · exact .inr hnone

theorem final_of_untouched {r₀ : Run ν} (hr : Untouched v.2.1 r₀ r) (h : Final s base v r₀) :
    Final s base v r := by
  rcases h with ⟨l, c, hl, hget, hplayed⟩ | hnone
  · exact .inl ⟨l, c, hl, hr.running.trans hget, by rwa [hr.events]⟩
  · exact .inr (hr.running.trans hnone)

/-- The steps of a VM leave it started, whatever the others do between them. -/
theorem final_of_steps (hw : Wired s) (hv : v ∈ s.vms) (h : (steps s).foldlM (tick s base) {} = .ok r) :
    Final s base v r := by
  obtain ⟨name, vm, t⟩ := v
  have hfilter := filter_steps hw hv
  have hsorted := sorted_lt s
  have hstartmem := mem_sorted.mpr ⟨_, hv, _, List.mem_cons_self, rfl⟩
  simp only at hfilter hstartmem
  cases hstop : (s.test t).stop with
  | none =>
    have hlist : (steps s).filter (fun x => x.2.2 = vm) = [((s.test t).start, t, vm)] := by
      rw [hfilter, Assoc.inOrder_one (hsorted.imp ne_of_lt) hstartmem
        fun i _ hne => instants_other hne (by simp [hstop])]
      simp [instants, hstop]
    obtain ⟨r₁, r₂, ys, hr₁, hstart, hys, hrest⟩ := steps_cons h hlist
    refine final_of_untouched (steps_nil hrest hys) ?_
    rcases first_start hr₁ hstart with ⟨l, c, hl, hget, hevents, -⟩ | ⟨-, hnone⟩
    · exact .inl ⟨l, c, hl, hget, by simpa [Played, hstop] using hevents⟩
    · exact .inr hnone
  | some stop =>
    have hstopmem := mem_sorted.mpr ⟨_, hv, (stop, t, vm), by simp [instants, hstop], rfl⟩
    have hother : ∀ i, i ≠ (s.test t).start → i ≠ stop →
        (instants s.test (name, vm, t)).filter (fun x => x.1 = i) = [] := by
      intro i hstart hne
      refine instants_other hstart fun stop' hstop' => ?_
      cases hstop.symm.trans hstop'
      exact hne
    rcases lt_trichotomy (s.test t).start stop with hlt | heq | hgt
    · -- the test ends later
      have hlist : (steps s).filter (fun x => x.2.2 = vm) = [((s.test t).start, t, vm), (stop, t, vm)] := by
        rw [hfilter, Assoc.inOrder_two hsorted hstartmem hstopmem hlt fun i _ => hother i]
        simp [instants, hstop, hlt.ne, hlt.ne']
      obtain ⟨r₁, r₂, ys, hr₁, hstart, hys, hrest⟩ := steps_cons h hlist
      obtain ⟨r₃, r₄, zs, hr₃, hkill, hzs, hrest⟩ := steps_cons hrest hys
      refine final_of_untouched (steps_nil hrest hzs) ?_
      have hkill := tick_stop hstop hlt.ne' hkill
      rcases first_start hr₁ hstart with ⟨l, c, hl, hget, hevents, -⟩ | ⟨-, hnone⟩
      · rcases hkill with ⟨hnone, -⟩ | ⟨c', hc', hevents', hget', -⟩
        · cases (hnone.symm.trans hr₃.running).trans hget
        · cases (hc'.symm.trans hr₃.running).trans hget
          rw [hr₃.events, hevents] at hevents'
          refine .inl ⟨l, c, hl, hget'.trans hc', ?_⟩
          simpa [Played, hstop, hlt, hlt.ne'] using hevents'
      · rcases hkill with ⟨hnone', -⟩ | ⟨c', hc', -, -, -⟩
        · cases (hnone'.symm.trans hr₃.running).trans hnone
        · cases (hc'.symm.trans hr₃.running).trans hnone
    · -- the test is started twice
      have hlist : (steps s).filter (fun x => x.2.2 = vm) =
          [((s.test t).start, t, vm), ((s.test t).start, t, vm)] := by
        rw [hfilter, Assoc.inOrder_one (hsorted.imp ne_of_lt) hstartmem
          fun i _ hne => hother i hne (by rwa [← heq])]
        simp [instants, hstop, heq]
      obtain ⟨r₁, r₂, ys, hr₁, hstart, hys, hrest⟩ := steps_cons h hlist
      obtain ⟨r₃, r₄, zs, hr₃, hagain, hzs, hrest⟩ := steps_cons hrest hys
      refine final_of_untouched (steps_nil hrest hzs) ?_
      rcases tick_start hagain with ⟨l, hl, hevents', hget, -⟩ | ⟨-, hnone⟩
      · rcases first_start hr₁ hstart with ⟨l₀, c, hl₀, -, hevents, hc⟩ | ⟨hnone, -⟩
        · cases hl.symm.trans hl₀
          rw [hr₃.events, hevents] at hevents'
          have hne : c ≠ r₃.launched := by
            have hle := hr₃.launched
            omega
          refine .inl ⟨l, r₃.launched, hl, hget, ?_⟩
          simp only [Played, hstop, ← heq, if_true]
          exact ⟨c, hne, hevents'⟩
        · cases hl.symm.trans hnone
      · exact .inr hnone
    · -- the end comes first and finds no command
      have hlist : (steps s).filter (fun x => x.2.2 = vm) = [(stop, t, vm), ((s.test t).start, t, vm)] := by
        rw [hfilter, Assoc.inOrder_two hsorted hstopmem hstartmem hgt
          fun i _ hstop hstart => hother i hstart hstop]
        simp [instants, hstop, hgt.ne, hgt.ne']
      obtain ⟨r₁, r₂, ys, hr₁, hkill, hys, hrest⟩ := steps_cons h hlist
      obtain ⟨r₃, r₄, zs, hr₃, hstart, hzs, hrest⟩ := steps_cons hrest hys
      refine final_of_untouched (steps_nil hrest hzs) ?_
      have hr₂ : Untouched vm {} r₂ := by
        rcases tick_stop hstop hgt.ne hkill with ⟨-, hr₂⟩ | ⟨c, hc, -, -, -⟩
        · exact hr₁.trans hr₂
        · cases hc.symm.trans hr₁.running
      rcases first_start (hr₂.trans hr₃) hstart with ⟨l, c, hl, hget, hevents, -⟩ | ⟨-, hnone⟩
      · refine .inl ⟨l, c, hl, hget, ?_⟩
        simpa [Played, hstop, hgt.ne, hgt.le] using hevents
      · exact .inr hnone

/-! ## Runs without an exception -/

/-- No command failed to be launched, and the commands belong to VMs with a name. -/
def Good (s : Connected ν) (r : Run ν) : Prop :=
  ∀ p ∈ r.running, p.2 ≠ none ∧ (Assoc.get s.vmNames p.1).isSome = true

theorem keepOutput_good (r : Run ν) (event : ℕ → Event ν) {cmd : Option ℕ} (hcmd : cmd ≠ none)
    (hname : (Assoc.get s.vmNames vm).isSome = true) :
    ∃ r', keepOutput s r vm event cmd = .ok r' ∧ r'.running = r.running := by
  obtain ⟨c, rfl⟩ := Option.ne_none_iff_exists'.mp hcmd
  obtain ⟨name, hname⟩ := Option.isSome_iff_exists.mp hname
  refine ⟨{ r with output := Assoc.set r.output name c, log := r.log ++ [event c] }, ?_, rfl⟩
  unfold keepOutput entry
  rw [hname]
  rfl

theorem tick_good (base : ℤ) {x : ℤ × ℕ × VMHost ν} (hr : Good s r)
    (hx : (∃ l, launch s x.2.2 x.2.1 = .ok (some l)) ∧ (Assoc.get s.vmNames x.2.2).isSome = true) :
    ∃ r', tick s base r x = .ok r' ∧ Good s r' := by
  obtain ⟨i, t, vm⟩ := x
  obtain ⟨⟨l, hl⟩, hname⟩ := hx
  show ∃ r', runTest s i { r with clock := i - base } (t, vm) = .ok r' ∧ Good s r'
  unfold runTest
  split_ifs
  · refine ⟨_, by rw [startTest, hl]; rfl, ?_⟩
    intro p hp
    rcases Assoc.mem_set (show (p.1, p.2) ∈ _ from hp) with ⟨hvm, hcmd⟩ | hp
    · rw [hvm, hcmd]
      exact ⟨by simp, hname⟩
    · exact hr p hp
  · unfold killTest
    split
    · rename_i cmd hcmd
      obtain ⟨hne, hname⟩ := hr _ (Assoc.mem_of_get hcmd)
      obtain ⟨r', hr', hrunning⟩ := keepOutput_good _ _ hne hname
      exact ⟨r', hr', fun p hp => hr p (by rwa [hrunning] at hp)⟩
    · exact ⟨_, rfl, hr⟩
  · exact ⟨_, rfl, hr⟩

theorem steps_good (base : ℤ) {xs : List (ℤ × ℕ × VMHost ν)} (hr : Good s r)
    (hxs : ∀ x ∈ xs, (∃ l, launch s x.2.2 x.2.1 = .ok (some l)) ∧
      (Assoc.get s.vmNames x.2.2).isSome = true) :
    ∃ r', xs.foldlM (tick s base) r = .ok r' ∧ Good s r' := by
  induction xs generalizing r with
  | nil => exact ⟨r, rfl, hr⟩
  | cons x xs ih =>
    obtain ⟨r₁, hx, hr₁⟩ := tick_good base hr (hxs x List.mem_cons_self)
    obtain ⟨r', hr', hgood⟩ := ih hr₁ fun y hy => hxs y (List.mem_cons_of_mem _ hy)
    exact ⟨r', by rw [List.foldlM_cons, hx]; exact hr', hgood⟩

theorem waits_good {d : List (VMHost ν × Option ℕ)}
    (hd : ∀ p ∈ d, p.2 ≠ none ∧ (Assoc.get s.vmNames p.1).isSome = true) :
    ∃ r', d.foldlM (fun r t => keepOutput s r t.1 (.wait t.1) t.2) r = .ok r' := by
  induction d generalizing r with
  | nil => exact ⟨r, rfl⟩
  | cons p d ih =>
    obtain ⟨hne, hname⟩ := hd p List.mem_cons_self
    obtain ⟨r₁, hr₁, -⟩ := keepOutput_good r (.wait p.1) hne hname
    obtain ⟨r', hr'⟩ := ih (r := r₁) fun q hq => hd q (List.mem_cons_of_mem _ hq)
    exact ⟨r', by rw [List.foldlM_cons, hr₁]; exact hr'⟩

omit [DecidableEq ν] in
theorem mem_steps {x : ℤ × ℕ × VMHost ν} (hx : x ∈ steps s) : ∃ v ∈ s.vms, x.2 = (v.2.2, v.2.1) := by
  obtain ⟨i, -, hx⟩ := List.mem_flatMap.mp hx
  obtain ⟨v, hv, hx⟩ := List.mem_flatMap.mp (List.mem_filter.mp hx).1
  exact ⟨v, hv, mem_instants hx⟩

/-- The run of VMs that are apart. -/
theorem run_wired (hw : Wired s) (hbase : IsLeast {i | Instant s i} base) :
    ((∃ r, run s = .ok r) ↔ ∀ v ∈ s.vms, ∃ l, launch s v.2.1 v.2.2 = .ok (some l)) ∧
      ∀ r, run s = .ok r → ∀ v ∈ s.vms, ∃ l c events, launch s v.2.1 v.2.2 = .ok (some l) ∧
        Played s base v l c events ∧ eventsOf r v.2.1 = events ++ [.wait v.2.1 c] ∧
        Assoc.get r.output v.1 = some c := by
  have hends : ∀ r, run s = .ok r → ∀ v ∈ s.vms, ∃ l c events, launch s v.2.1 v.2.2 = .ok (some l) ∧
      Played s base v l c events ∧ eventsOf r v.2.1 = events ++ [.wait v.2.1 c] ∧
      Assoc.get r.output v.1 = some c := by
    intro r hrun v hv
    rw [run_eq hbase] at hrun
    obtain ⟨r₁, hsteps, hwaits⟩ := bind_ok hrun
    -- only the VMs of the scenario have commands
    have hkeys := steps_keys (K := fun vm => ∃ v ∈ s.vms, v.2.1 = vm) hsteps (fun x hx => by
      obtain ⟨v, hv, hx⟩ := mem_steps hx
      exact ⟨v, hv, by rw [hx]⟩) Assoc.nodup_keys_nil (fun k hk => absurd hk List.not_mem_nil)
    have hapart : ∀ k ∈ Assoc.keys r₁.running, Assoc.get s.vmNames k = some v.1 → k = v.2.1 := by
      intro k hk hname
      obtain ⟨u, hu, rfl⟩ := hkeys.2 k hk
      obtain heq : u.1 = v.1 := Option.some.inj ((hw.named u hu).symm.trans hname)
      have hvalue := (Assoc.get_of_mem hw.names hu).symm.trans (heq ▸ Assoc.get_of_mem hw.names hv)
      rw [Option.some.inj hvalue]
    obtain ⟨hsome, -, hwait⟩ := waits_ok hkeys.1 hapart (hw.named v hv) hwaits
    rcases final_of_steps hw hv hsteps with ⟨l, c, hl, hget, hplayed⟩ | hnone
    · obtain ⟨hevents, houtput⟩ := hwait c hget
      exact ⟨l, c, _, hl, hplayed, hevents, houtput⟩
    · exact absurd hnone hsome
  refine ⟨⟨?_, ?_⟩, hends⟩
  · rintro ⟨r, hrun⟩ v hv
    obtain ⟨l, -, -, hl, -⟩ := hends r hrun v hv
    exact ⟨l, hl⟩
  · intro hlaunch
    rw [run_eq hbase]
    have hall : ∀ x ∈ steps s, (∃ l, launch s x.2.2 x.2.1 = .ok (some l)) ∧
        (Assoc.get s.vmNames x.2.2).isSome = true := by
      intro x hx
      obtain ⟨v, hv, hx⟩ := mem_steps hx
      rw [hx]
      exact ⟨hlaunch v hv, by rw [hw.named v hv]; rfl⟩
    obtain ⟨r₁, hsteps, hgood⟩ := steps_good base
      (show Good s {} from fun p hp => absurd hp List.not_mem_nil) hall
    obtain ⟨r', hr'⟩ := waits_good (r := r₁) hgood
    exact ⟨r', by rw [hsteps]; exact hr'⟩

/-- The hosts through which the launcher reaches the VMs, in the order in which it connected to them. -/
def hosts (st : ExecoClient.State ν) : List (VMHost ν) := st.opened.map fun o => ⟨o.node, o.port⟩

omit [DecidableEq ν] in
theorem hosts_nodup {st : ExecoClient.State ν} (h : ExecoClient.Counted st) : (hosts st).Nodup := by
  refine List.pairwise_map.mpr (h.apart.imp ?_)
  intro o o' hapart heq
  injection heq with hnode hport
  exact hapart hnode hport

/-- A run of VMs that the launcher is connected to raises no exception exactly when there is a command for
the test of each VM. Then each VM is started and killed at the instants of its test, counted from the first
instant of the scenario, its last command is waited for, and the output of this command is kept under the
name of the VM. -/
theorem run_schedule {env : ν → VMServer.Env} {actions : List (ExecoClient.Action ν)}
    {st : ExecoClient.State ν}
    (hlauncher : Transition.run (ExecoClient.step env) ExecoClient.start actions = some st)
    {toInstall : List (Str × VMHost ν × ℕ)}
    (hconnected : (toInstall.map fun v => v.2.1).Sublist (hosts st))
    (hs : (s.vms, s.vmNames) = connectAll toInstall) (hbase : IsLeast {i | Instant s i} base) :
    ((∃ r, run s = .ok r) ↔ ∀ v ∈ s.vms, ∃ l, launch s v.2.1 v.2.2 = .ok (some l)) ∧
      ∀ r, run s = .ok r → ∀ v ∈ s.vms, ∃ l c events, launch s v.2.1 v.2.2 = .ok (some l) ∧
        Played s base v l c events ∧ eventsOf r v.2.1 = events ++ [.wait v.2.1 c] ∧
        Assoc.get r.output v.1 = some c := by
  have hnodup := (hosts_nodup (ExecoClient.run_counted hlauncher)).sublist hconnected
  exact run_wired (connectAll_wired hnodup hs) hbase

/-- Two VMs to install, with the tests of two groups. -/
def twoInstalls : List (Str × VMHost Unit × ℕ) := [(['a'], ⟨(), 3030⟩, 0), (['b'], ⟨(), 3031⟩, 1)]

/-- The second VM is started while the first one runs, and is not killed. -/
def twoConnected : Connected Unit where
  test
    | 0 => { type := "phoronix".toList, name := some ['p'], start := 5, stop := some 65, nbRun := some 2 }
    | _ => { type := "stress".toList, start := 15, nbCpus := some 4 }
  testPort _ := none
  address _ := []
  vms := (connectAll twoInstalls).1
  vmNames := (connectAll twoInstalls).2

theorem twoConnected_first : IsLeast {i | Instant twoConnected i} 5 := by
  have hvms : twoConnected.vms = twoInstalls := rfl
  constructor
  · exact ⟨(['a'], ⟨(), 3030⟩, 0), by simp [hvms, twoInstalls], (5, 0, ⟨(), 3030⟩), List.mem_cons_self, rfl⟩
  · rintro i ⟨v, hv, x, hx, rfl⟩
    rw [hvms] at hv
    simp only [twoInstalls, List.mem_cons, List.not_mem_nil, or_false] at hv
    rcases hv with rfl | rfl
    · simp only [instants, twoConnected, Option.toList_some, List.map_cons, List.map_nil, List.mem_cons,
        List.not_mem_nil, or_false] at hx
      rcases hx with rfl | rfl <;> decide
    · simp only [instants, twoConnected, Option.toList_none, List.map_nil, List.mem_cons, List.not_mem_nil,
        or_false] at hx
      rw [hx]
      decide

theorem run_schedule_two :
    let s := twoConnected
    ((∃ r, run s = .ok r) ↔ ∀ v ∈ s.vms, ∃ l, launch s v.2.1 v.2.2 = .ok (some l)) ∧
      ∀ r, run s = .ok r → ∀ v ∈ s.vms, ∃ l c events, launch s v.2.1 v.2.2 = .ok (some l) ∧
        Played s 5 v l c events ∧ eventsOf r v.2.1 = events ++ [.wait v.2.1 c] ∧
        Assoc.get r.output v.1 = some c := by
  have hhosts : twoInstalls.map (fun v => v.2.1) = hosts ExecoClient.afterTwoPorts := by decide +kernel
  have hconnected : (twoInstalls.map fun v => v.2.1).Sublist (hosts ExecoClient.afterTwoPorts) := by
    rw [hhosts]
  exact run_schedule (Option.some_get ExecoClient.twoPorts_some).symm hconnected rfl twoConnected_first

/-! ## The workloads of a deathstar test -/

section Workloads

variable {test : ℕ → Bench} {i : Installed ν}

/-- The next port of a node. -/
def nextPort (i : Installed ν) (node : ν) : ℕ := (i.ports node).getD 3030

/-- Each port that was opened is below the next one of its node. -/
def Installed.Counted (i : Installed ν) : Prop := ∀ x ∈ i.opened, x.2 < nextPort i x.1.node

theorem installTest_deathstar {v : Str × VMHost ν × ℕ} (hv : (test v.2.2).type = "deathstar".toList) :
    installTest test i v = {
      ports := Function.update i.ports v.2.1.node (some (nextPort i v.2.1.node + 1))
      testPort := Function.update i.testPort v.2.2 (some (nextPort i v.2.1.node))
      opened := i.opened ++ [(v.2.1, nextPort i v.2.1.node)] } := by
  unfold installTest ExecoClient.createUnusedPort nextPort
  rw [if_pos hv]
  cases i.ports v.2.1.node <;> rfl

theorem installTest_other {v : Str × VMHost ν × ℕ} (hv : (test v.2.2).type ≠ "deathstar".toList) :
    installTest test i v = i := if_neg hv

theorem installTest_counted (test : ℕ → Bench) (hi : i.Counted) (v : Str × VMHost ν × ℕ) :
    (installTest test i v).Counted := by
  by_cases hv : (test v.2.2).type = "deathstar".toList
  · rw [installTest_deathstar hv]
    intro x hx
    by_cases hnode : x.1.node = v.2.1.node
    · simp only [nextPort, hnode, Function.update_self, Option.getD_some]
      rcases List.mem_append.mp hx with hx | hx
      · have hlt := hi x hx
        rw [hnode, nextPort] at hlt
        omega
      · obtain rfl := List.mem_singleton.mp hx
        exact Nat.lt_succ_self _
    · simp only [nextPort, Function.update_of_ne hnode]
      rcases List.mem_append.mp hx with hx | hx
      · exact hi x hx
      · obtain rfl := List.mem_singleton.mp hx
        exact absurd rfl hnode
  · rwa [installTest_other hv]

/-- The VMs that follow open ports for themselves, and only change the ports of their own tests. -/
theorem foldl_installTest (test : ℕ → Bench) (vms : List (Str × VMHost ν × ℕ)) (hi : i.Counted) :
    (vms.foldl (installTest test) i).Counted ∧
      (∃ new, (vms.foldl (installTest test) i).opened = i.opened ++ new ∧
        ∀ x ∈ new, ∃ v ∈ vms, v.2.1 = x.1) ∧
      ∀ t, (∀ v ∈ vms, v.2.2 ≠ t) → (vms.foldl (installTest test) i).testPort t = i.testPort t := by
  induction vms generalizing i with
  | nil => exact ⟨hi, ⟨[], by simp, fun x hx => absurd hx List.not_mem_nil⟩, fun t _ => rfl⟩
  | cons v vms ih =>
    obtain ⟨hcounted, ⟨new, hopened, hnew⟩, hport⟩ := ih (installTest_counted test hi v)
    refine ⟨hcounted, ?_, ?_⟩
    · have htail : ∀ x ∈ new, ∃ u ∈ v :: vms, u.2.1 = x.1 := by
        intro x hx
        obtain ⟨u, hu, heq⟩ := hnew x hx
        exact ⟨u, List.mem_cons_of_mem _ hu, heq⟩
      rw [List.foldl_cons, hopened]
      by_cases hv : (test v.2.2).type = "deathstar".toList
      · rw [installTest_deathstar hv]
        refine ⟨(v.2.1, nextPort i v.2.1.node) :: new, by simp, ?_⟩
        intro x hx
        rcases List.mem_cons.mp hx with rfl | hx
        · exact ⟨v, List.mem_cons_self, rfl⟩
        · exact htail x hx
      · rw [installTest_other hv]
        exact ⟨new, rfl, htail⟩
    · intro t ht
      rw [List.foldl_cons, hport t fun u hu => ht u (List.mem_cons_of_mem _ hu)]
      by_cases hv : (test v.2.2).type = "deathstar".toList
      · rw [installTest_deathstar hv]
        exact Function.update_of_ne (ht v List.mem_cons_self).symm _ _
      · rw [installTest_other hv]

theorem entry_ok {α : Type} {key : Str} {o : Option α} {a : α} (h : entry key o = .ok a) : o = some a := by
  cases o with
  | none => cases h
  | some b =>
    cases h
    rfl

omit [DecidableEq ν] in
/-- The command of a workload names the address of the node and the port of the test. -/
theorem launch_deathstar {l : Launch} {port : ℕ} (htype : (s.test t).type = "deathstar".toList)
    (hport : s.testPort t = some port) (h : launch s vm t = .ok (some l)) :
    ∃ front rate, l.cmd = front ++ "http://".toList ++ s.address vm.node ++ ":".toList ++
      Config.showInt port ++ " -R ".toList ++ rate := by
  have hne : "deathstar".toList ≠ "phoronix".toList := by decide +kernel
  have hstart : startDeathstarWorkload s vm t = .ok (some l) := by
    rwa [launch, htype, if_neg hne, if_pos rfl] at h
  obtain ⟨port', hport', hstart⟩ := bind_ok hstart
  cases hport.symm.trans (entry_ok hport')
  obtain ⟨name, -, hstart⟩ := bind_ok hstart
  split_ifs at hstart
  · obtain ⟨nbThreads, -, hstart⟩ := bind_ok hstart
    obtain ⟨nbConnections, -, hstart⟩ := bind_ok hstart
    obtain ⟨stop, -, hstart⟩ := bind_ok hstart
    obtain ⟨nbPerSeconds, -, hstart⟩ := bind_ok hstart
    cases hstart
    have hscript : " -L -s /tmp/mixed-workload_type_1.lua http://".toList =
        " -L -s /tmp/mixed-workload_type_1.lua ".toList ++ "http://".toList := by decide +kernel
    refine ⟨"/tmp/wrk -D exp -t ".toList ++ Config.showInt nbThreads ++ " -c ".toList ++
      Config.showInt nbConnections ++ " -d ".toList ++ Config.showInt (stop - (s.test t).start - 10) ++
      " -L -s /tmp/mixed-workload_type_1.lua ".toList, Config.showInt nbPerSeconds, ?_⟩
    show _ ++ " -L -s /tmp/mixed-workload_type_1.lua http://".toList ++ _ ++ _ ++ _ ++ _ ++ _ = _
    rw [hscript]
    simp only [List.append_assoc]
  · cases hstart

/-- The ports that are opened are those of the VMs before a deathstar test, the next one of its node, and
those of the VMs after it. -/
theorem installTests_cut (test : ℕ → Bench) (ports : ν → Option ℕ) (before after : List (Str × VMHost ν × ℕ))
    {w : Str × VMHost ν × ℕ} (hw : (test w.2.2).type = "deathstar".toList) :
    ∃ (i₁ : Installed ν) (new : List (VMHost ν × ℕ)), i₁.Counted ∧
      (∀ x ∈ i₁.opened, ∃ v ∈ before, v.2.1 = x.1) ∧ (∀ x ∈ new, ∃ v ∈ after, v.2.1 = x.1) ∧
      (installTests test ports (before ++ w :: after)).opened =
        i₁.opened ++ (w.2.1, nextPort i₁ w.2.1.node) :: new ∧
      ((∀ v ∈ after, v.2.2 ≠ w.2.2) →
        (installTests test ports (before ++ w :: after)).testPort w.2.2 = some (nextPort i₁ w.2.1.node)) := by
  have hstart : ({ ports } : Installed ν).Counted := fun x hx => absurd hx List.not_mem_nil
  obtain ⟨hcounted, ⟨old, hold, hbefore⟩, -⟩ := foldl_installTest test before hstart
  have hcut : installTests test ports (before ++ w :: after) =
      after.foldl (installTest test) (installTest test (before.foldl (installTest test) { ports }) w) := by
    rw [installTests, List.foldl_append, List.foldl_cons]
  rw [hcut]
  generalize before.foldl (installTest test) { ports } = i₁ at hcounted hold
  obtain ⟨-, ⟨new, hnew, hafter⟩, hport⟩ :=
    foldl_installTest test after (installTest_counted test hcounted w)
  refine ⟨i₁, new, hcounted, ?_, hafter, ?_, ?_⟩
  · intro x hx
    rw [hold, List.nil_append] at hx
    exact hbefore x hx
  · rw [hnew, installTest_deathstar hw, List.append_assoc]
    rfl
  · intro hlast
    rw [hport w.2.2 hlast, installTest_deathstar hw]
    exact Function.update_self _ _ _

/-- The workloads of all the VMs of a deathstar group go to the port that was opened for the last one of
them. The other VMs of the group that are on its node have other ports, so no workload reaches them. -/
theorem workloads_last (ports : ν → Option ℕ) {before after : List (Str × VMHost ν × ℕ)}
    {w : Str × VMHost ν × ℕ} (hvms : s.vms = before ++ w :: after)
    (hhosts : (s.vms.map fun v => v.2.1).Nodup) (htype : (s.test w.2.2).type = "deathstar".toList)
    (hlast : ∀ v ∈ after, v.2.2 ≠ w.2.2) (hinstall : s.testPort = (installTests s.test ports s.vms).testPort) :
    ∃ port, (w.2.1, port) ∈ (installTests s.test ports s.vms).opened ∧
      (∀ v ∈ s.vms, v.2.2 = w.2.2 → ∀ l, launch s v.2.1 v.2.2 = .ok (some l) →
        ∃ front rate, l.cmd = front ++ "http://".toList ++ s.address v.2.1.node ++ ":".toList ++
          Config.showInt port ++ " -R ".toList ++ rate) ∧
      ∀ v ∈ before, v.2.2 = w.2.2 → v.2.1.node = w.2.1.node →
        (∃ port', (v.2.1, port') ∈ (installTests s.test ports s.vms).opened) ∧
        ∀ port', (v.2.1, port') ∈ (installTests s.test ports s.vms).opened → port' ≠ port := by
  rw [hvms] at hinstall hhosts ⊢
  obtain ⟨i₁, new, hcounted, hold, hnew, hopened, hport⟩ :=
    installTests_cut s.test ports before after htype
  rw [List.map_append, List.map_cons, List.nodup_append] at hhosts
  obtain ⟨-, -, hapart⟩ := hhosts
  refine ⟨nextPort i₁ w.2.1.node, by simp [hopened], ?_, ?_⟩
  · intro v hv hgroup l hl
    have htypev : (s.test v.2.2).type = "deathstar".toList := by rw [hgroup, htype]
    have hportv : s.testPort v.2.2 = some (nextPort i₁ w.2.1.node) := by rw [hgroup, hinstall, hport hlast]
    exact launch_deathstar htypev hportv hl
  · intro v hv hgroup hnode
    have hdifferent := hapart v.2.1 (List.mem_map.mpr ⟨v, hv, rfl⟩)
    constructor
    · -- a port was opened for this VM too
      obtain ⟨before₁, before₂, rfl⟩ := List.append_of_mem hv
      have htypev : (s.test v.2.2).type = "deathstar".toList := by rw [hgroup, htype]
      obtain ⟨i₀, new₀, -, -, -, hopened₀, -⟩ :=
        installTests_cut s.test ports before₁ (before₂ ++ w :: after) htypev
      refine ⟨nextPort i₀ v.2.1.node, ?_⟩
      rw [List.append_assoc, List.cons_append, hopened₀]
      simp
    · intro port' hmem
      rw [hopened] at hmem
      rcases List.mem_append.mp hmem with hmem | hmem
      · have hlt := hcounted _ hmem
        rw [hnode] at hlt
        exact hlt.ne
      · rcases List.mem_cons.mp hmem with heq | hmem
        · exact absurd (congrArg Prod.fst heq) (hdifferent _ List.mem_cons_self)
        · obtain ⟨u, hu, heq⟩ := hnew _ hmem
          exact absurd heq.symm (hdifferent _ (List.mem_cons_of_mem _ (List.mem_map.mpr ⟨u, hu, rfl⟩)))

/-- Two VMs of one deathstar group. -/
def twoWorkloads : Connected Unit :=
  let test (_ : ℕ) : Bench := {
    type := "deathstar".toList, name := some "hotel".toList, start := 0, stop := some 120
    nbThreads := some 4, nbConnections := some 100, nbPerSeconds := some 20000 }
  let vms := [(['a'], ⟨(), 3030⟩, 0), (['b'], ⟨(), 3031⟩, 0)]
  { test, vms, vmNames := [(⟨(), 3030⟩, ['a']), (⟨(), 3031⟩, ['b'])]
    testPort := (installTests test (fun _ => some 3032) vms).testPort
    address := fun _ => ['h'] }

theorem workloads_last_two :
    let s := twoWorkloads
    let opened := (installTests s.test (fun _ => some 3032) s.vms).opened
    ∃ port, ((⟨(), 3031⟩ : VMHost Unit), port) ∈ opened ∧
      (∀ v ∈ s.vms, v.2.2 = 0 → ∀ l, launch s v.2.1 v.2.2 = .ok (some l) →
        ∃ front rate, l.cmd = front ++ "http://".toList ++ s.address v.2.1.node ++ ":".toList ++
          Config.showInt port ++ " -R ".toList ++ rate) ∧
      ∀ v ∈ [((['a'], ⟨(), 3030⟩, 0) : Str × VMHost Unit × ℕ)], v.2.2 = 0 → v.2.1.node = () →
        (∃ port', (v.2.1, port') ∈ opened) ∧ ∀ port', (v.2.1, port') ∈ opened → port' ≠ port := by
  have hvms : twoWorkloads.vms = [(['a'], ⟨(), 3030⟩, 0)] ++ (['b'], ⟨(), 3031⟩, 0) :: [] := rfl
  have hhosts : (twoWorkloads.vms.map fun v => v.2.1).Nodup := by decide +kernel
  exact workloads_last (fun _ => some 3032) hvms hhosts rfl (fun v hv => absurd hv List.not_mem_nil) rfl

end Workloads

end Scenario
