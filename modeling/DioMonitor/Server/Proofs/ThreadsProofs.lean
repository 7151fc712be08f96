import DioMonitor.Server.Threads

/-!
# Proofs: the threads of the daemon and their locks

The daemon takes its mutexes in one order (`ordered_threads`), so its threads never wait for each other
in a circle (`no_deadlock`). Under each mutex whole critical sections follow each other: no reset of the
accounts falls into a tick of the market and no removal of the log file into the writing of a record
(`controller_serial`), and the console holds whole lines (`console_lines`). Nothing is said about what the
threads read and change without a lock.
-/

namespace Daemon

open Locks

/-- The order in which the mutexes are taken: `resetMarketCounters` holds the first one when it takes the
second one. -/
def rank : Mutex → ℕ
  | .control => 0
  | .vcpu => 1
  | .client => 2
  | .logging => 3

theorem rank_lt (m : Mutex) : rank m < 4 := by
  cases m <;> decide

/-! ## Every program takes its mutexes in order -/

theorem ordered_nil : Ordered rank [] ([] : Program) := rfl

theorem ordered_if {p : Program} (c : Bool) (h : Ordered rank [] p) :
    Ordered rank [] (if c then p else []) := by
  cases c
  · exact ordered_nil
  · exact h

theorem ordered_log (level : Logging.Level) (time : Str) (msg : List Str) :
    Ordered rank [] (log level time msg) := ordered_locked _ _ _

theorem ordered_kill (found : Bool) (time id : Str) : Ordered rank [] (kill found time id) := by
  refine (ordered_locked _ _ _).append ?_
  apply ordered_if
  exact (ordered_log _ _ _).append (ordered_locked _ _ _)

/-- The only place that takes a mutex under another one. -/
theorem ordered_resetMarketCounters (enabled : Bool) :
    Ordered rank [] (resetMarketCounters enabled) := by
  cases enabled
  · simp [resetMarketCounters, Ordered]
  · simp [resetMarketCounters, locked, Ordered, rank]

theorem ordered_treat (enabled : Bool) (r : Request) : Ordered rank [] (treat enabled r) := by
  cases r with
  | provision => exact ordered_nil
  | kill known found time id => exact (ordered_locked _ _ _).append (ordered_if _ (ordered_kill _ _ _))
  | ip known => exact (ordered_locked _ _ _).append (ordered_if _ (ordered_locked _ _ _))
  | nat known => exact (ordered_locked _ _ _).append (ordered_if _ (ordered_locked _ _ _))
  | resetCounters => exact ordered_resetMarketCounters enabled
  | other => exact ordered_nil

theorem ordered_accept (enabled : Bool) (c : Client) : Ordered rank [] (accept enabled c) :=
  (ordered_log _ _ _).append (ordered_treat _ _)

theorem ordered_acceptingLoop (enabled : Bool) (time port : Str) (clients : List Client) :
    Ordered rank [] (acceptingLoop enabled time port clients) :=
  (ordered_log _ _ _).append (Ordered.flatMap (ordered_accept enabled) clients)

theorem ordered_treatProvision (p : Provision) : Ordered rank [] (treatProvision p) := by
  cases p with
  | invalid => exact ordered_nil
  | refused => exact ordered_locked _ _ _
  | failed found time id => exact (ordered_locked _ _ _).append (ordered_kill _ _ _)
  | done found time id ready ip =>
    refine Ordered.append (Ordered.append (Ordered.append ?_ ?_) ?_) ?_
    · exact ordered_locked _ _ _
    · exact ordered_kill _ _ _
    · exact ordered_locked _ _ _
    · exact ordered_log _ _ _

theorem ordered_frame (enabled : Bool) (f : Frame) : Ordered rank [] (frame enabled f) := by
  cases f with
  | sampled => exact ordered_nil
  | market tick => exact (ordered_if _ (ordered_locked _ _ _)).append (ordered_locked _ _ _)

theorem ordered_cpuControlLoop (enabled : Bool) (frames : List Frame) :
    Ordered rank [] (cpuControlLoop enabled frames) :=
  Ordered.flatMap (ordered_frame enabled) frames

theorem ordered_threads (r : Run) : ∀ p ∈ r.threads, Ordered rank [] p := by
  intro p hp
  rcases List.mem_cons.mp hp with rfl | hp
  · exact ordered_acceptingLoop _ _ _ _
  · rcases List.mem_cons.mp hp with rfl | hp
    · exact ordered_cpuControlLoop _ _
    · obtain ⟨q, -, rfl⟩ := List.mem_map.mp hp
      exact ordered_treatProvision q

/-- No deadlock: whatever the clients ask for and in whatever order the threads run, from every thread
that has not finished the chain of threads waiting for each other's mutexes ends at one that can go on. -/
theorem no_deadlock (r : Run) {schedule : List ℕ} {s : State Mutex Access}
    (hrun : r.exec schedule = some s) {i : ℕ} {op : Op Mutex Access} {p : Program}
    (hi : s.threads[i]? = some (op :: p)) :
    ∃ j, Relation.ReflTransGen (WaitsFor s) i j ∧ (Locks.step s j).isSome :=
  progress (ordered_threads r) rank_lt hrun hi

/-- A reset that meets a tick of the market. -/
def resetRun : Run :=
  { vcpuMarketEnabled := true, time := "t".toList, port := "1".toList
    clients := [{ time := "t".toList, prot := "6".toList, request := .resetCounters }]
    provisions := [], frames := [.market .applied] }

/-- The accepting loop writes two lines, the control loop takes the mutex of the market and the accepting
loop the one of the log file. -/
def resetSchedule : List ℕ := List.replicate 13 0 ++ List.replicate 13 0 ++ [1, 0]

theorem resetSchedule_exec : (resetRun.exec resetSchedule).isSome = true := by decide +kernel

theorem no_deadlock_reset :
    ∃ s, resetRun.exec resetSchedule = some s ∧ Locks.step s 0 = none ∧
      ∃ j, Relation.ReflTransGen (WaitsFor s) 0 j ∧ (Locks.step s j).isSome := by
  refine ⟨_, (Option.some_get resetSchedule_exec).symm, ?_, ?_⟩
  · rw [← Option.isNone_iff_eq_none]
    decide +kernel
  · have hwaits : ((resetRun.exec resetSchedule).get resetSchedule_exec).threads[0]? =
        some (.lock .vcpu :: [.access .vcpu .resetAccounts, .unlock .vcpu,
          .access .control .removeLog, .unlock .control]) := by decide +kernel
    exact no_deadlock resetRun (Option.some_get resetSchedule_exec).symm hwaits

/-! ## The market and the log file -/

/-- The critical sections of the accepting loop for the market: a reset each. -/
def Run.resets (r : Run) : List (List Access) :=
  if r.vcpuMarketEnabled then
    (r.clients.filter fun c => c.request.resets).map fun _ => [.resetAccounts]
  else []

/-- The critical sections of the control loop for the market: a tick each. -/
def Run.ticks (r : Run) : List (List Access) :=
  if r.vcpuMarketEnabled then (r.frames.filterMap Frame.tick).map Tick.phases else []

/-- The critical sections of the accepting loop for the log file. -/
def Run.removals (r : Run) : List (List Access) :=
  (r.clients.filter fun c => c.request.resets).map fun _ => [.removeLog]

/-- The critical sections of the control loop for the log file: a record each. -/
def Run.records (r : Run) : List (List Access) :=
  (r.frames.filterMap Frame.tick).map fun _ => [.openLog, .writeLog, .closeLog]

/-- The accesses `log` are whole sections of the accepting loop and of the control loop, those of each in
its order, and then the beginning of one, for which the mutex is still held. -/
def Merged (accepting control : List (List Access)) (log : List Access) (free : Prop) : Prop :=
  ∃ (done : List (ℕ × List Access)) (cur : List Access),
    log = (done.map Prod.snd).flatten ++ cur ∧ (∀ d ∈ done, d.1 = 0 ∨ d.1 = 1) ∧
    (done.filter fun d => d.1 = 0).map Prod.snd <+: accepting ∧
    (done.filter fun d => d.1 = 1).map Prod.snd <+: control ∧
    (free → cur = []) ∧ (cur ≠ [] → ∃ sec ∈ accepting ++ control, cur <+: sec)

variable {m : Mutex}

theorem sections_log (hm : m ≠ .logging) (level : Logging.Level) (time : Str) (msg : List Str) :
    sections m [] (log level time msg) = [] := by
  unfold log
  rw [sections_locked, if_neg hm.symm]

theorem sections_kill (hc : m ≠ .client) (hm : m ≠ .logging) (found : Bool) (time id : Str) :
    sections m [] (kill found time id) = [] := by
  unfold kill getVM removeVM log
  rw [sections_locked_append, if_neg hc.symm]
  cases found
  · rfl
  · rw [if_pos rfl, sections_locked_append, if_neg hm.symm, sections_locked, if_neg hc.symm]
    rfl

theorem sections_treatProvision (hc : m ≠ .client) (hm : m ≠ .logging) (p : Provision) :
    sections m [] (treatProvision p) = [] := by
  have hkill := fun found time id q => sections_append m (kill found time id) q
    (ordered_kill found time id) [] (Or.inr rfl)
  cases p with
  | invalid => rfl
  | refused => simp [treatProvision, hasVM, sections_locked, hc.symm]
  | failed found time id =>
    simp [treatProvision, hasVM, sections_locked_append, hc.symm, sections_kill hc hm]
  | done found time id ready ip =>
    simp [treatProvision, hasVM, installVM, List.append_assoc, sections_locked_append, hc.symm, hkill,
      sections_kill hc hm, sections_log hm]

theorem sections_treat (hc : m ≠ .client) (hm : m ≠ .logging) (enabled : Bool) (r : Request) :
    sections m [] (treat enabled r) =
      if r.resets then sections m [] (resetMarketCounters enabled) else [] := by
  have hif : ∀ (c : Bool) (p : Program), sections m [] p = [] →
      sections m [] (if c then p else []) = [] := by
    intro c p hp
    cases c
    · rfl
    · exact hp
  cases r with
  | provision => rfl
  | kill known found time id =>
    simp [treat, hasVM, sections_locked_append, hc.symm, hif, sections_kill hc hm, Request.resets]
  | ip known =>
    simp [treat, hasVM, getVM, sections_locked_append, hc.symm, hif, sections_locked, Request.resets]
  | nat known =>
    simp [treat, hasVM, getVM, sections_locked_append, hc.symm, hif, sections_locked, Request.resets]
  | resetCounters => rfl
  | other => rfl

theorem sections_acceptingLoop (hc : m ≠ .client) (hm : m ≠ .logging) (enabled : Bool)
    (time port : Str) (clients : List Client) :
    sections m [] (acceptingLoop enabled time port clients) =
      (clients.filter fun c => c.request.resets).flatMap fun _ =>
        sections m [] (resetMarketCounters enabled) := by
  have haccept : ∀ c, sections m [] (accept enabled c) =
      if c.request.resets then sections m [] (resetMarketCounters enabled) else [] := by
    intro c
    unfold accept log
    rw [sections_locked_append, if_neg hm.symm, List.nil_append, sections_treat hc hm]
  unfold acceptingLoop log
  rw [sections_locked_append, if_neg hm.symm, List.nil_append, sections_flatMap (ordered_accept enabled)]
  induction clients with
  | nil => rfl
  | cons c clients ih =>
    rw [List.flatMap_cons, ih, haccept]
    rw [List.filter_cons]
    by_cases h : c.request.resets
    · rw [if_pos h, if_pos h, List.flatMap_cons]
    · rw [if_neg h, if_neg h, List.nil_append]

theorem sections_cpuControlLoop (m : Mutex) (enabled : Bool) (frames : List Frame) :
    sections m [] (cpuControlLoop enabled frames) =
      (frames.filterMap Frame.tick).flatMap fun tick => sections m [] (frame enabled (.market tick)) := by
  unfold cpuControlLoop
  rw [sections_flatMap (ordered_frame enabled)]
  induction frames with
  | nil => rfl
  | cons f frames ih =>
    rw [List.flatMap_cons, ih]
    cases f with
    | sampled => rfl
    | market tick => rfl

/-- The sections of the two loops are merged under every mutex but those of the client and of the
console. -/
theorem merged (hc : m ≠ .client) (hm : m ≠ .logging) (r : Run) {schedule : List ℕ}
    {s : State Mutex Access} (hrun : r.exec schedule = some s) :
    Merged (sections m [] (acceptingLoop r.vcpuMarketEnabled r.time r.port r.clients))
      (sections m [] (cpuControlLoop r.vcpuMarketEnabled r.frames)) (s.log m) (s.owner m = none) := by
  obtain ⟨done, cur, hs⟩ := serial (ordered_threads r) m hrun
  -- the provisions have no section under this mutex
  have hprov : ∀ (i : ℕ) (p : Program), (r.provisions.map treatProvision)[i]? = some p → sections m [] p = [] := by
    intro i p hp
    obtain ⟨q, -, rfl⟩ := List.mem_map.mp (List.mem_of_getElem? hp)
    exact sections_treatProvision hc hm q
  refine ⟨done, cur, hs.log, ?_, hs.order 0 _ rfl, hs.order 1 _ rfl, hs.free, ?_⟩
  · intro d hd
    obtain ⟨p, hp, hsec⟩ := hs.thread d hd
    obtain ⟨i, sec⟩ := d
    cases i with
    | zero => exact Or.inl rfl
    | succ i =>
      cases i with
      | zero => exact Or.inr rfl
      | succ i =>
        rw [hprov i p hp] at hsec
        cases hsec
  · intro hne
    obtain ⟨p, hp, sec, hsec, hpre⟩ := hs.current hne
    refine ⟨sec, ?_, hpre⟩
    rcases List.mem_cons.mp hp with rfl | hp
    · exact List.mem_append_left _ hsec
    · rcases List.mem_cons.mp hp with rfl | hp
      · exact List.mem_append_right _ hsec
      · obtain ⟨i, hi⟩ := List.getElem?_of_mem hp
        rw [hprov i p hi] at hsec
        cases hsec

theorem sections_reset_vcpu (enabled : Bool) :
    sections .vcpu [] (resetMarketCounters enabled) = if enabled then [[.resetAccounts]] else [] := by
  cases enabled <;> rfl

theorem sections_reset_control (enabled : Bool) :
    sections .control [] (resetMarketCounters enabled) = [[.removeLog]] := by
  cases enabled <;> rfl

theorem sections_market_vcpu (enabled : Bool) (tick : Tick) :
    sections .vcpu [] (frame enabled (.market tick)) = if enabled then [tick.phases] else [] := by
  cases enabled
  · rfl
  · simp [frame, dumpCpuLogs, sections_locked_append, sections_locked]

theorem sections_market_control (enabled : Bool) (tick : Tick) :
    sections .control [] (frame enabled (.market tick)) = [[.openLog, .writeLog, .closeLog]] := by
  cases enabled
  · rfl
  · simp [frame, dumpCpuLogs, sections_locked_append, sections_locked]

theorem flatMap_singleton_if {β γ : Type} (c : Bool) (f : β → γ) (bs : List β) :
    bs.flatMap (fun b => if c then [f b] else []) = if c then bs.map f else [] := by
  cases c
  · simp
  · simp [List.map_eq_flatMap]

/-- In every order of the threads, what is done under the mutex of the market is whole ticks and whole resets
between them, and what is done under that of the log file is whole records and removals between them: ticks
and records come in the order of the frames, resets and removals in the order of the requests, and while a
mutex is free no section is open. -/
theorem controller_serial (r : Run) {schedule : List ℕ} {s : State Mutex Access}
    (hrun : r.exec schedule = some s) :
    Merged r.resets r.ticks (s.log .vcpu) (s.owner .vcpu = none) ∧
      Merged r.removals r.records (s.log .control) (s.owner .control = none) := by
  constructor
  · have h := merged (m := .vcpu) (by decide) (by decide) r hrun
    rw [sections_acceptingLoop (by decide) (by decide), sections_cpuControlLoop] at h
    simp only [sections_reset_vcpu, sections_market_vcpu, flatMap_singleton_if] at h
    exact h
  · have h := merged (m := .control) (by decide) (by decide) r hrun
    rw [sections_acceptingLoop (by decide) (by decide), sections_cpuControlLoop] at h
    simp only [sections_reset_control, sections_market_control, ← List.map_eq_flatMap] at h
    exact h

theorem controller_serial_reset :
    ∃ s, resetRun.exec resetSchedule = some s ∧
      Merged resetRun.resets resetRun.ticks (s.log .vcpu) (s.owner .vcpu = none) ∧
      Merged resetRun.removals resetRun.records (s.log .control) (s.owner .control = none) := by
  refine ⟨_, (Option.some_get resetSchedule_exec).symm, ?_⟩
  exact controller_serial resetRun (Option.some_get resetSchedule_exec).symm

/-! ## The console -/

/-- What an access writes to the console. -/
def Access.text : Access → Str
  | .print piece => piece
  | _ => []

/-- What the logging wrote to the console. -/
def console (s : State Mutex Access) : Str := (s.log .logging).flatMap Access.text

/-- The lines that a program logs. -/
def lines (p : Program) : List Str := (sections .logging [] p).map fun sec => sec.flatMap Access.text

/-- The accesses of one call of the logging. -/
def IsCall (sec : List Access) : Prop :=
  ∃ level time msg, sec = (Logging.pieces level time msg).map .print

theorem calls_locked {k : Mutex} (hk : k ≠ .logging) (as : List Access) :
    AllSections .logging IsCall (locked k as) := allSections_locked_ne hk _ _

theorem calls_if {p : Program} (c : Bool) (h : AllSections .logging IsCall p) :
    AllSections .logging IsCall (if c then p else []) := by
  cases c
  · exact allSections_nil _ _
  · exact h

theorem calls_log (level : Logging.Level) (time : Str) (msg : List Str) :
    AllSections .logging IsCall (log level time msg) :=
  allSections_locked _ ⟨level, time, msg, rfl⟩

theorem calls_kill (found : Bool) (time id : Str) :
    AllSections .logging IsCall (kill found time id) := by
  refine (calls_locked (by decide) _).append (ordered_locked rank _ _) (calls_if _ ?_)
  exact (calls_log _ _ _).append (ordered_log _ _ _) (calls_locked (by decide) _)

theorem calls_treat (enabled : Bool) (r : Request) : AllSections .logging IsCall (treat enabled r) := by
  have hclient : ∀ as : List Access, AllSections Mutex.logging IsCall (locked .client as) :=
    calls_locked (by decide)
  cases r with
  | provision => exact allSections_nil _ _
  | kill known found time id =>
    exact (hclient _).append (ordered_locked rank _ _) (calls_if _ (calls_kill _ _ _))
  | ip known => exact (hclient _).append (ordered_locked rank _ _) (calls_if _ (hclient _))
  | nat known => exact (hclient _).append (ordered_locked rank _ _) (calls_if _ (hclient _))
  | resetCounters =>
    intro sec hsec
    cases enabled <;> cases hsec
  | other => exact allSections_nil _ _

theorem calls_acceptingLoop (enabled : Bool) (time port : Str) (clients : List Client) :
    AllSections .logging IsCall (acceptingLoop enabled time port clients) := by
  refine (calls_log _ _ _).append (ordered_log _ _ _) ?_
  refine AllSections.flatMap (ordered_accept enabled) (fun c => ?_) clients
  exact (calls_log _ _ _).append (ordered_log _ _ _) (calls_treat _ _)

theorem calls_treatProvision (p : Provision) : AllSections .logging IsCall (treatProvision p) := by
  have hclient : ∀ as : List Access, AllSections Mutex.logging IsCall (locked .client as) :=
    calls_locked (by decide)
  cases p with
  | invalid => exact allSections_nil _ _
  | refused => exact hclient _
  | failed found time id => exact (hclient _).append (ordered_locked rank _ _) (calls_kill _ _ _)
  | done found time id ready ip =>
    have hkill := (hclient [.lookup]).append (ordered_locked rank _ _) (calls_kill found time id)
    have hkillOrd := (ordered_locked rank .client [.lookup]).append (ordered_kill found time id)
    have hinstall := hkill.append hkillOrd (hclient [.install])
    exact hinstall.append (hkillOrd.append (ordered_locked rank _ _)) (calls_log _ _ _)

theorem calls_cpuControlLoop (enabled : Bool) (frames : List Frame) :
    AllSections .logging IsCall (cpuControlLoop enabled frames) := by
  refine AllSections.flatMap (ordered_frame enabled) (fun f => ?_) frames
  cases f with
  | sampled => exact allSections_nil _ _
  | market tick =>
    exact (calls_if _ (calls_locked (by decide) _)).append (ordered_if _ (ordered_locked _ _ _))
      (calls_locked (by decide) _)

theorem calls_threads (r : Run) : ∀ p ∈ r.threads, AllSections .logging IsCall p := by
  intro p hp
  rcases List.mem_cons.mp hp with rfl | hp
  · exact calls_acceptingLoop _ _ _ _
  · rcases List.mem_cons.mp hp with rfl | hp
    · exact calls_cpuControlLoop _ _
    · obtain ⟨q, -, rfl⟩ := List.mem_map.mp hp
      exact calls_treatProvision q

/-- The text of a call is its line. -/
theorem IsCall.text {sec : List Access} (h : IsCall sec) :
    ∃ level time msg, sec.flatMap Access.text = Logging.line level time msg := by
  obtain ⟨level, time, msg, rfl⟩ := h
  refine ⟨level, time, msg, ?_⟩
  rw [List.flatMap_map]
  exact List.flatMap_id'

/-- In every order of the threads, the text of the logging is one whole line after the other, those of
each thread in its order, and then the beginning of one, none while the mutex is free. -/
theorem console_lines (r : Run) {schedule : List ℕ} {s : State Mutex Access}
    (hrun : r.exec schedule = some s) :
    ∃ (done : List (ℕ × Str)) (cur : Str),
      console s = (done.map Prod.snd).flatten ++ cur ∧
      (∀ d ∈ done, ∃ level time msg, d.2 = Logging.line level time msg) ∧
      (∀ i p, r.threads[i]? = some p → (done.filter fun d => d.1 = i).map Prod.snd <+: lines p) ∧
      (s.owner .logging = none → cur = []) ∧
      ∃ level time msg, cur <+: Logging.line level time msg := by
  obtain ⟨done, cur, hs⟩ := serial (ordered_threads r) .logging hrun
  refine ⟨done.map fun d => (d.1, d.2.flatMap Access.text), cur.flatMap Access.text, ?_, ?_, ?_, ?_, ?_⟩
  · unfold console
    rw [hs.log, List.flatMap_append, ← List.flatMap_def, List.flatMap_assoc, List.map_map]
    rw [List.flatMap_def]
    rfl
  · intro d hd
    obtain ⟨d₀, hd₀, rfl⟩ := List.mem_map.mp hd
    obtain ⟨p, hp, hsec⟩ := hs.thread d₀ hd₀
    exact (calls_threads r p (List.mem_of_getElem? hp) _ hsec).text
  · intro i p hp
    have horder := (hs.order i p hp).map fun sec => sec.flatMap Access.text
    simpa [lines, List.filter_map, Function.comp_def] using horder
  · intro hfree
    rw [hs.free hfree]
    rfl
  · by_cases hne : cur = []
    · exact ⟨.info, [], [], hne ▸ List.nil_prefix⟩
    · obtain ⟨p, hp, sec, hsec, hpre⟩ := hs.current hne
      obtain ⟨level, time, msg, hline⟩ := (calls_threads r p hp sec hsec).text
      obtain ⟨rest, rfl⟩ := hpre
      refine ⟨level, time, msg, ?_⟩
      rw [← hline, List.flatMap_append]
      exact List.prefix_append _ _

theorem console_lines_reset :
    ∃ s, resetRun.exec resetSchedule = some s ∧ ∃ (done : List (ℕ × Str)) (cur : Str),
      console s = (done.map Prod.snd).flatten ++ cur ∧
      (∀ d ∈ done, ∃ level time msg, d.2 = Logging.line level time msg) ∧
      (∀ i p, resetRun.threads[i]? = some p →
        (done.filter fun d => d.1 = i).map Prod.snd <+: lines p) ∧
      (s.owner .logging = none → cur = []) ∧
      ∃ level time msg, cur <+: Logging.line level time msg := by
  refine ⟨_, (Option.some_get resetSchedule_exec).symm, ?_⟩
  exact console_lines resetRun (Option.some_get resetSchedule_exec).symm

end Daemon
