import DioMonitor.Libvirt.Cgroup
import Mathlib.Data.List.Infix
import Mathlib.Data.List.TakeWhile

/-!
# Proofs: the search for the cgroup of a VM

The search returns the first directory, in the order of the listing, whose path contains the name
(`searchEntries_eq`). Whether it is the scope of the VM in every order of the listing depends on the
other directories: none of them may contain the name (`search_scope_iff`).
-/

namespace Listing

/-- The directories below `path`, a directory before what it lists. -/
def dirs (path : Str) : Listing → List Str
  | .nil => []
  | .file _ rest => dirs path rest
  | .dir n entries rest => (path ++ '/' :: n) :: (dirs (path ++ '/' :: n) entries ++ dirs path rest)

/-- The names of the entries. -/
def names : Listing → List Str
  | .nil => []
  | .file n rest => n :: names rest
  | .dir n _ rest => n :: names rest

/-- The names of the entries of a directory differ, and hold no separator. -/
def WellFormed : Listing → Prop
  | .nil => True
  | .file n rest => '/' ∉ n ∧ n ∉ names rest ∧ WellFormed rest
  | .dir n entries rest => '/' ∉ n ∧ n ∉ names rest ∧ WellFormed entries ∧ WellFormed rest

instance decidableWellFormed : ∀ l, Decidable (WellFormed l)
  | .nil => isTrue trivial
  | .file n rest =>
    have := decidableWellFormed rest
    inferInstanceAs (Decidable ('/' ∉ n ∧ n ∉ names rest ∧ WellFormed rest))
  | .dir n entries rest =>
    have := decidableWellFormed entries
    have := decidableWellFormed rest
    inferInstanceAs (Decidable ('/' ∉ n ∧ n ∉ names rest ∧ WellFormed entries ∧ WellFormed rest))

/-- The entries of one listing before those of another. -/
def append : Listing → Listing → Listing
  | .nil, l => l
  | .file n rest, l => .file n (append rest l)
  | .dir n entries rest, l => .dir n entries (append rest l)

/-- The same directories, listed in another order. -/
inductive Reordered : Listing → Listing → Prop where
  | refl (l : Listing) : Reordered l l
  | trans {l l' l'' : Listing} : Reordered l l' → Reordered l' l'' → Reordered l l''
  | file (n : Str) {rest rest' : Listing} : Reordered rest rest' →
      Reordered (.file n rest) (.file n rest')
  | dir (n : Str) {entries entries' rest rest' : Listing} : Reordered entries entries' →
      Reordered rest rest' → Reordered (.dir n entries rest) (.dir n entries' rest')
  | rotate (l l' : Listing) : Reordered (append l l') (append l' l)

/-- `d` is a path below the directory `p`. -/
def Below (p d : Str) : Prop := p ++ ['/'] <+: d

instance (p d : Str) : Decidable (Below p d) := inferInstanceAs (Decidable (_ <+: _))

/-! ## Directories of a listing -/

theorem dirs_append (path : Str) (l l' : Listing) :
    (append l l').dirs path = l.dirs path ++ l'.dirs path := by
  induction l with
  | nil => rfl
  | file n rest ih => exact ih
  | dir n entries rest _ ih => simp [append, dirs, ih]

theorem names_append (l l' : Listing) : (append l l').names = l.names ++ l'.names := by
  induction l with
  | nil => rfl
  | file n rest ih => simp [append, names, ih]
  | dir n entries rest _ ih => simp [append, names, ih]

theorem wellFormed_append (l l' : Listing) :
    (append l l').WellFormed ↔ l.WellFormed ∧ l'.WellFormed ∧ ∀ n ∈ l.names, n ∉ l'.names := by
  induction l with
  | nil => simp [append, WellFormed, names]
  | file n rest ih =>
    simp only [append, WellFormed, names_append, List.mem_append, names, List.forall_mem_cons, ih]
    tauto
  | dir n entries rest _ ih =>
    simp only [append, WellFormed, names_append, List.mem_append, names, List.forall_mem_cons, ih]
    tauto

/-- The order of the listing changes neither the directories nor the well-formedness. -/
theorem Reordered.same {l l' : Listing} (h : Reordered l l') :
    (∀ n, n ∈ l.names ↔ n ∈ l'.names) ∧ (l.WellFormed → l'.WellFormed) ∧
      ∀ path d, d ∈ l.dirs path ↔ d ∈ l'.dirs path := by
  induction h with
  | refl l => exact ⟨fun _ => Iff.rfl, id, fun _ _ => Iff.rfl⟩
  | trans _ _ ih ih' =>
    exact ⟨fun n => (ih.1 n).trans (ih'.1 n), fun hw => ih'.2.1 (ih.2.1 hw),
      fun path d => (ih.2.2 path d).trans (ih'.2.2 path d)⟩
  | file n _ ih =>
    refine ⟨fun m => ?_, fun hw => ?_, fun path d => ih.2.2 path d⟩
    · simp only [names, List.mem_cons, ih.1 m]
    · exact ⟨hw.1, fun hn => hw.2.1 ((ih.1 n).mpr hn), ih.2.1 hw.2.2⟩
  | dir n _ _ ih ih' =>
    refine ⟨fun m => ?_, fun hw => ?_, fun path d => ?_⟩
    · simp only [names, List.mem_cons, ih'.1 m]
    · exact ⟨hw.1, fun hn => hw.2.1 ((ih'.1 n).mpr hn), ih.2.1 hw.2.2.1, ih'.2.1 hw.2.2.2⟩
    · simp only [dirs, List.mem_cons, List.mem_append, ih.2.2, ih'.2.2]
  | rotate l l' =>
    refine ⟨fun n => ?_, fun hw => ?_, fun path d => ?_⟩
    · simp only [names_append, List.mem_append, or_comm]
    · obtain ⟨h1, h2, h3⟩ := (wellFormed_append l l').mp hw
      exact (wellFormed_append l' l).mpr ⟨h2, h1, fun n hn hn' => h3 n hn' hn⟩
    · simp only [dirs_append, List.mem_append, or_comm]

theorem Below.trans {p q d : Str} (h : Below p q) (h' : Below q d) : Below p d :=
  List.IsPrefix.trans h (List.IsPrefix.trans (List.prefix_append q ['/']) h')

theorem below_sub (p n : Str) : Below p (p ++ '/' :: n) := ⟨n, by simp⟩

theorem Below.ne {p d : Str} (h : Below p d) : d ≠ p := by
  rintro rfl
  have := h.length_le
  simp at this

theorem below_of_mem_dirs {path d : Str} {l : Listing} (h : d ∈ l.dirs path) : Below path d := by
  induction l generalizing path with
  | nil => cases h
  | file n rest ih => exact ih h
  | dir n entries rest ihe ihr =>
    rcases List.mem_cons.mp h with rfl | h
    · exact below_sub path n
    · rcases List.mem_append.mp h with h | h
      · exact (below_sub path n).trans (ihe h)
      · exact ihr h

/-- The entry of a directory through which a path below it goes. -/
def step (path d : Str) : Str := (d.drop (path.length + 1)).takeWhile (· ≠ '/')

theorem step_cons (path r : Str) : step path (path ++ '/' :: r) = r.takeWhile (· ≠ '/') := by
  have hdrop : (path ++ '/' :: r).drop (path.length + 1) = r := by
    rw [← List.drop_drop]
    simp
  rw [step, hdrop]

theorem step_sub {path n : Str} (hn : '/' ∉ n) : step path (path ++ '/' :: n) = n := by
  rw [step_cons, List.takeWhile_eq_self_iff]
  intro c hc
  simpa using fun h : c = '/' => hn (h ▸ hc)

/-- What lies below a directory is reached through the same entry. -/
theorem step_below {path p d : Str} (hp : Below path p) (hd : Below p d) : step path d = step path p := by
  have key : ∀ r r' : Str, (r ++ '/' :: r').takeWhile (· ≠ '/') = r.takeWhile (· ≠ '/') := by
    intro r r'
    induction r with
    | nil => simp
    | cons c r ih =>
      rw [List.cons_append, List.takeWhile_cons, List.takeWhile_cons, ih]
  obtain ⟨r, rfl⟩ := hp
  obtain ⟨r', rfl⟩ := hd
  have hassoc : path ++ ['/'] ++ r ++ ['/'] ++ r' = path ++ '/' :: (r ++ '/' :: r') := by simp
  have hassoc' : path ++ ['/'] ++ r = path ++ '/' :: r := by simp
  rw [hassoc, hassoc', step_cons, step_cons, key]

/-- A directory of a listing is reached through one of its entries. -/
theorem step_mem_names {path d : Str} {l : Listing} (hw : l.WellFormed) (h : d ∈ l.dirs path) :
    step path d ∈ l.names := by
  induction l with
  | nil => cases h
  | file n rest ih => exact List.mem_cons_of_mem _ (ih hw.2.2 h)
  | dir n entries rest _ ih =>
    rcases List.mem_cons.mp h with rfl | h
    · rw [step_sub hw.1]
      exact List.mem_cons_self ..
    · rcases List.mem_append.mp h with h | h
      · rw [step_below (below_sub path n) (below_of_mem_dirs h), step_sub hw.1]
        exact List.mem_cons_self ..
      · exact List.mem_cons_of_mem _ (ih hw.2.2.2 h)

/-! ## The first directory with a property -/

/-- When all directories with a property are `p` or below it, `p` comes first. -/
theorem find_dirs {path p : Str} {l : Listing} {P : Str → Bool} (hw : l.WellFormed) (hp : p ∈ l.dirs path)
    (hP : P p = true) (honly : ∀ d ∈ l.dirs path, P d = true → d = p ∨ Below p d) :
    (l.dirs path).find? P = some p := by
  induction l generalizing path with
  | nil => cases hp
  | file n rest ih => exact ih hw.2.2 hp honly
  | dir n entries rest ihe ihr =>
    obtain ⟨hn, hnames, hwe, hwr⟩ := hw
    simp only [dirs, List.mem_cons, List.mem_append] at hp honly
    rcases hp with rfl | hp | hp
    · simp [dirs, hP]
    · -- `p` is below the first entry, which does not have the property itself
      have hsub : Below (path ++ '/' :: n) p := below_of_mem_dirs hp
      have hfirst : P (path ++ '/' :: n) = false := by
        rw [← Bool.not_eq_true]
        intro hPn
        rcases honly _ (Or.inl rfl) hPn with heq | hbelow
        · exact hsub.ne heq.symm
        · exact (hsub.trans hbelow).ne rfl
      rw [dirs, List.find?_cons_of_neg (by simp [hfirst]), List.find?_append,
        ihe hwe hp fun d hd => honly d (Or.inr (Or.inl hd)), Option.some_or]
    · -- `p` is in another entry, so nothing in the first one has the property
      have hother : ∀ d, d = path ++ '/' :: n ∨ d ∈ entries.dirs (path ++ '/' :: n) → P d = false := by
        intro d hd
        rw [← Bool.not_eq_true]
        intro hPd
        have hdn : step path d = n := by
          rcases hd with rfl | hd
          · exact step_sub hn
          · rw [step_below (below_sub path n) (below_of_mem_dirs hd), step_sub hn]
        have hdp : step path d = step path p := by
          rcases honly d (by tauto) hPd with rfl | hbelow
          · rfl
          · exact step_below (below_of_mem_dirs hp) hbelow
        exact hnames (hdn ▸ hdp ▸ step_mem_names hwr hp)
      rw [dirs, List.find?_cons_of_neg (by simp [hother _ (Or.inl rfl)]), List.find?_append]
      have hnone : (entries.dirs (path ++ '/' :: n)).find? P = none :=
        List.find?_eq_none.mpr fun d hd => by simp [hother d (Or.inr hd)]
      rw [hnone, Option.none_or]
      exact ihr hwr hp fun d hd => honly d (Or.inr (Or.inr hd))

/-- Any directory can come before all others except those on the way to it. -/
theorem exists_reordered {path d : Str} {l : Listing} (h : d ∈ l.dirs path) :
    ∃ l', Reordered l l' ∧ ∃ way rest, l'.dirs path = way ++ d :: rest ∧ ∀ a ∈ way, Below a d := by
  induction l generalizing path with
  | nil => cases h
  | file n rest ih =>
    obtain ⟨rest', hrest, way, tail, hdirs, hway⟩ := ih h
    exact ⟨.file n rest', .file n hrest, way, tail, hdirs, hway⟩
  | dir n entries rest ihe ihr =>
    rcases List.mem_cons.mp h with rfl | h
    · exact ⟨_, .refl _, [], _, rfl, by simp⟩
    · rcases List.mem_append.mp h with h | h
      · obtain ⟨entries', hentries, way, tail, hdirs, hway⟩ := ihe h
        refine ⟨.dir n entries' rest, .dir n hentries (.refl _), (path ++ '/' :: n) :: way,
          tail ++ rest.dirs path, by simp [dirs, hdirs], ?_⟩
        intro a ha
        rcases List.mem_cons.mp ha with rfl | ha
        · exact below_of_mem_dirs h
        · exact hway a ha
      · -- the entry of `d` is listed first, the entry `n` last
        obtain ⟨rest', hrest, way, tail, hdirs, hway⟩ := ihr h
        refine ⟨append rest' (.dir n entries .nil), ?_, way, tail ++ (Listing.dir n entries .nil).dirs path,
          by simp [dirs_append, hdirs], hway⟩
        exact .trans (.dir n (.refl _) hrest) (.rotate (.dir n entries .nil) rest')

end Listing

namespace Cgroup

open Listing

variable {name path : Str}

/-- The search returns the first directory whose path contains the name. -/
theorem searchEntries_eq (name path : Str) (l : Listing) :
    searchEntries name path l = ((l.dirs path).find? (name <:+: ·)).getD [] := by
  induction l generalizing path with
  | nil => rfl
  | file n rest ih => exact ih path
  | dir n entries rest ihe ihr =>
    simp only [searchEntries, dirs]
    by_cases hsub : name <:+: path ++ '/' :: n
    · simp [hsub]
    · rw [if_neg hsub, ihe, ihr, List.find?_cons_of_neg (by simpa using hsub), List.find?_append]
      cases hfind : (entries.dirs (path ++ '/' :: n)).find? (name <:+: ·) with
      | none => simp
      | some d =>
        have hd : d ≠ [] := by
          rintro rfl
          have := (below_of_mem_dirs (List.mem_of_find?_eq_some hfind)).length_le
          simp at this
        simp [hd]

/-- For a name that the path of the slice does not contain, the search is the one over its entries. -/
theorem recursiveSearch_eq {l : Listing} (h : ¬ name <:+: path) :
    recursiveSearch path l name = ((l.dirs path).find? (name <:+: ·)).getD [] := by
  rw [recursiveSearch, if_neg h, searchEntries_eq]

/-- The search returns `p` in every order of the listing if and only if no directory but `p` and those
below it contains the name. -/
theorem search_iff {l : Listing} {p : Str} (hw : l.WellFormed) (hpath : ¬ name <:+: path)
    (hp : p ∈ l.dirs path) (hname : name <:+: p) :
    (∀ l', Reordered l l' → recursiveSearch path l' name = p) ↔
      ∀ d ∈ l.dirs path, name <:+: d → d = p ∨ Below p d := by
  constructor
  · intro h d hd hin
    by_contra hne
    rw [not_or] at hne
    obtain ⟨l', hl', way, rest, hdirs, hway⟩ := exists_reordered hd
    have hsearch := h l' hl'
    -- the search finds `d` or a directory on the way to it
    have hfind : ∃ a, (l'.dirs path).find? (name <:+: ·) = some a ∧ (a = d ∨ Below a d) := by
      rw [hdirs, List.find?_append]
      cases hf : way.find? (name <:+: ·) with
      | some a => exact ⟨a, rfl, Or.inr (hway a (List.mem_of_find?_eq_some hf))⟩
      | none => exact ⟨d, by simp [hin], Or.inl rfl⟩
    obtain ⟨a, ha, had⟩ := hfind
    rw [recursiveSearch_eq hpath, ha, Option.getD_some] at hsearch
    subst hsearch
    rcases had with rfl | hbelow
    · exact hne.1 rfl
    · exact hne.2 hbelow
  · intro h l' hl'
    obtain ⟨-, hw', hdirs⟩ := hl'.same
    rw [recursiveSearch_eq hpath, find_dirs (hw' hw) ((hdirs path p).mp hp) (by simpa using hname)
      fun d hd hin => h d ((hdirs path d).mpr hd) (by simpa using hin), Option.getD_some]

/-! ## Scopes -/

def scopePrefix : Str := "machine-qemu\\x2d".toList

def scopeSuffix : Str := ".scope".toList

/-- The name of the scope that the hypervisor makes for its domain number `n`, the VM `id`:
`machine-qemu\x2d<n>\x2dv<id>.scope`. -/
def scopeName (n : ℕ) (id : Str) : Str :=
  scopePrefix ++ Nat.toDigits 10 n ++ ['\\', 'x', '2', 'd', 'v'] ++ id ++ scopeSuffix

/-- The directory `p` is the scope of the VM `id`. -/
structure Scope (v2 : Bool) (machine : Listing) (id p : Str) : Prop where
  mem : p ∈ machine.dirs (machineSlice v2)
  name : ∃ parent n, p = parent ++ '/' :: scopeName n id
  plain : '/' ∉ id

theorem takeWhile_ne_append {x : Char} {a r : Str} (h : x ∉ a) : (a ++ x :: r).takeWhile (· ≠ x) = a := by
  rw [List.takeWhile_append_of_pos fun c hc => by simpa using fun heq : c = x => h (heq ▸ hc)]
  simp

theorem not_mem_toDigits {c : Char} (hc : c.isDigit = false) (n : ℕ) : c ∉ Nat.toDigits 10 n := by
  intro h
  rw [Nat.isDigit_of_mem_toDigits (by decide) (by decide) h] at hc
  cases hc

/-- The name of a scope determines its VM. -/
theorem scopeName_inj {n m : ℕ} {id id' : Str} (h : scopeName n id = scopeName m id') : id = id' := by
  have hshape : ∀ k i, scopeName k i =
      scopePrefix ++ (Nat.toDigits 10 k ++ '\\' :: (['x', '2', 'd', 'v'] ++ (i ++ scopeSuffix))) := by
    intro k i
    simp [scopeName]
  rw [hshape, hshape, List.append_cancel_left_eq] at h
  have hn := congrArg (List.takeWhile (· ≠ '\\')) h
  rw [takeWhile_ne_append (not_mem_toDigits rfl n), takeWhile_ne_append (not_mem_toDigits rfl m)] at hn
  rw [hn] at h
  simpa using h

theorem scopeName_plain {n : ℕ} {id : Str} (h : '/' ∉ id) : '/' ∉ scopeName n id := by
  have hprefix : '/' ∉ scopePrefix := by decide
  have hsuffix : '/' ∉ scopeSuffix := by decide
  have hdigits : '/' ∉ Nat.toDigits 10 n := not_mem_toDigits rfl n
  simp [scopeName, h, hprefix, hsuffix, hdigits]

/-- Two VMs with different names have different scopes. -/
theorem Scope.ne {v2 : Bool} {machine : Listing} {id id' p p' : Str} (h : Scope v2 machine id p)
    (h' : Scope v2 machine id' p') (hid : id ≠ id') : p ≠ p' := by
  obtain ⟨parent, n, rfl⟩ := h.name
  obtain ⟨parent', m, rfl⟩ := h'.name
  intro heq
  have hrev := congrArg List.reverse heq
  simp only [List.reverse_append, List.reverse_cons, List.append_assoc, List.singleton_append] at hrev
  have hlast := congrArg (List.takeWhile (· ≠ '/')) hrev
  rw [takeWhile_ne_append (by simpa using scopeName_plain h.plain),
    takeWhile_ne_append (by simpa using scopeName_plain h'.plain)] at hlast
  exact hid (scopeName_inj (List.reverse_injective hlast))

theorem Scope.isInfix {v2 : Bool} {machine : Listing} {id p : Str} (h : Scope v2 machine id p) :
    'v' :: id <:+: p := by
  obtain ⟨parent, n, rfl⟩ := h.name
  refine ⟨parent ++ '/' :: (scopePrefix ++ Nat.toDigits 10 n ++ ['\\', 'x', '2', 'd']), scopeSuffix, ?_⟩
  simp [scopeName]

theorem not_infix_machineSlice (v2 : Bool) (id : Str) : ¬ 'v' :: id <:+: machineSlice v2 := by
  intro h
  have hv : 'v' ∈ machineSlice v2 := h.subset (List.mem_cons_self ..)
  revert hv
  cases v2 <;> decide

/-- Every VM is bound to its own scope in every order of the listing, and no two of them to the same
directory, if and only if no directory but the scope of a VM and those below it contains the name of
the VM in its path. -/
theorem search_scope_iff {v2 : Bool} {machine : Listing} (hw : machine.WellFormed) {vms : List (Str × Str)}
    (hscope : ∀ vm ∈ vms, Scope v2 machine vm.1 vm.2) :
    (∀ machine', Reordered machine machine' →
      (∀ vm ∈ vms, search { vmName := vm.1, v2 } machine' = vm.2) ∧
      ∀ vm ∈ vms, ∀ vm' ∈ vms, vm.1 ≠ vm'.1 →
        search { vmName := vm.1, v2 } machine' ≠ search { vmName := vm'.1, v2 } machine') ↔
    ∀ vm ∈ vms, ∀ d ∈ machine.dirs (machineSlice v2), 'v' :: vm.1 <:+: d → d = vm.2 ∨ Below vm.2 d := by
  have hiff : ∀ vm ∈ vms, _ := fun vm hvm =>
    search_iff hw (not_infix_machineSlice v2 vm.1) (hscope vm hvm).mem (hscope vm hvm).isInfix
  constructor
  · intro h vm hvm
    exact (hiff vm hvm).mp fun machine' hr => (h machine' hr).1 vm hvm
  · intro h machine' hr
    have hfound : ∀ vm ∈ vms, search { vmName := vm.1, v2 } machine' = vm.2 := fun vm hvm =>
      (hiff vm hvm).mpr (h vm hvm) machine' hr
    refine ⟨hfound, ?_⟩
    intro vm hvm vm' hvm' hid
    rw [hfound vm hvm, hfound vm' hvm']
    exact (hscope vm hvm).ne (hscope vm' hvm') hid

/-- A slice with a scope for each of two VMs, with one vCPU each. -/
def twoScopes (id id' : Str) : Listing :=
  let inner : Listing := .dir "libvirt".toList (.dir "vcpu0".toList .nil .nil) .nil
  .dir (scopeName 1 id) inner (.dir (scopeName 2 id') inner .nil)

def scopePath (n : ℕ) (id : Str) : Str := machineSlice true ++ '/' :: scopeName n id

theorem search_scope_two :
    let vms := [("a1".toList, scopePath 1 "a1".toList), ("b1".toList, scopePath 2 "b1".toList)]
    ∀ machine', Reordered (twoScopes "a1".toList "b1".toList) machine' →
      (∀ vm ∈ vms, search { vmName := vm.1, v2 := true } machine' = vm.2) ∧
      ∀ vm ∈ vms, ∀ vm' ∈ vms, vm.1 ≠ vm'.1 →
        search { vmName := vm.1, v2 := true } machine' ≠ search { vmName := vm'.1, v2 := true } machine' := by
  intro vms
  have hscope : ∀ vm ∈ vms, Scope true (twoScopes "a1".toList "b1".toList) vm.1 vm.2 := by
    refine List.forall_mem_cons.mpr ⟨?_, List.forall_mem_cons.mpr ⟨?_, by simp⟩⟩
    · exact ⟨by decide +kernel, ⟨machineSlice true, 1, rfl⟩, by decide⟩
    · exact ⟨by decide +kernel, ⟨machineSlice true, 2, rfl⟩, by decide⟩
  exact (search_scope_iff (by decide +kernel) hscope).mpr (by decide +kernel)

/-- The instance `a1` of a benchmark is bound to the cgroup of its instance `a10`. -/
theorem search_prefix :
    let machine := twoScopes "a10".toList "a1".toList
    machine.WellFormed ∧ Scope true machine "a10".toList (scopePath 1 "a10".toList) ∧
      Scope true machine "a1".toList (scopePath 2 "a1".toList) ∧
      search { vmName := "a10".toList, v2 := true } machine = scopePath 1 "a10".toList ∧
      search { vmName := "a1".toList, v2 := true } machine = scopePath 1 "a10".toList ∧
      scopePath 1 "a10".toList ≠ scopePath 2 "a1".toList := by
  refine ⟨by decide +kernel, ?_, ?_, by decide +kernel, by decide +kernel, by decide +kernel⟩
  · exact ⟨by decide +kernel, ⟨machineSlice true, 1, rfl⟩, by decide⟩
  · exact ⟨by decide +kernel, ⟨machineSlice true, 2, rfl⟩, by decide⟩

end Cgroup
