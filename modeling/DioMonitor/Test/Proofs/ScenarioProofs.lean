import DioMonitor.Test.Scenario
import Mathlib.Data.List.Nodup
import Mathlib.Data.List.Pairwise

/-!
# Proofs: the tests of the VMs

The analyser cuts the last character off the name of a VM to find its group. That is the whole index
only for the first ten instances (`attributed_iff`).
-/

namespace ResultAnalyser

/-! ## The names of the instances -/

theorem dropLast_of_lt {g : VMGroup} {j : ℕ} (hj : j < 10) : (g.vm j).name.dropLast = g.name := by
  rw [VMGroup.vm, Nat.toDigits_of_lt_base hj]
  exact List.dropLast_concat

/-- From the tenth instance on, the index without its last digit stays in the name. -/
theorem dropLast_of_le {g : VMGroup} {j : ℕ} (hj : 10 ≤ j) :
    (g.vm j).name.dropLast = g.name ++ Nat.toDigits 10 (j / 10) := by
  rw [VMGroup.vm, Nat.toDigits_of_base_le (by decide) hj, ← List.append_assoc]
  exact List.dropLast_concat

theorem mem_vms {g : VMGroup} {vm : VM × Test} :
    vm ∈ g.vms ↔ ∃ j : ℕ, (j : ℤ) < g.instances ∧ vm = (g.vm j, g.test) := by
  rw [VMGroup.vms, List.mem_map]
  constructor
  · rintro ⟨j, hj, rfl⟩
    have hlt := List.mem_range.mp hj
    exact ⟨j, by omega, rfl⟩
  · rintro ⟨j, hj, rfl⟩
    exact ⟨j, List.mem_range.mpr (by omega), rfl⟩

/-! ## What the analyser finds -/

section

variable {yaml : Yaml} {file : Str} {results : List Page}

/-- The analyser looks for the first group whose name is that of the VM without its last character. -/
theorem readScenarioType_store (hyaml : yaml.load (yaml.dump (yaml.load file)) = yaml.load file)
    (vmName : Str) (g : VMGroup) :
    readScenarioType yaml (Scenario.store yaml file :: results) vmName = typeAndName g ↔
      Finds (yaml.load file) vmName.dropLast g := by
  unfold readScenarioType Finds Scenario.store
  simp only [hyaml]
  cases (yaml.load file).vms.find? fun v => v.name = vmName.dropLast with
  | none => exact Iff.rfl
  | some v => exact Iff.rfl

/-- A group is attributed when its instances below ten are, and those of each further ten. -/
theorem group_attributed (hyaml : yaml.load (yaml.dump (yaml.load file)) = yaml.load file)
    (g : VMGroup) :
    (∀ vm ∈ g.vms,
        readScenarioType yaml (Scenario.store yaml file :: results) vm.1.name = typeAndName g) ↔
      (0 < g.instances → Finds (yaml.load file) g.name g) ∧
        ∀ q : ℕ, 0 < q → 10 * (q : ℤ) < g.instances →
          Finds (yaml.load file) (g.name ++ Nat.toDigits 10 q) g := by
  simp only [readScenarioType_store hyaml]
  constructor
  · intro h
    refine ⟨?_, ?_⟩
    · intro hpos
      have hfirst := h _ (mem_vms.mpr ⟨0, hpos, rfl⟩)
      rwa [dropLast_of_lt (by decide)] at hfirst
    · intro q hq hlt
      have hfirst := h _ (mem_vms.mpr ⟨10 * q, by omega, rfl⟩)
      rwa [dropLast_of_le (by omega), Nat.mul_div_cancel_left q (by decide)] at hfirst
  · rintro ⟨hfirst, hlater⟩ vm hvm
    obtain ⟨j, hj, rfl⟩ := mem_vms.mp hvm
    by_cases hten : j < 10
    · rw [dropLast_of_lt hten]
      exact hfirst (by omega)
    · rw [dropLast_of_le (by omega)]
      exact hlater (j / 10) (by omega) (by omega)

/-- Results are attributed to their tests exactly when the first group of each name has the right test,
and so have the groups that are called like a larger one followed by the beginning of an index. -/
theorem attributed_iff (hyaml : yaml.load (yaml.dump (yaml.load file)) = yaml.load file) :
    Attributed yaml (Scenario.store yaml file :: results) (yaml.load file) ↔
      ∀ g ∈ (yaml.load file).vms, (0 < g.instances → Finds (yaml.load file) g.name g) ∧
        ∀ q : ℕ, 0 < q → 10 * (q : ℤ) < g.instances →
          Finds (yaml.load file) (g.name ++ Nat.toDigits 10 q) g :=
  forall₂_congr fun g _ => group_attributed hyaml g

/-- With distinct names, two instances of the same name are of one group. -/
theorem group_unique (hnd : ((Scenario.readScenario yaml file).toInstall.map (·.1.name)).Nodup)
    {v g : VMGroup} (hv : v ∈ (yaml.load file).vms) (hg : g ∈ (yaml.load file).vms) {i j : ℕ}
    (hi : (i : ℤ) < v.instances) (hj : (j : ℤ) < g.instances) (hname : (v.vm i).name = (g.vm j).name) :
    v = g := by
  by_contra hne
  rw [Scenario.readScenario, List.map_flatMap, List.nodup_flatMap] at hnd
  have hsymm : Std.Symm (Function.onFun List.Disjoint fun g : VMGroup => g.vms.map (·.1.name)) :=
    ⟨fun _ _ h _ ha hb => h hb ha⟩
  have hdisj := hnd.2.forall hv hg hne
  have hvi : (v.vm i).name ∈ v.vms.map (·.1.name) := List.mem_map.mpr ⟨_, mem_vms.mpr ⟨i, hi, rfl⟩, rfl⟩
  have hgj : (g.vm j).name ∈ g.vms.map (·.1.name) := List.mem_map.mpr ⟨_, mem_vms.mpr ⟨j, hj, rfl⟩, rfl⟩
  exact hdisj hvi (hname ▸ hgj)

/-- When every group has an instance and every test a type, the analyser is right exactly when no group
has more than ten instances. -/
theorem attributed_iff_le_ten (hyaml : yaml.load (yaml.dump (yaml.load file)) = yaml.load file)
    (hnd : ((Scenario.readScenario yaml file).toInstall.map (·.1.name)).Nodup)
    (hbusy : ∀ g ∈ (yaml.load file).vms, 0 < g.instances)
    (htype : ∀ g ∈ (yaml.load file).vms, g.test.type ≠ []) :
    Attributed yaml (Scenario.store yaml file :: results) (yaml.load file) ↔
      ∀ g ∈ (yaml.load file).vms, g.instances ≤ 10 := by
  refine forall₂_congr fun g hg => ?_
  rw [group_attributed hyaml g]
  constructor
  · rintro ⟨-, hlater⟩
    by_contra hmore
    have hone := hlater 1 Nat.one_pos (by omega)
    unfold Finds at hone
    cases hfind : (yaml.load file).vms.find? fun v => v.name = g.name ++ Nat.toDigits 10 1 with
    | none =>
      rw [hfind] at hone
      exact htype g hg (congrArg Prod.fst hone).symm
    | some v =>
      -- the instance 0 of that group is called like the instance 10 of this one
      have hv := List.mem_of_find?_eq_some hfind
      have hvname : v.name = g.name ++ Nat.toDigits 10 1 := by simpa using List.find?_some hfind
      have hname : (v.vm 0).name = (g.vm 10).name := by
        rw [VMGroup.vm, VMGroup.vm, hvname, List.append_assoc]
        rfl
      have hsame := group_unique hnd hv hg (hbusy v hv) (by omega) hname
      rw [hsame] at hvname
      have hlen := congrArg List.length hvname
      simp at hlen
  · intro hten
    refine ⟨fun hpos => ?_, fun q hq hlt => by omega⟩
    unfold Finds
    cases hfind : (yaml.load file).vms.find? fun v => v.name = g.name with
    | none =>
      have hno := List.find?_eq_none.mp hfind g hg
      exact absurd (decide_eq_true rfl) hno
    | some v =>
      have hv := List.mem_of_find?_eq_some hfind
      have hvname : v.name = g.name := by simpa using List.find?_some hfind
      have hname : (v.vm 0).name = (g.vm 0).name := congrArg (· ++ Nat.toDigits 10 0) hvname
      rw [group_unique hnd hv hg (hbusy v hv) hpos hname]
      rfl

end

/-! ## The scenario `chetemi_1A` -/

/-- The group `small`, with any number of instances. -/
def small (instances : ℕ) : VMGroup :=
  { name := "small".toList
    image := "ubuntu-20.04".toList
    vcpus := 2
    memory := 4192
    frequency := 500
    memorySLA := 9 / 10
    disk := 10000
    instances := instances
    test := { type := "phoronix".toList, name := some "compress-7zip".toList } }

/-- A scenario with this group only, as `yaml.dump` writes it. -/
def smallText (instances : ℕ) : Str :=
  "vms:\n- disk: 10000\n  frequency: 500\n  image: ubuntu-20.04\n  instances: ".toList ++
    Nat.toDigits 10 instances ++ "\n  memory: 4192\n  memorySLA: 0.9\n  name: small\n  test:\n".toList ++
    "    name: compress-7zip\n    type: phoronix\n  vcpus: 2\n".toList

def smallYaml (instances : ℕ) : Yaml :=
  { load := fun _ => { vms := [small instances] }, dump := fun _ => smallText instances }

/-- Ten instances are attributed to their test. -/
theorem attributed_ten : Attributed (smallYaml 10) [Scenario.store (smallYaml 10) (smallText 10)]
    ((smallYaml 10).load (smallText 10)) := by
  have hyaml : (smallYaml 10).load ((smallYaml 10).dump ((smallYaml 10).load (smallText 10))) =
      (smallYaml 10).load (smallText 10) := rfl
  apply (attributed_iff hyaml).mpr
  intro g hg
  obtain rfl : g = small 10 := List.mem_singleton.mp hg
  refine ⟨fun _ => rfl, ?_⟩
  intro q hq hlt
  have hten : 10 * (q : ℤ) < 10 := hlt
  omega

/-- Of the twenty instances of the paper, the VM `small10` is attributed to no test. -/
theorem attributed_twenty :
    ((Scenario.readScenario (smallYaml 20) (smallText 20)).toInstall.map (·.1.name)).Nodup ∧
      ¬ Attributed (smallYaml 20) [Scenario.store (smallYaml 20) (smallText 20)]
        ((smallYaml 20).load (smallText 20)) := by
  refine ⟨by decide, ?_⟩
  intro h
  have hten : ((small 20).vm 10, (small 20).test) ∈ (small 20).vms := mem_vms.mpr ⟨10, by decide, rfl⟩
  have hread := h (small 20) List.mem_cons_self _ hten
  exact absurd hread (by decide)

end ResultAnalyser
