import DioMonitor.Libvirt.Proofs.VmProofs
import DioMonitor.Test.Launcher
import DioMonitor.Utils.Proofs.AcceptanceProofs
import DioMonitor.Utils.Proofs.ConfigProofs
import DioMonitor.Utils.Proofs.WrittenProofs

/-!
# Proofs: the launcher of the test VMs

The configuration file that the launcher writes for a VM is read by the daemon as that VM
(`createVMConfigFile_read`).
-/

namespace ExecoClient

open Config Toml Lexing Layout

/-! ## Dictionaries built from entries -/

theorem lookup_of_mem {kvs : List (Str × Value)} (hnd : (kvs.map Prod.fst).Nodup) {k : Str} {v : Value}
    (h : (k, v) ∈ kvs) : kvs.lookup k = some v := by
  induction kvs with
  | nil => cases h
  | cons e kvs ih =>
    obtain ⟨hnot, hnd'⟩ := List.nodup_cons.mp hnd
    rcases List.mem_cons.mp h with rfl | h
    · exact List.lookup_cons_self
    · have hne : (k == e.1) = false := by
        rw [beq_eq_false_iff_ne]
        rintro rfl
        exact hnot (List.mem_map.mpr ⟨_, h, rfl⟩)
      rw [List.lookup_cons, hne]
      exact ih hnd' h

/-- The entries of different names are found in the dictionary that is built from them. -/
theorem find_build {kvs : List (Str × Value)} (hnd : (kvs.map Prod.fst).Nodup) {k : Str} {v : Value}
    (h : (k, v) ∈ kvs) : Dict.find (build kvs) k = some v := by
  obtain ⟨hsorted, hperm⟩ := Dict.foldl_insert_perm (d := []) hnd List.Pairwise.nil (by simp)
  rw [List.append_nil] at hperm
  exact lookup_of_mem hsorted.nodup (hperm.symm.subset h)

theorem find_build_absent {kvs : List (Str × Value)} (hnd : (kvs.map Prod.fst).Nodup) {k : Str}
    (h : k ∉ kvs.map Prod.fst) : Dict.find (build kvs) k = none := by
  obtain ⟨-, hperm⟩ := Dict.foldl_insert_perm (d := []) hnd List.Pairwise.nil (by simp)
  rw [List.append_nil] at hperm
  refine List.lookup_eq_none_iff.mpr fun e he => bne_iff_ne.mpr ?_
  rintro rfl
  exact h (List.mem_map_of_mem (hperm.subset he))

/-! ## Texts of values -/

/-- The text `x` is read as `v` wherever a delimiter follows. -/
def Reads (x : Str) (v : Value) : Prop :=
  ∀ t, Begins delimiters t → IsValue (pieces delimiters (x ++ t)) v (pieces delimiters t)

theorem reads_quoted {s : Str} (hq : '"' ∉ s) (hc : '#' ∉ s) : Reads ('"' :: (s ++ ['"'])) (.string s) :=
  fun t _ => (IsText.string (Or.inr rfl) hq hc).isValue t fun h => h.elim

theorem reads_showInt {i : ℤ} (hlo : -2 ^ 31 ≤ i) (hhi : i < 2 ^ 31) : Reads (showInt i) (.int i) :=
  fun t ht => (IsText.int (Numbers.numeral_showInt i) hlo hhi).isValue t fun _ => ht

/-- The characters of a decimal number are no delimiters. -/
theorem plain_decimal {x : Str} {neg : Bool} {q : ℚ} (hx : Numbers.Decimal x neg q) :
    ∀ c ∈ x, ¬ IsDelimiter c := by
  have hdigit : ∀ ds : Str, (∀ c ∈ ds, c.isDigit = true) → ∀ c ∈ ds, ¬ IsDelimiter c := by
    intro ds hds c hc hd
    have hall : ∀ e ∈ delimiters.flatten, ¬ e.isDigit = true := List.any_eq_false.mp rfl
    exact hall c (List.mem_flatten.mpr ⟨[c], hd, List.mem_singleton_self c⟩) (hds c hc)
  have hsign : ∀ {b : Bool} {sign : Str}, sign ∈ Numbers.signs b → ∀ c ∈ sign, ¬ IsDelimiter c := by
    intro b sign hsign c hc
    cases b with
    | true =>
      rw [List.mem_singleton.mp hsign] at hc
      rw [List.mem_singleton.mp hc]
      decide
    | false =>
      rcases List.mem_cons.mp hsign with rfl | hsign
      · cases hc
      · rw [List.mem_singleton.mp hsign] at hc
        rw [List.mem_singleton.mp hc]
        decide
  obtain ⟨sign, ip, fp, ex, e, hs, hd, hex, rfl, -⟩ := hx
  have hip : ∀ c ∈ ip, ¬ IsDelimiter c := hdigit ip fun c hc => hd.2 c (List.mem_append_left _ hc)
  have hfp : ∀ c ∈ fp, ¬ IsDelimiter c := hdigit fp fun c hc => hd.2 c (List.mem_append_right _ hc)
  have hexp : ∀ c ∈ ex, ¬ IsDelimiter c := by
    cases hex with
    | absent => exact fun c hc => absurd hc List.not_mem_nil
    | @present mark b sg ds hm hsg hds =>
      intro c hc
      rcases List.mem_cons.mp hc with rfl | hc
      · intro hdel
        have hall : ∀ d ∈ delimiters.flatten, ¬ (d.toLower == 'e') = true := List.any_eq_false.mp rfl
        refine hall c (List.mem_flatten.mpr ⟨[c], hdel, List.mem_singleton_self c⟩) ?_
        rw [hm]
        rfl
      · rcases List.mem_append.mp hc with hc | hc
        · exact hsign hsg c hc
        · exact hdigit ds hds.2 c hc
  intro c hc
  rcases List.mem_append.mp hc with hc | hc
  · exact hsign hs c hc
  · rcases List.mem_append.mp hc with hc | hc
    · exact hip c hc
    · rcases List.mem_cons.mp hc with rfl | hc
      · decide
      · rcases List.mem_append.mp hc with hc | hc
        · exact hfp c hc
        · exact hexp c hc

theorem reads_decimal {x : Str} {neg : Bool} {q : ℚ} (hx : Numbers.Decimal x neg q) {v : FloatVal}
    (hv : Numbers.toFloat neg q = .ok v) : Reads x (.float v) := by
  intro t ht
  have hp := Strict.decimal_point hx
  have hne : x ≠ [] := List.ne_nil_of_mem hp
  exact .float (significant_word hne (plain_decimal hx) ht) (Strict.word_of_point hp) hp
    ((Numbers.stof_decimal hx).trans hv)

/-! ## Lines -/

/-- The lines of a section: the name, the text and the value of each entry. -/
def lines (ls : List (Str × Str × Value)) : Str :=
  ls.flatMap fun l => l.1 ++ (" = ".toList ++ (l.2.1 ++ newline))

theorem entries_lines {ls : List (Str × Str × Value)} (h : ∀ l ∈ ls, Key l.1 ∧ Reads l.2.1 l.2.2) :
    Entries true (pieces delimiters (newline ++ (lines ls ++ newline))) (ls.map fun l => (l.1, l.2.2))
      [newline] := by
  induction ls with
  | nil =>
    refine .eof ?_
    rw [show newline = ['\n'] from rfl, gap_newline.significant]
    exact significant_line
  | cons l ls ih =>
    obtain ⟨⟨hkey, hreads⟩, hrest⟩ := List.forall_mem_cons.mp h
    obtain ⟨ps, ps', hname, hequals, hvalue⟩ :=
      (assigns_dump l.1 l.2.1).significant (t := newline ++ (lines ls ++ newline)) hkey
    have hbegins : Begins delimiters (newline ++ (lines ls ++ newline)) :=
      gap_newline.begins (Or.inl (List.cons_ne_nil _ _))
    have hv := hreads _ hbegins
    refine .entry ?_ (hkey.ne_delimiter (by decide)) hequals (hv.of_significant hvalue) (ih hrest)
    rw [show newline = ['\n'] from rfl, gap_newline.significant]
    rw [← hname]
    simp [lines, newline]

/-! ## The file of a VM -/

theorem bind_ok {ε α β : Type} {x : Except ε α} {a : α} {f : α → Except ε β} (h : x = .ok a) :
    (x >>= f) = f a := by
  rw [h]
  rfl

section File

variable (repr : ℚ → Str) (vmInfo : VM) (pubKey : Str) (sla : FloatVal)

/-- The path of the image, as it stands in the file. -/
def imagePath (image : Str) : Str := "/root/.qcow2/".toList ++ image ++ ".qcow2".toList

/-- The entries of the file. -/
def fileLines : List (Str × Str × Value) :=
  [("name".toList, '"' :: (vmInfo.name ++ ['"']), .string vmInfo.name),
    ("image".toList, '"' :: (imagePath vmInfo.image ++ ['"']), .string (imagePath vmInfo.image)),
    ("ssh_key".toList, '"' :: (pubKey ++ ['"']), .string pubKey),
    ("vcpus".toList, showInt vmInfo.vcpus, .int vmInfo.vcpus),
    ("memory".toList, showInt vmInfo.memory, .int vmInfo.memory),
    ("disk".toList, showInt vmInfo.disk, .int vmInfo.disk),
    ("frequency".toList, showInt vmInfo.frequency, .int vmInfo.frequency),
    ("memorySLA".toList, repr vmInfo.memorySLA, .float sla)]

/-- The dictionary of the section `vm`. -/
def fileEntries : List (Str × Value) := (fileLines repr vmInfo pubKey sla).map fun l => (l.1, l.2.2)

theorem nodup_fileEntries : ((fileEntries repr vmInfo pubKey sla).map Prod.fst).Nodup := by
  simp [fileEntries, fileLines]

theorem createVMConfigFile_eq :
    createVMConfigFile repr vmInfo pubKey =
      '[' :: ("vm".toList ++ ']' :: (newline ++ lines (fileLines repr vmInfo pubKey sla))) := by
  unfold createVMConfigFile line lines fileLines imagePath newline
  simp only [List.flatMap_cons, List.flatMap_nil, List.append_assoc, List.cons_append, List.nil_append]
  rfl

/-- What the file may hold: texts without quotes and comments, and numbers that the parser reads. -/
structure Writable : Prop where
  name : '"' ∉ vmInfo.name ∧ '#' ∉ vmInfo.name
  image : '"' ∉ vmInfo.image ∧ '#' ∉ vmInfo.image
  pubKey : '"' ∉ pubKey ∧ '#' ∉ pubKey
  vcpus : -2 ^ 31 ≤ vmInfo.vcpus ∧ vmInfo.vcpus < 2 ^ 31
  memory : -2 ^ 31 ≤ vmInfo.memory ∧ vmInfo.memory < 2 ^ 31
  disk : -2 ^ 31 ≤ vmInfo.disk ∧ vmInfo.disk < 2 ^ 31
  frequency : -2 ^ 31 ≤ vmInfo.frequency ∧ vmInfo.frequency < 2 ^ 31
  memorySLA : ∃ neg q, Numbers.Decimal (repr vmInfo.memorySLA) neg q ∧ Numbers.toFloat neg q = .ok sla

variable {repr vmInfo pubKey sla}

theorem key_word {k : Str} (hne : k ≠ []) (h : k.all (fun c => ¬ IsDelimiter c) = true) : Key k :=
  ⟨hne, plain_of_all h⟩

theorem reads_fileLines (hw : Writable repr vmInfo pubKey sla) :
    ∀ l ∈ fileLines repr vmInfo pubKey sla, Key l.1 ∧ Reads l.2.1 l.2.2 := by
  have himage : '"' ∉ imagePath vmInfo.image ∧ '#' ∉ imagePath vmInfo.image := by
    have hpath : ∀ c, c ∉ "/root/.qcow2/".toList → c ∉ vmInfo.image → c ∉ ".qcow2".toList →
        c ∉ imagePath vmInfo.image := by
      intro c hbefore himage hafter hc
      rcases List.mem_append.mp hc with hc | hc
      · rcases List.mem_append.mp hc with hc | hc
        · exact hbefore hc
        · exact himage hc
      · exact hafter hc
    exact ⟨hpath _ (by simp) hw.image.1 (by simp), hpath _ (by simp) hw.image.2 (by simp)⟩
  obtain ⟨neg, q, hdec, hsla⟩ := hw.memorySLA
  intro l hl
  simp only [fileLines, List.mem_cons, List.not_mem_nil, or_false] at hl
  rcases hl with rfl | rfl | rfl | rfl | rfl | rfl | rfl | rfl
  · exact ⟨key_word (by simp) rfl, reads_quoted hw.name.1 hw.name.2⟩
  · exact ⟨key_word (by simp) rfl, reads_quoted himage.1 himage.2⟩
  · exact ⟨key_word (by simp) rfl, reads_quoted hw.pubKey.1 hw.pubKey.2⟩
  · exact ⟨key_word (by simp) rfl, reads_showInt hw.vcpus.1 hw.vcpus.2⟩
  · exact ⟨key_word (by simp) rfl, reads_showInt hw.memory.1 hw.memory.2⟩
  · exact ⟨key_word (by simp) rfl, reads_showInt hw.disk.1 hw.disk.2⟩
  · exact ⟨key_word (by simp) rfl, reads_showInt hw.frequency.1 hw.frequency.2⟩
  · exact ⟨key_word (by simp) rfl, reads_decimal hdec hsla⟩

/-- The file is parsed, into one section with its entries. -/
theorem parse_file (hw : Writable repr vmInfo pubKey sla) :
    Toml.parse (createVMConfigFile repr vmInfo pubKey) =
      .ok [("vm".toList, .dict (build (fileEntries repr vmInfo pubKey sla)))] := by
  refine parse_eq_ok_iff.mpr ⟨[("vm".toList, .dict (build (fileEntries repr vmInfo pubKey sla)))], ?_, rfl⟩
  have hkey : Key "vm".toList := key_word (by simp) rfl
  have hclose : IsDelimiter ']' := by decide
  rw [createVMConfigFile_eq repr vmInfo pubKey sla]
  have htext : '[' :: ("vm".toList ++ ']' :: (newline ++ lines (fileLines repr vmInfo pubKey sla))) ++ newline =
      '[' :: ("vm".toList ++ ']' :: (newline ++ (lines (fileLines repr vmInfo pubKey sla) ++ newline))) := by
    simp
  rw [htext]
  refine .cons (significant_mark (by decide) _) (hkey.significant (begins_cons hclose _))
    (significant_mark (by decide) _) (entries_lines (reads_fileLines hw)) (.nil ?_)
  decide

/-- The daemon reads the file that the launcher writes for a VM as that VM: every field is the one of the
scenario, the user is the one that the launcher connects as, and there is a controller for each vCPU with
the frequency of the scenario. -/
theorem createVMConfigFile_read (hw : Writable repr vmInfo pubKey sla) (host : Host)
    (hhome : host.home = true) (hgrow : host.canGrow vmInfo.vcpus.toNat = true) :
    ∃ cfg, Toml.parse (createVMConfigFile repr vmInfo pubKey) = .ok cfg ∧
      LibvirtVM.ofDict host cfg = .ok {
        id := vmInfo.name
        userName := "phil".toList
        pubKey
        qcow := imagePath vmInfo.image
        disk := vmInfo.disk
        vcpus := vmInfo.vcpus
        mem := vmInfo.memory
        freq := vmInfo.frequency
        memorySLA := sla
        vcpuControllers := LibvirtVM.newControllers host vmInfo.name vmInfo.frequency vmInfo.vcpus } := by
  refine ⟨_, parse_file hw, ?_⟩
  have hnd := nodup_fileEntries repr vmInfo pubKey sla
  -- what the constructor finds in the dictionary
  have hstring : ∀ k x, (k, Value.string x) ∈ fileEntries repr vmInfo pubKey sla →
      Dict.getString (build (fileEntries repr vmInfo pubKey sla)) k = .ok x := by
    intro k x hmem
    unfold Dict.getString
    rw [find_build hnd hmem]
  have horString : ∀ k x y, (k, Value.string x) ∈ fileEntries repr vmInfo pubKey sla →
      Dict.getOrString (build (fileEntries repr vmInfo pubKey sla)) k y = .ok x := by
    intro k x y hmem
    unfold Dict.getOrString
    rw [find_build hnd hmem]
  have hint : ∀ k i y, (k, Value.int i) ∈ fileEntries repr vmInfo pubKey sla →
      -2 ^ 31 ≤ i ∧ i < 2 ^ 31 → Dict.getOrInt (build (fileEntries repr vmInfo pubKey sla)) k y = .ok i := by
    intro k i y hmem hi
    unfold Dict.getOrInt
    rw [find_build hnd hmem]
    exact congrArg _ (toInt_of_bounds hi.1 hi.2)
  have hfloat : Dict.getOrFloat (build (fileEntries repr vmInfo pubKey sla)) "memorySLA".toList
      (.num (1 / 2)) = .ok sla := by
    unfold Dict.getOrFloat
    rw [find_build hnd (v := .float sla) (by simp [fileEntries, fileLines])]
  -- the file does not name a user
  have huser : Dict.getOrString (build (fileEntries repr vmInfo pubKey sla)) "user".toList "phil".toList =
      .ok "phil".toList := by
    unfold Dict.getOrString
    rw [find_build_absent hnd (by simp [fileEntries, fileLines])]
  have hvm : Dict.getDict [("vm".toList, .dict (build (fileEntries repr vmInfo pubKey sla)))] "vm".toList =
      .ok (build (fileEntries repr vmInfo pubKey sla)) := rfl
  unfold LibvirtVM.ofDict
  rw [bind_ok hvm, bind_ok (hstring _ vmInfo.name (by simp [fileEntries, fileLines])), bind_ok huser,
    bind_ok (hstring _ (imagePath vmInfo.image) (by simp [fileEntries, fileLines])),
    bind_ok (hint _ vmInfo.disk _ (by simp [fileEntries, fileLines]) hw.disk),
    bind_ok (hint _ vmInfo.vcpus _ (by simp [fileEntries, fileLines]) hw.vcpus),
    bind_ok (hint _ vmInfo.memory _ (by simp [fileEntries, fileLines]) hw.memory),
    bind_ok (hint _ vmInfo.frequency _ (by simp [fileEntries, fileLines]) hw.frequency), bind_ok hfloat,
    hhome]
  simp only [Bool.not_true, Bool.false_eq_true, if_false]
  rw [bind_ok (horString _ pubKey _ (by simp [fileEntries, fileLines])), hgrow]
  rfl

/-- A VM of the scenarios, for a half of its memory. -/
def smallVM : VM :=
  { name := "v0".toList, image := "ubuntu".toList, vcpus := 2, memory := 2048, frequency := 1000
    memorySLA := 1 / 2, disk := 10000 }

theorem decimal_half : Numbers.Decimal "0.5".toList false (1 / 2) := by
  refine ⟨[], ['0'], ['5'], [], 0, by simp [Numbers.signs], ⟨by simp, by simp⟩, .absent, rfl, ?_⟩
  have hdigits : Numbers.ofDigits 10 (['0'] ++ ['5']) = 5 := by decide
  rw [hdigits]
  norm_num

theorem writable_small : Writable (fun _ => "0.5".toList) smallVM "key".toList (.num (1 / 2)) where
  name := by simp [smallVM]
  image := by simp [smallVM]
  pubKey := by simp
  vcpus := by simp [smallVM]
  memory := by simp [smallVM]
  disk := by simp [smallVM]
  frequency := by simp [smallVM]
  memorySLA := ⟨false, 1 / 2, decimal_half, by decide +kernel⟩

theorem createVMConfigFile_read_small :
    ∃ cfg, Toml.parse (createVMConfigFile (fun _ => "0.5".toList) smallVM "key".toList) = .ok cfg ∧
      LibvirtVM.ofDict { home := true, cgroupV2 := true, canAlloc := fun _ => true, canGrow := fun _ => true }
        cfg = .ok {
          id := "v0".toList
          userName := "phil".toList
          pubKey := "key".toList
          qcow := "/root/.qcow2/ubuntu.qcow2".toList
          disk := 10000
          vcpus := 2
          mem := 2048
          freq := 1000
          memorySLA := .num (1 / 2)
          vcpuControllers := LibvirtVM.newControllers
            { home := true, cgroupV2 := true, canAlloc := fun _ => true, canGrow := fun _ => true }
            "v0".toList 1000 2 } :=
  createVMConfigFile_read writable_small
    { home := true, cgroupV2 := true, canAlloc := fun _ => true, canGrow := fun _ => true } rfl rfl

end File

end ExecoClient
