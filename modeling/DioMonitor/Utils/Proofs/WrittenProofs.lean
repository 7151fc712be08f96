import DioMonitor.Utils.Proofs.LayoutProofs
import DioMonitor.Utils.Storable

/-!
# Proofs: what is written is a text of the configuration

What `dump` writes for a writable configuration is one of its texts (`isDocument_dump`).
-/

namespace Layout

open Config Toml Lexing

theorem toInt_of_bounds {i : ℤ} (hlo : -2 ^ 31 ≤ i) (hhi : i < 2 ^ 31) : Dict.toInt i = i := by
  unfold Dict.toInt
  exact Int.bmod_eq_of_le (by omega) (by omega)

mutual

theorem isText_dumpValue (v : Value) (hs : Storable v) (hp : Plain v) : IsText v (dumpValue v) := by
  match v, hs, hp with
  | .int i, .int hlo hhi, _ =>
    rw [dumpValue, toInt_of_bounds hlo hhi]
    exact .int (Numbers.numeral_showInt i) hlo hhi
  | .string s, .string hq hc, _ => exact .string (.inr rfl) hq hc
  | .array [], _, _ => exact .array (.nil .nil)
  | .array (v :: vs), .array hs, .array hp =>
    have hv := isText_dumpValue v (hs v (by simp)) (hp v (by simp))
    exact .array (isElements_dumpElements v vs .nil hv
      (fun w hw => ⟨hs w (List.mem_cons_of_mem _ hw), hp w (List.mem_cons_of_mem _ hw)⟩))

theorem isElements_dumpElements (v : Value) (vs : List Value) {g : Str} (hg : Gap g)
    (hv : IsText v (dumpValue v)) (hvs : ∀ w ∈ vs, Storable w ∧ Plain w) :
    IsElements (v :: vs) (g ++ (dumpValue v ++ dumpElements false vs)) := by
  match vs, hvs with
  | [], _ => exact .last hg hv .nil
  | w :: ws, hvs =>
    obtain ⟨hs, hp⟩ := hvs w (by simp)
    have hrest := isElements_dumpElements w ws gap_space (isText_dumpValue w hs hp)
      fun w' hw' => hvs w' (List.mem_cons_of_mem _ hw')
    exact .more hg hv .nil hrest

end

theorem assigns_dump (k x : Str) : Assigns k x (k ++ (" = ".toList ++ x)) :=
  ⟨[' '], [' '], gap_space, gap_space, rfl⟩

/-- A plain value is written in an inline table, in a section and in an array in the same way. -/
theorem dumpInline_plain {v : Value} (hp : Plain v) (first : Bool) (k : Str) (kvs : List (Str × Value)) :
    dumpInline first ((k, v) :: kvs) = (if first then [] else ", ".toList) ++
      (k ++ (" = ".toList ++ dumpValue v) ++ dumpInline false kvs) := by
  cases hp <;> rfl

theorem dumpGlobal_plain {v : Value} (hp : Plain v) (k : Str) (kvs : List (Str × Value)) :
    dumpGlobal false ((k, v) :: kvs) =
      k ++ (" = ".toList ++ (dumpValue v ++ newline)) ++ dumpGlobal false kvs := by
  cases hp <;> rfl

theorem isTable_dumpInline {kvs : List (Str × Value)} (hne : kvs ≠ []) (hk : ∀ e ∈ kvs, Key e.1)
    (hs : ∀ e ∈ kvs, Storable e.2) (hp : ∀ e ∈ kvs, Plain e.2) :
    IsTable kvs (dumpInline true kvs) := by
  suffices h : ∀ kvs first g, kvs ≠ [] → Gap g → (∀ e ∈ kvs, Key e.1 ∧ Storable e.2 ∧ Plain e.2) →
      ∃ t, dumpInline first kvs = (if first then [] else ", ".toList) ++ t ∧ IsTable kvs (g ++ t) by
    obtain ⟨t, ht, htable⟩ := h kvs true [] hne .nil fun e he => ⟨hk e he, hs e he, hp e he⟩
    rw [ht]
    exact htable
  intro kvs
  induction kvs with
  | nil => exact fun _ _ h => absurd rfl h
  | cons e kvs ih =>
    obtain ⟨k, v⟩ := e
    intro first g _ hg hall
    obtain ⟨hk, hs, hp⟩ := hall (k, v) (by simp)
    have hx := isText_dumpValue v hs hp
    refine ⟨k ++ (" = ".toList ++ dumpValue v) ++ dumpInline false kvs, dumpInline_plain hp first k kvs, ?_⟩
    cases kvs with
    | nil => exact .last hg hk hx (assigns_dump k _) .nil
    | cons e' kvs =>
      obtain ⟨t, ht, htable⟩ := ih false [' '] (List.cons_ne_nil _ _) gap_space
        fun e he => hall e (List.mem_cons_of_mem _ he)
      rw [ht]
      exact .more hg hk hx (assigns_dump k _) .nil htable

theorem isBody_dumpGlobal {kvs : List (Str × Value)} (hk : ∀ e ∈ kvs, Key e.1)
    (hs : ∀ e ∈ kvs, Storable e.2) (hd : ∀ e ∈ kvs, Direct e.2) {p : Prop} {g : Str} (hg : Gap g)
    (hne : g ≠ []) : IsBody p kvs (g ++ dumpGlobal false kvs) := by
  induction kvs generalizing p g with
  | nil => exact .nil (hg.append .nil)
  | cons e kvs ih =>
    obtain ⟨k, v⟩ := e
    have hrest : IsBody (Unquoted v) kvs (newline ++ dumpGlobal false kvs) :=
      ih (fun e he => hk e (List.mem_cons_of_mem _ he)) (fun e he => hs e (List.mem_cons_of_mem _ he))
        (fun e he => hd e (List.mem_cons_of_mem _ he)) gap_newline (List.cons_ne_nil _ _)
    have hkey : Key k := hk (k, v) (by simp)
    rcases hd (k, v) (by simp) with hp | ⟨d, hv, hne', hp⟩
    · have hx := isText_dumpValue v (hs (k, v) (by simp)) hp
      have hcons := IsBody.cons hg (fun _ : p => hne) hkey hx (assigns_dump k _) hrest
      rw [dumpGlobal_plain hp]
      simpa only [List.append_assoc] using hcons
    · obtain rfl : v = .dict d := hv
      cases hs (k, .dict d) (by simp) with
      | dict hsorted hkeys hstore =>
        have htable := isTable_dumpInline hne' hkeys hstore hp
        have hx : IsText (.dict d) _ := .dict hsorted (List.Perm.refl d) htable
        have hcons := IsBody.cons hg (fun _ : p => hne) hkey hx (assigns_dump k _) hrest
        rw [dumpGlobal]
        simpa [newline] using hcons

theorem isSections_dump {cfg : Dict} (hk : ∀ e ∈ cfg, Key e.1)
    (hs : ∀ e ∈ cfg, ∃ kvs, e.2 = .dict kvs ∧ Storable e.2) (hw : Writable cfg) :
    IsSections cfg (dump cfg ++ newline) := by
  unfold dump
  induction cfg with
  | nil => exact .nil gap_newline
  | cons e cfg ih =>
    obtain ⟨name, v⟩ := e
    obtain ⟨kvs, hv, hdirect⟩ := hw (name, v) (by simp)
    obtain rfl : v = .dict kvs := hv
    obtain ⟨-, -, hstore⟩ := hs (name, .dict kvs) (by simp)
    cases hstore with
    | dict hsorted hkeys hstore =>
      have hrest := ih (fun e he => hk e (List.mem_cons_of_mem _ he))
        (fun e he => hs e (List.mem_cons_of_mem _ he)) fun e he => hw e (List.mem_cons_of_mem _ he)
      have hbody : IsBody False kvs (newline ++ dumpGlobal false kvs) :=
        isBody_dumpGlobal hkeys hstore hdirect gap_newline (List.cons_ne_nil _ _)
      have hcons := IsSections.cons gap_newline .nil (hk (name, .dict kvs) (by simp)) .nil hsorted
        (List.Perm.refl kvs) hbody hrest
      rw [dumpGlobal]
      simpa [newline] using hcons

theorem isDocument_dump {cfg : Dict} (h : StorableConfig cfg) (hw : Writable cfg) :
    IsDocument cfg (dump cfg) :=
  ⟨h.sorted, cfg, List.Perm.refl cfg, isSections_dump h.key h.sections hw⟩

end Layout
