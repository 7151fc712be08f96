import DioMonitor.Server.Rapl
import DioMonitor.Utils.Proofs.ExtractProofs

/-!
# Proofs: the energy readings

What the calls of `readPP0` return adds up to the growth of the counter. `readPP1` reads its file from the
second character on, so its readings never add up (`sums_iff`).
-/

namespace RaplReader

open Numbers

/-! ## Reading a counter -/

/-- From the first character on, the counter is read. -/
theorem unsigned_counterFile {counter : ℕ} (hc : counter < 2 ^ 64) :
    Extraction.unsigned maxULong (counterFile counter) =
      { value := some counter, eof := false, fail := false } := by
  obtain ⟨hd, hn⟩ := ofDigits_toDigits counter
  have hmax : ofDigits 10 (Nat.toDigits 10 counter) ≤ maxULong := by
    rw [hn, maxULong]
    omega
  have hread := Extraction.unsigned_digits (t := []) (c := '\n') hd (by decide) hmax
  rwa [hn] at hread

theorem one_lt_length {counter : ℕ} (h : 10 ≤ counter) : 1 < (Nat.toDigits 10 counter).length := by
  by_contra hle
  have := (Nat.length_toDigits_le_iff (by decide) Nat.one_pos).mp (not_lt.mp hle)
  omega

/-- Without its first digit a number is smaller. -/
theorem ofDigits_tail_lt {counter : ℕ} (h : 10 ≤ counter) :
    ofDigits 10 (Nat.toDigits 10 counter).tail < counter := by
  obtain ⟨hd, -⟩ := ofDigits_toDigits counter
  have htail := ofDigits_lt fun c hc => hd.2 c (List.mem_of_mem_tail hc)
  have hlen := one_lt_length h
  have hge : 10 ^ ((Nat.toDigits 10 counter).length - 1) ≤ counter := by
    by_contra hlt
    have := (Nat.length_toDigits_le_iff (by decide) (by omega)).mpr (not_le.mp hlt)
    omega
  rw [List.length_tail] at htail
  exact Nat.lt_of_lt_of_le htail hge

/-- From the second character on, either nothing is read or something smaller than the counter. -/
theorem readFrom_one {counter : ℕ} (hc : counter < 2 ^ 64) (junk : ℕ) (file : IFStream) :
    (readFrom 1 (counterFile counter) junk file).1 = junk ∨
      (readFrom 1 (counterFile counter) junk file).1 < counter := by
  unfold readFrom
  by_cases hgood : file.good = true
  · rw [IFStream.extract_of_good hgood]
    by_cases hten : 10 ≤ counter
    · right
      obtain ⟨hd, -⟩ := ofDigits_toDigits counter
      have hlt := ofDigits_tail_lt hten
      have hlen := one_lt_length hten
      have hdrop : (counterFile counter).drop 1 = (Nat.toDigits 10 counter).tail ++ ['\n'] := by
        rw [counterFile, List.drop_append_of_le_length (Nat.le_of_lt hlen), List.drop_one]
      have htail : Digits (Nat.toDigits 10 counter).tail := by
        refine ⟨List.ne_nil_of_length_pos ?_, fun c hc => hd.2 c (List.mem_of_mem_tail hc)⟩
        rw [List.length_tail]
        omega
      have hmax : ofDigits 10 (Nat.toDigits 10 counter).tail ≤ maxULong := by
        rw [maxULong]
        omega
      rw [hdrop, Extraction.unsigned_digits htail (by decide) hmax]
      exact hlt
    · left
      have hone : Nat.toDigits 10 counter = [counter.digitChar] :=
        Nat.toDigits_of_lt_base (not_le.mp hten)
      rw [Extraction.unsigned_blank (by rw [counterFile, hone]; rfl)]
      rfl
  · left
    have hfail : file.sync.fail = true := by simp [IFStream.sync, hgood]
    simp [IFStream.seekg, IFStream.extract, IFStream.good, hfail]

/-! ## The sums -/

theorem start_eq {counter0 counter1 : ℕ} (h0 : counter0 < 2 ^ 64) (h1 : counter1 < 2 ^ 64) :
    start counter0 counter1 =
      { raplEnabled := true, raplValue0 := counter0, raplValue1 := counter1
        raplFile0 := { isOpen := true }, raplFile1 := { isOpen := true } } := by
  simp [start, checkRaplCapabilities, IFStream.new, IFStream.extract, IFStream.good,
    unsigned_counterFile h0, unsigned_counterFile h1]

theorem le_getLastD {n : ℕ} {l : List ℕ} (h : ∀ x ∈ l, n ≤ x) : n ≤ l.getLastD n := by
  rcases List.mem_cons.mp (List.getLastD_mem_cons (l := l) (a := n)) with heq | hmem
  · exact heq.ge
  · exact h _ hmem

/-- The readings of package 0 add up, whatever calls of `readPP1` come between them. -/
theorem sums_fst (junk : ℕ → UInt64) (r : RaplReader) (calls : List Call)
    (hgood : r.raplFile0.good = true) (hlt : ∀ c ∈ counters0 calls, c < 2 ^ 64)
    (hsorted : (r.raplValue0 :: counters0 calls).Pairwise (· ≤ ·)) :
    (sums junk r calls).1 = (counters0 calls).getLastD r.raplValue0 - r.raplValue0 := by
  induction calls generalizing junk r with
  | nil => simp [sums, counters0]
  | cons call calls ih =>
    cases call with
    | readPP0 counter =>
      have hcounters : counters0 (.readPP0 counter :: calls) = counter :: counters0 calls := rfl
      rw [hcounters] at hlt hsorted ⊢
      obtain ⟨hle, hsorted'⟩ := List.pairwise_cons.mp hsorted
      have hread : readFrom 0 (counterFile counter) (junk 0).toNat r.raplFile0 =
          (counter, { r.raplFile0 with eof := false, fail := false }) := by
        rw [readFrom, IFStream.extract_of_good hgood, List.drop_zero,
          unsigned_counterFile (hlt counter List.mem_cons_self)]
        rfl
      have hlast : counter ≤ (counters0 calls).getLastD counter :=
        le_getLastD (List.pairwise_cons.mp hsorted').1
      have hrest := ih (fun n => junk (n + 1)) (Call.perform (junk 0) r (.readPP0 counter)).2
        (by simp [Call.perform, readPP0, hread, IFStream.good])
        (fun c hc => hlt c (List.mem_cons_of_mem _ hc))
        (by simpa [Call.perform, readPP0, hread] using hsorted')
      have hvalue : (Call.perform (junk 0) r (.readPP0 counter)).2.raplValue0 = counter := by
        simp [Call.perform, readPP0, hread]
      have hres : (Call.perform (junk 0) r (.readPP0 counter)).1 = counter - r.raplValue0 := by
        have hge := hle counter List.mem_cons_self
        simp [Call.perform, readPP0, hread, usub_of_le hge]
      have hge := hle counter List.mem_cons_self
      rw [hvalue] at hrest
      rw [List.getLastD_cons]
      simp only [sums, hrest, hres]
      omega
    | readPP1 counter => exact ih (fun n => junk (n + 1)) _ hgood hlt hsorted

/-- The reader after some calls. -/
def after (junk : ℕ → UInt64) (r : RaplReader) : List Call → RaplReader
  | [] => r
  | call :: calls => after (fun n => junk (n + 1)) (call.perform (junk 0) r).2 calls

/-- The value of package 1 stays an `unsigned long`. -/
theorem perform_lt {junk : UInt64} {r : RaplReader} {call : Call} (hr : r.raplValue1 < 2 ^ 64)
    (hlt : ∀ c, call = .readPP1 c → c < 2 ^ 64) : (call.perform junk r).2.raplValue1 < 2 ^ 64 := by
  cases call with
  | readPP0 counter => exact hr
  | readPP1 counter =>
    have hc := hlt counter rfl
    show (readFrom 1 (counterFile counter) junk.toNat r.raplFile1).1 < 2 ^ 64
    rcases readFrom_one hc junk.toNat r.raplFile1 with h | h
    · rw [h]
      exact junk.toNat_lt
    · omega

/-- The readings of package 1 telescope, cut to 64 bits. -/
theorem sums_snd (junk : ℕ → UInt64) (r : RaplReader) (calls : List Call)
    (hr : r.raplValue1 < 2 ^ 64) (hlt : ∀ c ∈ counters1 calls, c < 2 ^ 64) :
    (sums junk r calls).2 % 2 ^ 64 = usub (after junk r calls).raplValue1 r.raplValue1 ∧
      (after junk r calls).raplValue1 < 2 ^ 64 := by
  induction calls generalizing junk r with
  | nil => exact ⟨by simp [sums, after], hr⟩
  | cons call calls ih =>
    cases call with
    | readPP0 counter => exact ih (fun n => junk (n + 1)) _ hr hlt
    | readPP1 counter =>
      have hcounters : counters1 (.readPP1 counter :: calls) = counter :: counters1 calls := rfl
      rw [hcounters] at hlt
      have hr' : (Call.perform (junk 0) r (.readPP1 counter)).2.raplValue1 < 2 ^ 64 :=
        perform_lt hr fun c hc => hlt c (Call.readPP1.inj hc ▸ List.mem_cons_self)
      obtain ⟨hsum, hend⟩ := ih (fun n => junk (n + 1)) _ hr'
        fun c hc => hlt c (List.mem_cons_of_mem _ hc)
      refine ⟨?_, hend⟩
      have htele := usub_add_usub hr hr' hend
      rw [← hsum, Nat.add_mod_mod] at htele
      have hsums : (sums junk r (.readPP1 counter :: calls)).2 =
          usub (Call.perform (junk 0) r (.readPP1 counter)).2.raplValue1 r.raplValue1 +
            (sums (fun n => junk (n + 1)) (Call.perform (junk 0) r (.readPP1 counter)).2 calls).2 := rfl
      rw [hsums]
      exact htele

/-- Without a call of `readPP1` nothing is returned and nothing is read for package 1. -/
theorem idle_package1 {calls : List Call} (h : counters1 calls = []) (junk : ℕ → UInt64)
    (r : RaplReader) :
    (sums junk r calls).2 = 0 ∧ (after junk r calls).raplValue1 = r.raplValue1 := by
  induction calls generalizing junk r with
  | nil => exact ⟨rfl, rfl⟩
  | cons call calls ih =>
    cases call with
    | readPP0 _ => exact ih h _ _
    | readPP1 _ => cases h

/-- With a call of `readPP1`, the last value of package 1 is not the counter, unless by chance. -/
theorem after_ne {j : UInt64} {r : RaplReader} {calls : List Call} {counter : ℕ}
    (hlt : ∀ c ∈ counters1 calls, c < 2 ^ 64) (hne : counters1 calls ≠ [])
    (hj : j.toNat ≠ (counters1 calls).getLastD counter) :
    (after (fun _ => j) r calls).raplValue1 ≠ (counters1 calls).getLastD counter := by
  induction calls generalizing r counter with
  | nil => exact absurd rfl hne
  | cons call calls ih =>
    cases call with
    | readPP0 c => exact ih hlt hne hj
    | readPP1 c =>
      have hcounters : counters1 (.readPP1 c :: calls) = c :: counters1 calls := rfl
      rw [hcounters] at hlt hj ⊢
      rw [List.getLastD_cons] at hj ⊢
      by_cases hnil : counters1 calls = []
      · -- the last call of `readPP1`
        rw [hnil] at hj ⊢
        show (after (fun _ => j) _ calls).raplValue1 ≠ c
        rw [(idle_package1 hnil _ _).2]
        show (readFrom 1 (counterFile c) j.toNat r.raplFile1).1 ≠ c
        rcases readFrom_one (hlt c List.mem_cons_self) j.toNat r.raplFile1 with h | h
        · rw [h]
          exact hj
        · exact h.ne
      · exact ih (fun x hx => hlt x (List.mem_cons_of_mem _ hx)) hnil hj

/-- The readings of both packages add up to the growth of the counters, whatever the variables hold,
exactly when `readPP1` is never called. -/
theorem sums_iff (counter0 counter1 : ℕ) (calls : List Call)
    (hsorted0 : (counter0 :: counters0 calls).Pairwise (· ≤ ·))
    (hsorted1 : (counter1 :: counters1 calls).Pairwise (· ≤ ·))
    (hlt0 : ∀ c ∈ counter0 :: counters0 calls, c < 2 ^ 64)
    (hlt1 : ∀ c ∈ counter1 :: counters1 calls, c < 2 ^ 64) :
    (∀ junk, sums junk (start counter0 counter1) calls =
        ((counters0 calls).getLastD counter0 - counter0,
          (counters1 calls).getLastD counter1 - counter1)) ↔
      ∀ c, Call.readPP1 c ∉ calls := by
  have hstart := start_eq (hlt0 counter0 List.mem_cons_self) (hlt1 counter1 List.mem_cons_self)
  have hsum0 : ∀ junk, (sums junk (start counter0 counter1) calls).1 =
      (counters0 calls).getLastD counter0 - counter0 := by
    intro junk
    rw [hstart]
    exact sums_fst junk _ calls rfl (fun c hc => hlt0 c (List.mem_cons_of_mem _ hc)) hsorted0
  have hvalue1 : (start counter0 counter1).raplValue1 = counter1 := by rw [hstart]
  have hone : counter1 < 2 ^ 64 := hlt1 counter1 List.mem_cons_self
  constructor
  · intro h c hc
    -- an uninitialised variable may hold anything but the last counter
    have hne : counters1 calls ≠ [] := by
      apply List.ne_nil_of_mem (a := c)
      exact List.mem_filterMap.mpr ⟨.readPP1 c, hc, rfl⟩
    obtain ⟨j, hj⟩ : ∃ j : UInt64, j.toNat ≠ (counters1 calls).getLastD counter1 := by
      by_cases hzero : (counters1 calls).getLastD counter1 = 0
      · exact ⟨1, by rw [hzero]; decide⟩
      · exact ⟨0, fun h => hzero h.symm⟩
    have hlt1' : ∀ c ∈ counters1 calls, c < 2 ^ 64 := fun c hc => hlt1 c (List.mem_cons_of_mem _ hc)
    obtain ⟨htele, hend⟩ := sums_snd (fun _ => j) (start counter0 counter1) calls
      (by rw [hvalue1]; exact hone) hlt1'
    have hlast : (counters1 calls).getLastD counter1 < 2 ^ 64 :=
      hlt1 _ List.getLastD_mem_cons
    have hle : counter1 ≤ (counters1 calls).getLastD counter1 :=
      le_getLastD (List.pairwise_cons.mp hsorted1).1
    have hwrong : (after (fun _ => j) (start counter0 counter1) calls).raplValue1 ≠
        (counters1 calls).getLastD counter1 := after_ne hlt1' hne hj
    rw [h fun _ => j, hvalue1] at htele
    simp only at htele
    unfold usub at htele
    split at htele
    · omega
    · omega
  · intro h junk
    have hnil : counters1 calls = [] := by
      refine List.filterMap_eq_nil_iff.mpr fun call hcall => ?_
      cases call with
      | readPP0 _ => rfl
      | readPP1 c => exact absurd hcall (h c)
    apply Prod.ext (hsum0 junk)
    rw [(idle_package1 hnil junk _).1, hnil]
    exact (Nat.sub_self counter1).symm

/-- Two readings of package 0. -/
theorem sums_iff_package0 :
    sums (fun _ => 0) (start 25 25) [.readPP0 47, .readPP0 102] = (77, 0) :=
  (sums_iff 25 25 [.readPP0 47, .readPP0 102] (by decide) (by decide) (by decide) (by decide)).mpr
    (by simp) fun _ => 0

/-- The counter of package 1 grows from 25 to 47, and `readPP1` reads 7. -/
theorem sums_package1 :
    sums (fun _ => 0) (start 25 25) [.readPP1 47] = (0, 2 ^ 64 - 18) ∧ 2 ^ 64 - 18 ≠ 47 - 25 := by
  refine ⟨?_, by decide⟩
  decide

end RaplReader
