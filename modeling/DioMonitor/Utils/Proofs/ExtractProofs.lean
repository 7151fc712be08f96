import DioMonitor.Utils.Extract
import DioMonitor.Utils.Proofs.NumbersProofs

/-!
# Proofs: formatted input

What an extraction reads from a decimal number that a character that is no digit ends.
-/

namespace Extraction

open Numbers

/-- Blanks and a number are read up to the character that ends the number. -/
theorem unsigned_digits {max : ℕ} {ds t : Str} {c : Char} (hd : Digits ds) (hc : c.isDigit = false)
    (hmax : ofDigits 10 ds ≤ max) :
    unsigned max (ds ++ c :: t) = { value := some (ofDigits 10 ds), eof := false, fail := false } := by
  have hend : ∀ a u, c :: t = a :: u → a.isDigit = false := by
    intro a u h
    rw [← (List.cons.inj h).1]
    exact hc
  have hsign : ([] : Str) ∈ signs false := List.mem_cons_self
  have hdrop := dropWhile_isSpace (u := ds ++ c :: t) hsign fun a u h =>
    isSpace_of_isDigit (hd.head (c :: t) h)
  have hsplit := splitSign_append (u := ds ++ c :: t) hsign fun a u h =>
    ne_sign_of_isDigit (hd.head (c :: t) h)
  rw [List.nil_append] at hdrop hsplit
  rw [unsigned, hdrop, if_neg (by simp), hsplit]
  dsimp only
  rw [takeWhile_isDigit hd.2 hend, dropWhile_isDigit hd.2 hend, if_neg hd.1,
    if_neg (Nat.not_lt.mpr hmax)]
  simp

/-- Where only blanks are left nothing is stored. -/
theorem unsigned_blank {max : ℕ} {s : Str} (h : s.dropWhile isSpace = []) :
    unsigned max s = { value := none, eof := true, fail := true } := by
  rw [unsigned, h, if_pos rfl]

end Extraction

namespace IFStream

/-- A stream without state bits reads what stands at its position. -/
theorem extract_of_good {max var : ℕ} {s : Str} {f : IFStream} (h : f.good = true) :
    f.sync.seekg.extract max s var =
      ((Extraction.unsigned max s).value.getD var,
        { f with eof := (Extraction.unsigned max s).eof, fail := (Extraction.unsigned max s).fail }) := by
  have hbits : f.eof = false ∧ f.fail = false := by simpa [good] using h
  simp [sync, seekg, extract, good, hbits]

end IFStream
