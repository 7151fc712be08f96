import DioMonitor.Lib.StateExcept
import DioMonitor.Utils.Tokenizer

/-!
# The tokenizer, with the integers of the source

`Tokenizer` counts with natural numbers. In the source the cursor is an `int`, lengths and places in a
text are `unsigned long`, and `find` returns `npos` where it finds nothing. This is the same code with
these integers; for texts that an `int` can count it does the same (`IntTokenizer.Simulates`).
-/

/-- The state of a `tokenizer`. Its content is the text and the end of line that the constructor adds. -/
structure IntTokenizer where
  text : Str
  tokens : List Str
  skips : List Str
  comments : List Str
  lastLocs : List ℤ := []
  cursor : ℤ := 0
  doSkip : Bool := true
  deriving DecidableEq

/-- Code that reads from a tokenizer. -/
abbrev IntTokM := StateT IntTokenizer (Except Fault)

/-- The values that `utils::range` goes through. -/
def Utils.range (beg fin : ℤ) : List ℤ :=
  if beg > fin then (List.range (beg - fin).toNat).map fun i : ℕ => beg - i
  else (List.range (fin - beg).toNat).map fun i : ℕ => beg + i

namespace IntTokenizer

/-! ## Integers -/

/-- The `npos` of a string. -/
def npos : ℕ := 2 ^ 64 - 1

/-- An `int` converted to an `unsigned long`. -/
def toULong (i : ℤ) : ℕ := (i % 2 ^ 64).toNat

/-- An `unsigned long` stored into an `int`. -/
def toInt (i : ℤ) : ℤ := i.bmod (2 ^ 32)

/-! ## Strings -/

/-- `find`, from the place `pos` on. -/
def find (tok content : Str) (pos : ℕ) : ℕ :=
  if content.length < pos then npos
  else
    match Tokenizer.find tok (content.drop pos) with
    | some i => pos + i
    | none => npos

/-- `substr`. -/
def substr (content : Str) (pos len : ℕ) : Except Fault Str :=
  if content.length < pos then .error (.throws .outOfRange) else .ok ((content.drop pos).take len)

/-! ## Reading tokens -/

def content (t : IntTokenizer) : Str := t.text ++ newline

/-- The constructor. -/
def new (text : Str) (tokens skips comments : List Str) : IntTokenizer :=
  { text, tokens, skips, comments }

/-- The body of the loop of `nextPure`; the pair is `beg` and `max`. -/
def scan (content : Str) (cursor : ℤ) (r : ℕ × ℕ) (it : Str) : ℕ × ℕ :=
  let id := usub (find it content (toULong cursor)) (toULong cursor)
  if id ≠ npos then
    if id = r.1 ∧ it.length > r.2 then (r.1, it.length)
    else if id < r.1 then (id, it.length)
    else r
  else r

/-- `nextPure`. -/
def nextPure : IntTokM Str := fun t =>
  let length := t.content.length
  if toULong t.cursor = length then .ok ([], t)
  else
    let left := usub length (toULong t.cursor)
    let (beg, max) := t.tokens.foldl (scan t.content t.cursor) (left, 0)
    let lastCursor := toULong t.cursor
    let lastLocs := t.cursor :: t.lastLocs
    if beg = left then do
      let x ← substr t.content lastCursor npos
      return (x, { t with lastLocs, cursor := toInt length })
    else if beg = 0 then do
      let x ← substr t.content lastCursor (min max (usub length lastCursor))
      return (x, { t with lastLocs, cursor := toInt (t.cursor + max) })
    else do
      let x ← substr t.content lastCursor (min beg (usub length lastCursor))
      return (x, { t with lastLocs, cursor := toInt (t.cursor + beg) })

/-- The inner loop of `next`. -/
def dropComment : ℕ → Str → IntTokM Unit
  | 0, _ => throw .diverges
  | fuel + 1, x => if x ≠ newline ∧ x ≠ [] then do dropComment fuel (← nextPure) else pure ()

/-- The loop of `next`. -/
def nextLoop : ℕ → IntTokM Str
  | 0 => throw .diverges
  | fuel + 1 => do
    let x ← nextPure
    let t ← get
    if t.comments.contains x then do
      dropComment (fuel + 1) x
      nextLoop fuel
    else if x = [] then return x
    else if !t.doSkip || !t.skips.contains x then return x
    else nextLoop fuel

/-- `next`. -/
def next : IntTokM Str := fun t => nextLoop (t.content.length + 1) t

/-- `rewind`. -/
def rewind : IntTokM Unit := fun t =>
  match t.lastLocs with
  | [] => .error .undefined
  | loc :: locs => .ok ((), { t with cursor := loc, lastLocs := locs })

/-- `skip`. -/
def skip (enable : Bool) : IntTokM Unit := modify fun t => { t with doSkip := enable }

/-- `getLineNumber`, for as many lines as an `int` counts. -/
def getLineNumber (t : IntTokenizer) : ℕ :=
  (Utils.range 0 (min t.content.length (toULong (t.cursor - 1)))).foldl
    (fun nb i => if t.content[i.toNat]? = some '\n' then nb + 1 else nb) 1

open StateExcept in
/-- One round of the loop of `next`. -/
theorem nextLoop_step {fuel : ℕ} {t t' : IntTokenizer} {x : Str} (h : nextPure t = .ok (x, t')) :
    nextLoop (fuel + 1) t =
      if x ∈ t'.comments then (dropComment (fuel + 1) x >>= fun _ => nextLoop fuel) t'
      else if x = [] then .ok (x, t')
      else if !t'.doSkip ∨ x ∉ t'.skips then .ok (x, t')
      else nextLoop fuel t' := by
  rw [nextLoop, bind_ok h]
  change (if t'.comments.contains x then _ else _ : IntTokM Str) t' = _
  by_cases hc : x ∈ t'.comments
  · rw [if_pos hc, if_pos (List.contains_iff_mem.mpr hc)]
  · rw [if_neg hc, if_neg (mt List.contains_iff_mem.mp hc)]
    by_cases hend : x = []
    · rw [if_pos hend, if_pos hend]
      rfl
    · rw [if_neg hend, if_neg hend]
      by_cases hret : !t'.doSkip ∨ x ∉ t'.skips
      · have hstop : (!t'.doSkip || !t'.skips.contains x) = true := by simpa using hret
        rw [if_pos hret]
        exact congrFun (if_pos hstop) t'
      · have hgo : ¬ (!t'.doSkip || !t'.skips.contains x) = true := by simpa using hret
        rw [if_neg hret]
        exact congrFun (if_neg hgo) t'

/-! ## Pieces and places -/

/-- What the first `n` calls of `nextPure` return. -/
def calls : ℕ → IntTokM (List Str)
  | 0 => return []
  | n + 1 => do
    let x ← nextPure
    return x :: (← calls n)

/-- The place of the cursor in the content. -/
def position (t : IntTokenizer) : ℕ := toULong t.cursor

/-- The cursor stands at the start of the content or in the first column of a line. -/
def AtLineStart (t : IntTokenizer) : Prop :=
  t.position = 0 ∨ t.content[t.position - 1]? = some '\n'

/-- The number of the line of the cursor. -/
def lineAt (t : IntTokenizer) : ℕ := 1 + (t.content.take t.position).count '\n'

end IntTokenizer
