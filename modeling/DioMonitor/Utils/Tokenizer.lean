import DioMonitor.Utils.Config

/-!
# The tokenizer

`tokenizer` cuts a text at delimiters. It drops blanks and comments, and remembers where its tokens
began: `rewind` goes back to the last of these places. A list that the source extends and shortens at
its end is read from its head here.

The cursor is a natural number here and an `int` in the source. For contents of less than `2 ^ 31 - 1`
characters this is no difference: the tokenizer with the integers of the source does the same
(`IntTokenizer.Simulates`).
-/

/-- The state of a `tokenizer`. -/
structure Tokenizer where
  content : Str
  tokens : List Str
  skips : List Str
  comments : List Str
  /-- Where the tokens read so far began, the last one first. -/
  lastLocs : List ℕ := []
  cursor : ℕ := 0
  doSkip : Bool := true

/-- Code that reads from a tokenizer. -/
abbrev TokM := StateT Tokenizer (Except Fault)

/-- The token that ends a line. -/
def newline : Str := ['\n']

namespace Tokenizer

/-- The constructor: the text is given a last end of line. -/
def new (content : Str) (tokens skips comments : List Str) : Tokenizer :=
  { content := content ++ newline, tokens, skips, comments }

/-- `std::string::find`: where `tok` occurs first in a text. -/
def find (tok : Str) : Str → Option ℕ
  | [] => if tok = [] then some 0 else none
  | c :: s => if tok <+: c :: s then some 0 else (find tok s).map (· + 1)

/-- The body of the loop of `nextPure`. The pair is `beg`, the distance to the next delimiter, and
`max`, the length of the longest delimiter there. -/
def scan (s : Str) (r : ℕ × ℕ) (tok : Str) : ℕ × ℕ :=
  match find tok s with
  | none => r
  | some id =>
    if id = r.1 ∧ tok.length > r.2 then (r.1, tok.length)
    else if id < r.1 then (id, tok.length)
    else r

/-- `nextPure`: the next token, blanks and comments included; empty at the end of the text. -/
def nextPure (t : Tokenizer) : Str × Tokenizer :=
  if t.cursor = t.content.length then ([], t)
  else
    let s := t.content.drop t.cursor
    let (beg, max) := t.tokens.foldl (scan s) (t.content.length - t.cursor, 0)
    let lastLocs := t.cursor :: t.lastLocs
    if beg = t.content.length - t.cursor then (s, { t with lastLocs, cursor := t.content.length })
    else if beg = 0 then
      (s.take (min max (t.content.length - t.cursor)), { t with lastLocs, cursor := t.cursor + max })
    else
      (s.take (min beg (t.content.length - t.cursor)), { t with lastLocs, cursor := t.cursor + beg })

/-- The inner loop of `next`, which drops the rest of a comment. -/
def dropComment : ℕ → Str → Tokenizer → Option Tokenizer
  | 0, _, _ => none
  | fuel + 1, x, t =>
    if x ≠ newline ∧ x ≠ [] then dropComment fuel t.nextPure.1 t.nextPure.2 else some t

/-- The loop of `next`. -/
def nextLoop : ℕ → Tokenizer → Option (Str × Tokenizer)
  | 0, _ => none
  | fuel + 1, t =>
    let (x, t) := t.nextPure
    if x ∈ t.comments then (dropComment (fuel + 1) x t).bind (nextLoop fuel)
    else if x = [] then some (x, t)
    else if !t.doSkip ∨ x ∉ t.skips then some (x, t)
    else nextLoop fuel t

/-- `next`: the next token, empty at the end of the text. The loops are cut after more rounds than
there are characters. -/
def next : TokM Str := fun t =>
  match nextLoop (t.content.length + 1) t with
  | some r => .ok r
  | none => .error .diverges

/-- `rewind`: back to where the last token began. -/
def rewind : TokM Unit := fun t =>
  match t.lastLocs with
  | [] => .error .undefined
  | loc :: locs => .ok ((), { t with cursor := loc, lastLocs := locs })

/-- `skip`: whether blanks are dropped. -/
def skip (enable : Bool) : TokM Unit := modify fun t => { t with doSkip := enable }

/-- `getLineNumber`. The cursor `0` has no predecessor: all the lines are counted. -/
def getLineNumber (t : Tokenizer) : ℕ :=
  let stop := if t.cursor = 0 then t.content.length else min t.content.length (t.cursor - 1)
  1 + (t.content.take stop).count '\n'

end Tokenizer
