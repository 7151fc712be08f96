import DioMonitor.Lib.Lexing
import DioMonitor.Utils.Literals
import DioMonitor.Utils.Tokenizer

/-!
# Socket addresses

`SockAddrV4` is an IPv4 address and a port. It is printed as `A.B.C.D:P` and built from such a text: the
tokenizer cuts it, and `atoi` reads the numbers. The cursor of that tokenizer has no bound, which is the
source for texts of less than `2 ^ 31 - 1` characters (`IntTokenizer.Simulates`).
-/

structure Ipv4Address where
  a : UInt8
  b : UInt8
  c : UInt8
  d : UInt8
  deriving DecidableEq, Repr

structure SockAddrV4 where
  ip : Ipv4Address
  port : UInt16
  deriving DecidableEq, Repr

/-- `operator<<` of an `Ipv4Address`. -/
def Ipv4Address.print (addr : Ipv4Address) : Str :=
  Nat.toDigits 10 addr.a.toNat ++ '.' :: Nat.toDigits 10 addr.b.toNat ++
    '.' :: Nat.toDigits 10 addr.c.toNat ++ '.' :: Nat.toDigits 10 addr.d.toNat

namespace SockAddrV4

/-- `operator<<` of a `SockAddrV4`. -/
def print (addr : SockAddrV4) : Str := addr.ip.print ++ ':' :: Nat.toDigits 10 addr.port.toNat

def delimiters : List Str := [['.'], [':'], [' ']]

def blanks : List Str := [[' ']]

/-- The exception for a text that is no address. -/
def malformed (addr : Str) : Fault := .throws (.addrError ("Malformed addr : ".toList ++ addr))

/-- The next token has to be `tok`. -/
def expect (addr tok : Str) : TokM Unit := do
  if (← Tokenizer.next) ≠ tok then throw (malformed addr)

/-- The body of the constructor that takes a string. An `int` is cut to the width of the member that it
is stored in. -/
def parse (addr : Str) : TokM SockAddrV4 := do
  let fst := Numbers.atoi (← Tokenizer.next)
  expect addr ['.']
  let scd := Numbers.atoi (← Tokenizer.next)
  expect addr ['.']
  let thd := Numbers.atoi (← Tokenizer.next)
  expect addr ['.']
  let fth := Numbers.atoi (← Tokenizer.next)
  expect addr [':']
  let port := Numbers.atoi (← Tokenizer.next)
  let ip := ⟨UInt8.ofInt fst, UInt8.ofInt scd, UInt8.ofInt thd, UInt8.ofInt fth⟩
  return { ip, port := UInt16.ofInt port }

/-- The constructor that takes a string. -/
def ofString (addr : Str) : Except Fault SockAddrV4 :=
  (parse addr (Tokenizer.new addr delimiters blanks [])).map Prod.fst

/-! ## Which texts are addresses -/

/-- The text is made of some tokens, with any number of spaces around each of them. -/
inductive Spaced : List Str → Str → Prop
  | nil : Spaced [] []
  | space {toks : List Str} {s : Str} (h : Spaced toks s) : Spaced toks (' ' :: s)
  | token {toks : List Str} {s : Str} (tok : Str) (h : Spaced toks s) :
      Spaced (tok :: toks) (tok ++ s)

/-- Decimal digits that write the number `n`. -/
def Writes (ds : Str) (n : ℕ) : Prop := Numbers.Digits ds ∧ Numbers.ofDigits 10 ds = n

/-- Up to spaces, the text is `A.B.C.D:P`. -/
def WellFormed (s : Str) (A B C D P : ℕ) : Prop :=
  (A < 2 ^ 8 ∧ B < 2 ^ 8 ∧ C < 2 ^ 8 ∧ D < 2 ^ 8 ∧ P < 2 ^ 16) ∧
    ∃ a b c d p, (Writes a A ∧ Writes b B ∧ Writes c C ∧ Writes d D ∧ Writes p P) ∧
      Spaced [a, ['.'], b, ['.'], c, ['.'], d, [':'], p] s

/-- What the tokenizer finds in a text, without the spaces. -/
def tokensOf (s : Str) : List Str := (Lexing.pieces delimiters s).filter (· ≠ [' '])

/-- Whatever stands between them, the delimiters of an address are in their places. -/
def Dotted (s : Str) : Prop :=
  ∃ x₁ x₂ x₃ x₄ rest, tokensOf (s ++ newline) =
    x₁ :: ['.'] :: x₂ :: ['.'] :: x₃ :: ['.'] :: x₄ :: [':'] :: rest

/-- A text is read as the address that it is, and printing this address gives a text that is read as the
same; a text that is none is refused. -/
def Exact (s : Str) : Prop :=
  (∀ A B C D P, WellFormed s A B C D P →
    ∃ addr : SockAddrV4, ofString s = .ok addr ∧
      (addr.ip.a.toNat = A ∧ addr.ip.b.toNat = B ∧ addr.ip.c.toNat = C ∧ addr.ip.d.toNat = D) ∧
      addr.port.toNat = P ∧ ofString addr.print = .ok addr) ∧
  ((¬ ∃ A B C D P, WellFormed s A B C D P) → ∃ msg, ofString s = .error (.throws (.addrError msg)))

end SockAddrV4
