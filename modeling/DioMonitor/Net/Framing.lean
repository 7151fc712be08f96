import DioMonitor.Net.Stream

/-!
# Framing

The two ends of a connection agree on a sequence of integers and messages: one end sends them with
`sendInt` and `send`, the other receives them with `receiveInt` and `receive`, of the length that was
sent. TCP carries the bytes in pieces of its own.
-/

/-- An integer or the bytes of a message. -/
inductive Item where
  | int (i : UInt64)
  | msg (bytes : List UInt8)
  deriving DecidableEq

/-- What a receiver returns. -/
inductive Received where
  | int (i : ℕ)
  | msg (text : Str)
  deriving DecidableEq

namespace Item

/-- The string with the given bytes. -/
def text (bytes : List UInt8) : Str := bytes.map fun b => Char.ofNat b.toNat

/-- What the receiver should return. -/
def value : Item → Received
  | int i => .int i.toNat
  | msg bytes => .msg (text bytes)

/-- `sendInt` or `send`. -/
def send (t : TcpStream) : Item → Bool × TcpStream
  | int i => t.sendInt i.toNat
  | msg bytes => t.send (text bytes)

/-- The matching `receiveInt` or `receive`. -/
def receive (host : Host) : Item → StateT TcpStream (Except Fault) Received
  | int _ => do return .int (← TcpStream.receiveInt)
  | msg bytes => do return .msg (← TcpStream.receive host bytes.length)

/-- The bytes that are sent. -/
def encode : Item → List UInt8
  | int i => TcpStream.ofULong i.toNat
  | msg bytes => bytes

end Item

namespace Framing

/-- All the calls of the sending end. -/
def sendAll (t : TcpStream) (items : List Item) : TcpStream :=
  items.foldl (fun t item => (item.send t).2) t

/-- All the calls of the receiving end. -/
def receiveAll (host : Host) : List Item → StateT TcpStream (Except Fault) (List Received)
  | [] => return []
  | item :: items => do
    let r ← item.receive host
    let rs ← receiveAll host items
    return r :: rs

/-- The bytes that arrive, one piece after the other. -/
def bytes : List Arrival → List UInt8
  | [] => []
  | .bytes b bs :: rest => b :: bs ++ bytes rest
  | .failure :: rest => bytes rest

/-- The piece that the next read finds. -/
def piece : List Arrival → List UInt8
  | .bytes b bs :: _ => b :: bs
  | _ => []

/-- What remains to arrive when `n` bytes of the first piece have been read. -/
def taken (n : ℕ) : List Arrival → List Arrival
  | .bytes b bs :: rest => Socket.push ((b :: bs).drop n) rest
  | incoming => incoming

/-- A zero, or an empty message whose buffer can be allocated. -/
def Blank (host : Host) : Item → Prop
  | .int i => i = 0
  | .msg bytes => bytes = [] ∧ host.canAlloc 1 = true

/-- Every item arrives whole: the piece that its read finds holds all its bytes, a message has no zero
byte and its buffer can be allocated. An integer may only be cut where the rest of it is zero and
nothing but zeros and empty messages follow, because the rest of the cut integer is then read in their
place. -/
def Whole (host : Host) : List Item → List Arrival → Prop
  | [], _ => True
  | .int i :: items, incoming =>
    if 8 ≤ (piece incoming).length then Whole host items (taken 8 incoming)
    else i.toNat < (2 ^ 8) ^ (piece incoming).length ∧ ∀ item ∈ items, Blank host item
  | .msg bytes :: items, incoming =>
    (bytes.length ≤ (piece incoming).length ∧ bytes.length ≤ Socket.maxRead ∧ 0 ∉ bytes ∧
      host.canAlloc (bytes.length + 1) = true) ∧ Whole host items (taken bytes.length incoming)

/-- The calls return the given value. -/
def Returns {α : Type} (m : StateT TcpStream (Except Fault) α) (t : TcpStream) (a : α) : Prop :=
  ∃ t', m t = .ok (a, t')

end Framing
