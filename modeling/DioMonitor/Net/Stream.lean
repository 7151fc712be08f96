import DioMonitor.Libvirt.Vm

/-!
# TCP streams

A `TcpStream` sends and receives 64-bit integers and strings over a socket. What the network does is part
of the state of the socket: how the bytes of the other end arrive, and which reads and writes fail.
-/

/-- What a `read` of a socket finds. -/
inductive Arrival where
  /-- Some bytes of the stream; there is a first one. -/
  | bytes (b : UInt8) (bs : List UInt8)
  /-- The read fails. -/
  | failure
  deriving DecidableEq, Repr

/-- A connected socket. -/
structure Socket where
  /-- What the reads to come find, in order. -/
  incoming : List Arrival
  /-- The other end closes its side then; otherwise reads wait for ever. -/
  eof : Bool
  /-- Whether the writes to come succeed; those that are not listed do. -/
  writes : List Bool := []
  /-- The bytes written so far. -/
  sent : List UInt8 := []
  /-- How often the descriptor has been closed. -/
  closes : ℕ := 0
  deriving DecidableEq, Repr

namespace Socket

/-- The most bytes that one `read` returns. -/
def maxRead : ℕ := 0x7ffff000

/-- The bytes of a stream that are left of a piece. -/
def push (bs : List UInt8) (incoming : List Arrival) : List Arrival :=
  match bs with
  | [] => incoming
  | b :: bs => .bytes b bs :: incoming

/-- The bytes that have not been read. -/
def unread (s : Socket) : List UInt8 :=
  s.incoming.flatMap fun
    | .bytes b bs => b :: bs
    | .failure => []

/-- `read` of at most `n` bytes; `none` is the result `-1`. A size that does not fit a `ssize_t` is
refused. -/
def read (s : Socket) (n : ℕ) : Except Fault (Option (List UInt8) × Socket) :=
  if 2 ^ 63 ≤ n then .ok (none, s)
  else if n = 0 then .ok (some [], s)
  else
    match s.incoming with
    | [] => if s.eof then .ok (some [], s) else .error .blocks
    | .failure :: rest => .ok (none, { s with incoming := rest })
    | .bytes b bs :: rest =>
      let k := min n maxRead
      .ok (some ((b :: bs).take k), { s with incoming := push ((b :: bs).drop k) rest })

/-- `write`: the result says whether it succeeds, and then all the bytes are taken. -/
def write (s : Socket) (bs : List UInt8) : Bool × Socket :=
  match s.writes with
  | [] => (true, { s with sent := s.sent ++ bs })
  | true :: rest => (true, { s with writes := rest, sent := s.sent ++ bs })
  | false :: rest => (false, { s with writes := rest })

end Socket

/-- A `TcpStream`; its address is left out. -/
structure TcpStream where
  /-- `_sockfd` is not `0`. -/
  connected : Bool
  socket : Socket
  deriving DecidableEq, Repr

namespace TcpStream

/-! ## Bytes -/

/-- The bytes of an `unsigned long`. -/
def ofULong (i : ℕ) : List UInt8 :=
  [i.toUInt8, (i / 2 ^ 8).toUInt8, (i / 2 ^ 16).toUInt8, (i / 2 ^ 24).toUInt8, (i / 2 ^ 32).toUInt8,
    (i / 2 ^ 40).toUInt8, (i / 2 ^ 48).toUInt8, (i / 2 ^ 56).toUInt8]

/-- The `unsigned long` whose first bytes are given; the others are zero. -/
def toULong (bs : List UInt8) : ℕ := bs.foldr (fun b n => b.toNat + 2 ^ 8 * n) 0

/-- The bytes of a string. -/
def ofStr (s : Str) : List UInt8 := s.map fun c => c.toNat.toUInt8

/-- The string in a buffer: it ends at the first zero. -/
def toStr (bs : List UInt8) : Str := (bs.takeWhile (· ≠ 0)).map fun b => Char.ofNat b.toNat

/-! ## Sending and receiving -/

/-- A write; the stream is given up when it fails. -/
def write (t : TcpStream) (bs : List UInt8) : Bool × TcpStream :=
  if t.connected then
    let (ok, socket) := t.socket.write bs
    (ok, { connected := ok, socket })
  else (false, t)

/-- `sendInt`. -/
def sendInt (t : TcpStream) (i : ℕ) : Bool × TcpStream := t.write (ofULong i)

/-- `send`. -/
def send (t : TcpStream) (msg : Str) : Bool × TcpStream := t.write (ofStr msg)

/-- `receive`, into a new buffer of `len + 1` bytes. -/
def receive (host : Host) (len : ℕ) : StateT TcpStream (Except Fault) Str := fun t =>
  if t.connected then
    if host.canAlloc ((len + 1) % 2 ^ 64) then do
      match ← t.socket.read len with
      | (some bs, socket) => .ok (toStr bs, { t with socket })
      -- the text of the buffer is returned all the same
      | (none, socket) => .ok (host.garbage, { connected := false, socket })
    else .error (.throws .badAlloc)
  else .ok ([], t)

/-- `receiveInt`: one read of eight bytes, whatever it returns. -/
def receiveInt : StateT TcpStream (Except Fault) ℕ := fun t =>
  if t.connected then do
    match ← t.socket.read 8 with
    | (some bs, socket) => .ok (toULong bs, { t with socket })
    | (none, socket) => .ok (0, { connected := false, socket })
  else .ok (0, t)

/-- `close`. -/
def close (t : TcpStream) : TcpStream :=
  if t.connected then
    { connected := false, socket := { t.socket with closes := t.socket.closes + 1 } }
  else t

end TcpStream
