import Ndsl.Lib.Bytes
import Ndsl.Lib.Traced
import Ndsl.Net.Basic

/-!
# `Ndsl.Net.Dns`: the answers to name queries

`Dns.cc`: `handle_read` takes the datagrams from the socket one by one, walks through each response
with the cursor `p`, and gives the addresses that it finds to the task that `find_query` takes from
the pending requests.

The trace of a call lists each access to `buffer_` and each move of the cursor, as positions in
`buffer_`. An access outside of `buffer_` is listed as well, and the execution stops there. What
`recv` gives before it reports `-1` is an input of the call. It reports `-1` when no datagram waits,
and also for a pending error of the connected socket, whatever waits behind it (`Socket`). The
requests are in `Ndsl.Net.DnsRequest`.
-/

set_option autoImplicit false

namespace Ndsl.Net

open Ndsl.Lib

namespace Dns

/-- `Dns::BUFFER_SIZE`. -/
def BUFFER_SIZE : Nat := 4096

/-- `Dns::DNS_BUCKET_SIZE`. -/
def DNS_BUCKET_SIZE : Nat := 64

/-- `DEFAULT_QUERY_TYPE`: an IPv4 address. -/
def DEFAULT_QUERY_TYPE : Int := 0x0001

/-- `QUERY_RESPONSE_FLAGS`. -/
def QUERY_RESPONSE_FLAGS : Nat := 0x8000

/-- `sizeof(PacketHead)`. -/
def sizeofPacketHead : Nat := 12

/-- `sizeof(PacketTail)`. -/
def sizeofPacketTail : Nat := 4

/-- `AF_INET`. -/
def AF_INET : Nat := 2

/-- `SocketAddress4`. -/
structure SocketAddress4 where
  sin_family : Nat := AF_INET
  sin_port : Nat := 0
  /-- The bytes of `sin_addr.s_addr`. -/
  sin_addr : List UInt8
  deriving Repr, DecidableEq

/-- `struct DnsTask`. -/
structure DnsTask where
  /-- What `domain_name` points to. -/
  domain_name : List UInt8 := []
  domain_size : Int := 0
  query_id : UInt16
  answer_address : List SocketAddress4 := []
  deriving Repr, DecidableEq

/-- `struct BucketEntry`. A task goes by a number. -/
structure BucketEntry where
  task : Nat
  deriving Repr, DecidableEq

/-! ### The buffer -/

/-- What `buffer_` points to. -/
structure Buffer where
  bytes : List UInt8
  length_eq : bytes.length = BUFFER_SIZE

namespace Buffer

/-- `recv(..., buffer_, BUFFER_SIZE, 0)` of a datagram. What does not fit is lost, and what lies
behind a shorter datagram stays. -/
def recv (buf : Buffer) (datagram : List UInt8) : Buffer where
  bytes := datagram.take BUFFER_SIZE ++ buf.bytes.drop datagram.length
  length_eq := by
    have := buf.length_eq
    rw [List.length_append, List.length_take, List.length_drop]
    omega

/-- The `n` bytes at a position, if they are all inside. -/
def read (buf : Buffer) (pos : Int) (n : Nat) : Option (List UInt8) :=
  if 0 ≤ pos ∧ pos + n ≤ BUFFER_SIZE then some ((buf.bytes.drop pos.toNat).take n) else none

/-- Another byte at a position. -/
def set (buf : Buffer) (pos : Nat) (b : UInt8) : Buffer where
  bytes := buf.bytes.set pos b
  length_eq := by rw [List.length_set, buf.length_eq]

end Buffer

/-- What happens in `handle_read` and in `request`. -/
inductive Event
  /-- `recv` gives a datagram, or `-1`. -/
  | recv (datagram : Option (List UInt8))
  /-- The `n` bytes at `pos` are read. -/
  | load (pos : Int) (n : Nat)
  /-- The byte at `pos` is written. -/
  | store (pos : Int)
  /-- The cursor is moved from `p` to `q`. -/
  | move (p q : Int)
  /-- The fields of an answer have been read: `p` was at `start` before its name and at `type_at`
  behind it. -/
  | answer (start type_at type dlen : Int)
  /-- `loop_->addWork(dtask)`. -/
  | addWork (dtask : Nat)
  /-- `n` bytes of the `packet` of a request are written, at `pos`. -/
  | put (pos n : Nat)
  /-- `send` of the packet for a task, and its error when it fails. -/
  | send (task : Nat) (packet : List UInt8) (error : Option Int)
  deriving Repr, DecidableEq

end Dns

/-- A `Dns`, with the tasks that it points to. -/
structure Dns where
  count_ : Nat
  /-- The entries of each bucket, from the head on. -/
  bucket_ : Nat → List Dns.BucketEntry
  tasks : Nat → Dns.DnsTask
  buffer_ : Dns.Buffer
  current_ : UInt32 := 0

namespace Dns

/-- Reads the `n` bytes at `pos`. -/
def load (pos : Int) (n : Nat) (s : Dns) : Traced Event (List UInt8) := do
  .tell [.load pos n]
  match s.buffer_.read pos n with
  | none => .fault
  | some bytes => return bytes

/-- `ntohs` of the `short` at `pos`, as an `unsigned short`. -/
def ntohs (pos : Int) (s : Dns) : Traced Event Nat := do
  let bytes ← s.load pos 2
  return ofBE bytes

/-- An `unsigned short` converted to `short`. -/
def toShort (n : Nat) : Int := if n < 2 ^ 15 then n else (n : Int) - 2 ^ 16

/-- `head->id`, on a host that is little endian. -/
def headId (s : Dns) : Traced Event UInt16 := do
  let bytes ← s.load 0 2
  return UInt16.ofNat (ofBE bytes.reverse)

/-- `Dns::find_query`: the task of the first entry of its bucket with this id. The entry is
deleted. -/
def findQuery (id : UInt16) (s : Dns) : Option Nat × Dns :=
  let index := id.toNat % DNS_BUCKET_SIZE
  let found (be : BucketEntry) : Bool := (s.tasks be.task).query_id = id
  -- the first entry from the head on, whatever task it is for
  match (s.bucket_ index).find? found with
  | none => (none, s)
  | some be =>
    (some be.task,
      { s with
        bucket_ := Function.update s.bucket_ index ((s.bucket_ index).eraseP found)
        count_ := toSize ((s.count_ : Int) - 1) })

/-- `while (*p != 0) ++p`, from `p` on. The fuel is more than the bytes of `buffer_`, so the access
outside of it comes first. -/
def skipLabels : Nat → Int → Dns → Traced Event Int
  | 0, p, s => do
    let _ ← s.load p 1
    .fault
  | fuel + 1, p, s => do
    let c ← s.load p 1
    if c = [0] then return p
    else do
      .tell [.move p (p + 1)]
      skipLabels fuel (p + 1) s

/-- The part of `handle_read` that moves `p` behind a name. It takes a byte with one of the two top
bits for a pointer. -/
def skipName (p : Int) (s : Dns) : Traced Event (Int × Dns) := do
  let c ← s.load p 1
  if c.headD 0 &&& 0xc0 ≠ 0 then do
    -- a pointer: its top bits are cleared in place, and the name ends behind two bytes
    .tell [.load p 1, .store p, .move p (p + 2)]
    return (p + 2, { s with buffer_ := s.buffer_.set p.toNat (0x3f &&& c.headD 0) })
  else do
    let q ← s.skipLabels BUFFER_SIZE p
    .tell [.move q (q + 1)]
    return (q + 1, s)

/-- The loop over the questions. -/
def skipQuestions : Nat → Int → Dns → Traced Event (Int × Dns)
  | 0, p, s => return (p, s)
  | quests + 1, p, s => do
    let (p, s) ← s.skipName p
    .tell [.move p (p + sizeofPacketTail)]
    skipQuestions quests (p + sizeofPacketTail) s

/-- `dtask->answer_address.push_back(*it)`. -/
def pushBack (dtask : Nat) (addr : List UInt8) (s : Dns) : Dns :=
  let task := s.tasks dtask
  { s with
    tasks := Function.update s.tasks dtask
      { task with answer_address := task.answer_address ++ [{ sin_addr := addr }] } }

/-- The part of `handle_read` for an address. The result says whether it goes to `retry`. -/
def takeAddress (id : UInt16) (last : Bool) (data : Int) (s : Dns) : Traced Event (Bool × Dns) :=
  match s.findQuery id with
  | (none, s) => return (false, s)
  | (some dtask, s) => do
    -- the entry is gone by now, also when another answer follows
    let addr ← s.load data 4
    let s := s.pushBack dtask addr
    if last then do
      .tell [.addWork dtask]
      return (true, s)
    else return (false, s)

/-- The loop over the answers. The result says whether it goes to `retry`. -/
def walkAnswers (id : UInt16) : Nat → Int → Dns → Traced Event (Bool × Dns)
  | 0, _, s => return (false, s)
  | answers + 1, start, s => do
    let (p, s) ← s.skipName start
    let type ← s.ntohs p
    -- both numbers are kept in a `short`, so great ones are negative
    let type := toShort type
    .tell [.move p (p + 2), .move (p + 2) (p + 4), .move (p + 4) (p + 8)]
    let dlen ← s.ntohs (p + 8)
    let dlen := toShort dlen
    .tell [.move (p + 8) (p + 10), .answer start p type dlen]
    let data := p + 10
    let (retry, s) ← if type = DEFAULT_QUERY_TYPE then s.takeAddress id (answers = 0) data
      else pure (false, s)
    if retry then return (true, s)
    else do
      -- a negative length moves the cursor back
      .tell [.move data (data + dlen)]
      walkAnswers id answers (data + dlen) s

/-- `handle_read` from behind `recv` on, with the datagram in `buffer_`. The result says whether it
goes to `retry`. -/
def response (s : Dns) : Traced Event (Bool × Dns) := do
  let flags ← s.ntohs 2
  if flags &&& QUERY_RESPONSE_FLAGS = 0 then return (true, s)
  else do
    -- the counts are read in the order of the source, the answers before the questions
    let answers ← s.ntohs 6
    let quests ← s.ntohs 4
    let id ← s.headId
    let (p, s) ← s.skipQuestions quests sizeofPacketHead
    s.walkAnswers id answers p

/-- `Dns::handle_read`, when `recv` gives these datagrams and then `-1`. It does not look at
`errno`, so it makes no difference why. -/
def handleRead : List (List UInt8) → Dns → Traced Event (Int × Dns)
  | [], s => do
    .tell [.recv none]
    return (-1, s)
  | datagram :: datagrams, s => do
    .tell [.recv (some datagram)]
    let (retry, s) ← { s with buffer_ := s.buffer_.recv datagram }.response
    if retry then handleRead datagrams s
    else return (0, s)

/-- The socket, as a call finds it. An error that the socket has got, such as `ECONNREFUSED` when
nothing listens at the name server, is reported by the next `recv`, in front of the datagrams that
wait. -/
structure Socket where
  /-- The datagrams that wait, the oldest first. -/
  datagrams : List (List UInt8)
  /-- How many of them `recv` has given when it reports an error. -/
  error : Option Nat := none
  deriving Repr, DecidableEq

/-- What `recv` gives before it reports `-1`. -/
def Socket.given (socket : Socket) : List (List UInt8) :=
  match socket.error with
  | none => socket.datagrams
  | some taken => socket.datagrams.take taken

end Dns

end Ndsl.Net
