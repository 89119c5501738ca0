import Ndsl.Net.Dns

/-!
# `Ndsl.Net.DnsRequest`: name queries

`Dns::request` puts an entry for the task into the table, under the next id, and sends the query.
`coding` writes the name of the task into the packet. It returns false at a label that is too long,
and then `request` takes the entry out again. An error of `send` leaves the entry in the table.

A write outside of `packet`, and a read behind the name of the task, stop the execution. The loop at
`retry` goes on as long as `send` fails with `EAGAIN`, so the errors of the calls that fail are an
input of the request.

A run is a sequence of steps (`Action`): a request, a call of `handle_read` with the datagrams that
wait, and what the user writes into a task.
-/

set_option autoImplicit false

namespace Ndsl.Net

open Ndsl.Lib

namespace Dns

/-- `EINVAL`. -/
def EINVAL : Int := 22

/-- `EAGAIN`. -/
def EAGAIN : Int := 11

/-- `DEFAULT_QUERY_FLAGS`. -/
def DEFAULT_QUERY_FLAGS : Nat := 0x0100

/-- `DEFAULT_INET_CLASS`. -/
def DEFAULT_INET_CLASS : Nat := 0x0001

/-- The character between two labels of a name. -/
def dot : UInt8 := 0x2e

/-! ### The packet -/

/-- `char packet[512]`. -/
structure Packet where
  bytes : List UInt8
  length_eq : bytes.length = 512

namespace Packet

/-- Writes bytes at a position. -/
def put (packet : Packet) (pos : Nat) (src : List UInt8) : Traced Event Packet := do
  .tell [.put pos src.length]
  if h : pos + src.length ≤ 512 then
    return ⟨overwrite packet.bytes pos src, by
      rw [length_overwrite (by rw [packet.length_eq]; exact h), packet.length_eq]⟩
  else .fault

/-- The byte at a position. -/
def get (packet : Packet) (pos : Nat) : Traced Event UInt8 :=
  match packet.bytes[pos]? with
  | none => .fault
  | some c => pure c

end Packet

/-- The bytes of a `PacketHead` of a query with this id, on a host that is little endian. -/
def packetHead (id : UInt16) : List UInt8 :=
  (be16 id.toNat).reverse ++ be16 DEFAULT_QUERY_FLAGS ++ be16 1 ++ be16 0 ++ be16 0 ++ be16 0

/-- The bytes of the `PacketTail` of a query. -/
def packetTail : List UInt8 := be16 DEFAULT_QUERY_TYPE.toNat ++ be16 DEFAULT_INET_CLASS

/-- The loop of `coding` with `n` bytes of the name to go. `p` is at the next of them, and `i` bytes
of its label lie before it. -/
def codeLabels : Nat → Nat → Nat → Packet → Traced Event (Bool × Packet)
  | 0, p, i, packet => do
    if i > 64 then return (false, packet)
    let packet ← packet.put (p - i - 1) [UInt8.ofNat i]
    return (true, packet)
  | n + 1, p, i, packet => do
    let c ← packet.get p
    if c = dot then do
      if i > 64 then return (false, packet)
      let packet ← packet.put (p - i - 1) [UInt8.ofNat i]
      codeLabels n (p + 1) 0 packet
    else codeLabels n (p + 1) (i + 1) packet

/-- `Dns::coding`, into the packet from `buffer` on. -/
def coding (task : DnsTask) (buffer : Nat) (packet : Packet) : Traced Event (Bool × Packet) := do
  -- `bcopy` takes a size below zero for a huge one
  if task.domain_size < 0 ∨ task.domain_name.length < task.domain_size then .fault
  else do
    let domain_size := task.domain_size.toNat
    let packet ← packet.put (buffer + 1) (task.domain_name.take domain_size)
    let packet ← packet.put (buffer + domain_size + 1) [0]
    codeLabels domain_size (buffer + 1) 0 packet

/-- The loop at `retry`. The calls of `send` fail with these errors, and the next one works. -/
def sendPacket (task : Nat) (packet : List UInt8) : List Int → Traced Event Int
  | [] => do
    .tell [.send task packet none]
    return S_OK
  | error :: errors => do
    .tell [.send task packet (some error)]
    if error = EAGAIN then sendPacket task packet errors
    else return error

/-! ### The table -/

/-- The part of `request` that takes an id and puts an entry at the front of its bucket. -/
def enqueue (task : Nat) (s : Dns) : Dns :=
  let id := s.current_.toUInt16
  let index := id.toNat % DNS_BUCKET_SIZE
  { s with
    count_ := toSize (s.count_ + 1)
    tasks := Function.update s.tasks task { s.tasks task with query_id := id }
    current_ := s.current_ + 1
    bucket_ := Function.update s.bucket_ index ({ task := task } :: s.bucket_ index) }

/-- The part of `request` that takes the entry `be` of the task out again. It is still the first one
of its bucket. -/
def dequeue (task : Nat) (s : Dns) : Dns :=
  let index := (s.tasks task).query_id.toNat % DNS_BUCKET_SIZE
  { s with
    bucket_ := Function.update s.bucket_ index (s.bucket_ index).tail
    count_ := toSize ((s.count_ : Int) - 1) }

/-- `Dns::request`. The packet is what lies on the stack. -/
def request (task : Nat) (packet : Packet) (errors : List Int) (s : Dns) :
    Traced Event (Int × Dns) := do
  if (s.tasks task).domain_size ≥ 255 then return (EINVAL, s)
  let s := s.enqueue task
  let t := s.tasks task
  let packet ← packet.put 0 (packetHead t.query_id)
  let (coded, packet) ← coding t sizeofPacketHead packet
  if ¬ coded then return (EINVAL, s.dequeue task)
  let len := sizeofPacketHead + t.domain_size.toNat + 2
  let packet ← packet.put len packetTail
  let ret ← sendPacket task (packet.bytes.take (len + sizeofPacketTail)) errors
  return (ret, s)

/-! ### Runs -/

/-- A step. -/
inductive Action
  | request (task : Nat) (packet : Packet) (errors : List Int)
  | handleRead (datagrams : List (List UInt8))
  /-- The user writes another name into a task. -/
  | rename (task : Nat) (domain_name : List UInt8) (domain_size : Int)

/-- One step. -/
def step (s : Dns) : Action → Traced Event Dns
  | .request task packet errors => do
    let (_, s) ← s.request task packet errors
    return s
  | .handleRead datagrams => do
    let (_, s) ← s.handleRead datagrams
    return s
  | .rename task domain_name domain_size =>
    return { s with
      tasks := Function.update s.tasks task { s.tasks task with
        domain_name := domain_name
        domain_size := domain_size } }

/-- The constructor of `Dns`, with the tasks of the user and what lies in the buffer. -/
def fresh (tasks : Nat → DnsTask) (buffer_ : Buffer) : Dns where
  count_ := 0
  bucket_ _ := []
  tasks := tasks
  buffer_ := buffer_
  current_ := 0

end Dns

end Ndsl.Net
