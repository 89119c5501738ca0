import Ndsl.Lib.Ring
import Ndsl.Net.DnsRequest

/-!
# `Ndsl.Net.DnsTable`: the list entries of the pending requests

In `Ndsl.Net.Dns` a bucket is the list of its entries. Here it is what `Dns.h` makes of it: the
heads and the entries are nodes with a pointer to the next and one to the one before, in memory.
`new` and `delete` take nodes and give them back, and `count_` is a number beside all this.

An entry goes by its address, which is an input of the call that makes it. A `delete` of an entry
that is not there, a pointer to the head of another bucket where an entry should be, and a use of
the channel that `stop` has deleted stop the execution. The results of the system calls are inputs.
-/

set_option autoImplicit false

namespace Ndsl.Net

open Ndsl.Lib

namespace DnsTable

/-- What a `ListEntry *` points to: the head of a bucket, or an entry. -/
inductive Node
  | head (index : Nat)
  | entry (be : Nat)
  deriving Repr, DecidableEq

end DnsTable

open DnsTable in
/-- A `Dns`, with the memory of its list entries and the tasks that it points to. -/
structure DnsTable where
  loop_ : Option Nat := none
  /-- The socket of the channel, when there is one that has not been deleted. -/
  udp_ : Option Int := none
  count_ : Nat := 0
  links : Links Node := fun node => ⟨node, node⟩
  /-- `BucketEntry::task` of each entry. -/
  task : Nat → Nat := fun _ => 0
  /-- The entries that have been allocated. -/
  live : List Nat := []
  address_ : Dns.SocketAddress4
  tasks : Nat → Dns.DnsTask
  buffer_ : Dns.Buffer
  current_ : UInt32 := 0

namespace DnsTable

open Dns (Event Packet EINVAL EAGAIN DNS_BUCKET_SIZE SocketAddress4 packetHead packetTail coding
  sendPacket sizeofPacketHead sizeofPacketTail)

/-! ### Memory -/

/-- `new BucketEntry` at the address `be`. Its pointers point to itself. -/
def new (be : Nat) (t : DnsTable) : DnsTable :=
  { t with
    live := be :: t.live
    links := Function.update t.links (.entry be) ⟨.entry be, .entry be⟩ }

/-- `delete be`. What was there stays in memory. -/
def delete (be : Nat) (t : DnsTable) : Traced Event DnsTable :=
  if be ∈ t.live then pure { t with live := t.live.erase be } else .fault

/-- `be->erase()`. -/
def erase (be : Nat) (t : DnsTable) : DnsTable :=
  { t with links := t.links.erase (.entry be) }

/-! ### Setting up -/

/-- `Dns::init`, with what `socket` and `enrollIn` return and what `errno` is when `socket` fails.
-/
def init (evloop : Option Nat) (dnsfd errno enrolled : Int) (t : DnsTable) : Int × DnsTable :=
  match evloop with
  | none => (EINVAL, t)
  | some loop =>
    let t := { t with loop_ := some loop, udp_ := some dnsfd }
    if dnsfd = -1 then (errno, t)
    else if enrolled ≠ 0 then (enrolled, t)
    else (S_OK, t)

/-- `Dns::setNameServer`, with the error of `connect`, what `recv` receives, and what `errno` is
behind it. -/
def setNameServer (srv : SocketAddress4) (connect : Option Int) (recv : Option (List UInt8))
    (errno : Int) (t : DnsTable) : Traced Event (Int × DnsTable) :=
  if t.count_ ≠ 0 then pure (EINVAL, t)
  else
    let t := { t with address_ := srv }
    match t.udp_ with
    | none => .fault
    | some _ =>
      match connect with
      | some error => pure (error, t)
      | none =>
        match recv with
        | none => pure (EAGAIN, t)
        | some datagram =>
          let t := { t with buffer_ := t.buffer_.recv datagram }
          if errno ≠ EAGAIN then pure (errno, t) else pure (EAGAIN, t)

/-! ### Requests -/

/-- The part of `request` that makes an entry and puts it behind the head of its bucket. -/
def enqueue (be task : Nat) (t : DnsTable) : DnsTable :=
  let t := t.new be
  let t := { t with task := Function.update t.task be task, count_ := toSize (t.count_ + 1) }
  let id := t.current_.toUInt16
  let t := { t with
    tasks := Function.update t.tasks task { t.tasks task with query_id := id }
    current_ := t.current_ + 1 }
  let index := id.toNat % DNS_BUCKET_SIZE
  { t with links := t.links.insertAfter (.head index) (.entry be) }

/-- The part of `request` that takes the entry out again. -/
def dequeue (be : Nat) (t : DnsTable) : Traced Event DnsTable := do
  let t ← (t.erase be).delete be
  return { t with count_ := toSize ((t.count_ : Int) - 1) }

/-- `Dns::request`, with the address that `new` gives. The packet is what lies on the stack. -/
def request (be task : Nat) (packet : Packet) (errors : List Int) (t : DnsTable) :
    Traced Event (Int × DnsTable) := do
  if (t.tasks task).domain_size ≥ 255 then return (EINVAL, t)
  let t := t.enqueue be task
  let dtask := t.tasks task
  let packet ← packet.put 0 (packetHead dtask.query_id)
  let (coded, packet) ← coding dtask sizeofPacketHead packet
  if ¬ coded then return (EINVAL, ← t.dequeue be)
  let len := sizeofPacketHead + dtask.domain_size.toNat + 2
  let packet ← packet.put len packetTail
  match t.udp_ with
  | none => .fault
  | some _ => do
    let ret ← sendPacket task (packet.bytes.take (len + sizeofPacketTail)) errors
    return (ret, t)

/-! ### Responses -/

/-- The loop of `find_query`, with the cursor at a node. -/
def findFrom (id : UInt16) (index : Nat) : Nat → Node → DnsTable → Traced Event (Option Nat)
  | 0, _, _ => .fault
  | fuel + 1, node, t =>
    if node = .head index then pure none
    else
      match node with
      | .head _ => .fault
      | .entry be =>
        if (t.tasks (t.task be)).query_id = id then pure (some be)
        else findFrom id index fuel (t.links node).next t

/-- `Dns::find_query`. The fuel is more than the entries that there are, so a loop that comes to no
end stops the execution. -/
def findQuery (id : UInt16) (t : DnsTable) : Traced Event (Option Nat × DnsTable) := do
  let index := id.toNat % DNS_BUCKET_SIZE
  match ← findFrom id index (t.live.length + 1) (t.links (.head index)).next t with
  | none => return (none, t)
  | some be =>
    let t := t.erase be
    let task := t.task be
    let t ← t.delete be
    return (some task, { t with count_ := toSize ((t.count_ : Int) - 1) })

/-! ### Stopping -/

/-- The inner loop of `stop`: the entries of a bucket, from the first one on. -/
def drain (index : Nat) : Nat → DnsTable → Traced Event DnsTable
  | 0, t => if t.links.empty (.head index) then pure t else .fault
  | fuel + 1, t =>
    if t.links.empty (.head index) then pure t
    else
      match (t.links (.head index)).next with
      | .head _ => .fault
      | .entry be => do
        let t ← (t.erase be).delete be
        drain index fuel t

/-- `Dns::stop`. The channel is deleted, and so are the entries. -/
def stop (t : DnsTable) : Traced Event DnsTable :=
  match t.loop_, t.udp_ with
  | some _, some _ =>
    (List.range DNS_BUCKET_SIZE).foldlM (fun t index => drain index t.live.length t)
      { t with udp_ := none }
  | _, _ => .fault

/-! ### Runs -/

/-- A step. -/
inductive Action
  | init (evloop : Option Nat) (dnsfd errno enrolled : Int)
  | setNameServer (srv : SocketAddress4) (connect : Option Int) (recv : Option (List UInt8))
      (errno : Int)
  | request (be task : Nat) (packet : Packet) (errors : List Int)
  | findQuery (id : UInt16)
  | stop

/-- One step. -/
def step (t : DnsTable) : Action → Traced Event DnsTable
  | .init evloop dnsfd errno enrolled => return (t.init evloop dnsfd errno enrolled).2
  | .setNameServer srv connect recv errno => do
    let (_, t) ← t.setNameServer srv connect recv errno
    return t
  | .request be task packet errors => do
    let (_, t) ← t.request be task packet errors
    return t
  | .findQuery id => do
    let (_, t) ← t.findQuery id
    return t
  | .stop => t.stop

/-- `AF_UNSPEC`. -/
def AF_UNSPEC : Nat := 0

/-- The constructor of `Dns`, with the tasks of the user and what lies in the buffer. -/
def fresh (tasks : Nat → Dns.DnsTask) (buffer_ : Dns.Buffer) : DnsTable where
  address_ := { sin_family := AF_UNSPEC, sin_addr := [0, 0, 0, 0] }
  tasks := tasks
  buffer_ := buffer_

end DnsTable

end Ndsl.Net
