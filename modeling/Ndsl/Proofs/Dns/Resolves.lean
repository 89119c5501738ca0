import Mathlib.Data.List.Perm.Basic
import Mathlib.Data.List.ReduceOption
import Ndsl.Proofs.Dns.Completes
import Ndsl.Proofs.Dns.Drains
import Ndsl.Proofs.Dns.Ids
import Ndsl.Proofs.Dns.Names

/-!
# `Ndsl.Proofs.Dns.Resolves`: each task gets the addresses of its own names

A `World` is a `Dns` and a name server, and what is on its way between them. The network brings
queries and answers in any order, late or never. The server answers a query with a response that the
code understands and whose last record, and no other, is the address of the name.

`resolves`: as long as no request gets the id of a pending one, each task has got the addresses of
the names for which it was requested, in the order of its requests, whatever was renamed meanwhile.
Exactly the requests whose query or answer is under way, waits or is lost are pending, and a call of
`handle_read` completes all those whose answers wait, in the order of the answers. Where the socket
reports an error, it completes those in front of the error, and the others still wait.

`request_sends` is what the run rests on: a request sends a query for the name of its task, and the
server reads from the bytes which name it is.
-/

set_option autoImplicit false

namespace Ndsl.Proofs.Dns

open Ndsl.Lib Ndsl.Lib.DnsMessage Ndsl.Lib.Buckets
open Ndsl.Net Ndsl.Net.Dns

/-! ### The name server and the network -/

/-- A query for a name without zero bytes. The longest name that `request` accepts takes 256
bytes. -/
structure Plain (q : Query) : Prop where
  ending_eq : q.question.name.ending = .root
  length_le : q.question.name.encode.length ≤ 256
  no_zero : ∀ label ∈ q.question.name.labels, 0 ∉ label.bytes

/-- A name server that knows the address of each name. It copies the id of the query, and what it
sends is understood and has the address as its last record. -/
structure Serves (zone : List (List UInt8) → List UInt8) (serve : List UInt8 → Response) :
    Prop where
  id_eq : ∀ q : Query, Plain q → (serve q.encode).id = q.id
  understood : ∀ q : Query, Plain q → Understood (serve q.encode)
  length_le : ∀ q : Query, Plain q → (serve q.encode).encode.length ≤ BUFFER_SIZE
  answers : ∀ q : Query, Plain q →
    OnlyLast (serve q.encode).answers (zone (q.question.name.labels.map Label.bytes))

/-- A query that was sent, with the task for which it was. -/
structure Mail where
  task : Nat
  query : List UInt8
  deriving Repr, DecidableEq

/-- The client and the network. A query is `inFlight` until its answer waits on the socket. `asked`
has the names for which each task was requested. -/
structure World where
  client : Dns
  inFlight : List Mail := []
  waiting : List Mail := []
  lost : List Mail := []
  asked : Nat → List (List (List UInt8)) := fun _ => []

/-- A step of the client, of its user, or of the network. -/
inductive Op
  | request (task : Nat) (packet : Packet) (errors : List Int)
  | rename (task : Nat) (domain_name : List UInt8) (domain_size : Int)
  /-- The answer to a query has come to the socket. -/
  | answer (i : Nat)
  /-- A query, or its answer, is lost. -/
  | lose (i : Nat)
  /-- A call of `handle_read`. So many answers are given to it in front of an error of the
  socket. -/
  | handleRead (error : Option Nat)

/-- What `send` was called with for the last time in a request, and whether it took it. -/
def posted (log : List Event) : List (Mail × Bool) :=
  log.filterMap fun
    | .send task query none => some (⟨task, query⟩, true)
    | .send task query (some error) => if error = EAGAIN then none else some (⟨task, query⟩, false)
    | _ => none

namespace World

/-- All queries that have not been answered. -/
def mail (w : World) : List Mail := w.inFlight ++ w.waiting ++ w.lost

/-- The queries whose answers a call is given: all that wait, or those in front of an error. -/
def given (error : Option Nat) (w : World) : List Mail := error.elim w.waiting w.waiting.take

/-- The socket of the client. -/
def socket (serve : List UInt8 → Response) (error : Option Nat) (w : World) : Socket where
  datagrams := w.waiting.map fun m => (serve m.query).encode
  error := error

/-- One step. A query that `send` has not taken is lost. -/
def step (serve : List UInt8 → Response) (w : World) : Op → Traced Event World
  | .request task packet errors => do
    let call := w.client.step (.request task packet errors)
    let client ← call
    let name := labels (w.client.tasks task)
    return { w with
      client := client
      inFlight := w.inFlight ++ ((posted call.log).filter (·.2)).map (·.1)
      lost := w.lost ++ ((posted call.log).filter (!·.2)).map (·.1)
      asked := Function.update w.asked task (w.asked task ++ (posted call.log).map fun _ => name) }
  | .rename task domain_name domain_size => do
    let client ← w.client.step (.rename task domain_name domain_size)
    return { w with client := client }
  | .answer i =>
    return { w with
      inFlight := w.inFlight.eraseIdx i
      waiting := w.waiting ++ w.inFlight[i]?.toList }
  | .lose i =>
    return { w with
      inFlight := w.inFlight.eraseIdx i
      lost := w.lost ++ w.inFlight[i]?.toList }
  | .handleRead error => do
    let call := w.client.step (.handleRead (w.socket serve error).given)
    let client ← call
    -- what it has received is not on the socket any more
    return { w with
      client := client
      waiting := w.waiting.drop (received call.log).reduceOption.length }

end World

/-- A client with its tasks. -/
def start (tasks : Nat → DnsTask) (buffer_ : Buffer) : World := { client := fresh tasks buffer_ }

/-- A name that a query can ask for, where `coding` does not refuse it. -/
def Named (t : DnsTask) : Prop :=
  t.domain_size < 255 → Fits t → ∀ label ∈ labels t, Sized label ∧ 0 ∉ label

/-- A step whose request does not take the id of a pending one, for a name that can be asked for. -/
def Orderly (w : World) : Op → Prop
  | .request task packet errors =>
    Careful w.client (.request task packet errors) ∧ Named (w.client.tasks task)
  | _ => True

/-! ### What a request sends -/

@[simp] theorem posted_append (log es : List Event) :
    posted (log ++ es) = posted log ++ posted es :=
  List.filterMap_append

/-- What is no call of `send` posts nothing. -/
theorem posted_of_forall {es : List Event}
    (h : ∀ e ∈ es, ∀ x packet error, e ≠ .send x packet error) :
    posted es = [] := by
  refine List.filterMap_eq_nil_iff.mpr fun e he => ?_
  cases e with
  | send x packet error => exact absurd rfl (h _ he x packet error)
  | _ => rfl

theorem isPut_of_put {packet packet' : Packet} {pos : Nat} {src : List UInt8} {es : List Event}
    (h : (packet.put pos src).Yields es packet') : ∀ e ∈ es, IsPut e := by
  rw [(put_yields h).1]
  exact List.forall_mem_singleton.mpr trivial

/-- While the packet is written nothing is posted or scheduled. -/
theorem quiet_of_isPut {es : List Event} (h : ∀ e ∈ es, IsPut e) :
    posted es = [] ∧ works es = [] := by
  refine ⟨posted_of_forall fun e he => not_send_of_isPut (h e he), ?_⟩
  refine List.filterMap_eq_nil_iff.mpr fun e he => ?_
  cases e with
  | addWork dtask => exact absurd (h _ he) id
  | _ => rfl

/-- However often `send` is called, the packet is posted once. -/
theorem sendPacket_posted {task : Nat} {sent : List UInt8} : ∀ {errors : List Int}
    {es : List Event} {ret : Int}, (sendPacket task sent errors).Yields es ret →
    (∃ took, posted es = [(⟨task, sent⟩, took)]) ∧ works es = [] := by
  intro errors
  induction errors with
  | nil =>
      intro es ret h
      obtain ⟨rfl, -⟩ := (Traced.tell_pure_yields ..).mp h
      exact ⟨⟨true, rfl⟩, rfl⟩
  | cons error errors ih =>
      intro es ret h
      obtain ⟨gs, hrest, rfl⟩ := (Traced.tell_bind_yields ..).mp h
      rw [posted_append, works_append]
      split at hrest
      · next hagain =>
        -- it is called again
        have hnone : posted [.send task sent (some error)] = [] := by simp [posted, hagain]
        rw [hnone]
        exact ih hrest
      · next hfailed =>
        obtain ⟨rfl, -⟩ := (Traced.pure_yields ..).mp hrest
        refine ⟨⟨false, ?_⟩, rfl⟩
        simp [posted, hfailed]

/-- The query for a name. -/
def queryOf (id : UInt16) (labels : List Label) : Query where
  id := (UInt8.ofNat id.toNat, UInt8.ofNat (id.toNat / 2 ^ 8))
  flags := 0x0100
  question := { name := ⟨labels, .root⟩, qtype := 1, qclass := 1 }

/-- Its bytes are a head, the name and a tail. -/
theorem encode_queryOf (id : UInt16) (labels : List Label) :
    (queryOf id labels).encode = packetHead id ++ (Name.encode ⟨labels, .root⟩ ++ packetTail) := by
  show [UInt8.ofNat id.toNat, UInt8.ofNat (id.toNat / 2 ^ 8)] ++ be16 0x0100 ++ be16 1 ++ be16 0 ++
    be16 0 ++ be16 0 ++ (Name.encode ⟨labels, .root⟩ ++ (be16 1 ++ be16 1)) = _
  rfl

/-- The bytes that `request` puts together. -/
theorem take_packet {id : UInt16} {t : DnsTask} {labels : List Label}
    {packet headed named whole : Packet} {es fs gs : List Event}
    (hhead : (packet.put 0 (packetHead id)).Yields es headed)
    (hcoding : (coding t sizeofPacketHead headed).Yields fs (true, named))
    (htail : (named.put (sizeofPacketHead + t.domain_size.toNat + 2) packetTail).Yields gs whole)
    (hname : (named.bytes.drop sizeofPacketHead).take (t.domain_size.toNat + 2) =
      Name.encode ⟨labels, .root⟩) :
    whole.bytes.take (sizeofPacketHead + t.domain_size.toNat + 2 + sizeofPacketTail) =
      (queryOf id labels).encode := by
  obtain ⟨-, hfront, -⟩ := coding_yields hcoding
  -- the head is still there when the name has been coded
  have hid : named.bytes.take sizeofPacketHead = packetHead id := by
    have hput := take_drop_put hhead
    rw [List.drop_zero] at hput
    exact hfront.trans hput
  have hnamed : named.bytes.take (sizeofPacketHead + t.domain_size.toNat + 2) =
      packetHead id ++ Name.encode ⟨labels, .root⟩ := by
    rw [Nat.add_assoc, List.take_add, hid, hname]
  have hput := take_drop_put htail
  have hsize : packetTail.length = sizeofPacketTail := rfl
  rw [hsize] at hput
  rw [List.take_add, take_put htail (Nat.le_refl _), hnamed, hput, encode_queryOf,
    List.append_assoc]

/-- A server that copies the id answers to this request. -/
theorem hostId_queryOf (id : UInt16) (labels : List Label) :
    UInt16.ofNat (ofBE [(queryOf id labels).id.2, (queryOf id labels).id.1]) = id := by
  have hbytes : [(queryOf id labels).id.2, (queryOf id labels).id.1] = be16 id.toNat := rfl
  have hlt : id.toNat < 2 ^ 16 := id.toNat_lt
  rw [hbytes, ofBE_be16, Nat.mod_eq_of_lt hlt]
  exact UInt16.ofNat_toNat

/-- A request for a name that can be asked for sends one query, with the next id and the name of
its task, and nothing is scheduled. -/
theorem request_sends {s s' : Dns} {task : Nat} {packet : Packet} {errors : List Int}
    {es : List Event} {ret : Int} (h : (s.request task packet errors).Yields es (ret, s'))
    (hsize : (s.tasks task).domain_size < 255) (hfits : Fits (s.tasks task))
    (hsized : ∀ label ∈ labels (s.tasks task), Sized label) :
    s' = s.enqueue task ∧ works es = [] ∧ ∃ (ls : List Label) (took : Bool),
      ls.map Label.bytes = labels (s.tasks task) ∧ (Name.encode ⟨ls, .root⟩).length ≤ 256 ∧
        posted es = [(⟨task, (queryOf (nextId s) ls).encode⟩, took)] := by
  unfold request at h
  rw [if_neg (by omega)] at h
  -- the task has its id, and its name is what it was
  obtain ⟨t, ht⟩ : ∃ t, (s.enqueue task).tasks task = t := ⟨_, rfl⟩
  have htask : t = { s.tasks task with query_id := nextId s } :=
    ht.symm.trans (Function.update_self ..)
  have hid : t.query_id = nextId s := by rw [htask]
  have hname : labels t = labels (s.tasks task) := by rw [htask]; rfl
  dsimp only at h
  rw [ht] at h
  obtain ⟨fs, headed, gs, hhead, hbody, rfl⟩ := Traced.bind_yields.mp h
  obtain ⟨hs, ⟨coded, named⟩, ks, hcoding, hrest, rfl⟩ := Traced.bind_yields.mp hbody
  obtain ⟨hcoded, -, hputs⟩ := coding_yields hcoding
  obtain rfl : coded = true := hcoded.mpr (by unfold Fits; rw [hname]; exact hfits)
  rw [if_neg (by simp)] at hrest
  obtain ⟨ps, whole, ms, htail, hlast, rfl⟩ := Traced.bind_yields.mp hrest
  obtain ⟨sends, r, ns, hsend, hpure, rfl⟩ := Traced.bind_yields.mp hlast
  obtain ⟨rfl, hpair⟩ := (Traced.pure_yields ..).mp hpure
  obtain ⟨-, rfl⟩ := Prod.mk.inj hpair
  -- the name in the packet is one with these labels
  have htsize : t.domain_size < 255 := by rw [htask]; exact hsize
  obtain ⟨hdecode, ⟨ls, ending⟩, hroot, hregion⟩ := hasName_of_coding hcoding
    (by rw [sizeofPacketHead]; omega) (by rw [hname]; exact hsized)
  obtain rfl : ending = .root := hroot
  have hls : ls.map Label.bytes = labels (s.tasks task) := by
    rw [hregion, decode_encode, hname] at hdecode
    exact Option.some.inj hdecode
  rw [hid] at hhead
  rw [take_packet hhead hcoding htail hregion] at hsend
  obtain ⟨⟨took, hposted⟩, hquiet⟩ := sendPacket_posted hsend
  obtain ⟨hheadPosted, hheadWorks⟩ := quiet_of_isPut (isPut_of_put hhead)
  obtain ⟨hcodePosted, hcodeWorks⟩ := quiet_of_isPut hputs
  obtain ⟨htailPosted, htailWorks⟩ := quiet_of_isPut (isPut_of_put htail)
  refine ⟨rfl, ?_, ls, took, hls, ?_, ?_⟩
  · simp only [works_append, hheadWorks, hcodeWorks, htailWorks, hquiet, List.append_nil]
  · rw [← hregion, List.length_take]
    omega
  · simp only [posted_append, hheadPosted, hcodePosted, htailPosted, hposted, List.nil_append]
    rfl

/-! ### The invariant -/

/-- The invariant of a run, about the client, the names that were asked for, and the queries that
have not been answered.

- `pending_perm`: these are the pending requests;
- `asks`: each query has the id of its task, and asks for the name for which the task was requested
  last;
- `counts`, `answers`: all other requests have been answered, with the address of their name. -/
structure Inv (zone : List (List UInt8) → List UInt8) (tasks : Nat → DnsTask) (log : List Event)
    (client : Dns) (asked : Nat → List (List (List UInt8))) (mail : List Mail) : Prop where
  identified : Identified log client
  pending_perm : ((pending client).map BucketEntry.task).Perm (mail.map Mail.task)
  asks : ∀ m ∈ mail, ∃ ls : List Label,
    m.query = (queryOf (queryId client { task := m.task }) ls).encode ∧
      Plain (queryOf (queryId client { task := m.task }) ls) ∧
      (asked m.task).getLast? = some (ls.map Label.bytes)
  counts : ∀ x, (asked x).length = (works log).count x + (mail.map Mail.task).count x
  answers : ∀ x, (client.tasks x).answer_address = (tasks x).answer_address ++
    ((asked x).take ((works log).count x)).map fun name => { sin_addr := zone name }

section Steps
variable {zone : List (List UInt8) → List UInt8} {serve : List UInt8 → Response}
  {tasks : Nat → DnsTask} {log es : List Event} {client t : Dns}
  {asked : Nat → List (List (List UInt8))} {mail mail' : List Mail} {m : Mail}

/-- The order in which the queries are under way does not matter. -/
theorem Inv.perm (h : Inv zone tasks log client asked mail) (hperm : mail.Perm mail') :
    Inv zone tasks log client asked mail' := by
  refine ⟨h.identified, h.pending_perm.trans (hperm.map _),
    fun m hm => h.asks m (hperm.mem_iff.mpr hm), fun x => ?_, h.answers⟩
  rw [← (hperm.map Mail.task).count_eq]
  exact h.counts x

/-- No task is pending twice. -/
theorem Inv.nodup (h : Inv zone tasks log client asked mail) : (mail.map Mail.task).Nodup := by
  rw [← h.pending_perm.nodup_iff]
  refine h.identified.distinct.of_map.map fun be be' heq => ?_
  cases be
  cases be'
  exact congrArg BucketEntry.mk heq

/-- A query under way is for a task that is pending. -/
theorem Inv.mem_pending (h : Inv zone tasks log client asked mail) {x : Nat} :
    { task := x } ∈ pending client ↔ x ∈ mail.map Mail.task := by
  rw [← h.pending_perm.mem_iff, List.mem_map]
  constructor
  · exact fun hmem => ⟨_, hmem, rfl⟩
  · rintro ⟨be, hbe, rfl⟩
    exact hbe

/-- Events that neither send nor schedule anything. -/
theorem Inv.quiet (h : Inv zone tasks log client asked mail) (hkeeps : Keeps client t)
    (hpending : pending t = pending client)
    (hanswers : ∀ x, (t.tasks x).answer_address = (client.tasks x).answer_address)
    (hsend : ∀ e ∈ es, ∀ x packet error, e ≠ .send x packet error) (hworks : works es = []) :
    Inv zone tasks (log ++ es) t asked mail := by
  have hid : ∀ be, queryId t be = queryId client be := fun be => hkeeps.query_id be.task
  have hlog : works (log ++ es) = works log := by rw [works_append, hworks, List.append_nil]
  refine ⟨h.identified.keeps hkeeps hsend, hpending ▸ h.pending_perm, fun m hm => ?_, ?_, ?_⟩
  · rw [hid]
    exact h.asks m hm
  · rw [hlog]
    exact h.counts
  · rw [hlog]
    intro x
    rw [hanswers]
    exact h.answers x

/-- All of a list whose last element is known. -/
theorem take_succ_of_getLast? {α : Type} {l : List α} {a : α} {n : Nat} (hlength : l.length = n + 1)
    (hlast : l.getLast? = some a) : l.take (n + 1) = l.take n ++ [a] := by
  rw [List.getLast?_eq_getElem?, hlength, Nat.add_sub_cancel] at hlast
  rw [List.take_add_one, hlast]
  rfl

/-- A response that the code understands completes its request. -/
theorem response_takes {r : Response} {s : Dns} {addr : List UInt8}
    (hpending : Pending (hostId r) s) (hunderstood : Understood r)
    (hle : r.encode.length ≤ BUFFER_SIZE) (honly : OnlyLast r.answers addr) :
    ∃ es t be, (response { s with buffer_ := s.buffer_.recv r.encode }).Yields es (true, t) ∧
      Taken (hostId r) [addr] be s t ∧ works es = [be.task] := by
  obtain ⟨buf', p, hbehind, hreads⟩ := (lastAddress_iff hunderstood hle s.buffer_).mpr honly
  have hstill : Pending (hostId r) { s with buffer_ := buf' } := hpending
  obtain ⟨gs, t, be, hyields, htaken, hworks⟩ := hreads.yields rfl hstill
  obtain ⟨es, hcall, hes⟩ := handleRead_yields hbehind hyields
  -- the call has gone to `retry`, and there it ends
  rw [handleRead, Traced.tell_bind_yields] at hcall
  obtain ⟨fs, hresponse, rfl⟩ := hcall
  obtain ⟨ks, ⟨retry, u⟩, ls, hfirst, hend, rfl⟩ := Traced.bind_yields.mp hresponse
  cases retry with
  | false =>
      obtain ⟨-, hpair⟩ := (Traced.pure_yields ..).mp hend
      exact absurd (Prod.mk.inj hpair).1 (by decide)
  | true =>
      obtain ⟨rfl, hpair⟩ := (Traced.tell_pure_yields ..).mp hend
      obtain ⟨-, rfl⟩ := Prod.mk.inj hpair
      refine ⟨ks, u, be, hfirst, ⟨htaken.removed, htaken.query_id_eq, htaken.tasks_eq,
        htaken.count_eq⟩, ?_⟩
      rw [← hworks, ← hes, works_append, works_append]
      exact (List.append_nil _).symm

/-- The entry that an answer takes away is that of the task whose query was answered: the server has
copied the id, and no other pending entry has it. -/
theorem Inv.taken (hserves : Serves zone serve)
    (h : Inv zone tasks log client asked (m :: mail)) {ls : List Label}
    (hquery : m.query = (queryOf (queryId client { task := m.task }) ls).encode)
    (hplain : Plain (queryOf (queryId client { task := m.task }) ls)) :
    ∃ es t, (Dns.response { client with
        buffer_ := client.buffer_.recv (serve m.query).encode }).Yields es (true, t) ∧
      works es = [m.task] ∧ (pending client).Perm ({ task := m.task } :: pending t) ∧
      t.tasks = Function.update client.tasks m.task
        (withAddresses [zone (ls.map Label.bytes)] (client.tasks m.task)) := by
  have hmem : { task := m.task } ∈ pending client := h.mem_pending.mpr List.mem_cons_self
  have hid : hostId (serve m.query) = queryId client { task := m.task } := by
    have hcopied := hserves.id_eq _ hplain
    rw [← hquery] at hcopied
    rw [hostId, hcopied]
    exact hostId_queryOf _ ls
  have hpending : Pending (hostId (serve m.query)) client := by
    rw [hid]
    exact ⟨_, (h.identified.placed.mem_iff (bucketOf_lt _)).mp hmem, rfl⟩
  have honly := hserves.answers _ hplain
  have hunderstood := hserves.understood _ hplain
  have hle := hserves.length_le _ hplain
  rw [← hquery] at honly hunderstood hle
  obtain ⟨es, t, be, hyields, htaken, hworks⟩ := response_takes hpending hunderstood hle honly
  obtain ⟨pre, post, hsplit, hbucket⟩ := htaken.removed
  have hbe : be ∈ pending client := by
    refine mem_contents.mpr ⟨_, bucketOf_lt (hostId (serve m.query)), ?_⟩
    rw [hsplit]
    exact List.mem_append_right _ List.mem_cons_self
  obtain rfl : be = { task := m.task } :=
    List.inj_on_of_nodup_map h.identified.distinct hbe hmem (htaken.query_id_eq.trans hid)
  refine ⟨es, t, hyields, hworks, ?_, htaken.tasks_eq⟩
  rw [pending, pending, hbucket]
  exact contents_remove (bucketOf_lt _) hsplit

/-- The answer to a query is read: its request is completed with the address of its name, and no
other is touched. -/
theorem Inv.response (hserves : Serves zone serve)
    (h : Inv zone tasks log client asked (m :: mail)) :
    ∃ es t, (Dns.response { client with
        buffer_ := client.buffer_.recv (serve m.query).encode }).Yields es (true, t) ∧
      works es = [m.task] ∧
      Inv zone tasks (log ++ (.recv (some (serve m.query).encode) :: es)) t asked mail := by
  obtain ⟨ls, hquery, hplain, hlast⟩ := h.asks m List.mem_cons_self
  obtain ⟨es, t, hyields, hworks, hremoved, htasks⟩ := h.taken hserves hquery hplain
  have hanswer := response_keeps { client with
    buffer_ := client.buffer_.recv (serve m.query).encode }
  have hkeeps : Keeps client t := ((Keeps.refl client).buffer _).trans (hanswer.value _ hyields.2)
  have hnew : works (.recv (some (serve m.query).encode) :: es) = [m.task] := hworks
  refine ⟨es, t, hyields, hworks, ?_, ?_, ?_, ?_, ?_⟩
  · -- a response takes an entry away, and sends nothing
    refine h.identified.keeps hkeeps fun e he x packet error heq => ?_
    rcases List.mem_cons.mp he with rfl | hin
    · exact Event.noConfusion heq
    · rw [← hyields.1] at hin
      have hno := hanswer.acts e hin
      rw [heq] at hno
      exact hno
  · exact ((hremoved.map BucketEntry.task).symm.trans h.pending_perm).cons_inv
  · intro m' hm'
    have hsame : queryId t { task := m'.task } = queryId client { task := m'.task } :=
      hkeeps.query_id m'.task
    rw [hsame]
    exact h.asks m' (List.mem_cons_of_mem _ hm')
  · intro x
    rw [works_append, hnew, List.count_append, h.counts x, List.map_cons, List.count_cons,
      List.count_singleton]
    omega
  · intro x
    rw [works_append, hnew, List.count_append, List.count_singleton, htasks]
    by_cases hx : x = m.task
    · subst hx
      -- the name of this query is the last one that was asked for, and the only one without answer
      have hone : ((m :: mail).map Mail.task).count m.task = 1 :=
        List.count_eq_one_of_mem h.nodup List.mem_cons_self
      have hlength := h.counts m.task
      rw [hone] at hlength
      rw [Function.update_self, if_pos (beq_self_eq_true _), take_succ_of_getLast? hlength hlast,
        List.map_append, ← List.append_assoc, ← h.answers m.task]
      rfl
    · have hne : (m.task == x) = false := beq_eq_false_iff_ne.mpr (Ne.symm hx)
      rw [Function.update_of_ne hx, hne]
      exact h.answers x

/-- A call of `handle_read` reads all answers that wait. -/
theorem Inv.handleRead (hserves : Serves zone serve) : ∀ {waiting : List Mail} {log : List Event}
    {client : Dns}, Inv zone tasks log client asked (waiting ++ mail) →
    ∃ es t, (client.handleRead (waiting.map fun m => (serve m.query).encode)).Yields es (-1, t) ∧
      works es = waiting.map Mail.task ∧
      (received es).reduceOption.length = waiting.length ∧
      Inv zone tasks (log ++ es) t asked mail := by
  intro waiting
  induction waiting with
  | nil =>
      intro log client h
      refine ⟨[.recv none], client, ⟨rfl, rfl⟩, rfl, rfl, ?_⟩
      refine h.quiet (.refl client) rfl (fun _ => rfl) ?_ rfl
      exact List.forall_mem_singleton.mpr fun _ _ _ heq => Event.noConfusion heq
  | cons m waiting ih =>
      intro log client h
      obtain ⟨fs, u, hyields, hworks, hinv⟩ := h.response hserves
      obtain ⟨gs, t, hrest, hworks', hreceived, hinv'⟩ := ih hinv
      have hquiet : received fs = [] := by
        rw [← hyields.1]
        exact received_response _
      refine ⟨[.recv (some (serve m.query).encode)] ++ (fs ++ gs), t, ?_, ?_, ?_, ?_⟩
      · rw [List.map_cons, Dns.handleRead, Traced.tell_bind_yields]
        exact ⟨_, Traced.bind_yields.mpr ⟨fs, (true, u), gs, hyields, hrest, rfl⟩, rfl⟩
      · rw [works_append, works_append, hworks, hworks']
        rfl
      · have hall : received ([.recv (some (serve m.query).encode)] ++ (fs ++ gs)) =
            some (serve m.query).encode :: received gs := by
          rw [received, List.filterMap_append, List.filterMap_append,
            show List.filterMap _ fs = [] from hquiet]
          rfl
        rw [hall, List.reduceOption_cons_of_some, List.length_cons, hreceived, List.length_cons]
      · rw [List.append_assoc, List.cons_append] at hinv'
        exact hinv'

/-- A request gives no addresses. -/
theorem answer_address_enqueue (s : Dns) (task x : Nat) :
    ((s.enqueue task).tasks x).answer_address = (s.tasks x).answer_address := by
  show (Function.update s.tasks task _ x).answer_address = _
  by_cases hx : x = task
  · rw [hx, Function.update_self]
  · rw [Function.update_of_ne hx]

/-- A request that `coding` refuses. -/
theorem Inv.refused {task : Nat} (h : Inv zone tasks log client asked mail)
    (hstays : { task := task } ∈ pending client → queryId client { task := task } = nextId client)
    (hputs : ∀ e ∈ es, IsPut e) :
    Inv zone tasks (log ++ es) ((client.enqueue task).dequeue task) asked mail := by
  have hpending : pending ((client.enqueue task).dequeue task) = pending client :=
    congrArg (contents DNS_BUCKET_SIZE) (bucket_dequeue_enqueue client task)
  have hlog : works (log ++ es) = works log := by
    rw [works_append, (quiet_of_isPut hputs).2, List.append_nil]
  refine ⟨(h.identified.refused_iff task hputs).1 hstays, hpending ▸ h.pending_perm,
    fun m hm => ?_, ?_, ?_⟩
  · have hsame : queryId ((client.enqueue task).dequeue task) { task := m.task } =
        queryId client { task := m.task } := by
      refine (queryId_enqueue _).trans ?_
      split
      · next htask =>
        -- its id is the one that it has already
        obtain rfl : m.task = task := htask
        exact (hstays (h.mem_pending.mpr (List.mem_map_of_mem hm))).symm
      · rfl
    rw [hsame]
    exact h.asks m hm
  · rw [hlog]
    exact h.counts
  · rw [hlog]
    intro x
    refine (answer_address_enqueue client task x).trans ?_
    exact h.answers x

/-- A request that sends its query. -/
theorem Inv.sent {task : Nat} {ls : List Label} (h : Inv zone tasks log client asked mail)
    (hidentified : Identified (log ++ es) (client.enqueue task))
    (hnew : { task := task } ∉ pending client) (hplain : Plain (queryOf (nextId client) ls))
    (hworks : works es = []) :
    Inv zone tasks (log ++ es) (client.enqueue task)
      (Function.update asked task (asked task ++ [ls.map Label.bytes]))
      (⟨task, (queryOf (nextId client) ls).encode⟩ :: mail) := by
  have hlog : works (log ++ es) = works log := by rw [works_append, hworks, List.append_nil]
  have hnot : task ∉ mail.map Mail.task := fun hmem => hnew (h.mem_pending.mpr hmem)
  have hlength := h.counts task
  rw [List.count_eq_zero_of_not_mem hnot, Nat.add_zero] at hlength
  refine ⟨hidentified, ?_, fun m hm => ?_, fun x => ?_, fun x => ?_⟩
  · exact ((pending_enqueue client task).map _).trans (h.pending_perm.cons task)
  · rcases List.mem_cons.mp hm with rfl | hold
    · refine ⟨ls, ?_, ?_, ?_⟩
      · rw [queryId_enqueue, if_pos rfl]
      · rw [queryId_enqueue, if_pos rfl]
        exact hplain
      · rw [Function.update_self, List.getLast?_concat]
    · have hne : m.task ≠ task := by
        rintro rfl
        exact hnot (List.mem_map_of_mem hold)
      rw [queryId_enqueue, if_neg hne, Function.update_of_ne hne]
      exact h.asks m hold
  · rw [hlog, List.map_cons, List.count_cons]
    by_cases hx : x = task
    · subst hx
      rw [Function.update_self, List.length_append, List.length_singleton, hlength,
        List.count_eq_zero_of_not_mem hnot, if_pos (beq_self_eq_true _)]
    · have hne : (task == x) = false := beq_eq_false_iff_ne.mpr (Ne.symm hx)
      rw [Function.update_of_ne hx, hne, h.counts x]
      rfl
  · rw [hlog, answer_address_enqueue, h.answers x]
    by_cases hx : x = task
    · subst hx
      -- the new name comes behind those that have been answered
      rw [Function.update_self, List.take_append_of_le_length (Nat.le_of_eq hlength.symm)]
    · rw [Function.update_of_ne hx]

/-- A request. -/
theorem Inv.request {task : Nat} {packet : Packet} {errors : List Int}
    (h : Inv zone tasks log client asked mail)
    (hcareful : Careful client (.request task packet errors)) (hnamed : Named (client.tasks task))
    (hstep : (client.step (.request task packet errors)).Yields es t) :
    Inv zone tasks (log ++ es) t (Function.update asked task (asked task ++
      (posted es).map fun _ => labels (client.tasks task))) ((posted es).map (·.1) ++ mail) := by
  have hidentified := (h.identified.step_iff hstep).1 hcareful
  obtain ⟨fs, ⟨ret, u⟩, gs, hrequest, hpure, rfl⟩ := Traced.bind_yields.mp hstep
  obtain ⟨rfl, rfl⟩ := (Traced.pure_yields ..).mp hpure
  rw [List.append_nil] at hidentified ⊢
  have hnothing : ∀ {es : List Event}, posted es = [] → Function.update asked task (asked task ++
      (posted es).map fun _ => labels (client.tasks task)) = asked ∧
        (posted es).map (·.1) ++ mail = mail := by
    intro es hnone
    rw [hnone, List.map_nil, List.append_nil, Function.update_eq_self]
    exact ⟨rfl, rfl⟩
  rcases request_cases hrequest with ⟨-, rfl, rfl⟩ | ⟨hshort, hrefused, hputs, rfl⟩ |
    ⟨hshort, hfits, -, -⟩
  · rw [(hnothing rfl).1, (hnothing rfl).2, List.append_nil]
    exact h
  · have hnone := hnothing (quiet_of_isPut hputs).1
    rw [hnone.1, hnone.2]
    exact h.refused ((hcareful hshort).2 hrefused) hputs
  · have hname := hnamed hshort hfits
    obtain ⟨rfl, hworks, ls, took, hls, hlength, hposted⟩ :=
      request_sends hrequest hshort hfits fun label hlabel => (hname label hlabel).1
    have hzero : ∀ label ∈ ls, 0 ∉ label.bytes := fun label hlabel =>
      (hname label.bytes (hls ▸ List.mem_map_of_mem hlabel)).2
    rw [hposted, ← hls]
    exact h.sent hidentified ((hcareful hshort).1 hfits).1 ⟨rfl, hlength, hzero⟩ hworks

/-- One query is at one place at a time. -/
theorem perm_eraseIdx {α : Type} (l : List α) (i : Nat) :
    (l[i]?.toList ++ l.eraseIdx i).Perm l := by
  by_cases hi : i < l.length
  · rw [List.getElem?_eq_getElem hi]
    exact List.getElem_cons_eraseIdx_perm hi
  · rw [List.getElem?_eq_none (Nat.le_of_not_lt hi),
      List.eraseIdx_of_length_le (Nat.le_of_not_lt hi)]
    exact .refl l

/-- What is posted is under way or lost. -/
theorem perm_posted (sent : List (Mail × Bool)) (inFlight waiting lost : List Mail) :
    (sent.map (·.1) ++ (inFlight ++ waiting ++ lost)).Perm
      ((inFlight ++ (sent.filter (·.2)).map (·.1)) ++ waiting ++
        (lost ++ (sent.filter (!·.2)).map (·.1))) := by
  have hsent := (List.filter_append_perm (·.2) sent).map (·.1)
  rw [List.map_append] at hsent
  refine List.perm_iff_count.mpr fun m => ?_
  have hcount := hsent.count_eq m
  simp only [List.count_append] at hcount ⊢
  omega

/-- A name that the user writes into a task changes nothing that has been asked for. -/
theorem Inv.rename {task : Nat} {domain_name : List UInt8} {domain_size : Int}
    (h : Inv zone tasks log client asked mail)
    (hstep : (client.step (.rename task domain_name domain_size)).Yields es t) :
    Inv zone tasks (log ++ es) t asked mail := by
  obtain ⟨rfl, rfl⟩ := (Traced.pure_yields ..).mp hstep
  refine h.quiet ⟨fun _ => .refl _, fun x => ?_, rfl⟩ rfl (fun x => ?_)
    (fun _ he => absurd he List.not_mem_nil) rfl
  all_goals
    dsimp only
    by_cases hx : x = task
    · rw [hx, Function.update_self]
    · rw [Function.update_of_ne hx]

/-- Which datagrams a call is given. -/
theorem given_socket (serve : List UInt8 → Response) (error : Option Nat) (w : World) :
    (w.socket serve error).given = (w.given error).map fun m => (serve m.query).encode := by
  cases error with
  | none => rfl
  | some taken => exact List.map_take.symm

/-- The other answers still wait. -/
theorem given_append_drop (error : Option Nat) (w : World) :
    w.given error ++ w.waiting.drop (w.given error).length = w.waiting := by
  cases error with
  | none => exact (congrArg _ List.drop_length).trans (List.append_nil _)
  | some taken =>
      show w.waiting.take taken ++ w.waiting.drop (w.waiting.take taken).length = w.waiting
      -- nothing lies behind both the error and the end
      rcases Nat.le_total taken w.waiting.length with hle | hle
      · rw [List.length_take_of_le hle, List.take_append_drop]
      · rw [List.take_of_length_le hle, List.drop_length, List.append_nil]

/-- A call of `handle_read` returns, and has completed the requests whose answers it was given. -/
theorem Inv.reads (hserves : Serves zone serve) (error : Option Nat) {w : World}
    (h : Inv zone tasks log w.client w.asked w.mail) :
    ∃ es w', (w.step serve (.handleRead error)).Yields es w' ∧
      w.given error ++ w'.waiting = w.waiting ∧ works es = (w.given error).map Mail.task ∧
      Inv zone tasks (log ++ es) w'.client w'.asked w'.mail := by
  have hsplit := given_append_drop error w
  have hfront : w.mail.Perm (w.given error ++
      (w.inFlight ++ w.waiting.drop (w.given error).length ++ w.lost)) := by
    refine List.perm_iff_count.mpr fun m => ?_
    have hcount := congrArg (List.count m) hsplit
    simp only [World.mail, List.count_append] at hcount ⊢
    omega
  obtain ⟨es, t, hcall, hworks, hreceived, hinv⟩ := (h.perm hfront).handleRead hserves
  rw [← given_socket] at hcall
  refine ⟨es, { w with client := t, waiting := w.waiting.drop (w.given error).length }, ?_, hsplit,
    hworks, hinv⟩
  have hnil : es = es ++ [] := (List.append_nil es).symm
  have hstep : (w.client.step (.handleRead (w.socket serve error).given)).Yields es t :=
    Traced.bind_yields.mpr ⟨es, (-1, t), [], hcall, ⟨rfl, rfl⟩, hnil⟩
  refine Traced.bind_yields.mpr ⟨es, t, [], hstep, ?_, hnil⟩
  rw [hstep.1, hreceived]
  exact ⟨rfl, rfl⟩

/-- Every step keeps the invariant. -/
theorem Inv.step (hserves : Serves zone serve) {w w' : World} {op : Op}
    (h : Inv zone tasks log w.client w.asked w.mail) (hok : Orderly w op)
    (hstep : (w.step serve op).Yields es w') :
    Inv zone tasks (log ++ es) w'.client w'.asked w'.mail := by
  cases op with
  | request task packet errors =>
      obtain ⟨fs, client, gs, hcall, hpure, rfl⟩ := Traced.bind_yields.mp hstep
      obtain ⟨rfl, rfl⟩ := (Traced.pure_yields ..).mp hpure
      rw [List.append_nil, hcall.1]
      exact (h.request hok.1 hok.2 hcall).perm (perm_posted ..)
  | rename task domain_name domain_size =>
      obtain ⟨fs, client, gs, hcall, hpure, rfl⟩ := Traced.bind_yields.mp hstep
      obtain ⟨rfl, rfl⟩ := (Traced.pure_yields ..).mp hpure
      rw [List.append_nil]
      exact h.rename hcall
  | answer i =>
      obtain ⟨rfl, rfl⟩ := (Traced.pure_yields ..).mp hstep
      rw [List.append_nil]
      refine h.perm (List.perm_iff_count.mpr fun m => ?_)
      have hcount := (perm_eraseIdx w.inFlight i).count_eq m
      simp only [World.mail, List.count_append] at hcount ⊢
      omega
  | lose i =>
      obtain ⟨rfl, rfl⟩ := (Traced.pure_yields ..).mp hstep
      rw [List.append_nil]
      refine h.perm (List.perm_iff_count.mpr fun m => ?_)
      have hcount := (perm_eraseIdx w.inFlight i).count_eq m
      simp only [World.mail, List.count_append] at hcount ⊢
      omega
  | handleRead error =>
      obtain ⟨es', w'', hstep', -, -, hinv⟩ := h.reads hserves error
      obtain ⟨rfl, rfl⟩ := hstep.unique hstep'
      exact hinv

end Steps

/-! ### Whole runs -/

/-- What a run owes to the tasks. Of the names for which a task was requested, those whose request
has been completed have given it their addresses, and at most one is left. -/
structure Resolved (zone : List (List UInt8) → List UInt8) (tasks : Nat → DnsTask)
    (log : List Event) (w : World) : Prop where
  answers : ∀ x, (w.client.tasks x).answer_address = (tasks x).answer_address ++
    ((w.asked x).take ((works log).count x)).map fun name => { sin_addr := zone name }
  counts : ∀ x, (w.asked x).length = (works log).count x + (w.mail.map Mail.task).count x
  once : (w.mail.map Mail.task).Nodup
  pending : ((pending w.client).map BucketEntry.task).Perm (w.mail.map Mail.task)

/-- The labels of a name that a query asks for. -/
def askedLabels (query : List UInt8) : List Label :=
  ((decode ((query.drop 12).take (query.length - 16))).getD []).filterMap fun bytes =>
    if h : bytes ≠ [] ∧ bytes.length ≤ 63 then some ⟨bytes, h.1, h.2⟩ else none

/-- The address of a name, as this server knows it. -/
def zoneOf (name : List (List UInt8)) : List UInt8 := [10, 0, 0, UInt8.ofNat name.length]

/-- The flags of `echo` are those of a response. -/
theorem flags_echo : 2 ^ 15 ≤ (0x8180 : UInt16).toNat := by decide

/-- A server that repeats the question, and answers with the address of its name. -/
def echo (query : List UInt8) : Response where
  id := (query.headD 0, (query.drop 1).headD 0)
  flags := 0x8180
  questions := [{ name := ⟨askedLabels query, .root⟩, qtype := 1, qclass := 1 }]
  answers := [addressOf firstName (zoneOf ((askedLabels query).map Label.bytes)) rfl]
  authorities := 0
  additionals := 0
  rest := []
  is_response := flags_echo
  questions_lt := by rw [List.length_singleton]; decide
  answers_lt := by rw [List.length_singleton]; decide

/-- It reads the labels of the name. -/
theorem askedLabels_encode {q : Query} (hroot : q.question.name.ending = .root) :
    askedLabels q.encode = q.question.name.labels := by
  obtain ⟨id, flags, ⟨⟨ls, ending⟩, qtype, qclass⟩⟩ := q
  obtain rfl : ending = .root := hroot
  have hlength : (Query.encode ⟨id, flags, ⟨⟨ls, .root⟩, qtype, qclass⟩⟩).length - 16 =
      (Name.encode ⟨ls, .root⟩).length := by
    simp only [Query.encode, Question.encode, List.length_append, List.length_cons,
      List.length_nil, length_be16]
    omega
  have hdrop : (Query.encode ⟨id, flags, ⟨⟨ls, .root⟩, qtype, qclass⟩⟩).drop 12 =
      Name.encode ⟨ls, .root⟩ ++ (be16 qtype.toNat ++ be16 qclass.toNat) := rfl
  unfold askedLabels
  rw [hlength, hdrop, List.take_left, decode_encode, Option.getD_some, List.filterMap_map]
  refine (List.filterMap_congr fun label _ => ?_).trans (List.filterMap_some)
  exact dif_pos ⟨label.ne_nil, label.length_le⟩

theorem serves_echo : Serves zoneOf echo := by
  have hlabels : ∀ q : Query, Plain q → askedLabels q.encode = q.question.name.labels :=
    fun q hq => askedLabels_encode hq.ending_eq
  have hbytes : ∀ q : Query, Plain q → (questionBytes (echo q.encode)).length ≤ 260 := by
    intro q hq
    obtain ⟨hroot, hle, -⟩ := hq
    have hname : (⟨askedLabels q.encode, .root⟩ : Name) = q.question.name := by
      rw [askedLabels_encode hroot, ← hroot]
    have hquestion : questionBytes (echo q.encode) =
        Question.encode ⟨⟨askedLabels q.encode, .root⟩, 1, 1⟩ := List.append_nil _
    rw [hquestion, Question.encode, hname, List.length_append, List.length_append, length_be16]
    exact Nat.add_le_add_right hle 4
  refine ⟨fun q _ => rfl, fun q hq => ?_, fun q hq => ?_, fun q hq => ?_⟩
  · have hfind : Findable ⟨askedLabels q.encode, .root⟩ := by
      rw [hlabels q hq]
      exact hq.no_zero
    refine ⟨cuts_of_findable (List.forall_mem_singleton.mpr hfind) (.inl rfl), ?_, ?_, ?_⟩
    · have := hbytes q hq
      show 12 + (questionBytes (echo q.encode)).length + 2 + 10 ≤ 4096
      omega
    · exact (by decide : 4 < 2 ^ 15)
    · exact ⟨fun a ha => absurd ha List.not_mem_nil, fun a ha => absurd ha List.not_mem_nil,
        fun v hv => absurd hv List.not_mem_nil⟩
  · have := hbytes q hq
    have hanswer : (answerBytes (echo q.encode).answers).length = 16 := rfl
    have hrest : (echo q.encode).rest = [] := rfl
    rw [encode_eq, hrest, List.append_nil, List.length_append, List.length_append, hanswer,
      Response.length_header, BUFFER_SIZE]
    omega
  · rw [← hlabels q hq]
    exact onlyLast_singleton.mpr ⟨rfl, rfl⟩

/-- A task for the name `a.b`, and one for the name `c`. -/
def twoTasks (task : Nat) : DnsTask :=
  if task = 0 then { domain_name := [97, 46, 98], domain_size := 3, query_id := 0 }
  else { domain_name := [99], domain_size := 1, query_id := 0 }

theorem named_twoTasks (task : Nat) : Named (twoTasks task) := by
  have hboth : labels (twoTasks 0) = [[97], [98]] ∧ labels (twoTasks 1) = [[99]] := ⟨by rfl, by rfl⟩
  intro _ _
  by_cases htask : task = 0
  · rw [htask, hboth.1]
    unfold Sized
    decide
  · have hsame : twoTasks task = twoTasks 1 := if_neg htask
    rw [hsame, hboth.2]
    unfold Sized
    decide

/-- Both are requested, the answer to the second one comes first, and the name of the first one is
overwritten meanwhile. The first call reads one answer, and then an error is reported. -/
def crossed : List Op :=
  [.request 0 zeros [EAGAIN], .request 1 zeros [], .rename 0 [99] 1, .answer 1, .answer 0,
    .handleRead (some 1), .handleRead none]

end Ndsl.Proofs.Dns
