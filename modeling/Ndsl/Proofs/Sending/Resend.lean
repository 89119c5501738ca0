import Ndsl.Proofs.Sending.Entries

/-!
# `Ndsl.Proofs.Sending.Resend`: sending a block once more

A block that was sent over TCP or RDMA can be sent once more by its id. The bytes are then those of
the copy, and of the zero behind it. `resend_iff` says that this is the same block exactly when the
copy agrees with it over the whole length. The copy is the string at the start of the block, or what
had been sent before under the same id, so that a block with a zero before its last byte is cut.

The record of a transfer points into the copy. The bytes are read when the peer connects, and are
not there any more when the entry was erased until then. Without a copy the call makes a string of
`NULL`, and does not return.
-/

set_option autoImplicit false

namespace Ndsl.Proofs.Sending

open Ndsl.Lib
open Ndsl.Net
open Ndsl.Net.Dtp
open Ndsl.Net.Registry (Client Conn)
open Ndsl.Net.Sending

/-- A block was sent under an id over TCP or RDMA, for a client that is registered. -/
structure Sent (conn : Conn) (peerId : Int) (client : Client) (block : Nat) (length : Int)
    (id : List UInt8) (s s' : Sender) : Prop where
  registered : s.mul.lookup conn peerId = some client
  call : ∃ uninit guid sys dataId flag es, (flag = TCP ∨ flag = RDMA) ∧
    cstring (dataId.getD guid) = id ∧
    (Multiplexer.sendData uninit guid sys conn peerId (some (.user block)) length dataId flag
      s).Yields es s'

/-- A run in which the entry of a client under an id is not erased. -/
def Unerased {κ : Type} (md5 : Md5 κ) (client : Client) (id : List UInt8) (s s' : Sender) : Prop :=
  ∃ (ops : List Op) (log : List Event), (∀ op ∈ ops, ¬ Erases client id op) ∧
    (ops.foldlM (step md5) s).Yields log s'

/-- A run in which it is erased. -/
def Erased {κ : Type} (md5 : Md5 κ) (client : Client) (id : List UInt8) (s s' : Sender) : Prop :=
  ∃ (ops : List Op) (log : List Event), (∃ op ∈ ops, Erases client id op) ∧
    (ops.foldlM (step md5) s).Yields log s'

/-- A call returns, and has left a record at the position `k`, for which these bytes are sent when
the peer connects to its listener before the entry is erased. -/
structure Repeats {κ : Type} (md5 : Md5 κ) (client : Client) (id : List UInt8) (k : Nat)
    (bytes : List UInt8) (x : Traced Event Sender) : Prop where
  returns : ∃ es s, x.Yields es s
  listens : ∀ es s, x.Yields es s → Listens s k
  sends : ∀ es s t, x.Yields es s → Unerased md5 client id s t → Listens t k →
    (DTP.acceptorCallbackOfSendData k t).Yields [.onSend k bytes] t

/-- A copy with its zero agrees with a block over a length. -/
def Agrees (copy block : List UInt8) (n : Nat) : Prop :=
  n ≤ copy.length + 1 ∧ (copy ++ [0]).take n = block.take n

/-- The string at the start of a block agrees with it up to its first zero. -/
theorem agrees_cstring {block : List UInt8} (hzero : 0 ∈ block) (n : Nat) :
    Agrees (cstring block) block n ↔ n ≤ cstrlen block + 1 := by
  have hlt : cstrlen block < block.length :=
    Nat.lt_of_le_of_ne (cstrlen_le_length block)
      fun heq => (cstrlen_eq_length_iff block).mp heq hzero
  have hlength : (cstring block).length = cstrlen block := by
    rw [cstring, List.length_take, min_eq_left (cstrlen_le_length block)]
  rw [Agrees, hlength, and_iff_left_iff_imp]
  intro hn
  have hstring : cstring block ++ [0] = block.take (cstrlen block + 1) := by
    rw [List.take_add_one, List.getElem?_eq_getElem hlt, Option.toList_some, cstring]
    congr 2
    exact (getElem_cstrlen hlt).symm
  rw [hstring, List.take_take, min_eq_left hn]

section
variable {κ : Type} {md5 : Md5 κ} {s s' : Sender} {client : Client} {id copy : List UInt8} {n : Nat}

/-! ### Reading the copy -/

/-- What is read from an entry is the copy and its zero. -/
theorem Entry.reads (h : Entry s client id n copy) {count : Nat} {bytes : List UInt8} :
    Reads s (some (.node n)) count bytes ↔
      count ≤ copy.length + 1 ∧ bytes = (copy ++ [0]).take count := by
  have hdata : (some (DataPtr.node n)).bind s.data = some (copy ++ [0]) := h.data
  have hlength : (copy ++ [0]).length = copy.length + 1 := List.length_append
  unfold Reads
  rw [hdata]
  by_cases hcount : count = 0
  · simp [hcount]
  · simp [hcount, hlength]

/-- Nothing is read from a node that was freed. -/
theorem Gone.not_reads (h : Gone s n) {count : Nat} (hcount : count ≠ 0) (bytes : List UInt8) :
    ¬ Reads s (some (.node n)) count bytes := by
  rintro (⟨hzero, -⟩ | ⟨-, all, hall, -⟩)
  · exact hcount hzero
  · have hdata : (some (DataPtr.node n)).bind s.data = none := h.data
    exact absurd (hall.symm.trans hdata) (Option.some_ne_none all)

/-! ### Sending it once more -/

/-- The record of a block that is sent once more, from the node `n`. -/
def resentMgr (n : Nat) (client : Client) (length : Int) (id : List UInt8) : DataListenMgr :=
  { buffer_ := some (.node n), client_ := client, length_ := length, dataId_ := id }

/-- The string of a block that was sent has an end. -/
theorem Sent.zero_mem {conn : Conn} {peerId : Int} {block : Nat} {length : Int}
    (h : Sent conn peerId client block length id s s') : 0 ∈ s.blocks block := by
  obtain ⟨uninit, guid, sys, dataId, flag, es, hflag, -, hcall⟩ := h.call
  obtain ⟨-, -, all, bytes, hall, hzero, -⟩ | ⟨hudp, -⟩ := mulSendData_cases hcall
  · have hblock : s.blocks block = all := Option.some.inj hall
    rwa [hblock]
  · exact absurd hflag hudp

/-- A block that was sent has an entry. -/
theorem Sent.entry {conn : Conn} {peerId : Int} {block : Nat} {length : Int}
    (h : Sent conn peerId client block length id s s') :
    ∃ n, Entry s' client id n (copyOf client id (cstring (s.blocks block)) s) ∧
      s'.alive client = true := by
  obtain ⟨uninit, guid, sys, dataId, flag, es, hflag, rfl, hcall⟩ := h.call
  have hclient := findClient_of_lookup h.registered uninit
  obtain ⟨-, halive, all, bytes, hall, -, -, rfl⟩ | ⟨hudp, -⟩ := mulSendData_cases hcall
  · rw [hclient] at halive ⊢
    have hblock : s.blocks block = all := Option.some.inj hall
    rw [hblock]
    obtain ⟨n, hn⟩ := inserted_entry client (cstring (dataId.getD guid)) (cstring all) s
    refine ⟨n, hn.of_append (List.append_nil _).symm, ?_⟩
    rw [← halive]
    exact congrFun (inserted_alive ..) client
  · exact absurd hflag hudp

/-- A call without a block returns when the copy is long enough, and leaves a record of it. -/
theorem resend_yields (h : Entry s client id n copy) (halive : s.alive client = true)
    {conn : Conn} {peerId : Int} (hregistered : s.mul.lookup conn peerId = some client)
    {dataId : List UInt8} (hid : cstring dataId = id) {flag : Int}
    (hflag : flag = TCP ∨ flag = RDMA) {uninit : Client} {guid : List UInt8} {sys : DataCalls}
    {length : Int} :
    (∃ es, (Multiplexer.sendData uninit guid sys conn peerId none length (some dataId) flag
        s).Yields es s') ↔
      (length % 2 ^ 32).toNat ≤ copy.length + 1 ∧
        s' = { s with dataListenMgrs := s.dataListenMgrs ++ [resentMgr n client length id] } := by
  have hclient := findClient_of_lookup hregistered uninit
  have hresent : Multiplexer.resent client id none s = some (.node n) := by
    rw [Multiplexer.resent, h.found]
    rfl
  have hdata : (some (DataPtr.node n)).bind s.data = some (copy ++ [0]) := h.data
  have hinserted : ∀ value, inserted client id value s = s := by
    intro value
    simp only [inserted, h.found]
  constructor
  · -- the block that is sent is the copy, and the `insert` finds its entry
    rintro ⟨es, hcall⟩
    obtain ⟨-, -, all, bytes, -, -, hreads, rfl⟩ | ⟨hudp, -⟩ := mulSendData_cases hcall
    · simp only [Option.getD_some, hid, hclient, hresent, hinserted] at hreads ⊢
      exact ⟨(h.reads.mp hreads).1, rfl⟩
    · exact absurd hflag hudp
  · rintro ⟨hle, rfl⟩
    have hreads := h.reads.mpr ⟨hle, rfl⟩
    obtain ⟨es, r, hsend⟩ := sendData_returns hreads sys conn peerId client id flag
    obtain ⟨-, rfl⟩ := sendData_cases hsend
    have hinsert : (s.insert client id (some (.node n))).Yields [] s :=
      insert_yields.mpr ⟨_, string_yields.mpr ⟨rfl, _, hdata, by simp, rfl⟩, (hinserted _).symm⟩
    refine ⟨[.client client] ++ ([] ++ (es ++ [])), ?_⟩
    unfold Multiplexer.sendData
    dsimp only
    rw [if_pos hflag, Option.getD_some, hid, hclient, hresent, if_neg (by rw [halive]; decide)]
    refine (Traced.tell_bind_yields ..).mpr
      ⟨_, Traced.bind_yields.mpr ⟨[], s, _, hinsert, ?_, rfl⟩, rfl⟩
    exact Traced.bind_yields.mpr ⟨es, _, [], hsend, (Traced.pure_yields ..).mpr ⟨rfl, rfl⟩, rfl⟩

/-- A call without a block and without a copy sends nothing, and does not return. -/
theorem unknown_never {conn : Conn} {peerId : Int} {dataId : List UInt8} {uninit : Client}
    (hnone : s.find (Multiplexer.findClient uninit conn peerId s) (cstring dataId) = none)
    {flag : Int} (hflag : flag = TCP ∨ flag = RDMA) (guid : List UInt8) (sys : DataCalls)
    (length : Int) :
    Multiplexer.sendData uninit guid sys conn peerId none length (some dataId) flag s
      = (Traced.tell [.client (Multiplexer.findClient uninit conn peerId s)] >>=
          fun _ => Traced.fault) := by
  have hstring : s.string none = .fault := rfl
  unfold Multiplexer.sendData Sender.insert
  simp only [Option.getD_some, if_pos hflag, Multiplexer.resent, hnone, Option.map_none, hstring,
    Traced.fault_bind, ite_self]

end

/-! ### The same bytes -/

section
variable {κ : Type} {md5 : Md5 κ} {s s' : Sender} {client : Client} {id copy : List UInt8} {n : Nat}

/-- The new record is at the end, and its listener is there. -/
theorem resent_listens {length : Int} (hs' : s' = { s with
      dataListenMgrs := s.dataListenMgrs ++ [resentMgr n client length id] }) :
    Listens s' s.dataListenMgrs.length := by
  rw [Listens, hs', List.getElem?_concat_length]
  rfl

/-- It stays at its position. -/
theorem resent_record {length : Int} {ops : List Op} {log : List Event}
    (hs' : s' = { s with
      dataListenMgrs := s.dataListenMgrs ++ [resentMgr n client length id] }) {t : Sender}
    (hrun : (ops.foldlM (step md5) s').Yields log t) :
    Recorded t s.dataListenMgrs.length (resentMgr n client length id) := by
  refine run_record ⟨.listens, ?_⟩ hrun
  rw [hs']
  exact List.getElem?_concat_length

/-- What is sent is what is read from the copy. -/
theorem onSend_resent {k : Nat} {length : Int} {bytes : List UInt8}
    (hrecord : Recorded s k (resentMgr n client length id)) (hlistens : Listens s k) :
    (DTP.acceptorCallbackOfSendData k s).Yields [.onSend k bytes] s ↔
      Reads s (some (.node n)) (toSize length) bytes := by
  have hmgr := hrecord.of_listens hlistens
  rw [acceptorCallbackOfSendData_yields]
  constructor
  · rintro ⟨-, m, bytes', hm, -, hreads, hes⟩
    obtain rfl := Option.some.inj (hmgr.symm.trans hm)
    obtain ⟨-, rfl⟩ := Event.onSend.inj (List.singleton_inj.mp hes)
    exact hreads
  · intro hreads
    exact ⟨rfl, _, bytes, hmgr, rfl, hreads, rfl⟩

/-- Sending the copy once more repeats a block exactly when the copy agrees with it. -/
theorem repeats_iff (h : Entry s client id n copy) {x : Traced Event Sender} {length : Int}
    (hx : ∀ s', (∃ es, x.Yields es s') ↔
      (length % 2 ^ 32).toNat ≤ copy.length + 1 ∧
        s' = { s with dataListenMgrs := s.dataListenMgrs ++ [resentMgr n client length id] })
    (block : List UInt8) :
    Repeats md5 client id s.dataListenMgrs.length (block.take (toSize length)) x ↔
      Agrees copy block (toSize length) := by
  have hentry : ∀ {s' : Sender}, s' = { s with
      dataListenMgrs := s.dataListenMgrs ++ [resentMgr n client length id] } →
      Entry s' client id n copy := by
    rintro s' rfl
    exact h.of_append (List.append_nil _).symm
  constructor
  · intro hrepeats
    obtain ⟨es, s', hyields⟩ := hrepeats.returns
    obtain ⟨-, hs'⟩ := (hx s').mp ⟨es, hyields⟩
    -- the peer connects at once
    have hrun : (([] : List Op).foldlM (step md5) s').Yields [] s' :=
      (Traced.pure_yields ..).mpr ⟨rfl, rfl⟩
    have hlistens := resent_listens hs'
    have hsent := hrepeats.sends es s' s' hyields
      ⟨[], [], fun op hop => absurd hop List.not_mem_nil, hrun⟩ hlistens
    have hreads := (onSend_resent (resent_record hs' hrun) hlistens).mp hsent
    obtain ⟨hle, hbytes⟩ := (hentry hs').reads.mp hreads
    exact ⟨hle, hbytes.symm⟩
  · rintro ⟨hle, hbytes⟩
    -- the checksum reads the length as an `unsigned int`, and `onSend` as a `size_t`
    have hcrc : (length % 2 ^ 32).toNat ≤ toSize length := by
      unfold toSize
      omega
    constructor
    · obtain ⟨es, hyields⟩ := (hx _).mpr ⟨hcrc.trans hle, rfl⟩
      exact ⟨es, _, hyields⟩
    · intro es s' hyields
      exact resent_listens ((hx s').mp ⟨es, hyields⟩).2
    · rintro es s' t hyields ⟨ops, log, hops, hrun⟩ hlistens
      obtain ⟨-, hs'⟩ := (hx s').mp ⟨es, hyields⟩
      obtain ⟨hkept, -⟩ := (hentry hs').kept_run hops hrun
      exact (onSend_resent (resent_record hs' hrun) hlistens).mpr
        (hkept.reads.mpr ⟨hle, hbytes.symm⟩)

/-- Bytes of an entry that is erased before the peer connects cannot be sent. -/
theorem erased_never (h : Entry s client id n copy) {length : Int} (hlength : toSize length ≠ 0)
    (hs' : s' = { s with
      dataListenMgrs := s.dataListenMgrs ++ [resentMgr n client length id] }) {t : Sender}
    (herased : Erased md5 client id s' t) (es : List Event) (t' : Sender) :
    ¬ (DTP.acceptorCallbackOfSendData s.dataListenMgrs.length t).Yields es t' := by
  obtain ⟨ops, log, hops, hrun⟩ := herased
  intro hyields
  obtain ⟨stage, hrecord⟩ := resent_record hs' hrun
  have hentry : Entry s' client id n copy := by
    rw [hs']
    exact h.of_append (List.append_nil _).symm
  obtain ⟨-, m, bytes, hm, -, hreads, -⟩ := acceptorCallbackOfSendData_yields.mp hyields
  obtain rfl := Option.some.inj (hrecord.symm.trans hm)
  exact (hentry.gone_run hops hrun).not_reads hlength bytes hreads

end

/-- A block that was sent is repeated by its id exactly when the copy under the id agrees with it.
Under a new id, this is when the block has no zero before its last byte. A copy that is erased
before the peer connects cannot be sent, and without a copy the call never returns. -/
theorem resend_iff {κ : Type} {md5 : Md5 κ} {conn conn' : Conn} {peerId peerId' : Int}
    {client : Client} {block : Nat} {length : Int} {id : List UInt8} {s₀ s₁ s₂ : Sender}
    (hsent : Sent conn peerId client block length id s₀ s₁)
    (hrun : Unerased md5 client id s₁ s₂)
    (hregistered : s₂.mul.lookup conn' peerId' = some client) {dataId : List UInt8}
    (hid : cstring dataId = id) {flag : Int} (hflag : flag = TCP ∨ flag = RDMA)
    {uninit : Client} {guid : List UInt8} {sys : DataCalls} :
    let content := s₀.blocks block
    let copy := copyOf client id (cstring content) s₀
    let resend :=
      Multiplexer.sendData uninit guid sys conn' peerId' none length (some dataId) flag
    let k := s₂.dataListenMgrs.length
    (Repeats md5 client id k (content.take (toSize length)) (resend s₂) ↔
      Agrees copy content (toSize length)) ∧
    (s₀.find client id = none →
      (Agrees copy content (toSize length) ↔ toSize length ≤ cstrlen content + 1)) ∧
    (toSize length ≠ 0 → ∀ es s₃ t, (resend s₂).Yields es s₃ → Erased md5 client id s₃ t →
      ∀ es' t', ¬ (DTP.acceptorCallbackOfSendData k t).Yields es' t') ∧
    ∀ s, s.find (Multiplexer.findClient uninit conn' peerId' s) id = none →
      resend s = (Traced.tell [.client (Multiplexer.findClient uninit conn' peerId' s)] >>=
        fun _ => Traced.fault) := by
  -- the entry that the first call has left is still there, and the client is alive
  obtain ⟨n, hentry, halive⟩ := hsent.entry
  obtain ⟨ops, log, hops, hrun⟩ := hrun
  obtain ⟨hentry₂, halive₂⟩ := hentry.kept_run hops hrun
  rw [halive] at halive₂
  have hyields : ∀ s₃, (∃ es, (Multiplexer.sendData uninit guid sys conn' peerId' none length
      (some dataId) flag s₂).Yields es s₃) ↔ _ :=
    fun _ => resend_yields hentry₂ halive₂ hregistered hid hflag
  dsimp only
  refine ⟨repeats_iff hentry₂ hyields _, ?_, ?_, ?_⟩
  · intro hnew
    -- under a new id the copy is the string at the start of the block
    have hcopy : copyOf client id (cstring (s₀.blocks block)) s₀ = cstring (s₀.blocks block) := by
      simp only [copyOf, hnew, Option.bind_none]
    rw [hcopy]
    exact agrees_cstring hsent.zero_mem _
  · intro hlength es s₃ t hcall herased
    obtain ⟨-, hs₃⟩ := (hyields s₃).mp ⟨es, hcall⟩
    exact erased_never hentry₂ hlength hs₃ herased
  · intro s hnone
    rw [← hid] at hnone
    exact unknown_never hnone hflag guid sys length

/-! ### Examples -/

/-- Three blocks of a user, whose client 7 is registered. -/
def threeBlocks : Sender where
  mul := { connMp_ := fun conn =>
    if conn = 1 then some fun id => if id = 3 then some 7 else none else none }
  blocks := fun block =>
    if block = 0 then [1, 2, 0] else if block = 1 then [3, 0, 4, 0] else [5, 0]

/-- Every call of the system succeeds. -/
def dataCalls : DataCalls :=
  { socket := 5
    bind := true
    listen := true
    getsockname := some 2000
    sin_port := 0 }

/-- A block is sent over TCP, or once more without one. -/
def sendOnTcp (sendBuf : Option DataPtr) (length : Int) (s : Sender) : Traced Event Sender :=
  Multiplexer.sendData 0 [] dataCalls 1 3 sendBuf length (some [0x64]) TCP s

/-- A block that is sent over TCP. -/
theorem sent_of_sendOnTcp {block : Nat} {length : Int} {s s' : Sender} {es : List Event}
    (hregistered : s.mul.lookup 1 3 = some 7)
    (h : (sendOnTcp (some (.user block)) length s).Yields es s') :
    Sent 1 3 7 block length [0x64] s s' :=
  ⟨hregistered, 0, [], dataCalls, some [0x64], TCP, es, .inl rfl, by decide, h⟩

/-- Nothing happens in between. -/
theorem unerased_self {κ : Type} (md5 : Md5 κ) (client : Client) (id : List UInt8) (s : Sender) :
    Unerased md5 client id s s :=
  ⟨[], [], fun _ hop => absurd hop List.not_mem_nil, (Traced.pure_yields ..).mpr ⟨rfl, rfl⟩⟩

/-- A string is repeated with its zero. -/
theorem resend_string : ∃ s₁, Sent 1 3 7 0 3 [0x64] threeBlocks s₁ ∧
    Unerased zeroMd5 7 [0x64] s₁ s₁ ∧ s₁.mul.lookup 1 3 = some 7 ∧
    Repeats zeroMd5 7 [0x64] s₁.dataListenMgrs.length [1, 2, 0] (sendOnTcp none 3 s₁) := by
  obtain ⟨es, s₁, hcall, hregistered⟩ : ∃ es s₁,
      (sendOnTcp (some (.user 0)) 3 threeBlocks).Yields es s₁ ∧ s₁.mul.lookup 1 3 = some 7 :=
    ⟨_, _, ⟨rfl, rfl⟩, rfl⟩
  have hsent : Sent 1 3 7 0 3 [0x64] threeBlocks s₁ := sent_of_sendOnTcp rfl hcall
  have hrun := unerased_self zeroMd5 7 [0x64] s₁
  have hagrees : Agrees (copyOf 7 [0x64] (cstring (threeBlocks.blocks 0)) threeBlocks)
      (threeBlocks.blocks 0) (toSize 3) := ⟨by decide, by decide⟩
  exact ⟨s₁, hsent, hrun, hregistered,
    (resend_iff hsent hrun hregistered (by decide) (.inl rfl)).1.mpr hagrees⟩

/-- A block with a zero inside is not repeated: three bytes are read from a string of one. Under an
id that is used again the older block is sent. -/
theorem resend_differs :
    (∃ s₁, Sent 1 3 7 1 3 [0x64] threeBlocks s₁ ∧ (sendOnTcp none 3 s₁).value = none ∧
      ¬ Repeats zeroMd5 7 [0x64] s₁.dataListenMgrs.length [3, 0, 4] (sendOnTcp none 3 s₁)) ∧
    ∃ s₁ s₂ es s₃, Sent 1 3 7 0 2 [0x64] threeBlocks s₁ ∧ Sent 1 3 7 2 2 [0x64] s₁ s₂ ∧
      (sendOnTcp none 2 s₂).Yields es s₃ ∧
      (DTP.acceptorCallbackOfSendData s₂.dataListenMgrs.length s₃).Yields [.onSend 2 [1, 2]] s₃ ∧
      ¬ Repeats zeroMd5 7 [0x64] s₂.dataListenMgrs.length [5, 0] (sendOnTcp none 2 s₂) := by
  constructor
  · -- the copy of three bytes with a zero in them is one byte and its zero
    obtain ⟨es, s₁, hcall, hnone⟩ : ∃ es s₁,
        (sendOnTcp (some (.user 1)) 3 threeBlocks).Yields es s₁ ∧
          (sendOnTcp none 3 s₁).value = none := ⟨_, _, ⟨rfl, rfl⟩, rfl⟩
    refine ⟨s₁, sent_of_sendOnTcp rfl hcall, hnone, fun hrepeats => ?_⟩
    obtain ⟨fs, s, hyields⟩ := hrepeats.returns
    exact absurd (hnone.symm.trans hyields.2).symm (Option.some_ne_none s)
  · -- `insert` keeps the older entry, so the second block is not copied
    obtain ⟨es, s₁, es', s₂, fs, s₃, hcall, hcall', hregistered, hresend, hsent⟩ :
        ∃ es s₁ es' s₂ fs s₃,
          (sendOnTcp (some (.user 0)) 2 threeBlocks).Yields es s₁ ∧
          (sendOnTcp (some (.user 2)) 2 s₁).Yields es' s₂ ∧ s₁.mul.lookup 1 3 = some 7 ∧
          (sendOnTcp none 2 s₂).Yields fs s₃ ∧
          (DTP.acceptorCallbackOfSendData s₂.dataListenMgrs.length s₃).Yields
            [.onSend 2 [1, 2]] s₃ :=
      ⟨_, _, _, _, _, _, ⟨rfl, rfl⟩, ⟨rfl, rfl⟩, rfl, ⟨rfl, rfl⟩, ⟨rfl, rfl⟩⟩
    refine ⟨s₁, s₂, fs, s₃, sent_of_sendOnTcp rfl hcall, sent_of_sendOnTcp hregistered hcall',
      hresend, hsent, fun hrepeats => ?_⟩
    have hsent' := hrepeats.sends fs s₃ s₃ hresend (unerased_self zeroMd5 7 [0x64] s₃)
      (hrepeats.listens fs s₃ hresend)
    obtain ⟨hes, -⟩ := hsent.unique hsent'
    obtain ⟨-, hbytes⟩ := Event.onSend.inj (List.singleton_inj.mp hes)
    exact absurd hbytes (by decide)

end Ndsl.Proofs.Sending
