import Ndsl.Net.Offers
import Ndsl.Proofs.Dtp.Agree

/-!
# `Ndsl.Proofs.Dtp.Offers`: which offers can be accepted

An offer of a file, or of a data block over one of three transports, goes through four tables of
flags: the one of its sender, the one of `analysisProtobuf`, the one of
`Multiplexer::agreeRecvData`, and the one of `DTP::agreeRecvData`. `accepted_iff` says that the
user is told the key of an offer, and can begin its receive with it, unless the offer was made over
RDMA: `analysisProtobuf` does not know its flag. The key is copied as a string into a small block,
so that it is to be short and without a zero.
-/

set_option autoImplicit false

namespace Ndsl.Proofs.DtpClient

open Ndsl.Lib
open Ndsl.Net.Dtp

/-- The kinds of offers. -/
inductive Kind
  | file
  | tcp
  | rdma
  | udp
  deriving Repr, DecidableEq

namespace Kind

/-- The flag that the sender gives an offer. -/
def flag : Kind → Int
  | file => SENDFILEFLAG
  | tcp => offerFlag TCP
  | rdma => offerFlag RDMA
  | udp => SENDDATAONUDP

/-- The name that an offer is to be remembered under. -/
def key : Kind → ControlMsg → List UInt8
  | file, msg => msg.fileName
  | _, msg => msg.dataId

/-- The agreement to an offer. -/
def agree : Kind → List UInt8 → DTPClient → Traced Act DTPClient
  | file, fileName, client => client.agreeRecvFile fileName
  | _, dataId, client => client.agreeRecvData dataId

/-- The receive that the agreement is to begin. -/
def receive : Kind → ControlMsg → Receive
  | file, msg => .file msg
  | tcp, msg => .tcp msg
  | rdma, msg => .rdma msg
  | udp, msg => .udp msg

end Kind

/-- An offer can be accepted: the callback is called with its key, and the agreement with the key
begins its receive. -/
def Accepted (kind : Kind) (msg : ControlMsg) (client : DTPClient) : Prop :=
  ∃ param client', (client.analysisProtobuf msg).Yields
      [.notice msg.flag (some (kind.key msg)) param] client' ∧
    ∃ act client'', (kind.agree (kind.key msg) client').Yields [act] client'' ∧
      Receive.ofAct act = some (kind.receive msg)

section
variable {kind : Kind} {msg : ControlMsg} {client : DTPClient}

/-- The tables of the sender and of the client agree, up to one flag. -/
theorem keyOf_offer (hflag : msg.flag = kind.flag) :
    DTPClient.keyOf msg = if kind = .rdma then none else some (kind.key msg) := by
  cases kind with
  | file => simp [DTPClient.keyOf, hflag, Kind.flag, Kind.key]
  | tcp =>
      have hdata : msg.flag = SENDDATAFLAG := hflag
      simp [DTPClient.keyOf, DTPClient.underDataId, hdata, Kind.key, SENDDATAFLAG, SENDFILEFLAG]
  | rdma =>
      have hrdma : msg.flag = SENDDATAONRDMA := hflag
      simp [DTPClient.keyOf, DTPClient.underDataId, hrdma, SENDDATAONRDMA, SENDFILEFLAG,
        SENDDATAFLAG, RECVDATASUCC, RECVDATAFAIL, OPPENDRECVSUCC, OPPENDRECVFAIL, SENDDATAONUDP]
  | udp =>
      have hudp : msg.flag = SENDDATAONUDP := hflag
      simp [DTPClient.keyOf, DTPClient.underDataId, hudp, Kind.key, SENDDATAONUDP, SENDFILEFLAG]

/-- An offer is not a request for a datagram, so the client notifies its user. -/
theorem analysisProtobuf_offer (hflag : msg.flag = kind.flag) (client : DTPClient) :
    ∃ noticeParam_, client.analysisProtobuf msg
      = DTPClient.notify msg { client with noticeParam_ := noticeParam_ } := by
  have hudp : msg.flag ≠ RECVDATAONUDP := by
    rw [hflag]
    cases kind <;> decide
  rw [DTPClient.analysisProtobuf, if_neg hudp]
  split
  · exact ⟨.length msg.length, rfl⟩
  · exact ⟨client.noticeParam_, rfl⟩

/-- The tables of the multiplexer and of `DTP` agree with the one of the sender. -/
theorem agree_offer (hflag : msg.flag = kind.flag)
    (hmp : client.mp_ (kind.key msg) = some msg) :
    ∃ act, (kind.agree (kind.key msg) client).Yields [act] (client.erase (kind.key msg)) ∧
      Receive.ofAct act = some (kind.receive msg) := by
  cases kind with
  | file =>
      refine ⟨.recvFile msg, ?_, rfl⟩
      simp only [Kind.agree, DTPClient.agreeRecvFile, hmp]
      exact ⟨rfl, rfl⟩
  | tcp =>
      have hdata : msg.flag = SENDDATAFLAG := hflag
      refine ⟨.recvData msg, ?_, ?_⟩
      · simp only [Kind.agree, DTPClient.agreeRecvData, hmp]
        rw [if_neg (by rw [hdata]; decide)]
        exact ⟨rfl, rfl⟩
      · rw [Receive.ofAct, if_neg (by rw [hdata]; decide)]
        rfl
  | rdma =>
      have hrdma : msg.flag = SENDDATAONRDMA := hflag
      refine ⟨.recvData msg, ?_, ?_⟩
      · simp only [Kind.agree, DTPClient.agreeRecvData, hmp]
        rw [if_neg (by rw [hrdma]; decide)]
        exact ⟨rfl, rfl⟩
      · rw [Receive.ofAct, if_pos hrdma]
        rfl
  | udp =>
      have hudp : msg.flag = SENDDATAONUDP := hflag
      refine ⟨.recvUdpData msg, ?_, rfl⟩
      simp only [Kind.agree, DTPClient.agreeRecvData, hmp]
      rw [if_pos hudp]
      exact ⟨rfl, rfl⟩

/-- The notice of a message that comes with a name, behind the copy of the name, and what the client
remembers of it. -/
theorem notify_named {cb : Nat} {name : List UInt8} (hcb : client.noticeCallback_ = some cb)
    (hkey : DTPClient.keyOf msg = some name) {es : List Act} {client' : DTPClient} :
    (DTPClient.notify msg client).Yields es client' ↔
      es = overrun .overrun FILEPATHSIZE (cstring name) ++
          [.notice msg.flag (some (cstring name)) client.noticeParam_] ∧
        client' = client.insert name msg := by
  simp only [DTPClient.notify, hcb, hkey, DTPClient.copyName]
  rw [Traced.bind_assoc, Traced.tell_bind_yields]
  constructor
  · rintro ⟨fs, hrest, rfl⟩
    obtain ⟨rfl, rfl⟩ := (Traced.tell_pure_yields ..).mp hrest
    exact ⟨rfl, rfl⟩
  · rintro ⟨rfl, rfl⟩
    exact ⟨_, (Traced.tell_pure_yields ..).mpr ⟨rfl, rfl⟩, rfl⟩

/-- An offer whose key is new can be accepted exactly when it was not made over RDMA, and its key
is a string that fits the block it is copied into. -/
theorem accepted_iff (hcb : client.noticeCallback_ ≠ none) (hflag : msg.flag = kind.flag)
    (hnew : client.mp_ (kind.key msg) = none) :
    Accepted kind msg client ↔
      kind ≠ .rdma ∧ 0 ∉ kind.key msg ∧ (kind.key msg).length < FILEPATHSIZE := by
  obtain ⟨cb, hcb⟩ := Option.ne_none_iff_exists'.mp hcb
  obtain ⟨noticeParam_, hnotify⟩ := analysisProtobuf_offer hflag client
  have hkey := keyOf_offer hflag
  have hcb' : ({ client with noticeParam_ := noticeParam_ } : DTPClient).noticeCallback_
      = some cb := hcb
  constructor
  · rintro ⟨param, client', hnotice, -⟩
    rw [hnotify] at hnotice
    by_cases hkind : kind = .rdma
    · -- the callback is called without a name
      rw [if_pos hkind] at hkey
      simp only [DTPClient.notify, hcb, hkey, Traced.tell_pure_yields, List.cons.injEq,
        Act.notice.injEq, reduceCtorEq, false_and, and_false] at hnotice
    · rw [if_neg hkind] at hkey
      -- the name that is handed out is the key up to its first zero
      obtain ⟨hlog, -⟩ := (notify_named hcb' hkey).mp hnotice
      have hshort : (cstring (kind.key msg)).length < FILEPATHSIZE := by
        refine (not_mem_overrun_iff Act.overrun).mp fun hmem => ?_
        have hover := hlog ▸ List.mem_append_left _ hmem
        exact Act.noConfusion (List.mem_singleton.mp hover)
      rw [overrun_of_lt hshort] at hlog
      have hself : cstring (kind.key msg) = kind.key msg := by
        injection hlog with hact
        injection hact with _ hname
        exact (Option.some.inj hname).symm
      rw [hself] at hshort
      exact ⟨hkind, (cstring_eq_self_iff _).mp hself, hshort⟩
  · rintro ⟨hkind, hzero, hshort⟩
    rw [if_neg hkind] at hkey
    have hself := (cstring_eq_self_iff _).mpr hzero
    have hnotice := (notify_named hcb' hkey).mpr ⟨rfl, rfl⟩
    rw [hself, overrun_of_lt hshort, List.nil_append, ← hnotify] at hnotice
    refine ⟨noticeParam_, _, hnotice, ?_⟩
    -- an entry that is there would stay, so the key has to be new
    have hmp : (DTPClient.insert (kind.key msg) msg { client with
        noticeParam_ := noticeParam_ }).mp_ (kind.key msg) = some msg := by
      rw [insert_mp, if_pos rfl]
      exact congrArg (Option.or · (some msg)) hnew
    obtain ⟨act, hagree, hreceive⟩ := agree_offer hflag hmp
    exact ⟨act, _, hagree, hreceive⟩

end

/-- The offer of a block of three bytes, as `sendData` makes it for a transport. -/
def blockOffer (flag : Int) : ControlMsg :=
  makeDataControlMsg (offerFlag flag) 5 (some RDMA_IP) SERV_PORT 7 3 [0x64]

/-- An offer over TCP can be accepted. -/
theorem accepted_tcp :
    (notified 1 (some 2)).noticeCallback_ ≠ none ∧ (blockOffer TCP).flag = Kind.tcp.flag ∧
      Accepted .tcp (blockOffer TCP) (notified 1 (some 2)) :=
  ⟨Option.some_ne_none 1, rfl,
    (accepted_iff (Option.some_ne_none 1) rfl rfl).mpr (by decide)⟩

/-- The same offer over RDMA cannot. -/
theorem rdma_not_accepted :
    (notified 1 (some 2)).noticeCallback_ ≠ none ∧ (blockOffer RDMA).flag = Kind.rdma.flag ∧
      (notified 1 (some 2)).mp_ (Kind.rdma.key (blockOffer RDMA)) = none ∧
      ¬ Accepted .rdma (blockOffer RDMA) (notified 1 (some 2)) := by
  refine ⟨Option.some_ne_none 1, rfl, rfl, ?_⟩
  rintro ⟨param, client', ⟨hlog, -⟩, -⟩
  have htold : ((notified 1 (some 2)).analysisProtobuf (blockOffer RDMA)).log
      = [.notice SENDDATAONRDMA none (.user 0)] := by decide
  rw [htold] at hlog
  simp only [List.cons.injEq, Act.notice.injEq, reduceCtorEq, false_and, and_false] at hlog

end Ndsl.Proofs.DtpClient
