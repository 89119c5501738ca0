import Ndsl.Net.RecvData

/-!
# `Ndsl.Proofs.RecvData.Reassembles`: a data block from its chunks

A block that is offered arrives in chunks on the data connection. `Reassembles` is what the receive
owes to its user: it receives the block from that connection and puts it into its buffer, checks it
once, hands it over when the checksum is the offered one, and reports that and nothing else.

`recvDataCallback` asks for the rest of a block on the connection of the entity, and nobody asks
the data connection again (`recvDataCallback_leaves`). So nothing but the first chunk is received
(`of_reception_yields`), and `reassembles_iff` says that the receive keeps what it owes exactly
when the block arrives as one chunk, and the user can be told.
-/

set_option autoImplicit false

namespace Ndsl.Proofs.RecvData

open Ndsl.Lib
open Ndsl.Net Ndsl.Net.Dtp Ndsl.Net.Dtp.RecvData
open Ndsl.Net.Tcp (EAGAIN EWOULDBLOCK RecvResult TcpConnection)

/-! ### What a receive did -/

/-- The bytes that came from the data connection. -/
def received (log : List Event) : List UInt8 :=
  log.flatMap fun
    | .data (.recv _ _ _ (.data bytes)) => bytes
    | _ => []

/-- The bytes whose checksum was computed, for each time that it was. -/
def checked (log : List Event) : List (List UInt8) :=
  log.filterMap fun
    | .crc bytes => some bytes
    | _ => none

/-- What `dataCallback_` was called with. -/
def handed (log : List Event) : List (Int × List UInt8) :=
  log.filterMap fun
    | .client (.data flag buf _) => some (flag, buf)
    | _ => none

/-- The flags of the notices. -/
def reported (log : List Event) : List Int :=
  log.filterMap fun
    | .analysisProtobuf msg => some msg.flag
    | _ => none

@[simp] theorem received_append (log es : List Event) :
    received (log ++ es) = received log ++ received es := List.flatMap_append

@[simp] theorem checked_append (log es : List Event) :
    checked (log ++ es) = checked log ++ checked es := List.filterMap_append

@[simp] theorem handed_append (log es : List Event) :
    handed (log ++ es) = handed log ++ handed es := List.filterMap_append

@[simp] theorem reported_append (log es : List Event) :
    reported (log ++ es) = reported log ++ reported es := List.filterMap_append

/-- The checksum of the block is the one of the offer. -/
def Intact (msg : ControlMsg) (block : List UInt8) : Prop :=
  getCRC16_CCITT block = UInt16.ofNat msg.crcCheckSum

instance (msg : ControlMsg) (block : List UInt8) : Decidable (Intact msg block) :=
  inferInstanceAs (Decidable (_ = _))

/-- What the receive of a block owes to its user. -/
structure Reassembles (msg : ControlMsg) (block : List UInt8) (log : List Event) (s : RecvData) :
    Prop where
  inside : .client .overrun ∉ log
  received_eq : received log = block
  placed : s.mem.read 0 block.length = block
  untouched : ∀ act, .control act ∉ log
  checked_eq : checked log = [block]
  handed_eq : handed log = if Intact msg block then [(RECVDATASUCC, block)] else []
  reported_eq : reported log = [if Intact msg block then RECVDATASUCC else RECVDATAFAIL]
  notices : ∀ flag name param, .client (.notice flag name param) ∈ log →
    flag = if Intact msg block then RECVDATASUCC else RECVDATAFAIL

/-! ### The chunks of a block -/

/-- The chunks that arrive: what `agreeRecvData` finds on the data connection, if it finds
something, and then what each call of `handleRead` finds. With each call comes what the other
connection gives, should it be asked. -/
def chunks (first : RecvResult) (arrivals : List (List UInt8 × List RecvResult)) :
    List (List UInt8) :=
  found first ++ arrivals.map Prod.fst
where
  /-- The chunk that is there at once. -/
  found : RecvResult → List (List UInt8)
    | .data chunk => [chunk]
    | .fail _ => []

/-- The agreement to an offer, and the arrival of the chunks. -/
def reception (msg : ControlMsg) (client : DTPClient) (fd : Int) (control : TcpConnection)
    (mem : Memory) (ints : Int → Int) (first : RecvResult) (results : List RecvResult)
    (arrivals : List (List UInt8 × List RecvResult)) : Traced Event RecvData := do
  let s ← agreeRecvData msg client { pTcpChannel_ := some { fd := fd } } control mem ints first
    results
  arrivals.foldlM (fun s arrival => s.handleRead (.data arrival.1) arrival.2) s

/-! ### What the callback leaves alone -/

/-- A part of the receive that neither changes the data connection nor receives from it. -/
def Leaves (f : RecvData → Traced Event RecvData) : Prop :=
  ∀ s es t, (f s).Yields es t → t.data = s.data ∧ received es = []

theorem received_client (acts : List Act) : received (acts.map .client) = [] := by
  rw [received, List.flatMap_map]
  exact List.flatMap_eq_nil_iff.mpr fun _ _ => rfl

theorem analysisProtobuf_leaves (msg : ControlMsg) : Leaves (RecvData.analysisProtobuf msg) := by
  intro s es t h
  simp only [RecvData.analysisProtobuf, Traced.tell_bind_yields] at h
  obtain ⟨_, ⟨gs, hrest, rfl⟩, rfl⟩ := h
  cases hvalue : (s.client.analysisProtobuf msg).value with
  | none =>
      rw [hvalue] at hrest
      exact absurd hrest (Traced.fault_yields _ _)
  | some client =>
      rw [hvalue] at hrest
      obtain ⟨rfl, rfl⟩ := (Traced.pure_yields ..).mp hrest
      refine ⟨rfl, ?_⟩
      rw [received_append, received_append, received_client]
      rfl

theorem complete_leaves (recvBuf : Nat) (length : Int) : Leaves (complete recvBuf length) := by
  intro s es t h
  obtain ⟨gs, hrest, rfl⟩ := (Traced.tell_bind_yields ..).mp h
  rw [received_append]
  split at hrest
  · obtain ⟨hdata, hreceived⟩ := analysisProtobuf_leaves _ _ _ _ hrest
    exact ⟨hdata, hreceived⟩
  · split at hrest
    · exact absurd hrest (Traced.fault_yields _ _)
    · obtain ⟨_, hnotice, rfl⟩ := (Traced.tell_bind_yields ..).mp hrest
      obtain ⟨hdata, hreceived⟩ := analysisProtobuf_leaves _ _ _ _ hnotice
      exact ⟨hdata, hreceived⟩

theorem perform_leaves {cb : RecvData → Traced Event RecvData} (hcb : Leaves cb) (act : Tcp.Act) :
    Leaves fun s => s.perform cb act := by
  intro s es t h
  dsimp only at h
  unfold perform at h
  split at h
  · obtain ⟨rfl, rfl⟩ := (Traced.pure_yields ..).mp h
    exact ⟨rfl, rfl⟩
  · obtain ⟨rfl, rfl⟩ := (Traced.pure_yields ..).mp h
    exact ⟨rfl, rfl⟩
  · exact hcb _ _ _ h
  · obtain ⟨rfl, rfl⟩ := (Traced.pure_yields ..).mp h
    exact ⟨rfl, rfl⟩

theorem onControl_leaves {cb : RecvData → Traced Event RecvData} (hcb : Leaves cb)
    (x : Traced Tcp.Act (Int × TcpConnection)) : Leaves (onControl x cb) := by
  intro s es t h
  simp only [onControl] at h
  split at h
  · exact absurd h (Traced.fault_yields _ _)
  · refine Traced.foldlM_yields_of_nil (P := fun t log => t.data = s.data ∧ received log = []) ?_
      ⟨rfl, rfl⟩ h
    intro u log act v es hu hstep
    obtain ⟨gs, hperform, rfl⟩ := (Traced.tell_bind_yields ..).mp hstep
    obtain ⟨hdata, hreceived⟩ := perform_leaves hcb act _ _ _ hperform
    refine ⟨hdata.trans hu.1, ?_⟩
    rw [received_append, received_append, hu.2, hreceived]
    rfl

theorem callback_leaves {again : RecvData → Traced Event RecvData} (hagain : Leaves again)
    (result : RecvResult) : Leaves fun s => s.callback result again := by
  intro s es t h
  simp only [callback] at h
  split at h
  · split at h
    · exact complete_leaves _ _ _ _ _ h
    · split at h
      · obtain ⟨_, hpure, rfl⟩ := (Traced.tell_bind_yields ..).mp h
        obtain ⟨rfl, rfl⟩ := (Traced.pure_yields ..).mp hpure
        exact ⟨rfl, rfl⟩
      · -- the rest is asked for on the other connection
        obtain ⟨gs, hrest, rfl⟩ := (Traced.tell_bind_yields ..).mp h
        obtain ⟨hdata, hreceived⟩ := onControl_leaves hagain _ _ _ _ hrest
        exact ⟨hdata, hreceived⟩
  · exact absurd h (Traced.fault_yields _ _)

/-- `recvDataCallback` has nothing to do with the data connection. -/
theorem recvDataCallback_leaves (results : List RecvResult) :
    Leaves (recvDataCallback results) := by
  induction results with
  | nil =>
      refine callback_leaves ?_ (.fail EAGAIN)
      intro s es t h
      obtain ⟨rfl, rfl⟩ := (Traced.pure_yields ..).mp h
      exact ⟨rfl, rfl⟩
  | cons result results ih => exact callback_leaves ih result

/-! ### The first chunk -/

/-- The receive with a chunk at the front of the block. -/
def withChunk (chunk : List UInt8) (data : TcpConnection) (s : RecvData) : RecvData :=
  { s with data := data, mem := s.mem.write 0 chunk, bufLen := chunk.length }

/-- A call that receives a chunk puts it into memory and calls the callback. -/
theorem onData_delivery {x : Traced Tcp.Act (Int × TcpConnection)} {chunk : List UInt8} {ret : Int}
    {data : TcpConnection} (hx : x.Yields (Tcp.delivery (request 0) chunk) (ret, data))
    (cb : RecvData → Traced Event RecvData) (s : RecvData) :
    s.onData x cb =
      Traced.tell ((Tcp.delivery (request 0) chunk).map .data) >>= fun _ =>
        cb (withChunk chunk data s) := by
  obtain ⟨hlog, hvalue⟩ := hx
  have hacts : x.log = [.recv 0 MAXLINE Tcp.MSG_NOSIGNAL (.data chunk), .setLen 0 chunk.length,
      .callback 0 0] := hlog
  simp only [onData, hvalue, hacts, List.foldlM_cons, List.foldlM_nil, perform, Traced.bind_assoc,
    Traced.pure_bind, Traced.bind_pure, Traced.tell_bind_tell_bind, List.cons_append,
    List.nil_append]
  rfl

/-- Nothing is received for a request that nobody has made. -/
theorem handleRead_idle {s : RecvData} (hidle : s.data.RecvInfo_.recvInUse_ = false)
    (result : RecvResult) (results : List RecvResult) : s.handleRead result results = pure s := by
  obtain ⟨hlog, hvalue⟩ : (Tcp.handleRead result s.data).Yields [] (S_OK, s.data) :=
    Tcp.handleRead_idle hidle
  simp only [RecvData.handleRead, onData, hvalue, hlog, List.foldlM_nil]

theorem foldlM_handleRead_idle {s : RecvData} (hidle : s.data.RecvInfo_.recvInUse_ = false)
    (arrivals : List (List UInt8 × List RecvResult)) :
    arrivals.foldlM (fun s arrival => s.handleRead (.data arrival.1) arrival.2) s = pure s := by
  induction arrivals with
  | nil => rfl
  | cons arrival arrivals ih =>
      rw [List.foldlM_cons, handleRead_idle hidle, Traced.pure_bind, ih]

/-- The receive when `agreeRecvData` asks the data connection. -/
def asking (msg : ControlMsg) (client : DTPClient) (data control : TcpConnection) (mem : Memory)
    (ints : Int → Int) : RecvData :=
  { info :=
      { recvBuf_ := some 0
        dataSize_ := msg.length
        dataLength_ := some 0
        checkSum_ := UInt16.ofNat msg.crcCheckSum
        dataId_ := msg.dataId }
    client := client
    mem := mem.write 0 (List.replicate msg.length.toNat 0)
    bufLen := msg.length.toNat
    ints := Function.update ints 0 msg.length
    data := data
    control := control }

section Reception
variable {msg : ControlMsg} {client : DTPClient} {fd : Int} {data control : TcpConnection}
  {mem : Memory} {ints : Int → Int} {first : RecvResult} {results : List RecvResult}
  {arrivals : List (List UInt8 × List RecvResult)} {chunk : List UInt8}
  {rest : List (List UInt8)}

theorem agreeRecvData_eq (hlength : 0 ≤ msg.length) :
    agreeRecvData msg client data control mem ints first results =
      Traced.tell [.getEntityConnection] >>= fun _ =>
        (asking msg client data control mem ints).onData (Tcp.onRecv (request 0) first data)
          (recvDataCallback results) >>= fun s =>
            pure { s with data := agreeRecvData.setError s.data } := by
  rw [agreeRecvData, if_neg (Int.not_lt.mpr hlength)]
  rfl

variable (client control mem ints results) in
/-- The first chunk is there when `agreeRecvData` asks for it, or the loop finds it later. The
callback is called with it, and what comes behind that call does nothing. -/
theorem reception_eq (hfd : 0 ≤ fd) (hlength : 0 ≤ msg.length)
    (hfirst : ∀ errno, first = .fail errno → errno = EAGAIN ∨ errno = EWOULDBLOCK)
    (hchunks : chunks first arrivals = chunk :: rest) (hchunk : chunk ≠ []) :
    ∃ (acts : List Tcp.Act) (data' : TcpConnection) (results' : List RecvResult)
        (k : RecvData → Traced Event RecvData),
      reception msg client fd control mem ints first results arrivals =
        (Traced.tell (.getEntityConnection :: acts.map .data ++
          (Tcp.delivery (request 0) chunk).map .data) >>=
          fun _ => recvDataCallback results'
            (withChunk chunk data' (asking msg client data' control mem ints)) >>= k) ∧
      (∀ act ∈ acts, ∃ errno, act = .recv 0 MAXLINE Tcp.MSG_NOSIGNAL (.fail errno)) ∧
      data'.RecvInfo_.recvInUse_ = false ∧
      ∀ t, t.data.RecvInfo_.recvInUse_ = false →
        ∃ t' : RecvData, k t = pure t' ∧ t'.mem = t.mem := by
  cases first with
  | data found =>
      obtain ⟨rfl, -⟩ := List.cons.inj hchunks
      have hrecv : (Tcp.onRecv (request 0) (.data found)
          { pTcpChannel_ := some { fd := fd } }).Yields (Tcp.delivery (request 0) found) _ :=
        Tcp.onRecv_data rfl hchunk
      refine ⟨[], { pTcpChannel_ := some { fd := fd } }, results,
        fun s => arrivals.foldlM (fun s arrival => s.handleRead (.data arrival.1) arrival.2)
          { s with data := agreeRecvData.setError s.data }, ?_, ?_, rfl, ?_⟩
      · simp only [reception, agreeRecvData_eq hlength, onData_delivery hrecv, Traced.bind_assoc,
          Traced.pure_bind, Traced.tell_bind_tell_bind]
        rfl
      · simp
      · intro t hidle
        let t' : RecvData := { t with data := agreeRecvData.setError t.data }
        exact ⟨t', foldlM_handleRead_idle (s := t') hidle arrivals, rfl⟩
  | fail errno =>
      -- the first chunk is what the first call of `handleRead` finds
      obtain ⟨⟨found, results'⟩, arrivals, rfl⟩ :
          ∃ arrival arrivals', arrivals = arrival :: arrivals' := by
        cases arrivals with
        | nil => exact absurd hchunks (List.cons_ne_nil _ _).symm
        | cons arrival arrivals => exact ⟨arrival, arrivals, rfl⟩
      obtain ⟨rfl, -⟩ := List.cons.inj hchunks
      let conn : TcpConnection := { pTcpChannel_ := some { fd := fd } }
      let waiting := agreeRecvData.setError (Tcp.onRecv.register (request 0) conn)
      have hagain : (Tcp.onRecv (request 0) (.fail errno) conn).Yields _ _ :=
        Tcp.onRecv_again rfl (hfirst errno rfl)
      have hrecv : (Tcp.handleRead (.data found) waiting).Yields
          (Tcp.delivery (request 0) found) _ :=
        Tcp.handleRead_data rfl rfl hfd hchunk
      have hagree : agreeRecvData msg client conn control mem ints (.fail errno) results =
          Traced.tell [.getEntityConnection,
            .data (.recv 0 MAXLINE Tcp.MSG_NOSIGNAL (.fail errno))] >>= fun _ =>
              pure (asking msg client waiting control mem ints) := by
        obtain ⟨hlog, hvalue⟩ := hagain
        simp only [agreeRecvData_eq hlength, onData, hvalue, hlog, List.foldlM_cons,
          List.foldlM_nil, perform, Traced.bind_assoc, Traced.pure_bind,
          Traced.tell_bind_tell_bind]
        rfl
      refine ⟨[.recv 0 MAXLINE Tcp.MSG_NOSIGNAL (.fail errno)], Tcp.handleRead.used waiting,
        results', fun s => arrivals.foldlM
          (fun s arrival => s.handleRead (.data arrival.1) arrival.2) s, ?_, ?_, rfl, ?_⟩
      · show (agreeRecvData msg client conn control mem ints (.fail errno) results >>= _) = _
        have hread :
            (asking msg client waiting control mem ints).handleRead (.data found) results' =
            Traced.tell ((Tcp.delivery (request 0) found).map .data) >>= fun _ =>
              recvDataCallback results'
              (withChunk found (Tcp.handleRead.used waiting)
                (asking msg client waiting control mem ints)) :=
          onData_delivery hrecv _ _
        simp only [hagree, List.foldlM_cons, hread, Traced.bind_assoc, Traced.pure_bind,
          Traced.tell_bind_tell_bind]
        rfl
      · intro act hact
        exact ⟨errno, List.mem_singleton.mp hact⟩
      · intro t hidle
        exact ⟨t, foldlM_handleRead_idle hidle arrivals, rfl⟩

/-! ### The outcome -/

/-- The notice of the outcome. -/
def outcome (msg : ControlMsg) (block : List UInt8) : ControlMsg :=
  makeDataNoticeMsg (if Intact msg block then RECVDATASUCC else RECVDATAFAIL) msg.dataId

/-- The user can be told of the outcome when the data id fits its block. -/
theorem tellable_outcome (block : List UInt8) :
    DTPClient.Tellable (outcome msg block) client ↔
      (client.noticeCallback_ ≠ none → (cstring msg.dataId).length < FILEPATHSIZE) := by
  have hkey : DTPClient.keyOf (outcome msg block) = some (cstring msg.dataId) := by
    unfold outcome
    split <;> rfl
  constructor
  · intro h hcb
    have hshort := h hcb _ hkey
    rwa [cstring_cstring] at hshort
  · intro h hcb key heq
    obtain rfl := Option.some.inj (hkey.symm.trans heq)
    rw [cstring_cstring]
    exact h hcb

theorem analysisProtobuf_outcome (block : List UInt8) :
    client.analysisProtobuf (outcome msg block) = DTPClient.notify (outcome msg block) client := by
  refine DTPClient.analysisProtobuf_of_ne client ?_ ?_
  · show (if Intact msg block then RECVDATASUCC else RECVDATAFAIL) ≠ SENDDATAFLAG
    split <;> decide
  · show (if Intact msg block then RECVDATASUCC else RECVDATAFAIL) ≠ RECVDATAONUDP
    split <;> decide

/-- What the user is told of the outcome. -/
theorem outcome_of_yields {block : List UInt8} {s t : RecvData} {es : List Event}
    (h : (s.analysisProtobuf (outcome msg block)).Yields es t) :
    (.client .overrun ∉ es ↔ DTPClient.Tellable (outcome msg block) s.client) ∧ t.mem = s.mem ∧
      ∃ acts : List Act, es = .analysisProtobuf (outcome msg block) :: acts.map .client ∧
        ∀ act ∈ acts, act = .overrun ∨
          ∃ name param, act = .notice (outcome msg block).flag name param := by
  simp only [RecvData.analysisProtobuf, analysisProtobuf_outcome, Traced.tell_bind_yields] at h
  obtain ⟨_, ⟨gs, hrest, rfl⟩, rfl⟩ := h
  cases hvalue : (DTPClient.notify (outcome msg block) s.client).value with
  | none =>
      rw [hvalue] at hrest
      exact absurd hrest (Traced.fault_yields _ _)
  | some client' =>
      rw [hvalue] at hrest
      obtain ⟨rfl, rfl⟩ := (Traced.pure_yields ..).mp hrest
      obtain ⟨htell, hlog⟩ := DTPClient.notify_of_yields ⟨rfl, hvalue⟩
      refine ⟨?_, rfl, _, by rw [List.append_nil]; rfl, ?_⟩
      · rw [← htell, not_iff_not]
        simp
      · intro act hact
        rcases hlog with ⟨-, hlog⟩ | ⟨-, size, text, name, hlog⟩
        · rw [hlog] at hact
          exact absurd hact List.not_mem_nil
        · rw [hlog] at hact
          rcases List.mem_append.mp hact with hcopy | hnotice
          · exact .inl (eq_of_mem_overrun hcopy)
          · exact .inr ⟨name, _, List.mem_singleton.mp hnotice⟩

theorem exists_outcome (block : List UInt8) (s : RecvData) :
    ∃ es t, (s.analysisProtobuf (outcome msg block)).Yields es t := by
  obtain ⟨acts, client', hlog, hvalue⟩ := DTPClient.exists_notify (outcome msg block) s.client
  refine ⟨_, { s with client := client' }, (Traced.tell_bind_yields ..).mpr ⟨_,
    (Traced.tell_bind_yields ..).mpr ⟨[], ?_, rfl⟩, rfl⟩⟩
  simp only [analysisProtobuf_outcome, hvalue]
  exact ⟨rfl, rfl⟩

/-- A block that has come in as a whole is checked, and handed over when it is intact. -/
theorem recvDataCallback_whole {block : List UInt8} (hoffer : msg.length = block.length)
    (hint : block.length < 2 ^ 31) (results : List RecvResult) :
    recvDataCallback results (withChunk block data (asking msg client data control mem ints)) =
      Traced.tell [.crc block] >>= fun _ =>
        if Intact msg block then
          match client.dataCallback_ with
          | none => .fault
          | some _ => do
            .tell [.client (.data RECVDATASUCC block client.dataParam_)]
            (withChunk block data (asking msg client data control mem ints)).analysisProtobuf
              (outcome msg block)
        else
          let s := withChunk block data (asking msg client data control mem ints)
          { s with info := { s.info with recvBuf_ := none } }.analysisProtobuf
            (outcome msg block) := by
  let s := withChunk block data (asking msg client data control mem ints)
  -- the length is that of the block, so the callback asks for nothing more
  have hints : s.ints 0 = msg.length := by
    show Function.update ints 0 msg.length 0 = msg.length
    rw [Function.update_self]
  have hwhole : block.length = toSize msg.length := by
    unfold toSize
    omega
  have hread : s.mem.read ((0 : Nat) + msg.length - s.info.dataSize_) s.info.dataSize_.toNat =
      block := by
    have hpos : ((0 : Nat) : Int) + msg.length - msg.length = 0 := by omega
    show s.mem.read ((0 : Nat) + msg.length - msg.length) msg.length.toNat = block
    rw [hpos, hoffer]
    exact Memory.read_write _ 0 block
  have hcomplete : ∀ result again, s.callback result again = s.complete 0 msg.length := by
    intro result again
    show (if s.bufLen = toSize (s.ints 0) then s.complete 0 (s.ints 0) else _) = _
    rw [hints]
    exact if_pos hwhole
  -- the results that are left are not looked at
  have hcall : recvDataCallback results s = s.complete 0 msg.length := by
    cases results with
    | nil => exact hcomplete _ _
    | cons result results => exact hcomplete _ _
  rw [hcall]
  simp only [complete, hread]
  refine congrArg _ (funext fun _ => ?_)
  -- the checksum decides
  by_cases hintact : Intact msg block
  · have hcrc : ¬ getCRC16_CCITT block ≠ s.info.checkSum_ := not_not.mpr hintact
    rw [if_neg hcrc, if_pos hintact, outcome, if_pos hintact]
    rfl
  · have hcrc : getCRC16_CCITT block ≠ s.info.checkSum_ := hintact
    rw [if_pos hcrc, if_neg hintact, outcome, if_neg hintact]
    rfl

/-! ### The whole receive -/

/-- The trace up to the first call of the callback. -/
def before (acts : List Tcp.Act) (chunk : List UInt8) : List Event :=
  .getEntityConnection :: acts.map .data ++ (Tcp.delivery (request 0) chunk).map .data

theorem received_before {acts : List Tcp.Act}
    (hacts : ∀ act ∈ acts, ∃ errno, act = .recv 0 MAXLINE Tcp.MSG_NOSIGNAL (.fail errno)) :
    received (before acts chunk) = chunk := by
  have hnone : received (acts.map .data) = [] := by
    rw [received, List.flatMap_map]
    refine List.flatMap_eq_nil_iff.mpr fun act hact => ?_
    obtain ⟨errno, rfl⟩ := hacts act hact
    rfl
  rw [before, ← List.singleton_append, List.append_assoc, received_append, received_append, hnone]
  exact List.append_nil chunk

/-- Up to there nothing concerns the user or the other connection. -/
theorem quiet_before (acts : List Tcp.Act) :
    checked (before acts chunk) = [] ∧ handed (before acts chunk) = [] ∧
      reported (before acts chunk) = [] ∧ (∀ act, .control act ∉ before acts chunk) ∧
      ∀ act, .client act ∉ before acts chunk := by
  have hdata : ∀ e ∈ before acts chunk, e = .getEntityConnection ∨ ∃ act, e = .data act := by
    intro e he
    simp only [before, List.mem_append, List.mem_cons, List.mem_map] at he
    rcases he with (rfl | ⟨act, -, rfl⟩) | ⟨act, -, rfl⟩
    · exact .inl rfl
    · exact .inr ⟨act, rfl⟩
    · exact .inr ⟨act, rfl⟩
  refine ⟨?_, ?_, ?_, ?_, ?_⟩
  · refine List.filterMap_eq_nil_iff.mpr fun e he => ?_
    obtain rfl | ⟨act, rfl⟩ := hdata e he <;> rfl
  · refine List.filterMap_eq_nil_iff.mpr fun e he => ?_
    obtain rfl | ⟨act, rfl⟩ := hdata e he <;> rfl
  · refine List.filterMap_eq_nil_iff.mpr fun e he => ?_
    obtain rfl | ⟨act, rfl⟩ := hdata e he <;> rfl
  · intro act he
    obtain h | ⟨_, h⟩ := hdata _ he <;> exact Event.noConfusion h
  · intro act he
    obtain h | ⟨_, h⟩ := hdata _ he <;> exact Event.noConfusion h

/-- What a receive that returns did: the first chunk came in, the callback was called with it, and
that was all. -/
theorem of_reception_yields {log : List Event} {s : RecvData} (hfd : 0 ≤ fd)
    (hlength : 0 ≤ msg.length)
    (hfirst : ∀ errno, first = .fail errno → errno = EAGAIN ∨ errno = EWOULDBLOCK)
    (hchunks : chunks first arrivals = chunk :: rest) (hchunk : chunk ≠ [])
    (h : (reception msg client fd control mem ints first results arrivals).Yields log s) :
    ∃ acts data' results' gs t, log = before acts chunk ++ gs ∧ received log = chunk ∧
      (recvDataCallback results'
        (withChunk chunk data' (asking msg client data' control mem ints))).Yields gs t ∧
      t.mem = s.mem := by
  obtain ⟨acts, data', results', k, heq, hacts, hidle, hk⟩ :=
    reception_eq client control mem ints results hfd hlength hfirst hchunks hchunk
  rw [heq] at h
  obtain ⟨_, hthen, rfl⟩ := (Traced.tell_bind_yields ..).mp h
  obtain ⟨gs, t, ls, hcallback, hlast, rfl⟩ := Traced.bind_yields.mp hthen
  obtain ⟨hdata, hnone⟩ := recvDataCallback_leaves _ _ _ _ hcallback
  obtain ⟨t', hpure, hmem⟩ := hk t (by rw [hdata]; exact hidle)
  rw [hpure] at hlast
  obtain ⟨rfl, rfl⟩ := (Traced.pure_yields ..).mp hlast
  refine ⟨acts, data', results', gs, t, by rw [List.append_nil]; rfl, ?_, hcallback, hmem.symm⟩
  rw [List.append_nil, received_append, hnone, List.append_nil]
  exact received_before hacts

/-- The call of `dataCallback_`. -/
def handing (msg : ControlMsg) (client : DTPClient) (block : List UInt8) : List Event :=
  if Intact msg block then [.client (.data RECVDATASUCC block client.dataParam_)] else []

/-- What the callback does with the whole block. -/
def finished (msg : ControlMsg) (client : DTPClient) (block : List UInt8) (notices : List Act) :
    List Event :=
  [.crc block] ++ handing msg client block ++ [.analysisProtobuf (outcome msg block)] ++
    notices.map .client

/-- The user is told of the outcome, if of anything. -/
def Tells (msg : ControlMsg) (block : List UInt8) (notices : List Act) : Prop :=
  ∀ act ∈ notices, ∃ name param, act = .notice (outcome msg block).flag name param

/-- Without an overrun there are notices only. -/
theorem tells_of_inside {block : List UInt8} {acts : List Act}
    (hinside : .client .overrun ∉ Event.analysisProtobuf (outcome msg block) :: acts.map .client)
    (h : ∀ act ∈ acts, act = .overrun ∨
      ∃ name param, act = .notice (outcome msg block).flag name param) : Tells msg block acts := by
  intro act hact
  refine (h act hact).resolve_left fun hover => hinside ?_
  exact List.mem_cons_of_mem _ (List.mem_map.mpr ⟨act, hact, congrArg Event.client hover⟩)

variable (data control mem ints) in
theorem exists_finished {block : List UInt8} (hoffer : msg.length = block.length)
    (hint : block.length < 2 ^ 31) (hdata : Intact msg block → client.dataCallback_ ≠ none)
    (htell : DTPClient.Tellable (outcome msg block) client) (results : List RecvResult) :
    ∃ notices t, (recvDataCallback results
        (withChunk block data (asking msg client data control mem ints))).Yields
          (finished msg client block notices) t ∧
      t.mem = (withChunk block data (asking msg client data control mem ints)).mem ∧
      Tells msg block notices := by
  rw [recvDataCallback_whole hoffer hint]
  by_cases hintact : Intact msg block
  · obtain ⟨cb, hcb⟩ := Option.ne_none_iff_exists'.mp (hdata hintact)
    obtain ⟨es, t, hnotice⟩ :=
      exists_outcome block (withChunk block data (asking msg client data control mem ints))
    obtain ⟨hinside, hmem, notices, rfl, htells⟩ := outcome_of_yields hnotice
    refine ⟨notices, t, ?_, hmem, tells_of_inside (hinside.mpr htell) htells⟩
    rw [if_pos hintact, hcb, finished, handing, if_pos hintact]
    refine (Traced.tell_bind_yields ..).mpr ⟨_, (Traced.tell_bind_yields ..).mpr ⟨_, hnotice, rfl⟩,
      ?_⟩
    simp only [List.cons_append, List.nil_append]
  · let s := withChunk block data (asking msg client data control mem ints)
    obtain ⟨es, t, hnotice⟩ :=
      exists_outcome block { s with info := { s.info with recvBuf_ := none } }
    obtain ⟨hinside, hmem, notices, rfl, htells⟩ := outcome_of_yields hnotice
    refine ⟨notices, t, ?_, hmem, tells_of_inside (hinside.mpr htell) htells⟩
    rw [if_neg hintact, finished, handing, if_neg hintact]
    refine (Traced.tell_bind_yields ..).mpr ⟨_, hnotice, ?_⟩
    simp only [List.append_nil, List.cons_append, List.nil_append]

theorem mem_finished {block : List UInt8} {notices : List Act} {e : Event}
    (h : e ∈ finished msg client block notices) :
    e = .crc block ∨ e = .client (.data RECVDATASUCC block client.dataParam_) ∨
      e = .analysisProtobuf (outcome msg block) ∨ ∃ act ∈ notices, e = .client act := by
  simp only [finished, handing, List.mem_append, List.mem_singleton, List.mem_map] at h
  rcases h with ((h | h) | h) | ⟨act, hact, rfl⟩
  · exact .inl h
  · split at h
    · exact .inr (.inl (List.mem_singleton.mp h))
    · exact absurd h List.not_mem_nil
  · exact .inr (.inr (.inl h))
  · exact .inr (.inr (.inr ⟨act, hact, rfl⟩))

variable (client) in
/-- The trace of a receive that was called back with the whole block. -/
theorem reassembles_of_log {block : List UInt8} {acts : List Tcp.Act} {notices : List Act}
    {s : RecvData}
    (hacts : ∀ act ∈ acts, ∃ errno, act = .recv 0 MAXLINE Tcp.MSG_NOSIGNAL (.fail errno))
    (htells : Tells msg block notices) (hread : s.mem.read 0 block.length = block) :
    Reassembles msg block (before acts block ++ finished msg client block notices) s := by
  obtain ⟨hchecked, hhanded, hreported, hcontrol, hclient⟩ := @quiet_before block acts
  -- the notices are no part of what is counted
  have hquiet : checked (notices.map .client) = [] ∧ handed (notices.map .client) = [] ∧
      reported (notices.map .client) = [] := by
    refine ⟨List.filterMap_eq_nil_iff.mpr ?_, List.filterMap_eq_nil_iff.mpr ?_,
      List.filterMap_eq_nil_iff.mpr ?_⟩
    all_goals
      intro e he
      obtain ⟨act, hact, rfl⟩ := List.mem_map.mp he
      obtain ⟨name, param, rfl⟩ := htells act hact
      rfl
  have hflag : (outcome msg block).flag = if Intact msg block then RECVDATASUCC else RECVDATAFAIL :=
    rfl
  have hhanding : received (handing msg client block) = [] ∧
      checked (handing msg client block) = [] ∧ reported (handing msg client block) = [] ∧
      handed (handing msg client block) =
        if Intact msg block then [(RECVDATASUCC, block)] else [] := by
    unfold handing
    split <;> exact ⟨rfl, rfl, rfl, rfl⟩
  refine ⟨?_, ?_, hread, ?_, ?_, ?_, ?_, ?_⟩
  · intro hover
    rcases List.mem_append.mp hover with h | h
    · exact hclient _ h
    · rcases mem_finished h with h | h | h | ⟨act, hact, h⟩
      · exact Event.noConfusion h
      · exact Act.noConfusion (Event.client.inj h)
      · exact Event.noConfusion h
      · obtain ⟨name, param, rfl⟩ := htells act hact
        exact Act.noConfusion (Event.client.inj h)
  · simp only [finished, received_append, received_before hacts, received_client, hhanding.1]
    exact List.append_nil block
  · intro act hact
    rcases List.mem_append.mp hact with h | h
    · exact hcontrol act h
    · rcases mem_finished h with h | h | h | ⟨_, -, h⟩ <;> exact Event.noConfusion h
  · simp only [finished, checked_append, hchecked, hquiet.1, hhanding.2.1]
    rfl
  · simp only [finished, handed_append, hhanded, hquiet.2.1, hhanding.2.2.2]
    show [] ++ ([] ++ (if Intact msg block then _ else _) ++ [] ++ []) = _
    simp only [List.append_nil, List.nil_append]
  · simp only [finished, reported_append, hreported, hquiet.2.2, hhanding.2.2.1]
    rfl
  · intro flag name param hnotice
    rcases List.mem_append.mp hnotice with h | h
    · exact absurd h (hclient _)
    · rcases mem_finished h with h | h | h | ⟨act, hact, h⟩
      · exact Event.noConfusion h
      · exact Act.noConfusion (Event.client.inj h)
      · exact Event.noConfusion h
      · obtain ⟨name', param', rfl⟩ := htells act hact
        exact (Act.notice.inj (Event.client.inj h)).1

/-- A block is reassembled exactly when it arrives as one chunk, there is a callback to hand it to
when it is intact, and the user can be told of the outcome. -/
theorem reassembles_iff {block : List UInt8} (hfd : 0 ≤ fd) (hblock : block ≠ [])
    (hint : block.length < 2 ^ 31) (hoffer : msg.length = block.length)
    (hfirst : ∀ errno, first = .fail errno → errno = EAGAIN ∨ errno = EWOULDBLOCK)
    (hcut : Cutting MAXLINE block (chunks first arrivals)) :
    (∃ log s, (reception msg client fd control mem ints first results arrivals).Yields log s ∧
      Reassembles msg block log s) ↔
    (chunks first arrivals).length = 1 ∧ (Intact msg block → client.dataCallback_ ≠ none) ∧
      (client.noticeCallback_ ≠ none → (cstring msg.dataId).length < FILEPATHSIZE) := by
  have hlength : 0 ≤ msg.length := by omega
  obtain ⟨chunk, rest, hchunks⟩ := List.exists_cons_of_ne_nil (hcut.ne_nil hblock)
  rw [hchunks] at hcut
  have hchunk : chunk ≠ [] := hcut.nonempty chunk (List.mem_cons_self ..)
  constructor
  · rintro ⟨log, s, hyields, h⟩
    obtain ⟨acts, data', results', gs, t, hlog, hreceived, hcallback, -⟩ :=
      of_reception_yields hfd hlength hfirst hchunks hchunk hyields
    have hinside : .client .overrun ∉ gs := by
      intro hover
      exact h.inside (hlog ▸ List.mem_append_right _ hover)
    -- nothing but the first chunk was received, so it is the block
    have hwhole : chunk = block := hreceived.symm.trans h.received_eq
    have hrest : rest = [] := by
      by_contra hmore
      have hlt := hcut.length_lt hmore
      rw [hwhole] at hlt
      exact Nat.lt_irrefl _ hlt
    subst hwhole hrest
    rw [recvDataCallback_whole hoffer hint] at hcallback
    obtain ⟨fs, hrest, rfl⟩ := (Traced.tell_bind_yields ..).mp hcallback
    have hquiet : .client .overrun ∉ fs := fun hover => hinside (List.mem_append_right _ hover)
    refine ⟨by rw [hchunks]; rfl, ?_, ?_⟩
    · intro hintact hnone
      rw [if_pos hintact] at hrest
      split at hrest
      · exact Traced.fault_yields _ _ hrest
      · next hsome => exact Option.some_ne_none _ (hsome.symm.trans hnone)
    · refine (tellable_outcome chunk).mp ?_
      split at hrest
      · split at hrest
        · exact absurd hrest (Traced.fault_yields _ _)
        · obtain ⟨es, hnotice, rfl⟩ := (Traced.tell_bind_yields ..).mp hrest
          refine (outcome_of_yields hnotice).1.mp fun hover => hquiet ?_
          exact List.mem_append_right _ hover
      · exact (outcome_of_yields hrest).1.mp hquiet
  · rintro ⟨hone, hdata, hname⟩
    rw [hchunks] at hone
    obtain rfl : rest = [] := List.length_eq_zero_iff.mp (Nat.succ.inj hone)
    obtain rfl := hcut.eq_of_singleton
    obtain ⟨acts, data', results', k, heq, hacts, hidle, hk⟩ :=
      reception_eq client control mem ints results hfd hlength hfirst hchunks hchunk
    let s := withChunk chunk data' (asking msg client data' control mem ints)
    obtain ⟨notices, t, hgs, hmem, htells⟩ :=
      exists_finished data' control mem ints hoffer hint hdata ((tellable_outcome chunk).mpr hname)
        results'
    obtain ⟨hdata, -⟩ := recvDataCallback_leaves _ _ _ _ hgs
    obtain ⟨t', hpure, hmem'⟩ := hk t (by rw [hdata]; exact hidle)
    refine ⟨_, t', ?_, reassembles_of_log client hacts htells ?_⟩
    · rw [heq]
      refine (Traced.tell_bind_yields ..).mpr ⟨_, Traced.bind_yields.mpr ⟨_, t, [], hgs, ?_,
        (List.append_nil _).symm⟩, rfl⟩
      rw [hpure]
      exact ⟨rfl, rfl⟩
    · rw [hmem', hmem]
      exact Memory.read_write _ 0 chunk

end Reception

/-! ### One chunk and two -/

/-- An offer of a block, with its checksum. -/
def offer (block : List UInt8) : ControlMsg :=
  { flag := SENDDATAFLAG
    dataPort := 1000
    length := block.length
    dataId := [100]
    crcCheckSum := (getCRC16_CCITT block).toNat }

theorem intact_offer (block : List UInt8) : Intact (offer block) block := by
  rw [Intact, offer]
  exact UInt16.ofNat_toNat.symm

/-- A client with both callbacks. -/
def listening : DTPClient := { noticeCallback_ := some 0, dataCallback_ := some 0 }

/-- A connection that was set up. -/
def open_ (fd : Int) : TcpConnection := { pTcpChannel_ := some { fd := fd } }

/-- A block of one chunk. -/
theorem reassembles_iff_one :
    Cutting MAXLINE [1, 2] (chunks (.fail EAGAIN) [([1, 2], [])]) ∧
      ∃ log s, (reception (offer [1, 2]) listening 7 (open_ 5) (fun _ => 0) (fun _ => 0)
        (.fail EAGAIN) [] [([1, 2], [])]).Yields log s ∧
          Reassembles (offer [1, 2]) [1, 2] log s := by
  have hcut : Cutting MAXLINE [1, 2] (chunks (.fail EAGAIN) [([1, 2], [])]) :=
    ⟨rfl, by decide, by decide⟩
  refine ⟨hcut, (reassembles_iff (by decide) (by decide) (by decide) rfl ?_ hcut).mpr
    ⟨rfl, fun _ => Option.some_ne_none _, fun _ => by decide⟩⟩
  intro errno herrno
  exact .inl (Tcp.RecvResult.fail.inj herrno).symm

/-- A block of two chunks. The second one is never received. -/
theorem second_chunk_lost :
    Cutting MAXLINE [1, 2] (chunks (.fail EAGAIN) [([1], []), ([2], [])]) ∧
      Intact (offer [1, 2]) [1, 2] ∧
      ¬ ∃ log s, (reception (offer [1, 2]) listening 7 (open_ 5) (fun _ => 0) (fun _ => 0)
        (.fail EAGAIN) [] [([1], []), ([2], [])]).Yields log s ∧
          Reassembles (offer [1, 2]) [1, 2] log s := by
  refine ⟨⟨rfl, by decide, by decide⟩, intact_offer _, ?_⟩
  rintro ⟨log, s, hyields, h⟩
  have hfirst : ∀ errno, Tcp.RecvResult.fail EAGAIN = .fail errno →
      errno = EAGAIN ∨ errno = EWOULDBLOCK :=
    fun errno herrno => .inl (Tcp.RecvResult.fail.inj herrno).symm
  obtain ⟨_, _, _, _, _, -, hreceived, -⟩ :=
    of_reception_yields (by decide) (Int.natCast_nonneg 2) hfirst rfl (by decide) hyields
  have hone : ([1] : List UInt8) = [1, 2] := hreceived.symm.trans h.received_eq
  exact absurd hone (by decide)

end Ndsl.Proofs.RecvData
