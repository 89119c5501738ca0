import Ndsl.Proofs.RecvData.Reassembles

/-!
# `Ndsl.Proofs.RecvData.InBlock`: what is received stays inside the block

`agreeRecvData` allocates a block of the offered length. Each receive asks for `MAXLINE` bytes,
wherever in the block it begins and however long the block is. So a peer that sends more than it
has offered writes behind the block. `receives_inBlock_iff` says when this does not happen: when
the chunks that are taken in have together no more bytes than were offered.

Which chunks these are depends on their sizes. `recvDataCallback` ends the receive with a chunk of
the size that `dataLength_` points to; it moves that pointer with each chunk, so that only for the
first chunk it points to the offered length.
-/

set_option autoImplicit false

namespace Ndsl.Proofs.RecvData

open Ndsl.Lib
open Ndsl.Net Ndsl.Net.Dtp Ndsl.Net.Dtp.RecvData
open Ndsl.Net.Tcp (EAGAIN RecvResult TcpChannel TcpConnection)

/-! ### The receives of a block -/

/-- The bytes that a receive brings go into a block of `length` bytes. -/
def Within (length : Int) : Event → Prop
  | .data (.recv pos _ _ (.data bytes)) => bytes ≠ [] → (pos + bytes.length : Int) ≤ length
  | .control (.recv pos _ _ (.data bytes)) => bytes ≠ [] → (pos + bytes.length : Int) ≤ length
  | _ => True

/-- Everything that was received went into the block. -/
def InBlock (length : Int) (log : List Event) : Prop := ∀ e ∈ log, Within length e

/-- The connection of the entity holds the request for the rest of the block. -/
def Ours (s : RecvData) : Prop :=
  s.info.recvBuf_ ≠ some 0 ∧
    s.info.recvBuf_.map (fun pos => (Tcp.onRecv.register (request pos) s.control).RecvInfo_) =
      some s.control.RecvInfo_

instance (s : RecvData) : Decidable (Ours s) := inferInstanceAs (Decidable (_ ∧ _))

/-- What the loop calls. With the call comes what `recv` gives, and what the calls of `recv` give
that follow without the loop in between. -/
inductive Op
  | data (result : RecvResult) (results : List RecvResult)
  | control (result : RecvResult) (results : List RecvResult)

/-- One call. On the connection of the entity it is a call for this receive when the request is. -/
def turn (s : RecvData) : Op → Traced Event RecvData
  | .data result results => s.handleRead result results
  | .control result results =>
    if Ours s then s.handleReadControl result results else pure s

/-- The agreement to an offer, and what the loop calls from then on. -/
def transfer (msg : ControlMsg) (client : DTPClient) (fd : Int) (control : TcpConnection)
    (mem : Memory) (ints : Int → Int) (first : RecvResult) (results : List RecvResult)
    (ops : List Op) : Traced Event RecvData := do
  let s ← agreeRecvData msg client { pTcpChannel_ := some { fd := fd } } control mem ints first
    results
  ops.foldlM turn s

/-! ### The chunks that come in -/

/-- What the receive waits for between the calls: a chunk on the data connection, a chunk on the
connection of the entity, or nothing any more. -/
inductive Stage
  | data
  | control
  | ended
  deriving Repr, DecidableEq

/-- The sizes of the chunks that come in one behind the other. -/
def sizesOf : List RecvResult → List Nat
  | .data (b :: bytes) :: results => (b :: bytes).length :: sizesOf results
  | _ => []

/-- What the receive waits for behind the chunks, which it asks the connection of the entity for. -/
def behind : List RecvResult → Stage
  | [] => .control
  | .data (_ :: _) :: results => behind results
  | .data [] :: _ => .ended
  | .fail errno :: _ => if errno = EAGAIN then .control else .ended

/-- What it waits for behind the agreement. -/
def agreed (results : List RecvResult) : RecvResult → Stage
  | .data (_ :: _) => behind results
  | .data [] => .ended
  | .fail errno => if errno = EAGAIN then .data else .ended

/-- What it waits for behind a call, which uses its request up. -/
def called (results : List RecvResult) : RecvResult → Stage
  | .data (_ :: _) => behind results
  | _ => .ended

/-- The sizes of the chunks that the calls of the loop bring. -/
def incoming : Stage → List Op → List Nat
  | .ended, _ => []
  | _, [] => []
  | .data, .data result results :: ops =>
    sizesOf (result :: results) ++ incoming (called results result) ops
  | .data, .control _ _ :: ops => incoming .data ops
  | .control, .data _ _ :: ops => incoming .control ops
  | .control, .control result results :: ops =>
    sizesOf (result :: results) ++ incoming (called results result) ops

/-- The sizes of all the chunks of a transfer, in the order in which they come in. -/
def sizes (first : RecvResult) (results : List RecvResult) (ops : List Op) : List Nat :=
  sizesOf (first :: results) ++ incoming (agreed results first) ops

/-- The chunks that are taken in, after `sent` bytes: up to the first one of the size that is stored
as many places before the length as bytes have come in. -/
def taken (stored : Int → Int) : Nat → List Nat → List Nat
  | _, [] => []
  | sent, n :: rest =>
    n :: if n = toSize (stored (-sent)) then [] else taken stored (sent + n) rest

/-- One of the chunks is the last that is taken in. -/
def Stops (stored : Int → Int) : Nat → List Nat → Prop
  | _, [] => False
  | sent, n :: rest => n = toSize (stored (-sent)) ∨ Stops stored (sent + n) rest

section Taken
variable {stored : Int → Int} {sent : Nat} {l : List Nat}

theorem taken_append_of_stops (h : Stops stored sent l) (l' : List Nat) :
    taken stored sent (l ++ l') = taken stored sent l := by
  induction l generalizing sent with
  | nil => exact absurd h id
  | cons n rest ih =>
      rw [List.cons_append, taken, taken]
      split
      · rfl
      · next hmore => rw [ih (h.resolve_left hmore)]

theorem taken_append (h : ¬ Stops stored sent l) (l' : List Nat) :
    taken stored sent (l ++ l') = l ++ taken stored (sent + l.sum) l' := by
  induction l generalizing sent with
  | nil => rfl
  | cons n rest ih =>
      obtain ⟨hmore, hrest⟩ := not_or.mp h
      rw [List.cons_append, taken, if_neg hmore, ih hrest, List.sum_cons, Nat.add_assoc]
      rfl

theorem taken_cons_of_ne {n : Nat} (h : n ≠ toSize (stored (-sent))) (rest : List Nat) :
    taken stored sent (n :: rest) = n :: taken stored (sent + n) rest := by
  rw [taken, if_neg h]

theorem taken_eq_self (h : ¬ Stops stored sent l) : taken stored sent l = l := by
  have happend := taken_append h []
  rwa [List.append_nil, taken, List.append_nil] at happend

end Taken

theorem incoming_ended (ops : List Op) : incoming .ended ops = [] := by
  cases ops with
  | nil => rfl
  | cons op ops => rfl

section Calls
variable {length : Int} {s : RecvData} {x : Traced Tcp.Act (Int × TcpConnection)}
  {cb : RecvData → Traced Event RecvData}

/-! ### A call that brings nothing -/

/-- A quiet act leaves the record of the receive and the connections alone. -/
theorem perform_quiet {act : Tcp.Act} (hact : act.Quiet) {ok : Event → Prop}
    {post : RecvData → Prop}
    (hpost : ∀ mem bufLen, post { s with mem := mem, bufLen := bufLen }) :
    (s.perform cb act).Ensures ok post := by
  unfold perform
  split
  · exact .pure (hpost _ s.bufLen)
  · exact .pure (hpost s.mem _)
  · exact absurd hact id
  · exact .pure (hpost s.mem s.bufLen)

theorem within_of_quiet {act : Tcp.Act} (hact : act.Quiet) :
    Within length (.data act) ∧ Within length (.control act) := by
  cases act with
  | recv pos n flags result =>
      cases result with
      | fail errno => exact ⟨trivial, trivial⟩
      | data bytes =>
          cases bytes with
          | nil => exact ⟨fun h => absurd rfl h, fun h => absurd rfl h⟩
          | cons b bytes => exact absurd hact id
  | _ => exact ⟨trivial, trivial⟩

/-- A quiet call of the data connection. -/
theorem onData_quiet (idle : TcpConnection → Prop)
    (hx : x.Ensures Tcp.Act.Quiet fun p => idle p.2) :
    (s.onData x cb).Ensures (Within length) fun t => t.control = s.control ∧ idle t.data := by
  unfold onData
  split
  · exact .fault
  · next ret data hvalue =>
    refine .foldlM_of_mem x.log (fun t act hmem ht => ?_) ⟨rfl, hx.value _ hvalue⟩
    refine .tell_bind (List.forall_mem_singleton.mpr (within_of_quiet (hx.acts act hmem)).1) ?_
    split
    · exact .tell_bind (List.forall_mem_singleton.mpr trivial) (.pure ht)
    · exact perform_quiet (hx.acts act hmem) fun _ _ => ht

/-- A quiet call of the entity's connection. -/
theorem onControl_quiet (idle : TcpConnection → Prop)
    (hx : x.Ensures Tcp.Act.Quiet fun p => idle p.2) :
    (s.onControl x cb).Ensures (Within length) fun t => t.data = s.data ∧ idle t.control := by
  unfold onControl
  split
  · exact .fault
  · next ret control hvalue =>
    refine .foldlM_of_mem x.log (fun t act hmem ht => ?_) ⟨rfl, hx.value _ hvalue⟩
    refine .tell_bind (List.forall_mem_singleton.mpr (within_of_quiet (hx.acts act hmem)).2) ?_
    exact perform_quiet (hx.acts act hmem) fun _ _ => ht

/-- The entity's connection keeps a request that nothing has come in for yet. -/
theorem onControl_again {pos : Nat} {channel : TcpChannel}
    (hchannel : s.control.pTcpChannel_ = some channel) :
    s.onControl (Tcp.onRecv (request pos) (.fail EAGAIN) s.control) cb =
      Traced.tell [.control (.recv pos MAXLINE Tcp.MSG_NOSIGNAL (.fail EAGAIN))] >>= fun _ =>
        pure { s with control := Tcp.onRecv.register (request pos) s.control } := by
  obtain ⟨hlog, hvalue⟩ :
      (Tcp.onRecv (request pos) (.fail EAGAIN) s.control).Yields _ _ :=
    Tcp.onRecv_again hchannel (.inl rfl)
  have hflags : (request pos).flags ||| Tcp.MSG_NOSIGNAL = Tcp.MSG_NOSIGNAL := Nat.zero_or _
  simp only [onControl, hvalue, hlog, List.foldlM_cons, List.foldlM_nil, perform,
    Traced.bind_assoc, Traced.pure_bind, hflags]
  rfl

/-! ### A call that brings a chunk -/

/-- A chunk has come in on the connection of the entity. -/
def arrived (pos : Nat) (chunk : List UInt8) (control : TcpConnection) (s : RecvData) : RecvData :=
  { s with control := control, mem := s.mem.write pos chunk, bufLen := chunk.length }

/-- What a connection does for a request of the receive. -/
theorem delivery_request (pos : Nat) (chunk : List UInt8) :
    Tcp.delivery (request pos) chunk =
      [.recv pos MAXLINE Tcp.MSG_NOSIGNAL (.data chunk), .setLen 0 chunk.length,
        .callback 0 0] := by
  have hflags : (request pos).flags ||| Tcp.MSG_NOSIGNAL = Tcp.MSG_NOSIGNAL := Nat.zero_or _
  rw [Tcp.delivery, hflags]
  rfl

/-- A call of the entity's connection that brings a chunk. -/
theorem onControl_delivery {pos : Nat} {chunk : List UInt8} {ret : Int} {control : TcpConnection}
    (hx : x.Yields (Tcp.delivery (request pos) chunk) (ret, control)) :
    s.onControl x cb =
      Traced.tell ((Tcp.delivery (request pos) chunk).map .control) >>= fun _ =>
        cb (arrived pos chunk control s) := by
  obtain ⟨hlog, hvalue⟩ := hx
  rw [delivery_request] at hlog ⊢
  simp only [onControl, hvalue, hlog, List.foldlM_cons, List.foldlM_nil, perform,
    Traced.bind_assoc, Traced.pure_bind, Traced.bind_pure, Traced.tell_bind_tell_bind,
    List.cons_append, List.nil_append]
  rfl

/-- Of a call that brings a chunk, the chunk has to fit, and then what the callback receives. -/
theorem delivery_inBlock_iff {pos : Nat} {b : UInt8} {bytes : List UInt8}
    {ev : Tcp.Act → Event} (hev : ev = .data ∨ ev = .control) {y : Traced Event RecvData} :
    InBlock length
        (Traced.tell ((Tcp.delivery (request pos) (b :: bytes)).map ev) >>= fun _ => y).log ↔
      (pos + (b :: bytes).length : Int) ≤ length ∧ InBlock length y.log := by
  have hacts : (Tcp.delivery (request pos) (b :: bytes)).map ev =
      [ev (.recv pos MAXLINE Tcp.MSG_NOSIGNAL (.data (b :: bytes))),
        ev (.setLen 0 (b :: bytes).length), ev (.callback 0 0)] := by
    rw [delivery_request]
    rfl
  have hrecv : Within length (ev (.recv pos MAXLINE Tcp.MSG_NOSIGNAL (.data (b :: bytes)))) ↔
      (pos + (b :: bytes).length : Int) ≤ length := by
    have hne : b :: bytes ≠ [] := List.cons_ne_nil b bytes
    rcases hev with rfl | rfl
    · exact ⟨fun h => h hne, fun h _ => h⟩
    · exact ⟨fun h => h hne, fun h _ => h⟩
  have hlen : Within length (ev (.setLen 0 (b :: bytes).length)) := by
    rcases hev with rfl | rfl <;> trivial
  have hcall : Within length (ev (.callback 0 0)) := by
    rcases hev with rfl | rfl <;> trivial
  rw [InBlock, Traced.log_tell_bind, List.forall_mem_append, hacts, List.forall_mem_cons,
    List.forall_mem_cons, List.forall_mem_singleton, hrecv]
  exact and_congr_left fun _ => ⟨fun h => h.1, fun h => ⟨h, hlen, hcall⟩⟩

/-- The same when the connection of the entity is asked for first. -/
theorem asked_inBlock_iff {pos : Nat} {b : UInt8} {bytes : List UInt8}
    {y : Traced Event RecvData} :
    InBlock length (Traced.tell [.getEntityConnection] >>= fun _ =>
        Traced.tell ((Tcp.delivery (request pos) (b :: bytes)).map .control) >>= fun _ => y).log ↔
      (pos + (b :: bytes).length : Int) ≤ length ∧ InBlock length y.log := by
  rw [InBlock, Traced.log_tell_bind, List.forall_mem_append, List.forall_mem_singleton]
  exact (and_iff_right trivial).trans (delivery_inBlock_iff (.inr rfl))

/-! ### The callback -/

/-- What the user is told brings no bytes. -/
theorem analysisProtobuf_within (msg : ControlMsg) :
    (s.analysisProtobuf msg).Ensures (Within length) fun t =>
      t.data = s.data ∧ t.control = s.control := by
  refine .tell_bind (List.forall_mem_singleton.mpr trivial) (.tell_bind ?_ ?_)
  · intro e he
    obtain ⟨act, -, rfl⟩ := List.mem_map.mp he
    trivial
  · split
    · exact .fault
    · exact .pure ⟨rfl, rfl⟩

/-- A block that has come in brings nothing more. -/
theorem complete_within (recvBuf : Nat) (len : Int) :
    (s.complete recvBuf len).Ensures (Within length) fun t =>
      t.data = s.data ∧ t.control = s.control := by
  refine .tell_bind (List.forall_mem_singleton.mpr trivial) ?_
  split
  · exact (analysisProtobuf_within _).mono (fun _ h => h) fun _ ht => ht
  · split
    · exact .fault
    · exact .tell_bind (List.forall_mem_singleton.mpr trivial) (analysisProtobuf_within _)

/-- The state in which `recvDataCallback` asks for the rest. -/
def continued (pos : Nat) (dataLength : Int) (s : RecvData) : RecvData :=
  { s with
    info :=
      { s.info with
        dataLength_ := some (dataLength - s.bufLen)
        recvBuf_ := some (pos + s.bufLen) } }

variable {pos : Nat} {dataLength : Int} {result : RecvResult}
  {again : RecvData → Traced Event RecvData}

/-- The callback of a receive over TCP. -/
theorem callback_eq (htemp : s.info.temp_ = false) (hbuf : s.info.recvBuf_ = some pos)
    (hlen : s.info.dataLength_ = some dataLength) :
    s.callback result again =
      if s.bufLen = toSize (s.ints dataLength) then s.complete pos (s.ints dataLength)
      else
        Traced.tell [.getEntityConnection] >>= fun _ =>
          (continued pos dataLength s).onControl
            (Tcp.onRecv (request (pos + s.bufLen)) result s.control) again := by
  simp only [callback, hbuf, hlen, htemp, Bool.false_eq_true, if_false, continued]

end Calls

/-! ### Where a receive stands -/

/-- A connection with an open socket. -/
def Open (conn : TcpConnection) : Prop :=
  ∃ channel, conn.pTcpChannel_ = some channel ∧ 0 ≤ channel.fd

/-- A connection without a request of a receive: a request on it has another callback than
`recvDataCallback`. -/
def Foreign (conn : TcpConnection) : Prop :=
  conn.RecvInfo_.recvInUse_ = true → conn.RecvInfo_.cb_ ≠ some 0

theorem foreign_of_idle {conn : TcpConnection} (h : conn.RecvInfo_.recvInUse_ = false) :
    Foreign conn :=
  fun hinUse => absurd (hinUse.symm.trans h) Bool.noConfusion

/-- A receive over TCP that `sent` bytes have come in for. The next one goes behind them, and the
pointer to the length has moved as many places back. -/
structure Receiving (stored : Int → Int) (sent : Nat) (s : RecvData) : Prop where
  temp_eq : s.info.temp_ = false
  ints_eq : s.ints = stored
  recvBuf_eq : s.info.recvBuf_ = some sent
  dataLength_eq : s.info.dataLength_ = some (-(sent : Int))
  control : Open s.control

/-- No connection holds a request of the receive. -/
structure Over (s : RecvData) : Prop where
  idle : s.data.RecvInfo_.recvInUse_ = false
  foreign : Foreign s.control

/-- What holds of a receive at each stage. -/
inductive At (stored : Int → Int) : Stage → Nat → RecvData → Prop
  | data {s : RecvData} (receiving : Receiving stored 0 s) (channel : Open s.data)
      (request_eq : s.data.RecvInfo_ = (Tcp.onRecv.register (request 0) s.data).RecvInfo_)
      (foreign : Foreign s.control) : At stored .data 0 s
  | control {sent : Nat} {s : RecvData} (receiving : Receiving stored sent s) (pos : sent ≠ 0)
      (idle : s.data.RecvInfo_.recvInUse_ = false)
      (request_eq : s.control.RecvInfo_ =
        (Tcp.onRecv.register (request sent) s.control).RecvInfo_) : At stored .control sent s
  | ended {sent : Nat} {s : RecvData} (h : Over s) : At stored .ended sent s

/-- A foreign request is not ours. -/
theorem not_ours {s : RecvData} (h : Foreign s.control) : ¬ Ours s := by
  rintro ⟨-, hrequest⟩
  cases hbuf : s.info.recvBuf_ with
  | none => exact absurd (hbuf ▸ hrequest) (by simp)
  | some pos =>
      rw [hbuf] at hrequest
      have heq := Option.some.inj hrequest
      exact h (by rw [← heq]; rfl) (by rw [← heq]; rfl)

/-! ### A chunk and those that follow it -/

/-- A chunk of `n` bytes has come in behind the first `sent`, and the callback is to be called. -/
structure Holding (stored : Int → Int) (sent n : Nat) (s : RecvData) : Prop
    extends Receiving stored sent s where
  bufLen_eq : s.bufLen = n
  pos : n ≠ 0
  isOver : Over s

section Chain
variable {stored : Int → Int} {length : Int} {sent n : Nat} {s : RecvData} {result : RecvResult}
  {again : RecvData → Traced Event RecvData} {b : UInt8} {bytes : List UInt8}

theorem Holding.callback_eq (h : Holding stored sent n s) :
    s.callback result again =
      if n = toSize (stored (-sent)) then s.complete sent (stored (-sent))
      else
        Traced.tell [.getEntityConnection] >>= fun _ =>
          (continued sent (-sent) s).onControl
            (Tcp.onRecv (request (sent + n)) result s.control) again := by
  rw [RecvData.callback_eq h.temp_eq h.recvBuf_eq h.dataLength_eq, h.bufLen_eq, h.ints_eq]

/-- The chunk is the last one, and the receive is over. -/
theorem Holding.stops (h : Holding stored sent n s) (hstop : n = toSize (stored (-sent))) :
    (s.callback result again).Ensures (Within length) Over := by
  rw [h.callback_eq, if_pos hstop]
  refine (complete_within _ _).mono (fun _ he => he) ?_
  rintro t ⟨hdata, hcontrol⟩
  exact ⟨hdata ▸ h.isOver.idle, hcontrol ▸ h.isOver.foreign⟩

/-- The receive when it waits for the next chunk. -/
def waiting (sent n : Nat) (s : RecvData) : RecvData :=
  { continued sent (-sent) s with
    control := Tcp.onRecv.register (request (sent + n)) s.control }

theorem continued_recvBuf (h : Holding stored sent n s) :
    (continued sent (-sent) s).info.recvBuf_ = some (sent + n) ∧
      (continued sent (-sent) s).info.dataLength_ = some (-((sent + n : Nat) : Int)) := by
  have hpos : (-(sent : Int)) - (n : Int) = -((sent + n : Nat) : Int) := by omega
  unfold continued
  rw [h.bufLen_eq]
  exact ⟨rfl, congrArg some hpos⟩

/-- Nothing more has come in yet. -/
theorem Holding.asks (h : Holding stored sent n s) (hmore : n ≠ toSize (stored (-sent)))
    (again : RecvData → Traced Event RecvData) :
    s.callback (.fail EAGAIN) again = (Traced.tell [.getEntityConnection,
        .control (.recv (sent + n) MAXLINE Tcp.MSG_NOSIGNAL (.fail EAGAIN))] >>= fun _ =>
          pure (waiting sent n s)) ∧
      At stored .control (sent + n) (waiting sent n s) := by
  obtain ⟨hbuf, hlen⟩ := continued_recvBuf h
  obtain ⟨channel, hchannel, hfd⟩ := h.control
  constructor
  · rw [h.callback_eq, if_neg hmore]
    show (Traced.tell [.getEntityConnection] >>= fun _ => (continued sent (-sent) s).onControl
      (Tcp.onRecv (request (sent + n)) (.fail EAGAIN) (continued sent (-sent) s).control) again) = _
    have hopen : (continued sent (-sent) s).control.pTcpChannel_ = some channel := hchannel
    rw [onControl_again hopen, Traced.tell_bind_tell_bind]
    rfl
  · have hpos := h.pos
    exact .control ⟨h.temp_eq, h.ints_eq, hbuf, hlen, channel, hchannel, hfd⟩ (by omega)
      h.isOver.idle rfl

/-- Nothing more comes in. -/
theorem Holding.ends (h : Holding stored sent n s) (hmore : n ≠ toSize (stored (-sent)))
    (hresult : ∀ b bytes, result ≠ .data (b :: bytes)) (hover : result ≠ .fail EAGAIN) :
    (s.callback result again).Ensures (Within length) Over := by
  obtain ⟨channel, hchannel, -⟩ := h.control
  have hrecv : (Tcp.onRecv (request (sent + n)) result s.control).Ensures Tcp.Act.Quiet
      fun p => Foreign p.2 := by
    refine (Tcp.onRecv_over hchannel hresult hover).mono (fun _ he => he) ?_
    rintro p (heq | hidle)
    · unfold Foreign
      rw [heq]
      exact h.isOver.foreign
    · exact foreign_of_idle hidle
  rw [h.callback_eq, if_neg hmore]
  refine .tell_bind (List.forall_mem_singleton.mpr trivial) ?_
  refine (onControl_quiet Foreign hrecv).mono (fun _ he => he) ?_
  rintro t ⟨hdata, hforeign⟩
  exact ⟨hdata ▸ h.isOver.idle, hforeign⟩

/-- The receive with the next chunk. -/
def holding (sent n : Nat) (chunk : List UInt8) (s : RecvData) : RecvData :=
  arrived (sent + n) chunk s.control (continued sent (-sent) s)

/-- The next chunk comes in. -/
theorem Holding.next (h : Holding stored sent n s) (hmore : n ≠ toSize (stored (-sent)))
    (b : UInt8) (bytes : List UInt8) (again : RecvData → Traced Event RecvData) :
    s.callback (.data (b :: bytes)) again = (Traced.tell [.getEntityConnection] >>= fun _ =>
        Traced.tell ((Tcp.delivery (request (sent + n)) (b :: bytes)).map .control) >>= fun _ =>
          again (holding sent n (b :: bytes) s)) ∧
      Holding stored (sent + n) (b :: bytes).length (holding sent n (b :: bytes) s) := by
  obtain ⟨hbuf, hlen⟩ := continued_recvBuf h
  obtain ⟨channel, hchannel, hfd⟩ := h.control
  constructor
  · rw [h.callback_eq, if_neg hmore,
      onControl_delivery (Tcp.onRecv_data hchannel (List.cons_ne_nil b bytes))]
    rfl
  · exact ⟨⟨h.temp_eq, h.ints_eq, hbuf, hlen, channel, hchannel, hfd⟩, rfl, Nat.succ_ne_zero _,
      h.isOver.idle, h.isOver.foreign⟩

theorem behind_of_ne_ended : ∀ {results : List RecvResult}, behind results ≠ .ended →
    behind results = .control
  | [], _ => rfl
  | .data (_ :: _) :: results, h => @behind_of_ne_ended results h
  | .data [] :: _, h => absurd rfl h
  | .fail errno :: _, h => by
    unfold behind at h ⊢
    split
    · rfl
    · next hover => exact absurd (if_neg hover) h

/-- What a part does that is called with a chunk of `n` bytes, when chunks of the sizes `rest` come
in behind it, and what the receive waits for then. -/
structure Follows (stored : Int → Int) (length : Int) (sent n : Nat) (rest : List Nat)
    (stage : Stage) (x : Traced Event RecvData) : Prop where
  inBlock_iff : (sent + n : Int) ≤ length ∧ InBlock length x.log ↔
    (sent + (taken stored sent (n :: rest)).sum : Int) ≤ length
  isOver : Stops stored sent (n :: rest) ∨ stage = .ended → x.Ensures (fun _ => True) Over
  waits : ¬ Stops stored sent (n :: rest) → stage ≠ .ended →
    ∃ es t, x.Yields es t ∧ At stored stage (sent + (n :: rest).sum) t

theorem taken_singleton (stored : Int → Int) (sent n : Nat) : taken stored sent [n] = [n] := by
  unfold taken
  split <;> rfl

/-- A part that brings no bytes and ends the receive. -/
theorem follows_of_over {x : Traced Event RecvData} {stage : Stage} {rest : List Nat}
    (hx : x.Ensures (Within length) Over) (htaken : taken stored sent (n :: rest) = [n])
    (hend : Stops stored sent (n :: rest) ∨ stage = .ended) :
    Follows stored length sent n rest stage x where
  inBlock_iff := by
    rw [htaken, List.sum_singleton]
    exact and_iff_left hx.acts
  isOver := fun _ => hx.mono (fun _ _ => trivial) fun _ h => h
  waits := fun hstops hstage => absurd hend (not_or.mpr ⟨hstops, hstage⟩)

/-- The size of the chunk stops the receive. -/
theorem Holding.follows_of_stop (h : Holding stored sent n s)
    (hlast : n = toSize (stored (-sent))) (rest : List Nat) (stage : Stage) :
    Follows stored length sent n rest stage (s.callback result again) := by
  refine follows_of_over (h.stops hlast) ?_ (.inl (.inl hlast))
  rw [taken, if_pos hlast]

/-- Nothing more has come in yet. -/
theorem Holding.follows_of_again (h : Holding stored sent n s)
    (hmore : n ≠ toSize (stored (-sent))) :
    Follows stored length sent n [] .control (s.callback (.fail EAGAIN) again) := by
  obtain ⟨heq, hat⟩ := h.asks hmore again
  have hstops : ¬ Stops stored sent [n] := not_or.mpr ⟨hmore, id⟩
  rw [heq]
  refine ⟨?_, fun hover => ?_, fun _ _ => ⟨_, _, (Traced.tell_pure_yields ..).mpr ⟨rfl, rfl⟩, ?_⟩⟩
  · rw [taken_singleton, List.sum_singleton, Traced.log_tell_bind]
    exact and_iff_left (by simp [InBlock, Within])
  · exact absurd hover (not_or.mpr ⟨hstops, Stage.noConfusion⟩)
  · rw [List.sum_singleton]
    exact hat

/-- A result that brings no chunk has no size, and what the receive waits for is over unless the
result is to be tried again. -/
theorem behind_of_quiet {results : List RecvResult}
    (hquiet : ∀ b bytes, result ≠ .data (b :: bytes)) :
    sizesOf (result :: results) = [] ∧ (result ≠ .fail EAGAIN →
      behind (result :: results) = .ended) := by
  cases result with
  | fail errno =>
      exact ⟨rfl, fun hover => if_neg fun herrno => hover (congrArg RecvResult.fail herrno)⟩
  | data bytes =>
      cases bytes with
      | nil => exact ⟨rfl, fun _ => rfl⟩
      | cons b bytes => exact absurd rfl (hquiet b bytes)

theorem called_of_quiet {results : List RecvResult}
    (hquiet : ∀ b bytes, result ≠ .data (b :: bytes)) : called results result = .ended := by
  unfold called
  split
  · next b bytes => exact absurd rfl (hquiet b bytes)
  · rfl

/-- The callback, and those that follow it without the loop in between. -/
theorem recvDataCallback_follows (results : List RecvResult) :
    ∀ {sent n : Nat} {s : RecvData}, Holding stored sent n s →
      Follows stored length sent n (sizesOf results) (behind results)
        (recvDataCallback results s) := by
  induction results with
  | nil =>
      intro sent n s h
      by_cases hlast : n = toSize (stored (-sent))
      · exact h.follows_of_stop hlast _ _
      · exact h.follows_of_again hlast
  | cons result results ih =>
      intro sent n s h
      by_cases hlast : n = toSize (stored (-sent))
      · exact h.follows_of_stop hlast _ _
      by_cases hquiet : ∀ b bytes, result ≠ .data (b :: bytes)
      · obtain ⟨hnone, hbehind⟩ := @behind_of_quiet result results hquiet
        rw [hnone]
        by_cases hover : result = .fail EAGAIN
        · subst hover
          exact h.follows_of_again hlast
        · exact follows_of_over (h.ends hlast hquiet hover) (taken_singleton ..)
            (.inr (hbehind hover))
      · -- the next chunk comes in behind this one
        push Not at hquiet
        obtain ⟨b, bytes, rfl⟩ := hquiet
        obtain ⟨heq, hnext⟩ := h.next hlast b bytes (recvDataCallback results)
        have hcall : recvDataCallback (.data (b :: bytes) :: results) s = _ := heq
        obtain ⟨hinBlock, hover, hwaits⟩ := ih hnext
        rw [hcall, sizesOf]
        refine ⟨?_, fun hend => ?_, fun hstops hstage => ?_⟩
        · rw [taken_cons_of_ne hlast, List.sum_cons, asked_inBlock_iff, hinBlock]
          omega
        · refine .tell_bind (fun _ _ => trivial) (.tell_bind (fun _ _ => trivial) (hover ?_))
          exact hend.imp_left fun hstops => hstops.resolve_left hlast
        · obtain ⟨es, t, hyields, hat⟩ := hwaits (fun h => hstops (.inr h)) hstage
          refine ⟨_, t, (Traced.tell_bind_yields ..).mpr ⟨_,
            (Traced.tell_bind_yields ..).mpr ⟨es, hyields, rfl⟩, rfl⟩, ?_⟩
          rwa [List.sum_cons, ← Nat.add_assoc]

/-- What comes behind the chunks counts on from them. -/
theorem Follows.bind {rest l : List Nat} {stage : Stage} {x : Traced Event RecvData}
    {k : RecvData → Traced Event RecvData} (h : Follows stored length sent n rest stage x)
    (hl : stage = .ended → l = []) (hover : ∀ t, Over t → InBlock length (k t).log)
    (hk : ∀ t, At stored stage (sent + (n :: rest).sum) t →
      ((sent + (n :: rest).sum : Nat) : Int) ≤ length → (InBlock length (k t).log ↔
        ((sent + (n :: rest).sum : Nat) : Int) +
          (taken stored (sent + (n :: rest).sum) l).sum ≤ length)) :
    (sent + n : Int) ≤ length ∧ InBlock length (x >>= k).log ↔
      (sent + (taken stored sent (n :: rest ++ l)).sum : Int) ≤ length := by
  rw [InBlock, Traced.forall_log_bind, ← and_assoc]
  refine (and_congr_left' h.inBlock_iff).trans ?_
  by_cases hstops : Stops stored sent (n :: rest)
  · -- the receive is over, and the chunks behind it are not taken in
    rw [taken_append_of_stops hstops]
    refine and_iff_left fun es t ht => hover t ?_
    exact (h.isOver (.inl hstops)).value t ht.2
  by_cases hstage : stage = .ended
  · rw [hl hstage, List.append_nil]
    refine and_iff_left fun es t ht => hover t ?_
    exact (h.isOver (.inr hstage)).value t ht.2
  obtain ⟨es, t, hyields, hat⟩ := h.waits hstops hstage
  rw [taken_append hstops, taken_eq_self hstops, List.sum_append]
  constructor
  · rintro ⟨hfits, hrest⟩
    have hcount := (hk t hat (by omega)).mp (hrest es t hyields)
    omega
  · intro hcount
    have hfits : ((sent + (n :: rest).sum : Nat) : Int) ≤ length := by omega
    refine ⟨by omega, fun fs u hu => ?_⟩
    obtain ⟨-, rfl⟩ := hyields.unique hu
    refine (hk t hat hfits).mpr ?_
    omega

end Chain

/-! ### The calls of the loop -/

section Run
variable {stored : Int → Int} {length : Int} {sent : Nat} {s : RecvData} {result : RecvResult}
  {results : List RecvResult} {b : UInt8} {bytes : List UInt8}

/-- A receive that is over is not called any more. -/
theorem Over.turn_eq (h : Over s) (op : Op) : turn s op = pure s := by
  cases op with
  | data result results => exact handleRead_idle h.idle result results
  | control result results => exact if_neg (not_ours h.foreign)

theorem Over.run_eq (h : Over s) (ops : List Op) : ops.foldlM turn s = pure s := by
  induction ops with
  | nil => rfl
  | cons op ops ih => rw [List.foldlM_cons, h.turn_eq, Traced.pure_bind, ih]

theorem Over.inBlock (h : Over s) (ops : List Op) :
    InBlock length (ops.foldlM turn s).log := by
  rw [h.run_eq]
  exact fun e he => absurd he List.not_mem_nil

/-- The data connection finds the first chunk. -/
theorem handleRead_chunk (h : Receiving stored 0 s) (hopen : Open s.data)
    (hrequest : s.data.RecvInfo_ = (Tcp.onRecv.register (request 0) s.data).RecvInfo_)
    (hforeign : Foreign s.control) :
    s.handleRead (.data (b :: bytes)) results =
        (Traced.tell ((Tcp.delivery (request 0) (b :: bytes)).map .data) >>= fun _ =>
          recvDataCallback results (withChunk (b :: bytes) (Tcp.handleRead.used s.data) s)) ∧
      Holding stored 0 (b :: bytes).length
        (withChunk (b :: bytes) (Tcp.handleRead.used s.data) s) := by
  obtain ⟨channel, hchannel, hfd⟩ := hopen
  have hread := Tcp.handleRead_data hrequest hchannel hfd (List.cons_ne_nil b bytes)
  refine ⟨onData_delivery hread _ s, ?_⟩
  exact ⟨⟨h.temp_eq, h.ints_eq, h.recvBuf_eq, h.dataLength_eq, h.control⟩, rfl, Nat.succ_ne_zero _,
    rfl, hforeign⟩

/-- The data connection finds nothing, and the receive is over. -/
theorem handleRead_ends (hopen : Open s.data)
    (hrequest : s.data.RecvInfo_ = (Tcp.onRecv.register (request 0) s.data).RecvInfo_)
    (hforeign : Foreign s.control) (hquiet : ∀ b bytes, result ≠ .data (b :: bytes)) :
    (s.handleRead result results).Ensures (Within length) Over := by
  obtain ⟨channel, hchannel, hfd⟩ := hopen
  refine (onData_quiet (fun conn => conn.RecvInfo_.recvInUse_ = false)
    (Tcp.handleRead_over hrequest hchannel hfd hquiet)).mono (fun _ he => he) ?_
  rintro t ⟨hcontrol, hidle⟩
  exact ⟨hidle, hcontrol ▸ hforeign⟩

/-- The connection of the entity finds the next chunk. -/
theorem handleReadControl_chunk (h : Receiving stored sent s)
    (hidle : s.data.RecvInfo_.recvInUse_ = false)
    (hrequest : s.control.RecvInfo_ =
      (Tcp.onRecv.register (request sent) s.control).RecvInfo_) :
    s.handleReadControl (.data (b :: bytes)) results =
        (Traced.tell ((Tcp.delivery (request sent) (b :: bytes)).map .control) >>= fun _ =>
          recvDataCallback results
            (arrived sent (b :: bytes) (Tcp.handleRead.used s.control) s)) ∧
      Holding stored sent (b :: bytes).length
        (arrived sent (b :: bytes) (Tcp.handleRead.used s.control) s) := by
  obtain ⟨channel, hchannel, hfd⟩ := h.control
  refine ⟨onControl_delivery (Tcp.handleRead_data hrequest hchannel hfd
    (List.cons_ne_nil b bytes)), ?_⟩
  exact ⟨⟨h.temp_eq, h.ints_eq, h.recvBuf_eq, h.dataLength_eq, channel, hchannel, hfd⟩, rfl,
    Nat.succ_ne_zero _, hidle, foreign_of_idle rfl⟩

/-- The connection of the entity finds nothing, and the receive is over. -/
theorem handleReadControl_ends (h : Receiving stored sent s)
    (hidle : s.data.RecvInfo_.recvInUse_ = false)
    (hrequest : s.control.RecvInfo_ =
      (Tcp.onRecv.register (request sent) s.control).RecvInfo_)
    (hquiet : ∀ b bytes, result ≠ .data (b :: bytes)) :
    (s.handleReadControl result results).Ensures (Within length) Over := by
  obtain ⟨channel, hchannel, hfd⟩ := h.control
  refine (onControl_quiet (fun conn => conn.RecvInfo_.recvInUse_ = false)
    (Tcp.handleRead_over hrequest hchannel hfd hquiet)).mono (fun _ he => he) ?_
  rintro t ⟨hdata, hused⟩
  exact ⟨hdata ▸ hidle, foreign_of_idle hused⟩

/-- The request of a receive that waits at the connection of the entity is its own. -/
theorem ours_of_request (h : Receiving stored sent s) (hpos : sent ≠ 0)
    (hrequest : s.control.RecvInfo_ =
      (Tcp.onRecv.register (request sent) s.control).RecvInfo_) : Ours s := by
  rw [Ours, h.recvBuf_eq]
  exact ⟨fun heq => hpos (Option.some.inj heq), congrArg some hrequest.symm⟩

/-- What the calls bring goes into the block exactly when the chunks that are taken in fit with what
has come in before. -/
theorem run_inBlock_iff (ops : List Op) :
    ∀ {stage : Stage} {sent : Nat} {s : RecvData}, At stored stage sent s →
      (sent : Int) ≤ length → (InBlock length (ops.foldlM turn s).log ↔
        (sent + (taken stored sent (incoming stage ops)).sum : Int) ≤ length) := by
  -- where nothing more comes in, what has come in is all
  have hnone : ∀ {sent : Nat} {x : Traced Event RecvData}, (sent : Int) ≤ length →
      InBlock length x.log → (InBlock length x.log ↔
        (sent + (taken stored sent []).sum : Int) ≤ length) := by
    intro sent x hsent hx
    exact ⟨fun _ => by simpa [taken] using hsent, fun _ => hx⟩
  induction ops with
  | nil =>
      intro stage sent s _ hsent
      have hincoming : incoming stage [] = [] := by cases stage <;> rfl
      rw [hincoming]
      exact hnone hsent fun e he => absurd he List.not_mem_nil
  | cons op ops ih =>
      -- a call that finds nothing is the last one of the receive
      have hquiet : ∀ {x : Traced Event RecvData}, x.Ensures (Within length) Over →
          InBlock length (x >>= ops.foldlM turn).log := by
        intro x hx
        rw [InBlock, Traced.forall_log_bind]
        exact ⟨hx.acts, fun es t ht => (hx.value t ht.2).inBlock ops⟩
      intro stage sent s hat hsent
      cases hat with
      | ended hover =>
          rw [incoming_ended]
          exact hnone hsent (hover.inBlock _)
      | data h hopen hrequest hforeign =>
          cases op with
          | control result results =>
              have hturn : turn s (.control result results) = pure s := if_neg (not_ours hforeign)
              rw [List.foldlM_cons, hturn, Traced.pure_bind]
              exact ih (.data h hopen hrequest hforeign) hsent
          | data result results =>
              rw [List.foldlM_cons, incoming]
              by_cases hresult : ∀ b bytes, result ≠ .data (b :: bytes)
              · rw [(behind_of_quiet hresult).1, called_of_quiet hresult, incoming_ended]
                exact hnone hsent (hquiet (handleRead_ends hopen hrequest hforeign hresult))
              · push Not at hresult
                obtain ⟨b, bytes, rfl⟩ := hresult
                obtain ⟨heq, hholding⟩ := @handleRead_chunk stored s results b bytes h hopen
                  hrequest hforeign
                have hturn : turn s (.data (.data (b :: bytes)) results) = _ := heq
                rw [hturn, Traced.bind_assoc, delivery_inBlock_iff (.inl rfl)]
                exact (recvDataCallback_follows results hholding).bind
                  (fun hstage => by rw [called, hstage, incoming_ended])
                  (fun t ht => ht.inBlock ops) fun t ht hfits => ih ht hfits
      | control h hpos hidle hrequest =>
          cases op with
          | data result results =>
              have hturn : turn s (.data result results) = pure s :=
                handleRead_idle hidle result results
              rw [List.foldlM_cons, hturn, Traced.pure_bind]
              exact ih (.control h hpos hidle hrequest) hsent
          | control result results =>
              have hturn : turn s (.control result results) = s.handleReadControl result results :=
                if_pos (ours_of_request h hpos hrequest)
              rw [List.foldlM_cons, incoming, hturn]
              by_cases hresult : ∀ b bytes, result ≠ .data (b :: bytes)
              · rw [(behind_of_quiet hresult).1, called_of_quiet hresult, incoming_ended]
                exact hnone hsent (hquiet (handleReadControl_ends h hidle hrequest hresult))
              · push Not at hresult
                obtain ⟨b, bytes, rfl⟩ := hresult
                obtain ⟨heq, hholding⟩ := @handleReadControl_chunk stored sent s results b bytes h
                  hidle hrequest
                rw [heq, Traced.bind_assoc, delivery_inBlock_iff (.inr rfl)]
                exact (recvDataCallback_follows results hholding).bind
                  (fun hstage => by rw [called, hstage, incoming_ended])
                  (fun t ht => ht.inBlock ops) fun t ht hfits => ih ht hfits

end Run

/-! ### The agreement -/

section Agree
variable {msg : ControlMsg} {client : DTPClient} {fd : Int} {control : TcpConnection}
  {mem : Memory} {ints : Int → Int} {first : RecvResult} {results : List RecvResult}

/-- The error handler of the data connection changes nothing that is received. -/
theorem At.setError {stored : Int → Int} {stage : Stage} {sent : Nat} {s : RecvData}
    (h : At stored stage sent s) :
    At stored stage sent { s with data := agreeRecvData.setError s.data } := by
  cases h with
  | data hreceiving hopen hrequest hforeign =>
      obtain ⟨channel, hchannel, hfd⟩ := hopen
      refine .data ⟨hreceiving.temp_eq, hreceiving.ints_eq, hreceiving.recvBuf_eq,
        hreceiving.dataLength_eq, hreceiving.control⟩
        ⟨{ channel with errorHandle_ := some 0, errParam_ := 0 }, ?_, hfd⟩ hrequest hforeign
      show s.data.pTcpChannel_.map _ = _
      rw [hchannel]
      rfl
  | control hreceiving hpos hidle hrequest =>
      exact .control ⟨hreceiving.temp_eq, hreceiving.ints_eq, hreceiving.recvBuf_eq,
        hreceiving.dataLength_eq, hreceiving.control⟩ hpos hidle hrequest
  | ended hover => exact .ended ⟨hover.idle, hover.foreign⟩

/-- Nothing is there yet at the agreement. -/
theorem asking_again (hfd : 0 ≤ fd) (hcontrol : Open control) (hforeign : Foreign control)
    (cb : RecvData → Traced Event RecvData) :
    ∃ es t, ((asking msg client { pTcpChannel_ := some { fd := fd } } control mem ints).onData
        (Tcp.onRecv (request 0) (.fail EAGAIN) { pTcpChannel_ := some { fd := fd } }) cb).Yields es
          t ∧ InBlock msg.length es ∧ At (Function.update ints 0 msg.length) .data 0 t := by
  obtain ⟨hlog, hvalue⟩ : (Tcp.onRecv (request 0) (.fail EAGAIN)
      { pTcpChannel_ := some { fd := fd } }).Yields _ _ := Tcp.onRecv_again rfl (.inl rfl)
  simp only [onData, hvalue, hlog, List.foldlM_cons, List.foldlM_nil, perform, Traced.bind_pure]
  refine ⟨_, _, (Traced.tell_pure_yields ..).mpr ⟨rfl, rfl⟩,
    List.forall_mem_singleton.mpr trivial, ?_⟩
  exact .data ⟨rfl, rfl, rfl, rfl, hcontrol⟩ ⟨_, rfl, hfd⟩ rfl hforeign

/-- Nothing comes in at the agreement or later. -/
theorem asking_ends (hforeign : Foreign control) (hresult : ∀ b bytes, first ≠ .data (b :: bytes))
    (hagain : first ≠ .fail EAGAIN) (cb : RecvData → Traced Event RecvData) :
    ((asking msg client { pTcpChannel_ := some { fd := fd } } control mem ints).onData
      (Tcp.onRecv (request 0) first { pTcpChannel_ := some { fd := fd } }) cb).Ensures
        (Within msg.length) Over := by
  have hrecv : (Tcp.onRecv (request 0) first { pTcpChannel_ := some { fd := fd } }).Ensures
      Tcp.Act.Quiet fun p => p.2.RecvInfo_.recvInUse_ = false := by
    refine (Tcp.onRecv_over rfl hresult hagain).mono (fun _ he => he) ?_
    rintro p (heq | hidle)
    · rw [heq]
    · exact hidle
  refine (onData_quiet (fun conn => conn.RecvInfo_.recvInUse_ = false) hrecv).mono
    (fun _ he => he) ?_
  rintro t ⟨hkept, hidle⟩
  exact ⟨hidle, hkept ▸ hforeign⟩

theorem agreed_of_quiet (hresult : ∀ b bytes, first ≠ .data (b :: bytes))
    (hagain : first ≠ .fail EAGAIN) : agreed results first = .ended := by
  cases first with
  | fail errno => exact if_neg fun herrno => hagain (congrArg RecvResult.fail herrno)
  | data bytes =>
      cases bytes with
      | nil => rfl
      | cons b bytes => exact absurd rfl (hresult b bytes)

variable (client mem ints first results) in
/-- Over the whole transfer, what is received goes into the block exactly when the chunks that are
taken in have together no more bytes than were offered. -/
theorem receives_inBlock_iff (hfd : 0 ≤ fd) (hcontrol : Open control) (hforeign : Foreign control)
    (ops : List Op) :
    InBlock msg.length (transfer msg client fd control mem ints first results ops).log ↔
      (0 ≤ msg.length → ((taken (Function.update ints 0 msg.length) 0
        (sizes first results ops)).sum : Int) ≤ msg.length) := by
  by_cases hlength : 0 ≤ msg.length
  swap
  · rw [transfer, agreeRecvData, if_pos (Int.not_le.mp hlength), Traced.fault_bind]
    exact ⟨fun _ h => absurd h hlength, fun _ e he => absurd he List.not_mem_nil⟩
  have hrun : ∀ {stage : Stage} {sent : Nat} {t : RecvData},
      At (Function.update ints 0 msg.length) stage sent t → (sent : Int) ≤ msg.length →
      (InBlock msg.length
          (ops.foldlM turn { t with data := agreeRecvData.setError t.data }).log ↔
        (sent + (taken (Function.update ints 0 msg.length) sent (incoming stage ops)).sum : Int) ≤
          msg.length) :=
    fun ht hsent => run_inBlock_iff ops ht.setError hsent
  have hover : ∀ t, Over t → InBlock msg.length
      (ops.foldlM turn { t with data := agreeRecvData.setError t.data }).log := by
    intro t ht
    have hset : Over { t with data := agreeRecvData.setError t.data } := ⟨ht.idle, ht.foreign⟩
    exact hset.inBlock ops
  rw [forall_prop_of_true hlength, transfer, agreeRecvData_eq hlength, Traced.bind_assoc, InBlock,
    Traced.log_tell_bind, List.forall_mem_append, List.forall_mem_singleton]
  refine (and_iff_right trivial).trans ?_
  simp only [Traced.bind_assoc, Traced.pure_bind]
  by_cases hresult : ∀ b bytes, first ≠ .data (b :: bytes)
  · rw [Traced.forall_log_bind, sizes, (behind_of_quiet hresult).1, List.nil_append]
    by_cases hagain : first = .fail EAGAIN
    · -- nothing is there yet, and the loop brings the chunks
      subst hagain
      obtain ⟨es, t, hyields, hes, hat⟩ := @asking_again msg client fd control mem ints hfd
        hcontrol hforeign (recvDataCallback results)
      have hcount := hrun hat hlength
      rw [show ((0 : Nat) : Int) = 0 from rfl, zero_add] at hcount
      refine ⟨fun h => hcount.mp (h.2 es t hyields), fun h => ⟨?_, fun fs u hu => ?_⟩⟩
      · rw [hyields.1]
        exact hes
      · obtain ⟨-, rfl⟩ := hyields.unique hu
        exact hcount.mpr h
    · have hends := @asking_ends msg client fd control mem ints first hforeign hresult hagain
        (recvDataCallback results)
      rw [agreed_of_quiet hresult hagain, incoming_ended]
      exact ⟨fun _ => hlength, fun _ => ⟨hends.acts, fun es t ht => hover t (hends.value t ht.2)⟩⟩
  · -- the first chunk is there
    push Not at hresult
    obtain ⟨b, bytes, rfl⟩ := hresult
    have hholding : Holding (Function.update ints 0 msg.length) 0 (b :: bytes).length
        (withChunk (b :: bytes) { pTcpChannel_ := some { fd := fd } }
          (asking msg client { pTcpChannel_ := some { fd := fd } } control mem ints)) :=
      ⟨⟨rfl, rfl, rfl, rfl, hcontrol⟩, rfl, Nat.succ_ne_zero _, rfl, hforeign⟩
    rw [onData_delivery (Tcp.onRecv_data rfl (List.cons_ne_nil b bytes)), Traced.bind_assoc]
    refine (delivery_inBlock_iff (.inl rfl)).trans ?_
    have hcount := (recvDataCallback_follows results hholding).bind
      (fun hstage => by rw [hstage, incoming_ended]) hover fun t ht hfits => hrun ht hfits
    refine hcount.trans ?_
    rw [show ((0 : Nat) : Int) = 0 from rfl, zero_add]
    rfl

end Agree

/-- A block of two bytes that comes in as two chunks. -/
theorem receives_inBlock_iff_two :
    Open (open_ 5) ∧ Foreign (open_ 5) ∧
      InBlock (offer [1, 2]).length (transfer (offer [1, 2]) listening 7 (open_ 5) (fun _ => 0)
        (fun _ => 0) (.data [1]) [.data [2]] []).log := by
  have hopen : Open (open_ 5) := ⟨_, rfl, by decide⟩
  have hforeign : Foreign (open_ 5) := foreign_of_idle rfl
  refine ⟨hopen, hforeign, (receives_inBlock_iff listening (fun _ => 0) (fun _ => 0) (.data [1])
    [.data [2]] (by decide) hopen hforeign []).mpr fun _ => ?_⟩
  decide

/-- A block of one byte is offered, and the peer sends two. -/
theorem surplus_overruns :
    Open (open_ 5) ∧ Foreign (open_ 5) ∧
      ¬ InBlock (offer [1]).length (transfer (offer [1]) listening 7 (open_ 5) (fun _ => 0)
        (fun _ => 0) (.data [1, 2]) [] []).log := by
  have hopen : Open (open_ 5) := ⟨_, rfl, by decide⟩
  refine ⟨hopen, foreign_of_idle rfl, fun h => ?_⟩
  -- the first act that concerns the data connection
  have hrecv := h (.data (.recv 0 MAXLINE Tcp.MSG_NOSIGNAL (.data [1, 2]))) (by decide)
  exact absurd (hrecv (by decide)) (by decide)

end Ndsl.Proofs.RecvData
