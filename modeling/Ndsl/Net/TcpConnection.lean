import Ndsl.Lib.Traced
import Ndsl.Net.Basic

/-!
# `Ndsl.Net.TcpConnection`: sending and receiving on a connection

`TcpConnection.cc`: `onSend` tries to send at once and queues what is left, `handleWrite` goes
on with the entry at the front of the queue when the socket becomes writable; `onRecv` tries to
receive at once or leaves a request for `handleRead`; `sendFile` and `sendInLoop` send a range
of a file.

Each call is a `Traced` execution. Its trace lists the system calls, with their arguments and
their results, and the calls of the user's callbacks. The result of the system call, when one
is made, is an input of the call. A callback is the last thing that a call does with the state,
so what it does in turn is the next call.

A buffer to send is the bytes the caller has put there, as many as the `len` that comes with
it. A position in it is a `size_t`, so the position before its first byte is `2 ^ 64 - 1`; an
`off_t` is kept as its 64 bits in the same way. A buffer to receive into is an address.
-/

set_option autoImplicit false

namespace Ndsl.Net.Tcp

open Ndsl.Lib

/-- `errno` when a call on a non-blocking socket would block. -/
def EAGAIN : Int := 11

/-- On Linux the same number as `EAGAIN`. -/
def EWOULDBLOCK : Int := EAGAIN

/-- `MSG_NOSIGNAL`. -/
def MSG_NOSIGNAL : Nat := 0x4000

/-- The result of `send(2)` or `sendfile(2)`: a count of bytes, or `-1` and `errno`. -/
inductive IoResult
  | count (n : Nat)
  | fail (errno : Int)
  deriving Repr, DecidableEq

/-- The value a call returns. -/
def IoResult.value : IoResult → Int
  | .count n => n
  | .fail _ => -1

/-- The result of a call that would have blocked. -/
def IoResult.again : IoResult := .fail EAGAIN

/-- The result of `recv(2)`: the bytes received, none when the peer has closed, or `-1` and
`errno`. -/
inductive RecvResult
  | data (bytes : List UInt8)
  | fail (errno : Int)
  deriving Repr, DecidableEq

/-- What a connection does. -/
inductive Act
  /-- `send` of `n` bytes of `buf` from `pos` on. -/
  | send (buf : List UInt8) (pos n flags : Nat) (result : IoResult)
  /-- `sendfile` of `n` bytes of the file `inFd` from `offset` on. -/
  | sendfile (inFd : Int) (offset n : Nat) (result : IoResult)
  /-- `recv` of at most `n` bytes to the address `buf`. -/
  | recv (buf n flags : Nat) (result : RecvResult)
  /-- `*len = value`. -/
  | setLen (len value : Nat)
  /-- `cb(param)`. -/
  | callback (cb param : Nat)
  /-- `errorHandle_(errParam_, errno)`. -/
  | errorHandle (handler errParam_ : Nat) (errno : Int)
  deriving Repr, DecidableEq

/-- `cb(param)`, unless `cb` is `NULL`. -/
def callback (cb : Option Nat) (param : Nat) : Traced Act Unit :=
  match cb with
  | none => pure ()
  | some cb => .tell [.callback cb param]

/-- What the connection uses of its `TcpChannel`. -/
structure TcpChannel where
  fd : Int
  errorHandle_ : Option Nat := none
  errParam_ : Nat := 0
  deriving Repr, DecidableEq

/-- `errorHandle_(errParam_, errno)`, unless `errorHandle_` is `NULL`. -/
def TcpChannel.onErrno (channel : TcpChannel) (errno : Int) : Traced Act Unit :=
  match channel.errorHandle_ with
  | none => pure ()
  | some handler => .tell [.errorHandle handler channel.errParam_ errno]

/-- `struct SInfo`, as the send queue uses it. `len_` is what the pointer points to. -/
structure Info where
  sendBuf_ : List UInt8
  len_ : Nat
  flags_ : Nat
  cb_ : Option Nat
  param_ : Nat
  offset_ : Nat
  deriving Repr, DecidableEq

/-- `struct SendfileInfo`. -/
structure SendfileInfo where
  inFd_ : Int
  offset_ : Nat
  length_ : Nat
  cb_ : Option Nat
  param_ : Nat
  deriving Repr, DecidableEq

/-- `struct SInfo`, as `onRecv` and `handleRead` use it. -/
structure RecvInfo where
  readBuf_ : Option Nat := none
  len_ : Nat := 0
  flags_ : Nat := 0
  cb_ : Option Nat := none
  param_ : Nat := 0
  recvInUse_ : Bool := false
  deriving Repr, DecidableEq

/-- A `TcpConnection`. The front of a queue is the head of its list. -/
structure TcpConnection where
  pTcpChannel_ : Option TcpChannel := none
  qSendInfo_ : List Info := []
  RecvInfo_ : RecvInfo := {}
  qSendfileInfo_ : List SendfileInfo := []
  deriving Repr, DecidableEq

/-! ### Messages -/

/-- The arguments of `onSend`. -/
structure Message where
  buf : List UInt8
  flags : Nat
  cb : Option Nat
  param : Nat
  deriving Repr, DecidableEq

/-- `TcpConnection::onSend`. What `send` returned goes into the entry's offset as a `size_t`,
also when it is `-1`. -/
def onSend (m : Message) (n : IoResult) (conn : TcpConnection) :
    Traced Act (Int × TcpConnection) :=
  match conn.pTcpChannel_ with
  | none => pure (S_FALSE, conn)
  | some channel => do
    .tell [.send m.buf 0 m.buf.length (m.flags ||| MSG_NOSIGNAL) n]
    match n with
    | .fail errno =>
      if errno ≠ EAGAIN ∧ errno ≠ EWOULDBLOCK then do
        channel.onErrno errno
        return (S_FALSE, conn)
      -- `-1` is queued as the offset of the entry
      else return (S_OK, queue m n conn)
    | .count k =>
      if k = m.buf.length then do
        callback m.cb m.param
        return (S_OK, conn)
      else return (S_OK, queue m n conn)
where
  /-- The connection with a new entry at the end of its queue. -/
  queue (m : Message) (n : IoResult) (conn : TcpConnection) : TcpConnection :=
    { conn with
      qSendInfo_ := conn.qSendInfo_ ++ [
        { sendBuf_ := m.buf
          len_ := m.buf.length
          flags_ := m.flags ||| MSG_NOSIGNAL
          cb_ := m.cb
          param_ := m.param
          offset_ := toSize n.value }] }

/-- `*len_ - offset_`. -/
def Info.rest (tsi : Info) : Nat := toSize ((tsi.len_ : Int) - tsi.offset_)

/-- `TcpConnection::handleWrite`. Every negative result is taken for an error. -/
def handleWrite (n : IoResult) (conn : TcpConnection) : Traced Act (Int × TcpConnection) :=
  match conn.pTcpChannel_, conn.qSendInfo_ with
  | _, [] => pure (S_OK, conn)
  | none, _ :: _ => .fault
  | some channel, tsi :: rest =>
    if channel.fd < 0 then pure (-1, conn)
    else do
      .tell [.send tsi.sendBuf_ tsi.offset_ tsi.rest tsi.flags_ n]
      match n with
      | .fail errno => do
        -- the entry is dropped, also when the socket would only have blocked
        channel.onErrno errno
        return (S_FALSE, { conn with qSendInfo_ := rest })
      | .count k =>
        if 0 < k then
          if (tsi.offset_ + k) % 2 ^ 64 = tsi.len_ then do
            callback tsi.cb_ tsi.param_
            return (S_OK, { conn with qSendInfo_ := rest })
          else
            let tsi := { tsi with offset_ := (tsi.offset_ + k) % 2 ^ 64 }
            return (S_OK, { conn with qSendInfo_ := tsi :: rest })
        -- zero bytes
        else return (S_OK, conn)

/-! ### Receiving -/

/-- The arguments of `onRecv`. The flags have neither `MSG_PEEK` nor `MSG_TRUNC`: `recv` takes the
bytes that it returns, and stores them. -/
structure Request where
  buf : Nat
  len : Nat
  flags : Nat
  cb : Option Nat
  param : Nat
  deriving Repr, DecidableEq

/-- `TcpConnection::onRecv`. The request stays with the connection only when there is nothing
to receive yet. -/
def onRecv (r : Request) (n : RecvResult) (conn : TcpConnection) :
    Traced Act (Int × TcpConnection) :=
  match conn.pTcpChannel_ with
  | none => pure (S_OK, register r conn)
  | some channel => do
    .tell [.recv r.buf MAXLINE (r.flags ||| MSG_NOSIGNAL) n]
    match n with
    | .fail errno =>
      -- nothing is there yet
      if errno = EAGAIN ∨ errno = EWOULDBLOCK then return (S_OK, register r conn)
      else do
        .tell [.setLen r.len (toSize (-1))]
        channel.onErrno errno
        return (S_FALSE, conn)
    | .data [] => do
      -- the peer has closed the connection, and the callback is not called
      .tell [.setLen r.len 0]
      return (S_FALSE, { conn with RecvInfo_ := { conn.RecvInfo_ with recvInUse_ := false } })
    | .data (b :: bytes) => do
      .tell [.setLen r.len (b :: bytes).length]
      callback r.cb r.param
      return (S_OK, conn)
where
  /-- The connection with the request left for `handleRead`. -/
  register (r : Request) (conn : TcpConnection) : TcpConnection :=
    { conn with
      RecvInfo_ :=
        { readBuf_ := some r.buf
          len_ := r.len
          flags_ := r.flags ||| MSG_NOSIGNAL
          cb_ := r.cb
          param_ := r.param
          recvInUse_ := true } }

/-- `TcpConnection::handleRead`. -/
def handleRead (n : RecvResult) (conn : TcpConnection) : Traced Act (Int × TcpConnection) :=
  if conn.RecvInfo_.recvInUse_ then
    match conn.pTcpChannel_ with
    | none => .fault
    | some channel =>
      if channel.fd < 0 then pure (S_FALSE, conn)
      else
        match conn.RecvInfo_.readBuf_ with
        | none => pure (S_OK, conn)
        | some buf => do
          .tell [.recv buf MAXLINE conn.RecvInfo_.flags_ n]
          match n with
          | .fail errno => do
            -- the request is over, also when nothing was there to receive
            .tell [.setLen conn.RecvInfo_.len_ (toSize (-1))]
            channel.onErrno errno
            return (S_FALSE, used conn)
          | .data [] => do
            .tell [.setLen conn.RecvInfo_.len_ 0]
            return (S_OK, used conn)
          | .data (b :: bytes) => do
            .tell [.setLen conn.RecvInfo_.len_ (b :: bytes).length]
            callback conn.RecvInfo_.cb_ conn.RecvInfo_.param_
            return (S_OK, used conn)
  else pure (S_OK, conn)
where
  /-- The connection once its request has been served. -/
  used (conn : TcpConnection) : TcpConnection :=
    { conn with RecvInfo_ := { conn.RecvInfo_ with recvInUse_ := false } }

section Receive
variable {conn : TcpConnection} {channel : TcpChannel} {bytes : List UInt8}

/-- What a connection does when bytes have come in for a request. -/
def delivery (r : Request) (bytes : List UInt8) : List Act :=
  [.recv r.buf MAXLINE (r.flags ||| MSG_NOSIGNAL) (.data bytes), .setLen r.len bytes.length] ++
    (callback r.cb r.param).log

/-- Bytes that are there when `onRecv` asks for them. -/
theorem onRecv_data {r : Request} (hchannel : conn.pTcpChannel_ = some channel)
    (hbytes : bytes ≠ []) :
    (onRecv r (.data bytes) conn).Yields (delivery r bytes) (S_OK, conn) := by
  obtain ⟨b, bytes, rfl⟩ := List.exists_cons_of_ne_nil hbytes
  simp only [onRecv, hchannel, delivery]
  cases r.cb with
  | none => exact ⟨rfl, rfl⟩
  | some cb => exact ⟨rfl, rfl⟩

/-- Nothing is there yet. -/
theorem onRecv_again {r : Request} {errno : Int} (hchannel : conn.pTcpChannel_ = some channel)
    (herrno : errno = EAGAIN ∨ errno = EWOULDBLOCK) :
    (onRecv r (.fail errno) conn).Yields
      [.recv r.buf MAXLINE (r.flags ||| MSG_NOSIGNAL) (.fail errno)]
      (S_OK, onRecv.register r conn) := by
  simp only [onRecv, hchannel, if_pos herrno]
  exact ⟨rfl, rfl⟩

/-- Bytes for a request that waits for them. -/
theorem handleRead_data {r : Request}
    (hrequest : conn.RecvInfo_ = (onRecv.register r conn).RecvInfo_)
    (hchannel : conn.pTcpChannel_ = some channel) (hfd : 0 ≤ channel.fd) (hbytes : bytes ≠ []) :
    (handleRead (.data bytes) conn).Yields (delivery r bytes) (S_OK, handleRead.used conn) := by
  obtain ⟨b, bytes, rfl⟩ := List.exists_cons_of_ne_nil hbytes
  simp only [handleRead, hrequest, hchannel, onRecv.register, if_true,
    if_neg (Int.not_lt.mpr hfd), delivery]
  cases r.cb with
  | none => exact ⟨rfl, rfl⟩
  | some cb => exact ⟨rfl, rfl⟩

/-- An act that neither brings bytes nor calls the user. -/
def Act.Quiet : Act → Prop
  | .recv _ _ _ (.data (_ :: _)) => False
  | .callback _ _ => False
  | _ => True

/-- An error is reported to the channel, and to nobody else. -/
theorem onErrno_ensures {errno : Int} {post : Unit → Prop} (hpost : post ()) :
    (channel.onErrno errno).Ensures Act.Quiet post := by
  unfold TcpChannel.onErrno
  split
  · exact .pure hpost
  · exact ⟨List.forall_mem_singleton.mpr trivial, fun _ _ => hpost⟩

theorem quiet_recv {result : RecvResult} (hresult : ∀ b bytes, result ≠ .data (b :: bytes))
    (buf n flags : Nat) : (Act.recv buf n flags result).Quiet := by
  cases result with
  | fail errno => trivial
  | data bytes =>
      cases bytes with
      | nil => trivial
      | cons b bytes => exact absurd rfl (hresult b bytes)

/-- A `recv` that brings nothing, and after which nothing is waited for. -/
theorem onRecv_over {r : Request} {result : RecvResult}
    (hchannel : conn.pTcpChannel_ = some channel)
    (hresult : ∀ b bytes, result ≠ .data (b :: bytes)) (hover : result ≠ .fail EAGAIN) :
    (onRecv r result conn).Ensures Act.Quiet fun p =>
      p.2.RecvInfo_ = conn.RecvInfo_ ∨ p.2.RecvInfo_.recvInUse_ = false := by
  simp only [onRecv, hchannel]
  refine .tell_bind (List.forall_mem_singleton.mpr (quiet_recv hresult _ _ _)) ?_
  cases result with
  | fail errno =>
      have herrno : ¬ (errno = EAGAIN ∨ errno = EWOULDBLOCK) := by
        rintro (rfl | rfl) <;> exact hover rfl
      dsimp only
      rw [if_neg herrno]
      refine .tell_bind (List.forall_mem_singleton.mpr trivial) ?_
      exact (onErrno_ensures trivial).bind fun _ (_ : True) => .pure (.inl rfl)
  | data bytes =>
      cases bytes with
      | nil => exact .tell_bind (List.forall_mem_singleton.mpr trivial) (.pure (.inr rfl))
      | cons b bytes => exact absurd rfl (hresult b bytes)

/-- A call that finds nothing for a request uses it up. -/
theorem handleRead_over {r : Request} {result : RecvResult}
    (hrequest : conn.RecvInfo_ = (onRecv.register r conn).RecvInfo_)
    (hchannel : conn.pTcpChannel_ = some channel) (hfd : 0 ≤ channel.fd)
    (hresult : ∀ b bytes, result ≠ .data (b :: bytes)) :
    (handleRead result conn).Ensures Act.Quiet fun p => p.2.RecvInfo_.recvInUse_ = false := by
  simp only [handleRead, hrequest, hchannel, onRecv.register, if_true,
    if_neg (Int.not_lt.mpr hfd)]
  refine .tell_bind (List.forall_mem_singleton.mpr (quiet_recv hresult _ _ _)) ?_
  cases result with
  | fail errno =>
      refine .tell_bind (List.forall_mem_singleton.mpr trivial) ?_
      exact (onErrno_ensures trivial).bind fun _ (_ : True) => .pure rfl
  | data bytes =>
      cases bytes with
      | nil => exact .tell_bind (List.forall_mem_singleton.mpr trivial) (.pure rfl)
      | cons b bytes => exact absurd rfl (hresult b bytes)

/-- Without a request nothing is received. -/
theorem handleRead_idle {result : RecvResult} (hinUse : conn.RecvInfo_.recvInUse_ = false) :
    (handleRead result conn).Yields [] (S_OK, conn) := by
  simp only [handleRead, hinUse, Bool.false_eq_true, if_false]
  exact ⟨rfl, rfl⟩

end Receive

/-! ### Files -/

/-- `TcpConnection::sendFile` on an open file, which has the whole range. The result is kept
in a `size_t`, so the test for an error never holds. `sendfile` has moved the local `offset`
by the count it returned when the code adds the count. -/
def sendFile (inFd : Int) (offset length : Nat) (cb : Option Nat) (param : Nat)
    (result : IoResult) (conn : TcpConnection) : Traced Act (Int × TcpConnection) :=
  match conn.pTcpChannel_ with
  | none => .fault
  | some channel => do
    .tell [.sendfile inFd offset length result]
    let n := toSize result.value
    let offset := moved offset result
    if n < 0 then do
      channel.onErrno (errnoOf result)
      return (S_FALSE, conn)
    else if n < length then
      let stat : SendfileInfo :=
        { inFd_ := inFd
          offset_ := (offset + n) % 2 ^ 64
          length_ := length - n
          cb_ := cb
          param_ := param }
      return (S_OK, { conn with qSendfileInfo_ := conn.qSendfileInfo_ ++ [stat] })
    else do
      callback cb param
      return (S_OK, conn)
where
  /-- The offset argument after the call. -/
  moved (offset : Nat) : IoResult → Nat
    | .count n => offset + n
    | .fail _ => offset
  /-- `errno` after the call. -/
  errnoOf : IoResult → Int
    | .count _ => 0
    | .fail errno => errno

/-- `TcpConnection::sendInLoop`. -/
def sendInLoop (result : IoResult) (conn : TcpConnection) : Traced Act (Int × TcpConnection) :=
  match conn.pTcpChannel_, conn.qSendfileInfo_ with
  | _, [] => pure (S_OK, conn)
  | none, _ :: _ => .fault
  | some channel, tsi :: rest => do
    .tell [.sendfile tsi.inFd_ tsi.offset_ tsi.length_ result]
    let n := toSize result.value
    let offset := sendFile.moved tsi.offset_ result
    if n < 0 then do
      channel.onErrno (sendFile.errnoOf result)
      return (S_FALSE, { conn with qSendfileInfo_ := rest })
    else if n = 0 then
      return (S_OK, { conn with qSendfileInfo_ := { tsi with offset_ := offset } :: rest })
    else if n = tsi.length_ then do
      callback tsi.cb_ tsi.param_
      return (S_OK, { conn with qSendfileInfo_ := rest })
    else
      let tsi :=
        { tsi with
          offset_ := (offset + n) % 2 ^ 64
          length_ := toSize ((tsi.length_ : Int) - n) }
      return (S_OK, { conn with qSendfileInfo_ := tsi :: rest })

end Ndsl.Net.Tcp
