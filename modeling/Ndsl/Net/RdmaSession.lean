import Ndsl.Net.RecvData
import Ndsl.Net.Session

/-!
# `Ndsl.Net.RdmaSession`: data blocks over RDMA

`DTP.cc`: `sendData` and `agreeRecvData` can use an `RdmaAcceptor`, an `RdmaConnection` and an
`RdmaClient` in place of the ones of TCP. The callbacks are the same, but they are called
otherwise. The connections post work requests, and call back when the device reports that one is
completed.

What the device does is an input of the calls. A session has the number of the requests that were
posted and not reported yet.
-/

set_option autoImplicit false

namespace Ndsl.Net.Dtp

open Ndsl.Lib
open Ndsl.Net.Tcp (EAGAIN TcpConnection)

/-! ### Sending -/

/-- A session of `sendData` over RDMA. The listener and the connection of the session are those of
RDMA. -/
structure RdmaSend where
  session : Session := {}
  /-- The length of the `sendHandlerQueue`. -/
  posted : Nat := 0
  deriving Repr, DecidableEq

namespace RdmaSend

/-- A step of a session: the loop finds the listener or the connection ready, or calls it; the
timer fires. The listener reports that a peer wants to connect, and `posts` says whether `onSend`
could post its request; the connection reports a number of completions. -/
inductive Action
  | ready
  | connReady
  | handleRead (posts : Bool)
  | handleSend (completions : Nat)
  | stopListenOfData
  deriving Repr, DecidableEq

/-- The session, changed. -/
def onSession (s : RdmaSend) (x : Traced Session.Event Session) : Traced Session.Event RdmaSend :=
  x >>= fun session => pure { s with session := session }

/-- `RdmaAcceptor::handleRead`, with `acceptorCallbackOfSendData` and `RdmaConnection::onSend`. It
leaves its registration valid. -/
def handleRead (posts : Bool) (s : RdmaSend) : Traced Session.Event RdmaSend := do
  .tell [Session.use .acceptorCallbackOfSendData .mgr]
  return {
    session := { s.session with connEnrolled := true }
    posted := s.posted + if posts then 1 else 0 }

/-- `RdmaConnection::handleSend`. It goes on with the next completion when the callback has
returned. -/
def handleSend : Nat → RdmaSend → Traced Session.Event RdmaSend
  | 0, s => pure s
  | completions + 1, s => do
    let s ← { s with posted := s.posted - 1 }.onSession s.session.sendDataCallback
    s.handleSend completions

/-- One step. -/
def step (s : RdmaSend) : Action → Traced Session.Event RdmaSend
  | .ready => pure { s with session.acceptorReady := true }
  | .connReady => pure { s with session.connReady := true }
  | .handleRead posts => { s with session.acceptorReady := false }.handleRead posts
  | .handleSend completions =>
    { s with session.connReady := false }.handleSend completions
  | .stopListenOfData => s.onSession s.session.stopListenOfData

/-- The steps that can be taken. -/
def Possible (s : RdmaSend) : Action → Prop
  | .ready => s.session.acceptorEnrolled = true
  | .connReady => s.session.connEnrolled = true
  | .handleRead _ => s.session.acceptorReady = true
  | .handleSend completions => s.session.connReady = true ∧ completions ≤ s.posted
  | .stopListenOfData => s.session.timer = true

end RdmaSend

/-! ### Receiving -/

/-- The receive of a data block over RDMA. The `temp_` of its record is the `RdmaClient`. -/
structure RdmaRecv where
  receive : RecvData
  /-- The client has not connected yet. -/
  connecting : Bool := true
  /-- The length of the `recvHandlerQueue`. -/
  posted : Nat := 0

namespace RdmaRecv

/-- `DTP::agreeRecvData` for an offer that was made over RDMA. -/
def agreeRecvData (msg : ControlMsg) (client : DTPClient) (mem : Memory) (ints : Int → Int) :
    Traced RecvData.Event RdmaRecv :=
  -- `new char[length]` throws
  if msg.length < 0 then .fault
  else do
    .tell [.getEntityConnection]
    return {
      receive :=
        { info :=
            { recvBuf_ := some 0
              dataSize_ := msg.length
              dataLength_ := some 0
              checkSum_ := UInt16.ofNat msg.crcCheckSum
              dataId_ := msg.dataId
              temp_ := true }
          client := client
          mem := mem.write 0 (List.replicate msg.length.toNat 0)
          bufLen := msg.length.toNat
          ints := Function.update ints 0 msg.length
          data := {}
          control := {} } }

/-- A step of the receive: the client has connected, and `posts` says whether the `onRecv` of
`recvMessage` could post its request; the connection reports the completions of requests, with the
bytes that came in. -/
inductive Action
  | recvMessage (posts : Bool)
  | handleRecv (completions : List (List UInt8))
  deriving Repr, DecidableEq

/-- `recvDataCallback` of a receive whose `temp_` is set, with the bytes that came in. `*bufLen_`
stays what it was. -/
def completed (bytes : List UInt8) (receive : RecvData) : Traced RecvData.Event RecvData :=
  { receive with
    info := { receive.info with temp_ := true }
    mem := receive.mem.write 0 bytes }.callback (.fail EAGAIN) pure

/-- `RdmaConnection::handleRecv`. -/
def handleRecv : List (List UInt8) → RdmaRecv → Traced RecvData.Event RdmaRecv
  | [], s => pure s
  | bytes :: completions, s => do
    let receive ← completed bytes s.receive
    { s with receive := receive, posted := s.posted - 1 }.handleRecv completions

/-- One step. -/
def step (s : RdmaRecv) : Action → Traced RecvData.Event RdmaRecv
  | .recvMessage posts =>
    pure { s with connecting := false, posted := s.posted + if posts then 1 else 0 }
  | .handleRecv completions => s.handleRecv completions

/-- The steps that can be taken. -/
def Possible (s : RdmaRecv) : Action → Prop
  | .recvMessage _ => s.connecting = true
  | .handleRecv completions => completions.length ≤ s.posted

end RdmaRecv

end Ndsl.Net.Dtp
