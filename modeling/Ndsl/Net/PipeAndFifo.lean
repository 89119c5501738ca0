import Ndsl.Net.UnixConnection

/-!
# `Ndsl.Net.PipeAndFifo`: sending through a pipe

`PipeAndFifo.cc`: `onSend` and `handleWrite` over the pair of sockets that `createPipe` has made.
Both keep what `send` returned in a `size_t`, so their tests for a negative result never hold, and
the error handler is never called. In `handleWrite` the `size_t` gets the result of a comparison.

A `PipeAndFifo` does what a `UnixConnection` does (`Ndsl.Net.Unix.Act`), and its `struct SInfo` is
that of a `TcpConnection`.
-/

set_option autoImplicit false

namespace Ndsl.Net.Pipe

open Ndsl.Lib
open Ndsl.Net.Tcp (MSG_NOSIGNAL IoResult Message Info)
open Ndsl.Net.Unix (Act callback)

/-- What sending uses of a `PipeAndFifo`: the descriptor of its channel, and the queue. -/
structure PipeAndFifo where
  pPipeChannel_ : Option Int := none
  qSendInfo_ : List Info := []
  deriving Repr, DecidableEq

/-- `PipeAndFifo::createPipe`, when `socketpair` and `fcntl` have worked. -/
def createPipe (fd : Int) (pipe : PipeAndFifo) : Int × PipeAndFifo :=
  (S_OK, { pipe with pPipeChannel_ := some fd })

/-- `PipeAndFifo::onSend`. An error is queued as well, with `-1` as the offset. -/
def onSend (m : Message) (n : IoResult) (pipe : PipeAndFifo) :
    Traced Act (Int × PipeAndFifo) :=
  match pipe.pPipeChannel_ with
  | none => .fault
  | some _ => do
    .tell [.io (.send m.buf 0 m.buf.length (m.flags ||| MSG_NOSIGNAL) n)]
    if toSize n.value = m.buf.length then do
      callback m.cb m.param
      return (S_OK, pipe)
    else return (S_OK, queue m n pipe)
where
  /-- The pipe with a new entry at the end of its queue. -/
  queue (m : Message) (n : IoResult) (pipe : PipeAndFifo) : PipeAndFifo :=
    { pipe with
      qSendInfo_ := pipe.qSendInfo_ ++ [
        { sendBuf_ := m.buf
          len_ := m.buf.length
          flags_ := m.flags ||| MSG_NOSIGNAL
          cb_ := m.cb
          param_ := m.param
          offset_ := toSize n.value }] }

/-- `n = send(...) > 0`, for what `send` returned. -/
def compared (n : IoResult) : Nat := if 0 < n.value then 1 else 0

/-- `PipeAndFifo::handleWrite`. -/
def handleWrite (n : IoResult) (pipe : PipeAndFifo) : Traced Act (Int × PipeAndFifo) :=
  match pipe.pPipeChannel_ with
  | none => .fault
  | some fd =>
    if fd < 0 then pure (S_FALSE, pipe)
    else
      match pipe.qSendInfo_ with
      | [] => pure (S_OK, pipe)
      | tsi :: rest => do
        .tell [.io (.send tsi.sendBuf_ tsi.offset_ tsi.rest tsi.flags_ n)]
        if compared n ≠ 0 then
          -- one byte is counted, however many were sent
          let tsi := { tsi with offset_ := (tsi.offset_ + compared n) % 2 ^ 64 }
          if tsi.len_ = tsi.offset_ then do
            callback tsi.cb_ tsi.param_
            return (S_OK, { pipe with qSendInfo_ := rest })
          else return (S_OK, { pipe with qSendInfo_ := tsi :: rest })
        else return (S_OK, pipe)

end Ndsl.Net.Pipe
