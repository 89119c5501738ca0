import Ndsl.Lib.Bytes
import Ndsl.Lib.Traced
import Ndsl.Net.Basic

/-!
# `Ndsl.Net.Multiplexer`: framing and dispatch

`Multiplexer.cc`: `sendMessage` frames a payload, and `dispatch` takes the messages out of the
bytes that one read of the connection brought. What a message needs that has not arrived is
left in the connection's `incompleteBuf` for the next call.

One call of `dispatch` is a `Traced` execution. Its trace lists every access to the receive
buffer, to the header and to the payload block, each before it is made, every call of `solve`
and every call of a client's `dataCallback_`. It stops where the C++ code has left its memory:
a copy past a buffer, a `NULL` string, the entry behind the end of a map.

Three things are inputs because the source does not fix them. `Env` holds the registered
clients and whether `calloc(n)` happens to leave a zero behind its `n` bytes; `Call.len0` is
what the uninitialised local `len` holds when the call begins.
-/

set_option autoImplicit false

namespace Ndsl.Net.Multiplexer

open Ndsl.Lib

/-- `sizeof(struct Message)`. -/
def msgSize : Nat := 8

/-- The flag `dispatch` passes to a `dataCallback_`. -/
def RECVDATAFLAG : Int := 3

/-- What a call of `dispatch` does to the memory and to the rest of the program. -/
inductive Act
  /-- Read `n` bytes of `info->buf` from `pos` on. -/
  | readRecv (pos n : Nat)
  /-- Write `n` bytes of `icbuf->head` from `pos` on. -/
  | writeHead (pos n : Nat)
  /-- Write `n` bytes from `pos` on of `icbuf->buf`, a block of `size` bytes. -/
  | writeBuf (pos n size : Nat)
  /-- Read a block of `size` bytes as a string, up to and including position `stop`. -/
  | readString (stop size : Nat)
  /-- Read a string at `NULL`. -/
  | readNull
  /-- Read the entry behind the end of a map. -/
  | readEnd
  /-- `solve` with the string it found. -/
  | solve (payload : List UInt8)
  /-- `dataCallback_(flag, data, param)`, with what lies behind `data`. -/
  | dataCallback (cb : Nat) (flag : Int) (data : List UInt8) (param : Nat)
  deriving Repr, DecidableEq

/-- What `dispatch` uses of a `DTPClient`. A `NULL` callback is `none`. -/
structure DTPClient where
  dataCallback_ : Option Nat
  dataParam_ : Nat
  deriving Repr, DecidableEq

/-- An `Asynclo *`. -/
abbrev Conn := Nat

/-- What surrounds the calls of `dispatch` on one connection. -/
structure Env where
  connMp_ : Conn → Option (Int → Option DTPClient)
  conn : Conn
  /-- The byte right behind a block of this size is a zero. -/
  slack : Nat → Bool

/-- `struct incompleteBuf`. `head` is the first `headSize` bytes of the source's `head`. -/
structure IncompleteBuf where
  head : List UInt8 := []
  buf : Option (List UInt8) := none
  bufSize : Nat := 0
  deriving Repr, DecidableEq

/-- The input of one call: the bytes that were received into `info->buf`, and the initial
value of `len`. -/
structure Call where
  recv : List UInt8
  len0 : Int
  deriving Repr, DecidableEq

/-- The variables of the loop. -/
structure Loop where
  icbuf : IncompleteBuf
  len : Int
  offset : Nat
  deriving Repr, DecidableEq

/-- `be32toh(message->id)`. -/
def IncompleteBuf.id (icbuf : IncompleteBuf) : Int := toInt (ofBE (icbuf.head.take 4))

/-- `be32toh(message->len)`. -/
def IncompleteBuf.len (icbuf : IncompleteBuf) : Int := toInt (ofBE (icbuf.head.drop 4))

/-- The bytes `sendMessage` puts together, for a payload whose size is an `int`. -/
def frame (id : Int) (payload : List UInt8) : List UInt8 :=
  be32 (toSize id) ++ be32 payload.length ++ payload

/-- `Multiplexer::sendMessage`, up to its `onSend`. The size of the buffer is an `int`: when it
overflows, `calloc` fails and the execution stops at the first write. -/
def sendMessage (id : Int) (sprotobuf : List UInt8) : Option (List UInt8) :=
  -- `size` is cut to an `int`, and the sum of both sizes is one as well
  let length := toInt sprotobuf.length
  let len := toInt (toSize length + msgSize)
  if length < 0 ∨ len < 0 then none
  else some (frame id (sprotobuf.take length.toNat))

/-- `strlen` of a payload block. -/
def strlen (env : Env) (block : List UInt8) : Traced Act Nat := do
  .tell [.readString (cstrlen block) block.length]
  if cstrlen block = block.length ∧ env.slack block.length = false then .fault
  else return cstrlen block

/-- `Multiplexer::solve`, up to the parsing of the message. -/
def solve (env : Env) (buf : Option (List UInt8)) : Traced Act Unit :=
  match buf with
  | none => do
    .tell [.readNull]
    .fault
  | some block => do
    let n ← strlen env block
    .tell [.solve (block.take n)]

/-- How many bytes an iteration copies into the header. What the header lacks is compared with
`recvLen`, not with what is left of the chunk behind the offset. -/
def fillSize (recv head : List UInt8) : Nat :=
  if recv.length < msgSize - head.length then recv.length else msgSize - head.length

/-- Filling the header. -/
def fillHead (recv : List UInt8) (s : Loop) : Traced Act Loop := do
  let n := fillSize recv s.icbuf.head
  .tell [.readRecv s.offset n, .writeHead s.icbuf.head.length n]
  -- the bytes behind the chunk are still those of `info->buf`, up to its end
  if MAXLINE < s.offset + n then .fault
  else
    let icbuf := { s.icbuf with head := s.icbuf.head ++ window recv s.offset n }
    return { s with icbuf := icbuf, offset := s.offset + n }

/-- The branch for a message to a client: the pointer passed is always `info->buf + msgSize`,
and neither the offset nor the header moves. -/
def direct (env : Env) (recv : List UInt8) (id : Int) : Traced Act Unit :=
  match env.connMp_ env.conn with
  -- what `find` returned is not compared with the end of the map
  | none => do
    .tell [.readEnd]
    .fault
  | some mp =>
    match mp id with
    | none => do
      .tell [.readEnd]
      .fault
    | some client =>
      match client.dataCallback_ with
      | none => pure ()
      | some cb =>
        .tell [.dataCallback cb RECVDATAFLAG (window recv msgSize (MAXLINE - msgSize))
          client.dataParam_]

/-- The branch for a control message: copy what the payload still lacks, and measure what is
there now. -/
def fillBuf (env : Env) (recv : List UInt8) (s : Loop) : Traced Act Loop := do
  let len := s.icbuf.len
  -- a block of zeros is made when there is none yet
  let block := s.icbuf.buf.getD (List.replicate len.toNat 0)
  let n := toSize (len - s.icbuf.bufSize)
  .tell [.readRecv s.offset n, .writeBuf s.icbuf.bufSize n block.length]
  if MAXLINE < s.offset + n ∨ block.length < s.icbuf.bufSize + n then .fault
  else
    let block := overwrite block s.icbuf.bufSize (window recv s.offset n)
    -- what is there is measured, and not counted
    let bufSize ← strlen env block
    let icbuf := { s.icbuf with buf := some block, bufSize := bufSize }
    return { icbuf := icbuf, len := len, offset := s.offset + n }

/-- What happens once the header is complete. -/
def fillData (env : Env) (recv : List UInt8) (s : Loop) : Traced Act Loop :=
  if s.icbuf.head.length = msgSize then
    if s.icbuf.id ≠ 0 then do
      direct env recv s.icbuf.id
      return s
    else fillBuf env recv s
  else pure s

/-- The end of an iteration: a complete payload is handed over and the state is cleared. -/
def finish (env : Env) (s : Loop) : Traced Act Loop :=
  -- `len` is not set by an iteration that has read no payload length
  if (s.icbuf.bufSize : Int) = s.len then do
    solve env s.icbuf.buf
    return { s with icbuf := {} }
  else pure s

/-- The condition of the loop. -/
def hasMore (recv : List UInt8) (s : Loop) : Bool := s.offset < recv.length

/-- The body of the loop. -/
def body (env : Env) (recv : List UInt8) (s : Loop) : Traced Act Loop := do
  let s ← fillHead recv s
  let s ← fillData env recv s
  finish env s

/-- `Multiplexer::dispatch`, with at most `fuel` iterations. -/
def dispatch (env : Env) (fuel : Nat) (icbuf : IncompleteBuf) (c : Call) :
    Traced Act IncompleteBuf := do
  let s ← Traced.whileFuel (hasMore c.recv) (body env c.recv) fuel
    { icbuf := icbuf, len := c.len0, offset := 0 }
  -- out of fuel
  if hasMore c.recv s then .fault
  else return s.icbuf

/-- The calls of `dispatch` on one connection. -/
def dispatchAll (env : Env) (fuel : Nat) (calls : List Call) (icbuf : IncompleteBuf) :
    Traced Act IncompleteBuf :=
  calls.foldlM (dispatch env fuel) icbuf

end Ndsl.Net.Multiplexer
