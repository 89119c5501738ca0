import Mathlib.Logic.Function.Basic
import Ndsl.Lib.Rendezvous
import Ndsl.Lib.Traced
import Ndsl.Net.Basic

/-!
# `Ndsl.Net.Fifo`: two fifos between two processes

`FifoIpc.cc` and the second half of `PipeAndFifo.cc`: a process makes two fifos, opens one of them
to read and the other one to write, and another process opens their other ends.

The results of the system calls are inputs of the functions, and the trace lists the calls. An
`open` of a fifo that does not fail waits for the other end of it; that is not in the functions but
in `Ndsl.Lib.Rendezvous`, which is about the opens of a trace (`opens`). An `open` that fails, or
one of a name that is no fifo, returns without the other end.
-/

set_option autoImplicit false

namespace Ndsl.Net.Fifo

open Ndsl.Lib
open Ndsl.Lib.Rendezvous (Attempt End)

def EEXIST : Int := 17

/-- A `const char *pathname`. -/
abbrev Path := List UInt8

/-- The handlers of a channel. -/
inductive Handler
  | handleRead
  | handleWrite
  deriving Repr, DecidableEq

/-- What is done. -/
inductive Act
  | mkfifo (pathname : Path)
  | unlink (pathname : Path)
  /-- `open(pathname, ...)`, and what it returns. -/
  | open_ (pathname : Path) (mode : End) (result : Int)
  | fcntl (fd : Int)
  /-- A new channel is enrolled, with the handler that is not `NULL`. -/
  | enroll (fd : Int) (handler : Handler)
  deriving Repr, DecidableEq

/-- The array `fd`. -/
abbrev Fds := Nat → Int

/-- What `mkfifo` returns: nothing, or an error. -/
abbrev MkfifoResult := Option Int

/-- `(mkfifo(...) < 0) && (errno != EEXIST)`. -/
def failed (result : MkfifoResult) : Bool := result ≠ none ∧ result ≠ some EEXIST

/-- An open, and what it returns. The descriptor is stored in a slot of `fd` unless it is an error.
-/
structure Open where
  pathname : Path
  mode : End
  slot : Nat
  result : Int
  deriving Repr, DecidableEq

/-- Two opens in this order. `FifoIpc` returns 0 when one fails. -/
def openBoth (first second : Open) (fd : Fds) : Traced Act (Int × Fds) := do
  .tell [.open_ first.pathname first.mode first.result]
  if first.result < 0 then return (0, fd)
  else do
    let fd := Function.update fd first.slot first.result
    .tell [.open_ second.pathname second.mode second.result]
    if second.result < 0 then return (0, fd)
    else return (1, Function.update fd second.slot second.result)

namespace FifoIpc

/-- `FifoIpc::createFifo`. -/
def createFifo (pathname1 pathname2 : Path) (result1 result2 : MkfifoResult) :
    Traced Act Int := do
  .tell [.mkfifo pathname1]
  if failed result1 then return 0
  else do
    .tell [.mkfifo pathname2]
    if failed result2 then do
      .tell [.unlink pathname1]
      return 0
    else return 1

/-- `FifoIpc::openFatherFifo`. -/
def openFatherFifo (pathname1 pathname2 : Path) (readfd writefd : Int) (fd : Fds) :
    Traced Act (Int × Fds) :=
  openBoth { pathname := pathname1, mode := .read, slot := 0, result := readfd }
    { pathname := pathname2, mode := .write, slot := 1, result := writefd } fd

/-- `FifoIpc::openChildFifo`. -/
def openChildFifo (pathname1 pathname2 : Path) (writefd readfd : Int) (fd : Fds) :
    Traced Act (Int × Fds) :=
  openBoth { pathname := pathname1, mode := .write, slot := 1, result := writefd }
    { pathname := pathname2, mode := .read, slot := 0, result := readfd } fd

/-- `FifoIpc::createAndOpen`. -/
def createAndOpen (pathname1 pathname2 : Path) (result1 result2 : MkfifoResult)
    (readfd writefd : Int) (fd : Fds) : Traced Act (Int × Fds) := do
  .tell [.mkfifo pathname1]
  if failed result1 then return (0, fd)
  else do
    .tell [.mkfifo pathname2]
    if failed result2 then do
      .tell [.unlink pathname1]
      return (0, fd)
    else openFatherFifo pathname1 pathname2 readfd writefd fd

end FifoIpc

namespace PipeAndFifo

/-- What the system gives `createAndOpenFifo`. Each descriptor is asked for its flags, and they are
set. -/
structure Calls where
  mkfifo1 : MkfifoResult
  mkfifo2 : MkfifoResult
  readfd : Int
  writefd : Int
  getfl : Int → Bool
  setfl : Int → Bool

/-- A descriptor is made non-blocking. -/
def setNonblock (calls : Calls) (fd : Int) : Traced Act Bool := do
  .tell [.fcntl fd]
  if calls.getfl fd = false then return false
  else do
    .tell [.fcntl fd]
    return calls.setfl fd

/-- `PipeAndFifo::createAndOpenFifo`. A call that fails returns `S_OK`, or `S_FALSE` for the flags;
one that succeeds returns 1. -/
def createAndOpenFifo (pathname1 pathname2 : Path) (calls : Calls) (fd : Fds) :
    Traced Act (Int × Fds) := do
  .tell [.mkfifo pathname1]
  if failed calls.mkfifo1 then return (S_OK, fd)
  else do
    .tell [.mkfifo pathname2]
    if failed calls.mkfifo2 then do
      .tell [.unlink pathname1]
      return (S_OK, fd)
    else do
      .tell [.open_ pathname1 .read calls.readfd]
      if calls.readfd < 0 then return (S_OK, fd)
      else behind pathname2 calls (Function.update fd 0 calls.readfd)
where
  /-- The part behind the first open. -/
  behind (pathname2 : Path) (calls : Calls) (fd : Fds) : Traced Act (Int × Fds) := do
    let nonblock ← setNonblock calls calls.readfd
    if nonblock = false then return (S_FALSE, fd)
    else do
      .tell [.enroll calls.readfd .handleRead, .open_ pathname2 .write calls.writefd]
      if calls.writefd < 0 then return (S_OK, fd)
      else do
        let fd := Function.update fd 1 calls.writefd
        let nonblock ← setNonblock calls calls.writefd
        if nonblock = false then return (S_FALSE, fd)
        else do
          .tell [.enroll calls.writefd .handleWrite]
          return (1, fd)

/-- `PipeAndFifo::openAndMatchFifo`, which returns `S_OK` when an open fails. `writefd` is the
descriptor of an end to read, and `readfd` of one to write. -/
def openAndMatchFifo (pathname1 pathname2 : Path) (writefd readfd : Int) (fd : Fds) :
    Traced Act (Int × Fds) :=
  openBoth { pathname := pathname1, mode := .read, slot := 1, result := writefd }
    { pathname := pathname2, mode := .write, slot := 0, result := readfd } fd

end PipeAndFifo

/-- The opens of a trace that are of fifos, in their order. -/
def opens (fifo : Path → Bool) (es : List Act) : List (Attempt Path) :=
  es.filterMap fun
    | .open_ pathname mode result =>
      if fifo pathname then some { point := (pathname, mode), fails := result < 0 } else none
    | _ => none

end Ndsl.Net.Fifo
