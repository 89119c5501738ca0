import Ndsl.Lib.Traced
import Ndsl.Net.Basic

/-!
# `Ndsl.Net.ELThreadpool`: the pool of event loops

`ELThreadpool.cc`: each loop of the pool has a thread of its own. `start` opens one, and
`getNextEventLoop` goes round the loops and opens another one where it has come to the end of
`loops_`.

An `EventLoop` is a number, and `new` gives the next one. What `EventLoop::init` and
`pthread_create` say to a new loop are inputs, and so is the number of processors.
-/

set_option autoImplicit false

namespace Ndsl.Net

open Ndsl.Lib

/-- An `ELThread`, and whether its `run` has started it. -/
structure ELThread where
  loop_ : Nat
  running : Bool
  deriving Repr, DecidableEq

/-- `ELThreadpool`. -/
structure ELThreadpool where
  loopThreads_ : List ELThread := []
  loops_ : List Nat := []
  MaxThreads_ : Nat := 0
  nextThread_ : Nat := 0
  /-- The number of the next `new EventLoop`. -/
  fresh : Nat := 0
  deriving Repr, DecidableEq

namespace ELThreadpool

/-- What a new loop and its thread report: `EventLoop::init` and `Thread::run`. -/
structure Creation where
  init : Int := S_OK
  run : Int := S_OK
  deriving Repr, DecidableEq

/-- What can be seen of a call. -/
inductive Event
  /-- A line of the log, of the level of an error. -/
  | log (message : String)
  /-- `delete loopThreads_[i]` has waited for the end of the thread. -/
  | join (thread : ELThread)
  deriving Repr, DecidableEq

/-- `Redundancy`. -/
def Redundancy : Int := 2

/-- An `int` converted to `unsigned int`. -/
def toUnsigned (i : Int) : Nat := (i % 2 ^ 32).toNat

/-- `ELThreadpool::capacity`, when `getNumberOfProcessors` gives this number. -/
def capacity (processors : Int) : Int := if processors = S_FALSE then 1 else Redundancy * processors

/-- `loops_.push_back(el)` and `loopThreads_.push_back(elt)`, and then `elt->run()`. -/
def pushBack (new : Creation) (s : ELThreadpool) : ELThreadpool :=
  { s with
    loops_ := s.loops_ ++ [s.fresh]
    loopThreads_ := s.loopThreads_ ++ [{ loop_ := s.fresh, running := new.run = S_OK }] }

/-- `ELThreadpool::start`. -/
def start (processors : Int) (new : Creation) (s : ELThreadpool) :
    Traced Event (Int × ELThreadpool) :=
  let s := if s.MaxThreads_ = 0 then { s with MaxThreads_ := toUnsigned (capacity processors) }
    else s
  if new.init ≠ S_OK then do
    .tell [.log "EventLoop init error\n"]
    return (S_FALSE, { s with fresh := s.fresh + 1 })
  else
    let s := { s.pushBack new with fresh := s.fresh + 1 }
    if new.run ≠ S_OK then do
      .tell [.log "ELThread run error\n"]
      return (S_FALSE, s)
    else return (S_OK, s)

/-- `ELThreadpool::getNextEventLoop`. A division by zero stops the execution, and `none` is
`NULL`. -/
def getNextEventLoop (new : Creation) (s : ELThreadpool) :
    Traced Event (Option Nat × ELThreadpool) :=
  if s.MaxThreads_ = 0 then .fault
  else
    let s := { s with nextThread_ := s.nextThread_ % s.MaxThreads_ }
    let next := { s with nextThread_ := (s.nextThread_ + 1) % 2 ^ 32 }
    -- a loop that is there
    if s.nextThread_ < s.loops_.length then return (s.loops_[s.nextThread_]?, next)
    -- the next loop is made
    else if s.nextThread_ = s.loops_.length then
      if new.init ≠ S_OK then do
        .tell [.log "init error\n"]
        return (none, { s with fresh := s.fresh + 1 })
      else
        let grown := s.pushBack new
        if new.run ≠ S_OK then do
          .tell [.log "run error\n"]
          -- the thread that does not run stays in the pool
          return (none, { grown with fresh := s.fresh + 1 })
        else
          return (grown.loops_[s.nextThread_]?,
            { grown with nextThread_ := next.nextThread_, fresh := s.fresh + 1 })
    else do
      .tell [.log "fatal error\n"]
      return (none, s)

/-- `ELThreadpool::setMaxThreads`. -/
def setMaxThreads (processors : Int) (maxThreads : Nat) (s : ELThreadpool) : Int × ELThreadpool :=
  if maxThreads < s.loopThreads_.length then (S_FALSE, s)
  else
    -- the capacity is the greatest number, whatever was set before
    let s := { s with MaxThreads_ := toUnsigned (capacity processors) }
    if maxThreads > s.MaxThreads_ then (S_OK, s)
    else (S_OK, { s with MaxThreads_ := maxThreads })

/-- `ELThreadpool::quit`. -/
def quit (s : ELThreadpool) : Traced Event (Int × ELThreadpool) :=
  if s.loopThreads_.length ≠ s.loops_.length then do
    .tell [.log "fatal error\n"]
    return (S_FALSE, s)
  else do
    .tell (s.loopThreads_.reverse.map .join)
    return (S_OK, { s with loopThreads_ := [], loops_ := [] })

/-- One call. -/
inductive Op
  | start (new : Creation)
  | getNextEventLoop (new : Creation)
  | setMaxThreads (maxThreads : Nat)
  | quit
  deriving Repr, DecidableEq

/-- The pool after one call. -/
def step (processors : Int) (s : ELThreadpool) : Op → Traced Event ELThreadpool
  | .start new => do return (← s.start processors new).2
  | .getNextEventLoop new => do return (← s.getNextEventLoop new).2
  | .setMaxThreads maxThreads => pure (s.setMaxThreads processors maxThreads).2
  | .quit => do return (← s.quit).2

end ELThreadpool

end Ndsl.Net
