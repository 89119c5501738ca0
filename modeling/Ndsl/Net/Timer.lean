import Ndsl.Net.TimeWheel

/-!
# `Ndsl.Net.Timer`: the timer of a loop, with system calls that fail

`TimeWheel::initChannel`, `start` and `stop`, and the functions of `EventLoop` that use the wheel.
A `Timer` is a `Wheel` with the channel and the flag `isWorking_`, and with the call of `onTick`
that is under way. One step is one call from outside or from a callback, the start of a tick, or
one turn of its loop; so the callbacks of a tick may call whatever they like, as steps of their own.

The results of `timerfd_create`, `timerfd_settime` and `epoll_ctl` are inputs: `none` for success,
or `errno`.
-/

set_option autoImplicit false

namespace Ndsl.Net

open Ndsl.Lib

namespace TimeWheel

/-- The results of the system calls that `start` makes. -/
structure Syscalls where
  timerfd_create : Option Int := none
  timerfd_settime : Option Int := none
  epoll_ctl : Option Int := none
  deriving Repr, DecidableEq

/-- A system call that fails sets `errno` to a positive value. -/
def Syscalls.Positive (sys : Syscalls) : Prop :=
  ∀ errno, some errno ∈ [sys.timerfd_create, sys.timerfd_settime, sys.epoll_ctl] → 0 < errno

/-- Where the call of `onTick` stands. -/
inductive Tick
  /-- There is no call. -/
  | returned
  /-- Before the next turn of its loop, with what is left of the list. -/
  | slot (curSlot : List TaskId)
  /-- In the callback of a task. -/
  | running (task : TaskId) (curSlot : List TaskId)
  deriving Repr, DecidableEq

/-- A `TimerfdChannel`: its timer is set, and it is registered with the loop. -/
structure TimerfdChannel where
  armed : Bool := false
  enrolled : Bool := false
  deriving Repr, DecidableEq

/-- The `timer_` of an `EventLoop`, and the call of its `onTick`. -/
structure Timer where
  wheel : Wheel
  ptimerfdChannel_ : Option TimerfdChannel := none
  isWorking_ : Bool := false
  tick : Tick := .returned

namespace Timer

/-- What happens to the tasks. -/
inductive Event
  | wheel (e : TimeWheel.Event)
  /-- `new TimeWheel::Task`. -/
  | new (task : TaskId)
  /-- `onTick` deletes a task, which has run for the last time. -/
  | delete (task : TaskId)
  /-- `runAfter` reports success, and the wheel works then, or it does not. -/
  | runAfter (task : TaskId) (works : Bool)
  deriving Repr, DecidableEq

/-- A call into the wheel. -/
def onWheel {α : Type} (x : Traced TimeWheel.Event α) : Traced Event α :=
  x.view (fun e => [.wheel e]) id

/-- The wheel works: `isWork()` says so, and the timer of its channel is set and registered. -/
def works (s : Timer) : Bool :=
  s.isWorking_ && s.ptimerfdChannel_ == some { armed := true, enrolled := true }

/-- `TimeWheel::initChannel`. An old channel stays where it is. -/
def initChannel (sys : Syscalls) (s : Timer) : Int × Timer :=
  match sys.timerfd_create with
  | some errno => (errno, s)
  | none => (S_OK, { s with
      ptimerfdChannel_ := some {}
      wheel := { s.wheel with slot := fun _ => [] } })

/-- `TimeWheel::start`. -/
def start (sys : Syscalls) (s : Timer) : Int × Timer :=
  let (ret, s) := s.initChannel sys
  if ret ≠ S_OK then (ret, s)
  else
    match sys.timerfd_settime with
    | some errno => (errno, s)
    | none =>
      match sys.epoll_ctl with
      | some errno => (errno, { s with ptimerfdChannel_ := some { armed := true } })
      | none => (S_OK, { s with
          ptimerfdChannel_ := some { armed := true, enrolled := true }
          isWorking_ := true })

/-- `TimeWheel::stop`. It reads the channel, which must be there. -/
def stop (timerfd_settime : Option Int) (s : Timer) : Traced Event (Int × Timer) :=
  match s.ptimerfdChannel_ with
  | none => .fault
  | some channel =>
    match timerfd_settime with
    | some errno => pure (errno, s)
    | none => pure (S_OK, { s with
        ptimerfdChannel_ := some { channel with armed := false }
        isWorking_ := false })

/-- `if (!timer_.isWork()) timer_.start()`, which both overloads of `runAfter` begin with. -/
def ensureStarted (sys : Syscalls) (s : Timer) : Int × Timer :=
  if s.isWorking_ then (S_OK, s) else s.start sys

/-- `EventLoop::runAfter(task)`. -/
def runAfter (sys : Syscalls) (task : TaskId) (s : Timer) : Traced Event (Int × Timer) :=
  let (ret, s) := s.ensureStarted sys
  if ret < 0 then pure (S_FALSE, s)
  else do
    let (wheel, ret) ← onWheel (addTask s.wheel task)
    if ret = S_OK then
      .tell [.runAfter task s.works]
    return (ret, { s with wheel := wheel })

/-- `EventLoop::runAfter(ns, func, param)`. `task` is the address that `new` gives. -/
def runAfterNew (sys : Syscalls) (task : TaskId) (ns : Int) (func : Option Nat) (param : Nat)
    (s : Timer) : Traced Event (Option TaskId × Timer) :=
  let (ret, s) := s.ensureStarted sys
  if ret < 0 then pure (none, s)
  else do
    .tell [.new task]
    let (wheel, ret) ← onWheel
      (addTask (s.wheel.store task { setInterval := ns, doit := func, param := param }) task)
    if ret < 0 then return (none, { s with wheel := wheel })
    .tell [.runAfter task s.works]
    return (some task, { s with wheel := wheel })

/-- `EventLoop::cancelRunAfter`. -/
def cancelRunAfter (task : TaskId) (s : Timer) : Traced Event (Int × Timer) := do
  let (wheel, ret) ← onWheel (removeTask s.wheel task)
  return (ret, { s with wheel := wheel })

/-- `TimeWheel::onTick`, up to its loop. -/
def onTick (ret : ReadResult) (s : Timer) : Traced Event Timer :=
  match ret with
  | .error _ => pure s
  | .expirations _ => do
    let wheel := { s.wheel with curTick := nextTick s.wheel.curTick }
    .tell [.wheel .tick]
    if wheel.slot wheel.curTick = [] then
      return { s with wheel := wheel }
    return { s with
      wheel := { wheel with slot := Function.update wheel.slot wheel.curTick [] }
      tick := .slot (wheel.slot wheel.curTick) }

/-- One turn of the loop of `onTick`, up to the call of the task or from it on. -/
def next (s : Timer) : Traced Event Timer :=
  match s.tick with
  | .returned => pure s
  | .slot [] => pure { s with tick := .returned }
  | .slot (task :: curSlot) => do
    let t ← onWheel (s.wheel.deref task)
    -- more than a round to go: a copy of the pointer goes into the slot, and `it` stays here
    if t.restInterval > SLOTNUM then
      let wheel := s.wheel.store task { t with restInterval := t.restInterval - SLOTNUM }
      return { s with
        wheel := wheel.pushBack wheel.curTick task
        tick := .slot (task :: curSlot) }
    match t.doit with
    | none => .fault
    | some func => do
      .tell [.wheel (.doit task func t.param)]
      return { s with tick := .running task curSlot }
  | .running task curSlot => do
    let t ← onWheel (s.wheel.deref task)
    let times := if t.times > 0 then t.times - 1 else t.times
    if times = 0 then
      .tell [.delete task]
      return { s with wheel := s.wheel.free task, tick := .slot curSlot }
    let setTick ← onWheel (slotAfter s.wheel.curTick t.setInterval)
    let wheel := s.wheel.store task
      { t with times := times, setTick := some setTick, restInterval := t.setInterval }
    return { s with wheel := wheel.pushBack setTick task, tick := .slot curSlot }

/-- One step. -/
inductive Action
  | runAfter (sys : Syscalls) (task : TaskId)
  | runAfterNew (sys : Syscalls) (task : TaskId) (ns : Int) (func : Option Nat) (param : Nat)
  | cancelRunAfter (task : TaskId)
  | start (sys : Syscalls)
  | stop (timerfd_settime : Option Int)
  | onTick (ret : ReadResult)
  | next
  deriving Repr, DecidableEq

/-- The timer after one step. -/
def step (s : Timer) : Action → Traced Event Timer
  | .runAfter sys task => do return (← s.runAfter sys task).2
  | .runAfterNew sys task ns func param => do return (← s.runAfterNew sys task ns func param).2
  | .cancelRunAfter task => do return (← s.cancelRunAfter task).2
  | .start sys => pure (s.start sys).2
  | .stop timerfd_settime => do return (← s.stop timerfd_settime).2
  | .onTick ret => s.onTick ret
  | .next => s.next

/-- The steps that can be taken. The thread that runs a tick takes no call between two turns of its
loop, `new` gives an address that is free, and `errno` is positive. -/
def Possible (s : Timer) : Action → Prop
  | .runAfter sys _ => (∀ curSlot, s.tick ≠ .slot curSlot) ∧ sys.Positive
  | .runAfterNew sys task .. =>
    (∀ curSlot, s.tick ≠ .slot curSlot) ∧ sys.Positive ∧ s.wheel.tasks task = none
  | .cancelRunAfter _ => ∀ curSlot, s.tick ≠ .slot curSlot
  | .start sys => (∀ curSlot, s.tick ≠ .slot curSlot) ∧ sys.Positive
  | .stop _ => ∀ curSlot, s.tick ≠ .slot curSlot
  | .onTick _ => s.tick = .returned
  | .next => True

end Timer

end TimeWheel

end Ndsl.Net
