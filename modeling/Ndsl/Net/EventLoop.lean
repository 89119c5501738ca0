import Ndsl.Lib.Traced
import Ndsl.Net.Basic
import Mathlib.Logic.Function.Basic

/-!
# `Ndsl.Net.EventLoop`: the work queue and the loop

`WorkQueue.h`, `EventLoop.h` and `EventLoop.cc` as step relations, because several threads take
part.

* `WorkQueue`: the list, and the stretches of code that hold `queueMutex_`.
* `QueueChannel`: the work queue together with the call of `onQueue` that drains it. One step
  is one stretch under the lock, or the start or the end of one callback. What a callback or
  another thread does to the queue is a step of its own.
* `EventLoop`: the queue channel, the two eventfd counters, the thread that runs `loop`, and the
  threads that call `addWork`, whose two halves are two steps.

A `WorkItem *` is a number, and a `Channel *` is one of the two channels of the loop or a number.
The handlers of the other channels do what they do in steps of their own.
-/

set_option autoImplicit false

namespace Ndsl.Net

open Ndsl.Lib

/-! ### `WorkQueue` -/

/-- A `WorkItem *`. -/
abbrev WorkItem := Nat

/-- `WorkQueue`. -/
structure WorkQueue where
  queue_ : List WorkItem := []
  deriving Repr, DecidableEq

namespace WorkQueue

/-- `WorkQueue::empty`. -/
def empty (queue : WorkQueue) : Bool := queue.queue_.isEmpty

/-- The part of `WorkQueue::doit` that holds the lock: the whole list is taken out. -/
def swap (queue : WorkQueue) : WorkQueue × List WorkItem := ({ queue_ := [] }, queue.queue_)

/-- `WorkQueue::enqueue`. -/
def enqueue (item : WorkItem) (queue : WorkQueue) : WorkQueue × Int :=
  ({ queue_ := queue.queue_ ++ [item] }, S_OK)

/-- `WorkQueue::dequeue(item)`, up to the `delete` behind it. -/
def dequeue (item : WorkItem) (queue : WorkQueue) : WorkQueue × Int :=
  if item ∈ queue.queue_ then ({ queue_ := queue.queue_.erase item }, S_OK) else (queue, S_FALSE)

end WorkQueue

/-! ### `QueueChannel` -/

/-- What happens to a work item. -/
inductive WorkAct
  /-- An `enqueue` that returned. -/
  | enqueue (item : WorkItem)
  /-- A `dequeue(item)` that returned `S_OK`. -/
  | remove (item : WorkItem)
  /-- `curWork->doit(curWork->param)` is called. -/
  | execute (item : WorkItem)
  /-- `delete`. -/
  | delete (item : WorkItem)
  /-- `onQueue` found the queue empty. -/
  | drained
  deriving Repr, DecidableEq

/-- Where the call of `onQueue` stands. -/
inductive Drain
  /-- There is no call. -/
  | returned
  /-- Before the test of the loop. -/
  | empty
  /-- Before the swap of `doit`. -/
  | swap
  /-- In the loop of `doit`, with what it has not taken out of `getQueue` yet. -/
  | items (getQueue : List WorkItem)
  /-- In the callback of `curWork`. -/
  | running (curWork : WorkItem) (getQueue : List WorkItem)
  deriving Repr, DecidableEq

/-- A `QueueChannel`, and the call of its `onQueue`. -/
structure QueueChannel where
  workqueue_ : WorkQueue := {}
  drain : Drain := .returned
  deriving Repr, DecidableEq

namespace QueueChannel

/-- One step: of a caller, of the loop that calls `onQueue`, or of the call itself. -/
inductive Action
  | addWork (item : WorkItem)
  | removeWork (item : WorkItem)
  | onQueue
  | next
  deriving Repr, DecidableEq

/-- `QueueChannel::addWork`. -/
def addWork (item : WorkItem) (channel : QueueChannel) : Traced WorkAct QueueChannel := do
  .tell [.enqueue item]
  return { channel with workqueue_ := (channel.workqueue_.enqueue item).1 }

/-- `QueueChannel::removeWork`. -/
def removeWork (item : WorkItem) (channel : QueueChannel) : Traced WorkAct QueueChannel := do
  let (workqueue_, ret) := channel.workqueue_.dequeue item
  -- an item that is not in the queue any more is left alone
  if ret = S_OK then
    .tell [.remove item, .delete item]
  return { channel with workqueue_ := workqueue_ }

/-- The next step of the call of `onQueue`: the test, then the swap, then one callback after
another, then the test again. -/
def next (channel : QueueChannel) : Traced WorkAct QueueChannel :=
  match channel.drain with
  | .returned => pure channel
  | .empty =>
    -- the lock is free again behind the test, and an item can come in before the swap
    if channel.workqueue_.empty then do
      .tell [.drained]
      return { channel with drain := .returned }
    else pure { channel with drain := .swap }
  | .swap =>
    let (workqueue_, getQueue) := channel.workqueue_.swap
    pure { workqueue_ := workqueue_, drain := .items getQueue }
  | .items [] => pure { channel with drain := .empty }
  | .items (curWork :: getQueue) => do
    .tell [.execute curWork]
    return { channel with drain := .running curWork getQueue }
  | .running curWork getQueue => do
    .tell [.delete curWork]
    return { channel with drain := .items getQueue }

/-- One step of the channel. -/
def step (channel : QueueChannel) : Action → Traced WorkAct QueueChannel
  | .addWork item => channel.addWork item
  | .removeWork item => channel.removeWork item
  | .onQueue => pure { channel with drain := .empty }
  | .next => channel.next

/-- One thread runs the loop, so `onQueue` is called when no call of it is under way. -/
def Possible (channel : QueueChannel) : Action → Prop
  | .onQueue => channel.drain = .returned
  | _ => True

end QueueChannel

/-! ### `EventLoop` -/

/-- The greatest value of an eventfd counter. -/
def EFD_MAX : Nat := 2 ^ 64 - 2

/-- `write` of `1` to an eventfd: the counter, and whether it fails with `EAGAIN`. -/
def efdWrite (counter : Nat) : Nat × Bool :=
  if counter = EFD_MAX then (counter, true) else (counter + 1, false)

/-- `read` of an eventfd made with `EFD_SEMAPHORE`: it takes one unit, or fails with
`EAGAIN`. -/
def efdRead (counter : Nat) : Nat := counter - 1

/-- `Epoll::MAX_EVENTS`. -/
def MAX_EVENTS : Nat := 64

/-- A `Channel *` of the loop. -/
inductive ChannelRef
  | pQueCh_
  | pIntrCh_
  | other (channel : Nat)
  deriving Repr, DecidableEq

/-- What `epoll_wait` gives. -/
inductive WaitResult
  | events (channels : List ChannelRef)
  | error (errno : Int)
  deriving Repr, DecidableEq

def EINTR : Int := 4

/-- Where the thread that runs `loop` stands. -/
inductive Pc
  /-- Before `epoll_wait`. -/
  | wait
  /-- In the loop over the channels that are ready. -/
  | handle (channels : List ChannelRef) (quit haswork : Bool)
  /-- Before the `read` of the queue channel. -/
  | read (quit : Bool)
  /-- In `onQueue`. -/
  | onQueue (quit : Bool)
  /-- Before the `read` of the interrupt channel. -/
  | readIntr
  /-- `loop` has returned. -/
  | returned (ret : Int)
  deriving Repr, DecidableEq

/-- A thread that calls into the loop. -/
abbrev Tid := Nat

/-- An `EventLoop` and the threads around it. `inside` holds for the threads that are between the
two steps of `addWork`. -/
structure EventLoop where
  pQueCh_ : QueueChannel := {}
  queCount : Nat := 0
  intrCount : Nat := 0
  pc : Pc := .wait
  inside : Tid → Bool := fun _ => false

namespace EventLoop

/-- One step of a thread, or of the loop. -/
inductive Action
  /-- The first half of `addWork`. -/
  | enqueue (thread : Tid) (item : WorkItem)
  /-- The second half of `addWork`. -/
  | onWrite (thread : Tid)
  | removeWork (item : WorkItem)
  | quit
  /-- `loop` is called again. -/
  | loop
  /-- `epoll_wait` returns. -/
  | wait (result : WaitResult)
  /-- The loop goes on. -/
  | next
  deriving Repr, DecidableEq

/-- Where the loop goes when the work is done. -/
def afterWork (quit : Bool) : Pc := if quit then .readIntr else .wait

/-- The next step of the loop, behind `wait`. -/
def next (loop : EventLoop) : Traced WorkAct EventLoop :=
  match loop.pc with
  | .handle (.pIntrCh_ :: channels) _ haswork =>
    pure { loop with pc := .handle channels true haswork }
  | .handle (.pQueCh_ :: channels) quit _ =>
    pure { loop with pc := .handle channels quit true }
  | .handle (.other _ :: channels) quit haswork =>
    -- the handler's own calls are steps of their own
    pure { loop with pc := .handle channels quit haswork }
  | .handle [] quit haswork =>
    pure { loop with pc := if haswork then .read quit else afterWork quit }
  | .read quit => do
    let pQueCh_ ← loop.pQueCh_.step .onQueue
    return { loop with queCount := efdRead loop.queCount, pQueCh_ := pQueCh_, pc := .onQueue quit }
  | .onQueue quit => do
    let pQueCh_ ← loop.pQueCh_.step .next
    return { loop with
      pQueCh_ := pQueCh_
      pc := if pQueCh_.drain = .returned then afterWork quit else .onQueue quit }
  | .readIntr => pure { loop with intrCount := efdRead loop.intrCount, pc := .returned S_OK }
  | .wait | .returned _ => pure loop

/-- One step. A `wait` that a signal interrupts is tried again. -/
def step (loop : EventLoop) : Action → Traced WorkAct EventLoop
  | .enqueue thread item => do
    -- the item is in the queue before the eventfd is written
    let pQueCh_ ← loop.pQueCh_.step (.addWork item)
    return { loop with pQueCh_ := pQueCh_, inside := Function.update loop.inside thread true }
  | .onWrite thread =>
    pure { loop with
      queCount := (efdWrite loop.queCount).1
      inside := Function.update loop.inside thread false }
  | .removeWork item => do
    let pQueCh_ ← loop.pQueCh_.step (.removeWork item)
    return { loop with pQueCh_ := pQueCh_ }
  | .quit => pure { loop with intrCount := (efdWrite loop.intrCount).1 }
  | .loop => pure { loop with pc := .wait }
  | .wait (.events channels) => pure { loop with pc := .handle channels false false }
  | .wait (.error errno) =>
    pure { loop with pc := if errno = EINTR then .wait else .returned S_FALSE }
  | .next => loop.next

/-- `epoll_wait` may report a channel. The two eventfds are registered level-triggered, for
input. -/
def Ready (loop : EventLoop) : ChannelRef → Prop
  | .pQueCh_ => 0 < loop.queCount
  | .pIntrCh_ => 0 < loop.intrCount
  | .other _ => True

/-- The steps that can be taken. `epoll_wait` without a timeout returns with one to `MAX_EVENTS`
channels that are ready, each once. -/
def Possible (loop : EventLoop) : Action → Prop
  | .enqueue thread _ => loop.inside thread = false
  | .onWrite thread => loop.inside thread = true
  | .loop => ∃ ret, loop.pc = .returned ret
  | .wait (.events channels) =>
    loop.pc = .wait ∧ channels ≠ [] ∧ channels.length ≤ MAX_EVENTS ∧ channels.Nodup ∧
      ∀ channel ∈ channels, loop.Ready channel
  | .wait (.error _) => loop.pc = .wait
  | _ => True

end EventLoop

end Ndsl.Net
