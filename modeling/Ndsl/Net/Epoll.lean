import Ndsl.Net.EventLoop

/-!
# `Ndsl.Net.Epoll`: the channels behind the loop

`Epoll.cc`, and the channels that `EventLoop` leaves open: a `Reactor` is an event loop together
with the interest list of its `epoll_`. A step is one of the loop, or what a handler, a work item
or another thread does to a channel.

`epoll_wait` fills an array of `Channel *`, and the loop goes through it. Nothing that happens
meanwhile changes the array: `erase` changes the interest list, and a destructor does so by way of
`erase`. The trace says which channels a batch holds, which ones are called, and which ones are
erased or deleted.
-/

set_option autoImplicit false

namespace Ndsl.Net

open Ndsl.Lib

/-! ### `Epoll` -/

/-- `Epoll`: the channels in the interest list. -/
structure Epoll where
  interest : List Nat := []
  deriving Repr, DecidableEq

def EEXIST : Int := 17

def ENOENT : Int := 2

namespace Epoll

/-- `Epoll::enroll`. -/
def enroll (channel : Nat) (epoll : Epoll) : Int × Epoll :=
  if channel ∈ epoll.interest then (EEXIST, epoll)
  else (S_OK, { interest := epoll.interest ++ [channel] })

/-- `Epoll::erase`. -/
def erase (channel : Nat) (epoll : Epoll) : Int × Epoll :=
  if channel ∈ epoll.interest then (S_OK, { interest := epoll.interest.erase channel })
  else (ENOENT, epoll)

end Epoll

/-! ### `Reactor` -/

/-- An event loop with its `epoll_`. -/
structure Reactor where
  loop : EventLoop := {}
  epoll_ : Epoll := {}

namespace Reactor

/-- What happens to the channels, and to the work. -/
inductive Event
  | work (act : WorkAct)
  /-- `Epoll::wait` returned these channels. -/
  | wait (channels : List ChannelRef)
  /-- `channels[i]->handleEvent()` is called. -/
  | handleEvent (channel : Nat)
  | enroll (channel : Nat) (ret : Int)
  | erase (channel : Nat) (ret : Int)
  /-- The memory of a channel is freed. -/
  | delete (channel : Nat)
  deriving Repr, DecidableEq

/-- One step: of the loop and the threads around it, or on a channel. -/
inductive Action
  | loop (action : EventLoop.Action)
  | enroll (channel : Nat)
  | erase (channel : Nat)
  /-- The destructor of a channel (`~TcpChannel`, `~UdpChannel` and the others). -/
  | delete (channel : Nat)
  deriving Repr, DecidableEq

/-- The channel that the loop calls as it goes on. -/
def called : Pc → List Event
  | .handle (.other channel :: _) _ _ => [.handleEvent channel]
  | _ => []

/-- What a step of the loop does with channels. -/
def calls (loop : EventLoop) : EventLoop.Action → List Event
  | .wait (.events channels) => [.wait channels]
  | .next => called loop.pc
  | _ => []

/-- One step. -/
def step (s : Reactor) : Action → Traced Event Reactor
  | .loop action => do
    .tell (calls s.loop action)
    let loop ← (s.loop.step action).view (fun act => [.work act]) id
    return { s with loop := loop }
  | .enroll channel => do
    let (ret, epoll_) := s.epoll_.enroll channel
    .tell [.enroll channel ret]
    return { s with epoll_ := epoll_ }
  | .erase channel => do
    let (ret, epoll_) := s.epoll_.erase channel
    .tell [.erase channel ret]
    return { s with epoll_ := epoll_ }
  | .delete channel => do
    let (ret, epoll_) := s.epoll_.erase channel
    .tell [.erase channel ret, .delete channel]
    return { s with epoll_ := epoll_ }

/-- The steps that can be taken. `epoll_wait` finds channels of the interest list. -/
def Possible (s : Reactor) : Action → Prop
  | .loop action => s.loop.Possible action ∧
    ∀ channels, action = .wait (.events channels) →
      ∀ channel, .other channel ∈ channels → channel ∈ s.epoll_.interest
  | _ => True

end Reactor

end Ndsl.Net
