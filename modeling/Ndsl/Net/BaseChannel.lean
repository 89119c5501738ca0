import Ndsl.Lib.Traced
import Ndsl.Net.Basic

/-!
# `Ndsl.Net.BaseChannel`: events and their handlers

`BaseChannel.cc`: `enroll` asks for events, `handleEvent` passes a word of events on to the
handlers of the object above the channel. What the handlers do with that object is a parameter.
-/

set_option autoImplicit false

namespace Ndsl.Net

open Ndsl.Lib

def EPOLLIN : Nat := 0x1

def EPOLLOUT : Nat := 0x4

def EPOLLERR : Nat := 0x8

def EPOLLHUP : Nat := 0x10

def EPOLLRDHUP : Nat := 0x2000

def EPOLLET : Nat := 0x80000000

/-- A `BaseChannel`, with the handlers for an object `α`. A `NULL` handler is `none`. -/
structure BaseChannel (ε α : Type) where
  events_ : Nat := 0
  revents_ : Nat := 0
  handleRead_ : Option (α → Traced ε α) := none
  handleWrite_ : Option (α → Traced ε α) := none
  errorHandle_ : Option (α → Traced ε α) := none

namespace BaseChannel

variable {ε α : Type}

/-- `revents_ & flag`. -/
def has (revents_ flag : Nat) : Bool := revents_ &&& flag ≠ 0

/-- Call a handler, unless it is `NULL`. -/
def call (handler : Option (α → Traced ε α)) (up : α) : Traced ε α :=
  match handler with
  | none => pure up
  | some handle => handle up

/-- The first half of `handleEvent`: a word with `EPOLLIN` is a read, whatever else it says. -/
def handleReadWrite (channel : BaseChannel ε α) (up : α) : Traced ε α :=
  if has channel.revents_ EPOLLIN then call channel.handleRead_ up
  else if has channel.revents_ EPOLLOUT then call channel.handleWrite_ up
  else pure up

/-- The second half of `handleEvent`. -/
def handleError (channel : BaseChannel ε α) (up : α) : Traced ε α :=
  if has channel.revents_ EPOLLIN ∧ has channel.revents_ EPOLLHUP then
    call channel.errorHandle_ up
  else if has channel.revents_ EPOLLIN ∧ has channel.revents_ EPOLLRDHUP then
    call channel.errorHandle_ up
  else if has channel.revents_ EPOLLIN ∧ has channel.revents_ EPOLLERR then
    call channel.errorHandle_ up
  else pure up

/-- `BaseChannel::handleEvent`. -/
def handleEvent (channel : BaseChannel ε α) (up : α) : Traced ε (Int × α) := do
  let up ← handleReadWrite channel up
  let up ← handleError channel up
  return (S_OK, up)

/-- `BaseChannel::setCallBack`. -/
def setCallBack (handleRead handleWrite : α → Traced ε α) (channel : BaseChannel ε α) :
    BaseChannel ε α :=
  { channel with handleRead_ := some handleRead, handleWrite_ := some handleWrite }

/-- `BaseChannel::enroll`, up to the registration with the loop: the events asked for. -/
def enroll (isET : Bool) (channel : BaseChannel ε α) : BaseChannel ε α :=
  let events_ := if isET then channel.events_ ||| EPOLLET else channel.events_
  { channel with events_ := events_ ||| EPOLLIN ||| EPOLLOUT ||| EPOLLRDHUP ||| EPOLLERR }

end BaseChannel

end Ndsl.Net
