import Ndsl.Net.Basic

/-!
# `Ndsl.Net.Acceptor`: what the acceptors have in common

`TcpAcceptor.cc` and `UnixAcceptor.cc` keep the arguments of one `onAccept` in an `Info` and serve
them with a connection. A connection is the address that it comes from. A pointer and an event loop
are numbers, and `none` is `NULL`.
-/

set_option autoImplicit false

namespace Ndsl.Net

/-- A connection that waits to be accepted: what `accept` writes. -/
structure Connection where
  cliaddr : Nat
  clilen : Nat
  deriving Repr, DecidableEq

namespace Acceptor

/-- The arguments of `onAccept`. Those of the `UnixAcceptor` have no loop. -/
structure Request where
  pCon_ : Nat
  addr_ : Option Nat := none
  addrlen_ : Option Nat := none
  cb_ : Option Nat := none
  param_ : Nat := 0
  loop_ : Option Nat := none
  deriving Repr, DecidableEq

/-- `Info`, of both acceptors. -/
structure Info extends Request where
  inUse_ : Bool := false
  deriving Repr, DecidableEq

/-- Where `handleRead` stands. -/
inductive Call
  | idle
  /-- In `info.cb_`. -/
  | callback
  /-- In `cb_`, which tests use. -/
  | test
  deriving Repr, DecidableEq

/-- What can be seen. -/
inductive Event
  /-- A connection arrives. -/
  | arrives (connection : Connection)
  | onAccept (request : Request)
  /-- `accept` has returned the descriptor. -/
  | accept (connection : Connection) (connfd : Int)
  | log (message : String)
  /-- `createChannel` of the `TcpConnection` or `UnixConnection`. -/
  | createChannel (pCon : Nat) (connfd : Int) (loop : Nat)
  /-- `memcpy(addr_, &cliaddr, ..)`. -/
  | address (addr cliaddr : Nat)
  /-- `*addrlen_ = clilen`. -/
  | length (addrlen clilen : Nat)
  | callback (cb param : Nat)
  | testCallback (cb : Nat)
  | returned (ret : Int)
  deriving Repr, DecidableEq

end Acceptor

end Ndsl.Net
