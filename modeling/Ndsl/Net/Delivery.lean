import Ndsl.Lib.Demux
import Ndsl.Net.Multiplexer
import Ndsl.Net.Offers

/-!
# `Ndsl.Net.Delivery`: what becomes of a control message that has arrived

`Multiplexer.cc`: `solve` makes a message of the string that `dispatch` has put together, and gives
it to the client that is registered under the id of the message. `DTPClient.cc`: `sendAck` answers a
receive that has ended. `DTP.cc`: `agreeRecvUdpData` asks for the datagram that it waits for.

`ParseFromString` is code of the protobuf library, and so a parameter: `parse` is what a new message
holds behind it. The code does not look at whether it has failed.

The connection is shared by all clients, and so is the trace of a `Delivery`: it lists what
`dispatch` does, and what each client does under its id.
-/

set_option autoImplicit false

namespace Ndsl.Net

open Ndsl.Lib

namespace Dtp

def OPPENDRECVRDMAFAIL : Int := 14

/-! ### Messages -/

/-- The flag of the answer to a receive that has ended with a notice of this flag. -/
def ackType (type : Int) : Int :=
  let type := if type = RECVDATASUCC then OPPENDRECVSUCC else type
  let type := if type = RECVDATAFAIL then OPPENDRECVFAIL else type
  if type = RECVRDMADATAFAIL then OPPENDRECVRDMAFAIL else type

/-- The message of `DTPClient::sendAck`. -/
def sendAck (peerId : Int) (type : Int) (dataId : List UInt8) : ControlMsg :=
  makeDataControlMsg (ackType type) peerId none 0 0 0 dataId

/-- The message of `DTP::agreeRecvUdpData` that asks for a datagram, with the address of the
connection. The endpoint was bound to port 0, which is offered when `getsockname` fails. -/
def requestDatagram (msg : ControlMsg) (ipstr : List UInt8) (getsockname : Option UInt16) :
    ControlMsg :=
  makeDataControlMsg RECVDATAONUDP msg.id (some ipstr) (getsockname.getD 0).toNat 0 0 msg.dataId

end Dtp

namespace Delivery

open Ndsl.Net.Dtp (ControlMsg)

/-- What a client does: it is called with a message, or it acts. -/
inductive ClientEvent
  | analysisProtobuf (msg : ControlMsg)
  | act (act : Dtp.Act)
  deriving Repr, DecidableEq

/-- What happens. -/
inductive Event
  /-- What `dispatch` does. -/
  | dispatch (act : Multiplexer.Act)
  /-- What the client does that is registered under an id. -/
  | client (id : Int) (event : ClientEvent)
  deriving Repr, DecidableEq

/-- The clients of a connection: `connMp_[conn]`, without a client when there is no such entry. -/
abbrev Clients := Int → Option Dtp.DTPClient

/-- `client->analysisProtobuf(msg)`. -/
def analysisProtobuf (client : Dtp.DTPClient) (msg : ControlMsg) :
    Traced ClientEvent Dtp.DTPClient := do
  .tell [.analysisProtobuf msg]
  (client.analysisProtobuf msg).view (fun act => [.act act]) id

/-- `Multiplexer::solve`, from the string on. `parse` is what the message holds behind
`ParseFromString`. -/
def solve (parse : List UInt8 → ControlMsg) (clients : Clients) (s : List UInt8) :
    Traced (Int × ClientEvent) Clients :=
  Demux.route (·.id) analysisProtobuf clients (parse s)

/-- What an act of `dispatch` does to the clients. -/
def perform (parse : List UInt8 → ControlMsg) (clients : Clients) (act : Multiplexer.Act) :
    Traced Event Clients := do
  .tell [.dispatch act]
  match act with
  | .solve payload => (solve parse clients payload).view (fun e => [.client e.1 e.2]) id
  | _ => return clients

/-- `Multiplexer::dispatch`, with what its calls of `solve` do. -/
def dispatch (env : Multiplexer.Env) (parse : List UInt8 → ControlMsg) (fuel : Nat)
    (s : Multiplexer.IncompleteBuf × Clients) (c : Multiplexer.Call) :
    Traced Event (Multiplexer.IncompleteBuf × Clients) := do
  let x := Multiplexer.dispatch env fuel s.1 c
  let clients ← x.log.foldlM (perform parse) s.2
  match x.value with
  | none => .fault
  | some icbuf => return (icbuf, clients)

/-- The calls of `dispatch` on one connection. -/
def dispatchAll (env : Multiplexer.Env) (parse : List UInt8 → ControlMsg) (fuel : Nat)
    (calls : List Multiplexer.Call) (s : Multiplexer.IncompleteBuf × Clients) :
    Traced Event (Multiplexer.IncompleteBuf × Clients) :=
  calls.foldlM (dispatch env parse fuel) s

end Delivery

end Ndsl.Net
