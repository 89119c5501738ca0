import Ndsl.Lib.Lifetime
import Ndsl.Net.RecvFile
import Ndsl.Net.Timer

/-!
# `Ndsl.Net.RecvTimers`: the timers of the requests for files

`DTP::recvFile` asks the peer for a file and puts a task on the wheel of the loop, which tells the
client that the file did not come; `DTP::agreeRecvFile` accepts an offer and cancels the task that
`timeMp_` holds for the client. The rest of an acceptance, from the connection on, is not here.

A task object is a `TaskId` that is used once, so the pointers to a deleted object stay apart from
those to the next object at its address. A step is one call of `DTP`, the start of a tick, or one
turn of its loop: the callback of a task may call `DTP` as well.
-/

set_option autoImplicit false

namespace Ndsl.Net

open Ndsl.Lib
open Dtp (ControlMsg RECVFILEFAIL)
open TimeWheel (TaskId Task Timer Syscalls ReadResult Tick)

/-- The intervals that a request waits for its offer. -/
def WAITTIMEOUT : Nat := 5

namespace RecvTimers

/-- The number of `DTP::handleRecvfileFail` among the functions of tasks. -/
def HANDLERECVFILEFAIL : Nat := 0

/-- What `handleRecvfileFail` reads of a `RecvFileInfo`. -/
structure RecvFileInfo where
  client_ : Nat
  fileName_ : List UInt8
  deriving Repr, DecidableEq

/-- The timer of the loop, `timeMp_`, and the `RecvFileInfo` that the task of a request points to.
-/
structure State where
  timer : Timer
  timeMp_ : Nat → Option TaskId := fun _ => none
  infos : TaskId → Option RecvFileInfo := fun _ => none

/-- What happens to the requests. -/
inductive Event
  /-- A task object is used or deleted. -/
  | access (access : Access TaskId)
  | tick
  /-- `recvFile` for a client. -/
  | request (task : TaskId) (client : Nat)
  /-- `agreeRecvFile` for a client. The offer answers the request with this task, or none. -/
  | accept (client : Nat) (answers : Option TaskId)
  /-- `client->analysisProtobuf(msg)` with a notice for the request with this task. -/
  | notice (task : TaskId) (client : Nat) (msg : ControlMsg)
  deriving Repr, DecidableEq

/-- `DTP::handleRecvfileFail`. -/
def handleRecvfileFail (infos : TaskId → Option RecvFileInfo) (param : TaskId) : List Event :=
  match infos param with
  | none => []
  | some info =>
    [.notice param info.client_ (Dtp.RecvFile.makeNoticeMsg RECVFILEFAIL info.fileName_)]

/-- What the timer does, as the requests see it. -/
def onTimer (infos : TaskId → Option RecvFileInfo) : Timer.Event → List Event
  | .wheel .tick => [.tick]
  | .wheel (.doit _ _ param) => handleRecvfileFail infos param
  | .delete task => [.access (.delete task)]
  | _ => []

/-- `timeMp_.insert(make_pair(client, t))`: an entry that is there already stays. -/
def insert (timeMp_ : Nat → Option TaskId) (client : Nat) (task : TaskId) : Nat → Option TaskId :=
  Function.update timeMp_ client ((timeMp_ client).or (some task))

/-- The task of a request, as `recvFile` makes it. -/
def newTask (info : TaskId) : Task :=
  { setInterval := WAITTIMEOUT, doit := some HANDLERECVFILEFAIL, param := info }

/-- `DTP::recvFile`. `task` is the object that `new` makes, and its `RecvFileInfo` goes by the same
number. -/
def recvFile (sys : Syscalls) (task : TaskId) (client : Nat) (filename : List UInt8) (s : State) :
    Traced Event State := do
  .tell [.request task client]
  let infos := Function.update s.infos task (some { client_ := client, fileName_ := filename })
  let timer := { s.timer with wheel := s.timer.wheel.store task (newTask task) }
  .tell [.access (.use task)]
  let (_, timer) ← (timer.runAfter sys task).view (onTimer infos) id
  return { timer := timer, timeMp_ := insert s.timeMp_ client task, infos := infos }

/-- `DTP::agreeRecvFile`, the cancellation of the timer. Its `timeMp_` keeps the entry. -/
def agreeRecvFile (client : Nat) (answers : Option TaskId) (s : State) : Traced Event State := do
  .tell [.accept client answers]
  match s.timeMp_ client with
  | none => return s
  | some task =>
    .tell [.access (.use task)]
    let (_, timer) ← (s.timer.cancelRunAfter task).view (onTimer s.infos) id
    .tell [.access (.delete task)]
    return { s with timer := { timer with wheel := timer.wheel.free task } }

/-- `TimeWheel::onTick`, up to its loop. -/
def onTick (ret : ReadResult) (s : State) : Traced Event State := do
  let timer ← (s.timer.onTick ret).view (onTimer s.infos) id
  return { s with timer := timer }

/-- The task that the next turn of the loop of `onTick` reads. -/
def uses : Tick → List Event
  | .slot (task :: _) => [.access (.use task)]
  | .running task _ => [.access (.use task)]
  | _ => []

/-- One turn of the loop of `onTick`, up to the call of the task or from it on. -/
def next (s : State) : Traced Event State := do
  .tell (uses s.timer.tick)
  let timer ← s.timer.next.view (onTimer s.infos) id
  return { s with timer := timer }

/-- One step. -/
inductive Op
  | recvFile (sys : Syscalls) (task : TaskId) (client : Nat) (filename : List UInt8)
  | agreeRecvFile (client : Nat) (answers : Option TaskId)
  | onTick (ret : ReadResult)
  | next
  deriving Repr, DecidableEq

/-- The requests after one step. -/
def step (s : State) : Op → Traced Event State
  | .recvFile sys task client filename => recvFile sys task client filename s
  | .agreeRecvFile client answers => agreeRecvFile client answers s
  | .onTick ret => onTick ret s
  | .next => next s

/-- The steps that can be taken: `new` makes an object that was not there before, a tick begins when
the last one has returned, and takes no call between two turns of its loop. -/
def Possible (s : State) : Op → Prop
  | .recvFile sys task .. =>
    (∀ curSlot, s.timer.tick ≠ .slot curSlot) ∧ sys.Positive ∧ s.infos task = none
  | .agreeRecvFile .. => ∀ curSlot, s.timer.tick ≠ .slot curSlot
  | .onTick _ => s.timer.tick = .returned
  | .next => True

end RecvTimers

end Ndsl.Net
