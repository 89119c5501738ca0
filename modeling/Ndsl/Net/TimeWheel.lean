import Ndsl.Lib.Traced
import Ndsl.Net.Basic
import Mathlib.Logic.Function.Basic

/-!
# `Ndsl.Net.TimeWheel`: the timer wheel

`TimeWheel.cc` and `TimeWheel.h`: sixty slots of `Task` pointers, a current tick, and the
three entry points `addTask`, `removeTask` and `onTick`. A pointer is a `TaskId`, the objects
behind the pointers are the map `Wheel.tasks`, and `delete` takes an object out of that map;
reading through a pointer to no object stops the execution.

Each entry point leaves its outcome in the trace: `Event.added` and `Event.removed` for an
`addTask` or a `removeTask` that returned `S_OK`, `Event.tick` where `onTick` has advanced
`curTick_`, `Event.doit` for a call of a task's function. The callbacks of the tasks that a
tick runs may call `addTask` themselves; what they add is an input of `onTick`.
-/

set_option autoImplicit false

namespace Ndsl.Net

open Ndsl.Lib

namespace TimeWheel

/-- The number of slots. -/
def SLOTNUM : Nat := 60

/-- A `Task *`. -/
abbrev TaskId := Nat

/-- A task object. `setTick` is `none` for the default `-1`, `doit` is `none` for `NULL`. -/
structure Task where
  setInterval : Int := -1
  times : Int := 1
  doit : Option Nat
  param : Nat
  restInterval : Int := -1
  setTick : Option (Fin SLOTNUM) := none
  deriving Repr, DecidableEq

/-- `curTick_`, `slot_`, and the task objects that have not been deleted. -/
structure Wheel where
  curTick : Fin SLOTNUM
  slot : Fin SLOTNUM → List TaskId
  tasks : TaskId → Option Task

/-- The wheel as its constructor and `initChannel` leave it, over the task objects
`tasks`. -/
def Wheel.init (tasks : TaskId → Option Task) : Wheel :=
  { curTick := ⟨0, by decide⟩, slot := fun _ => [], tasks := tasks }

/-- What a run of the wheel shows from outside. -/
inductive Event
  | added (task : TaskId)
  | removed (task : TaskId)
  | tick
  | doit (task : TaskId) (func param : Nat)
  deriving Repr, DecidableEq

/-- Read `*task`. -/
def Wheel.deref (w : Wheel) (task : TaskId) : Traced Event Task :=
  match w.tasks task with
  | none => .fault
  | some t => pure t

/-- Write `*task`. -/
def Wheel.store (w : Wheel) (task : TaskId) (t : Task) : Wheel :=
  { w with tasks := Function.update w.tasks task (some t) }

/-- `delete task`. -/
def Wheel.free (w : Wheel) (task : TaskId) : Wheel :=
  { w with tasks := Function.update w.tasks task none }

/-- `slot_[i].push_back(task)`. -/
def Wheel.pushBack (w : Wheel) (i : Fin SLOTNUM) (task : TaskId) : Wheel :=
  { w with slot := Function.update w.slot i (w.slot i ++ [task]) }

/-- `(curTick_ + interval) % SLOTNUM`. The sum is an `int`, so it stops at an overflow; a
negative remainder, which no caller produces, would not be a slot. -/
def slotAfter (curTick : Fin SLOTNUM) (interval : Int) : Traced Event (Fin SLOTNUM) :=
  if 0 ≤ (curTick : Int) + interval ∧ (curTick : Int) + interval ≤ INT_MAX then
    pure ⟨((curTick : Int) + interval).toNat % SLOTNUM, Nat.mod_lt _ (by decide)⟩
  else .fault

/-- `TimeWheel::addTask`. -/
def addTask (w : Wheel) (task : TaskId) : Traced Event (Wheel × Int) := do
  let t ← w.deref task
  if t.setInterval < 0 ∨ t.doit = none then
    return (w, S_FALSE)
  -- an interval of zero means the next tick, since the slot of this one was swapped out
  let setTick ← slotAfter w.curTick (if t.setInterval = 0 then 1 else t.setInterval)
  let w := w.store task { t with setTick := some setTick, restInterval := t.setInterval }
  let w := w.pushBack setTick task
  .tell [.added task]
  return (w, S_OK)

/-- `TimeWheel::removeTask`. `List.erase` is `std::find` followed by `erase` of the place
found. -/
def removeTask (w : Wheel) (task : TaskId) : Traced Event (Wheel × Int) := do
  let t ← w.deref task
  if t.setInterval = -1 ∨ t.doit = none then
    return (w, S_FALSE)
  -- only the slot that the task names is searched
  match t.setTick with
  | none => return (w, S_FALSE)
  | some i =>
    if task ∉ w.slot i then
      return (w, S_FALSE)
    let w := { w with slot := Function.update w.slot i ((w.slot i).erase task) }
    .tell [.removed task]
    return (w, S_OK)

/-- The calls of `addTask` that one callback makes, in order. -/
def addTasks (w : Wheel) (tasks : List TaskId) : Traced Event Wheel :=
  tasks.foldlM (fun w task => do return (← addTask w task).1) w

/-- The turns of the loop in `onTick` that find the task with more than a round to go. Each takes
a round off `restInterval` and puts the pointer into the current slot. `it` does not move on, so
the next turn looks at the same task again, until its last round. -/
@[semireducible] def putBack (w : Wheel) (task : TaskId) (t : Task) : Wheel × Task :=
  if t.restInterval > SLOTNUM then
    let t := { t with restInterval := t.restInterval - SLOTNUM }
    putBack ((w.store task t).pushBack w.curTick task) task t
  else (w, t)
termination_by t.restInterval.toNat
decreasing_by
  simp only [SLOTNUM] at *
  omega

/-- The turns of the loop in `onTick` at one task of the list taken out of the current slot, up to
the one behind which `it` moves on. `adds` is what the task's callback adds to the wheel. -/
def runTask (w : Wheel) (task : TaskId) (adds : List TaskId) : Traced Event Wheel := do
  -- the callback before may have changed the wheel
  let t ← w.deref task
  let (w, t) := putBack w task t
  match t.doit with
  | none => .fault
  | some func =>
    .tell [.doit task func t.param]
    let w ← addTasks w adds
    let t ← w.deref task
    let times := if t.times > 0 then t.times - 1 else t.times
    if times = 0 then
      return w.free task
    let setTick ← slotAfter w.curTick t.setInterval
    let w := w.store task
      { t with times := times, setTick := some setTick, restInterval := t.setInterval }
    return w.pushBack setTick task

/-- The loop of `onTick` over the list swapped out of the current slot. `calls` holds what
the callbacks add, one list for each task of the slot. -/
def runSlot (w : Wheel) : List TaskId → List (List TaskId) → Traced Event Wheel
  | [], _ => pure w
  | task :: rest, calls => do
    let w ← runTask w task (calls.headD [])
    runSlot w rest calls.tail

/-- What `read` on the timerfd gives: an expiration count, or `-1` with `errno`. -/
inductive ReadResult
  | expirations (exp : Nat)
  | error (errno : Int)
  deriving Repr, DecidableEq

/-- `++curTick_` and its reduction modulo `SLOTNUM`. -/
def nextTick (curTick : Fin SLOTNUM) : Fin SLOTNUM :=
  ⟨if curTick.val + 1 ≥ 60 then (curTick.val + 1) % SLOTNUM else curTick.val + 1, by
    split
    · exact Nat.mod_lt _ (by decide)
    · exact Nat.lt_of_not_ge ‹_›⟩

/-- `TimeWheel::onTick`. The expiration count is read and not used. -/
def onTick (w : Wheel) (ret : ReadResult) (calls : List (List TaskId)) :
    Traced Event (Wheel × Int) := do
  match ret with
  | .error errno => return (w, errno)
  | .expirations _ =>
    let w := { w with curTick := nextTick w.curTick }
    .tell [.tick]
    if w.slot w.curTick = [] then
      return (w, S_OK)
    -- the callbacks work on a wheel whose slot is empty
    let curSlot := w.slot w.curTick
    let w := { w with slot := Function.update w.slot w.curTick [] }
    let w ← runSlot w curSlot calls
    return (w, S_OK)

/-- One call into the wheel from outside. -/
inductive Op
  | addTask (task : TaskId)
  | removeTask (task : TaskId)
  | onTick (ret : ReadResult) (calls : List (List TaskId))
  deriving Repr, DecidableEq

/-- The wheel after one call. -/
def step (w : Wheel) : Op → Traced Event Wheel
  | .addTask task => do return (← addTask w task).1
  | .removeTask task => do return (← removeTask w task).1
  | .onTick ret calls => do return (← onTick w ret calls).1

/-- The wheel after a run of calls. -/
def run (ops : List Op) (w : Wheel) : Traced Event Wheel := ops.foldlM step w

end TimeWheel

end Ndsl.Net
