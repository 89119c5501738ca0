import Mathlib.Logic.Function.Basic
import Ndsl.Lib.Traced

/-!
# `Ndsl.Net.Entity`: entities and their registration

`Entity.cc`, with `registEntity`, `insert`, `addRemoveWork` and `remove` of `Multiplexer.cc`.
An entity that is started makes a `DTPClient` and leaves a task for the loop, which enters the
client into `connMp_`. An entity that is destroyed leaves a task which takes the client out and
deletes it. A task names the connection and the id, and an `insert` also the entity and its client.

A `Multiplexer` stands here with the entities on it and the work queue of its loop. An
`Entity *` is the position of the entity among all that were constructed, and a `DTPClient *` the
number of clients made before it, so that no number is used again.
-/

set_option autoImplicit false

namespace Ndsl.Net.Registry

open Ndsl.Lib

/-- An `Asynclo *`. -/
abbrev Conn := Nat

/-- A `DTPClient *`. -/
abbrev Client := Nat

/-- What the registration uses of an `Entity`. `client_` is not set before `start1`. -/
structure Entity where
  conn_ : Conn
  id_ : Int
  client_ : Option Client := none
  scb_ : Option Nat := none
  startcbparam_ : Nat := 0
  deriving Repr, DecidableEq

/-- `doit` of a work item, with the `struct para` that `param` points to. -/
inductive Task
  | insert (conn : Conn) (id : Int) (entity : Nat) (dtpClient : Client)
  | remove (conn : Conn) (id : Int)
  deriving Repr, DecidableEq

/-- What happens on a multiplexer. -/
inductive Happening
  /-- `Entity::start` of this entity. -/
  | started (entity : Nat)
  /-- Its destructor. -/
  | destroyed (entity : Nat)
  /-- Its `insert` has entered its client, or has found an entry that stays. -/
  | inserted (entity : Nat)
  /-- A `bufInfo` is made for the connection, and registered with `onRecv`. -/
  | bufInfo (conn : Conn)
  /-- `scb_(startcbparam_)`. -/
  | startcb (cb param : Nat)
  /-- The `remove` of this entity deletes a client. -/
  | deleted (entity : Nat) (client : Client)
  /-- The `remove` of this entity erases the entry of a client. -/
  | erased (entity : Nat) (client : Client)
  deriving Repr, DecidableEq

/-- A multiplexer, its entities, and the queue of the loop, where each task stands beside the
entity that left it. `inInsert` is the entity whose `insert` has not called its start callback
yet. -/
structure Multiplexer where
  connMp_ : Conn → Option (Int → Option Client) := fun _ => none
  queue : List (Nat × Task) := []
  inInsert : Option Nat := none
  entities : List Entity := []
  destroyed : List Nat := []
  clients : Nat := 0

namespace Multiplexer

/-- `connMp_[conn][id]`. -/
def lookup (mul : Multiplexer) (conn : Conn) (id : Int) : Option Client :=
  (mul.connMp_ conn).bind fun mp => mp id

/-- `mp->insert(make_pair(id, client))`: an entry that is there already stays. -/
def enter (mp : Int → Option Client) (id : Int) (client : Client) : Int → Option Client :=
  Function.update mp id ((mp id).or (some client))

/-- `Multiplexer::insert`, up to the start callback. A connection that is not in the map yet gets
a map of its own, and is read from now on. -/
def insert (conn : Conn) (id : Int) (entity : Nat) (client : Client) (mul : Multiplexer) :
    Traced Happening Multiplexer :=
  match mul.connMp_ conn with
  | none => do
    .tell [.inserted entity, .bufInfo conn]
    return { mul with
      connMp_ := Function.update mul.connMp_ conn (some (enter (fun _ => none) id client))
      inInsert := some entity }
  | some mp => do
    .tell [.inserted entity]
    return { mul with
      connMp_ := Function.update mul.connMp_ conn (some (enter mp id client))
      inInsert := some entity }

/-- The end of `Multiplexer::insert`. It reads the entity, which may have been destroyed: then
`freed` is what its memory holds. -/
def startcb (freed : Option (Nat × Nat)) (entity : Nat) (mul : Multiplexer) :
    Traced Happening Multiplexer := do
  let scb :=
    if entity ∈ mul.destroyed then freed
    else mul.entities[entity]?.bind fun e => e.scb_.map fun cb => (cb, e.startcbparam_)
  .tell (scb.toList.map fun cb => .startcb cb.1 cb.2)
  return { mul with inInsert := none }

/-- `Multiplexer::remove`. -/
def remove (conn : Conn) (id : Int) (entity : Nat) (mul : Multiplexer) :
    Traced Happening Multiplexer :=
  match mul.connMp_ conn with
  | none => pure mul
  | some mp => do
    -- the map of the connection stays, also when it is empty
    match mp id with
    | none => pure ()
    | some client => .tell [.deleted entity client, .erased entity client]
    return { mul with
      connMp_ := Function.update mul.connMp_ conn (some (Function.update mp id none)) }

/-- `Entity::start`, with `start1` and `registEntity`. The parameterless one passes no callback. -/
def start (entity : Nat) (cb : Option (Nat × Nat)) (mul : Multiplexer) :
    Traced Happening Multiplexer :=
  match mul.entities[entity]? with
  | none => .fault
  | some e => do
    -- `new DTPClient`; its `insert` is left in the work queue
    let client := mul.clients
    .tell [.started entity]
    return { mul with
      entities := mul.entities.set entity
        { e with
          client_ := some client
          scb_ := cb.map Prod.fst
          startcbparam_ := (cb.map Prod.snd).getD e.startcbparam_ }
      clients := client + 1
      queue := mul.queue ++ [(entity, .insert e.conn_ e.id_ entity client)] }

/-- `Entity::~Entity`, with `addRemoveWork`. -/
def destroy (entity : Nat) (mul : Multiplexer) : Traced Happening Multiplexer :=
  match mul.entities[entity]? with
  | none => .fault
  | some e => do
    -- the client is deleted later, by the task
    .tell [.destroyed entity]
    return { mul with
      destroyed := entity :: mul.destroyed
      queue := mul.queue ++ [(entity, .remove e.conn_ e.id_)] }

/-- The loop takes the next task. -/
def run (mul : Multiplexer) : Traced Happening Multiplexer :=
  match mul.queue with
  | [] => pure mul
  | (_, .insert conn id entity client) :: queue =>
    { mul with queue := queue }.insert conn id entity client
  | (entity, .remove conn id) :: queue => { mul with queue := queue }.remove conn id entity

/-! ### Runs -/

/-- A step: of the user, or of the loop. An `insert` is two steps, because what its `onRecv`
calls may start and destroy entities. -/
inductive Action
  | construct (conn : Conn) (id : Int)
  | start (entity : Nat) (cb : Option (Nat × Nat))
  | destroy (entity : Nat)
  | run
  | startcb (freed : Option (Nat × Nat))
  deriving Repr, DecidableEq

/-- One step. -/
def step (mul : Multiplexer) : Action → Traced Happening Multiplexer
  | .construct conn id =>
    pure { mul with entities := mul.entities ++ [{ conn_ := conn, id_ := id }] }
  | .start entity cb => mul.start entity cb
  | .destroy entity => mul.destroy entity
  | .run => mul.run
  | .startcb freed =>
    match mul.inInsert with
    | none => pure mul
    | some entity => mul.startcb freed entity

/-- The steps that can be taken: an entity is started at most once and destroyed at most once,
and the loop runs one task after the other. -/
def Possible (mul : Multiplexer) : Action → Prop
  | .construct _ _ => True
  | .start entity _ =>
    entity ∉ mul.destroyed ∧ ∃ e, mul.entities[entity]? = some e ∧ e.client_ = none
  | .destroy entity => entity < mul.entities.length ∧ entity ∉ mul.destroyed
  | .run => mul.inInsert = none
  | .startcb _ => mul.inInsert ≠ none

end Multiplexer

end Ndsl.Net.Registry
