import Ndsl.Net.Entity

/-!
# `Ndsl.Proofs.Registry.Consistent`: the registry and the entities agree

`Consistent` says what the registry is for: the lookup finds the client of the entity that was
started last for a connection and an id, a `remove` takes out and deletes the client of its own
entity and no other, no client is deleted twice, and every connection is read by one `bufInfo`.

A task names its entity only by the connection and the id, and a map keeps an entry that is there
already, so this takes some care of the user. `Separate` is that care: an entity is started only
when no other one of its pair is alive, and one that was never started is destroyed only then.
`consistent_of_separate` proves that it is enough, whatever the order of the tasks, and
`taken_over` shows what happens without it.

The induction is on `Leads`: from what the map holds now, the tasks in the queue lead, one after
the other and without ever meeting an entry of another entity, to the client of the entity alive.
-/

set_option autoImplicit false

namespace Ndsl.Proofs.Registry

open Ndsl.Lib
open Ndsl.Net.Registry
open Ndsl.Net.Registry.Multiplexer

/-! ### What the registry is for -/

/-- The client of an entity, which has none before it is started. -/
def clientOf (mul : Multiplexer) (entity : Nat) : Option Client :=
  mul.entities[entity]?.bind Entity.client_

/-- The connection and the id of an entity. -/
def pairOf (mul : Multiplexer) (entity : Nat) : Option (Conn × Int) :=
  mul.entities[entity]?.map fun e => (e.conn_, e.id_)

/-- The entity was started and has not been destroyed. -/
def Alive (mul : Multiplexer) (entity : Nat) : Prop :=
  (clientOf mul entity).isSome ∧ entity ∉ mul.destroyed

/-- The entity's `insert` has run, it has not been destroyed, and none of its pair was started
after it. -/
def Current (mul : Multiplexer) (log : List Happening) (entity : Nat) : Prop :=
  .inserted entity ∈ log ∧ .destroyed entity ∉ log ∧
    ∀ pre post, log = pre ++ .started entity :: post →
      ∀ other, .started other ∈ post → pairOf mul other ≠ pairOf mul entity

/-- The clients that were deleted. -/
def deletions (log : List Happening) : List Client :=
  log.filterMap fun
    | .deleted _ client => some client
    | _ => none

@[simp] theorem deletions_append (log es : List Happening) :
    deletions (log ++ es) = deletions log ++ deletions es := List.filterMap_append

/-- The registry agrees with the entities. -/
structure Consistent (mul : Multiplexer) (log : List Happening) : Prop where
  lookup : ∀ entity conn id, pairOf mul entity = some (conn, id) → Current mul log entity →
    ∃ client, clientOf mul entity = some client ∧ mul.lookup conn id = some client
  own : ∀ entity client, .deleted entity client ∈ log ∨ .erased entity client ∈ log →
    clientOf mul entity = some client
  once : (deletions log).Nodup
  read : ∀ entity conn id, pairOf mul entity = some (conn, id) → .inserted entity ∈ log →
    log.count (.bufInfo conn) = 1
  readOnce : ∀ conn, log.count (.bufInfo conn) ≤ 1

/-- The care that the user has to take. -/
def Separate (mul : Multiplexer) : Action → Prop
  | .start entity _ => ∀ other, Alive mul other → pairOf mul other ≠ pairOf mul entity
  | .destroy entity =>
    clientOf mul entity = none → ∀ other, Alive mul other → pairOf mul other ≠ pairOf mul entity
  | _ => True

/-! ### Where the tasks lead -/

/-- The pair that a task is for. -/
def pairOfTask : Task → Conn × Int
  | .insert conn id _ _ => (conn, id)
  | .remove conn id => (conn, id)

/-- The tasks of a queue lead the entry of a pair from one client to another: an `insert` finds
no entry, and a `remove` finds the client of its own entity, or nothing when there is none. -/
inductive Leads (owner : Nat → Option Client) (pair : Conn × Int) :
    Option Client → List (Nat × Task) → Option Client → Prop
  | nil (v : Option Client) : Leads owner pair v [] v
  | insert {w : Option Client} {queue : List (Nat × Task)} (entity : Nat) (client : Client)
      (howner : owner entity = some client) (hrest : Leads owner pair (some client) queue w) :
      Leads owner pair none ((entity, .insert pair.1 pair.2 entity client) :: queue) w
  | remove {w : Option Client} {queue : List (Nat × Task)} (entity : Nat)
      (hrest : Leads owner pair none queue w) :
      Leads owner pair (owner entity) ((entity, .remove pair.1 pair.2) :: queue) w
  | other {v w : Option Client} {queue : List (Nat × Task)} (entity : Nat) (task : Task)
      (hother : pairOfTask task ≠ pair) (hrest : Leads owner pair v queue w) :
      Leads owner pair v ((entity, task) :: queue) w

section Leads
variable {owner owner' : Nat → Option Client} {pair : Conn × Int} {v w u : Option Client}
  {queue : List (Nat × Task)}

/-- One more task at the end of the queue. -/
theorem Leads.snoc {x : Nat × Task} (h : Leads owner pair v queue w)
    (hx : Leads owner pair w [x] u) : Leads owner pair v (queue ++ [x]) u := by
  induction h with
  | nil v => exact hx
  | insert entity client howner _ ih => exact .insert entity client howner (ih hx)
  | remove entity _ ih => exact .remove entity (ih hx)
  | other entity task hother _ ih => exact .other entity task hother (ih hx)

/-- Only the owners of the tasks matter. -/
theorem Leads.congr (hsame : ∀ x ∈ queue, owner' x.1 = owner x.1)
    (h : Leads owner pair v queue w) : Leads owner' pair v queue w := by
  induction h with
  | nil v => exact .nil v
  | insert entity client howner _ ih =>
      refine .insert entity client ?_ (ih fun x hx => hsame x (List.mem_cons_of_mem _ hx))
      rw [← howner]
      exact hsame _ (List.mem_cons_self ..)
  | remove entity _ ih =>
      have howner : owner' entity = owner entity := hsame _ (List.mem_cons_self ..)
      rw [← howner]
      exact .remove entity (ih fun x hx => hsame x (List.mem_cons_of_mem _ hx))
  | other entity task hother _ ih =>
      exact .other entity task hother (ih fun x hx => hsame x (List.mem_cons_of_mem _ hx))

/-- A queue that leads to a client finds it in the map, or has its `insert` before it. -/
theorem Leads.last {client : Client} (h : Leads owner pair v queue (some client)) :
    v = some client ∨ ∃ entity, owner entity = some client ∧
      (entity, .insert pair.1 pair.2 entity client) ∈ queue := by
  obtain ⟨w, hw⟩ : ∃ w, w = some client := ⟨_, rfl⟩
  rw [← hw] at h
  induction h with
  | nil v => exact .inl hw
  | insert entity client' howner _ ih =>
      right
      rcases ih hw with heq | ⟨entity', howner', hmem⟩
      · obtain rfl := Option.some.inj heq
        exact ⟨entity, howner, List.mem_cons_self ..⟩
      · exact ⟨entity', howner', List.mem_cons_of_mem _ hmem⟩
  | remove entity _ ih =>
      rcases ih hw with heq | ⟨entity', howner', hmem⟩
      · exact absurd heq.symm (Option.some_ne_none client)
      · exact .inr ⟨entity', howner', List.mem_cons_of_mem _ hmem⟩
  | other entity task _ _ ih =>
      rcases ih hw with heq | ⟨entity', howner', hmem⟩
      · exact .inl heq
      · exact .inr ⟨entity', howner', List.mem_cons_of_mem _ hmem⟩

/-- The first task, when it is one of the pair. -/
theorem Leads.head_insert {entity entity' : Nat} {client : Client}
    (h : Leads owner pair v ((entity, .insert pair.1 pair.2 entity' client) :: queue) w) :
    v = none ∧ Leads owner pair (some client) queue w := by
  cases h with
  | insert _ _ _ hrest => exact ⟨rfl, hrest⟩
  | other _ _ hother _ => exact absurd rfl hother

theorem Leads.head_remove {entity : Nat}
    (h : Leads owner pair v ((entity, .remove pair.1 pair.2) :: queue) w) :
    v = owner entity ∧ Leads owner pair none queue w := by
  cases h with
  | remove _ hrest => exact ⟨rfl, hrest⟩
  | other _ _ hother _ => exact absurd rfl hother

/-- The first task, when it is one of another pair. -/
theorem Leads.head_other {entity : Nat} {task : Task} (hother : pairOfTask task ≠ pair)
    (h : Leads owner pair v ((entity, task) :: queue) w) : Leads owner pair v queue w := by
  cases h with
  | insert _ _ _ _ => exact absurd rfl hother
  | remove _ _ => exact absurd rfl hother
  | other _ _ _ hrest => exact hrest

end Leads

/-! ### What one task does -/

/-- `insert` keeps an entry that is there, and reads a connection that it meets for the first
time. -/
theorem insert_yields (mul : Multiplexer) (conn : Conn) (id : Int) (entity : Nat)
    (client : Client) :
    ∃ connMp,
      (mul.insert conn id entity client).Yields
        (.inserted entity :: if (mul.connMp_ conn).isSome then [] else [.bufInfo conn])
        { mul with connMp_ := connMp, inInsert := some entity } ∧
      (∀ c i, (connMp c).bind (fun mp => mp i) =
        if (c, i) = (conn, id) then (mul.lookup conn id).or (some client) else mul.lookup c i) ∧
      ∀ c, (connMp c).isSome = (decide (c = conn) || (mul.connMp_ c).isSome) := by
  have hmap : ∀ (mp : Int → Option Client) (c : Conn) (i : Int),
      (∀ j, mul.lookup conn j = mp j) →
      (Function.update mul.connMp_ conn (some (enter mp id client)) c).bind (fun mp => mp i) =
        if (c, i) = (conn, id) then (mul.lookup conn id).or (some client) else mul.lookup c i := by
    intro mp c i hlookup
    by_cases hc : c = conn
    · subst hc
      rw [Function.update_self]
      show Function.update mp id ((mp id).or (some client)) i = _
      by_cases hi : i = id
      · subst hi
        rw [Function.update_self, if_pos rfl, hlookup]
      · rw [Function.update_of_ne hi, if_neg (fun h => hi (Prod.mk.inj h).2), hlookup]
    · rw [Function.update_of_ne hc, if_neg (fun h => hc (Prod.mk.inj h).1)]
      rfl
  have hsome : ∀ (mp : Int → Option Client) (c : Conn),
      (Function.update mul.connMp_ conn (some mp) c).isSome =
        (decide (c = conn) || (mul.connMp_ c).isSome) := by
    intro mp c
    by_cases hc : c = conn
    · subst hc
      simp
    · simp [hc]
  cases hconn : mul.connMp_ conn with
  | none =>
      refine ⟨_, ?_, fun c i => hmap (fun _ => none) c i ?_, hsome _⟩
      · simp only [Multiplexer.insert, hconn]
        exact ⟨rfl, rfl⟩
      · intro j
        rw [Net.Registry.Multiplexer.lookup, hconn]
        rfl
  | some mp =>
      refine ⟨_, ?_, fun c i => hmap mp c i ?_, hsome _⟩
      · simp only [Multiplexer.insert, hconn]
        exact ⟨rfl, rfl⟩
      · intro j
        rw [Net.Registry.Multiplexer.lookup, hconn]
        rfl

/-- `remove` deletes what the lookup finds. -/
theorem remove_yields (mul : Multiplexer) (conn : Conn) (id : Int) (entity : Nat) :
    ∃ connMp,
      (mul.remove conn id entity).Yields
        ((mul.lookup conn id).toList.flatMap fun client =>
          [.deleted entity client, .erased entity client])
        { mul with connMp_ := connMp } ∧
      (∀ c i, (connMp c).bind (fun mp => mp i) =
        if (c, i) = (conn, id) then none else mul.lookup c i) ∧
      ∀ c, (connMp c).isSome = (mul.connMp_ c).isSome := by
  cases hconn : mul.connMp_ conn with
  | none =>
      -- no map for the connection: nothing is found, and nothing is done
      refine ⟨mul.connMp_, ?_, ?_, fun _ => rfl⟩
      · simp only [Multiplexer.remove, Net.Registry.Multiplexer.lookup, hconn]
        exact ⟨rfl, rfl⟩
      · intro c i
        split
        · rename_i heq
          obtain ⟨rfl, rfl⟩ := Prod.mk.inj heq
          rw [hconn]
          rfl
        · rfl
  | some mp =>
      refine ⟨Function.update mul.connMp_ conn (some (Function.update mp id none)), ?_, ?_, ?_⟩
      · have hlookup : mul.lookup conn id = mp id := by
          rw [Net.Registry.Multiplexer.lookup, hconn]
          rfl
        simp only [Multiplexer.remove, hconn, hlookup]
        cases mp id with
        | none => exact ⟨rfl, rfl⟩
        | some client => exact ⟨rfl, rfl⟩
      · intro c i
        -- only the entry of the pair changes, and the map of the connection stays
        by_cases hc : c = conn
        · subst hc
          rw [Function.update_self]
          show Function.update mp id none i = _
          by_cases hi : i = id
          · subst hi
            rw [Function.update_self, if_pos rfl]
          · rw [Function.update_of_ne hi, if_neg (fun h => hi (Prod.mk.inj h).2),
              Net.Registry.Multiplexer.lookup, hconn]
            rfl
        · rw [Function.update_of_ne hc, if_neg (fun h => hc (Prod.mk.inj h).1)]
          rfl
      · intro c
        by_cases hc : c = conn
        · subst hc
          rw [Function.update_self, hconn]
          rfl
        · rw [Function.update_of_ne hc]

/-! ### The invariant -/

/-- The task is one that this entity leaves. -/
def Leaves (mul : Multiplexer) (log : List Happening) (entity : Nat) : Task → Prop
  | .insert conn id entity' client =>
    entity' = entity ∧ pairOf mul entity = some (conn, id) ∧
      clientOf mul entity = some client ∧ .inserted entity ∉ log
  | .remove conn id =>
    pairOf mul entity = some (conn, id) ∧ entity ∈ mul.destroyed ∧
      ∀ client, .deleted entity client ∉ log

/-- The client of the entity that is alive for a pair. -/
def Final (mul : Multiplexer) (pair : Conn × Int) (w : Option Client) : Prop :=
  ∀ client, w = some client ↔
    ∃ entity, Alive mul entity ∧ pairOf mul entity = some pair ∧
      clientOf mul entity = some client

/-- The invariant of a run.

- `fresh`, `injective`: every client was made for one entity;
- `alone`: no two entities of a pair are alive;
- `left`, `distinct`: the tasks in the queue are those that were left, each once;
- `leads`: they lead to the client of the entity that is alive;
- the rest relates the trace to the state. -/
structure Inv (log : List Happening) (mul : Multiplexer) : Prop where
  fresh : ∀ entity client, clientOf mul entity = some client → client < mul.clients
  injective : ∀ entity entity' client, clientOf mul entity = some client →
    clientOf mul entity' = some client → entity = entity'
  alone : ∀ entity entity', Alive mul entity → Alive mul entity' →
    pairOf mul entity = pairOf mul entity' → entity = entity'
  left : ∀ x ∈ mul.queue, Leaves mul log x.1 x.2
  distinct : mul.queue.Nodup
  leads : ∀ pair, ∃ w, Leads (clientOf mul) pair (mul.lookup pair.1 pair.2) mul.queue w ∧
    Final mul pair w
  gone : ∀ entity, .destroyed entity ∈ log ↔ entity ∈ mul.destroyed
  inserted : ∀ entity, .inserted entity ∈ log →
    (clientOf mul entity).isSome ∧
      ∀ pair, pairOf mul entity = some pair → (mul.connMp_ pair.1).isSome
  deleted : ∀ entity client, .deleted entity client ∈ log → entity ∈ mul.destroyed
  own : ∀ entity client, .deleted entity client ∈ log ∨ .erased entity client ∈ log →
    clientOf mul entity = some client
  once : (deletions log).Nodup
  read : ∀ conn, log.count (.bufInfo conn) = if (mul.connMp_ conn).isSome then 1 else 0

/-- The invariant is the agreement. -/
theorem Inv.consistent {log : List Happening} {mul : Multiplexer} (h : Inv log mul) :
    Consistent mul log := by
  refine ⟨?_, h.own, h.once, ?_, ?_⟩
  · intro entity conn id hpair hcurrent
    obtain ⟨hinserted, hdestroyed, -⟩ := hcurrent
    obtain ⟨client, hclient⟩ := Option.isSome_iff_exists.mp (h.inserted entity hinserted).1
    refine ⟨client, hclient, ?_⟩
    have halive : Alive mul entity :=
      ⟨(h.inserted entity hinserted).1, fun hmem => hdestroyed ((h.gone entity).mpr hmem)⟩
    obtain ⟨w, hleads, hfinal⟩ := h.leads (conn, id)
    obtain rfl := (hfinal client).mpr ⟨entity, halive, hpair, hclient⟩
    -- the map has the client, or the entity's `insert` would still be to come
    rcases hleads.last with hlookup | ⟨entity', howner, hmem⟩
    · exact hlookup
    · obtain rfl := h.injective entity entity' client hclient howner
      exact absurd hinserted (h.left _ hmem).2.2.2
  · intro entity conn id hpair hinserted
    rw [h.read, if_pos ((h.inserted entity hinserted).2 _ hpair)]
  · intro conn
    rw [h.read]
    split <;> omega

/-! ### Parts of the invariant -/

section Parts
variable {log log' : List Happening} {mul mul' : Multiplexer} {entity : Nat}

/-- A task that was left stays one as long as the trace does not say that it has run. -/
theorem Leaves.mono {task : Task} (h : Leaves mul log entity task)
    (hpair : ∀ pair, pairOf mul entity = some pair → pairOf mul' entity = some pair)
    (hclient : ∀ client, clientOf mul entity = some client → clientOf mul' entity = some client)
    (hgone : entity ∈ mul.destroyed → entity ∈ mul'.destroyed)
    (hinserted : ∀ conn id client, task = .insert conn id entity client →
      .inserted entity ∈ log' → .inserted entity ∈ log)
    (hdeleted : ∀ conn id, task = .remove conn id →
      ∀ client, .deleted entity client ∈ log' → .deleted entity client ∈ log) :
    Leaves mul' log' entity task := by
  cases task with
  | insert conn id entity' client =>
      obtain ⟨rfl, hp, hc, hnot⟩ := h
      exact ⟨rfl, hpair _ hp, hclient _ hc, fun hin => hnot (hinserted _ _ _ rfl hin)⟩
  | remove conn id =>
      obtain ⟨hp, hd, hnot⟩ := h
      exact ⟨hpair _ hp, hgone hd, fun c hin => hnot c (hdeleted _ _ rfl c hin)⟩

/-- An entity that has not been destroyed and has no client has left no task. -/
theorem Leaves.not_new {task : Task} (h : Leaves mul log entity task)
    (hlive : entity ∉ mul.destroyed) : (clientOf mul entity).isSome := by
  cases task with
  | insert conn id entity' client =>
      obtain ⟨-, -, hc, -⟩ := h
      rw [hc]
      rfl
  | remove conn id => exact absurd h.2.1 hlive

/-- Where the tasks of a pair are to lead depends on who is alive for it. -/
theorem Final.congr {pair : Conn × Int} {w : Option Client} (h : Final mul pair w)
    (hsame : ∀ other client,
      (Alive mul' other ∧ pairOf mul' other = some pair ∧ clientOf mul' other = some client) ↔
        Alive mul other ∧ pairOf mul other = some pair ∧ clientOf mul other = some client) :
    Final mul' pair w :=
  fun client => (h client).trans (exists_congr fun other => (hsame other client).symm)

/-- Nobody is alive for a pair: its tasks lead to nothing. -/
theorem Final.eq_none {pair : Conn × Int} {w : Option Client} (h : Final mul pair w)
    (hnobody : ∀ other, Alive mul other → pairOf mul other ≠ some pair) : w = none := by
  cases w with
  | none => rfl
  | some client =>
      obtain ⟨other, hother, hp, -⟩ := (h client).mp rfl
      exact absurd hp (hnobody other hother)

theorem final_none {pair : Conn × Int}
    (hnobody : ∀ other, Alive mul other → pairOf mul other ≠ some pair) : Final mul pair none := by
  refine fun client => ⟨fun hc => absurd hc.symm (Option.some_ne_none client), ?_⟩
  rintro ⟨other, hother, hp, -⟩
  exact absurd hp (hnobody other hother)

/-- One entity is alive for a pair: its tasks lead to its client. -/
theorem final_some {pair : Conn × Int} {client : Client} (hentity : Alive mul entity)
    (hpair : pairOf mul entity = some pair) (hclient : clientOf mul entity = some client)
    (halone : ∀ other, Alive mul other → pairOf mul other = some pair → other = entity) :
    Final mul pair (some client) := by
  intro client'
  constructor
  · intro heq
    exact ⟨entity, hentity, hpair, hclient.trans heq⟩
  · rintro ⟨other, hother, hp, hc⟩
    obtain rfl := halone other hother hp
    exact hclient.symm.trans hc

/-- A step that leaves the trace alone, and in which nobody loses a client. -/
theorem Inv.of_same_log (h : Inv log mul)
    (hclient : ∀ entity client, clientOf mul entity = some client →
      clientOf mul' entity = some client ∧ pairOf mul' entity = pairOf mul entity)
    (hdestroyed : mul'.destroyed = mul.destroyed) (hconn : mul'.connMp_ = mul.connMp_)
    (fresh : ∀ entity client, clientOf mul' entity = some client → client < mul'.clients)
    (injective : ∀ entity entity' client, clientOf mul' entity = some client →
      clientOf mul' entity' = some client → entity = entity')
    (alone : ∀ entity entity', Alive mul' entity → Alive mul' entity' →
      pairOf mul' entity = pairOf mul' entity' → entity = entity')
    (left : ∀ x ∈ mul'.queue, Leaves mul' log x.1 x.2) (distinct : mul'.queue.Nodup)
    (leads : ∀ pair, ∃ w, Leads (clientOf mul') pair (mul.lookup pair.1 pair.2) mul'.queue w ∧
      Final mul' pair w) : Inv log mul' where
  fresh := fresh
  injective := injective
  alone := alone
  left := left
  distinct := distinct
  leads := by
    have hlookup : mul'.lookup = mul.lookup := by
      unfold Net.Registry.Multiplexer.lookup
      rw [hconn]
    rw [hlookup]
    exact leads
  gone := by rw [hdestroyed]; exact h.gone
  inserted := by
    intro entity hin
    obtain ⟨hsome, hmap⟩ := h.inserted entity hin
    obtain ⟨client, hc⟩ := Option.isSome_iff_exists.mp hsome
    obtain ⟨hc', hp⟩ := hclient entity client hc
    rw [hc', hp, hconn]
    exact ⟨rfl, hmap⟩
  deleted := by rw [hdestroyed]; exact h.deleted
  own := fun entity client hin => (hclient entity client (h.own entity client hin)).1
  once := h.once
  read := by rw [hconn]; exact h.read

/-- The loop runs a task, which touches the map and the trace only. -/
theorem Inv.of_ran (h : Inv log mul) {x : Nat × Task} {queue : List (Nat × Task)}
    (hqueue : mul.queue = x :: queue)
    {connMp : Conn → Option (Int → Option Client)} {inInsert : Option Nat}
    (hmul : mul' = { mul with queue := queue, connMp_ := connMp, inInsert := inInsert })
    (left : ∀ y ∈ queue, Leaves mul log' y.1 y.2)
    (leads : ∀ pair w, Leads (clientOf mul) pair (mul.lookup pair.1 pair.2) (x :: queue) w →
      Leads (clientOf mul) pair ((connMp pair.1).bind fun mp => mp pair.2) queue w)
    (gone : ∀ entity, .destroyed entity ∈ log' ↔ .destroyed entity ∈ log)
    (inserted : ∀ entity, .inserted entity ∈ log' → (clientOf mul entity).isSome ∧
      ∀ pair, pairOf mul entity = some pair → (connMp pair.1).isSome)
    (deleted : ∀ entity client, .deleted entity client ∈ log' → entity ∈ mul.destroyed)
    (own : ∀ entity client, .deleted entity client ∈ log' ∨ .erased entity client ∈ log' →
      clientOf mul entity = some client)
    (once : (deletions log').Nodup)
    (read : ∀ conn, log'.count (.bufInfo conn) = if (connMp conn).isSome then 1 else 0) :
    Inv log' mul' := by
  have hdistinct := h.distinct
  rw [hqueue, List.nodup_cons] at hdistinct
  subst hmul
  exact {
    fresh := h.fresh
    injective := h.injective
    alone := h.alone
    left := fun y hy => (left y hy).mono (fun _ hp => hp) (fun _ hc => hc) id
      (fun _ _ _ _ hin => hin) (fun _ _ _ _ hin => hin)
    distinct := hdistinct.2
    leads := by
      intro pair
      obtain ⟨w, hleads, hfinal⟩ := h.leads pair
      rw [hqueue] at hleads
      exact ⟨w, leads pair w hleads, hfinal⟩
    gone := fun entity => (gone entity).trans (h.gone entity)
    inserted := inserted
    deleted := deleted
    own := own
    once := once
    read := read }

end Parts

section Steps
variable {log es : List Happening} {mul mul' : Multiplexer}

/-- Events that the invariant does not speak of. -/
theorem Inv.silent (h : Inv log mul)
    (hes : ∀ e ∈ es, (∃ entity, e = .started entity) ∨ ∃ cb param, e = .startcb cb param) :
    Inv (log ++ es) mul := by
  -- the other events are the same as before, so each part of the invariant is
  have hmem : ∀ e, (∀ entity, e ≠ .started entity) → (∀ cb param, e ≠ .startcb cb param) →
      (e ∈ log ++ es ↔ e ∈ log) := by
    intro e hstarted hstartcb
    rw [List.mem_append, or_iff_left_iff_imp]
    intro he
    rcases hes e he with ⟨entity, heq⟩ | ⟨cb, param, heq⟩
    · exact absurd heq (hstarted entity)
    · exact absurd heq (hstartcb cb param)
  have hdeletions : deletions (log ++ es) = deletions log := by
    have hnil : deletions es = [] := by
      refine List.filterMap_eq_nil_iff.mpr fun e he => ?_
      rcases hes e he with ⟨entity, rfl⟩ | ⟨cb, param, rfl⟩
      · rfl
      · rfl
    rw [deletions_append, hnil, List.append_nil]
  have hcount : ∀ conn, (log ++ es).count (.bufInfo conn) = log.count (.bufInfo conn) := by
    intro conn
    rw [List.count_append, Nat.add_eq_left]
    refine List.count_eq_zero.mpr fun he => ?_
    rcases hes _ he with ⟨entity, heq⟩ | ⟨cb, param, heq⟩
    · exact Happening.noConfusion heq
    · exact Happening.noConfusion heq
  refine ⟨h.fresh, h.injective, h.alone, ?_, h.distinct, h.leads, ?_, ?_, ?_, ?_, ?_, ?_⟩
  · intro x hx
    exact (h.left x hx).mono (fun _ hp => hp) (fun _ hc => hc) id
      (fun _ _ _ _ hin => (hmem _ (by simp) (by simp)).mp hin)
      (fun _ _ _ _ hin => (hmem _ (by simp) (by simp)).mp hin)
  · intro entity
    rw [hmem _ (by simp) (by simp)]
    exact h.gone entity
  · intro entity hin
    exact h.inserted entity ((hmem _ (by simp) (by simp)).mp hin)
  · intro entity client hin
    exact h.deleted entity client ((hmem _ (by simp) (by simp)).mp hin)
  · intro entity client hin
    rw [hmem _ (by simp) (by simp), hmem _ (by simp) (by simp)] at hin
    exact h.own entity client hin
  · rw [hdeletions]
    exact h.once
  · intro conn
    rw [hcount]
    exact h.read conn

/-- A new entity. -/
theorem Inv.construct (h : Inv log mul) {conn : Conn} {id : Int}
    (hmul : mul' = { mul with entities := mul.entities ++ [{ conn_ := conn, id_ := id }] }) :
    Inv log mul' := by
  -- a new entity is behind all others, and has no client yet
  have hclient : ∀ entity, clientOf mul' entity = clientOf mul entity := by
    intro entity
    rw [hmul]
    show Option.bind (mul.entities ++ [_])[entity]? _ = mul.entities[entity]?.bind _
    rcases Nat.lt_trichotomy entity mul.entities.length with hlt | rfl | hgt
    · rw [List.getElem?_append_left hlt]
    · simp
    · rw [List.getElem?_eq_none (by rw [List.length_append]; exact hgt),
        List.getElem?_eq_none (Nat.le_of_lt hgt)]
  have hpair : ∀ entity pair, pairOf mul entity = some pair → pairOf mul' entity = some pair := by
    intro entity pair hpair
    obtain ⟨e, he, rfl⟩ := Option.map_eq_some_iff.mp hpair
    obtain ⟨hlt, -⟩ := List.getElem?_eq_some_iff.mp he
    rw [hmul]
    show Option.map _ (mul.entities ++ [_])[entity]? = _
    rw [List.getElem?_append_left hlt, he]
    rfl
  -- an entity that has a client was there before
  have hsame : ∀ entity, (clientOf mul entity).isSome → pairOf mul' entity = pairOf mul entity := by
    intro entity hsome
    obtain ⟨client, hc⟩ := Option.isSome_iff_exists.mp hsome
    obtain ⟨e, he, -⟩ := Option.bind_eq_some_iff.mp hc
    have hsomePair : pairOf mul entity = some (e.conn_, e.id_) := by rw [pairOf, he]; rfl
    rw [hsomePair]
    exact hpair entity _ hsomePair
  have halive : ∀ entity, Alive mul' entity ↔ Alive mul entity := by
    intro entity
    rw [Alive, hclient, hmul]
    exact Iff.rfl
  have hqueue : mul'.queue = mul.queue := by rw [hmul]
  refine h.of_same_log ?_ (by rw [hmul]) (by rw [hmul]) ?_ ?_ ?_ ?_ (hqueue ▸ h.distinct) ?_
  · intro entity client hc
    exact ⟨(hclient entity).trans hc, hsame entity (by rw [hc]; rfl)⟩
  · simp only [hclient]
    rw [hmul]
    exact h.fresh
  · simp only [hclient]
    exact h.injective
  · intro entity entity' ha ha' heq
    rw [halive] at ha ha'
    rw [hsame _ ha.1, hsame _ ha'.1] at heq
    exact h.alone entity entity' ha ha' heq
  · rw [hqueue]
    intro x hx
    exact (h.left x hx).mono (hpair _) (fun _ hc => (hclient _).trans hc)
      (by rw [hmul]; exact fun hd => hd) (fun _ _ _ _ hin => hin) (fun _ _ _ _ hin => hin)
  · intro pair
    rw [hqueue]
    obtain ⟨w, hleads, hfinal⟩ := h.leads pair
    refine ⟨w, hleads.congr fun x _ => hclient x.1, hfinal.congr fun entity client => ?_⟩
    rw [halive, hclient]
    exact and_congr_right fun ha => by rw [hsame _ ha.1]

/-- The multiplexer behind the start of an entity. -/
def afterStart (mul : Multiplexer) (entity : Nat) (e : Entity) (scb : Option Nat) (param : Nat) :
    Multiplexer :=
  { mul with
    entities := mul.entities.set entity
      { e with client_ := some mul.clients, scb_ := scb, startcbparam_ := param }
    clients := mul.clients + 1
    queue := mul.queue ++ [(entity, .insert e.conn_ e.id_ entity mul.clients)] }

section Start
variable {entity other : Nat} {e : Entity} {scb : Option Nat} {param : Nat}

theorem clientOf_afterStart_self (he : mul.entities[entity]? = some e) :
    clientOf (afterStart mul entity e scb param) entity = some mul.clients := by
  obtain ⟨hlt, -⟩ := List.getElem?_eq_some_iff.mp he
  show Option.bind (mul.entities.set entity _)[entity]? _ = _
  rw [List.getElem?_set_self hlt]
  rfl

theorem clientOf_afterStart_of_ne (hne : other ≠ entity) :
    clientOf (afterStart mul entity e scb param) other = clientOf mul other := by
  show Option.bind (mul.entities.set entity _)[other]? _ = _
  rw [List.getElem?_set_ne (Ne.symm hne)]
  rfl

theorem pairOf_afterStart (he : mul.entities[entity]? = some e) :
    pairOf (afterStart mul entity e scb param) other = pairOf mul other := by
  obtain ⟨hlt, -⟩ := List.getElem?_eq_some_iff.mp he
  by_cases hother : other = entity
  · subst hother
    show Option.map _ (mul.entities.set other _)[other]? = _
    rw [List.getElem?_set_self hlt, pairOf, he]
    rfl
  · show Option.map _ (mul.entities.set entity _)[other]? = _
    rw [List.getElem?_set_ne (Ne.symm hother)]
    rfl

/-- The entity is alive from now on. -/
theorem alive_afterStart (he : mul.entities[entity]? = some e) (hlive : entity ∉ mul.destroyed) :
    Alive (afterStart mul entity e scb param) other ↔ Alive mul other ∨ other = entity := by
  by_cases hother : other = entity
  · subst hother
    rw [Alive, clientOf_afterStart_self he]
    exact ⟨fun _ => .inr rfl, fun _ => ⟨rfl, hlive⟩⟩
  · rw [Alive, clientOf_afterStart_of_ne hother]
    exact ⟨.inl, fun h => h.resolve_right hother⟩

/-- Who had a client keeps it. -/
theorem clientOf_afterStart (hnew : clientOf mul entity = none) {client : Client}
    (hc : clientOf mul other = some client) :
    other ≠ entity ∧ clientOf (afterStart mul entity e scb param) other = some client := by
  have hne : other ≠ entity := by
    rintro rfl
    exact absurd (hnew.symm.trans hc).symm (Option.some_ne_none client)
  exact ⟨hne, (clientOf_afterStart_of_ne hne).trans hc⟩

/-- The new client is greater than those that were made before. -/
theorem Inv.injective_afterStart (h : Inv log mul) (he : mul.entities[entity]? = some e)
    {a b : Nat} {client : Client}
    (ha : clientOf (afterStart mul entity e scb param) a = some client)
    (hb : clientOf (afterStart mul entity e scb param) b = some client) : a = b := by
  have hfresh : ∀ other, clientOf mul other ≠ some mul.clients :=
    fun other hc => absurd (h.fresh other _ hc) (Nat.lt_irrefl _)
  by_cases haentity : a = entity
  · by_cases hbentity : b = entity
    · rw [haentity, hbentity]
    · rw [haentity, clientOf_afterStart_self he] at ha
      rw [clientOf_afterStart_of_ne hbentity, ← ha] at hb
      exact absurd hb (hfresh b)
  · rw [clientOf_afterStart_of_ne haentity] at ha
    by_cases hbentity : b = entity
    · rw [hbentity, clientOf_afterStart_self he] at hb
      rw [← hb] at ha
      exact absurd ha (hfresh a)
    · rw [clientOf_afterStart_of_ne hbentity] at hb
      exact h.injective a b client ha hb

/-- The tasks lead to the new client. -/
theorem Inv.leads_afterStart (h : Inv log mul) (he : mul.entities[entity]? = some e)
    (hnew : clientOf mul entity = none) (hlive : entity ∉ mul.destroyed)
    (hseparate : ∀ other, Alive mul other → pairOf mul other ≠ pairOf mul entity)
    (pair : Conn × Int) :
    ∃ w, Leads (clientOf (afterStart mul entity e scb param)) pair (mul.lookup pair.1 pair.2)
        (afterStart mul entity e scb param).queue w ∧
      Final (afterStart mul entity e scb param) pair w := by
  have hpairEntity : pairOf mul entity = some (e.conn_, e.id_) := by rw [pairOf, he]; rfl
  obtain ⟨w, hleads, hfinal⟩ := h.leads pair
  have hleads' : Leads (clientOf (afterStart mul entity e scb param)) pair
      (mul.lookup pair.1 pair.2) mul.queue w := by
    refine hleads.congr fun x hx => clientOf_afterStart_of_ne ?_
    rintro rfl
    have hsome := (h.left x hx).not_new hlive
    rw [hnew] at hsome
    exact Bool.noConfusion hsome
  by_cases heq : (e.conn_, e.id_) = pair
  · subst heq
    -- nobody of the pair was alive, so the entry was on its way to none
    rw [hpairEntity] at hseparate
    obtain rfl := hfinal.eq_none hseparate
    refine ⟨some mul.clients,
      hleads'.snoc (.insert entity _ (clientOf_afterStart_self he) (.nil _)), ?_⟩
    refine final_some ((alive_afterStart he hlive).mpr (.inr rfl))
      ((pairOf_afterStart he).trans hpairEntity) (clientOf_afterStart_self he) ?_
    intro other hother hp
    rw [pairOf_afterStart he] at hp
    exact ((alive_afterStart he hlive).mp hother).resolve_left fun ha => hseparate other ha hp
  · refine ⟨w, hleads'.snoc (.other entity _ heq (.nil _)), hfinal.congr fun other client => ?_⟩
    rw [pairOf_afterStart he, alive_afterStart he hlive, and_left_comm, and_left_comm (b := _ = _)]
    refine and_congr_right fun hp => ?_
    have hne : other ≠ entity := by
      rintro rfl
      exact heq (Option.some.inj (hpairEntity.symm.trans hp))
    rw [clientOf_afterStart_of_ne hne, or_iff_left hne]

/-- Starting an entity gives it a client of its own, and leaves its `insert`. -/
theorem Inv.start (h : Inv log mul) (he : mul.entities[entity]? = some e)
    (hnew : e.client_ = none) (hlive : entity ∉ mul.destroyed)
    (hseparate : ∀ other, Alive mul other → pairOf mul other ≠ pairOf mul entity) :
    Inv log (afterStart mul entity e scb param) := by
  have hnone : clientOf mul entity = none := by rw [clientOf, he]; exact hnew
  have hpairEntity : pairOf mul entity = some (e.conn_, e.id_) := by rw [pairOf, he]; rfl
  -- an entity whose `insert` ran has a client, and this one has none
  have hnotInserted : .inserted entity ∉ log := by
    intro hin
    have hsome := (h.inserted entity hin).1
    rw [hnone] at hsome
    exact Bool.noConfusion hsome
  refine h.of_same_log ?_ rfl rfl ?_ ?_ ?_ ?_ ?_ (h.leads_afterStart he hnone hlive hseparate)
  · intro other client hc
    exact ⟨(clientOf_afterStart hnone hc).2, pairOf_afterStart he⟩
  · intro other client hc
    by_cases hother : other = entity
    · rw [hother, clientOf_afterStart_self he] at hc
      obtain rfl := Option.some.inj hc
      exact Nat.lt_succ_self _
    · rw [clientOf_afterStart_of_ne hother] at hc
      exact Nat.lt_succ_of_lt (h.fresh other client hc)
  · exact fun a b client ha hb => h.injective_afterStart he ha hb
  · intro a b ha hb heq
    -- two that are alive were alive before, or one of them is the new one
    rw [pairOf_afterStart he, pairOf_afterStart he] at heq
    rcases (alive_afterStart he hlive).mp ha with hold | rfl
    · rcases (alive_afterStart he hlive).mp hb with hold' | rfl
      · exact h.alone a b hold hold' heq
      · exact absurd heq (hseparate a hold)
    · rcases (alive_afterStart he hlive).mp hb with hold' | rfl
      · exact absurd heq.symm (hseparate b hold')
      · rfl
  · intro x hx
    rcases List.mem_append.mp hx with hx | hx
    · exact (h.left x hx).mono (fun _ hp => (pairOf_afterStart he).trans hp)
        (fun _ hc => (clientOf_afterStart hnone hc).2) id (fun _ _ _ _ hin => hin)
        (fun _ _ _ _ hin => hin)
    · obtain rfl := List.mem_singleton.mp hx
      exact ⟨rfl, (pairOf_afterStart he).trans hpairEntity, clientOf_afterStart_self he,
        hnotInserted⟩
  · refine List.nodup_append.mpr ⟨h.distinct, List.nodup_cons.mpr ⟨List.not_mem_nil, .nil⟩, ?_⟩
    -- a task of this entity cannot be there yet
    intro x hx y hy
    obtain rfl := List.mem_singleton.mp hy
    rintro rfl
    have hsome := (h.left _ hx).not_new hlive
    rw [hnone] at hsome
    exact Bool.noConfusion hsome

end Start

/-- The multiplexer behind the destructor of an entity. -/
def afterDestroy (mul : Multiplexer) (entity : Nat) (e : Entity) : Multiplexer :=
  { mul with
    destroyed := entity :: mul.destroyed
    queue := mul.queue ++ [(entity, .remove e.conn_ e.id_)] }

section Destroy
variable {entity other : Nat} {e : Entity}

/-- The entity is not alive any more. -/
theorem alive_afterDestroy :
    Alive (afterDestroy mul entity e) other ↔ Alive mul other ∧ other ≠ entity := by
  show _ ∧ other ∉ entity :: mul.destroyed ↔ _
  rw [Alive, List.mem_cons, not_or, and_assoc, and_comm (a := other ≠ entity)]
  exact Iff.rfl

/-- The tasks lead to nothing. -/
theorem Inv.leads_afterDestroy (h : Inv log mul) (he : mul.entities[entity]? = some e)
    (hlive : entity ∉ mul.destroyed)
    (hseparate : clientOf mul entity = none →
      ∀ other, Alive mul other → pairOf mul other ≠ pairOf mul entity) (pair : Conn × Int) :
    ∃ w, Leads (clientOf mul) pair (mul.lookup pair.1 pair.2)
        (afterDestroy mul entity e).queue w ∧
      Final (afterDestroy mul entity e) pair w := by
  have hpairEntity : pairOf mul entity = some (e.conn_, e.id_) := by rw [pairOf, he]; rfl
  obtain ⟨w, hleads, hfinal⟩ := h.leads pair
  by_cases heq : (e.conn_, e.id_) = pair
  · subst heq
    rw [hpairEntity] at hseparate
    -- the entry was on its way to the client of this entity, or to none
    have hw : w = clientOf mul entity := by
      cases hc : clientOf mul entity with
      | none => exact hfinal.eq_none (hseparate hc)
      | some client => exact (hfinal client).mpr ⟨entity, ⟨by rw [hc]; rfl, hlive⟩, hpairEntity, hc⟩
    subst hw
    refine ⟨none, hleads.snoc (.remove entity (.nil _)), final_none fun other hother hp => ?_⟩
    obtain ⟨hother, hne⟩ := alive_afterDestroy.mp hother
    have hp : pairOf mul other = some (e.conn_, e.id_) := hp
    have hentity : Alive mul entity := by
      refine ⟨?_, hlive⟩
      cases hc : clientOf mul entity with
      | none => exact absurd hp (hseparate hc other hother)
      | some client => rfl
    exact hne (h.alone other entity hother hentity (hp.trans hpairEntity.symm))
  · refine ⟨w, hleads.snoc (.other entity _ heq (.nil _)), hfinal.congr fun other client => ?_⟩
    rw [alive_afterDestroy]
    show _ ∧ pairOf mul other = some pair ∧ _ ↔ _
    have hne : pairOf mul other = some pair → other ≠ entity := by
      rintro hp rfl
      exact heq (Option.some.inj (hpairEntity.symm.trans hp))
    constructor
    · rintro ⟨⟨ha, -⟩, hp, hc⟩
      exact ⟨ha, hp, hc⟩
    · rintro ⟨ha, hp, hc⟩
      exact ⟨⟨ha, hne hp⟩, hp, hc⟩

/-- Destroying an entity leaves its `remove`. -/
theorem Inv.destroy (h : Inv log mul) (he : mul.entities[entity]? = some e)
    (hlive : entity ∉ mul.destroyed)
    (hseparate : clientOf mul entity = none →
      ∀ other, Alive mul other → pairOf mul other ≠ pairOf mul entity) :
    Inv (log ++ [.destroyed entity]) (afterDestroy mul entity e) := by
  have hpairEntity : pairOf mul entity = some (e.conn_, e.id_) := by rw [pairOf, he]; rfl
  -- the destruction is the only new entry of the log
  have hmem : ∀ event, event ≠ .destroyed entity →
      (event ∈ log ++ [.destroyed entity] ↔ event ∈ log) := by
    intro event hne
    rw [List.mem_append, List.mem_singleton, or_iff_left hne]
  have hnotDeleted : ∀ client, .deleted entity client ∉ log :=
    fun client hin => hlive (h.deleted entity client hin)
  exact {
    fresh := h.fresh
    injective := h.injective
    alone := fun a b ha hb heq =>
      h.alone a b (alive_afterDestroy.mp ha).1 (alive_afterDestroy.mp hb).1 heq
    left := by
      -- the tasks that are there stay right, and the new one is the `remove` of the entity
      intro x hx
      rcases List.mem_append.mp hx with hx | hx
      · exact (h.left x hx).mono (fun _ hp => hp) (fun _ hc => hc) (List.mem_cons_of_mem _)
          (fun _ _ _ _ hin => (hmem _ (by simp)).mp hin)
          (fun _ _ _ _ hin => (hmem _ (by simp)).mp hin)
      · obtain rfl := List.mem_singleton.mp hx
        exact ⟨hpairEntity, List.mem_cons_self .., fun client hin =>
          hnotDeleted client ((hmem _ (by simp)).mp hin)⟩
    distinct := by
      refine List.nodup_append.mpr
        ⟨h.distinct, List.nodup_cons.mpr ⟨List.not_mem_nil, .nil⟩, ?_⟩
      -- only a destroyed entity has left a `remove`, and this one was alive
      intro x hx y hy
      obtain rfl := List.mem_singleton.mp hy
      rintro rfl
      exact hlive (h.left _ hx).2.1
    leads := h.leads_afterDestroy he hlive hseparate
    gone := by
      intro other
      show _ ↔ other ∈ entity :: mul.destroyed
      rw [List.mem_append, List.mem_singleton, List.mem_cons, h.gone other, or_comm]
      exact or_congr_left ⟨fun heq => Happening.destroyed.inj heq, fun heq => by rw [heq]⟩
    inserted := fun other hin => h.inserted other ((hmem _ (by simp)).mp hin)
    deleted := fun other client hin =>
      List.mem_cons_of_mem _ (h.deleted other client ((hmem _ (by simp)).mp hin))
    own := by
      intro other client hin
      rw [hmem _ (by simp), hmem _ (by simp)] at hin
      exact h.own other client hin
    once := by
      rw [deletions_append]
      simpa [deletions] using h.once
    read := by
      intro conn
      have hzero : [Happening.destroyed entity].count (.bufInfo conn) = 0 := by simp
      rw [List.count_append, hzero, Nat.add_zero]
      exact h.read conn }

end Destroy

/-- The trace of an `insert`, as the other facts see it. -/
theorem mem_insert_trace {entity : Nat} {conn : Conn} {known : Bool} {event : Happening}
    (hes : es = .inserted entity :: if known then [] else [.bufInfo conn])
    (hne : event ≠ .inserted entity) (hne' : event ≠ .bufInfo conn) :
    event ∈ log ++ es ↔ event ∈ log := by
  rw [List.mem_append, or_iff_left_iff_imp, hes]
  intro hin
  rcases List.mem_cons.mp hin with heq | hin
  · exact absurd heq hne
  · split at hin
    · exact absurd hin List.not_mem_nil
    · exact absurd (List.mem_singleton.mp hin) hne'

/-- The one new `bufInfo` is for a connection that was not in the map. -/
theorem count_insert_trace {conn c : Conn} (entity : Nat) (known known' : Bool)
    (hsame : c = conn → known' = known) :
    (if known' = true then 1 else 0) +
        (Happening.inserted entity :: if known = true then [] else [.bufInfo conn]).count
          (.bufInfo c) =
      if (decide (c = conn) || known') = true then 1 else 0 := by
  rw [List.count_cons_of_ne (by simp)]
  by_cases hc : c = conn
  · subst hc
    rw [hsame rfl]
    cases known with
    | false => simp
    | true => simp
  · have hzero : (if known = true then [] else [Happening.bufInfo conn]).count (.bufInfo c)
        = 0 := by
      split
      · rfl
      · exact List.count_eq_zero.mpr fun hin =>
          hc (Happening.bufInfo.inj (List.mem_singleton.mp hin))
    rw [hzero, decide_eq_false hc, Bool.false_or, Nat.add_zero]

/-- The loop runs an `insert`. -/
theorem Inv.runInsert (h : Inv log mul) {entity entity' : Nat} {conn : Conn} {id : Int}
    {client : Client} {queue : List (Nat × Task)}
    (hqueue : mul.queue = (entity, .insert conn id entity' client) :: queue)
    (hstep : (({ mul with queue := queue } : Multiplexer).insert conn id entity' client).Yields es
      mul') : Inv (log ++ es) mul' := by
  obtain ⟨connMp, hyields, hmap, hsome⟩ :=
    insert_yields { mul with queue := queue } conn id entity' client
  obtain ⟨hes, hmul⟩ := hyields.unique hstep
  have hleaves : Leaves mul log entity (.insert conn id entity' client) :=
    h.left (entity, _) (by rw [hqueue]; exact List.mem_cons_self ..)
  obtain ⟨rfl, hpairEntity, hclientEntity, hnotInserted⟩ := hleaves
  have hdistinct := h.distinct
  rw [hqueue, List.nodup_cons] at hdistinct
  have hmem : ∀ event, event ≠ .inserted entity' → event ≠ .bufInfo conn →
      (event ∈ log ++ es ↔ event ∈ log) :=
    fun event hne hne' => mem_insert_trace hes.symm hne hne'
  have hinserted : ∀ other, other ≠ entity' →
      .inserted other ∈ log ++ es → .inserted other ∈ log :=
    fun other hne => (hmem _ (fun heq => hne (Happening.inserted.inj heq)) (by simp)).mp
  -- an `insert` deletes nothing
  have hdeletions : deletions es = [] := by
    rw [← hes]
    split <;> rfl
  refine h.of_ran hqueue hmul.symm ?left ?leads ?gone ?inserted ?deleted ?own ?once ?read
  case left =>
    rintro ⟨other, task⟩ hx
    have hold : Leaves mul log other task :=
      h.left (other, task) (by rw [hqueue]; exact List.mem_cons_of_mem _ hx)
    refine hold.mono (fun _ hp => hp) (fun _ hc => hc) (fun hd => hd) ?_
      (fun _ _ _ _ hin => (hmem _ (by simp) (by simp)).mp hin)
    rintro conn' id' client' rfl
    obtain ⟨-, hp, hc, -⟩ := hold
    -- the same task is not in the queue twice
    refine hinserted other ?_
    rintro rfl
    obtain ⟨rfl, rfl⟩ := Prod.mk.inj (Option.some.inj (hp.symm.trans hpairEntity))
    obtain rfl := Option.some.inj (hc.symm.trans hclientEntity)
    exact hdistinct.1 hx
  case leads =>
    -- at the pair of the task nothing was registered, so the new entry is not refused
    rintro ⟨c, i⟩ w hleads
    rw [hmap c i]
    by_cases heq : (c, i) = (conn, id)
    · obtain ⟨rfl, rfl⟩ := Prod.mk.inj heq
      obtain ⟨hnone, hrest⟩ := hleads.head_insert
      have hnone : mul.lookup c i = none := hnone
      rw [if_pos rfl]
      show Leads _ _ ((mul.lookup c i).or (some client)) _ _
      rw [hnone]
      exact hrest
    · rw [if_neg heq]
      refine Leads.head_other ?_ hleads
      intro hp
      exact heq hp.symm
  case gone =>
    exact fun other => hmem _ (by simp) (by simp)
  case inserted =>
    intro other hin
    -- the map of the connection is there behind the `insert`, and no task takes it away
    by_cases hother : other = entity'
    · subst hother
      refine ⟨by rw [hclientEntity]; rfl, fun pair hp => ?_⟩
      obtain rfl := Option.some.inj (hpairEntity.symm.trans hp)
      rw [hsome, decide_eq_true rfl, Bool.true_or]
    · obtain ⟨hc, hp⟩ := h.inserted other (hinserted other hother hin)
      refine ⟨hc, fun pair hpair => ?_⟩
      have hold : (mul.connMp_ pair.1).isSome = true := hp pair hpair
      rw [hsome]
      show (_ || (mul.connMp_ pair.1).isSome) = true
      rw [hold, Bool.or_true]
  case deleted =>
    exact fun other c hin => h.deleted other c ((hmem _ (by simp) (by simp)).mp hin)
  case own =>
    intro other c hin
    rw [hmem _ (by simp) (by simp), hmem _ (by simp) (by simp)] at hin
    exact h.own other c hin
  case once =>
    rw [deletions_append, hdeletions, List.append_nil]
    exact h.once
  case read =>
    intro c
    rw [List.count_append, h.read c, ← hes, hsome]
    exact count_insert_trace entity' (mul.connMp_ conn).isSome ((mul.connMp_ c).isSome)
      (fun heq => by rw [heq])

/-- What a `remove` deletes belongs to its own entity. -/
theorem Inv.lookup_of_remove (h : Inv log mul) {entity : Nat} {conn : Conn} {id : Int}
    {queue : List (Nat × Task)} (hqueue : mul.queue = (entity, .remove conn id) :: queue) :
    mul.lookup conn id = clientOf mul entity := by
  obtain ⟨w, hleads, -⟩ := h.leads (conn, id)
  rw [hqueue] at hleads
  exact hleads.head_remove.1

/-- The trace of a `remove`: a client is deleted and its entry erased, or nothing happens. -/
theorem of_mem_remove_trace {entity : Nat} {found : Option Client} {event : Happening}
    (hes : es = found.toList.flatMap fun client =>
      [.deleted entity client, .erased entity client]) (hin : event ∈ es) :
    ∃ client, found = some client ∧
      (event = .deleted entity client ∨ event = .erased entity client) := by
  rw [hes] at hin
  obtain ⟨client, hc, hin⟩ := List.mem_flatMap.mp hin
  refine ⟨client, Option.mem_toList.mp hc, ?_⟩
  simpa using hin

/-- The other facts do not see it. -/
theorem mem_remove_trace {entity : Nat} {found : Option Client} {event : Happening}
    (hes : es = found.toList.flatMap fun client =>
      [.deleted entity client, .erased entity client])
    (hne : ∀ client, event ≠ .deleted entity client)
    (hne' : ∀ client, event ≠ .erased entity client) : event ∈ log ++ es ↔ event ∈ log := by
  rw [List.mem_append, or_iff_left_iff_imp]
  intro hin
  obtain ⟨client, -, heq | heq⟩ := of_mem_remove_trace hes hin
  · exact absurd heq (hne client)
  · exact absurd heq (hne' client)

/-- The loop runs a `remove`. -/
theorem Inv.runRemove (h : Inv log mul) {entity : Nat} {conn : Conn} {id : Int}
    {queue : List (Nat × Task)} (hqueue : mul.queue = (entity, .remove conn id) :: queue)
    (hstep : (({ mul with queue := queue } : Multiplexer).remove conn id entity).Yields es mul') :
    Inv (log ++ es) mul' := by
  obtain ⟨connMp, hyields, hmap, hsome⟩ :=
    remove_yields { mul with queue := queue } conn id entity
  obtain ⟨hes, hmul⟩ := hyields.unique hstep
  have hleaves : Leaves mul log entity (.remove conn id) :=
    h.left (entity, _) (by rw [hqueue]; exact List.mem_cons_self ..)
  obtain ⟨hpairEntity, hgone, hnotDeleted⟩ := hleaves
  -- the task is not behind itself in the queue, which was without repetitions
  have hdistinct := h.distinct
  rw [hqueue, List.nodup_cons] at hdistinct
  have hes : es = (clientOf mul entity).toList.flatMap fun client =>
      [.deleted entity client, .erased entity client] := by
    rw [← h.lookup_of_remove hqueue]
    exact hes.symm
  -- the trace holds the deletion of the client of the entity, and nothing of any other
  have hevent : ∀ event ∈ es, ∃ client, clientOf mul entity = some client ∧
      (event = .deleted entity client ∨ event = .erased entity client) :=
    fun event hin => of_mem_remove_trace hes hin
  have hmem : ∀ event, (∀ client, event ≠ .deleted entity client) →
      (∀ client, event ≠ .erased entity client) → (event ∈ log ++ es ↔ event ∈ log) :=
    fun event hne hne' => mem_remove_trace hes hne hne'
  have hdeletions : deletions es = (clientOf mul entity).toList := by
    rw [hes]
    cases clientOf mul entity <;> rfl
  refine h.of_ran hqueue hmul.symm ?left ?leads ?gone ?inserted ?deleted ?own ?once ?read
  case left =>
    rintro ⟨other, task⟩ hx
    have hold : Leaves mul log other task :=
      h.left (other, task) (by rw [hqueue]; exact List.mem_cons_of_mem _ hx)
    refine hold.mono (fun _ hp => hp) (fun _ hc => hc) (fun hd => hd)
      (fun _ _ _ _ hin => (hmem _ (by simp) (by simp)).mp hin) ?_
    rintro conn' id' rfl c hin
    -- the same task is not in the queue twice
    have hne : other ≠ entity := by
      rintro rfl
      obtain ⟨rfl, rfl⟩ := Prod.mk.inj (Option.some.inj (hold.1.symm.trans hpairEntity))
      exact hdistinct.1 hx
    exact (hmem _ (fun client heq => hne (Happening.deleted.inj heq).1) (by simp)).mp hin
  case leads =>
    -- the head of the queue has done to its own pair what `Leads` foretold
    rintro ⟨c, i⟩ w hleads
    rw [hmap c i]
    by_cases heq : (c, i) = (conn, id)
    · obtain ⟨rfl, rfl⟩ := Prod.mk.inj heq
      rw [if_pos rfl]
      exact hleads.head_remove.2
    · rw [if_neg heq]
      refine Leads.head_other ?_ hleads
      intro hp
      exact heq hp.symm
  case gone =>
    exact fun other => hmem _ (by simp) (by simp)
  case inserted =>
    intro other hin
    obtain ⟨hc, hp⟩ := h.inserted other ((hmem _ (by simp) (by simp)).mp hin)
    refine ⟨hc, fun pair hpair => ?_⟩
    rw [hsome]
    exact hp pair hpair
  case deleted =>
    intro other client hin
    -- an entry of this step names the entity, which was destroyed before it left the task
    rcases List.mem_append.mp hin with hin | hin
    · exact h.deleted other client hin
    · obtain ⟨_, -, heq | heq⟩ := hevent _ hin
      · obtain ⟨rfl, -⟩ := Happening.deleted.inj heq
        exact hgone
      · exact Happening.noConfusion heq
  case own =>
    intro other client hin
    rw [List.mem_append, List.mem_append, or_or_or_comm] at hin
    rcases hin with hin | hin
    · exact h.own other client hin
    · rcases hin with hin | hin
      · obtain ⟨c, hc, heq | heq⟩ := hevent _ hin
        · obtain ⟨rfl, rfl⟩ := Happening.deleted.inj heq
          exact hc
        · exact Happening.noConfusion heq
      · obtain ⟨c, hc, heq | heq⟩ := hevent _ hin
        · exact Happening.noConfusion heq
        · obtain ⟨rfl, rfl⟩ := Happening.erased.inj heq
          exact hc
  case once =>
    rw [deletions_append, hdeletions]
    refine List.nodup_append.mpr ⟨h.once, ?_, ?_⟩
    · cases clientOf mul entity <;> simp
    · -- a client that was deleted before belongs to another entity
      intro c hc c' hc'
      rintro rfl
      obtain ⟨event, hin, heq⟩ := List.mem_filterMap.mp hc
      cases event with
      | deleted other client =>
          obtain rfl := Option.some.inj heq
          have howner := h.own other client (.inl hin)
          obtain rfl := h.injective other entity client howner (Option.mem_toList.mp hc')
          exact hnotDeleted client hin
      | _ => exact absurd heq.symm (Option.some_ne_none c)
  case read =>
    intro c
    -- a `remove` reads no buffer
    have hzero : es.count (.bufInfo c) = 0 := by
      refine List.count_eq_zero.mpr fun hin => ?_
      obtain ⟨_, -, heq | heq⟩ := hevent _ hin
      · exact Happening.noConfusion heq
      · exact Happening.noConfusion heq
    rw [List.count_append, h.read c, hsome, hzero, Nat.add_zero]

/-- One step of a user who keeps the pairs apart. -/
theorem Inv.step (h : Inv log mul) {action : Action} (hpossible : mul.Possible action)
    (hseparate : Separate mul action) (hstep : (mul.step action).Yields es mul') :
    Inv (log ++ es) mul' := by
  cases action with
  | construct conn id =>
      obtain ⟨rfl, hmul⟩ := (Traced.pure_yields ..).mp hstep
      rw [List.append_nil]
      exact h.construct hmul.symm
  | start entity cb =>
      obtain ⟨hlive, e, he, hnew⟩ := hpossible
      -- a start is the only step that makes a client
      simp only [Multiplexer.step, Net.Registry.Multiplexer.start, he] at hstep
      obtain ⟨_, hpure, rfl⟩ := (Traced.tell_bind_yields ..).mp hstep
      obtain ⟨rfl, hmul⟩ := (Traced.pure_yields ..).mp hpure
      rw [← hmul]
      exact (h.start he hnew hlive hseparate).silent
        fun event hin => .inl ⟨entity, List.mem_singleton.mp hin⟩
  | destroy entity =>
      obtain ⟨hlt, hlive⟩ := hpossible
      have he : mul.entities[entity]? = some mul.entities[entity] := List.getElem?_eq_getElem hlt
      simp only [Multiplexer.step, Multiplexer.destroy, he] at hstep
      obtain ⟨_, hpure, rfl⟩ := (Traced.tell_bind_yields ..).mp hstep
      obtain ⟨rfl, hmul⟩ := (Traced.pure_yields ..).mp hpure
      rw [← hmul]
      exact h.destroy he hlive hseparate
  | run =>
      simp only [Multiplexer.step, Multiplexer.run] at hstep
      cases hqueue : mul.queue with
      | nil =>
          rw [hqueue] at hstep
          obtain ⟨rfl, rfl⟩ := (Traced.pure_yields ..).mp hstep
          rw [List.append_nil]
          exact h
      | cons x queue =>
          -- the front of the queue runs, and nothing else
          obtain ⟨entity, task⟩ := x
          rw [hqueue] at hstep
          cases task with
          | insert conn id entity' client => exact h.runInsert hqueue hstep
          | remove conn id => exact h.runRemove hqueue hstep
  | startcb freed =>
      simp only [Multiplexer.step] at hstep
      cases hin : mul.inInsert with
      | none => exact absurd hin hpossible
      | some entity =>
          rw [hin] at hstep
          obtain ⟨_, hpure, rfl⟩ := (Traced.tell_bind_yields ..).mp hstep
          obtain ⟨rfl, rfl⟩ := (Traced.pure_yields ..).mp hpure
          -- a start callback is part of no invariant
          refine Inv.silent ?_ ?_
          · exact ⟨h.fresh, h.injective, h.alone, h.left, h.distinct, h.leads, h.gone, h.inserted,
              h.deleted, h.own, h.once, h.read⟩
          · intro event hevent
            rw [List.append_nil] at hevent
            obtain ⟨cb, -, rfl⟩ := List.mem_map.mp hevent
            exact .inr ⟨cb.1, cb.2, rfl⟩

end Steps

/-! ### Whole runs -/

/-- The registry agrees with the entities in every state that a run reaches in which an entity is
started only while no other one of its pair is alive, and one that was never started is destroyed
only while none of its pair is alive. -/
theorem consistent_of_separate {actions : List Action} {log : List Happening} {mul : Multiplexer}
    (hrun : Traced.Run Multiplexer.step
      (fun mul action => mul.Possible action ∧ Separate mul action) {} actions log mul) :
    Consistent mul log := by
  -- at the start there is no entity, no task and no entry
  have hinit : Inv [] {} := by
    refine ⟨?_, ?_, ?_, ?_, List.nodup_nil, ?_, ?_, ?_, ?_, ?_, List.nodup_nil, fun _ => rfl⟩
    · intro entity client hc
      exact absurd hc.symm (Option.some_ne_none client)
    · intro entity entity' client hc
      exact absurd hc.symm (Option.some_ne_none client)
    · intro entity entity' halive
      exact Bool.noConfusion halive.1
    · intro x hx
      exact absurd hx List.not_mem_nil
    · intro pair
      refine ⟨none, .nil _,
        fun client => ⟨fun hc => absurd hc.symm (Option.some_ne_none client), ?_⟩⟩
      rintro ⟨entity, halive, -⟩
      exact Bool.noConfusion halive.1
    · intro entity
      exact ⟨fun hin => absurd hin List.not_mem_nil, fun hin => absurd hin List.not_mem_nil⟩
    · intro entity hin
      exact absurd hin List.not_mem_nil
    · intro entity client hin
      exact absurd hin List.not_mem_nil
    · intro entity client hin
      rcases hin with hin | hin
      · exact absurd hin List.not_mem_nil
      · exact absurd hin List.not_mem_nil
  have hinv : Inv log mul := by
    refine hrun.invariant (P := fun _ log mul => Inv log mul) hinit ?_
    intro l log mul action es mul' h hok hstep
    exact h.step hok.1 hok.2 hstep
  exact hinv.consistent

/-- An entity is destroyed, and the next one with its id is started before the loop has run any
task. -/
theorem consistent_of_separate_reused :
    ∃ log mul, Traced.Run Multiplexer.step
      (fun mul action => mul.Possible action ∧ Separate mul action) {}
      [.construct 5 1, .start 0 none, .destroy 0, .construct 5 1, .start 1 none, .run,
        .startcb none, .run, .run] log mul ∧ Consistent mul log ∧ mul.lookup 5 1 = some 1 := by
  have hrun : ∃ log mul, Traced.Run Multiplexer.step
      (fun mul action => mul.Possible action ∧ Separate mul action) {}
      [.construct 5 1, .start 0 none, .destroy 0, .construct 5 1, .start 1 none, .run,
        .startcb none, .run, .run] log mul ∧ mul.lookup 5 1 = some 1 := by
    refine ⟨_, _, .snoc (.snoc (.snoc (.snoc (.snoc (.snoc (.snoc (.snoc (.snoc (l := []) .nil
      ?construct ⟨rfl, rfl⟩) ?start ⟨rfl, rfl⟩) ?destroy ⟨rfl, rfl⟩) ?construct' ⟨rfl, rfl⟩)
      ?start' ⟨rfl, rfl⟩) ?run ⟨rfl, rfl⟩) ?startcb ⟨rfl, rfl⟩) ?run' ⟨rfl, rfl⟩) ?run''
      ⟨rfl, rfl⟩, ?lookup⟩
    case construct => exact ⟨trivial, trivial⟩
    case start =>
      refine ⟨⟨by simp, _, rfl, rfl⟩, ?_⟩
      rintro (_ | other) halive
      · exact Bool.noConfusion halive.1
      · exact Bool.noConfusion halive.1
    case destroy =>
      exact ⟨⟨Nat.zero_lt_one, by simp⟩, fun hnew => absurd hnew (Option.some_ne_none 0)⟩
    case construct' => exact ⟨trivial, trivial⟩
    case start' =>
      refine ⟨⟨by simp, _, rfl, rfl⟩, ?_⟩
      rintro (_ | _ | other) halive
      · exact absurd (List.mem_singleton.mpr rfl) halive.2
      · exact Bool.noConfusion halive.1
      · exact Bool.noConfusion halive.1
    case run => exact ⟨rfl, trivial⟩
    case startcb => exact ⟨Option.some_ne_none _, trivial⟩
    case run' => exact ⟨rfl, trivial⟩
    case run'' => exact ⟨rfl, trivial⟩
    case lookup => rfl
  obtain ⟨log, mul, hrun, hlookup⟩ := hrun
  exact ⟨log, mul, hrun, consistent_of_separate hrun, hlookup⟩

/-- Two entities of one pair. The second one is never entered, because the first one's entry
stays, and when the second one is destroyed its `remove` deletes the client of the first one. -/
theorem taken_over :
    ∃ log mul, Traced.Run Multiplexer.step Multiplexer.Possible {}
      [.construct 5 1, .construct 5 1, .start 0 none, .start 1 none, .run, .startcb none, .run,
        .startcb none, .destroy 1, .run] log mul ∧
      .deleted 1 0 ∈ log ∧ clientOf mul 1 = some 1 ∧ ¬ Consistent mul log := by
  refine ⟨_, _, .snoc (.snoc (.snoc (.snoc (.snoc (.snoc (.snoc (.snoc (.snoc (.snoc (l := [])
    .nil ?construct ⟨rfl, rfl⟩) ?construct' ⟨rfl, rfl⟩) ?start ⟨rfl, rfl⟩) ?start' ⟨rfl, rfl⟩)
    ?run ⟨rfl, rfl⟩) ?startcb ⟨rfl, rfl⟩) ?run' ⟨rfl, rfl⟩) ?startcb' ⟨rfl, rfl⟩) ?destroy
    ⟨rfl, rfl⟩) ?run'' ⟨rfl, rfl⟩, ?deleted, ?client, ?lost⟩
  case construct => trivial
  case construct' => trivial
  case start => exact ⟨by simp, _, rfl, rfl⟩
  case start' => exact ⟨by simp, _, rfl, rfl⟩
  case run => rfl
  case startcb => exact Option.some_ne_none _
  case run' => rfl
  case startcb' => exact Option.some_ne_none _
  case destroy => exact ⟨Nat.lt_succ_self 1, by simp⟩
  case run'' => rfl
  case deleted => decide
  case client => rfl
  case lost =>
    intro h
    have hown := h.own 1 0 (.inl (by decide))
    exact absurd hown (by decide)

end Ndsl.Proofs.Registry
