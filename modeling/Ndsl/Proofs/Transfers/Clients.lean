import Ndsl.Proofs.Registry.Consistent
import Ndsl.Proofs.Transfers.Idle

/-!
# `Ndsl.Proofs.Transfers.Clients`: no transfer calls a client that was deleted

`Spared` says that no step of a transfer calls the client after it was deleted, or reads the entity
after it was destroyed. Nothing in the code sees to it, so it is up to the user. `Careful` is what
the user has to keep to: an entity is destroyed only while none of its receives of data over TCP is
in flight, and a `remove` deletes a client only when its entity was destroyed and no transfer of
the client is in flight.

`spared_of_careful` proves that this is enough, in whatever order everything else happens.
`request_outlives_client` shows a transfer that calls a client which was deleted under it.
-/

set_option autoImplicit false

namespace Ndsl.Proofs.Transfers

open Ndsl.Lib
open Ndsl.Net Ndsl.Net.Dtp
open Ndsl.Net.Dtp.Transfers
open Ndsl.Net.Registry (Client Happening Multiplexer Task)
open Ndsl.Proofs.Registry (clientOf)

/-! ### What a transfer owes to its client -/

/-- The client was deleted. -/
def Deleted (client : Client) (log : List Transfers.Event) : Prop :=
  ∃ entity, .happening (.deleted entity client) ∈ log

/-- The entity was destroyed. -/
def Destroyed (entity : Nat) (log : List Transfers.Event) : Prop :=
  .happening (.destroyed entity) ∈ log

/-- No client is called after it was deleted, and no entity is asked for its connection after it
was destroyed. -/
def Spared (log : List Transfers.Event) : Prop :=
  ∀ pre entity client call post, log = pre ++ .call entity client call :: post →
    ¬ Deleted client pre ∧ (call = .getEntityConnection → ¬ Destroyed entity pre)

/-- The client that the next task of the loop deletes. -/
def doomed (mul : Multiplexer) : Option Client :=
  match mul.queue with
  | (_, .remove conn id) :: _ => mul.lookup conn id
  | _ => none

/-- The care that the user has to take. -/
def Careful (sys : Transfers) : Transfers.Action → Prop
  | .registry (.destroy entity) =>
    ∀ st ∈ sys.started, st.entity = entity → ¬ AsksEntity st.transfer
  | .registry .run => ∀ client, doomed sys.mul = some client →
    (∃ entity ∈ sys.mul.destroyed, clientOf sys.mul entity = some client) ∧
      ∀ st ∈ sys.started, st.client = client → ¬ InFlight st.transfer
  | _ => True

/-! ### The registry -/

/-- What a step of the registry leaves of the entities, and whom it gives a client. -/
structure Grows (mul mul' : Multiplexer) : Prop where
  destroyed : mul.destroyed ⊆ mul'.destroyed
  clients : mul.clients ≤ mul'.clients
  old : ∀ entity client, clientOf mul entity = some client → clientOf mul' entity = some client
  new : ∀ entity client, clientOf mul' entity = some client → clientOf mul entity = some client ∨
    client < mul'.clients ∧ ∀ other, clientOf mul' other = some client → other = entity

section Registry
variable {mul mul' : Multiplexer}

/-- Nothing is new. -/
theorem Grows.of_eq (hdestroyed : mul.destroyed ⊆ mul'.destroyed)
    (hclients : mul'.clients = mul.clients)
    (hsame : ∀ entity, clientOf mul' entity = clientOf mul entity) : Grows mul mul' where
  destroyed := hdestroyed
  clients := Nat.le_of_eq hclients.symm
  old entity _ h := (hsame entity).trans h
  new entity _ h := .inl ((hsame entity).symm.trans h)

/-- What may happen in a step. -/
def Announced (mul : Multiplexer) (action : Multiplexer.Action) : Happening → Prop
  | .deleted _ client => action = .run ∧ doomed mul = some client
  | .destroyed entity => action = .destroy entity
  | _ => True

/-- What a step leaves. -/
def Left (mul : Multiplexer) (action : Multiplexer.Action) (mul' : Multiplexer) : Prop :=
  Grows mul mul' ∧ ∀ entity, action = .destroy entity → entity ∈ mul'.destroyed

/-- What a step other than a destruction leaves. -/
theorem Grows.left {action : Multiplexer.Action} (h : Grows mul mul')
    (hne : ∀ entity, action ≠ .destroy entity) : Left mul action mul' :=
  ⟨h, fun entity heq => absurd heq (hne entity)⟩

/-- The loop takes a task. -/
theorem run_left : mul.run.Ensures (Announced mul .run) (Left mul .run) := by
  -- nothing that a task changes is an entity or a client of one
  have hleft : ∀ connMp_ queue inInsert, Left mul .run
      { mul with connMp_ := connMp_, queue := queue, inInsert := inInsert } := by
    intro connMp_ queue inInsert
    exact Grows.left (.of_eq (List.Subset.refl _) rfl fun _ => rfl) fun _ => by simp
  unfold Multiplexer.run
  split
  · exact .pure (hleft _ _ _)
  · unfold Multiplexer.insert
    split
    · exact .tell_bind (by simp [Announced]) (.pure (hleft _ _ _))
    · exact .tell_bind (by simp [Announced]) (.pure (hleft _ _ _))
  · next entity conn id queue hqueue =>
    unfold Multiplexer.remove
    dsimp only
    split
    · exact .pure (hleft _ _ _)
    · next mp hmp =>
      have hdoomed : doomed mul = mp id := by
        simp only [doomed, hqueue, Net.Registry.Multiplexer.lookup, hmp, Option.bind_some]
      split
      · exact .pure (hleft _ _ _)
      · next client hclient =>
        refine .tell_bind ?_ (.pure (hleft _ _ _))
        simp [Announced, hdoomed, hclient]

theorem construct_left (conn : Registry.Conn) (id : Int) :
    (mul.step (.construct conn id)).Ensures (Announced mul (.construct conn id))
      (Left mul (.construct conn id)) := by
  refine .pure (Grows.left (.of_eq (List.Subset.refl _) rfl fun entity => ?_) fun _ => by simp)
  show (mul.entities ++ [_])[entity]?.bind Registry.Entity.client_ =
    mul.entities[entity]?.bind Registry.Entity.client_
  rcases Nat.lt_trichotomy entity mul.entities.length with hlt | rfl | hgt
  · rw [List.getElem?_append_left hlt]
  · rw [List.getElem?_concat_length, List.getElem?_eq_none (Nat.le_refl _)]
    rfl
  · rw [List.getElem?_eq_none (by rw [List.length_append, List.length_singleton]; omega),
      List.getElem?_eq_none (by omega)]

theorem start_left (hfresh : ∀ entity client, clientOf mul entity = some client →
      client < mul.clients) {entity : Nat} {cb : Option (Nat × Nat)}
    (hpossible : mul.Possible (.start entity cb)) :
    (mul.step (.start entity cb)).Ensures (Announced mul (.start entity cb))
      (Left mul (.start entity cb)) := by
  obtain ⟨-, e, he, hnone⟩ := hpossible
  have hlt : entity < mul.entities.length := (List.getElem?_eq_some_iff.mp he).1
  have hclientOf : clientOf mul entity = none := by
    rw [clientOf, he]
    exact hnone
  simp only [Multiplexer.step, Net.Registry.Multiplexer.start, he]
  refine .tell_bind (List.forall_mem_singleton.mpr trivial) (.pure (Grows.left ?_ fun _ => by simp))
  -- the entity gets the client that is numbered next, and the others keep theirs
  have hself : ∀ e', (mul.entities.set entity e')[entity]?.bind Registry.Entity.client_ =
      e'.client_ := by
    intro e'
    rw [List.getElem?_set_self hlt]
    rfl
  have hother : ∀ e' other, other ≠ entity →
      (mul.entities.set entity e')[other]?.bind Registry.Entity.client_ = clientOf mul other := by
    intro e' other hne
    rw [List.getElem?_set_ne hne.symm]
    rfl
  refine ⟨List.Subset.refl _, Nat.le_succ _, fun other client h => ?_, fun other client h => ?_⟩
  · have hne : other ≠ entity := by
      rintro rfl
      exact absurd (h.symm.trans hclientOf) (Option.some_ne_none _)
    exact (hother _ other hne).trans h
  · by_cases hne : other = entity
    · subst hne
      obtain rfl : mul.clients = client := Option.some.inj ((hself _).symm.trans h)
      refine .inr ⟨Nat.lt_succ_self _, fun third hthird => ?_⟩
      by_contra hne
      exact Nat.lt_irrefl _ (hfresh third _ ((hother _ third hne).symm.trans hthird))
    · exact .inl ((hother _ other hne).symm.trans h)

/-- What a step of the registry does. -/
theorem registry_left (hfresh : ∀ entity client, clientOf mul entity = some client →
      client < mul.clients) {action : Multiplexer.Action} (hpossible : mul.Possible action) :
    (mul.step action).Ensures (Announced mul action) (Left mul action) := by
  cases action with
  | construct conn id => exact construct_left conn id
  | start entity cb => exact start_left hfresh hpossible
  | destroy entity =>
      simp only [Multiplexer.step, Multiplexer.destroy]
      split
      · exact .fault
      · refine .tell_bind (List.forall_mem_singleton.mpr rfl) (.pure ⟨?_, ?_⟩)
        · exact .of_eq (List.subset_cons_self ..) rfl fun _ => rfl
        · rintro _ ⟨rfl⟩
          exact List.mem_cons_self ..
  | run => exact run_left
  | startcb freed =>
      simp only [Multiplexer.step]
      split
      · exact .pure (Grows.left (.of_eq (List.Subset.refl _) rfl fun _ => rfl) fun _ => by simp)
      · refine .tell_bind (fun h hh => ?_) (.pure (Grows.left ?_ fun _ => by simp))
        · obtain ⟨cb, -, rfl⟩ := List.mem_map.mp hh
          trivial
        · exact .of_eq (List.Subset.refl _) rfl fun _ => rfl

end Registry

/-! ### The invariant -/

/-- The invariant of a careful run. A client that was deleted belongs to an entity that was
destroyed, and its transfers are over. -/
structure Inv (log : List Transfers.Event) (sys : Transfers) : Prop where
  spared : Spared log
  fresh : ∀ entity client, clientOf sys.mul entity = some client → client < sys.mul.clients
  unique : ∀ entity other client, clientOf sys.mul entity = some client →
    clientOf sys.mul other = some client → other = entity
  deleted : ∀ client, Deleted client log →
    (∃ entity ∈ sys.mul.destroyed, clientOf sys.mul entity = some client) ∧
      ∀ st ∈ sys.started, st.client = client → ¬ InFlight st.transfer
  destroyed : ∀ entity, Destroyed entity log → entity ∈ sys.mul.destroyed ∧
    ∀ st ∈ sys.started, st.entity = entity → ¬ AsksEntity st.transfer

section Log
variable {log es : List Transfers.Event} {entity : Nat} {client : Client}

/-- A trace goes on, and what goes on spares the clients and the entities. -/
theorem Spared.append (h : Spared log)
    (hes : ∀ pre entity client call post, es = pre ++ .call entity client call :: post →
      ¬ Deleted client (log ++ pre) ∧
        (call = .getEntityConnection → ¬ Destroyed entity (log ++ pre))) : Spared (log ++ es) := by
  intro pre entity client call post heq
  rcases List.append_eq_append_iff.mp heq with ⟨rest, rfl, hrest⟩ | ⟨rest, hrest, htail⟩
  · exact hes rest entity client call post hrest
  · cases rest with
    | nil =>
        rw [List.append_nil] at hrest
        have hfirst := hes [] entity client call post htail.symm
        rwa [List.append_nil, hrest] at hfirst
    | cons e rest =>
        obtain ⟨rfl, -⟩ := List.cons.inj htail
        exact h pre entity client call rest hrest

/-- Happenings on the multiplexer call nobody. -/
theorem Spared.happenings (h : Spared log) (hs : List Happening) :
    Spared (log ++ hs.flatMap fun h => [.happening h]) := by
  refine h.append fun pre entity client call post heq => ?_
  have hmem : Transfers.Event.call entity client call ∈ hs.flatMap fun h => [.happening h] := by
    rw [heq]
    exact List.mem_append_right _ (List.mem_cons_self ..)
  obtain ⟨x, -, hx⟩ := List.mem_flatMap.mp hmem
  exact Transfers.Event.noConfusion (List.mem_singleton.mp hx)

/-- The calls of a transfer, in the trace. -/
def callsOf (entity : Nat) (client : Client) (calls : List Call) : List Transfers.Event :=
  calls.flatMap fun call => [.call entity client call]

/-- No call deletes anything. -/
theorem happening_mem_append {calls : List Call} {happening : Happening}
    (hes : es <+: callsOf entity client calls) :
    .happening happening ∈ log ++ es ↔ .happening happening ∈ log := by
  refine ⟨fun hmem => (List.mem_append.mp hmem).resolve_right fun hmem => ?_,
    List.mem_append_left _⟩
  obtain ⟨call, -, hcall⟩ := List.mem_flatMap.mp (hes.subset hmem)
  exact Transfers.Event.noConfusion (List.mem_singleton.mp hcall)

/-- A transfer calls a client that is there. -/
theorem Spared.calls (h : Spared log) {calls : List Call}
    (hclient : calls ≠ [] → ¬ Deleted client log)
    (hentity : .getEntityConnection ∈ calls → ¬ Destroyed entity log) :
    Spared (log ++ callsOf entity client calls) := by
  refine h.append fun pre entity' client' call' post heq => ?_
  have hmem : Transfers.Event.call entity' client' call' ∈ callsOf entity client calls := by
    rw [heq]
    exact List.mem_append_right _ (List.mem_cons_self ..)
  have hpre : pre <+: callsOf entity client calls := ⟨_, heq.symm⟩
  obtain ⟨call, hcall, hsame⟩ := List.mem_flatMap.mp hmem
  obtain ⟨rfl, rfl, rfl⟩ := Transfers.Event.call.inj (List.mem_singleton.mp hsame)
  constructor
  · rintro ⟨other, hdeleted⟩
    exact hclient (List.ne_nil_of_mem hcall) ⟨other, (happening_mem_append hpre).mp hdeleted⟩
  · rintro rfl hdestroyed
    exact hentity hcall ((happening_mem_append hpre).mp hdestroyed)

end Log

section Steps
variable {log es : List Transfers.Event} {sys sys' : Transfers}

/-- A client whose entity is there has not been deleted. -/
theorem Inv.not_deleted (h : Inv log sys) {entity : Nat} {client : Client}
    (hclient : clientOf sys.mul entity = some client) (hthere : entity ∉ sys.mul.destroyed) :
    ¬ Deleted client log := by
  intro hdeleted
  obtain ⟨owner, howner, hsame⟩ := (h.deleted client hdeleted).1
  exact hthere (h.unique owner entity client hsame hclient ▸ howner)

variable {κ : Type} (md5 : Md5 κ)

/-- What a careful step does, whether it returns or not, spares the clients and the entities. -/
theorem Inv.spared_step (h : Inv log sys) {action : Transfers.Action}
    (hpossible : sys.Possible action) : Spared (log ++ (sys.step md5 action).log) := by
  cases action with
  | registry action => exact h.spared.happenings _
  | start entity start =>
      obtain ⟨hthere, hstarted⟩ := hpossible
      obtain ⟨client, hclient⟩ := Option.isSome_iff_exists.mp hstarted
      simp only [Transfers.step, hclient]
      refine h.spared.calls (fun _ => h.not_deleted hclient hthere) fun _ hdestroyed => ?_
      exact hthere (h.destroyed entity hdestroyed).1
  | transfer i action =>
      obtain ⟨st, hst, hpossible⟩ := hpossible
      have hmem : st ∈ sys.started := List.mem_of_getElem? hst
      simp only [Transfers.step, hst]
      refine h.spared.calls (fun hcalls hdeleted => hcalls ?_) fun hasks hdestroyed => ?_
      · -- a transfer whose client was deleted is over
        have hidle := InFlight.idle md5 ((h.deleted _ hdeleted).2 st hmem rfl) hpossible
        exact List.eq_nil_iff_forall_not_mem.mpr hidle.acts
      · have hidle := AsksEntity.idle md5 ((h.destroyed _ hdestroyed).2 st hmem rfl) hpossible
        exact hidle.acts _ hasks rfl

/-- `st` is the transfer `st₀`, or what became of it. -/
structure Follows (st₀ st : Started) : Prop where
  entity : st.entity = st₀.entity
  client : st.client = st₀.client
  ended : ¬ InFlight st₀.transfer → ¬ InFlight st.transfer
  unasking : ¬ AsksEntity st₀.transfer → ¬ AsksEntity st.transfer

theorem Follows.refl (st : Started) : Follows st st := ⟨rfl, rfl, id, id⟩

/-- A timer that is cancelled does not fire. -/
theorem follows_cancelRunAfter (st : Started) :
    Follows st { st with transfer := st.transfer.cancelRunAfter } := by
  refine ⟨rfl, rfl, ?_, ?_⟩
  · cases st.transfer with
    | recvFileRequest s timer => exact fun _ => Bool.false_ne_true
    | _ => exact id
  · cases st.transfer with
    | _ => exact id

/-- The start of a transfer cancels at most one timer. -/
theorem timers_started (sys : Transfers) (client : Client) (start : Transfer.Start) :
    (sys.timers client start).mul = sys.mul ∧
      ∀ st ∈ (sys.timers client start).started, ∃ st₀ ∈ sys.started, Follows st₀ st := by
  unfold timers
  split
  · unfold cancelRequest
    split
    · exact ⟨rfl, fun st hst => ⟨st, hst, .refl st⟩⟩
    · next i _ =>
      refine ⟨rfl, fun st hst => ?_⟩
      obtain ⟨j, hj⟩ := List.mem_iff_getElem?.mp hst
      rw [List.getElem?_modify] at hj
      obtain ⟨st₀, hst₀, rfl⟩ := Option.map_eq_some_iff.mp hj
      refine ⟨st₀, List.mem_of_getElem? hst₀, ?_⟩
      split
      · exact follows_cancelRunAfter st₀
      · exact .refl st₀
  · exact ⟨rfl, fun st hst => ⟨st, hst, .refl st⟩⟩
  · exact ⟨rfl, fun st hst => ⟨st, hst, .refl st⟩⟩

/-- A step that leaves the registry alone, and whose transfers are old ones, or have a client and
an entity that are there. -/
theorem Inv.calls (h : Inv log sys) {entity : Nat} {client : Client} {calls : List Call}
    (hspared : Spared (log ++ callsOf entity client calls)) (hmul : sys'.mul = sys.mul)
    (hstarted : ∀ st ∈ sys'.started, (∃ st₀ ∈ sys.started, Follows st₀ st) ∨
      ¬ Deleted st.client log ∧ ¬ Destroyed st.entity log) :
    Inv (log ++ callsOf entity client calls) sys' where
  spared := hspared
  fresh := by
    rw [hmul]
    exact h.fresh
  unique := by
    rw [hmul]
    exact h.unique
  deleted := by
    rintro gone ⟨other, hmem⟩
    have hgone : Deleted gone log := ⟨other, (happening_mem_append (List.prefix_refl _)).mp hmem⟩
    rw [hmul]
    refine ⟨(h.deleted gone hgone).1, fun st hst heq => ?_⟩
    rcases hstarted st hst with ⟨st₀, hst₀, hfollows⟩ | ⟨hthere, -⟩
    · exact hfollows.ended ((h.deleted gone hgone).2 st₀ hst₀ (hfollows.client ▸ heq))
    · exact absurd (heq ▸ hgone) hthere
  destroyed := by
    intro gone hmem
    have hgone : Destroyed gone log := (happening_mem_append (List.prefix_refl _)).mp hmem
    rw [hmul]
    refine ⟨(h.destroyed gone hgone).1, fun st hst heq => ?_⟩
    rcases hstarted st hst with ⟨st₀, hst₀, hfollows⟩ | ⟨-, hthere⟩
    · exact hfollows.unasking ((h.destroyed gone hgone).2 st₀ hst₀ (hfollows.entity ▸ heq))
    · exact absurd (heq ▸ hgone) hthere

/-- A careful step of the registry. -/
theorem Inv.registry (h : Inv log sys) {action : Multiplexer.Action} {hs : List Happening}
    {mul' : Multiplexer} (hpossible : sys.mul.Possible action)
    (hcareful : Careful sys (.registry action)) (hstep : (sys.mul.step action).Yields hs mul') :
    Inv (log ++ hs.flatMap fun h => [.happening h]) { sys with mul := mul' } := by
  obtain ⟨hacts, hvalue⟩ := registry_left h.fresh hpossible
  rw [hstep.1] at hacts
  obtain ⟨hgrows, hdestroyed⟩ := hvalue mul' hstep.2
  -- a happening of the trace is an old one, or was announced
  have hannounced : ∀ happening, .happening happening ∈ log ++
      (hs.flatMap fun h => [Transfers.Event.happening h]) →
      .happening happening ∈ log ∨ Announced sys.mul action happening := by
    intro happening hmem
    refine (List.mem_append.mp hmem).imp_right fun hmem => ?_
    obtain ⟨x, hx, hsame⟩ := List.mem_flatMap.mp hmem
    obtain rfl := Transfers.Event.happening.inj (List.mem_singleton.mp hsame)
    exact hacts _ hx
  refine ⟨h.spared.happenings hs, fun entity client hclient => ?_,
    fun entity other client hclient hother => ?_, fun client hdeleted => ?_,
    fun entity hgone => ?_⟩
  · rcases hgrows.new entity client hclient with hold | hnew
    · exact Nat.lt_of_lt_of_le (h.fresh entity client hold) hgrows.clients
    · exact hnew.1
  · rcases hgrows.new entity client hclient with hold | hnew
    · rcases hgrows.new other client hother with hold' | hnew'
      · exact h.unique entity other client hold hold'
      · exact (hnew'.2 entity hclient).symm
    · exact hnew.2 other hother
  · have hgone : (∃ entity ∈ sys.mul.destroyed, clientOf sys.mul entity = some client) ∧
        ∀ st ∈ sys.started, st.client = client → ¬ InFlight st.transfer := by
      obtain ⟨other, hmem⟩ := hdeleted
      rcases hannounced _ hmem with hold | ⟨rfl, hdoomed⟩
      · exact h.deleted client ⟨other, hold⟩
      · exact hcareful client hdoomed
    obtain ⟨⟨entity, hentity, hclient⟩, hover⟩ := hgone
    exact ⟨⟨entity, hgrows.destroyed hentity, hgrows.old entity client hclient⟩, hover⟩
  · rcases hannounced _ hgone with hold | rfl
    · exact ⟨hgrows.destroyed (h.destroyed entity hold).1, (h.destroyed entity hold).2⟩
    · exact ⟨hdestroyed entity rfl, hcareful⟩

/-- A careful step. -/
theorem Inv.step (h : Inv log sys) {action : Transfers.Action} (hpossible : sys.Possible action)
    (hcareful : Careful sys action) (hstep : (sys.step md5 action).Yields es sys') :
    Inv (log ++ es) sys' := by
  have hspared := h.spared_step md5 hpossible
  rw [hstep.1] at hspared
  cases action with
  | registry action =>
      -- the entities act, and no transfer does
      obtain ⟨hs, mul', hregistry, rfl, rfl⟩ := Traced.view_yields.mp hstep
      exact h.registry hpossible hcareful hregistry
  | start entity start =>
      -- the new transfer has the client of an entity that is there
      obtain ⟨hthere, hstarted⟩ := hpossible
      obtain ⟨client, hclient⟩ := Option.isSome_iff_exists.mp hstarted
      simp only [Transfers.step, hclient] at hstep
      obtain ⟨calls, transfer, -, rfl, rfl⟩ := Traced.view_yields.mp hstep
      obtain ⟨hmul, htimers⟩ := timers_started sys client start
      refine h.calls hspared hmul fun st hst => ?_
      rcases List.mem_append.mp hst with hold | hnew
      · exact .inl (htimers st hold)
      · obtain rfl := List.mem_singleton.mp hnew
        refine .inr ⟨h.not_deleted hclient hthere, fun hdestroyed => ?_⟩
        exact hthere (h.destroyed entity hdestroyed).1
  | transfer i action =>
      -- a transfer goes on; one that is over stays so
      obtain ⟨st, hst, hpossible⟩ := hpossible
      have hmem : st ∈ sys.started := List.mem_of_getElem? hst
      simp only [Transfers.step, hst] at hstep
      obtain ⟨calls, transfer, htransfer, rfl, rfl⟩ := Traced.view_yields.mp hstep
      refine h.calls hspared rfl fun st' hst' => .inl ?_
      rcases List.mem_or_eq_of_mem_set hst' with hold | rfl
      · exact ⟨st', hold, .refl st'⟩
      · refine ⟨st, hmem, rfl, rfl, fun hover => ?_, fun hunasking => ?_⟩
        · exact (InFlight.idle md5 hover hpossible).value _ htransfer.2
        · exact (AsksEntity.idle md5 hunasking hpossible).value _ htransfer.2

end Steps

/-! ### Whole runs -/

theorem inv_init : Inv [] {} where
  spared _ _ _ _ _ heq :=
    absurd heq.symm (List.append_ne_nil_of_right_ne_nil _ (List.cons_ne_nil _ _))
  fresh _ _ h := absurd h.symm (Option.some_ne_none _)
  unique _ _ _ h := absurd h.symm (Option.some_ne_none _)
  deleted := by
    rintro client ⟨entity, hmem⟩
    exact absurd hmem List.not_mem_nil
  destroyed _ hmem := absurd hmem List.not_mem_nil

section Runs
variable {κ : Type} (md5 : Md5 κ) {actions : List Transfers.Action} {log : List Transfers.Event}
  {sys : Transfers}

/-- The invariant of a careful run. -/
theorem inv_run (hrun : Traced.Run (Transfers.step md5)
    (fun sys action => sys.Possible action ∧ Careful sys action) {} actions log sys) :
    Inv log sys := by
  refine hrun.invariant (P := fun _ log sys => Inv log sys) inv_init ?_
  intro l log sys action es sys' h hok hstep
  exact h.step md5 hok.1 hok.2 hstep

/-- In a careful run no transfer calls a client that was deleted, or asks an entity that was
destroyed, and no step that may come next does, even if it does not return. -/
theorem spared_of_careful (hrun : Traced.Run (Transfers.step md5)
    (fun sys action => sys.Possible action ∧ Careful sys action) {} actions log sys) :
    Spared log ∧ ∀ action, sys.Possible action →
      Spared (log ++ (sys.step md5 action).log) := by
  have h := inv_run md5 hrun
  exact ⟨h.spared, fun _ hpossible => h.spared_step md5 hpossible⟩

end Runs

/-! ### A request and its timer -/

/-- A checksum for runs without files. -/
def noMd5 : Md5 Unit := ⟨(), fun _ _ => (), fun _ _ => 0⟩

/-- The record of a request for a file. -/
def request : RecvFile :=
  { info := { fileName_ := [0x66], length_ := -1, checkSum_ := [] }
    client := { noticeCallback_ := some 0 }
    mem := fun _ => 0
    disk := {}
    data := {} }

/-- An entity is started and entered, and asks its peer for a file. -/
def asking : List Transfers.Action :=
  [.registry (.construct 0 1), .registry (.start 0 none), .registry .run,
    .registry (.startcb none),
    .start 0 (.recvFile request.info.fileName_ request.client request.mem request.disk)]

/-- What has happened then. -/
def askingLog : List Transfers.Event :=
  [.happening (.started 0), .happening (.inserted 0), .happening (.bufInfo 0)]

/-- The state then, with what became of the timer. -/
def asked (timer : Bool) : Transfers :=
  { mul :=
      { connMp_ := Function.update (fun _ => none) 0
          (some (Multiplexer.enter (fun _ => none) 1 0))
        entities := [{ conn_ := 0, id_ := 1, client_ := some 0 }]
        clients := 1 }
    started := [{ entity := 0, client := 0, transfer := .recvFileRequest request timer }]
    timeMp_ := Function.update (fun _ => none) 0 (some 0) }

/-- The state when the entity was destroyed. -/
def left (timer : Bool) : Transfers :=
  { asked timer with
    mul := { (asked timer).mul with destroyed := [0], queue := [(0, .remove 0 1)] } }

/-- The state when its client was deleted as well. -/
def removed (timer : Bool) : Transfers :=
  { asked timer with
    mul :=
      { (asked timer).mul with
        connMp_ := Function.update (asked timer).mul.connMp_ 0
          (some (Function.update (Multiplexer.enter (fun _ => none) 1 0) 1 none))
        destroyed := [0] } }

/-- The run up to then. -/
theorem asking_run : Traced.Run (Transfers.step noMd5)
    (fun sys action => sys.Possible action ∧ Careful sys action) {} asking askingLog
    (asked true) := by
  let ok : Transfers → Transfers.Action → Prop :=
    fun sys action => sys.Possible action ∧ Careful sys action
  have hconstruct : Traced.Run (Transfers.step noMd5) ok {} [.registry (.construct 0 1)] []
      { mul := { entities := [{ conn_ := 0, id_ := 1 }] } } :=
    .snoc .nil ⟨trivial, trivial⟩ ⟨rfl, rfl⟩
  have hstart : Traced.Run (Transfers.step noMd5) ok {} (asking.take 2) (askingLog.take 1)
      { mul :=
          { (asked true).mul with
            connMp_ := fun _ => none
            queue := [(0, .insert 0 1 0 0)] } } :=
    .snoc hconstruct ⟨⟨List.not_mem_nil, _, rfl, rfl⟩, trivial⟩ ⟨rfl, rfl⟩
  have hinsert : Traced.Run (Transfers.step noMd5) ok {} (asking.take 3) askingLog
      { mul := { (asked true).mul with inInsert := some 0 } } :=
    .snoc hstart ⟨rfl, fun _ h => absurd h.symm (Option.some_ne_none _)⟩ ⟨rfl, rfl⟩
  have hstartcb : Traced.Run (Transfers.step noMd5) ok {} (asking.take 4) askingLog
      { mul := (asked true).mul } :=
    .snoc hinsert ⟨Option.some_ne_none _, trivial⟩ ⟨rfl, rfl⟩
  exact .snoc hstartcb ⟨⟨List.not_mem_nil, rfl⟩, trivial⟩ ⟨rfl, rfl⟩

/-- The timer fires. -/
theorem fire_yields {sys : Transfers} (timer : Bool)
    (hstarted : sys.started = (asked timer).started) :
    (sys.step noMd5 (.transfer 0 .handleRecvfileFail)).Yields [.call 0 0 .analysisProtobuf]
      { sys with started := (asked false).started } := by
  simp only [Transfers.step, hstarted]
  exact ⟨rfl, rfl⟩

theorem destroy_yields (timer : Bool) :
    ((asked timer).step noMd5 (.registry (.destroy 0))).Yields
      [.happening (.destroyed 0)] (left timer) := ⟨rfl, rfl⟩

theorem remove_yields (timer : Bool) :
    ((left timer).step noMd5 (.registry .run)).Yields
      [.happening (.deleted 0 0), .happening (.erased 0 0)] (removed timer) := ⟨rfl, rfl⟩

theorem destroy_possible (timer : Bool) : (asked timer).Possible (.registry (.destroy 0)) :=
  ⟨Nat.zero_lt_one, List.not_mem_nil⟩

theorem remove_possible (timer : Bool) : (left timer).Possible (.registry .run) := rfl

/-- The timer of the request fires before the entity is destroyed. -/
theorem spared_of_careful_timeout :
    ∃ log sys, Traced.Run (Transfers.step noMd5)
      (fun sys action => sys.Possible action ∧ Careful sys action) {}
      (asking ++ [.transfer 0 .handleRecvfileFail] ++ [.registry (.destroy 0)] ++
        [.registry .run]) log sys ∧ Spared log := by
  have hpossible : (asked true).Possible (.transfer 0 .handleRecvfileFail) := ⟨_, rfl, rfl⟩
  have hthere : Careful (asked false) (.registry (.destroy 0)) := by
    intro st hst _
    obtain rfl := List.mem_singleton.mp hst
    exact id
  have hover : Careful (left false) (.registry .run) := by
    intro client hclient
    obtain rfl : 0 = client := Option.some.inj ((rfl : some 0 = doomed _).trans hclient)
    refine ⟨⟨0, List.mem_cons_self .., rfl⟩, fun st hst _ => ?_⟩
    obtain rfl := List.mem_singleton.mp hst
    exact Bool.false_ne_true
  have hrun := ((asking_run.snoc ⟨hpossible, trivial⟩ (fire_yields true rfl)).snoc
    ⟨destroy_possible false, hthere⟩ (destroy_yields false)).snoc ⟨remove_possible false, hover⟩
    (remove_yields false)
  exact ⟨_, _, hrun, (spared_of_careful noMd5 hrun).1⟩

/-- The timer of the request fires when the client was deleted. -/
theorem request_outlives_client :
    ∃ log sys, Traced.Run (Transfers.step noMd5) Transfers.Possible {}
      (asking ++ [.registry (.destroy 0)] ++ [.registry .run] ++
        [.transfer 0 .handleRecvfileFail]) log sys ∧
      log.getLast? = some (.call 0 0 .analysisProtobuf) ∧ Deleted 0 log.dropLast ∧
        ¬ Spared log := by
  have hasking : Traced.Run (Transfers.step noMd5) Transfers.Possible {} asking askingLog
      (asked true) := asking_run.mono fun _ _ h => h.1
  have hpossible : (removed true).Possible (.transfer 0 .handleRecvfileFail) := ⟨_, rfl, rfl⟩
  have hrun := ((hasking.snoc (destroy_possible true) (destroy_yields true)).snoc
    (remove_possible true) (remove_yields true)).snoc hpossible (fire_yields true rfl)
  have hdeleted : Deleted 0 (askingLog ++ [.happening (.destroyed 0)] ++
    [.happening (.deleted 0 0), .happening (.erased 0 0)]) := ⟨0, by decide⟩
  exact ⟨_, _, hrun, rfl, hdeleted, fun h => (h _ 0 0 .analysisProtobuf [] rfl).1 hdeleted⟩

end Ndsl.Proofs.Transfers
