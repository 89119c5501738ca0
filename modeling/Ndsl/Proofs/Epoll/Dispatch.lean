import Ndsl.Net.Epoll
import Ndsl.Net.Session
import Ndsl.Proofs.EventLoop.Quit

/-!
# `Ndsl.Proofs.Epoll.Dispatch`: which channels a batch calls

`Fresh` says of a trace that no channel is called which was erased or deleted since its batch was
fetched. The loop does not look at that, so it is up to the handlers: `fresh_iff` says that a run
which has finished its batches is fresh exactly when every step is `Careful`, that is, no channel is
erased or deleted while it still stands in the batch.

The induction carries one of two facts. Either every step was careful so far, and then what is left
of the batch is not gone (`Good`); or something gone is left, or was called already (`Doomed`). The
loop goes through its batch to the end, so a doomed run is not fresh when the batch is finished.

`stale_listener` is a batch of the timer and of a listener of `sendFile`: the timeout of the
listener deletes it.
-/

set_option autoImplicit false

namespace Ndsl.Proofs.Epoll

open Ndsl.Lib
open Ndsl.Net
open Ndsl.Net.Reactor
open Ndsl.Proofs.EventLoop (Idle afterHandle next_cases other_cases)

/-! ### Reading a trace -/

/-- What is gone since the last batch, after an event. -/
def after (gone : List Nat) : Event → List Nat
  | .wait _ => []
  | .erase channel _ => channel :: gone
  | .delete channel => channel :: gone
  | _ => gone

/-- The channels that were erased or deleted since the last batch was fetched. -/
def gone (log : List Event) : List Nat := log.foldl after []

/-- The loop calls no channel that was erased or deleted since its batch was fetched. -/
def Fresh (log : List Event) : Prop :=
  ∀ pre channel post, log = pre ++ .handleEvent channel :: post → channel ∉ gone pre

/-- The same for events that come when `dead` is gone. -/
def FreshFrom (dead : List Nat) : List Event → Prop
  | [] => True
  | e :: es => (∀ channel, e = .handleEvent channel → channel ∉ dead) ∧ FreshFrom (after dead e) es

theorem gone_append (log es : List Event) : gone (log ++ es) = es.foldl after (gone log) :=
  List.foldl_append

theorem freshFrom_iff {dead : List Nat} {es : List Event} : FreshFrom dead es ↔
    ∀ pre channel post, es = pre ++ .handleEvent channel :: post →
      channel ∉ pre.foldl after dead := by
  induction es generalizing dead with
  | nil => exact iff_of_true trivial fun pre channel post heq => by simp at heq
  | cons e es ih =>
      rw [FreshFrom, ih]
      constructor
      · rintro ⟨hhead, htail⟩ pre channel post heq
        cases pre with
        | nil => exact hhead channel (List.cons.inj heq).1
        | cons e' pre =>
            obtain ⟨rfl, hrest⟩ := List.cons.inj heq
            exact htail pre channel post hrest
      · intro h
        refine ⟨fun channel heq => h [] channel es (by rw [heq]; rfl),
          fun pre channel post heq => ?_⟩
        exact h (e :: pre) channel post (by rw [heq]; rfl)

/-- A longer trace is fresh when its two parts are. -/
theorem fresh_append {log es : List Event} :
    Fresh (log ++ es) ↔ Fresh log ∧ FreshFrom (gone log) es := by
  rw [freshFrom_iff]
  constructor
  · intro h
    refine ⟨fun pre channel post heq => ?_, fun pre channel post heq => ?_⟩
    · exact h pre channel (post ++ es) (by rw [heq, List.append_assoc]; rfl)
    · rw [← gone_append]
      exact h (log ++ pre) channel post (by rw [heq, List.append_assoc])
  · rintro ⟨hlog, hes⟩ pre channel post heq
    rcases List.append_eq_append_iff.mp heq with ⟨front, rfl, hback⟩ | ⟨back, hfront, hback⟩
    · rw [gone_append]
      exact hes front channel post hback
    · cases back with
      | nil =>
          rw [List.append_nil] at hfront
          subst hfront
          exact hes [] channel post hback.symm
      | cons e back =>
          obtain ⟨rfl, -⟩ := List.cons.inj hback
          exact hlog pre channel back hfront

theorem fresh_nil : Fresh [] := fun pre channel post heq => by simp at heq

/-- Work changes nothing. -/
theorem foldl_after_work (dead : List Nat) (acts : List WorkAct) :
    (acts.flatMap fun act => [Event.work act]).foldl after dead = dead := by
  induction acts with
  | nil => rfl
  | cons act acts ih => exact ih

theorem freshFrom_work (dead : List Nat) (acts : List WorkAct) :
    FreshFrom dead (acts.flatMap fun act => [Event.work act]) := by
  induction acts with
  | nil => trivial
  | cons act acts ih => exact ⟨fun channel => nofun, ih⟩

/-! ### The batch in hand -/

/-- What is left of the batch. -/
def remaining : Pc → List ChannelRef
  | .handle channels _ _ => channels
  | _ => []

/-- No channel is erased or deleted while it stands in the batch. -/
def Careful (s : Reactor) : Action → Prop
  | .erase channel => .other channel ∉ remaining s.loop.pc
  | .delete channel => .other channel ∉ remaining s.loop.pc
  | _ => True

theorem remaining_idle {pc : Pc} (h : Idle pc) : remaining pc = [] := by
  rcases h with rfl | ⟨ret, rfl⟩
  · rfl
  · rfl

theorem remaining_afterWork (quit : Bool) : remaining (EventLoop.afterWork quit) = [] := by
  cases quit <;> rfl

theorem remaining_afterHandle (quit haswork : Bool) (channels : List ChannelRef) :
    remaining (afterHandle quit haswork channels) = channels.tail := by
  cases channels with
  | nil =>
      cases haswork with
      | true => rfl
      | false => exact remaining_afterWork quit
  | cons channel rest => cases channel <;> rfl

/-- Outside of a batch the loop calls nothing. -/
theorem called_eq_nil {pc : Pc} (h : remaining pc = []) : called pc = [] := by
  cases pc with
  | handle channels quit haswork =>
      obtain rfl : channels = [] := h
      rfl
  | wait => rfl
  | read quit => rfl
  | onQueue quit => rfl
  | readIntr => rfl
  | returned ret => rfl

/-- A step that calls nothing and keeps the rest of the batch. -/
def Quiet (loop loop' : EventLoop) (action : EventLoop.Action) : Prop :=
  calls loop action = [] ∧
    ∀ channel, .other channel ∈ remaining loop'.pc ↔ .other channel ∈ remaining loop.pc

/-- What a step of the loop calls is what it takes off the batch. -/
theorem calls_cases {loop loop' : EventLoop} {action : EventLoop.Action} {acts : List WorkAct}
    (hpossible : loop.Possible action) (hstep : (loop.step action).Yields acts loop') :
    Quiet loop loop' action ∨
    (∃ channel, calls loop action = [.handleEvent channel] ∧
      remaining loop.pc = .other channel :: remaining loop'.pc) ∨
    (∃ channels, calls loop action = [.wait channels] ∧ remaining loop.pc = [] ∧
      remaining loop'.pc = channels) := by
  have hquiet : called loop.pc = [] → remaining loop'.pc = remaining loop.pc →
      Quiet loop loop' .next := fun hcalled heq => ⟨hcalled, fun channel => by rw [heq]⟩
  by_cases hnext : action = .next
  · subst hnext
    rcases next_cases hstep with ⟨hpc, -, -, hidle⟩ | ⟨channels, quit, haswork, hpc, -, -, hpc'⟩ |
      ⟨quit, hpc, hpc', -⟩ | ⟨quit, hpc, -, -, hpc'⟩ | ⟨hpc, hpc', -⟩
    · -- the cases of `next_cases` in their order; the loop is in no batch outside the second
      exact .inl (hquiet (called_eq_nil (remaining_idle hidle)) (by rw [hpc]))
    · -- one turn of the loop over the channels
      have hrest : remaining loop'.pc = channels.tail := by rw [hpc', remaining_afterHandle]
      have hall : remaining loop.pc = channels := by rw [hpc]; rfl
      cases channels with
      | nil => exact .inl (hquiet (called_eq_nil hall) (hrest.trans hall.symm))
      | cons channel rest =>
          have hcalls : calls loop .next = called (.handle (channel :: rest) quit haswork) := by
            rw [← hpc]
            rfl
          cases channel with
          | other channel => exact .inr (.inl ⟨channel, hcalls, by rw [hall, hrest]; rfl⟩)
          | pQueCh_ => exact .inl ⟨hcalls, fun channel => by simp [hall, hrest]⟩
          | pIntrCh_ => exact .inl ⟨hcalls, fun channel => by simp [hall, hrest]⟩
    · have hnone : remaining loop.pc = [] := by rw [hpc]; rfl
      exact .inl (hquiet (called_eq_nil hnone) (by rw [hnone, hpc']; rfl))
    · have hnone : remaining loop.pc = [] := by rw [hpc]; rfl
      refine .inl (hquiet (called_eq_nil hnone) ?_)
      rcases hpc' with hpc' | ⟨-, hpc'⟩
      · rw [hnone, hpc']
        rfl
      · rw [hnone, hpc', remaining_afterWork]
    · have hnone : remaining loop.pc = [] := by rw [hpc]; rfl
      exact .inl (hquiet (called_eq_nil hnone) (by rw [hnone, hpc']; rfl))
  · have hrest := (other_cases hnext hpossible hstep).2.2
    -- of the other actions only a `wait` that returns events begins a batch
    by_cases hwait : ∃ channels, action = .wait (.events channels)
    · obtain ⟨channels, rfl⟩ := hwait
      obtain ⟨-, rfl⟩ := (Traced.pure_yields ..).mp hstep
      exact .inr (.inr ⟨channels, rfl, by rw [hpossible.1]; rfl, rfl⟩)
    · have hcalls : calls loop action = [] := by
        cases action with
        | next => exact absurd rfl hnext
        | wait result =>
            cases result with
            | events channels => exact absurd ⟨channels, rfl⟩ hwait
            | error errno => rfl
        | enqueue thread item => rfl
        | onWrite thread => rfl
        | removeWork item => rfl
        | quit => rfl
        | loop => rfl
      refine .inl ⟨hcalls, fun channel => ?_⟩
      rcases hrest with hsame | ⟨hidle, hidle' | ⟨channels, heq, -⟩⟩
      · rw [hsame]
      · rw [remaining_idle hidle, remaining_idle hidle']
      · exact absurd ⟨channels, heq⟩ hwait

/-! ### Good and doomed runs -/

/-- A run that was careful so far: what is left of the batch is not gone. -/
structure Good (log : List Event) (s : Reactor) : Prop where
  fresh : Fresh log
  present : ∀ channel, .other channel ∈ remaining s.loop.pc → channel ∉ gone log

/-- Something gone was called, or is left to be called. -/
def Doomed (log : List Event) (s : Reactor) : Prop :=
  ¬ Fresh log ∨ ∃ channel, .other channel ∈ remaining s.loop.pc ∧ channel ∈ gone log

section Steps
variable {log es : List Event} {s s' : Reactor} {action : Action}

/-- A step of the loop performs its calls, and work. -/
theorem loop_yields {act : EventLoop.Action} (hstep : (s.step (.loop act)).Yields es s') :
    ∃ acts : List WorkAct, (s.loop.step act).Yields acts s'.loop ∧
      es = calls s.loop act ++ acts.flatMap fun a => [.work a] := by
  obtain ⟨fs, hrest, rfl⟩ := (Traced.tell_bind_yields ..).mp hstep
  obtain ⟨ws, loop, gs, hview, hret, rfl⟩ := Traced.bind_yields.mp hrest
  obtain ⟨rfl, rfl⟩ := (Traced.pure_yields ..).mp hret
  obtain ⟨acts, loop', hacts, rfl, rfl⟩ := Traced.view_yields.mp hview
  exact ⟨acts, hacts, by rw [List.append_nil]⟩

/-- A step on a channel: what it adds to what is gone. -/
theorem channel_yields (hloop : ∀ act, action ≠ .loop act) (hstep : (s.step action).Yields es s') :
    s'.loop = s.loop ∧ ∀ dead, FreshFrom dead es ∧ ∀ channel,
      channel ∈ es.foldl after dead ↔
        (action = .erase channel ∨ action = .delete channel) ∨ channel ∈ dead := by
  cases action with
  | loop act => exact absurd rfl (hloop act)
  | enroll c =>
      obtain ⟨_, hret, rfl⟩ := (Traced.tell_bind_yields ..).mp hstep
      obtain ⟨rfl, rfl⟩ := (Traced.pure_yields ..).mp hret
      exact ⟨rfl, fun dead => ⟨⟨fun _ => nofun, trivial⟩, fun channel => by simp [after]⟩⟩
  | erase c =>
      obtain ⟨_, hret, rfl⟩ := (Traced.tell_bind_yields ..).mp hstep
      obtain ⟨rfl, rfl⟩ := (Traced.pure_yields ..).mp hret
      exact ⟨rfl, fun dead => ⟨⟨fun _ => nofun, trivial⟩, fun channel => by simp [after, eq_comm]⟩⟩
  | delete c =>
      obtain ⟨_, hret, rfl⟩ := (Traced.tell_bind_yields ..).mp hstep
      obtain ⟨rfl, rfl⟩ := (Traced.pure_yields ..).mp hret
      exact ⟨rfl, fun dead => ⟨⟨fun _ => nofun, fun _ => nofun, trivial⟩,
        fun channel => by simp [after, eq_comm]⟩⟩

/-- What a step of the loop adds to what is gone, and what it leaves of the batch. -/
theorem loop_cases {act : EventLoop.Action} (log : List Event) (hpossible : s.Possible (.loop act))
    (hstep : (s.step (.loop act)).Yields es s') :
    (gone (log ++ es) = gone log ∧ FreshFrom (gone log) es ∧
      ∀ channel, .other channel ∈ remaining s'.loop.pc ↔ .other channel ∈ remaining s.loop.pc) ∨
    (∃ channel, gone (log ++ es) = gone log ∧
      (FreshFrom (gone log) es ↔ channel ∉ gone log) ∧
      remaining s.loop.pc = .other channel :: remaining s'.loop.pc) ∨
    (gone (log ++ es) = [] ∧ FreshFrom (gone log) es ∧ remaining s.loop.pc = []) := by
  obtain ⟨acts, hacts, rfl⟩ := loop_yields hstep
  rw [gone_append]
  rcases calls_cases hpossible.1 hacts with ⟨hcalls, hrest⟩ | ⟨channel, hcalls, hrest⟩ |
    ⟨channels, hcalls, hnone, -⟩
  · left
    rw [hcalls, List.nil_append]
    exact ⟨foldl_after_work _ _, freshFrom_work _ _, hrest⟩
  · right; left
    rw [hcalls]
    refine ⟨channel, foldl_after_work _ _, ⟨fun h => h.1 channel rfl, fun h => ⟨?_, ?_⟩⟩, hrest⟩
    · intro channel' heq
      rwa [← Event.handleEvent.inj heq]
    · exact freshFrom_work _ _
  · right; right
    rw [hcalls]
    exact ⟨foldl_after_work _ _, ⟨fun _ => nofun, freshFrom_work _ _⟩, hnone⟩

/-- A careful step keeps a run good. -/
theorem Good.step (h : Good log s) (hpossible : s.Possible action) (hcareful : Careful s action)
    (hstep : (s.step action).Yields es s') : Good (log ++ es) s' := by
  by_cases hloop : ∃ act, action = .loop act
  · obtain ⟨act, rfl⟩ := hloop
    rcases loop_cases log hpossible hstep with ⟨hgone, hfresh, hrest⟩ |
      ⟨channel, hgone, hfresh, hrest⟩ | ⟨hgone, hfresh, -⟩
    · refine ⟨fresh_append.mpr ⟨h.fresh, hfresh⟩, fun channel hmem => ?_⟩
      rw [hgone]
      exact h.present channel ((hrest channel).mp hmem)
    · have hpresent : channel ∉ gone log :=
        h.present channel (by rw [hrest]; exact List.mem_cons_self ..)
      refine ⟨fresh_append.mpr ⟨h.fresh, hfresh.mpr hpresent⟩, fun channel' hmem => ?_⟩
      rw [hgone]
      exact h.present channel' (by rw [hrest]; exact List.mem_cons_of_mem _ hmem)
    · -- a new batch
      refine ⟨fresh_append.mpr ⟨h.fresh, hfresh⟩, fun channel _ => ?_⟩
      rw [hgone]
      exact List.not_mem_nil
  · obtain ⟨hsame, hes⟩ := channel_yields (fun act heq => hloop ⟨act, heq⟩) hstep
    obtain ⟨hfresh, hgone⟩ := hes (gone log)
    refine ⟨fresh_append.mpr ⟨h.fresh, hfresh⟩, fun channel hmem => ?_⟩
    rw [hsame] at hmem
    rw [gone_append, hgone]
    rintro ((rfl | rfl) | hold)
    · exact hcareful hmem
    · exact hcareful hmem
    · exact h.present channel hmem hold

/-- A careless step dooms a run. -/
theorem doomed_of_careless (hcareless : ¬ Careful s action)
    (hstep : (s.step action).Yields es s') : Doomed (log ++ es) s' := by
  have hloop : ∀ act, action ≠ .loop act := by
    rintro act rfl
    exact hcareless trivial
  obtain ⟨hsame, hes⟩ := channel_yields hloop hstep
  have hgone := (hes (gone log)).2
  have hdoom : ∀ channel, .other channel ∈ remaining s.loop.pc →
      (action = .erase channel ∨ action = .delete channel) → Doomed (log ++ es) s' := by
    intro channel hmem haction
    refine .inr ⟨channel, hsame ▸ hmem, ?_⟩
    rw [gone_append, hgone]
    exact .inl haction
  cases action with
  | loop act => exact absurd rfl (hloop act)
  | enroll channel => exact absurd trivial hcareless
  | erase channel => exact hdoom channel (not_not.mp hcareless) (.inl rfl)
  | delete channel => exact hdoom channel (not_not.mp hcareless) (.inr rfl)

/-- Nothing saves a doomed run. -/
theorem Doomed.step (h : Doomed log s) (hpossible : s.Possible action)
    (hstep : (s.step action).Yields es s') : Doomed (log ++ es) s' := by
  rcases h with hstale | ⟨channel, hmem, hgone⟩
  · exact .inl fun hfresh => hstale (fresh_append.mp hfresh).1
  · by_cases hloop : ∃ act, action = .loop act
    · obtain ⟨act, rfl⟩ := hloop
      rcases loop_cases log hpossible hstep with ⟨hsame, -, hrest⟩ |
        ⟨channel', hsame, hfresh, hrest⟩ | ⟨-, -, hnone⟩
      · refine .inr ⟨channel, (hrest channel).mpr hmem, ?_⟩
        rwa [hsame]
      · rw [hrest] at hmem
        rcases List.mem_cons.mp hmem with heq | hmem
        · -- the loop calls the channel that is gone
          obtain rfl := ChannelRef.other.inj heq
          exact .inl fun hfresh' => hfresh.mp (fresh_append.mp hfresh').2 hgone
        · refine .inr ⟨channel, hmem, ?_⟩
          rwa [hsame]
      · rw [hnone] at hmem
        exact absurd hmem List.not_mem_nil
    · obtain ⟨hsame, hes⟩ := channel_yields (fun act heq => hloop ⟨act, heq⟩) hstep
      refine .inr ⟨channel, hsame ▸ hmem, ?_⟩
      rw [gone_append, (hes (gone log)).2]
      exact .inr hgone

end Steps

/-! ### Whole runs -/

/-- A step that is possible and careful. -/
def CarefullyPossible (s : Reactor) (action : Action) : Prop := s.Possible action ∧ Careful s action

/-- A run of careful steps calls no channel that is gone. When it has finished its batches, it
has called none only if no step has erased or deleted a channel that stood in the batch. -/
theorem fresh_iff {actions : List Action} {log : List Event} {s : Reactor}
    (hrun : Traced.Run Reactor.step Reactor.Possible {} actions log s) :
    (Traced.Run Reactor.step CarefullyPossible {} actions log s → Fresh log) ∧
    (remaining s.loop.pc = [] → Fresh log →
      Traced.Run Reactor.step CarefullyPossible {} actions log s) := by
  constructor
  · intro hcareful
    have h : Good log s := by
      refine hcareful.invariant (P := fun _ log s => Good log s) ⟨fresh_nil, fun _ => nofun⟩ ?_
      intro l log s action es s' h hpossible hstep
      exact h.step hpossible.1 hpossible.2 hstep
    exact h.fresh
  · intro hfinished hfresh
    -- the first careless step leaves a channel in the batch that is gone, which is called later
    have h : Traced.Run Reactor.step CarefullyPossible {} actions log s ∧ Good log s ∨
        Doomed log s := by
      refine hrun.invariant (P := fun actions log s =>
        Traced.Run Reactor.step CarefullyPossible {} actions log s ∧ Good log s ∨ Doomed log s)
        (.inl ⟨.nil, fresh_nil, fun _ => nofun⟩) ?_
      rintro l log s action es s' (⟨hcareful, hgood⟩ | hdoomed) hpossible hstep
      · by_cases hc : Careful s action
        · exact .inl ⟨.snoc hcareful ⟨hpossible, hc⟩ hstep, hgood.step hpossible hc hstep⟩
        · exact .inr (doomed_of_careless hc hstep)
      · exact .inr (hdoomed.step hpossible hstep)
    rcases h with ⟨hcareful, -⟩ | hstale | ⟨channel, hmem, -⟩
    · exact hcareful
    · exact absurd hfresh hstale
    · rw [hfinished] at hmem
      exact absurd hmem List.not_mem_nil

/-- A batch of two channels is possible while the loop waits. -/
theorem possible_batch {s : Reactor} {first second : Nat} (hpc : s.loop.pc = .wait)
    (hne : first ≠ second) (hfirst : first ∈ s.epoll_.interest)
    (hsecond : second ∈ s.epoll_.interest) :
    s.Possible (.loop (.wait (.events [.other first, .other second]))) := by
  refine ⟨⟨hpc, by simp, by simp [MAX_EVENTS], by simp [hne], ?_⟩, ?_⟩
  · rintro channel hmem
    rcases List.mem_cons.mp hmem with rfl | hmem
    · trivial
    · obtain rfl := List.mem_singleton.mp hmem
      trivial
  · intro channels heq channel hmem
    obtain rfl := WaitResult.events.inj (EventLoop.Action.wait.inj heq)
    rcases List.mem_cons.mp hmem with heq | hmem
    · exact ChannelRef.other.inj heq ▸ hfirst
    · exact ChannelRef.other.inj (List.mem_singleton.mp hmem) ▸ hsecond

/-- The handler of the first channel of a batch erases its own channel, and the loop goes on. -/
theorem fresh_iff_own : Fresh [.enroll 0 S_OK, .enroll 1 S_OK, .wait [.other 0, .other 1],
    .handleEvent 0, .erase 0 S_OK, .handleEvent 1] := by
  have hrun : ∃ log s, Traced.Run Reactor.step CarefullyPossible {} [.enroll 0, .enroll 1,
      .loop (.wait (.events [.other 0, .other 1])), .loop .next, .erase 0, .loop .next] log s ∧
      log = [.enroll 0 S_OK, .enroll 1 S_OK, .wait [.other 0, .other 1], .handleEvent 0,
        .erase 0 S_OK, .handleEvent 1] := by
    refine ⟨_, _, .snoc (.snoc (.snoc (.snoc (.snoc (.snoc (l := []) .nil ?_ ⟨rfl, rfl⟩) ?_
      ⟨rfl, rfl⟩) ?wait ⟨rfl, rfl⟩) ?_ ⟨rfl, rfl⟩) ?erase ⟨rfl, rfl⟩) ?_ ⟨rfl, rfl⟩, rfl⟩
    case wait => exact ⟨possible_batch rfl (by decide) (by decide) (by decide), trivial⟩
    case erase => exact ⟨trivial, show ChannelRef.other 0 ∉ [.other 1] by decide⟩
    all_goals exact ⟨by simp [Reactor.Possible, EventLoop.Possible], trivial⟩
  obtain ⟨log, s, hrun, rfl⟩ := hrun
  exact (fresh_iff (hrun.mono fun _ _ h => h.1)).1 hrun

/-- What a function of a session of `sendFile` does to the channels of its listener and of its
connection: the destructors delete them. -/
def deletions (acceptor conn : Nat) (s : Dtp.Session) : Dtp.Session.Event → List Action
  | .access _ (.delete .acceptor) => [.delete acceptor]
  | .access _ (.delete .conn) => if s.conn.pTcpChannel_.isSome then [.delete conn] else []
  | _ => []

/-- The timer and a listener of `sendFile` become ready together: a peer connects as `WAITTIMEOUT`
ends. The handler of the timer calls `stopListen`, which deletes the listener with its channel, and
the loop calls that channel. -/
theorem stale_listener : ¬ ∀ (actions : List Action) (log : List Event) (s : Reactor),
    Traced.Run Reactor.step Reactor.Possible {} actions log s → Fresh log := by
  intro h
  have hstop : (Dtp.Session.stopListen {}).log.flatMap (deletions 1 2 {}) = [.delete 1] := rfl
  have hrun : ∃ log s, Traced.Run Reactor.step Reactor.Possible {} ([.enroll 0, .enroll 1,
      .loop (.wait (.events [.other 0, .other 1])), .loop .next]
        ++ (Dtp.Session.stopListen {}).log.flatMap (deletions 1 2 {}) ++ [.loop .next]) log s ∧
      log = [.enroll 0 S_OK, .enroll 1 S_OK, .wait [.other 0, .other 1], .handleEvent 0,
        .erase 1 S_OK, .delete 1, .handleEvent 1] := by
    rw [hstop]
    refine ⟨_, _, .snoc (.snoc (.snoc (.snoc (.snoc (.snoc (l := []) .nil ?_ ⟨rfl, rfl⟩) ?_
      ⟨rfl, rfl⟩) ?wait ⟨rfl, rfl⟩) ?_ ⟨rfl, rfl⟩) ?_ ⟨rfl, rfl⟩) ?_ ⟨rfl, rfl⟩, rfl⟩
    case wait => exact possible_batch rfl (by decide) (by decide) (by decide)
    all_goals simp [Reactor.Possible, EventLoop.Possible]
  obtain ⟨log, s, hrun, rfl⟩ := hrun
  refine h _ _ _ hrun [.enroll 0 S_OK, .enroll 1 S_OK, .wait [.other 0, .other 1], .handleEvent 0,
    .erase 1 S_OK, .delete 1] 1 [] rfl ?_
  decide

end Ndsl.Proofs.Epoll
