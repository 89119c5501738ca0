import Ndsl.Proofs.EventLoop.ExactlyOnce

/-!
# `Ndsl.Proofs.EventLoop.Wakeup`: no lost wakeup

The counter of the eventfd and the length of the work queue drift apart: a drain takes any number
of items and the loop reads one unit for it. What stays true is `Waked`: when the loop is not
between its `read` and the end of the drain, an item in the queue means that the counter is
positive or that a thread is still to write to it. The loop leaves a drain with an empty queue
only, so it has nothing to lose when it comes back to `epoll_wait`.

`queue_run` says that the queue channel of an event loop runs as `QueueChannel` alone does, so
that the law of the queue in `ExactlyOnce` holds for the loop, in `loop_exactly_once`.
-/

set_option autoImplicit false

namespace Ndsl.Proofs.EventLoop

open Ndsl.Lib
open Ndsl.Net

/-! ### The steps of the queue channel -/

section Channel
variable {channel channel' : QueueChannel} {es : List WorkAct}

/-- Adding an item leaves the call of `onQueue` where it is. -/
theorem addWork_drain {item : WorkItem} (h : (channel.step (.addWork item)).Yields es channel') :
    channel'.drain = channel.drain := by
  obtain ⟨_, hret, -⟩ := (Traced.tell_bind_yields ..).mp h
  obtain ⟨-, rfl⟩ := (Traced.pure_yields ..).mp hret
  rfl

/-- Removing an item leaves the call of `onQueue` where it is, and an empty queue empty. -/
theorem removeWork_drain {item : WorkItem}
    (h : (channel.step (.removeWork item)).Yields es channel') :
    channel'.drain = channel.drain ∧
      (channel.workqueue_.queue_ = [] → channel'.workqueue_.queue_ = []) := by
  by_cases hmem : item ∈ channel.workqueue_.queue_
  · simp only [QueueChannel.step, QueueChannel.removeWork, WorkQueue.dequeue, if_pos hmem,
      if_true] at h
    obtain ⟨_, hret, -⟩ := (Traced.tell_bind_yields ..).mp h
    obtain ⟨-, rfl⟩ := (Traced.pure_yields ..).mp hret
    exact ⟨rfl, fun hnil => by simp [hnil]⟩
  · simp only [QueueChannel.step, QueueChannel.removeWork, WorkQueue.dequeue, if_neg hmem,
      show ¬ S_FALSE = S_OK by decide, if_false] at h
    obtain ⟨-, rfl⟩ := (Traced.pure_yields ..).mp h
    exact ⟨rfl, id⟩

/-- The call of `onQueue` returns from its test only, which has found the queue empty. -/
theorem next_returned (hdrain : channel.drain ≠ .returned)
    (h : (channel.step .next).Yields es channel') (hreturned : channel'.drain = .returned) :
    channel'.workqueue_.queue_ = [] := by
  obtain ⟨queue, drain⟩ := channel
  simp only [QueueChannel.step, QueueChannel.next] at h
  cases drain with
  | returned => exact absurd rfl hdrain
  | empty =>
      -- the test of `onQueue`, the only place that returns
      by_cases hempty : queue.empty = true
      · rw [if_pos hempty] at h
        obtain ⟨_, hret, -⟩ := (Traced.tell_bind_yields ..).mp h
        obtain ⟨-, rfl⟩ := (Traced.pure_yields ..).mp hret
        exact List.isEmpty_iff.mp hempty
      · rw [if_neg hempty] at h
        obtain ⟨-, rfl⟩ := (Traced.pure_yields ..).mp h
        exact Drain.noConfusion hreturned
  | swap =>
      obtain ⟨-, rfl⟩ := (Traced.pure_yields ..).mp h
      exact Drain.noConfusion hreturned
  | items getQueue =>
      cases getQueue with
      | nil =>
          obtain ⟨-, rfl⟩ := (Traced.pure_yields ..).mp h
          exact Drain.noConfusion hreturned
      | cons curWork getQueue =>
          obtain ⟨_, hret, -⟩ := (Traced.tell_bind_yields ..).mp h
          obtain ⟨-, rfl⟩ := (Traced.pure_yields ..).mp hret
          exact Drain.noConfusion hreturned
  | running curWork getQueue =>
      obtain ⟨_, hret, -⟩ := (Traced.tell_bind_yields ..).mp h
      obtain ⟨-, rfl⟩ := (Traced.pure_yields ..).mp hret
      exact Drain.noConfusion hreturned

end Channel

/-! ### The invariant -/

/-- The loop has work in hand that it took a unit for. -/
def Draining (loop : EventLoop) : Prop := ∃ quit, loop.pc = .onQueue quit

/-- The invariant of the loop.

- `calls`: a call of `onQueue` is under way exactly while the loop is in it;
- `wake`: outside of that an item in the queue is announced, or a thread is about to announce
  it. -/
structure Waked (loop : EventLoop) : Prop where
  calls : loop.pQueCh_.drain ≠ .returned ↔ Draining loop
  wake : ¬ Draining loop → loop.pQueCh_.workqueue_.queue_ ≠ [] →
    0 < loop.queCount ∨ ∃ thread, loop.inside thread = true

section Steps
variable {loop loop' : EventLoop} {es : List WorkAct}

/-- A step that moves neither the queue nor the counter, inside or outside of a drain. -/
theorem Waked.of_pc (h : Waked loop) {pc : Pc} (hpc : Draining loop ↔ ∃ quit, pc = .onQueue quit)
    (intrCount : Nat) : Waked { loop with pc := pc, intrCount := intrCount } :=
  ⟨h.calls.trans hpc, fun hnot => h.wake (fun hdraining => hnot (hpc.mp hdraining))⟩

/-- The first half of `addWork` leaves a thread that is about to write. -/
theorem Waked.enqueue (h : Waked loop) {thread : Tid} {item : WorkItem}
    (hstep : (loop.step (.enqueue thread item)).Yields es loop') : Waked loop' := by
  obtain ⟨_, channel, _, hchannel, hret, -⟩ := Traced.bind_yields.mp hstep
  obtain ⟨-, rfl⟩ := (Traced.pure_yields ..).mp hret
  refine ⟨?_, fun _ _ => .inr ⟨thread, Function.update_self ..⟩⟩
  show channel.drain ≠ .returned ↔ Draining loop
  rw [addWork_drain hchannel]
  exact h.calls

/-- The second half of `addWork` leaves a positive counter. -/
theorem Waked.onWrite (h : Waked loop) {thread : Tid}
    (hstep : (loop.step (.onWrite thread)).Yields es loop') : Waked loop' := by
  obtain ⟨-, rfl⟩ := (Traced.pure_yields ..).mp hstep
  refine ⟨h.calls, fun _ _ => .inl ?_⟩
  -- a `write` fails only because the counter is at its greatest value
  show 0 < (efdWrite loop.queCount).1
  unfold efdWrite
  split
  · rename_i hmax
    rw [hmax]
    decide
  · exact Nat.succ_pos _

/-- Removing an item takes nothing away from the others. -/
theorem Waked.removeWork (h : Waked loop) {item : WorkItem}
    (hstep : (loop.step (.removeWork item)).Yields es loop') : Waked loop' := by
  obtain ⟨_, channel, _, hchannel, hret, -⟩ := Traced.bind_yields.mp hstep
  obtain ⟨-, rfl⟩ := (Traced.pure_yields ..).mp hret
  obtain ⟨hdrain, hnil⟩ := removeWork_drain hchannel
  refine ⟨?_, fun hnot hqueue => h.wake hnot fun h' => hqueue (hnil h')⟩
  show channel.drain ≠ .returned ↔ Draining loop
  rw [hdrain]
  exact h.calls

/-- Outside of `read` and `onQueue` the loop only moves on. -/
theorem not_draining_afterWork (quit : Bool) : ¬ ∃ q, EventLoop.afterWork quit = .onQueue q := by
  rintro ⟨q, hq⟩
  cases quit <;> exact Pc.noConfusion hq

/-- The loop goes on. -/
theorem Waked.next (h : Waked loop) (hstep : (loop.step .next).Yields es loop') :
    Waked loop' := by
  have hout : ∀ {pc : Pc}, loop.pc = pc → (¬ ∃ quit, pc = .onQueue quit) → ¬ Draining loop := by
    rintro pc rfl hpc hdraining
    exact hpc hdraining
  simp only [EventLoop.step, EventLoop.next] at hstep
  cases hpc : loop.pc with
  | wait =>
      simp only [hpc] at hstep
      obtain ⟨-, rfl⟩ := (Traced.pure_yields ..).mp hstep
      exact h
  | returned ret =>
      simp only [hpc] at hstep
      obtain ⟨-, rfl⟩ := (Traced.pure_yields ..).mp hstep
      exact h
  | readIntr =>
      simp only [hpc] at hstep
      obtain ⟨-, rfl⟩ := (Traced.pure_yields ..).mp hstep
      have hnot := hout hpc (by simp)
      exact h.of_pc (iff_of_false hnot (by simp)) _
  | handle channels quit haswork =>
      have hnot := hout hpc (by simp)
      cases channels with
      | nil =>
          simp only [hpc] at hstep
          obtain ⟨-, rfl⟩ := (Traced.pure_yields ..).mp hstep
          refine h.of_pc (iff_of_false hnot ?_) _
          cases haswork with
          | false => exact not_draining_afterWork quit
          | true => simp
      | cons channel channels =>
          cases channel with
          | pQueCh_ =>
              simp only [hpc] at hstep
              obtain ⟨-, rfl⟩ := (Traced.pure_yields ..).mp hstep
              exact h.of_pc (iff_of_false hnot (by simp)) _
          | pIntrCh_ =>
              simp only [hpc] at hstep
              obtain ⟨-, rfl⟩ := (Traced.pure_yields ..).mp hstep
              exact h.of_pc (iff_of_false hnot (by simp)) _
          | other channel =>
              simp only [hpc] at hstep
              obtain ⟨-, rfl⟩ := (Traced.pure_yields ..).mp hstep
              exact h.of_pc (iff_of_false hnot (by simp)) _
  | read quit =>
      -- the unit is taken, and the drain begins
      simp only [hpc] at hstep
      obtain ⟨_, channel, _, hchannel, hret, -⟩ := Traced.bind_yields.mp hstep
      obtain ⟨-, rfl⟩ := (Traced.pure_yields ..).mp hchannel
      obtain ⟨-, rfl⟩ := (Traced.pure_yields ..).mp hret
      have hdraining : ∃ q, Pc.onQueue quit = .onQueue q := ⟨quit, rfl⟩
      exact ⟨iff_of_true Drain.noConfusion hdraining, fun hnot => absurd hdraining hnot⟩
  | onQueue quit =>
      simp only [hpc] at hstep
      obtain ⟨_, channel, _, hchannel, hret, -⟩ := Traced.bind_yields.mp hstep
      obtain ⟨-, rfl⟩ := (Traced.pure_yields ..).mp hret
      have hcall := h.calls.mpr ⟨quit, hpc⟩
      by_cases hreturned : channel.drain = .returned
      · -- the drain ends, with an empty queue
        have hnil := next_returned hcall hchannel hreturned
        refine ⟨?_, fun _ hqueue => absurd hnil hqueue⟩
        simp only [Draining, if_pos hreturned]
        exact iff_of_false (fun hne => hne hreturned) (not_draining_afterWork quit)
      · have hdraining : ∃ q, (if channel.drain = .returned then EventLoop.afterWork quit
            else .onQueue quit) = .onQueue q := ⟨quit, if_neg hreturned⟩
        exact ⟨iff_of_true hreturned hdraining, fun hnot => absurd hdraining hnot⟩

/-- Every step keeps the invariant. -/
theorem Waked.step {action : EventLoop.Action} (h : Waked loop)
    (hpossible : loop.Possible action) (hstep : (loop.step action).Yields es loop') :
    Waked loop' := by
  cases action with
  | enqueue thread item => exact h.enqueue hstep
  | onWrite thread => exact h.onWrite hstep
  | removeWork item => exact h.removeWork hstep
  | quit =>
      -- the interrupt channel is none of the queue
      obtain ⟨-, rfl⟩ := (Traced.pure_yields ..).mp hstep
      exact ⟨h.calls, h.wake⟩
  | loop =>
      obtain ⟨-, rfl⟩ := (Traced.pure_yields ..).mp hstep
      -- `loop` is called again, and begins outside a drain
      obtain ⟨ret, hret⟩ := hpossible
      refine h.of_pc (iff_of_false ?_ (by simp)) _
      rintro ⟨quit, hpc⟩
      exact Pc.noConfusion (hret.symm.trans hpc)
  | next => exact h.next hstep
  | wait result =>
      cases result with
      | events channels =>
          obtain ⟨-, rfl⟩ := (Traced.pure_yields ..).mp hstep
          refine h.of_pc (iff_of_false ?_ (by simp)) _
          rintro ⟨quit, hpc⟩
          exact Pc.noConfusion (hpossible.1.symm.trans hpc)
      | error errno =>
          obtain ⟨-, rfl⟩ := (Traced.pure_yields ..).mp hstep
          refine h.of_pc (iff_of_false ?_ ?_) _
          · rintro ⟨quit, hpc⟩
            exact Pc.noConfusion (Eq.trans (Eq.symm hpossible) hpc)
          · rintro ⟨quit, hpc⟩
            split at hpc <;> exact Pc.noConfusion hpc

end Steps

/-! ### Whole runs -/

/-- A loop on which nothing has happened. -/
theorem waked_init : Waked {} := by
  refine ⟨iff_of_false (fun h => h rfl) ?_, fun _ hqueue => absurd rfl hqueue⟩
  rintro ⟨quit, hpc⟩
  exact Pc.noConfusion hpc

/-- When the loop is about to block and no thread is inside `addWork`, an item in the queue means
that the eventfd counter is positive, so that `epoll_wait` can return with the queue channel. -/
theorem no_lost_wakeup {actions : List EventLoop.Action} {log : List WorkAct} {loop : EventLoop}
    (hrun : Traced.Run EventLoop.step EventLoop.Possible {} actions log loop)
    (hwait : loop.pc = .wait) (hinside : ∀ thread, loop.inside thread = false)
    (hqueue : loop.pQueCh_.workqueue_.queue_ ≠ []) :
    0 < loop.queCount ∧ loop.Possible (.wait (.events [.pQueCh_])) := by
  have h : Waked loop := by
    refine hrun.invariant (P := fun _ _ loop => Waked loop) waked_init ?_
    intro l log loop action es loop' h hpossible hstep
    exact h.step hpossible hstep
  have hnot : ¬ Draining loop := by
    rintro ⟨quit, hpc⟩
    exact Pc.noConfusion (hwait.symm.trans hpc)
  have hpos : 0 < loop.queCount := by
    rcases h.wake hnot hqueue with hpos | ⟨thread, hthread⟩
    · exact hpos
    · exact absurd ((hinside thread).symm.trans hthread) Bool.false_ne_true
  refine ⟨hpos, hwait, by simp, by decide, by simp, ?_⟩
  intro channel hchannel
  obtain rfl := List.mem_singleton.mp hchannel
  exact hpos

/-- Two threads whose steps interleave. -/
theorem no_lost_wakeup_two :
    ∃ log loop, Traced.Run EventLoop.step EventLoop.Possible {}
      [.enqueue 0 7, .enqueue 1 8, .onWrite 1, .onWrite 0] log loop ∧
      loop.pQueCh_.workqueue_.queue_ = [7, 8] ∧ 0 < loop.queCount := by
  have hrun : ∃ log loop, Traced.Run EventLoop.step EventLoop.Possible {}
      [.enqueue 0 7, .enqueue 1 8, .onWrite 1, .onWrite 0] log loop ∧
      loop.pQueCh_.workqueue_.queue_ = [7, 8] ∧ loop.pc = .wait ∧
      ∀ thread, loop.inside thread = false := by
    refine ⟨_, _, .snoc (.snoc (.snoc (.snoc (l := []) .nil ?_ ⟨rfl, rfl⟩) ?_ ⟨rfl, rfl⟩) ?_
      ⟨rfl, rfl⟩) ?_ ⟨rfl, rfl⟩, rfl, rfl, ?_⟩
    · rfl
    · rfl
    · rfl
    · rfl
    · intro thread
      simp only [Function.update_apply]
      split
      · rfl
      · split
        · rfl
        · rfl
  obtain ⟨log, loop, hrun, hqueue, hwait, hinside⟩ := hrun
  refine ⟨log, loop, hrun, hqueue, ?_⟩
  exact (no_lost_wakeup hrun hwait hinside (by rw [hqueue]; decide)).1

/-! ### The queue of the loop -/

/-- A step of the loop is a step of its queue channel, or leaves it alone. -/
theorem queue_step {loop loop' : EventLoop} {es : List WorkAct} {action : EventLoop.Action}
    (h : Waked loop) (hstep : (loop.step action).Yields es loop') :
    (es = [] ∧ loop'.pQueCh_ = loop.pQueCh_) ∨
      ∃ act, loop.pQueCh_.Possible act ∧ (loop.pQueCh_.step act).Yields es loop'.pQueCh_ := by
  -- what is behind a step of the channel performs nothing
  have hbind : ∀ {a : QueueChannel.Action} {f : QueueChannel → EventLoop},
      loop.pQueCh_.Possible a → (∀ channel, (f channel).pQueCh_ = channel) →
      (loop.pQueCh_.step a >>= fun channel => pure (f channel)).Yields es loop' →
      ∃ act, loop.pQueCh_.Possible act ∧ (loop.pQueCh_.step act).Yields es loop'.pQueCh_ := by
    intro a f hpossible hf hbound
    obtain ⟨_, channel, _, hchannel, hret, rfl⟩ := Traced.bind_yields.mp hbound
    obtain ⟨rfl, rfl⟩ := (Traced.pure_yields ..).mp hret
    refine ⟨a, hpossible, ?_⟩
    rw [List.append_nil, hf]
    exact hchannel
  cases action with
  | enqueue thread item => exact .inr (hbind (a := .addWork item) trivial (fun _ => rfl) hstep)
  | removeWork item => exact .inr (hbind (a := .removeWork item) trivial (fun _ => rfl) hstep)
  | onWrite thread =>
      obtain ⟨rfl, rfl⟩ := (Traced.pure_yields ..).mp hstep
      exact .inl ⟨rfl, rfl⟩
  | quit =>
      obtain ⟨rfl, rfl⟩ := (Traced.pure_yields ..).mp hstep
      exact .inl ⟨rfl, rfl⟩
  | loop =>
      obtain ⟨rfl, rfl⟩ := (Traced.pure_yields ..).mp hstep
      exact .inl ⟨rfl, rfl⟩
  | wait result =>
      cases result with
      | events channels =>
          obtain ⟨rfl, rfl⟩ := (Traced.pure_yields ..).mp hstep
          exact .inl ⟨rfl, rfl⟩
      | error errno =>
          obtain ⟨rfl, rfl⟩ := (Traced.pure_yields ..).mp hstep
          exact .inl ⟨rfl, rfl⟩
  | next =>
      simp only [EventLoop.step, EventLoop.next] at hstep
      split at hstep
      case h_5 quit hpc =>
        have hreturned : loop.pQueCh_.drain = .returned := by
          by_contra hcall
          obtain ⟨q, hq⟩ := h.calls.mp hcall
          exact Pc.noConfusion (hpc.symm.trans hq)
        exact .inr (hbind (a := .onQueue) hreturned (fun _ => rfl) hstep)
      case h_6 quit hpc => exact .inr (hbind (a := .next) trivial (fun _ => rfl) hstep)
      all_goals
        obtain ⟨rfl, rfl⟩ := (Traced.pure_yields ..).mp hstep
        exact .inl ⟨rfl, rfl⟩

/-- The queue channel of a loop runs as a queue channel does. -/
theorem queue_run {actions : List EventLoop.Action} {log : List WorkAct} {loop : EventLoop}
    (hrun : Traced.Run EventLoop.step EventLoop.Possible {} actions log loop) :
    ∃ acts, Traced.Run QueueChannel.step QueueChannel.Possible {} acts log loop.pQueCh_ := by
  have h : Waked loop ∧
      ∃ acts, Traced.Run QueueChannel.step QueueChannel.Possible {} acts log loop.pQueCh_ := by
    refine hrun.invariant (P := fun _ log loop => Waked loop ∧
      ∃ acts, Traced.Run QueueChannel.step QueueChannel.Possible {} acts log loop.pQueCh_)
      ⟨waked_init, [], .nil⟩ ?_
    rintro l log loop action es loop' ⟨hwaked, acts, hacts⟩ hpossible hstep
    refine ⟨hwaked.step hpossible hstep, ?_⟩
    rcases queue_step hwaked hstep with ⟨rfl, heq⟩ | ⟨act, hact, hchannel⟩
    · rw [List.append_nil, heq]
      exact ⟨acts, hacts⟩
    · exact ⟨acts ++ [act], .snoc hacts hact hchannel⟩
  exact h.2

/-- The law of the queue, for the loop and the threads around it. -/
theorem loop_exactly_once {actions : List EventLoop.Action} {log : List WorkAct}
    {loop : EventLoop}
    (hrun : Traced.Run EventLoop.step EventLoop.Possible {} actions log loop)
    (hdistinct : (enqueued log).Nodup) : ExactlyOnce log (waiting loop.pQueCh_) := by
  obtain ⟨acts, hacts⟩ := queue_run hrun
  exact (accounted_run hacts).exactlyOnce hdistinct

end Ndsl.Proofs.EventLoop
