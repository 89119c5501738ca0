import Ndsl.Net.EventLoop

/-!
# `Ndsl.Proofs.EventLoop.ExactlyOnce`: what becomes of a work item

`Accounted` is the invariant of the work queue: what has been executed, what `doit` still holds
and what stands in `queue_` are, one behind the other, a part of what was enqueued, in the order
in which it was enqueued; and together with what was removed they are all of it. Each step lemma
says what one stretch of the code does to it. `executes_exactly_once` is the law of the queue
over whole runs.
-/

set_option autoImplicit false

namespace Ndsl.Proofs.EventLoop

open Ndsl.Lib
open Ndsl.Net

/-! ### Reading a trace -/

/-- The items that were enqueued, in order. -/
def enqueued : List WorkAct → List WorkItem :=
  List.filterMap fun
    | .enqueue item => some item
    | _ => none

/-- The items whose callback was called, in order. -/
def executed : List WorkAct → List WorkItem :=
  List.filterMap fun
    | .execute item => some item
    | _ => none

/-- The items that a `dequeue` removed, in order. -/
def removed : List WorkAct → List WorkItem :=
  List.filterMap fun
    | .remove item => some item
    | _ => none

@[simp] theorem enqueued_append (log es : List WorkAct) :
    enqueued (log ++ es) = enqueued log ++ enqueued es := List.filterMap_append

@[simp] theorem executed_append (log es : List WorkAct) :
    executed (log ++ es) = executed log ++ executed es := List.filterMap_append

@[simp] theorem removed_append (log es : List WorkAct) :
    removed (log ++ es) = removed log ++ removed es := List.filterMap_append

/-- A trace that ends its first part with `x` does so in what was there before, or in what is
new. -/
theorem split_of_append {log es pre post : List WorkAct} {x : WorkAct}
    (h : log ++ es = pre ++ x :: post) :
    (∃ rest, log = pre ++ x :: rest) ∨ ∃ front, es = front ++ x :: post ∧ pre = log ++ front := by
  rcases List.append_eq_append_iff.mp h with ⟨front, hpre, hes⟩ | ⟨back, hlog, hback⟩
  · exact .inr ⟨front, hes, hpre⟩
  · cases back with
    | nil => exact .inr ⟨[], hback.symm, by rw [hlog, List.append_nil, List.append_nil]⟩
    | cons y back =>
        obtain ⟨rfl, -⟩ := List.cons.inj hback
        exact .inl ⟨back, hlog⟩

/-! ### The law -/

/-- The law of the queue, for a trace that leaves the items `waiting` behind.

- `order`: items are executed in the order in which they were enqueued;
- `account`: what was enqueued has been executed, or removed, or is waiting;
- `once`: no item is executed twice, or removed twice, or both;
- `drained`: when `onQueue` finds the queue empty, everything enqueued before has been executed or
  removed. -/
structure ExactlyOnce (log : List WorkAct) (waiting : List WorkItem) : Prop where
  order : (executed log).Sublist (enqueued log)
  account : (executed log ++ removed log ++ waiting).Perm (enqueued log)
  once : (executed log ++ removed log).Nodup
  drained : ∀ pre post, log = pre ++ .drained :: post → ∀ item ∈ enqueued pre,
    item ∈ executed pre ∨ item ∈ removed pre

/-- What the call of `onQueue` has taken out of the queue and not begun. -/
def Held : Drain → List WorkItem
  | .returned | .empty | .swap => []
  | .items getQueue => getQueue
  | .running _ getQueue => getQueue

/-- The items that are still to be executed, in the order in which they will be. -/
def waiting (channel : QueueChannel) : List WorkItem :=
  Held channel.drain ++ channel.workqueue_.queue_

/-- The invariant of the queue. -/
structure Accounted (log : List WorkAct) (channel : QueueChannel) : Prop where
  order : (executed log ++ waiting channel).Sublist (enqueued log)
  account : (executed log ++ removed log ++ waiting channel).Perm (enqueued log)
  drained : ∀ pre post, log = pre ++ .drained :: post → ∀ item ∈ enqueued pre,
    item ∈ executed pre ∨ item ∈ removed pre

section Steps
variable {log es : List WorkAct} {channel channel' : QueueChannel}

/-- A step that finds nothing empty says nothing new about the tests before it. -/
theorem drained_append (hes : WorkAct.drained ∉ es)
    (h : ∀ pre post, log = pre ++ .drained :: post → ∀ item ∈ enqueued pre,
      item ∈ executed pre ∨ item ∈ removed pre) :
    ∀ pre post, log ++ es = pre ++ .drained :: post → ∀ item ∈ enqueued pre,
      item ∈ executed pre ∨ item ∈ removed pre := by
  intro pre post heq
  rcases split_of_append heq with ⟨rest, hlog⟩ | ⟨front, hes', -⟩
  · exact h pre rest hlog
  · exact absurd (hes' ▸ List.mem_append_right _ (List.mem_cons_self ..)) hes

/-- A step keeps the account when what it executes, what it removes and what then waits are what
waited before, with what it enqueues behind. -/
theorem Accounted.of_step (h : Accounted log channel) (hes : WorkAct.drained ∉ es)
    (horder : (executed es ++ waiting channel').Sublist (waiting channel ++ enqueued es))
    (haccount : (executed es ++ removed es ++ waiting channel').Perm
      (waiting channel ++ enqueued es)) : Accounted (log ++ es) channel' := by
  refine ⟨?_, ?_, drained_append hes h.drained⟩
  · rw [executed_append, enqueued_append, List.append_assoc]
    refine (horder.append_left (executed log)).trans ?_
    rw [← List.append_assoc]
    exact h.order.append_right (enqueued es)
  · rw [executed_append, removed_append, enqueued_append]
    -- what is new comes behind what was there
    have hswap : (executed log ++ executed es ++ (removed log ++ removed es)).Perm
        (executed log ++ removed log ++ (executed es ++ removed es)) := by
      rw [List.append_assoc, List.append_assoc]
      refine List.Perm.append_left _ ?_
      rw [← List.append_assoc, ← List.append_assoc]
      exact List.perm_append_comm.append_right _
    refine (hswap.append_right _).trans ?_
    rw [List.append_assoc]
    refine (haccount.append_left _).trans ?_
    rw [← List.append_assoc]
    exact h.account.append_right (enqueued es)

/-- A step that performs nothing and leaves the same items waiting. -/
theorem Accounted.of_waiting_eq (h : Accounted log channel)
    (heq : waiting channel' = waiting channel) : Accounted log channel' :=
  ⟨heq ▸ h.order, heq ▸ h.account, h.drained⟩

/-- An item enters at the end. -/
theorem Accounted.addWork {item : WorkItem} (h : Accounted log channel)
    (hstep : (channel.step (.addWork item)).Yields es channel') :
    Accounted (log ++ es) channel' := by
  obtain ⟨_, hret, rfl⟩ := (Traced.tell_bind_yields ..).mp hstep
  obtain ⟨rfl, rfl⟩ := (Traced.pure_yields ..).mp hret
  have hwaiting : waiting { channel with workqueue_ := (channel.workqueue_.enqueue item).1 }
      = waiting channel ++ [item] := (List.append_assoc ..).symm
  rw [List.append_nil]
  refine h.of_step (by simp) ?_ ?_
  · rw [hwaiting]
    exact List.Sublist.refl _
  · rw [hwaiting]
    exact List.Perm.refl _

/-- An item that a `dequeue` finds leaves the queue, and nothing else moves. -/
theorem Accounted.removeWork {item : WorkItem} (h : Accounted log channel)
    (hstep : (channel.step (.removeWork item)).Yields es channel') :
    Accounted (log ++ es) channel' := by
  by_cases hmem : item ∈ channel.workqueue_.queue_
  · simp only [QueueChannel.step, QueueChannel.removeWork, WorkQueue.dequeue, if_pos hmem,
      if_true] at hstep
    obtain ⟨_, hret, rfl⟩ := (Traced.tell_bind_yields ..).mp hstep
    obtain ⟨rfl, rfl⟩ := (Traced.pure_yields ..).mp hret
    rw [List.append_nil]
    refine h.of_step (by simp) ?_ ?_
    · show (Held channel.drain ++ channel.workqueue_.queue_.erase item).Sublist
        (waiting channel ++ [])
      rw [List.append_nil]
      exact List.erase_sublist.append_left _
    · -- the item moves from the queue to the removed ones
      show (item :: (Held channel.drain ++ channel.workqueue_.queue_.erase item)).Perm
        (waiting channel ++ [])
      rw [List.append_nil]
      exact List.perm_middle.symm.trans ((List.perm_cons_erase hmem).symm.append_left _)
  · simp only [QueueChannel.step, QueueChannel.removeWork, WorkQueue.dequeue, if_neg hmem,
      show ¬ S_FALSE = S_OK by decide, if_false] at hstep
    obtain ⟨rfl, rfl⟩ := (Traced.pure_yields ..).mp hstep
    rw [List.append_nil]
    exact h

/-- The call begins. -/
theorem Accounted.onQueue (h : Accounted log channel)
    (hpossible : channel.Possible .onQueue)
    (hstep : (channel.step .onQueue).Yields es channel') : Accounted (log ++ es) channel' := by
  obtain ⟨rfl, rfl⟩ := (Traced.pure_yields ..).mp hstep
  rw [List.append_nil]
  refine h.of_waiting_eq ?_
  show [] ++ channel.workqueue_.queue_ = Held channel.drain ++ channel.workqueue_.queue_
  rw [show channel.drain = .returned from hpossible]
  rfl

/-- The test that ends the call: nothing waits, so what was enqueued is accounted for
without it. -/
theorem Accounted.drain {queue : WorkQueue} (hempty : queue.empty = true)
    (h : Accounted log { workqueue_ := queue, drain := .empty }) :
    Accounted (log ++ [.drained]) { workqueue_ := queue, drain := .returned } := by
  have hnone : waiting { workqueue_ := queue, drain := .empty } = [] := List.isEmpty_iff.mp hempty
  have hkeep : ∀ item ∈ enqueued log, item ∈ executed log ∨ item ∈ removed log := by
    intro item hitem
    have hmem := h.account.mem_iff.mpr hitem
    rwa [hnone, List.append_nil, List.mem_append] at hmem
  refine ⟨?_, ?_, ?_⟩
  · rw [executed_append, enqueued_append, show executed [.drained] = [] from rfl,
      show enqueued [.drained] = [] from rfl, List.append_nil, List.append_nil]
    exact h.order
  · rw [executed_append, removed_append, enqueued_append, show executed [.drained] = [] from rfl,
      show removed [.drained] = [] from rfl, show enqueued [.drained] = [] from rfl,
      List.append_nil, List.append_nil, List.append_nil]
    exact h.account
  · intro pre post heq
    rcases split_of_append heq with ⟨rest, hlog⟩ | ⟨front, hes, hpre⟩
    · exact h.drained pre rest hlog
    · cases front with
      | nil =>
          rw [hpre, List.append_nil]
          exact hkeep
      | cons x front => simp at hes

/-- The call goes on. -/
theorem Accounted.next (h : Accounted log channel)
    (hstep : (channel.step .next).Yields es channel') : Accounted (log ++ es) channel' := by
  obtain ⟨queue, drain⟩ := channel
  simp only [QueueChannel.step, QueueChannel.next] at hstep
  cases drain with
  | returned =>
      obtain ⟨rfl, rfl⟩ := (Traced.pure_yields ..).mp hstep
      rwa [List.append_nil]
  | empty =>
      by_cases hempty : queue.empty = true
      · rw [if_pos hempty] at hstep
        obtain ⟨_, hret, rfl⟩ := (Traced.tell_bind_yields ..).mp hstep
        obtain ⟨rfl, rfl⟩ := (Traced.pure_yields ..).mp hret
        rw [List.append_nil]
        exact h.drain hempty
      · rw [if_neg hempty] at hstep
        obtain ⟨rfl, rfl⟩ := (Traced.pure_yields ..).mp hstep
        rw [List.append_nil]
        exact h.of_waiting_eq rfl
  | swap =>
      -- the whole list changes hands
      obtain ⟨rfl, rfl⟩ := (Traced.pure_yields ..).mp hstep
      rw [List.append_nil]
      exact h.of_waiting_eq (List.append_nil _)
  | items getQueue =>
      cases getQueue with
      | nil =>
          obtain ⟨rfl, rfl⟩ := (Traced.pure_yields ..).mp hstep
          rw [List.append_nil]
          exact h.of_waiting_eq rfl
      | cons curWork getQueue =>
          -- the first item moves from the waiting ones to the executed ones
          obtain ⟨_, hret, rfl⟩ := (Traced.tell_bind_yields ..).mp hstep
          obtain ⟨rfl, rfl⟩ := (Traced.pure_yields ..).mp hret
          rw [List.append_nil]
          have heq : curWork :: (getQueue ++ queue.queue_)
              = curWork :: (getQueue ++ queue.queue_) ++ [] := (List.append_nil _).symm
          exact h.of_step (by simp) (heq ▸ List.Sublist.refl _) (.of_eq heq)
  | running curWork getQueue =>
      obtain ⟨_, hret, rfl⟩ := (Traced.tell_bind_yields ..).mp hstep
      obtain ⟨rfl, rfl⟩ := (Traced.pure_yields ..).mp hret
      rw [List.append_nil]
      have heq : getQueue ++ queue.queue_ = getQueue ++ queue.queue_ ++ [] :=
        (List.append_nil _).symm
      exact h.of_step (by simp) (heq ▸ List.Sublist.refl _) (.of_eq heq)

end Steps

/-! ### Whole runs -/

/-- Every step keeps the account. -/
theorem Accounted.step {log es : List WorkAct} {channel channel' : QueueChannel}
    {action : QueueChannel.Action} (h : Accounted log channel)
    (hpossible : channel.Possible action) (hstep : (channel.step action).Yields es channel') :
    Accounted (log ++ es) channel' := by
  cases action with
  | addWork item => exact h.addWork hstep
  | removeWork item => exact h.removeWork hstep
  | onQueue => exact h.onQueue hpossible hstep
  | next => exact h.next hstep

/-- A fresh queue has nothing to account for. -/
theorem accounted_nil : Accounted [] {} := by
  refine ⟨List.Sublist.refl _, List.Perm.refl _, ?_⟩
  intro pre post heq
  simp at heq

/-- The queue of every run is accounted for. -/
theorem accounted_run {actions : List QueueChannel.Action} {log : List WorkAct}
    {channel : QueueChannel}
    (hrun : Traced.Run QueueChannel.step QueueChannel.Possible {} actions log channel) :
    Accounted log channel := by
  refine hrun.invariant (P := fun _ log channel => Accounted log channel) accounted_nil ?_
  intro l log channel action es channel' h hpossible hstep
  exact h.step hpossible hstep

/-- Distinct items make the account one of single executions. -/
theorem Accounted.exactlyOnce {log : List WorkAct} {channel : QueueChannel}
    (h : Accounted log channel) (hdistinct : (enqueued log).Nodup) :
    ExactlyOnce log (waiting channel) := by
  have hnodup : (executed log ++ removed log ++ waiting channel).Nodup :=
    h.account.nodup_iff.mpr hdistinct
  exact ⟨(List.sublist_append_left _ _).trans h.order, h.account,
    hnodup.sublist (List.sublist_append_left _ _), h.drained⟩

/-- In every run that enqueues distinct items the law of the queue holds. -/
theorem executes_exactly_once {actions : List QueueChannel.Action} {log : List WorkAct}
    {channel : QueueChannel}
    (hrun : Traced.Run QueueChannel.step QueueChannel.Possible {} actions log channel)
    (hdistinct : (enqueued log).Nodup) : ExactlyOnce log (waiting channel) :=
  (accounted_run hrun).exactlyOnce hdistinct

/-- Two items, one of them removed, and a callback that enqueues a third one. -/
theorem executes_exactly_once_three :
    ExactlyOnce [.enqueue 1, .enqueue 2, .remove 1, .delete 1, .execute 2, .enqueue 3,
      .delete 2] [3] := by
  have hrun : ∃ log, Traced.Run QueueChannel.step QueueChannel.Possible {}
      [.addWork 1, .addWork 2, .removeWork 1, .onQueue, .next, .next, .next, .addWork 3, .next]
      log { workqueue_ := { queue_ := [3] }, drain := .items [] } ∧
      log = [.enqueue 1, .enqueue 2, .remove 1, .delete 1, .execute 2, .enqueue 3,
        .delete 2] := by
    refine ⟨_, .snoc (.snoc (.snoc (.snoc (.snoc (.snoc (.snoc (.snoc (.snoc (l := []) .nil
      ?_ ⟨rfl, rfl⟩) ?_ ⟨rfl, rfl⟩) ?_ ⟨rfl, rfl⟩) ?_ ⟨rfl, rfl⟩) ?_ ⟨rfl, rfl⟩) ?_ ⟨rfl, rfl⟩)
      ?_ ⟨rfl, rfl⟩) ?_ ⟨rfl, rfl⟩) ?_ ⟨rfl, rfl⟩, ?_⟩
    all_goals trivial
  obtain ⟨log, hrun, rfl⟩ := hrun
  exact executes_exactly_once hrun (by decide)

end Ndsl.Proofs.EventLoop
