import Ndsl.Proofs.EventLoop.Wakeup

/-!
# `Ndsl.Proofs.EventLoop.Quit`: work before the end

`loop` looks at the two eventfds of one batch together: when both are in it, the queue is drained
before the loop returns. So the order in which the eventfds were written does not matter, but it
matters that a batch with the interrupt channel also holds the queue channel when there is work.
`ReportsAll` is that assumption on `epoll_wait`.

The invariant follows one item. `Owed` says that it waits, and that outside of a drain the counter
of the queue channel is positive; `DrainsFirst` says of the place where the loop stands that the
batch in hand does not end the loop before a drain. A drain ends with an empty queue only, so the
loop cannot come to its end while the item waits.
-/

set_option autoImplicit false

namespace Ndsl.Proofs.EventLoop

open Ndsl.Lib
open Ndsl.Net

/-! ### What is said about a run -/

/-- `epoll_wait` reports the two channels of the loop whenever they are ready. -/
def ReportsAll (loop : EventLoop) (action : EventLoop.Action) : Prop :=
  loop.Possible action ∧ ∀ channels, action = .wait (.events channels) →
    (0 < loop.queCount → .pQueCh_ ∈ channels) ∧ (0 < loop.intrCount → .pIntrCh_ ∈ channels)

/-- The item was executed, or removed. -/
def Done (item : WorkItem) (log : List WorkAct) : Prop :=
  item ∈ executed log ∨ item ∈ removed log

/-- The step with which `loop` returns `S_OK`. -/
def Returns (loop loop' : EventLoop) : Prop :=
  (∀ ret, loop.pc ≠ .returned ret) ∧ loop'.pc = .returned S_OK

theorem Done.append_left {item : WorkItem} {log : List WorkAct} (h : Done item log)
    (es : List WorkAct) : Done item (log ++ es) := by
  rw [Done, executed_append, removed_append]
  exact h.imp (List.mem_append_left _) (List.mem_append_left _)

theorem Done.append_right {item : WorkItem} {es : List WorkAct} (h : Done item es)
    (log : List WorkAct) : Done item (log ++ es) := by
  rw [Done, executed_append, removed_append]
  exact h.imp (List.mem_append_right _) (List.mem_append_right _)

/-! ### One item in the queue -/

section Channel
variable {channel channel' : QueueChannel} {es : List WorkAct} {item : WorkItem}

/-- What a step executes, removes and leaves waiting is what waited, and what it enqueues. -/
theorem account_step {action : QueueChannel.Action} (hpossible : channel.Possible action)
    (hstep : (channel.step action).Yields es channel') :
    (executed es ++ removed es ++ waiting channel').Perm (waiting channel ++ enqueued es) := by
  -- the law of the queue, for a trace that has enqueued what waits and nothing else
  let log := (waiting channel).map WorkAct.enqueue
  have hexecuted : executed log = [] := by
    simp [log, executed, List.filterMap_map]
  have hremoved : removed log = [] := by
    simp [log, removed, List.filterMap_map]
  have henqueued : enqueued log = waiting channel := by
    rw [enqueued, List.filterMap_map]
    exact List.filterMap_some
  have hlog : Accounted log channel := by
    refine ⟨?_, ?_, ?_⟩
    · rw [hexecuted, henqueued]
      exact List.Sublist.refl _
    · rw [hexecuted, hremoved, henqueued]
      exact List.Perm.refl _
    · intro pre post heq
      have hmem : WorkAct.drained ∈ log := heq ▸ List.mem_append_right _ (List.mem_cons_self ..)
      simp [log] at hmem
  have h := (hlog.step hpossible hstep).account
  rwa [executed_append, removed_append, enqueued_append, hexecuted, hremoved, henqueued] at h

/-- An item that waits goes on waiting, or is done. -/
theorem waiting_step {action : QueueChannel.Action} (hpossible : channel.Possible action)
    (hstep : (channel.step action).Yields es channel') (hwaits : item ∈ waiting channel) :
    item ∈ waiting channel' ∨ Done item es := by
  have hmem := (account_step hpossible hstep).mem_iff.mpr (List.mem_append_left _ hwaits)
  rcases List.mem_append.mp hmem with hdone | hwaits'
  · exact .inr (List.mem_append.mp hdone)
  · exact .inl hwaits'

end Channel

/-! ### The loop and one item -/

/-- The item waits, and the loop is draining or will be told. -/
structure Owed (item : WorkItem) (loop : EventLoop) : Prop where
  waits : item ∈ waiting loop.pQueCh_
  told : ¬ Draining loop → 0 < loop.queCount

/-- The batch in hand ends the loop. -/
def Quits : Pc → Prop
  | .handle channels quit _ => quit = true ∨ .pIntrCh_ ∈ channels
  | .read quit => quit = true
  | .onQueue quit => quit = true
  | .readIntr => True
  | _ => False

/-- The batch in hand does not end the loop before a drain. -/
def DrainsFirst : Pc → Prop
  | .handle channels quit haswork =>
    Quits (.handle channels quit haswork) → haswork = true ∨ .pQueCh_ ∈ channels
  | .readIntr => False
  | _ => True

theorem drainsFirst_of_not_quits {pc : Pc} (h : ¬ Quits pc) : DrainsFirst pc := by
  cases pc with
  | handle channels quit haswork => exact fun hquits => absurd hquits h
  | readIntr => exact h trivial
  | wait => trivial
  | read quit => trivial
  | onQueue quit => trivial
  | returned ret => trivial

/-- Where one turn of the loop over the channels leads. -/
def afterHandle (quit haswork : Bool) : List ChannelRef → Pc
  | .pIntrCh_ :: rest => .handle rest true haswork
  | .pQueCh_ :: rest => .handle rest quit true
  | .other _ :: rest => .handle rest quit haswork
  | [] => if haswork then .read quit else EventLoop.afterWork quit

/-- A turn does not make a batch end the loop. -/
theorem quits_of_afterHandle {quit haswork : Bool} {channels : List ChannelRef}
    (h : Quits (afterHandle quit haswork channels)) : Quits (.handle channels quit haswork) := by
  cases channels with
  | nil =>
      cases haswork with
      | true => exact .inl h
      | false =>
          cases quit with
          | true => exact .inl rfl
          | false => exact absurd h id
  | cons channel rest =>
      cases channel with
      | pIntrCh_ => exact .inr (List.mem_cons_self ..)
      | pQueCh_ => exact h.imp_right (List.mem_cons_of_mem _)
      | other channel => exact h.imp_right (List.mem_cons_of_mem _)

/-- A turn does not take the drain away. -/
theorem drainsFirst_afterHandle {quit haswork : Bool} {channels : List ChannelRef}
    (h : DrainsFirst (.handle channels quit haswork)) :
    DrainsFirst (afterHandle quit haswork channels) := by
  cases channels with
  | nil =>
      cases haswork with
      | true => trivial
      | false =>
          cases quit with
          | true => exact absurd (h (.inl rfl)) (by simp)
          | false => trivial
  | cons channel rest =>
      cases channel with
      | pQueCh_ => exact fun _ => .inl rfl
      | pIntrCh_ =>
          -- the queue channel is behind the interrupt channel, or was before it
          intro _
          exact (h (.inr (List.mem_cons_self ..))).imp_right fun hmem => by simpa using hmem
      | other channel =>
          intro hquits
          refine (h (hquits.imp_right (List.mem_cons_of_mem _))).imp_right fun hmem => ?_
          simpa using hmem

theorem afterHandle_ne_returned (quit haswork : Bool) (channels : List ChannelRef) (ret : Int) :
    afterHandle quit haswork channels ≠ .returned ret := by
  cases channels with
  | nil => cases haswork <;> cases quit <;> exact Pc.noConfusion
  | cons channel rest => cases channel <;> exact Pc.noConfusion

section Steps
variable {loop loop' : EventLoop} {es : List WorkAct} {item : WorkItem}
  {action : EventLoop.Action}

/-- The loop is not in a batch. -/
def Idle (pc : Pc) : Prop := pc = .wait ∨ ∃ ret, pc = .returned ret

/-- What `next` does to the counters and to the place of the loop. -/
theorem next_cases (hstep : (loop.step .next).Yields es loop') :
    (loop'.pc = loop.pc ∧ loop'.queCount = loop.queCount ∧ loop'.intrCount = loop.intrCount ∧
      Idle loop.pc) ∨
    (∃ channels quit haswork, loop.pc = .handle channels quit haswork ∧
      loop'.queCount = loop.queCount ∧ loop'.intrCount = loop.intrCount ∧
      loop'.pc = afterHandle quit haswork channels) ∨
    (∃ quit, loop.pc = .read quit ∧ loop'.pc = .onQueue quit ∧
      loop'.intrCount = loop.intrCount) ∨
    (∃ quit, loop.pc = .onQueue quit ∧ loop'.queCount = loop.queCount ∧
      loop'.intrCount = loop.intrCount ∧
      (loop'.pc = .onQueue quit ∨
        loop'.pQueCh_.drain = .returned ∧ loop'.pc = EventLoop.afterWork quit)) ∨
    (loop.pc = .readIntr ∧ loop'.pc = .returned S_OK ∧ loop'.queCount = loop.queCount) := by
  simp only [EventLoop.step, EventLoop.next] at hstep
  cases hpc : loop.pc with
  | wait =>
      simp only [hpc] at hstep
      obtain ⟨-, rfl⟩ := (Traced.pure_yields ..).mp hstep
      exact .inl ⟨hpc, rfl, rfl, .inl rfl⟩
  | returned ret =>
      simp only [hpc] at hstep
      obtain ⟨-, rfl⟩ := (Traced.pure_yields ..).mp hstep
      exact .inl ⟨hpc, rfl, rfl, .inr ⟨ret, rfl⟩⟩
  | readIntr =>
      simp only [hpc] at hstep
      obtain ⟨-, rfl⟩ := (Traced.pure_yields ..).mp hstep
      exact .inr (.inr (.inr (.inr ⟨rfl, rfl, rfl⟩)))
  | handle channels quit haswork =>
      -- the channel at the front decides what is noted, the rest of the batch what follows
      refine .inr (.inl ⟨channels, quit, haswork, rfl, ?_⟩)
      cases channels with
      | nil =>
          simp only [hpc] at hstep
          obtain ⟨-, rfl⟩ := (Traced.pure_yields ..).mp hstep
          exact ⟨rfl, rfl, rfl⟩
      | cons channel rest =>
          cases channel with
          | pQueCh_ =>
              simp only [hpc] at hstep
              obtain ⟨-, rfl⟩ := (Traced.pure_yields ..).mp hstep
              exact ⟨rfl, rfl, rfl⟩
          | pIntrCh_ =>
              simp only [hpc] at hstep
              obtain ⟨-, rfl⟩ := (Traced.pure_yields ..).mp hstep
              exact ⟨rfl, rfl, rfl⟩
          | other channel =>
              simp only [hpc] at hstep
              obtain ⟨-, rfl⟩ := (Traced.pure_yields ..).mp hstep
              exact ⟨rfl, rfl, rfl⟩
  | read quit =>
      simp only [hpc] at hstep
      -- the counter was read, and the queue is drained from here on
      obtain ⟨_, channel, _, -, hret, -⟩ := Traced.bind_yields.mp hstep
      obtain ⟨-, rfl⟩ := (Traced.pure_yields ..).mp hret
      exact .inr (.inr (.inl ⟨quit, rfl, rfl, rfl⟩))
  | onQueue quit =>
      simp only [hpc] at hstep
      -- the drain has returned, or the loop stays in it
      obtain ⟨_, channel, _, -, hret, -⟩ := Traced.bind_yields.mp hstep
      obtain ⟨-, rfl⟩ := (Traced.pure_yields ..).mp hret
      refine .inr (.inr (.inr (.inl ⟨quit, rfl, rfl, rfl, ?_⟩)))
      by_cases hreturned : channel.drain = .returned
      · exact .inr ⟨hreturned, if_pos hreturned⟩
      · exact .inl (if_neg hreturned)

/-- A `write` does not lower a counter. -/
theorem le_efdWrite (counter : Nat) : counter ≤ (efdWrite counter).1 := by
  unfold efdWrite
  split
  · exact Nat.le_refl _
  · exact Nat.le_succ _

/-- What the other steps do to the counters and to the place of the loop. -/
theorem other_cases (hnext : action ≠ .next) (hpossible : loop.Possible action)
    (hstep : (loop.step action).Yields es loop') :
    loop.queCount ≤ loop'.queCount ∧ loop.intrCount ≤ loop'.intrCount ∧
    (loop'.pc = loop.pc ∨ Idle loop.pc ∧ (Idle loop'.pc ∨
      ∃ channels, action = .wait (.events channels) ∧
        loop'.pc = .handle channels false false)) := by
  cases action with
  | enqueue thread item =>
      obtain ⟨_, channel, _, -, hret, -⟩ := Traced.bind_yields.mp hstep
      -- the queue changes, the counters and the place do not
      obtain ⟨-, rfl⟩ := (Traced.pure_yields ..).mp hret
      exact ⟨Nat.le_refl _, Nat.le_refl _, .inl rfl⟩
  | onWrite thread =>
      obtain ⟨-, rfl⟩ := (Traced.pure_yields ..).mp hstep
      exact ⟨le_efdWrite _, Nat.le_refl _, .inl rfl⟩
  | removeWork item =>
      obtain ⟨_, channel, _, -, hret, -⟩ := Traced.bind_yields.mp hstep
      obtain ⟨-, rfl⟩ := (Traced.pure_yields ..).mp hret
      exact ⟨Nat.le_refl _, Nat.le_refl _, .inl rfl⟩
  | quit =>
      obtain ⟨-, rfl⟩ := (Traced.pure_yields ..).mp hstep
      exact ⟨Nat.le_refl _, le_efdWrite _, .inl rfl⟩
  | loop =>
      obtain ⟨-, rfl⟩ := (Traced.pure_yields ..).mp hstep
      exact ⟨Nat.le_refl _, Nat.le_refl _, .inr ⟨.inr hpossible, .inl (.inl rfl)⟩⟩
  | next => exact absurd rfl hnext
  | wait result =>
      cases result with
      | events channels =>
          obtain ⟨-, rfl⟩ := (Traced.pure_yields ..).mp hstep
          exact ⟨Nat.le_refl _, Nat.le_refl _,
            .inr ⟨.inl hpossible.1, .inr ⟨channels, rfl, rfl⟩⟩⟩
      | error errno =>
          obtain ⟨-, rfl⟩ := (Traced.pure_yields ..).mp hstep
          -- an interrupted `epoll_wait` is tried again, and any other error ends the loop
          refine ⟨Nat.le_refl _, Nat.le_refl _, .inr ⟨.inl hpossible, .inl ?_⟩⟩
          by_cases hintr : errno = EINTR
          · exact .inl (if_pos hintr)
          · exact .inr ⟨S_FALSE, if_neg hintr⟩

/-- Only a drain lowers the counter of the queue channel. -/
theorem queCount_le (hpossible : loop.Possible action)
    (hstep : (loop.step action).Yields es loop') (hnot : ¬ Draining loop') :
    loop.queCount ≤ loop'.queCount := by
  by_cases hnext : action = .next
  · subst hnext
    rcases next_cases hstep with ⟨-, hcount, -⟩ | ⟨_, _, _, -, hcount, -⟩ | ⟨quit, -, hpc, -⟩ |
      ⟨_, -, hcount, -⟩ | ⟨-, -, hcount⟩
    · exact Nat.le_of_eq hcount.symm
    · exact Nat.le_of_eq hcount.symm
    · exact absurd ⟨quit, hpc⟩ hnot
    · exact Nat.le_of_eq hcount.symm
    · exact Nat.le_of_eq hcount.symm
  · exact (other_cases hnext hpossible hstep).1

/-- A drain ends with nothing that waits. -/
theorem waiting_of_drained (h : Waked loop) (hpossible : loop.Possible action)
    (hstep : (loop.step action).Yields es loop') (hdraining : Draining loop)
    (hnot : ¬ Draining loop') : waiting loop'.pQueCh_ = [] := by
  obtain ⟨quit, hpc⟩ := hdraining
  by_cases hnext : action = .next
  · subst hnext
    have hcall := h.calls.mpr ⟨quit, hpc⟩
    have hreturned : loop'.pQueCh_.drain = .returned := by
      by_contra hcall'
      exact hnot ((h.step hpossible hstep).calls.mp hcall')
    simp only [EventLoop.step, EventLoop.next, hpc] at hstep
    obtain ⟨_, channel, _, hchannel, hret, -⟩ := Traced.bind_yields.mp hstep
    obtain ⟨-, rfl⟩ := (Traced.pure_yields ..).mp hret
    rw [waiting, next_returned hcall hchannel hreturned, hreturned]
    rfl
  · -- no other step moves the loop while it drains
    rcases (other_cases hnext hpossible hstep).2.2 with hsame | ⟨hidle | ⟨ret, hret⟩, -⟩
    · exact absurd ⟨quit, hsame.trans hpc⟩ hnot
    · exact Pc.noConfusion (hpc.symm.trans hidle)
    · exact Pc.noConfusion (hpc.symm.trans hret)

/-- The first half of `addWork` puts the item into the queue. -/
theorem waits_of_enqueue {thread : Tid}
    (hstep : (loop.step (.enqueue thread item)).Yields es loop') :
    item ∈ waiting loop'.pQueCh_ := by
  obtain ⟨_, channel, _, hchannel, hret, -⟩ := Traced.bind_yields.mp hstep
  obtain ⟨-, rfl⟩ := (Traced.pure_yields ..).mp hret
  obtain ⟨_, hadd, -⟩ := (Traced.tell_bind_yields ..).mp hchannel
  obtain ⟨-, rfl⟩ := (Traced.pure_yields ..).mp hadd
  exact List.mem_append_right _ (List.mem_append_right _ (List.mem_singleton_self item))

/-- The first half of `addWork` leaves the loop where it is. -/
theorem enqueue_pc {thread : Tid} (hstep : (loop.step (.enqueue thread item)).Yields es loop') :
    loop'.pc = loop.pc := by
  obtain ⟨_, channel, _, -, hret, -⟩ := Traced.bind_yields.mp hstep
  obtain ⟨-, rfl⟩ := (Traced.pure_yields ..).mp hret
  rfl

/-- An item that is owed stays so, or is done. -/
theorem Owed.step (h : Owed item loop) (hwaked : Waked loop) (hpossible : loop.Possible action)
    (hstep : (loop.step action).Yields es loop') : Owed item loop' ∨ Done item es := by
  have hwaits : item ∈ waiting loop'.pQueCh_ ∨ Done item es := by
    rcases queue_step hwaked hstep with ⟨-, heq⟩ | ⟨act, hact, hchannel⟩
    · exact .inl (heq ▸ h.waits)
    · exact waiting_step hact hchannel h.waits
  refine hwaits.imp_left fun hmem => ⟨hmem, fun hnot => ?_⟩
  by_cases hdraining : Draining loop
  · rw [waiting_of_drained hwaked hpossible hstep hdraining hnot] at hmem
    exact absurd hmem List.not_mem_nil
  · exact Nat.lt_of_lt_of_le (h.told hdraining) (queCount_le hpossible hstep hnot)

/-- A batch that does not end the loop before a drain goes on so, while the item is owed. -/
theorem DrainsFirst.step (h : DrainsFirst loop.pc) (howed : Owed item loop)
    (howed' : Owed item loop') (hwaked : Waked loop) (hreports : ReportsAll loop action)
    (hstep : (loop.step action).Yields es loop') : DrainsFirst loop'.pc := by
  obtain ⟨hpossible, hreports⟩ := hreports
  by_cases hnext : action = .next
  · subst hnext
    rcases next_cases hstep with ⟨hpc, -⟩ | ⟨channels, quit, haswork, hpc, -, -, hpc'⟩ |
      ⟨quit, -, hpc', -⟩ | ⟨quit, hpc, -, -, hpc'⟩ | ⟨hpc, -⟩
    · exact hpc ▸ h
    · rw [hpc] at h
      rw [hpc']
      exact drainsFirst_afterHandle h
    · rw [hpc']
      trivial
    · rcases hpc' with hpc' | ⟨-, hpc'⟩
      · rw [hpc']
        trivial
      · -- the drain has ended, so the item does not wait
        have hnot : ¬ Draining loop' := by
          rintro ⟨q, hq⟩
          exact not_draining_afterWork quit ⟨q, hpc'.symm.trans hq⟩
        have hwaits := howed'.waits
        rw [waiting_of_drained hwaked hpossible hstep ⟨quit, hpc⟩ hnot] at hwaits
        exact absurd hwaits List.not_mem_nil
    · rw [hpc] at h
      exact absurd h id
  · rcases (other_cases hnext hpossible hstep).2.2 with hsame | ⟨hidle, hidle' | hbatch⟩
    · exact hsame ▸ h
    · rcases hidle' with hpc | ⟨ret, hpc⟩
      · rw [hpc]
        trivial
      · rw [hpc]
        trivial
    · obtain ⟨channels, hwait, hpc⟩ := hbatch
      -- the loop is not draining, so the queue channel is ready
      have hnot : ¬ Draining loop := by
        rintro ⟨q, hq⟩
        rcases hidle with hidle | ⟨ret, hidle⟩
        · exact Pc.noConfusion (hq.symm.trans hidle)
        · exact Pc.noConfusion (hq.symm.trans hidle)
      rw [hpc]
      exact fun _ => .inr ((hreports channels hwait).1 (howed.told hnot))

/-- A batch that ends the loop holds a unit of the interrupt channel. -/
def Pending (loop : EventLoop) : Prop := Quits loop.pc → 0 < loop.intrCount

theorem Pending.step (h : Pending loop) (hpossible : loop.Possible action)
    (hstep : (loop.step action).Yields es loop') : Pending loop' := by
  intro hquits
  by_cases hnext : action = .next
  · subst hnext
    rcases next_cases hstep with ⟨hpc, -, hcount, -⟩ |
      ⟨channels, quit, haswork, hpc, -, hcount, hpc'⟩ | ⟨quit, hpc, hpc', hcount⟩ |
      ⟨quit, hpc, -, hcount, hpc'⟩ | ⟨hpc, hpc', -⟩
    · rw [hcount]
      exact h (hpc ▸ hquits)
    · -- the batch ended the loop before as well
      rw [hcount]
      rw [hpc'] at hquits
      exact h (hpc ▸ quits_of_afterHandle hquits)
    · rw [hcount]
      rw [hpc'] at hquits
      exact h (hpc ▸ hquits)
    · rw [hcount]
      -- behind a drain the loop ends only if the batch said so
      rcases hpc' with hpc' | ⟨-, hpc'⟩
      · exact h (hpc ▸ hpc' ▸ hquits)
      · rw [hpc'] at hquits
        cases quit with
        | true => exact h (hpc ▸ (rfl : Quits (.onQueue true)))
        | false => exact absurd hquits id
    · rw [hpc'] at hquits
      exact absurd hquits id
  · obtain ⟨-, hcount, hpc⟩ := other_cases hnext hpossible hstep
    refine Nat.lt_of_lt_of_le ?_ hcount
    rcases hpc with hsame | ⟨-, hidle' | ⟨channels, hwait, hpc⟩⟩
    · exact h (hsame ▸ hquits)
    · rcases hidle' with hpc | ⟨ret, hpc⟩
      · rw [hpc] at hquits
        exact absurd hquits id
      · rw [hpc] at hquits
        exact absurd hquits id
    · -- a batch ends the loop only if `epoll_wait` has found the interrupt channel ready
      subst hwait
      rw [hpc] at hquits
      rcases hquits with hfalse | hmem
      · exact absurd hfalse Bool.false_ne_true
      · exact hpossible.2.2.2.2 _ hmem

end Steps

/-! ### Whole runs -/

section Runs
variable {loop loop' : EventLoop} {actions : List EventLoop.Action} {log : List WorkAct}
  {item : WorkItem}

/-- What every state of the loop keeps. -/
theorem waked_pending (hwaked : Waked loop) (hpending : Pending loop)
    (hrun : Traced.Run EventLoop.step ReportsAll loop actions log loop') :
    Waked loop' ∧ Pending loop' := by
  refine hrun.invariant (P := fun _ _ loop => Waked loop ∧ Pending loop) ⟨hwaked, hpending⟩ ?_
  rintro l log loop action es loop' ⟨hwaked, hpending⟩ hreports hstep
  exact ⟨hwaked.step hreports.1 hstep, hpending.step hreports.1 hstep⟩

theorem pending_init : Pending {} := fun hquits => absurd hquits id

/-- An item that waits while its thread is inside `addWork` is owed from the thread's return
on. -/
theorem owed_of_added {thread : Tid} (hwaked : Waked loop)
    (hwaits : item ∈ waiting loop.pQueCh_)
    (hrun : Traced.Run EventLoop.step ReportsAll loop actions log loop')
    (hreturned : .onWrite thread ∈ actions) : Done item log ∨ Owed item loop' := by
  have h : Waked loop' ∧ (Done item log ∨ item ∈ waiting loop'.pQueCh_ ∧
      (.onWrite thread ∈ actions → Owed item loop')) := by
    refine hrun.invariant (P := fun actions log loop => Waked loop ∧ (Done item log ∨
      item ∈ waiting loop.pQueCh_ ∧ (.onWrite thread ∈ actions → Owed item loop)))
      ⟨hwaked, .inr ⟨hwaits, fun hmem => absurd hmem List.not_mem_nil⟩⟩ ?_
    rintro l log loop action es loop' ⟨hwaked, hitem⟩ ⟨hpossible, -⟩ hstep
    refine ⟨hwaked.step hpossible hstep, ?_⟩
    rcases hitem with hdone | ⟨hwaits, howed⟩
    · exact .inl (hdone.append_left es)
    · have hwaits' : item ∈ waiting loop'.pQueCh_ ∨ Done item es := by
        rcases queue_step hwaked hstep with ⟨-, heq⟩ | ⟨act, hact, hchannel⟩
        · exact .inl (heq ▸ hwaits)
        · exact waiting_step hact hchannel hwaits
      rcases hwaits' with hwaits' | hdone
      · by_cases hmem : .onWrite thread ∈ l
        · rcases (howed hmem).step hwaked hpossible hstep with howed' | hdone
          · exact .inr ⟨hwaits', fun _ => howed'⟩
          · exact .inl (hdone.append_right log)
        · refine .inr ⟨hwaits', fun hmem' => ⟨hwaits', fun _ => ?_⟩⟩
          -- this step is the one in which the thread returns
          rcases List.mem_append.mp hmem' with hmem' | hmem'
          · exact absurd hmem' hmem
          · obtain rfl := List.mem_singleton.mp hmem'
            obtain ⟨-, rfl⟩ := (Traced.pure_yields ..).mp hstep
            show 0 < (efdWrite loop.queCount).1
            unfold efdWrite
            split
            · next hmax =>
              rw [hmax]
              decide
            · exact Nat.succ_pos _
      · exact .inl (hdone.append_right log)
  exact h.2.imp_right fun hitem => hitem.2 hreturned

/-- An item that is owed is done when the loop returns, unless the batch in hand ends the loop
before a drain. -/
theorem done_of_owed {loop'' : EventLoop} {es : List WorkAct} (hwaked : Waked loop)
    (howed : Owed item loop) (hfirst : DrainsFirst loop.pc)
    (hrun : Traced.Run EventLoop.step ReportsAll loop actions log loop')
    (hstep : (loop'.step .next).Yields es loop'') (hreturns : Returns loop' loop'') :
    Done item log := by
  -- the invariant of the run: the item is done, or owed with a drain ahead
  have h : Waked loop' ∧ (Done item log ∨ Owed item loop' ∧ DrainsFirst loop'.pc) := by
    refine hrun.invariant (P := fun _ log loop => Waked loop ∧
      (Done item log ∨ Owed item loop ∧ DrainsFirst loop.pc)) ⟨hwaked, .inr ⟨howed, hfirst⟩⟩ ?_
    rintro l log loop action es loop' ⟨hwaked, hitem⟩ hreports hstep
    refine ⟨hwaked.step hreports.1 hstep, ?_⟩
    rcases hitem with hdone | ⟨howed, hfirst⟩
    · exact .inl (hdone.append_left es)
    · rcases howed.step hwaked hreports.1 hstep with howed' | hdone
      · exact .inr ⟨howed', hfirst.step howed howed' hwaked hreports hstep⟩
      · exact .inl (hdone.append_right log)
  rcases h.2 with hdone | ⟨-, hfirst'⟩
  · exact hdone
  · -- the loop returns from the `read` of the interrupt channel only
    obtain ⟨hnot, hpc''⟩ := hreturns
    have hreadIntr : loop'.pc = .readIntr := by
      rcases next_cases hstep with ⟨hpc, -⟩ | ⟨channels, quit, haswork, -, -, -, hpc⟩ |
        ⟨quit, -, hpc, -⟩ | ⟨quit, -, -, -, hpc | ⟨-, hpc⟩⟩ | ⟨hpc, -⟩
      · exact absurd (hpc.symm.trans hpc'') (hnot _)
      · rw [hpc] at hpc''
        exact absurd hpc'' (afterHandle_ne_returned _ _ _ _)
      · exact Pc.noConfusion (hpc.symm.trans hpc'')
      · exact Pc.noConfusion (hpc.symm.trans hpc'')
      · cases quit with
        | true => exact Pc.noConfusion (hpc.symm.trans hpc'')
        | false => exact Pc.noConfusion (hpc.symm.trans hpc'')
      · exact hpc
    rw [hreadIntr] at hfirst'
    exact absurd hfirst' id

end Runs

/-- Work that was added before `quit` is done when `loop` returns, and so is the work that was
added while the queue was drained.

In the first part `thread` comes back from `addWork(item)`, then `quit` is called while no unit
of an earlier `quit` is left, and then `loop` returns. In the second part `addWork(item)` is
called during a drain, by the callback that runs or by another thread. -/
theorem work_before_quit :
    (∀ (first added rest : List EventLoop.Action) (log₀ log₁ log₂ es : List WorkAct)
      (loop₀ loop₁ loop₂ loop₃ : EventLoop) (thread : Tid) (item : WorkItem),
      Traced.Run EventLoop.step ReportsAll {} first log₀ loop₀ →
      Traced.Run EventLoop.step ReportsAll loop₀ (.enqueue thread item :: added) log₁ loop₁ →
      .onWrite thread ∈ added → loop₁.intrCount = 0 →
      Traced.Run EventLoop.step ReportsAll loop₁ (.quit :: rest) log₂ loop₂ →
      (loop₂.step .next).Yields es loop₃ → Returns loop₂ loop₃ → Done item (log₁ ++ log₂)) ∧
    (∀ (first rest : List EventLoop.Action) (log₀ log₁ es : List WorkAct)
      (loop₀ loop₁ loop₂ : EventLoop) (thread : Tid) (item : WorkItem),
      Traced.Run EventLoop.step ReportsAll {} first log₀ loop₀ → Draining loop₀ →
      Traced.Run EventLoop.step ReportsAll loop₀ (.enqueue thread item :: rest) log₁ loop₁ →
      (loop₁.step .next).Yields es loop₂ → Returns loop₁ loop₂ → Done item log₁) := by
  constructor
  · intro first added rest log₀ log₁ log₂ es loop₀ loop₁ loop₂ loop₃ thread item hfirst hadded
      hreturned hnone hquit hstep hreturns
    -- both invariants hold where the item is added, and where `addWork` has returned
    obtain ⟨hwaked₀, hpending₀⟩ := waked_pending waked_init pending_init hfirst
    obtain ⟨hwaked₁, hpending₁⟩ := waked_pending hwaked₀ hpending₀ hadded
    obtain ⟨es₁, loop, log, hpossible, henqueue, hrest, rfl⟩ := hadded.uncons
    have hwaked := hwaked₀.step hpossible.1 henqueue
    rcases owed_of_added hwaked (waits_of_enqueue henqueue) hrest hreturned with hdone | howed
    · exact (hdone.append_right es₁).append_left log₂
    · -- no unit of an earlier `quit` is left, so the batch in hand does not end the loop
      have hends : ¬ Quits loop₁.pc := fun hquits => by
        have hpos := hpending₁ hquits
        omega
      exact (done_of_owed hwaked₁ howed (drainsFirst_of_not_quits hends) hquit hstep
        hreturns).append_right _
  · intro first rest log₀ log₁ es loop₀ loop₁ loop₂ thread item hfirst hdraining hadded hstep
      hreturns
    obtain ⟨hwaked₀, -⟩ := waked_pending waked_init pending_init hfirst
    obtain ⟨es₁, loop, log, hpossible, henqueue, hrest, rfl⟩ := hadded.uncons
    have hwaked := hwaked₀.step hpossible.1 henqueue
    have hpc : loop.pc = loop₀.pc := enqueue_pc henqueue
    obtain ⟨quit, hquit⟩ := hdraining
    -- during a drain the item is owed from the moment it is in the queue
    have howed : Owed item loop :=
      ⟨waits_of_enqueue henqueue, fun hnot => absurd ⟨quit, hpc.trans hquit⟩ hnot⟩
    have hdrains : DrainsFirst loop.pc := by
      rw [hpc, hquit]
      trivial
    exact (done_of_owed hwaked howed hdrains hrest hstep hreturns).append_right es₁

/-- A step that is not a `wait` reports nothing. -/
theorem reportsAll_of_possible {loop : EventLoop} {action : EventLoop.Action}
    (hpossible : loop.Possible action) (hwait : ∀ channels, action ≠ .wait (.events channels)) :
    ReportsAll loop action :=
  ⟨hpossible, fun channels heq => absurd heq (hwait channels)⟩

/-- Item 7 is added, `quit` is called, and the batch holds the interrupt channel before the queue
channel. In the second run the callback of item 7 adds item 8. -/
theorem work_before_quit_two :
    (∃ log₁ log₂ : List WorkAct, Done 7 (log₁ ++ log₂)) ∧ ∃ log : List WorkAct, Done 8 log := by
  have hnext : ∀ {loop : EventLoop}, ReportsAll loop .next :=
    reportsAll_of_possible trivial fun _ => nofun
  have hboth : ∀ {loop : EventLoop}, loop.pc = .wait → 0 < loop.queCount → 0 < loop.intrCount →
      ReportsAll loop (.wait (.events [.pIntrCh_, .pQueCh_])) := by
    intro loop hpc hque hintr
    refine ⟨⟨hpc, by simp, by decide, by decide, fun channel hchannel => ?_⟩,
      fun channels heq => ?_⟩
    · rcases List.mem_cons.mp hchannel with rfl | hchannel
      · exact hintr
      · obtain rfl := List.mem_singleton.mp hchannel
        exact hque
    · obtain rfl := WaitResult.events.inj (EventLoop.Action.wait.inj heq)
      exact ⟨fun _ => by decide, fun _ => by decide⟩
  constructor
  · refine ⟨_, _, work_before_quit.1 [] [.onWrite 0] [.wait (.events [.pIntrCh_, .pQueCh_]), .next,
      .next, .next, .next, .next, .next, .next, .next, .next, .next] [] _ _ _ {} _ _ _ 0 7 .nil
      (.snoc (.snoc (l := []) .nil ?_ ⟨rfl, rfl⟩) ?_ ⟨rfl, rfl⟩) (by simp) rfl
      (.snoc (.snoc (.snoc (.snoc (.snoc (.snoc (.snoc (.snoc (.snoc (.snoc (.snoc (.snoc
        (l := []) .nil ?_ ⟨rfl, rfl⟩) (hboth rfl (by decide) (by decide)) ⟨rfl, rfl⟩)
        hnext ⟨rfl, rfl⟩) hnext ⟨rfl, rfl⟩) hnext ⟨rfl, rfl⟩) hnext ⟨rfl, rfl⟩)
        hnext ⟨rfl, rfl⟩) hnext ⟨rfl, rfl⟩)
        hnext ⟨rfl, rfl⟩) hnext ⟨rfl, rfl⟩) hnext ⟨rfl, rfl⟩) hnext ⟨rfl, rfl⟩)
      ⟨rfl, rfl⟩ ⟨fun ret => nofun, rfl⟩⟩
    · exact reportsAll_of_possible rfl fun _ => nofun
    · exact reportsAll_of_possible rfl fun _ => nofun
    · exact reportsAll_of_possible trivial fun _ => nofun
  · refine ⟨_, work_before_quit.2 [.enqueue 0 7, .onWrite 0, .quit,
      .wait (.events [.pIntrCh_, .pQueCh_]), .next, .next, .next, .next, .next, .next, .next]
      [.onWrite 0, .next, .next, .next, .next, .next, .next, .next, .next] _ _ _ _ _ _ 0 8
      (.snoc (.snoc (.snoc (.snoc (.snoc (.snoc (.snoc (.snoc (.snoc (.snoc (.snoc (l := []) .nil
        ?_ ⟨rfl, rfl⟩) ?_ ⟨rfl, rfl⟩) ?_ ⟨rfl, rfl⟩) (hboth rfl (by decide) (by decide))
        ⟨rfl, rfl⟩) hnext ⟨rfl, rfl⟩) hnext ⟨rfl, rfl⟩) hnext ⟨rfl, rfl⟩) hnext ⟨rfl, rfl⟩)
        hnext ⟨rfl, rfl⟩) hnext ⟨rfl, rfl⟩) hnext ⟨rfl, rfl⟩) ⟨true, rfl⟩
      (.snoc (.snoc (.snoc (.snoc (.snoc (.snoc (.snoc (.snoc (.snoc (.snoc (l := []) .nil
        ?_ ⟨rfl, rfl⟩) ?_ ⟨rfl, rfl⟩) hnext ⟨rfl, rfl⟩) hnext ⟨rfl, rfl⟩) hnext ⟨rfl, rfl⟩)
        hnext ⟨rfl, rfl⟩) hnext ⟨rfl, rfl⟩) hnext ⟨rfl, rfl⟩) hnext ⟨rfl, rfl⟩)
        hnext ⟨rfl, rfl⟩)
      ⟨rfl, rfl⟩ ⟨fun ret => nofun, rfl⟩⟩
    · exact reportsAll_of_possible rfl fun _ => nofun
    · exact reportsAll_of_possible rfl fun _ => nofun
    · exact reportsAll_of_possible trivial fun _ => nofun
    · exact reportsAll_of_possible rfl fun _ => nofun
    · exact reportsAll_of_possible rfl fun _ => nofun

end Ndsl.Proofs.EventLoop
