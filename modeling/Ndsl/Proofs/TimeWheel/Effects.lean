import Ndsl.Proofs.TimeWheel.NoneLost

/-!
# `Ndsl.Proofs.TimeWheel.Effects`: what one step does to the places of the tasks

One inversion lemma for the steps of `Ndsl.Net.Timer`. A step takes tasks off the wheel, adds one,
begins a tick, or works on the first task that the tick has in hand: a copy of its pointer goes into
a slot, or its turn ends, and it is put back or deleted. `step_effect` is the lemma, and the
invariants of the places are derived from it.
-/

set_option autoImplicit false

namespace Ndsl.Proofs.Timer

open Ndsl.Lib
open Ndsl.Net
open Ndsl.Net.TimeWheel
open Ndsl.Proofs.TimeWheel (addTask_cases removeTask_cases tasks_store)

/-- The step adds the task, or makes it. -/
def Adds (task : TaskId) : Timer.Action → Prop
  | .runAfter _ x => x = task
  | .runAfterNew _ x _ _ _ => x = task
  | _ => False

/-- A task that `addTask` accepts. -/
structure Valid (t : Task) : Prop where
  interval : 0 ≤ t.setInterval
  doit : t.doit ≠ none

/-- No task is called. -/
def Silent (es : List Timer.Event) : Prop := ∀ x func param, .wheel (.doit x func param) ∉ es

/-- The slots, and no more than what was in them. -/
def Shrinks (slot slot' : Fin SLOTNUM → List TaskId) : Prop := ∀ i, (slot' i).Sublist (slot i)

theorem Shrinks.refl (slot : Fin SLOTNUM → List TaskId) : Shrinks slot slot :=
  fun i => List.Sublist.refl (slot i)

/-- The task `x` is put behind the others in the slot `i`, and its object becomes `u`. -/
structure Puts (s s' : Timer) (x : TaskId) (i : Fin SLOTNUM) (u : Task) : Prop where
  slot : ∃ v, Shrinks s.wheel.slot v ∧ s'.wheel.slot = Function.update v i (v i ++ [x])
  tasks : s'.wheel.tasks = Function.update s.wheel.tasks x (some u)
  curTick : s'.wheel.curTick = s.wheel.curTick

section Puts
variable {s s' : Timer} {x : TaskId} {i j : Fin SLOTNUM} {u : Task}

/-- What stands in a slot behind the task was put there. -/
theorem Puts.mem (h : Puts s s' x i u) {y : TaskId} (hy : y ∈ s'.wheel.slot j) :
    y ∈ s.wheel.slot j ∨ y = x ∧ j = i := by
  obtain ⟨v, hv, hslot⟩ := h.slot
  rw [hslot] at hy
  by_cases hj : j = i
  · subst hj
    rw [Function.update_self] at hy
    rcases List.mem_append.mp hy with hy | hy
    · exact .inl ((hv j).subset hy)
    · exact .inr ⟨List.mem_singleton.mp hy, rfl⟩
  · rw [Function.update_of_ne hj] at hy
    exact .inl ((hv j).subset hy)

/-- The objects of the other tasks are what they were. -/
theorem Puts.tasks_of_ne (h : Puts s s' x i u) {y : TaskId} (hy : y ≠ x) :
    s'.wheel.tasks y = s.wheel.tasks y := by
  rw [h.tasks, Function.update_of_ne hy]

end Puts

/-- What one step can do. -/
inductive Effect (s : Timer) (action : Timer.Action) (es : List Timer.Event) (s' : Timer) : Prop
  /-- No task comes to the wheel. A task that is called is in hand. -/
  | shrinks (slot : Shrinks s.wheel.slot s'.wheel.slot) (hand : inHand s'.tick = inHand s.tick)
      (tasks : ∀ y, s'.wheel.tasks y = s.wheel.tasks y ∨ Adds y action)
      (curTick : s'.wheel.curTick = s.wheel.curTick)
      (calls : ∀ x func param, .wheel (.doit x func param) ∈ es → x ∈ inHand s.tick)
  /-- A task is added. -/
  | adds (x : TaskId) (i : Fin SLOTNUM) (u : Task) (puts : Puts s s' x i u)
      (hand : inHand s'.tick = inHand s.tick) (hadds : Adds x action) (valid : Valid u)
      (setTick : u.setTick = some i) (silent : Silent es)
  /-- A tick begins. -/
  | ticks (returned : inHand s.tick = [])
      (hand : inHand s'.tick = s.wheel.slot (nextTick s.wheel.curTick))
      (slot : s'.wheel.slot = Function.update s.wheel.slot (nextTick s.wheel.curTick) [])
      (tasks : s'.wheel.tasks = s.wheel.tasks)
      (curTick : s'.wheel.curTick = nextTick s.wheel.curTick) (silent : Silent es)
  /-- A task has run for the last time. -/
  | ends (x : TaskId) (hand : inHand s.tick = x :: inHand s'.tick)
      (slot : s'.wheel.slot = s.wheel.slot) (tasks : ∀ y, y ≠ x →
        s'.wheel.tasks y = s.wheel.tasks y)
      (curTick : s'.wheel.curTick = s.wheel.curTick) (silent : Silent es)
  /-- A task has calls to come. -/
  | putsBack (x : TaskId) (i : Fin SLOTNUM) (t u : Task) (puts : Puts s s' x i u)
      (hand : inHand s.tick = x :: inHand s'.tick) (obj : s.wheel.tasks x = some t)
      (same : u.setInterval = t.setInterval ∧ u.doit = t.doit) (setTick : u.setTick = some i)
      (silent : Silent es)
  /-- A task has more than a round to go. It stays in hand, beside the copy in the slot. -/
  | copies (x : TaskId) (curSlot : List TaskId) (t u : Task) (next : action = .next)
      (tick : s.tick = .slot (x :: curSlot)) (obj : s.wheel.tasks x = some t)
      (round : t.restInterval > SLOTNUM) (puts : Puts s s' x s.wheel.curTick u)
      (hand : inHand s'.tick = inHand s.tick) (silent : Silent es)

section Effect
variable {s s' : Timer} {es : List Timer.Event} {sys : Syscalls}

theorem silent_nil : Silent [] := fun _ _ _ hmem => absurd hmem List.not_mem_nil

/-- `start` clears the slots, or leaves them. -/
theorem start_shrinks (s : Timer) (hpositive : sys.Positive) :
    Shrinks s.wheel.slot (s.start sys).2.wheel.slot ∧ (s.start sys).2.tick = s.tick ∧
      (s.start sys).2.wheel.tasks = s.wheel.tasks ∧
      (s.start sys).2.wheel.curTick = s.wheel.curTick := by
  have hnil : Shrinks s.wheel.slot fun _ => [] := fun i => List.nil_sublist _
  obtain ⟨create, settime, epoll⟩ := sys
  cases create with
  | some errno =>
      rw [start_of_create hpositive rfl]
      exact ⟨.refl _, rfl, rfl, rfl⟩
  | none =>
      cases settime with
      | some errno => exact ⟨hnil, rfl, rfl, rfl⟩
      | none =>
          cases epoll with
          | some errno => exact ⟨hnil, rfl, rfl, rfl⟩
          | none => exact ⟨hnil, rfl, rfl, rfl⟩

theorem ensureStarted_shrinks (s : Timer) (hpositive : sys.Positive) :
    Shrinks s.wheel.slot (s.ensureStarted sys).2.wheel.slot ∧
      (s.ensureStarted sys).2.tick = s.tick ∧
      (s.ensureStarted sys).2.wheel.tasks = s.wheel.tasks ∧
      (s.ensureStarted sys).2.wheel.curTick = s.wheel.curTick := by
  unfold Timer.ensureStarted
  split
  · exact ⟨.refl _, rfl, rfl, rfl⟩
  · exact start_shrinks s hpositive

/-- Both overloads of `runAfter`, behind `start` and the object that the second one makes. -/
theorem addTask_effect {action : Timer.Action} {x : TaskId} {w w' : Wheel}
    {fs : List TimeWheel.Event} {r : Int} (hadds : Adds x action)
    (hshrinks : Shrinks s.wheel.slot w.slot)
    (htasks : ∀ y, y ≠ x → w.tasks y = s.wheel.tasks y)
    (hcurTick : w.curTick = s.wheel.curTick) (h : (addTask w x).Yields fs (w', r))
    (hslot' : s'.wheel = w') (hhand : inHand s'.tick = inHand s.tick)
    (hsilent : Silent (fs.map .wheel) → Silent es) : Effect s action es s' := by
  subst hslot'
  rcases addTask_cases h with ⟨rfl, hsame, -⟩ | ⟨t, i, ht, hinterval, hdoit, -, rfl, -, hsame⟩
  · refine .shrinks ?_ hhand (fun y => ?_) ?_ fun y func param hmem => ?_
    · rw [hsame]
      exact hshrinks
    · by_cases hy : y = x
      · exact .inr (hy ▸ hadds)
      · exact .inl (by rw [hsame, htasks y hy])
    · rw [hsame, hcurTick]
    · exact absurd hmem (hsilent silent_nil y func param)
  · refine .adds x i { t with setTick := some i, restInterval := t.setInterval } ⟨⟨w.slot, hshrinks,
      ?_⟩, ?_, ?_⟩ hhand hadds ⟨hinterval, hdoit⟩ rfl (hsilent fun y func param hmem => ?_)
    · rw [hsame]
      rfl
    · rw [hsame]
      show Function.update w.tasks x _ = _
      funext y
      by_cases hy : y = x
      · rw [hy, Function.update_self, Function.update_self]
      · rw [Function.update_of_ne hy, Function.update_of_ne hy, htasks y hy]
    · rw [hsame]
      exact hcurTick
    · simp at hmem

/-- A step that performs nothing and moves nothing. -/
theorem effect_of_wheel_eq {action : Timer.Action} (hwheel : s'.wheel = s.wheel)
    (hhand : inHand s'.tick = inHand s.tick) (hsilent : Silent es) : Effect s action es s' :=
  .shrinks (hwheel ▸ .refl _) hhand (fun y => .inl (by rw [hwheel])) (by rw [hwheel])
    fun x func param hmem => absurd hmem (hsilent x func param)

/-- `runAfter` of a task. -/
theorem runAfter_effect {x : TaskId} (hpositive : sys.Positive)
    (hstep : (s.step (.runAfter sys x)).Yields es s') : Effect s (.runAfter sys x) es s' := by
  obtain ⟨hshrinks, htick, htasks, hcurTick⟩ := ensureStarted_shrinks s hpositive
  obtain ⟨-, rfl, rfl⟩ | ⟨-, fs, w, ret, hadd, rfl, rfl⟩ := runAfter_cases hstep
  · -- the wheel could not be started
    exact .shrinks hshrinks (by rw [htick]) (fun y => .inl (by rw [htasks])) hcurTick
      fun y func param hmem => absurd hmem List.not_mem_nil
  · refine addTask_effect rfl hshrinks (fun y _ => by rw [htasks]) hcurTick hadd rfl
      (by rw [htick]) fun hfs y func param hmem => ?_
    rcases List.mem_append.mp hmem with hmem | hmem
    · exact hfs y func param hmem
    · split at hmem
      · simp at hmem
      · simp at hmem

/-- `runAfter` of a new task. -/
theorem runAfterNew_effect {x : TaskId} {ns : Int} {func : Option Nat} {param : Nat}
    (hpositive : sys.Positive)
    (hstep : (s.step (.runAfterNew sys x ns func param)).Yields es s') :
    Effect s (.runAfterNew sys x ns func param) es s' := by
  obtain ⟨hshrinks, htick, htasks, hcurTick⟩ := ensureStarted_shrinks s hpositive
  obtain ⟨-, rfl, rfl⟩ | ⟨-, fs, w, ret, hadd, rfl, rfl⟩ := runAfterNew_cases hstep
  · exact .shrinks hshrinks (by rw [htick]) (fun y => .inl (by rw [htasks])) hcurTick
      fun y func param hmem => absurd hmem List.not_mem_nil
  · refine addTask_effect (w := (s.ensureStarted sys).2.wheel.store x _) rfl hshrinks
      (fun y hy => ?_) hcurTick hadd rfl (by rw [htick]) fun hfs y func param hmem => ?_
    · rw [tasks_store, Function.update_of_ne hy, htasks]
    · rcases List.mem_cons.mp hmem with hmem | hmem
      · simp at hmem
      rcases List.mem_append.mp hmem with hmem | hmem
      · exact hfs y func param hmem
      · split at hmem
        · simp at hmem
        · simp at hmem

/-- `cancelRunAfter`. -/
theorem cancelRunAfter_effect {x : TaskId}
    (hstep : (s.step (.cancelRunAfter x)).Yields es s') : Effect s (.cancelRunAfter x) es s' := by
  obtain ⟨fs, w, ret, hremove, rfl, rfl⟩ := cancelRunAfter_cases hstep
  rcases removeTask_cases hremove with ⟨rfl, rfl, -⟩ | ⟨t, i, -, -, -, rfl, -, rfl⟩
  · exact effect_of_wheel_eq rfl rfl silent_nil
  · refine .shrinks (fun j => ?_) rfl (fun y => .inl rfl) rfl fun y func param hmem => ?_
    · show (Function.update s.wheel.slot i _ j).Sublist (s.wheel.slot j)
      by_cases hj : j = i
      · rw [hj, Function.update_self]
        exact List.erase_sublist
      · simp [Function.update_of_ne hj]
    · simp at hmem

/-- `stop`. -/
theorem stop_effect {timerfd_settime : Option Int}
    (hstep : (s.step (.stop timerfd_settime)).Yields es s') :
    Effect s (.stop timerfd_settime) es s' := by
  obtain ⟨rfl, rfl | ⟨channel, rfl⟩⟩ := stop_cases hstep
  · exact effect_of_wheel_eq rfl rfl silent_nil
  · exact effect_of_wheel_eq rfl rfl silent_nil

/-- A tick begins, or its `read` fails. -/
theorem onTick_effect {ret : ReadResult} (hreturned : s.tick = .returned)
    (hstep : (s.step (.onTick ret)).Yields es s') : Effect s (.onTick ret) es s' := by
  have hhand : inHand s.tick = [] := by rw [hreturned]; rfl
  obtain ⟨rfl, rfl⟩ | ⟨rfl, hempty, rfl⟩ | ⟨rfl, rfl⟩ := onTick_cases hstep
  · exact effect_of_wheel_eq rfl rfl silent_nil
  · refine .ticks hhand ?_ ?_ rfl rfl fun y func param hmem => by simp at hmem
    · rw [hhand]
      exact hempty.symm
    · exact (Function.update_eq_self_iff.mpr hempty.symm).symm
  · exact .ticks hhand rfl rfl rfl rfl fun y func param hmem => by simp at hmem

/-- A turn of the loop at the first task that the tick has in hand. -/
theorem turn_effect {x : TaskId} {curSlot : List TaskId} (htick : s.tick = .slot (x :: curSlot))
    (hstep : (s.step .next).Yields es s') : Effect s .next es s' := by
  have hhand : inHand s.tick = x :: curSlot := by rw [htick]; rfl
  obtain ⟨t, hobj, ⟨hround, rfl, rfl⟩ | ⟨-, func, -, rfl, rfl⟩⟩ := turn_cases htick hstep
  · exact .copies x curSlot t { t with restInterval := t.restInterval - SLOTNUM } rfl htick hobj
      hround ⟨⟨s.wheel.slot, .refl _, rfl⟩, rfl, rfl⟩ rfl silent_nil
  · refine .shrinks (.refl _) hhand.symm (fun y => .inl rfl) rfl fun y func param hmem => ?_
    simp at hmem
    rw [hhand, hmem.1]
    exact List.mem_cons_self

/-- The callback of a task has returned. -/
theorem callbackReturned_effect {x : TaskId} {curSlot : List TaskId}
    (htick : s.tick = .running x curSlot) (hstep : (s.step .next).Yields es s') :
    Effect s .next es s' := by
  have hhand : inHand s.tick = x :: curSlot := by rw [htick]; rfl
  obtain ⟨t, hobj, ⟨-, rfl, rfl⟩ | ⟨-, rfl, i, -, -, rfl⟩⟩ := callbackReturned_cases htick hstep
  · refine .ends x hhand rfl (fun y hy => ?_) rfl fun y func param hmem => by simp at hmem
    exact Function.update_of_ne hy ..
  · exact .putsBack x i t _ ⟨⟨s.wheel.slot, .refl _, rfl⟩, rfl, rfl⟩ hhand hobj ⟨rfl, rfl⟩
      rfl silent_nil

/-- What one step can do. -/
theorem step_effect {action : Timer.Action} (hpossible : s.Possible action)
    (hstep : (s.step action).Yields es s') : Effect s action es s' := by
  cases action with
  | runAfter sys x => exact runAfter_effect hpossible.2 hstep
  | runAfterNew sys x ns func param => exact runAfterNew_effect hpossible.2.1 hstep
  | cancelRunAfter x => exact cancelRunAfter_effect hstep
  | stop timerfd_settime => exact stop_effect hstep
  | onTick ret => exact onTick_effect hpossible hstep
  | start sys =>
      obtain ⟨hshrinks, htick, htasks, hcurTick⟩ := start_shrinks s hpossible.2
      obtain ⟨rfl, rfl⟩ := (Traced.pure_yields ..).mp hstep
      exact .shrinks hshrinks (by rw [htick]) (fun y => .inl (by rw [htasks])) hcurTick
        fun y func param hmem => absurd hmem List.not_mem_nil
  | next =>
      obtain htick | ⟨x, curSlot, htick⟩ | ⟨x, curSlot, htick⟩ := tick_cases s
      · obtain ⟨rfl, rfl⟩ := idle_cases htick hstep
        refine effect_of_wheel_eq rfl ?_ silent_nil
        rcases htick with htick | htick
        · rw [htick]
        · rw [htick]
          rfl
      · exact turn_effect htick hstep
      · exact callbackReturned_effect htick hstep

end Effect

end Ndsl.Proofs.Timer
