import Ndsl.Net.Timer
import Ndsl.Proofs.TimeWheel.Cases

/-!
# `Ndsl.Proofs.TimeWheel.Moves`: what one step of the timer can do

One inversion lemma for each step of `Ndsl.Net.Timer`, as `Ndsl.Proofs.TimeWheel.Cases` has them
for the functions of the wheel. Each lists what the step can leave behind and the trace that goes
with it. The invariants of the timer are derived from these lemmas.
-/

set_option autoImplicit false

namespace Ndsl.Proofs.Timer

open Ndsl.Lib
open Ndsl.Net
open Ndsl.Net.TimeWheel
open Ndsl.Proofs.TimeWheel (deref_yields slotAfter_yields timesAfter)

variable {s s' : Timer} {es : List Timer.Event} {x : TaskId} {curSlot : List TaskId}

/-- What the wheel does is what the timer does. -/
theorem onWheel_yields {α : Type} {y : Traced TimeWheel.Event α} {a : α} :
    (Timer.onWheel y).Yields es a ↔ ∃ fs, y.Yields fs a ∧ es = fs.map .wheel := by
  have hmap : ∀ fs : List TimeWheel.Event,
      fs.flatMap (fun e => [Timer.Event.wheel e]) = fs.map .wheel := fun fs =>
    List.map_eq_flatMap.symm
  rw [Timer.onWheel, Traced.view_yields]
  constructor
  · rintro ⟨fs, a, hy, rfl, rfl⟩
    exact ⟨fs, hy, hmap fs⟩
  · rintro ⟨fs, hy, rfl⟩
    exact ⟨fs, a, hy, (hmap fs).symm, rfl⟩

/-- `runAfter` gives up where `start` returns a negative number. Otherwise it adds the task. -/
theorem runAfter_cases {sys : Syscalls} (hstep : (s.step (.runAfter sys x)).Yields es s') :
    ((s.ensureStarted sys).1 < 0 ∧ es = [] ∧ s' = (s.ensureStarted sys).2) ∨
    (¬ (s.ensureStarted sys).1 < 0 ∧ ∃ fs wheel ret,
      (addTask (s.ensureStarted sys).2.wheel x).Yields fs (wheel, ret) ∧
      s' = { (s.ensureStarted sys).2 with wheel := wheel } ∧
      es = fs.map .wheel ++
        if ret = S_OK then [.runAfter x (s.ensureStarted sys).2.works] else []) := by
  obtain ⟨es, ⟨r, u⟩, _, hrun, hpure, rfl⟩ := Traced.bind_yields.mp hstep
  obtain ⟨rfl, rfl⟩ := (Traced.pure_yields ..).mp hpure
  rw [List.append_nil]
  unfold Timer.runAfter at hrun
  dsimp only at hrun
  split at hrun
  · next hfails =>
    obtain ⟨rfl, heq⟩ := (Traced.pure_yields ..).mp hrun
    obtain ⟨-, rfl⟩ := Prod.mk.inj heq
    exact .inl ⟨hfails, rfl, rfl⟩
  · next hstarts =>
    obtain ⟨es₁, ⟨wheel, ret⟩, es₂, hcall, hrest, rfl⟩ := Traced.bind_yields.mp hrun
    obtain ⟨fs, hadd, rfl⟩ := onWheel_yields.mp hcall
    refine .inr ⟨hstarts, fs, wheel, ret, hadd, ?_⟩
    split at hrest
    · next hok =>
      obtain ⟨_, hret, rfl⟩ := (Traced.tell_bind_yields ..).mp hrest
      obtain ⟨rfl, heq⟩ := (Traced.pure_yields ..).mp hret
      exact ⟨(Prod.mk.inj heq).2.symm, by rw [List.append_nil, if_pos hok]⟩
    · next hrefused =>
      obtain ⟨rfl, heq⟩ := (Traced.pure_yields ..).mp hrest
      exact ⟨(Prod.mk.inj heq).2.symm, by rw [if_neg hrefused]⟩

/-- `runAfter` of a new task makes the object before it adds the task, whatever `addTask` says. -/
theorem runAfterNew_cases {sys : Syscalls} {ns : Int} {func : Option Nat} {param : Nat}
    (hstep : (s.step (.runAfterNew sys x ns func param)).Yields es s') :
    ((s.ensureStarted sys).1 < 0 ∧ es = [] ∧ s' = (s.ensureStarted sys).2) ∨
    (¬ (s.ensureStarted sys).1 < 0 ∧ ∃ fs wheel ret,
      (addTask ((s.ensureStarted sys).2.wheel.store x
        { setInterval := ns, doit := func, param := param }) x).Yields fs (wheel, ret) ∧
      s' = { (s.ensureStarted sys).2 with wheel := wheel } ∧
      es = .new x :: (fs.map .wheel ++
        if ret < 0 then [] else [.runAfter x (s.ensureStarted sys).2.works])) := by
  obtain ⟨es, ⟨r, u⟩, _, hrun, hpure, rfl⟩ := Traced.bind_yields.mp hstep
  obtain ⟨rfl, rfl⟩ := (Traced.pure_yields ..).mp hpure
  rw [List.append_nil]
  unfold Timer.runAfterNew at hrun
  dsimp only at hrun
  split at hrun
  · next hfails =>
    obtain ⟨rfl, heq⟩ := (Traced.pure_yields ..).mp hrun
    obtain ⟨-, rfl⟩ := Prod.mk.inj heq
    exact .inl ⟨hfails, rfl, rfl⟩
  · next hstarts =>
    obtain ⟨_, hnew, rfl⟩ := (Traced.tell_bind_yields ..).mp hrun
    obtain ⟨es₁, ⟨wheel, ret⟩, es₂, hcall, hrest, rfl⟩ := Traced.bind_yields.mp hnew
    obtain ⟨fs, hadd, rfl⟩ := onWheel_yields.mp hcall
    refine .inr ⟨hstarts, fs, wheel, ret, hadd, ?_⟩
    split at hrest
    · next hrefused =>
      obtain ⟨rfl, heq⟩ := (Traced.pure_yields ..).mp hrest
      exact ⟨(Prod.mk.inj heq).2.symm, by rw [if_pos hrefused]; rfl⟩
    · next hok =>
      obtain ⟨_, hret, rfl⟩ := (Traced.tell_bind_yields ..).mp hrest
      obtain ⟨rfl, heq⟩ := (Traced.pure_yields ..).mp hret
      exact ⟨(Prod.mk.inj heq).2.symm, by rw [List.append_nil, if_neg hok]; rfl⟩

/-- `cancelRunAfter` removes the task. -/
theorem cancelRunAfter_cases (hstep : (s.step (.cancelRunAfter x)).Yields es s') :
    ∃ fs wheel ret, (removeTask s.wheel x).Yields fs (wheel, ret) ∧ es = fs.map .wheel ∧
      s' = { s with wheel := wheel } := by
  obtain ⟨es, ⟨r, u⟩, _, hrun, hpure, rfl⟩ := Traced.bind_yields.mp hstep
  obtain ⟨rfl, rfl⟩ := (Traced.pure_yields ..).mp hpure
  obtain ⟨es₁, ⟨wheel, ret⟩, es₂, hcall, hrest, rfl⟩ := Traced.bind_yields.mp hrun
  obtain ⟨rfl, heq⟩ := (Traced.pure_yields ..).mp hrest
  obtain ⟨fs, hremove, rfl⟩ := onWheel_yields.mp hcall
  refine ⟨fs, wheel, ret, hremove, ?_, (Prod.mk.inj heq).2.symm⟩
  rw [List.append_nil, List.append_nil]

/-- `stop` does nothing, or the timer of the channel is off and the wheel does not work. -/
theorem stop_cases {timerfd_settime : Option Int}
    (hstep : (s.step (.stop timerfd_settime)).Yields es s') :
    es = [] ∧ (s' = s ∨ ∃ channel,
      s' = { s with ptimerfdChannel_ := some channel, isWorking_ := false }) := by
  obtain ⟨es, ⟨r, u⟩, _, hrun, hpure, rfl⟩ := Traced.bind_yields.mp hstep
  obtain ⟨rfl, rfl⟩ := (Traced.pure_yields ..).mp hpure
  rw [List.append_nil]
  unfold Timer.stop at hrun
  cases hchannel : s.ptimerfdChannel_ with
  | none =>
      rw [hchannel] at hrun
      exact absurd hrun (Traced.fault_yields _ _)
  | some channel =>
      simp only [hchannel] at hrun
      cases timerfd_settime with
      | some errno =>
          obtain ⟨rfl, heq⟩ := (Traced.pure_yields ..).mp hrun
          exact ⟨rfl, .inl (Prod.mk.inj heq).2.symm⟩
      | none =>
          obtain ⟨rfl, heq⟩ := (Traced.pure_yields ..).mp hrun
          exact ⟨rfl, .inr ⟨_, (Prod.mk.inj heq).2.symm⟩⟩

/-- A tick that can read its timer advances `curTick_`, and takes the tasks of the slot in hand, if
there are any. -/
theorem onTick_cases {ret : ReadResult} (hstep : (s.step (.onTick ret)).Yields es s') :
    (es = [] ∧ s' = s) ∨
    (es = [.wheel .tick] ∧ s.wheel.slot (nextTick s.wheel.curTick) = [] ∧
      s' = { s with wheel := { s.wheel with curTick := nextTick s.wheel.curTick } }) ∨
    (es = [.wheel .tick] ∧ s' = { s with
      wheel := { s.wheel with
        curTick := nextTick s.wheel.curTick
        slot := Function.update s.wheel.slot (nextTick s.wheel.curTick) [] }
      tick := .slot (s.wheel.slot (nextTick s.wheel.curTick)) }) := by
  cases ret with
  | error errno =>
      obtain ⟨rfl, rfl⟩ := (Traced.pure_yields ..).mp hstep
      exact .inl ⟨rfl, rfl⟩
  | expirations exp =>
      obtain ⟨_, hrest, rfl⟩ := (Traced.tell_bind_yields ..).mp hstep
      refine .inr ?_
      split at hrest
      · next hempty =>
        obtain ⟨rfl, rfl⟩ := (Traced.pure_yields ..).mp hrest
        exact .inl ⟨rfl, hempty, rfl⟩
      · obtain ⟨rfl, rfl⟩ := (Traced.pure_yields ..).mp hrest
        exact .inr ⟨rfl, rfl⟩

/-- A turn of the loop at the first task in hand. One with more than a round to go stays in hand,
and a copy of its pointer goes into the current slot. Another one is called. -/
theorem turn_cases (htick : s.tick = .slot (x :: curSlot))
    (hstep : (s.step .next).Yields es s') :
    ∃ t, s.wheel.tasks x = some t ∧
      ((t.restInterval > SLOTNUM ∧ es = [] ∧ s' = { s with
        wheel := (s.wheel.store x { t with
          restInterval := t.restInterval - SLOTNUM }).pushBack s.wheel.curTick x }) ∨
      (¬ t.restInterval > SLOTNUM ∧ ∃ func, t.doit = some func ∧
        es = [.wheel (.doit x func t.param)] ∧ s' = { s with tick := .running x curSlot })) := by
  simp only [Timer.step, Timer.next, htick] at hstep
  obtain ⟨_, t, _, hread, hrest, rfl⟩ := Traced.bind_yields.mp hstep
  obtain ⟨_, hderef, rfl⟩ := onWheel_yields.mp hread
  obtain ⟨rfl, hobj⟩ := (deref_yields ..).mp hderef
  refine ⟨t, hobj, ?_⟩
  split at hrest
  · next hround =>
    obtain ⟨rfl, rfl⟩ := (Traced.pure_yields ..).mp hrest
    exact .inl ⟨hround, rfl, by rw [htick]; rfl⟩
  · next hround =>
    split at hrest
    · exact absurd hrest (Traced.fault_yields _ _)
    · next func hfunc =>
      obtain ⟨_, hret, rfl⟩ := (Traced.tell_bind_yields ..).mp hrest
      obtain ⟨rfl, rfl⟩ := (Traced.pure_yields ..).mp hret
      exact .inr ⟨hround, func, hfunc, rfl, rfl⟩

/-- The callback of a task has returned: the task is deleted, or put back. -/
theorem callbackReturned_cases (htick : s.tick = .running x curSlot)
    (hstep : (s.step .next).Yields es s') :
    ∃ t, s.wheel.tasks x = some t ∧
      ((timesAfter t.times = 0 ∧ es = [.delete x] ∧
        s' = { s with wheel := s.wheel.free x, tick := .slot curSlot }) ∨
      (timesAfter t.times ≠ 0 ∧ es = [] ∧ ∃ i : Fin SLOTNUM,
        0 ≤ (s.wheel.curTick : Int) + t.setInterval ∧
        i.val = ((s.wheel.curTick : Int) + t.setInterval).toNat % SLOTNUM ∧ s' = { s with
          wheel := (s.wheel.store x { t with
            times := timesAfter t.times
            setTick := some i
            restInterval := t.setInterval }).pushBack i x
          tick := .slot curSlot })) := by
  simp only [Timer.step, Timer.next, htick] at hstep
  obtain ⟨_, t, _, hread, hrest, rfl⟩ := Traced.bind_yields.mp hstep
  obtain ⟨_, hderef, rfl⟩ := onWheel_yields.mp hread
  obtain ⟨rfl, hobj⟩ := (deref_yields ..).mp hderef
  have htimes : (if t.times > 0 then t.times - 1 else t.times) = timesAfter t.times := rfl
  simp only [htimes] at hrest
  refine ⟨t, hobj, ?_⟩
  split at hrest
  · next hzero =>
    -- it was the last time
    obtain ⟨_, hret, rfl⟩ := (Traced.tell_bind_yields ..).mp hrest
    obtain ⟨rfl, rfl⟩ := (Traced.pure_yields ..).mp hret
    exact .inl ⟨hzero, rfl, rfl⟩
  · next hmore =>
    -- the task goes to the slot of its next time
    obtain ⟨_, i, _, hcall, hret, rfl⟩ := Traced.bind_yields.mp hrest
    obtain ⟨_, hslot, rfl⟩ := onWheel_yields.mp hcall
    obtain ⟨rfl, hsum, hi⟩ := slotAfter_yields hslot
    obtain ⟨rfl, rfl⟩ := (Traced.pure_yields ..).mp hret
    exact .inr ⟨hmore, rfl, i, hsum, hi, rfl⟩

/-- Where a tick can stand. -/
theorem tick_cases (s : Timer) :
    (s.tick = .returned ∨ s.tick = .slot []) ∨
    (∃ x curSlot, s.tick = .slot (x :: curSlot)) ∨ ∃ x curSlot, s.tick = .running x curSlot := by
  cases s.tick with
  | returned => exact .inl (.inl rfl)
  | running x curSlot => exact .inr (.inr ⟨x, curSlot, rfl⟩)
  | slot curSlot =>
      cases curSlot with
      | nil => exact .inl (.inr rfl)
      | cons x curSlot => exact .inr (.inl ⟨x, curSlot, rfl⟩)

/-- With no task in hand, a tick returns. -/
theorem idle_cases (htick : s.tick = .returned ∨ s.tick = .slot [])
    (hstep : (s.step .next).Yields es s') : es = [] ∧ s' = { s with tick := .returned } := by
  rcases htick with htick | htick
  · simp only [Timer.step, Timer.next, htick] at hstep
    obtain ⟨rfl, rfl⟩ := (Traced.pure_yields ..).mp hstep
    exact ⟨rfl, by rw [← htick]⟩
  · simp only [Timer.step, Timer.next, htick] at hstep
    obtain ⟨rfl, rfl⟩ := (Traced.pure_yields ..).mp hstep
    exact ⟨rfl, rfl⟩

end Ndsl.Proofs.Timer
