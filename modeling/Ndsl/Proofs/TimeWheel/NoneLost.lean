import Ndsl.Proofs.TimeWheel.Moves

/-!
# `Ndsl.Proofs.TimeWheel.NoneLost`: what `start` does to the tasks of the wheel

`initChannel` clears the slots, and `start` calls it whenever the wheel is not working; and `start`
returns `errno`, which is positive, where `runAfter` tests for a negative value. So a wheel that was
stopped, or that could not be started, loses its tasks at the next `runAfter`.

`NoneLost` is the law: a task that was accepted, and not cancelled or deleted since, is on the
wheel, and `runAfter` reports success only when the wheel works. `none_lost_of_careful` says that it
holds in every state of a run whose steps are `Careful`: no slot is cleared with a task in it, and
`runAfter` does not accept a task when the wheel could not be started.
-/

set_option autoImplicit false

namespace Ndsl.Proofs.Timer

open Ndsl.Lib
open Ndsl.Net
open Ndsl.Net.TimeWheel
open Ndsl.Proofs.TimeWheel (addTask_cases removeTask_cases slot_pushBack tasks_store)

/-! ### The law -/

/-- Whether a task is accepted and neither cancelled nor deleted, after an event. -/
def after (task : TaskId) (live : Bool) : Timer.Event → Bool
  | .wheel (.added t) => live || t == task
  | .wheel (.removed t) => live && t != task
  | .new t => live && t != task
  | .delete t => live && t != task
  | _ => live

/-- The task was accepted, and not cancelled or deleted since. -/
def Live (task : TaskId) (log : List Timer.Event) : Prop := log.foldl (after task) false = true

/-- What a tick has taken out of its slot and not put back. -/
def inHand : Tick → List TaskId
  | .returned => []
  | .slot curSlot => curSlot
  | .running task curSlot => task :: curSlot

/-- The task is in a slot of the wheel, or in the hands of the tick that is under way. -/
def Held (task : TaskId) (s : Timer) : Prop :=
  (∃ i, task ∈ s.wheel.slot i) ∨ task ∈ inHand s.tick

/-- No accepted task is lost, and `runAfter` has reported success only when the wheel worked. -/
structure NoneLost (log : List Timer.Event) (s : Timer) : Prop where
  held : ∀ task, Live task log → Held task s
  reported : ∀ task works, .runAfter task works ∈ log → works = true

/-! ### The condition -/

/-- `start` succeeds. -/
def Succeeds (sys : Syscalls) : Prop :=
  sys.timerfd_create = none ∧ sys.timerfd_settime = none ∧ sys.epoll_ctl = none

/-- `start` clears no slot with a task in it. -/
def ClearsNothing (sys : Syscalls) (s : Timer) : Prop :=
  sys.timerfd_create = none → ∀ i, s.wheel.slot i = []

/-- `addTask` refuses the task. -/
def Refused (setInterval : Int) (doit : Option Nat) : Prop := setInterval < 0 ∨ doit = none

/-- The condition on a step. -/
def Careful (s : Timer) : Timer.Action → Prop
  | .runAfter sys task => s.isWorking_ = false → ClearsNothing sys s ∧
    (Succeeds sys ∨ ∀ t, s.wheel.tasks task = some t → Refused t.setInterval t.doit)
  | .runAfterNew sys _ ns func _ => s.isWorking_ = false → ClearsNothing sys s ∧
    (Succeeds sys ∨ Refused ns func)
  | .start sys => ClearsNothing sys s ∧
    (s.isWorking_ = true → sys.timerfd_create = none → Succeeds sys)
  | _ => True

/-! ### The trace -/

section Trace
variable {task : TaskId} {log es : List Timer.Event}

theorem live_append_iff : Live task (log ++ es) ↔
    es.foldl (after task) (log.foldl (after task) false) = true := by
  rw [Live, List.foldl_append]

/-- An event makes a task live only by accepting it. -/
theorem after_eq_true {live : Bool} {e : Timer.Event} (h : after task live e = true) :
    live = true ∨ e = .wheel (.added task) := by
  cases e with
  | wheel e =>
      cases e with
      | added t =>
          rcases Bool.or_eq_true_iff.mp h with hlive | heq
          · exact .inl hlive
          · obtain rfl := eq_of_beq heq
            exact .inr rfl
      | removed t => exact .inl (Bool.and_eq_true_iff.mp h).1
      | tick => exact .inl h
      | doit t func param => exact .inl h
  | new t => exact .inl (Bool.and_eq_true_iff.mp h).1
  | delete t => exact .inl (Bool.and_eq_true_iff.mp h).1
  | runAfter t works => exact .inl h

/-- A task that is live was so before, or has been accepted. -/
theorem live_of_append (h : Live task (log ++ es)) : Live task log ∨ .wheel (.added task) ∈ es := by
  have hgen : ∀ (es : List Timer.Event) (live : Bool), es.foldl (after task) live = true →
      live = true ∨ .wheel (.added task) ∈ es := by
    intro es
    induction es with
    | nil => exact fun live h => .inl h
    | cons e es ih =>
        intro live h
        rcases ih _ h with hlive | hmem
        · rcases after_eq_true hlive with hlive | rfl
          · exact .inl hlive
          · exact .inr (List.mem_cons_self ..)
        · exact .inr (List.mem_cons_of_mem _ hmem)
  exact hgen es _ (live_append_iff.mp h)

theorem not_live_removed : ¬ Live task (log ++ [.wheel (.removed task)]) := by
  rw [live_append_iff]
  simp [after]

theorem not_live_delete : ¬ Live task (log ++ [.delete task]) := by
  rw [live_append_iff]
  simp [after]

end Trace

/-! ### `start` -/

section Start
variable {s : Timer} {sys : Syscalls} {task : TaskId}

/-- What `start` leaves of the wheel. -/
structure Kept (s s' : Timer) : Prop where
  tick : s'.tick = s.tick
  tasks : s'.wheel.tasks = s.wheel.tasks
  slot : ∀ task i, task ∈ s.wheel.slot i → task ∈ s'.wheel.slot i

theorem Kept.refl (s : Timer) : Kept s s := ⟨rfl, rfl, fun _ _ h => h⟩

theorem Kept.held {s' : Timer} (h : Kept s s') (hheld : Held task s) : Held task s' := by
  rcases hheld with ⟨i, hmem⟩ | hmem
  · exact .inl ⟨i, h.slot task i hmem⟩
  · exact .inr (h.tick ▸ hmem)

theorem S_OK_ne_errno {sys : Syscalls} (h : sys.Positive) {errno : Int}
    (hmem : some errno ∈ [sys.timerfd_create, sys.timerfd_settime, sys.epoll_ctl]) :
    errno ≠ S_OK := by
  have hpos := h errno hmem
  show errno ≠ 0
  omega

/-- A `start` whose `timerfd_create` fails changes nothing. -/
theorem start_of_create {errno : Int} (hpositive : sys.Positive)
    (hcreate : sys.timerfd_create = some errno) : s.start sys = (errno, s) := by
  have hne : errno ≠ S_OK := by
    refine S_OK_ne_errno hpositive ?_
    rw [hcreate]
    exact List.mem_cons_self ..
  simp only [Timer.start, Timer.initChannel, hcreate]
  exact if_pos hne

/-- `start` returns `S_OK` and leaves a wheel that works when all of its calls succeed. Otherwise it
returns `errno`, and `isWorking_` stays what it was. -/
theorem start_cases (s : Timer) (hpositive : sys.Positive) :
    (Succeeds sys ∧ (s.start sys).1 = S_OK ∧ (s.start sys).2.works = true) ∨
    (¬ Succeeds sys ∧
      some (s.start sys).1 ∈ [sys.timerfd_create, sys.timerfd_settime, sys.epoll_ctl] ∧
      (s.start sys).2.isWorking_ = s.isWorking_) := by
  obtain ⟨create, settime, epoll⟩ := sys
  cases create with
  | some errno =>
      rw [start_of_create hpositive rfl]
      exact .inr ⟨fun h => Option.some_ne_none _ h.1, List.mem_cons_self .., rfl⟩
  | none =>
      cases settime with
      | some errno =>
          refine .inr ⟨fun h => Option.some_ne_none _ h.2.1, ?_, rfl⟩
          exact List.mem_cons_of_mem _ (List.mem_cons_self ..)
      | none =>
          cases epoll with
          | some errno =>
              refine .inr ⟨fun h => Option.some_ne_none _ h.2.2, ?_, rfl⟩
              exact List.mem_cons_of_mem _ (List.mem_cons_of_mem _ (List.mem_cons_self ..))
          | none => exact .inl ⟨⟨rfl, rfl, rfl⟩, rfl, rfl⟩

/-- `start` keeps what is on the wheel when it clears nothing. -/
theorem start_kept (hpositive : sys.Positive) (h : ClearsNothing sys s) :
    Kept s (s.start sys).2 := by
  obtain ⟨create, settime, epoll⟩ := sys
  cases create with
  | some errno =>
      rw [start_of_create hpositive rfl]
      exact .refl s
  | none =>
      have hempty : ∀ i, s.wheel.slot i = [] := h rfl
      have hnone : ∀ task i, task ∈ s.wheel.slot i → task ∈ ([] : List TaskId) := by
        intro task i hmem
        rwa [hempty i] at hmem
      cases settime with
      | some errno => exact ⟨rfl, rfl, hnone⟩
      | none =>
          cases epoll with
          | some errno => exact ⟨rfl, rfl, hnone⟩
          | none => exact ⟨rfl, rfl, hnone⟩

end Start

/-! ### The steps -/

section Steps
variable {log es : List Timer.Event} {s s' : Timer} {task : TaskId}

/-- The invariant of a careful run. -/
structure Inv (log : List Timer.Event) (s : Timer) : Prop where
  none_lost : NoneLost log s
  working : s.isWorking_ = true → s.works = true

/-- A step loses nothing when it keeps what is still live and holds what it accepts. -/
theorem NoneLost.of_step (h : NoneLost log s)
    (hheld : ∀ x, Live x (log ++ es) → Held x s → Held x s')
    (hadded : ∀ x, .wheel (.added x) ∈ es → Held x s')
    (hreported : ∀ x works, .runAfter x works ∈ es → works = true) : NoneLost (log ++ es) s' := by
  refine ⟨fun x hlive => ?_, fun x works hmem => ?_⟩
  · rcases live_of_append hlive with hlive' | hmem
    · exact hheld x hlive (h.held x hlive')
    · exact hadded x hmem
  · rcases List.mem_append.mp hmem with hmem | hmem
    · exact h.reported x works hmem
    · exact hreported x works hmem

/-- A step that performs nothing and keeps everything. -/
theorem NoneLost.of_kept (h : NoneLost log s) (hkept : Kept s s') : NoneLost log s' :=
  ⟨fun x hlive => hkept.held (h.held x hlive), h.reported⟩

/-- `push_back` puts its task into a slot and keeps the others where they are. -/
theorem mem_pushBack_iff {w : Wheel} {i : Fin SLOTNUM} {x : TaskId} :
    (∃ j, x ∈ (w.pushBack i task).slot j) ↔ (∃ j, x ∈ w.slot j) ∨ x = task := by
  constructor
  · rintro ⟨j, hmem⟩
    by_cases hj : j = i
    · subst hj
      rw [slot_pushBack, Function.update_self] at hmem
      rcases List.mem_append.mp hmem with hmem | hmem
      · exact .inl ⟨j, hmem⟩
      · exact .inr (List.mem_singleton.mp hmem)
    · rw [slot_pushBack, Function.update_of_ne hj] at hmem
      exact .inl ⟨j, hmem⟩
  · rintro (⟨j, hmem⟩ | rfl)
    · refine ⟨j, ?_⟩
      by_cases hj : j = i
      · subst hj
        rw [slot_pushBack, Function.update_self]
        exact List.mem_append_left _ hmem
      · rwa [slot_pushBack, Function.update_of_ne hj]
    · refine ⟨i, ?_⟩
      rw [slot_pushBack, Function.update_self]
      exact List.mem_append_right _ (List.mem_singleton_self x)

/-- What both overloads of `runAfter` find behind `start`. -/
theorem ensureStarted_cases {sys : Syscalls} {refused : Prop} (h : Inv log s)
    (hpositive : sys.Positive)
    (hcareful : s.isWorking_ = false → ClearsNothing sys s ∧ (Succeeds sys ∨ refused)) :
    0 ≤ (s.ensureStarted sys).1 ∧ Kept s (s.ensureStarted sys).2 ∧
      ((s.ensureStarted sys).2.isWorking_ = true → (s.ensureStarted sys).2.works = true) ∧
      ((s.ensureStarted sys).2.works = true ∨ refused) := by
  cases hwork : s.isWorking_ with
  | true =>
      have hsame : s.ensureStarted sys = (S_OK, s) := by
        simp only [Timer.ensureStarted, hwork, if_true]
      rw [hsame]
      exact ⟨Int.le_refl 0, .refl s, h.working, .inl (h.working hwork)⟩
  | false =>
      have hsame : s.ensureStarted sys = s.start sys := by
        simp only [Timer.ensureStarted, hwork, Bool.false_eq_true, if_false]
      obtain ⟨hclears, hstarts⟩ := hcareful hwork
      rw [hsame]
      rcases start_cases s hpositive with ⟨-, hret, hworks⟩ | ⟨hfails, hret, hsame⟩
      · refine ⟨?_, start_kept hpositive hclears, fun _ => hworks, .inl hworks⟩
        rw [hret]
        decide
      · refine ⟨Int.le_of_lt (hpositive _ hret), start_kept hpositive hclears, fun hworking => ?_,
          .inr (hstarts.resolve_left hfails)⟩
        rw [hsame, hwork] at hworking
        exact absurd hworking Bool.false_ne_true

/-- What `addTask` does to a wheel of the timer. -/
theorem addTask_held {w w' : Wheel} {fs : List TimeWheel.Event} {r : Int}
    (h : (addTask w task).Yields fs (w', r)) :
    (fs = [] ∧ w' = w ∧ r = S_FALSE) ∨
    (fs = [.added task] ∧ r = S_OK ∧
      (∃ t, w.tasks task = some t ∧ ¬ Refused t.setInterval t.doit) ∧
      ∀ x, (∃ j, x ∈ w'.slot j) ↔ (∃ j, x ∈ w.slot j) ∨ x = task) := by
  rcases addTask_cases h with hrefused | ⟨t, i, ht, hinterval, hdoit, -, rfl, rfl, rfl⟩
  · exact .inl hrefused
  · refine .inr ⟨rfl, rfl, ⟨t, ht, ?_⟩, fun x => mem_pushBack_iff⟩
    rintro (hneg | hnull)
    · omega
    · exact hdoit hnull

/-- A step that accepts a task holds it, and what was held before. -/
theorem NoneLost.of_accepted (h : NoneLost log s) (hkept : Kept s s') {w : Wheel}
    (hworks : s'.works = true)
    (hslots : ∀ x, (∃ j, x ∈ w.slot j) ↔ (∃ j, x ∈ s'.wheel.slot j) ∨ x = task)
    (hes : ∀ e ∈ es, e = .new task ∨ e = .wheel (.added task) ∨ e = .runAfter task s'.works) :
    NoneLost (log ++ es) { s' with wheel := w } := by
  refine h.of_step (fun x _ hheld => ?_) (fun x hmem => ?_) (fun x works hmem => ?_)
  · exact (hkept.held hheld).imp_left fun hslot => (hslots x).mpr (.inl hslot)
  · have hadded : x = task := by simpa using hes _ hmem
    exact .inl ((hslots x).mpr (.inr hadded))
  · have hreported : x = task ∧ works = s'.works := by simpa using hes _ hmem
    exact hreported.2.trans hworks

/-- `runAfter` of a task. -/
theorem Inv.runAfter {sys : Syscalls} (h : Inv log s) (hpositive : sys.Positive)
    (hcareful : Careful s (.runAfter sys task))
    (hstep : (s.step (.runAfter sys task)).Yields es s') : Inv (log ++ es) s' := by
  obtain ⟨hret, hkept, hworking, hrefused⟩ := ensureStarted_cases h hpositive hcareful
  obtain ⟨hfails, -⟩ | ⟨-, fs, w, ret, hadd, rfl, rfl⟩ := runAfter_cases hstep
  · omega
  rcases addTask_held hadd with ⟨rfl, rfl, rfl⟩ | ⟨rfl, rfl, ⟨t, ht, haccepts⟩, hslots⟩
  · -- the task is refused
    rw [if_neg (by decide), List.map_nil, List.append_nil, List.append_nil]
    exact ⟨h.none_lost.of_kept hkept, hworking⟩
  · rw [if_pos rfl]
    have hworks : (s.ensureStarted sys).2.works = true := by
      refine hrefused.resolve_right fun hall => haccepts (hall t ?_)
      rw [← hkept.tasks]
      exact ht
    exact ⟨h.none_lost.of_accepted hkept hworks hslots (by simp), hworking⟩

/-- `runAfter` of a new task. -/
theorem Inv.runAfterNew {sys : Syscalls} {ns : Int} {func : Option Nat} {param : Nat}
    (h : Inv log s) (hpositive : sys.Positive)
    (hcareful : Careful s (.runAfterNew sys task ns func param))
    (hstep : (s.step (.runAfterNew sys task ns func param)).Yields es s') :
    Inv (log ++ es) s' := by
  obtain ⟨hret, hkept, hworking, hrefused⟩ := ensureStarted_cases h hpositive hcareful
  obtain ⟨hfails, -⟩ | ⟨-, fs, w, ret, hadd, rfl, rfl⟩ := runAfterNew_cases hstep
  · omega
  rcases addTask_held hadd with ⟨rfl, rfl, rfl⟩ | ⟨rfl, rfl, ⟨t, ht, haccepts⟩, hslots⟩
  · -- the task is refused, and its memory lost
    rw [if_pos (by decide)]
    refine ⟨h.none_lost.of_step (fun x _ hheld => ?_) (fun x hmem => ?_) (fun x works hmem => ?_),
      hworking⟩
    · exact hkept.held hheld
    · simp at hmem
    · simp at hmem
  · rw [if_neg (by decide)]
    -- a task that is accepted means that the timer works
    have hworks : (s.ensureStarted sys).2.works = true := by
      refine hrefused.resolve_right fun hall => haccepts ?_
      rw [tasks_store, Function.update_self] at ht
      obtain rfl := Option.some.inj ht
      exact hall
    exact ⟨h.none_lost.of_accepted hkept hworks hslots (by simp), hworking⟩

/-- `cancelRunAfter`. -/
theorem Inv.cancelRunAfter (h : Inv log s)
    (hstep : (s.step (.cancelRunAfter task)).Yields es s') : Inv (log ++ es) s' := by
  obtain ⟨fs, w, ret, hremove, rfl, rfl⟩ := cancelRunAfter_cases hstep
  rcases removeTask_cases hremove with ⟨rfl, rfl, -⟩ | ⟨t, i, -, -, -, rfl, -, rfl⟩
  · rw [List.map_nil, List.append_nil]
    exact ⟨⟨h.none_lost.held, h.none_lost.reported⟩, h.working⟩
  · refine ⟨h.none_lost.of_step (fun x hlive hheld => ?_) (fun x hmem => ?_)
      (fun x works hmem => ?_), h.working⟩
    · -- only the cancelled task leaves its slot
      have hne : x ≠ task := by
        rintro rfl
        exact not_live_removed hlive
      rcases hheld with ⟨j, hmem⟩ | hmem
      · refine .inl ⟨j, ?_⟩
        by_cases hj : j = i
        · subst hj
          show x ∈ Function.update s.wheel.slot j ((s.wheel.slot j).erase task) j
          rw [Function.update_self]
          exact (List.mem_erase_of_ne hne).mpr hmem
        · show x ∈ Function.update s.wheel.slot i ((s.wheel.slot i).erase task) j
          rwa [Function.update_of_ne hj]
      · exact .inr hmem
    · simp at hmem
    · simp at hmem

/-- `start` from outside. -/
theorem Inv.start {sys : Syscalls} (h : Inv log s) (hpositive : sys.Positive)
    (hcareful : Careful s (.start sys)) (hstep : (s.step (.start sys)).Yields es s') :
    Inv (log ++ es) s' := by
  obtain ⟨rfl, rfl⟩ := (Traced.pure_yields ..).mp hstep
  rw [List.append_nil]
  refine ⟨h.none_lost.of_kept (start_kept hpositive hcareful.1), fun hworking => ?_⟩
  rcases start_cases s hpositive with ⟨-, -, hworks⟩ | ⟨hfails, -, hsame⟩
  · exact hworks
  · rw [hsame] at hworking
    cases hcreate : sys.timerfd_create with
    | some errno =>
        rw [start_of_create hpositive hcreate]
        exact h.working hworking
    | none => exact absurd (hcareful.2 hworking hcreate) hfails

/-- `stop` leaves the tasks alone. -/
theorem Inv.stop {timerfd_settime : Option Int} (h : Inv log s)
    (hstep : (s.step (.stop timerfd_settime)).Yields es s') : Inv (log ++ es) s' := by
  obtain ⟨rfl, rfl | ⟨channel, rfl⟩⟩ := stop_cases hstep
  · rwa [List.append_nil]
  · rw [List.append_nil]
    exact ⟨⟨h.none_lost.held, h.none_lost.reported⟩,
      fun hworking => absurd hworking Bool.false_ne_true⟩

/-- A tick begins: its slot changes hands. -/
theorem Inv.onTick {ret : ReadResult} (h : Inv log s) (hreturned : s.tick = .returned)
    (hstep : (s.step (.onTick ret)).Yields es s') : Inv (log ++ es) s' := by
  have hslot : ∀ x, Held x s → ∃ i, x ∈ s.wheel.slot i := by
    rintro x (hslot | hmem)
    · exact hslot
    · rw [hreturned] at hmem
      exact absurd hmem List.not_mem_nil
  obtain ⟨rfl, rfl⟩ | ⟨rfl, -, rfl⟩ | ⟨rfl, rfl⟩ := onTick_cases hstep
  · rwa [List.append_nil]
  · refine ⟨h.none_lost.of_step (fun x _ hheld => .inl (hslot x hheld)) (fun x hmem => ?_)
      (fun x works hmem => ?_), h.working⟩
    · simp at hmem
    · simp at hmem
  · refine ⟨h.none_lost.of_step (fun x _ hheld => ?_) (fun x hmem => ?_)
      (fun x works hmem => ?_), h.working⟩
    · obtain ⟨i, hmem⟩ := hslot x hheld
      by_cases hi : i = nextTick s.wheel.curTick
      · exact .inr (hi ▸ hmem)
      · refine .inl ⟨i, ?_⟩
        show x ∈ Function.update s.wheel.slot (nextTick s.wheel.curTick) [] i
        rwa [Function.update_of_ne hi]
    · simp at hmem
    · simp at hmem

/-- The tick puts the task that it has in hand back on the wheel. -/
theorem held_of_pushBack {w : Wheel} {i : Fin SLOTNUM} {curSlot : List TaskId} {x : TaskId}
    (hslot : w.slot = s.wheel.slot) (hhand : inHand s.tick = task :: curSlot) (h : Held x s) :
    Held x { s with wheel := w.pushBack i task, tick := .slot curSlot } := by
  rcases h with ⟨j, hmem⟩ | hmem
  · exact .inl (mem_pushBack_iff.mpr (.inl ⟨j, hslot ▸ hmem⟩))
  · rw [hhand] at hmem
    rcases List.mem_cons.mp hmem with rfl | hmem
    · exact .inl (mem_pushBack_iff.mpr (.inr rfl))
    · exact .inr hmem

/-- A turn at the first task in hand. It stays there, with a copy of its pointer in a slot, or it is
called. -/
theorem Inv.turn {curSlot : List TaskId} (h : Inv log s) (htick : s.tick = .slot (task :: curSlot))
    (hstep : (s.step .next).Yields es s') : Inv (log ++ es) s' := by
  have hhand : inHand s.tick = task :: curSlot := by rw [htick]; rfl
  obtain ⟨t, -, ⟨-, rfl, rfl⟩ | ⟨-, func, -, rfl, rfl⟩⟩ := turn_cases htick hstep
  · rw [List.append_nil]
    refine ⟨⟨fun x hlive => ?_, h.none_lost.reported⟩, h.working⟩
    exact (h.none_lost.held x hlive).imp_left fun hslot => mem_pushBack_iff.mpr (.inl hslot)
  · refine ⟨h.none_lost.of_step (fun x _ hheld => hheld.imp_right fun hmem => ?_)
      (fun x hmem => ?_) (fun x works hmem => ?_), h.working⟩
    · rwa [hhand] at hmem
    · simp at hmem
    · simp at hmem

/-- The callback of a task has returned: the task is deleted, or put back. -/
theorem Inv.callbackReturned {curSlot : List TaskId} (h : Inv log s)
    (htick : s.tick = .running task curSlot) (hstep : (s.step .next).Yields es s') :
    Inv (log ++ es) s' := by
  have hhand : inHand s.tick = task :: curSlot := by rw [htick]; rfl
  obtain ⟨t, -, ⟨-, rfl, rfl⟩ | ⟨-, rfl, i, -, -, rfl⟩⟩ := callbackReturned_cases htick hstep
  · -- the last time: the task is not live any more
    refine ⟨h.none_lost.of_step (fun x hlive hheld => ?_) (fun x hmem => ?_)
      (fun x works hmem => ?_), h.working⟩
    · refine hheld.imp_right fun hmem => ?_
      rw [hhand] at hmem
      rcases List.mem_cons.mp hmem with rfl | hmem
      · exact absurd hlive not_live_delete
      · exact hmem
    · simp at hmem
    · simp at hmem
  · rw [List.append_nil]
    exact ⟨⟨fun x hlive => held_of_pushBack rfl hhand (h.none_lost.held x hlive),
      h.none_lost.reported⟩, h.working⟩

/-- The tick goes on. -/
theorem Inv.next (h : Inv log s) (hstep : (s.step .next).Yields es s') : Inv (log ++ es) s' := by
  obtain htick | ⟨task, curSlot, htick⟩ | ⟨task, curSlot, htick⟩ := tick_cases s
  · -- nothing is in hand, so the tick can return
    obtain ⟨rfl, rfl⟩ := idle_cases htick hstep
    rw [List.append_nil]
    refine ⟨⟨fun x hlive => ?_, h.none_lost.reported⟩, h.working⟩
    refine (h.none_lost.held x hlive).imp_right fun hmem => ?_
    rcases htick with htick | htick
    · rwa [htick] at hmem
    · rwa [htick] at hmem
  · exact h.turn htick hstep
  · exact h.callbackReturned htick hstep

/-- A careful step keeps the invariant. -/
theorem Inv.step {action : Timer.Action} (h : Inv log s) (hpossible : s.Possible action)
    (hcareful : Careful s action) (hstep : (s.step action).Yields es s') : Inv (log ++ es) s' := by
  cases action with
  | runAfter sys task => exact h.runAfter hpossible.2 hcareful hstep
  | runAfterNew sys task ns func param => exact h.runAfterNew hpossible.2.1 hcareful hstep
  | cancelRunAfter task => exact h.cancelRunAfter hstep
  | start sys => exact h.start hpossible.2 hcareful hstep
  | stop timerfd_settime => exact h.stop hstep
  | onTick ret => exact h.onTick hpossible hstep
  | next => exact h.next hstep

end Steps

/-! ### Whole runs -/

/-- A timer on which nothing has happened, over the task objects `tasks`. -/
def fresh (tasks : TaskId → Option Task) : Timer := { wheel := .init tasks }

/-- A step that is possible and careful. -/
def CarefullyPossible (s : Timer) (action : Timer.Action) : Prop :=
  s.Possible action ∧ Careful s action

/-- In a run of careful steps no accepted task is lost, and `runAfter` reports success only when the
wheel works. Between two ticks every accepted task is in a slot. -/
theorem none_lost_of_careful {tasks : TaskId → Option Task} {actions : List Timer.Action}
    {log : List Timer.Event} {s : Timer}
    (hrun : Traced.Run Timer.step CarefullyPossible (fresh tasks) actions log s) :
    NoneLost log s ∧
      (s.tick = .returned → ∀ task, Live task log → ∃ i, task ∈ s.wheel.slot i) := by
  have hinit : Inv [] (fresh tasks) := by
    refine ⟨⟨fun x hlive => absurd hlive Bool.false_ne_true, fun x works hmem => ?_⟩,
      fun hworking => absurd hworking Bool.false_ne_true⟩
    exact absurd hmem List.not_mem_nil
  have h : Inv log s := by
    refine hrun.invariant (P := fun _ log s => Inv log s) hinit ?_
    intro l log s action es s' h hpossible hstep
    exact h.step hpossible.1 hpossible.2 hstep
  refine ⟨h.none_lost, fun hreturned task hlive => ?_⟩
  rcases h.none_lost.held task hlive with hslot | hmem
  · exact hslot
  · rw [hreturned] at hmem
    exact absurd hmem List.not_mem_nil

/-- Two task objects, for the next tick. -/
def twoTasks : TaskId → Option Task := fun task =>
  if task = 1 ∨ task = 2 then some { setInterval := 1, doit := some 0, param := 0 } else none

/-- Task 1 runs, and its callback asks for a new task three ticks ahead. -/
theorem none_lost_of_careful_callback : ∃ (log : List Timer.Event) (s : Timer),
    log = [.wheel (.added 1), .runAfter 1 true, .wheel .tick, .wheel (.doit 1 0 0), .new 7,
      .wheel (.added 7), .runAfter 7 true, .delete 1] ∧ ∃ i, 7 ∈ s.wheel.slot i := by
  have hrun : ∃ log s, Traced.Run Timer.step CarefullyPossible (fresh twoTasks)
      [.runAfter {} 1, .onTick (.expirations 1), .next, .runAfterNew {} 7 3 (some 0) 0, .next,
        .next] log s ∧
      log = [.wheel (.added 1), .runAfter 1 true, .wheel .tick, .wheel (.doit 1 0 0), .new 7,
        .wheel (.added 7), .runAfter 7 true, .delete 1] ∧ s.tick = .returned := by
    have hpositive : ({} : Syscalls).Positive := by
      intro errno hmem
      simp at hmem
    refine ⟨_, _, .snoc (.snoc (.snoc (.snoc (.snoc (.snoc (l := []) .nil ?first ⟨rfl, rfl⟩) ?tick
      ⟨rfl, rfl⟩) ?_ ⟨rfl, rfl⟩) ?second ⟨rfl, rfl⟩) ?_ ⟨rfl, rfl⟩) ?_ ⟨rfl, rfl⟩, rfl, rfl⟩
    case first =>
      exact ⟨⟨fun _ => Tick.noConfusion, hpositive⟩,
        fun _ => ⟨fun _ _ => rfl, .inl ⟨rfl, rfl, rfl⟩⟩⟩
    case tick => exact ⟨rfl, trivial⟩
    case second =>
      refine ⟨⟨fun _ => Tick.noConfusion, hpositive, rfl⟩, fun hwork => ?_⟩
      exact absurd hwork (by decide)
    all_goals exact ⟨trivial, trivial⟩
  obtain ⟨log, s, hrun, rfl, hreturned⟩ := hrun
  exact ⟨_, s, rfl, (none_lost_of_careful hrun).2 hreturned 7 (by unfold Live; decide)⟩

/-- `timerfd_settime` fails when task 1 asks for the wheel. `runAfter` reports success, with a wheel
that does not work; and the `runAfter` of task 2 starts the wheel again, which clears the slot of
task 1. -/
theorem first_task_lost : ¬ ∀ (tasks : TaskId → Option Task) (actions : List Timer.Action)
    (log : List Timer.Event) (s : Timer),
    Traced.Run Timer.step Timer.Possible (fresh tasks) actions log s → NoneLost log s := by
  intro h
  have hrun : ∃ log s, Traced.Run Timer.step Timer.Possible (fresh twoTasks)
      [.runAfter { timerfd_settime := some 12 } 1, .runAfter {} 2] log s ∧
      log = [.wheel (.added 1), .runAfter 1 false, .wheel (.added 2), .runAfter 2 true] ∧
      s.tick = .returned ∧ ∀ i, 1 ∉ s.wheel.slot i := by
    refine ⟨_, _, .snoc (.snoc (l := []) .nil ?first ⟨rfl, rfl⟩) ?second ⟨rfl, rfl⟩, rfl, rfl, ?_⟩
    case first =>
      refine ⟨fun _ => Tick.noConfusion, fun errno hmem => ?_⟩
      simp at hmem
      omega
    case second =>
      refine ⟨fun _ => Tick.noConfusion, fun errno hmem => ?_⟩
      simp at hmem
    decide
  obtain ⟨log, s, hrun, rfl, hreturned, hlost⟩ := hrun
  rcases (h _ _ _ _ hrun).held 1 (by unfold Live; decide) with ⟨i, hmem⟩ | hmem
  · exact hlost i hmem
  · rw [hreturned] at hmem
    exact absurd hmem List.not_mem_nil

end Ndsl.Proofs.Timer
