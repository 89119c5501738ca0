import Ndsl.Proofs.TimeWheel.Effects
import Ndsl.Proofs.TimeWheel.Periodic

/-!
# `Ndsl.Proofs.TimeWheel.Sums`: the sums of ticks and intervals

`addTask` accepts every interval that is not negative, and adds it to `curTick_` before it takes the
remainder; `onTick` does the same where it puts a task back. So the sum overflows when the interval
is near the greatest `int` and the wheel is not at its first tick (`greatest_interval_stops`).

`sums_iff` says, for every state that a run of `Ndsl.Net.Timer` reaches, that the two places put the
task into the slot that the sum leads to if and only if the sum is an `int`. It is never negative:
`Settled` is the invariant, that a task which is on the wheel has an interval that was accepted. A
task that has been deleted and made again at its address may have none, and it is called once.
-/

set_option autoImplicit false

namespace Ndsl.Proofs.Timer

open Ndsl.Lib
open Ndsl.Net
open Ndsl.Net.TimeWheel
open Ndsl.Proofs.TimeWheel (addTask_cases addTask_of_valid removeTask_cases slotAfter_eq
  le_of_slotAfter deref_yields timesAfter)

/-! ### The property -/

/-- The slot `i` is the remainder of the sum of the tick and `interval`. -/
def LeadsTo (curTick : Fin SLOTNUM) (interval : Int) (i : Fin SLOTNUM) : Prop :=
  (i : Int) = ((curTick : Int) + interval) % (SLOTNUM : Int)

/-- `addTask` of the object `t` puts it into the slot that its interval leads to. -/
def AddsInto (s : Timer) (x : TaskId) (t : Task) : Prop :=
  ∃ i w, LeadsTo s.wheel.curTick (if t.setInterval = 0 then 1 else t.setInterval) i ∧
    (addTask (s.wheel.store x t) x).Yields [.added x] (w, S_OK) ∧
    w.slot i = s.wheel.slot i ++ [x]

/-- `onTick` puts the task that it has called back into the slot that its interval leads to. -/
def PutsBackInto (s : Timer) (x : TaskId) (t : Task) : Prop :=
  ∃ i s', LeadsTo s.wheel.curTick t.setInterval i ∧ (s.step .next).Yields [] s' ∧
    s'.wheel.slot i = s.wheel.slot i ++ [x]

/-! ### The invariant -/

/-- A task on the wheel has an interval that was accepted, or is called once. -/
def Settled (s : Timer) : Prop :=
  ∀ x t, Held x s → s.wheel.tasks x = some t → 0 ≤ t.setInterval ∨ t.times = 1

/-- Every object is one that was there, with its interval, or is called once. -/
def Descends (tasks tasks' : TaskId → Option Task) : Prop :=
  ∀ y u, tasks' y = some u → u.times = 1 ∨
    ∃ t, tasks y = some t ∧ u.setInterval = t.setInterval ∧ (t.times = 1 → u.times = 1)

section Descends
variable {tasks tasks' tasks'' : TaskId → Option Task} {x : TaskId} {t u : Task}

theorem Descends.refl (tasks : TaskId → Option Task) : Descends tasks tasks :=
  fun _ u hu => .inr ⟨u, hu, rfl, id⟩

theorem Descends.trans (h : Descends tasks tasks') (h' : Descends tasks' tasks'') :
    Descends tasks tasks'' := by
  intro y v hv
  rcases h' y v hv with hone | ⟨u, hu, hinterval, honce⟩
  · exact .inl hone
  · rcases h y u hu with hone | ⟨t, ht, hinterval', honce'⟩
    · exact .inl (honce hone)
    · exact .inr ⟨t, ht, hinterval.trans hinterval', fun hone => honce (honce' hone)⟩

/-- One object changes. -/
theorem descends_update (h : u.times = 1 ∨
    ∃ t, tasks x = some t ∧ u.setInterval = t.setInterval ∧ (t.times = 1 → u.times = 1)) :
    Descends tasks (Function.update tasks x (some u)) := by
  intro y v hv
  by_cases hy : y = x
  · subst hy
    rw [Function.update_self] at hv
    obtain rfl := Option.some.inj hv
    exact h
  · rw [Function.update_of_ne hy] at hv
    exact .inr ⟨v, hv, rfl, id⟩

/-- One object is deleted. -/
theorem descends_free (tasks : TaskId → Option Task) (x : TaskId) :
    Descends tasks (Function.update tasks x none) := by
  intro y v hv
  by_cases hy : y = x
  · rw [hy, Function.update_self] at hv
    exact absurd hv.symm (Option.some_ne_none v)
  · rw [Function.update_of_ne hy] at hv
    exact .inr ⟨v, hv, rfl, id⟩

theorem addTask_descends {w w' : Wheel} {fs : List TimeWheel.Event} {r : Int}
    (h : (addTask w x).Yields fs (w', r)) : Descends w.tasks w'.tasks := by
  rcases addTask_cases h with ⟨-, rfl, -⟩ | ⟨t, i, ht, -, -, -, -, -, rfl⟩
  · exact .refl _
  · exact descends_update (.inr ⟨t, ht, rfl, id⟩)

end Descends

section Steps
variable {s s' : Timer} {es : List Timer.Event} {x : TaskId}

/-- What a step does to the objects. -/
theorem step_descends {action : Timer.Action} (hpossible : s.Possible action)
    (hstep : (s.step action).Yields es s') : Descends s.wheel.tasks s'.wheel.tasks := by
  cases action with
  | runAfter sys x =>
      have htasks := (ensureStarted_shrinks s hpossible.2).2.2.1
      rw [← htasks]
      obtain ⟨-, -, rfl⟩ | ⟨-, fs, w, ret, hadd, rfl, -⟩ := runAfter_cases hstep
      · exact .refl _
      · exact addTask_descends hadd
  | runAfterNew sys x ns func param =>
      have htasks := (ensureStarted_shrinks s hpossible.2.1).2.2.1
      rw [← htasks]
      obtain ⟨-, -, rfl⟩ | ⟨-, fs, w, ret, hadd, rfl, -⟩ := runAfterNew_cases hstep
      · exact .refl _
      · exact (descends_update (.inl rfl)).trans (addTask_descends hadd)
  | cancelRunAfter x =>
      obtain ⟨fs, w, ret, hremove, -, rfl⟩ := cancelRunAfter_cases hstep
      rcases removeTask_cases hremove with ⟨-, rfl, -⟩ | ⟨t, i, -, -, -, -, -, rfl⟩
      · exact .refl _
      · exact .refl _
  | start sys =>
      obtain ⟨-, rfl⟩ := (Traced.pure_yields ..).mp hstep
      rw [(start_shrinks s hpossible.2).2.2.1]
      exact .refl _
  | stop timerfd_settime =>
      obtain ⟨-, rfl | ⟨channel, rfl⟩⟩ := stop_cases hstep
      · exact .refl _
      · exact .refl _
  | onTick ret =>
      obtain ⟨-, rfl⟩ | ⟨-, -, rfl⟩ | ⟨-, rfl⟩ := onTick_cases hstep
      · exact .refl _
      · exact .refl _
      · exact .refl _
  | next =>
      obtain htick | ⟨x, curSlot, htick⟩ | ⟨x, curSlot, htick⟩ := tick_cases s
      · obtain ⟨-, rfl⟩ := idle_cases htick hstep
        exact .refl _
      · obtain ⟨t, ht, ⟨-, -, rfl⟩ | ⟨-, func, -, -, rfl⟩⟩ := turn_cases htick hstep
        · exact descends_update (.inr ⟨t, ht, rfl, id⟩)
        · exact .refl _
      · obtain ⟨t, ht, ⟨-, -, rfl⟩ | ⟨hmore, -, i, -, -, rfl⟩⟩ := callbackReturned_cases htick hstep
        · exact descends_free _ x
        · refine descends_update (.inr ⟨t, ht, rfl, fun hone => ?_⟩)
          -- a task that is called once is not put back
          rw [hone] at hmore
          exact absurd rfl hmore

/-- A task that comes to the wheel is one that `addTask` has accepted. -/
theorem Effect.held {action : Timer.Action} (h : Effect s action es s') (hheld : Held x s') :
    Held x s ∨ ∃ u, s'.wheel.tasks x = some u ∧ 0 ≤ u.setInterval := by
  cases h with
  | shrinks hslot hhand htasks hcurTick hcalls =>
      left
      rcases hheld with ⟨i, hmem⟩ | hmem
      · exact .inl ⟨i, (hslot i).subset hmem⟩
      · exact .inr (hhand ▸ hmem)
  | adds y i u hputs hhand hadds hvalid hsetTick hsilent =>
      rcases hheld with ⟨j, hmem⟩ | hmem
      · rcases hputs.mem hmem with hmem | ⟨rfl, -⟩
        · exact .inl (.inl ⟨j, hmem⟩)
        · refine .inr ⟨u, ?_, hvalid.interval⟩
          rw [hputs.tasks, Function.update_self]
      · exact .inl (.inr (hhand ▸ hmem))
  | ticks hreturned hhand hslot htasks hcurTick hsilent =>
      left
      rcases hheld with ⟨j, hmem⟩ | hmem
      · -- what was in the slot of the tick is in its hand now, and the slot is empty
        rw [hslot] at hmem
        by_cases hj : j = nextTick s.wheel.curTick
        · rw [hj, Function.update_self] at hmem
          exact absurd hmem List.not_mem_nil
        · rw [Function.update_of_ne hj] at hmem
          exact .inl ⟨j, hmem⟩
      · exact .inl ⟨_, hhand ▸ hmem⟩
  | ends y hhand hslot htasks hcurTick hsilent =>
      left
      rcases hheld with ⟨j, hmem⟩ | hmem
      · exact .inl ⟨j, hslot ▸ hmem⟩
      · exact .inr (hhand ▸ List.mem_cons_of_mem y hmem)
  | copies y curSlot t u hnext htick hobj hround hputs hhand hsilent =>
      -- the copied task stays in the hand of the tick
      have hy : y ∈ inHand s.tick := by
        rw [htick]
        exact List.mem_cons_self
      left
      rcases hheld with ⟨j, hmem⟩ | hmem
      · rcases hputs.mem hmem with hmem | ⟨rfl, -⟩
        · exact .inl ⟨j, hmem⟩
        · exact .inr hy
      · exact .inr (hhand ▸ hmem)
  | putsBack y i t u hputs hhand hobj hsame hsetTick hsilent =>
      -- a task that goes back into a slot was in the hand of the tick
      left
      rcases hheld with ⟨j, hmem⟩ | hmem
      · rcases hputs.mem hmem with hmem | ⟨rfl, -⟩
        · exact .inl ⟨j, hmem⟩
        · exact .inr (hhand ▸ List.mem_cons_self)
      · exact .inr (hhand ▸ List.mem_cons_of_mem y hmem)

/-- Every step keeps the invariant. -/
theorem Settled.step {action : Timer.Action} (h : Settled s) (hpossible : s.Possible action)
    (hstep : (s.step action).Yields es s') : Settled s' := by
  intro x u hheld hu
  rcases step_descends hpossible hstep x u hu with hone | ⟨t, ht, hinterval, honce⟩
  · exact .inr hone
  rcases (step_effect hpossible hstep).held hheld with hbefore | ⟨v, hv, hnonneg⟩
  · rw [hinterval]
    exact (h x t hbefore ht).imp_right honce
  · obtain rfl := Option.some.inj (hu.symm.trans hv)
    exact .inl hnonneg

/-- What holds in every state of a run. -/
theorem settled_of_run {tasks : TaskId → Option Task} {actions : List Timer.Action}
    {log : List Timer.Event}
    (hrun : Traced.Run Timer.step Timer.Possible (fresh tasks) actions log s) : Settled s := by
  refine hrun.invariant (P := fun _ _ s => Settled s) ?_ ?_
  · rintro x t (⟨i, hmem⟩ | hmem) -
    · exact absurd hmem List.not_mem_nil
    · exact absurd hmem List.not_mem_nil
  · intro l log s action es s' h hpossible hstep
    exact h.step hpossible hstep

end Steps

/-! ### The sums -/

section Sums
variable {s : Timer} {x : TaskId} {t : Task}

/-- A sum that is an `int`, and not negative, leads to its slot. -/
theorem exists_leadsTo {c : Fin SLOTNUM} {k : Int} (hnonneg : 0 ≤ (c : Int) + k)
    (hmax : (c : Int) + k ≤ INT_MAX) : ∃ i, slotAfter c k = pure i ∧ LeadsTo c k i := by
  refine ⟨⟨((c : Int) + k).toNat % SLOTNUM, Nat.mod_lt _ (by decide)⟩,
    slotAfter_eq hnonneg hmax rfl, ?_⟩
  show ((((c : Int) + k).toNat % SLOTNUM : Nat) : Int) = ((c : Int) + k) % (SLOTNUM : Int)
  rw [Int.natCast_emod, Int.toNat_of_nonneg hnonneg]

/-- `addTask` reaches its slot if and only if the sum is an `int`. -/
theorem addsInto_iff (hnonneg : 0 ≤ t.setInterval) (hdoit : t.doit ≠ none) :
    AddsInto s x t ↔
      (s.wheel.curTick : Int) + (if t.setInterval = 0 then 1 else t.setInterval) ≤ INT_MAX := by
  have hobj : (s.wheel.store x t).tasks x = some t := Function.update_self ..
  have hvalid : ¬ (t.setInterval < 0 ∨ t.doit = none) := by
    rintro (hneg | hnull)
    · omega
    · exact hdoit hnull
  constructor
  · rintro ⟨i, w, -, hadd, -⟩
    unfold addTask at hadd
    obtain ⟨_, u, _, hread, hrest, -⟩ := Traced.bind_yields.mp hadd
    obtain ⟨-, hu⟩ := (deref_yields ..).mp hread
    obtain rfl := Option.some.inj (hobj.symm.trans hu)
    rw [if_neg hvalid] at hrest
    obtain ⟨_, j, _, hslot, -⟩ := Traced.bind_yields.mp hrest
    exact le_of_slotAfter hslot
  · intro hmax
    obtain ⟨i, hslot, hleads⟩ := exists_leadsTo (c := s.wheel.curTick)
      (k := if t.setInterval = 0 then 1 else t.setInterval) (by split <;> omega) hmax
    refine ⟨i, _, hleads, addTask_of_valid hobj hvalid hslot, ?_⟩
    exact Function.update_self ..

/-- `onTick` puts a task back into its slot if and only if the sum is an `int`. -/
theorem putsBackInto_iff {curSlot : List TaskId} (hsettled : Settled s)
    (htick : s.tick = .running x curSlot) (hobj : s.wheel.tasks x = some t)
    (hmore : timesAfter t.times ≠ 0) :
    PutsBackInto s x t ↔ (s.wheel.curTick : Int) + t.setInterval ≤ INT_MAX := by
  have hread : Timer.onWheel (s.wheel.deref x) = pure t := by
    rw [Wheel.deref, hobj]
    rfl
  have htimes : (if t.times > 0 then t.times - 1 else t.times) = timesAfter t.times := rfl
  constructor
  · rintro ⟨i, s', -, hstep, -⟩
    simp only [Timer.step, Timer.next, htick, hread, Traced.pure_bind, htimes] at hstep
    rw [if_neg hmore] at hstep
    obtain ⟨_, j, _, hcall, -⟩ := Traced.bind_yields.mp hstep
    obtain ⟨fs, hslot, -⟩ := onWheel_yields.mp hcall
    exact le_of_slotAfter hslot
  · intro hmax
    -- a task that comes back was accepted, so its interval is not negative
    have hnonneg : 0 ≤ t.setInterval := by
      have hheld : Held x s := by
        right
        rw [htick]
        exact List.mem_cons_self
      refine (hsettled x t hheld hobj).resolve_right fun hone => ?_
      rw [hone] at hmore
      exact hmore rfl
    obtain ⟨i, hslot, hleads⟩ := exists_leadsTo (c := s.wheel.curTick) (by omega) hmax
    refine ⟨i, _, hleads, next_of_again htick hobj hmore hslot, ?_⟩
    exact Function.update_self ..

end Sums

/-- In every state of a run, `addTask` of a task that it accepts, and `onTick` of a task that it has
to put back, reach the slot that the sum leads to if and only if the sum is an `int`. -/
theorem sums_iff {tasks : TaskId → Option Task} {actions : List Timer.Action}
    {log : List Timer.Event} {s : Timer}
    (hrun : Traced.Run Timer.step Timer.Possible (fresh tasks) actions log s) :
    (∀ x t, 0 ≤ t.setInterval → t.doit ≠ none → (AddsInto s x t ↔
      (s.wheel.curTick : Int) + (if t.setInterval = 0 then 1 else t.setInterval) ≤ INT_MAX)) ∧
    (∀ x curSlot t, s.tick = .running x curSlot → s.wheel.tasks x = some t →
      timesAfter t.times ≠ 0 →
      (PutsBackInto s x t ↔ (s.wheel.curTick : Int) + t.setInterval ≤ INT_MAX)) := by
  refine ⟨fun x t => addsInto_iff, fun x curSlot t htick hobj hmore => ?_⟩
  exact putsBackInto_iff (settled_of_run hrun) htick hobj hmore

/-- After one tick. -/
def ticked : Timer :=
  { fresh fun _ => none with wheel :=
    { (fresh fun _ => none).wheel with curTick := nextTick (fresh fun _ => none).wheel.curTick } }

theorem ticked_run : Traced.Run Timer.step Timer.Possible (fresh fun _ => none)
    [.onTick (.expirations 1)] [.wheel .tick] ticked :=
  .snoc (l := []) .nil rfl ⟨rfl, rfl⟩

/-- The greatest interval that the second tick takes. -/
theorem sums_iff_ticked : AddsInto ticked 0
    { setInterval := 2 ^ 31 - 2, doit := some 0, param := 0 } :=
  ((sums_iff ticked_run).1 0 _ (by decide) (Option.some_ne_none 0)).mpr (by decide)

/-- The greatest interval is accepted at the second tick, and the sum overflows. -/
theorem greatest_interval_stops : ∃ log s, Traced.Run Timer.step Timer.Possible
    (fresh fun _ => none) [.onTick (.expirations 1)] log s ∧
    ¬ AddsInto s 0 { setInterval := 2 ^ 31 - 1, doit := some 0, param := 0 } := by
  refine ⟨_, ticked, ticked_run, fun hadds => ?_⟩
  have hle := (addsInto_iff (by decide) (Option.some_ne_none 0)).mp hadds
  exact absurd hle (by decide)

end Ndsl.Proofs.Timer
