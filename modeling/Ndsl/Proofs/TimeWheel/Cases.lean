import Ndsl.Net.TimeWheel

/-!
# `Ndsl.Proofs.TimeWheel.Cases`: what one operation of the wheel can do

One inversion lemma for each function of `Ndsl.Net.TimeWheel`: an `addTask`, a
`removeTask`, the turns of the loop in `onTick` at one task, and `onTick` itself. Each lists the
possible traces and the wheel that goes with each. The invariants of the wheel are derived from
these lemmas, not from the definitions.
-/

set_option autoImplicit false

namespace Ndsl.Proofs.TimeWheel

open Ndsl.Lib
open Ndsl.Net (S_OK S_FALSE INT_MAX)
open Ndsl.Net.TimeWheel

/-! ### The fields of a wheel after an update -/

section Fields
variable (w : Wheel) (task : TaskId) (t : Task) (i : Fin SLOTNUM)

@[simp] theorem curTick_store : (w.store task t).curTick = w.curTick := rfl

@[simp] theorem slot_store : (w.store task t).slot = w.slot := rfl

@[simp] theorem tasks_store : (w.store task t).tasks = Function.update w.tasks task (some t) :=
  rfl

@[simp] theorem curTick_free : (w.free task).curTick = w.curTick := rfl

@[simp] theorem slot_free : (w.free task).slot = w.slot := rfl

@[simp] theorem tasks_free : (w.free task).tasks = Function.update w.tasks task none := rfl

@[simp] theorem curTick_pushBack : (w.pushBack i task).curTick = w.curTick := rfl

@[simp] theorem tasks_pushBack : (w.pushBack i task).tasks = w.tasks := rfl

@[simp] theorem slot_pushBack :
    (w.pushBack i task).slot = Function.update w.slot i (w.slot i ++ [task]) := rfl

end Fields

/-! ### The primitive steps -/

/-- Reading through a pointer returns the object, and only when there is one. -/
@[simp] theorem deref_yields (w : Wheel) (task : TaskId) (es : List Event) (t : Task) :
    (w.deref task).Yields es t ↔ es = [] ∧ w.tasks task = some t := by
  unfold Wheel.deref
  cases h : w.tasks task with
  | none => simp
  | some u => simp

/-- The slot an interval leads to. -/
theorem slotAfter_yields {c i : Fin SLOTNUM} {k : Int} {es : List Event}
    (h : (slotAfter c k).Yields es i) :
    es = [] ∧ 0 ≤ (c : Int) + k ∧ i.val = ((c : Int) + k).toNat % SLOTNUM := by
  unfold slotAfter at h
  split at h
  · rw [Traced.pure_yields] at h
    obtain ⟨rfl, rfl⟩ := h
    exact ⟨rfl, ‹_ ∧ _›.1, rfl⟩
  · simp at h

/-- The sum that leads to a slot does not overflow. -/
theorem le_of_slotAfter {c i : Fin SLOTNUM} {k : Int} {es : List Event}
    (h : (slotAfter c k).Yields es i) : (c : Int) + k ≤ INT_MAX := by
  unfold slotAfter at h
  split at h
  · exact ‹_ ∧ _›.2
  · exact absurd h (Traced.fault_yields _ _)

/-- The slot of a task that is put `k` ticks ahead. -/
theorem slotAfter_eq {c i : Fin SLOTNUM} {k : Int} (hnonneg : 0 ≤ (c : Int) + k)
    (hmax : (c : Int) + k ≤ INT_MAX) (hi : i.val = ((c : Int) + k).toNat % SLOTNUM) :
    slotAfter c k = pure i := by
  rw [slotAfter, if_pos ⟨hnonneg, hmax⟩]
  exact congrArg pure (Fin.ext hi.symm)

/-! ### `addTask` -/

/-- An `addTask` that is refused changes nothing. One that is accepted sets the two fields
the user does not set and puts the task at the end of one slot: the next one for an interval
of zero, the one `setInterval` ticks ahead otherwise. -/
theorem addTask_cases {w w' : Wheel} {task : TaskId} {es : List Event} {r : Int}
    (h : (addTask w task).Yields es (w', r)) :
    (es = [] ∧ w' = w ∧ r = S_FALSE) ∨
    ∃ t i, w.tasks task = some t ∧ 0 ≤ t.setInterval ∧ t.doit ≠ none ∧
      i.val = ((w.curTick : Int) + max t.setInterval 1).toNat % SLOTNUM ∧
      es = [.added task] ∧ r = S_OK ∧
      w' = (w.store task { t with setTick := some i, restInterval := t.setInterval }).pushBack
        i task := by
  unfold addTask at h
  rw [Traced.bind_yields] at h
  obtain ⟨_, t, gs, ht, h, rfl⟩ := h
  rw [deref_yields] at ht
  obtain ⟨rfl, ht⟩ := ht
  split at h
  · -- refused
    rw [Traced.pure_yields, Prod.mk.injEq] at h
    exact .inl ⟨by simp [h.1], h.2.1.symm, h.2.2.symm⟩
  · rename_i hvalid
    rw [not_or] at hvalid
    rw [Traced.bind_yields] at h
    obtain ⟨es₁, i, es₂, hi, h, rfl⟩ := h
    obtain ⟨rfl, -, hval⟩ := slotAfter_yields hi
    have hmax : (if t.setInterval = 0 then 1 else t.setInterval) = max t.setInterval 1 := by
      split <;> omega
    rw [hmax] at hval
    simp only [Traced.tell_bind_yields, Traced.pure_yields, Prod.mk.injEq] at h
    obtain ⟨_, ⟨rfl, rfl, rfl⟩, rfl⟩ := h
    exact .inr ⟨t, i, ht, by omega, hvalid.2, hval, by simp, rfl, rfl⟩

/-- An `addTask` that is accepted. -/
theorem addTask_of_valid {w : Wheel} {task : TaskId} {t : Task} {i : Fin SLOTNUM}
    (hobj : w.tasks task = some t) (hvalid : ¬ (t.setInterval < 0 ∨ t.doit = none))
    (hslot : slotAfter w.curTick (if t.setInterval = 0 then 1 else t.setInterval) = pure i) :
    (addTask w task).Yields [.added task] ((w.store task { t with
      setTick := some i
      restInterval := t.setInterval }).pushBack i task, S_OK) := by
  unfold addTask Wheel.deref
  rw [hobj, Traced.pure_bind, if_neg hvalid, hslot, Traced.pure_bind]
  exact (Traced.tell_pure_yields ..).mpr ⟨rfl, rfl⟩

/-! ### `removeTask` -/

/-- A `removeTask` that is refused changes nothing. One that is accepted takes the task out
of the slot its `setTick` names, where it was. -/
theorem removeTask_cases {w w' : Wheel} {task : TaskId} {es : List Event} {r : Int}
    (h : (removeTask w task).Yields es (w', r)) :
    (es = [] ∧ w' = w ∧ r = S_FALSE) ∨
    ∃ t i, w.tasks task = some t ∧ t.setTick = some i ∧ task ∈ w.slot i ∧
      es = [.removed task] ∧ r = S_OK ∧
      w' = { w with slot := Function.update w.slot i ((w.slot i).erase task) } := by
  unfold removeTask at h
  rw [Traced.bind_yields] at h
  obtain ⟨_, t, gs, ht, h, rfl⟩ := h
  rw [deref_yields] at ht
  obtain ⟨rfl, ht⟩ := ht
  split at h
  · rw [Traced.pure_yields, Prod.mk.injEq] at h
    exact .inl ⟨by simp [h.1], h.2.1.symm, h.2.2.symm⟩
  · split at h
    · rw [Traced.pure_yields, Prod.mk.injEq] at h
      exact .inl ⟨by simp [h.1], h.2.1.symm, h.2.2.symm⟩
    · rename_i i hi
      split at h
      · rw [Traced.pure_yields, Prod.mk.injEq] at h
        exact .inl ⟨by simp [h.1], h.2.1.symm, h.2.2.symm⟩
      · rename_i hmem
        simp only [Traced.tell_bind_yields, Traced.pure_yields, Prod.mk.injEq] at h
        obtain ⟨_, ⟨rfl, rfl, rfl⟩, rfl⟩ := h
        exact .inr ⟨t, i, ht, hi, not_not.mp hmem, by simp, rfl, rfl⟩

/-! ### The turns of the loop in `onTick` at one task -/

/-- What a call leaves of `times`. -/
def timesAfter (times : Int) : Int := if times > 0 then times - 1 else times

/-- What the turns at a task that has more than a round to go do: they leave it its last round, and
touch nothing but its object and the current slot, which gets copies of its pointer. -/
structure PutBack (w : Wheel) (task : TaskId) (t : Task) (w' : Wheel) (t' : Task) : Prop where
  last : t'.restInterval ≤ SLOTNUM
  same : t' = { t with restInterval := t'.restInterval }
  obj : w.tasks task = some t → w'.tasks task = some t'
  curTick : w'.curTick = w.curTick
  tasks : ∀ x, x ≠ task → w'.tasks x = w.tasks x
  count : ∀ x, x ≠ task → ∀ i, (w'.slot i).count x = (w.slot i).count x

/-- Putting one more entry at the end of a slot is a new entry of that task in that slot and
nothing else. -/
theorem count_pushBack (w : Wheel) (i j : Fin SLOTNUM) (x task : TaskId) :
    ((w.pushBack i x).slot j).count task
      = (w.slot j).count task + if j = i ∧ x = task then 1 else 0 := by
  rw [slot_pushBack]
  by_cases hj : j = i
  · subst hj
    rw [Function.update_self, List.count_append, List.count_singleton]
    by_cases hx : x = task <;> simp [hx]
  · simp [hj]

/-- One turn after the other, until the last round. -/
theorem putBack_spec (w : Wheel) (task : TaskId) (t : Task) :
    PutBack w task t (putBack w task t).1 (putBack w task t).2 := by
  induction w, t using putBack.induct task with
  | case1 w t hround t' ih =>
      rw [putBack, if_pos hround]
      refine ⟨ih.last, ih.same, fun _ => ih.obj (Function.update_self ..), ih.curTick,
        fun x hx => ?_, fun x hx i => ?_⟩
      · rw [ih.tasks x hx]
        exact Function.update_of_ne hx ..
      · rw [ih.count x hx, count_pushBack, slot_store, if_neg (fun h => hx h.2.symm)]
        exact Nat.add_zero _
  | case2 w t hlast =>
      rw [putBack, if_neg hlast]
      exact ⟨Int.not_lt.mp hlast, rfl, id, rfl, fun _ _ => rfl, fun _ _ _ => rfl⟩

/-- In its last round a task is not put back. -/
theorem putBack_of_last {w : Wheel} {task : TaskId} {t : Task} (h : t.restInterval ≤ SLOTNUM) :
    putBack w task t = (w, t) := by
  rw [putBack, if_neg (Int.not_lt.mpr h)]

/-- The turns at a task put it back while it has more than a round to go. Then it runs: its
callback adds its tasks, and the task is deleted when this was its last time, and put ahead by its
interval otherwise. -/
theorem runTask_cases {w w' : Wheel} {task : TaskId} {adds : List TaskId} {es : List Event}
    (h : (runTask w task adds).Yields es w') :
    ∃ t func es₁ w₁ t₁, w.tasks task = some t ∧
      (addTasks (putBack w task t).1 adds).Yields es₁ w₁ ∧ w₁.tasks task = some t₁ ∧
      es = .doit task func t.param :: es₁ ∧
      ((timesAfter t₁.times = 0 ∧ w' = w₁.free task) ∨
        ∃ i, timesAfter t₁.times ≠ 0 ∧ 0 ≤ (w₁.curTick : Int) + t₁.setInterval ∧
          i.val = ((w₁.curTick : Int) + t₁.setInterval).toNat % SLOTNUM ∧
          w' = (w₁.store task { t₁ with
            times := timesAfter t₁.times
            setTick := some i
            restInterval := t₁.setInterval }).pushBack i task) := by
  unfold runTask at h
  rw [Traced.bind_yields] at h
  obtain ⟨_, t, gs, ht, h, rfl⟩ := h
  rw [deref_yields] at ht
  obtain ⟨rfl, ht⟩ := ht
  have hparam : (putBack w task t).2.param = t.param := by
    rw [(putBack_spec w task t).same]
  refine ⟨t, ?_⟩
  cases hput : putBack w task t with
  | mk w₀ t₀ =>
  rw [hput] at h hparam
  dsimp only at h hparam ⊢
  -- a task without a function is a fault
  split at h
  · simp at h
  · rename_i func hfunc
    rw [Traced.tell_bind_yields] at h
    obtain ⟨gs, h, rfl⟩ := h
    rw [Traced.bind_yields] at h
    obtain ⟨es₁, w₁, es₂, hadds, h, rfl⟩ := h
    rw [Traced.bind_yields] at h
    obtain ⟨_, t₁, es₃, ht₁, h, rfl⟩ := h
    rw [deref_yields] at ht₁
    obtain ⟨rfl, ht₁⟩ := ht₁
    refine ⟨func, es₁, w₁, t₁, ht, hadds, ht₁, ?_⟩
    -- the task is read once more, since its callback may have changed the wheel
    have htimes : (if t₁.times > 0 then t₁.times - 1 else t₁.times) = timesAfter t₁.times := rfl
    simp only [htimes] at h
    rw [← hparam]
    split at h
    · -- the last time
      rename_i hzero
      rw [Traced.pure_yields] at h
      obtain ⟨rfl, rfl⟩ := h
      exact ⟨by simp, .inl ⟨hzero, rfl⟩⟩
    · rename_i hleft
      rw [Traced.bind_yields] at h
      obtain ⟨es₄, i, es₅, hi, h, rfl⟩ := h
      obtain ⟨rfl, hsum, hval⟩ := slotAfter_yields hi
      rw [Traced.pure_yields] at h
      obtain ⟨rfl, rfl⟩ := h
      exact ⟨by simp, .inr ⟨i, hleft, hsum, hval, rfl⟩⟩

/-! ### `onTick` -/

/-- An `onTick` whose `read` fails changes nothing. Another one advances the current tick and
runs what the slot there held, with the slot itself emptied first. -/
theorem onTick_cases {w w' : Wheel} {ret : ReadResult} {calls : List (List TaskId)}
    {es : List Event} {r : Int} (h : (onTick w ret calls).Yields es (w', r)) :
    (es = [] ∧ w' = w) ∨
    ∃ fs, es = .tick :: fs ∧
      (runSlot { w with
          curTick := nextTick w.curTick
          slot := Function.update w.slot (nextTick w.curTick) [] }
        (w.slot (nextTick w.curTick)) calls).Yields fs w' := by
  unfold onTick at h
  cases ret with
  | error errno =>
      rw [Traced.pure_yields, Prod.mk.injEq] at h
      exact .inl ⟨h.1, h.2.1.symm⟩
  | expirations exp =>
      rw [Traced.tell_bind_yields] at h
      obtain ⟨fs, h, rfl⟩ := h
      refine .inr ⟨fs, rfl, ?_⟩
      split at h
      · -- an empty slot: emptying it and running it does nothing
        rename_i hempty
        rw [Traced.pure_yields, Prod.mk.injEq] at h
        obtain ⟨rfl, rfl, -⟩ := h
        simp only at hempty
        rw [hempty, runSlot, Traced.pure_yields]
        refine ⟨rfl, ?_⟩
        rw [Function.update_eq_self_iff.mpr hempty.symm]
      · rw [Traced.bind_yields] at h
        obtain ⟨es₁, w₁, es₂, hrun, h, rfl⟩ := h
        rw [Traced.pure_yields, Prod.mk.injEq] at h
        obtain ⟨rfl, rfl, -⟩ := h
        rw [List.append_nil]
        exact hrun

end Ndsl.Proofs.TimeWheel
