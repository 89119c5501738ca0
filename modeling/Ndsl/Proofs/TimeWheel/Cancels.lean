import Mathlib.Data.List.Nodup
import Ndsl.Proofs.TimeWheel.Effects

/-!
# `Ndsl.Proofs.TimeWheel.Cancels`: cancelling a task at any time

`removeTask` looks for the task in the slot that `setTick` names. A tick has taken the tasks of its
slot out of the wheel, and goes through them in a list of its own. So while it is under way,
`removeTask` does not find them, returns `S_FALSE`, and they are called all the same
(`cancel_fails`).

A task that a tick meets with more than a round to go stays in hand, and a copy of its pointer goes
into the slot. It is called in the same tick, and the copies are left behind.

`cancels_iff_in_slot` says that, when a task is added only while it is not on the wheel and no tick
copies one, a `removeTask` works if and only if the task stands in a slot. The invariant is
`Placed`: each task has one place, and its `setTick` names it.
-/

set_option autoImplicit false

namespace Ndsl.Proofs.Timer

open Ndsl.Lib
open Ndsl.Net
open Ndsl.Net.TimeWheel
open Ndsl.Proofs.TimeWheel (removeTask_cases)

/-! ### The law -/

/-- Unless it is added again, the task is never called from here on. -/
def NeverCalled (task : TaskId) (s : Timer) : Prop :=
  ∀ actions log u,
    Traced.Run Timer.step (fun s action => s.Possible action ∧ ¬ Adds task action) s actions log u →
    ∀ func param, .wheel (.doit task func param) ∉ log

/-- The wheel `w` is that of `s` without the task, which is never called from here on. The other
tasks are where they were, and their objects are what they were. -/
structure Cancelled (task : TaskId) (s : Timer) (w : Wheel) : Prop where
  never : NeverCalled task { s with wheel := w }
  slot : ∀ i, w.slot i = (s.wheel.slot i).filter (· != task)
  tasks : w.tasks = s.wheel.tasks
  curTick : w.curTick = s.wheel.curTick

/-- A `removeTask` that is made now works. -/
def Cancels (task : TaskId) (s : Timer) : Prop :=
  ∃ es w, (removeTask s.wheel task).Yields es (w, S_OK) ∧ Cancelled task s w

/-- A task is added only while it is not on the wheel, nor in the hands of a tick. -/
def AddsOnce (s : Timer) (action : Timer.Action) : Prop := ∀ task, Adds task action → ¬ Held task s

/-- The tick has not come to a task with more than a round to go. -/
def InLastRound (s : Timer) (action : Timer.Action) : Prop :=
  action = .next → ∀ x curSlot t, s.tick = .slot (x :: curSlot) → s.wheel.tasks x = some t →
    t.restInterval ≤ SLOTNUM

/-! ### Each task has one place -/

/-- The object of a task of the slot `i`. -/
def Filed (w : Wheel) (task : TaskId) (i : Fin SLOTNUM) : Prop :=
  ∃ t, w.tasks task = some t ∧ t.setTick = some i ∧ Valid t

/-- Each task stands once in the slot that its object names, or is once in the hands of the tick,
which has it from the current slot. -/
structure Placed (s : Timer) : Prop where
  slot : ∀ i, ∀ x ∈ s.wheel.slot i, Filed s.wheel x i
  hand : ∀ x ∈ inHand s.tick, Filed s.wheel x s.wheel.curTick
  nodup : ∀ i, (s.wheel.slot i).Nodup
  nodupHand : (inHand s.tick).Nodup
  disjoint : ∀ i, ∀ x ∈ s.wheel.slot i, x ∉ inHand s.tick

section Placed
variable {s s' : Timer} {action : Timer.Action} {es : List Timer.Event} {x : TaskId}
  {i j : Fin SLOTNUM} {u : Task}

theorem Filed.unique {w : Wheel} (h : Filed w x i) (h' : Filed w x j) : i = j := by
  obtain ⟨t, ht, hi, -⟩ := h
  obtain ⟨t', ht', hj, -⟩ := h'
  obtain rfl : t = t' := Option.some.inj (ht.symm.trans ht')
  exact Option.some.inj (hi.symm.trans hj)

theorem Filed.congr {w w' : Wheel} (h : Filed w x i) (heq : w'.tasks x = w.tasks x) :
    Filed w' x i := by
  obtain ⟨t, ht, hrest⟩ := h
  exact ⟨t, heq.trans ht, hrest⟩

/-- A task that has no place is given one. -/
theorem Placed.puts (h : Placed s) (hputs : Puts s s' x i u) (hnone : ∀ j, x ∉ s.wheel.slot j)
    (hhand : x ∉ inHand s'.tick) (hsub : (inHand s'.tick).Sublist (inHand s.tick))
    (hvalid : Valid u) (hsetTick : u.setTick = some i) : Placed s' := by
  have hfiled : Filed s'.wheel x i :=
    ⟨u, by rw [hputs.tasks, Function.update_self], hsetTick, hvalid⟩
  have hne : ∀ j, ∀ y ∈ s.wheel.slot j, y ≠ x := by
    rintro j y hy rfl
    exact hnone j hy
  refine ⟨fun j y hy => ?_, fun y hy => ?_, fun j => ?_, hsub.nodup h.nodupHand, fun j y hy => ?_⟩
  · rcases hputs.mem hy with hy | ⟨rfl, rfl⟩
    · exact (h.slot j y hy).congr (hputs.tasks_of_ne (hne j y hy))
    · exact hfiled
  · have hyx : y ≠ x := by
      rintro rfl
      exact hhand hy
    rw [hputs.curTick]
    exact (h.hand y (hsub.subset hy)).congr (hputs.tasks_of_ne hyx)
  · obtain ⟨v, hv, hslot⟩ := hputs.slot
    have hnodup : ∀ j, (v j).Nodup := fun j => (hv j).nodup (h.nodup j)
    rw [hslot]
    by_cases hj : j = i
    · subst hj
      rw [Function.update_self]
      refine (hnodup j).append (List.nodup_singleton x) ?_
      exact List.disjoint_singleton.mpr fun hmem => hnone j ((hv j).subset hmem)
    · rw [Function.update_of_ne hj]
      exact hnodup j
  · rcases hputs.mem hy with hy | ⟨rfl, rfl⟩
    · exact fun hmem => h.disjoint j y hy (hsub.subset hmem)
    · exact hhand

/-- Every step that adds a task once, and copies none, keeps the places. -/
theorem Placed.effect (h : Placed s) (honce : AddsOnce s action) (hlast : InLastRound s action)
    (heffect : Effect s action es s') : Placed s' := by
  cases heffect with
  | shrinks hslot hhand htasks hcurTick _ =>
      have hsame : ∀ y, Held y s → s'.wheel.tasks y = s.wheel.tasks y :=
        fun y hheld => (htasks y).resolve_right fun hadds => honce y hadds hheld
      refine ⟨fun j y hy => ?_, fun y hy => ?_, fun j => (hslot j).nodup (h.nodup j), ?_, ?_⟩
      · have hmem := (hslot j).subset hy
        exact (h.slot j y hmem).congr (hsame y (.inl ⟨j, hmem⟩))
      · rw [hhand] at hy
        rw [hcurTick]
        exact (h.hand y hy).congr (hsame y (.inr hy))
      · rw [hhand]
        exact h.nodupHand
      · intro j y hy
        rw [hhand]
        exact h.disjoint j y ((hslot j).subset hy)
  | adds x i u hputs hhand hadds hvalid hsetTick _ =>
      have hnot : ¬ Held x s := honce x hadds
      refine h.puts hputs (fun j hmem => hnot (.inl ⟨j, hmem⟩)) ?_ ?_ hvalid hsetTick
      · rw [hhand]
        exact fun hmem => hnot (.inr hmem)
      · simp [hhand]
  | ticks hreturned hhand hslot htasks hcurTick _ =>
      -- the slot of the tick changes hands, and the others stay
      have hmem : ∀ j, ∀ y ∈ s'.wheel.slot j,
          y ∈ s.wheel.slot j ∧ j ≠ nextTick s.wheel.curTick := by
        intro j y hy
        rw [hslot] at hy
        by_cases hj : j = nextTick s.wheel.curTick
        · rw [hj, Function.update_self] at hy
          exact absurd hy List.not_mem_nil
        · rw [Function.update_of_ne hj] at hy
          exact ⟨hy, hj⟩
      have hcongr : ∀ {y k}, Filed s.wheel y k → Filed s'.wheel y k :=
        fun hfiled => hfiled.congr (by rw [htasks])
      refine ⟨fun j y hy => hcongr (h.slot j y (hmem j y hy).1), fun y hy => ?_, fun j => ?_, ?_,
        fun j y hy => ?_⟩
      · rw [hhand] at hy
        rw [hcurTick]
        exact hcongr (h.slot _ y hy)
      · rw [hslot]
        by_cases hj : j = nextTick s.wheel.curTick
        · rw [hj, Function.update_self]
          exact List.nodup_nil
        · rw [Function.update_of_ne hj]
          exact h.nodup j
      · rw [hhand]
        exact h.nodup _
      · obtain ⟨hy, hj⟩ := hmem j y hy
        rw [hhand]
        exact fun hnext => hj ((h.slot j y hy).unique (h.slot _ y hnext))
  | ends x hhand hslot htasks hcurTick _ =>
      have hnodup := h.nodupHand
      rw [hhand] at hnodup
      have hsub : ∀ y ∈ inHand s'.tick, y ∈ inHand s.tick := fun y hy => by
        rw [hhand]
        exact List.mem_cons_of_mem x hy
      refine ⟨fun j y hy => ?_, fun y hy => ?_, fun j => ?_, hnodup.of_cons, fun j y hy => ?_⟩
      · rw [hslot] at hy
        refine (h.slot j y hy).congr (htasks y ?_)
        rintro rfl
        refine h.disjoint j y hy ?_
        rw [hhand]
        exact List.mem_cons_self
      · rw [hcurTick]
        refine (h.hand y (hsub y hy)).congr (htasks y ?_)
        rintro rfl
        exact hnodup.notMem hy
      · rw [hslot]
        exact h.nodup j
      · rw [hslot] at hy
        exact fun hmem => h.disjoint j y hy (hsub y hmem)
  | copies x curSlot t u hnext htick hobj hround =>
      exact absurd hround (Int.not_lt.mpr (hlast hnext x curSlot t htick hobj))
  | putsBack x i t u hputs hhand hobj hsame hsetTick _ =>
      have hnodup := h.nodupHand
      rw [hhand] at hnodup
      have hmem : x ∈ inHand s.tick := by
        rw [hhand]
        exact List.mem_cons_self
      obtain ⟨t', ht', htick, hvalid⟩ := h.hand x hmem
      obtain rfl : t = t' := Option.some.inj (hobj.symm.trans ht')
      refine h.puts hputs (fun j hj => h.disjoint j x hj hmem) hnodup.notMem ?_ ?_ hsetTick
      · rw [hhand]
        exact List.sublist_cons_self x _
      · exact ⟨hsame.1 ▸ hvalid.interval, hsame.2 ▸ hvalid.doit⟩

/-- A task that has no place, and is not added, is not called, and gets none. -/
theorem not_held_effect (h : ¬ Held x s) (hadds : ¬ Adds x action)
    (heffect : Effect s action es s') :
    ¬ Held x s' ∧ ∀ func param, .wheel (.doit x func param) ∉ es := by
  have hslot : ∀ j, x ∉ s.wheel.slot j := fun j hmem => h (.inl ⟨j, hmem⟩)
  have hhand : x ∉ inHand s.tick := fun hmem => h (.inr hmem)
  cases heffect with
  | shrinks hshrinks hsame _ _ hcalls =>
      refine ⟨?_, fun func param hmem => hhand (hcalls x func param hmem)⟩
      -- the slots only lose tasks
      rintro (⟨j, hmem⟩ | hmem)
      · exact hslot j ((hshrinks j).subset hmem)
      · exact hhand (hsame ▸ hmem)
  | adds y i u hputs hsame hy _ _ hsilent =>
      refine ⟨?_, hsilent x⟩
      rintro (⟨j, hmem⟩ | hmem)
      · -- the task that is added is another one
        rcases hputs.mem hmem with hmem | ⟨rfl, -⟩
        · exact hslot j hmem
        · exact hadds hy
      · exact hhand (hsame ▸ hmem)
  | ticks _ hnext hupdate _ _ hsilent =>
      refine ⟨?_, hsilent x⟩
      rintro (⟨j, hmem⟩ | hmem)
      · rw [hupdate] at hmem
        -- the slot of the tick is empty now, and the others are as they were
        by_cases hj : j = nextTick s.wheel.curTick
        · rw [hj, Function.update_self] at hmem
          exact List.not_mem_nil hmem
        · rw [Function.update_of_ne hj] at hmem
          exact hslot j hmem
      · exact hslot _ (hnext ▸ hmem)
  | ends y hcons hsame _ _ hsilent =>
      refine ⟨?_, hsilent x⟩
      rintro (⟨j, hmem⟩ | hmem)
      · exact hslot j (hsame ▸ hmem)
      · exact hhand (hcons ▸ List.mem_cons_of_mem y hmem)
  | copies y curSlot t u _ htick _ _ hputs hsame hsilent =>
      refine ⟨?_, hsilent x⟩
      rintro (⟨j, hmem⟩ | hmem)
      · rcases hputs.mem hmem with hmem | ⟨rfl, -⟩
        · exact hslot j hmem
        · -- the copied task is in hand
          refine hhand ?_
          rw [htick]
          exact List.mem_cons_self
      · exact hhand (hsame ▸ hmem)
  | putsBack y i t u hputs hcons _ _ _ hsilent =>
      refine ⟨?_, hsilent x⟩
      rintro (⟨j, hmem⟩ | hmem)
      · rcases hputs.mem hmem with hmem | ⟨rfl, -⟩
        · exact hslot j hmem
        · exact hhand (hcons ▸ List.mem_cons_self)
      · exact hhand (hcons ▸ List.mem_cons_of_mem y hmem)

/-- A task that has no place is never called. -/
theorem neverCalled_of_not_held (h : ¬ Held x s) : NeverCalled x s := by
  intro actions log u hrun
  have hinv : ¬ Held x u ∧ ∀ func param, .wheel (.doit x func param) ∉ log := by
    refine hrun.invariant (P := fun _ log u => ¬ Held x u ∧
      ∀ func param, .wheel (.doit x func param) ∉ log) ⟨h, fun _ _ => List.not_mem_nil⟩ ?_
    rintro l log t action es v ⟨hnot, hlog⟩ ⟨hpossible, hadds⟩ hstep
    obtain ⟨hnot', hes⟩ := not_held_effect hnot hadds (step_effect hpossible hstep)
    refine ⟨hnot', fun func param hmem => ?_⟩
    rcases List.mem_append.mp hmem with hmem | hmem
    · exact hlog func param hmem
    · exact hes func param hmem
  exact hinv.2

/-! ### What `removeTask` does -/

/-- A task in the slot that its object names is found. -/
theorem removeTask_of_filed {w : Wheel} (h : Filed w x i) (hmem : x ∈ w.slot i) :
    (removeTask w x).Yields [.removed x]
      ({ w with slot := Function.update w.slot i ((w.slot i).erase x) }, S_OK) := by
  obtain ⟨t, ht, hsetTick, hvalid⟩ := h
  have hnot : ¬ (t.setInterval = -1 ∨ t.doit = none) := by
    rintro (hneg | hnull)
    · have := hvalid.interval
      omega
    · exact hvalid.doit hnull
  unfold removeTask Wheel.deref
  rw [ht, Traced.pure_bind, if_neg hnot, hsetTick]
  show (if x ∉ w.slot i then _ else _ : Traced TimeWheel.Event (Wheel × Int)).Yields _ _
  rw [if_neg (not_not_intro hmem)]
  exact (Traced.tell_pure_yields ..).mpr ⟨rfl, rfl⟩

/-- A task that is found stands in a slot. -/
theorem Cancels.in_slot (h : Cancels x s) : ∃ i, x ∈ s.wheel.slot i := by
  obtain ⟨es, w, hremove, -⟩ := h
  rcases removeTask_cases hremove with ⟨-, -, hret⟩ | ⟨t, i, -, -, hmem, -⟩
  · exact absurd hret (by decide)
  · exact ⟨i, hmem⟩

/-- A `removeTask` works if and only if the task stands in a slot. -/
theorem Placed.cancels_iff (h : Placed s) : Cancels x s ↔ ∃ i, x ∈ s.wheel.slot i := by
  constructor
  · exact Cancels.in_slot
  · rintro ⟨i, hmem⟩
    have hother : ∀ j, j ≠ i → x ∉ s.wheel.slot j :=
      fun j hj hmem' => hj ((h.slot j x hmem').unique (h.slot i x hmem))
    have hslot : ∀ j, Function.update s.wheel.slot i ((s.wheel.slot i).erase x) j =
        (s.wheel.slot j).filter (· != x) := by
      intro j
      by_cases hj : j = i
      · rw [hj, Function.update_self]
        exact (h.nodup i).erase_eq_filter x
      · rw [Function.update_of_ne hj]
        refine (List.filter_eq_self.mpr fun y hy => bne_iff_ne.mpr ?_).symm
        rintro rfl
        exact hother j hj hy
    refine ⟨_, _, removeTask_of_filed (h.slot i x hmem) hmem,
      neverCalled_of_not_held ?_, hslot, rfl, rfl⟩
    rintro (⟨j, hmem'⟩ | hmem')
    · change x ∈ Function.update s.wheel.slot i ((s.wheel.slot i).erase x) j at hmem'
      rw [hslot, List.mem_filter] at hmem'
      exact bne_iff_ne.mp hmem'.2 rfl
    · exact h.disjoint i x hmem hmem'

end Placed

/-! ### Whole runs -/

/-- The condition on the steps of a run. -/
def OnePlace (s : Timer) (action : Timer.Action) : Prop :=
  s.Possible action ∧ AddsOnce s action ∧ InLastRound s action

/-- In every state of a run in which a task is added only while it is not on the wheel, nor in the
hands of a tick, and no tick comes to a task with more than a round to go, a `removeTask` works if
and only if the task stands in a slot. -/
theorem cancels_iff_in_slot {tasks : TaskId → Option Task} {actions : List Timer.Action}
    {log : List Timer.Event} {s : Timer}
    (hrun : Traced.Run Timer.step OnePlace (fresh tasks) actions log s) (task : TaskId) :
    Cancels task s ↔ ∃ i, task ∈ s.wheel.slot i := by
  have hinit : Placed (fresh tasks) :=
    ⟨fun i x hmem => absurd hmem List.not_mem_nil, fun x hmem => absurd hmem List.not_mem_nil,
      fun i => List.nodup_nil, List.nodup_nil, fun i x _ => List.not_mem_nil⟩
  have hplaced : Placed s := by
    refine hrun.invariant (P := fun _ _ s => Placed s) hinit ?_
    rintro l log s action es s' h ⟨hpossible, honce, hlast⟩ hstep
    exact h.effect honce hlast (step_effect hpossible hstep)
  exact hplaced.cancels_iff

/-- A task that is called at every tick, one for the next tick, and one for the third. -/
def threeTasks : TaskId → Option Task
  | 1 => some { setInterval := 1, times := -1, doit := some 0, param := 0 }
  | 2 => some { setInterval := 1, doit := some 0, param := 0 }
  | 3 => some { setInterval := 3, doit := some 0, param := 0 }
  | _ => none

/-- In the callback of one task another one is cancelled, which is not due. -/
theorem cancels_iff_in_slot_later : ∃ (log : List Timer.Event) (s : Timer),
    log = [.wheel (.added 1), .runAfter 1 true, .wheel (.added 3), .runAfter 3 true, .wheel .tick,
      .wheel (.doit 1 0 0)] ∧ s.tick = .running 1 [] ∧ Cancels 3 s := by
  have hrun : ∃ log s, Traced.Run Timer.step OnePlace (fresh threeTasks)
      [.runAfter {} 1, .runAfter {} 3, .onTick (.expirations 1), .next] log s ∧
      log = [.wheel (.added 1), .runAfter 1 true, .wheel (.added 3), .runAfter 3 true,
        .wheel .tick, .wheel (.doit 1 0 0)] ∧
      s.tick = .running 1 [] ∧ 3 ∈ s.wheel.slot ⟨3, by decide⟩ := by
    have hpositive : ({} : Syscalls).Positive := by
      intro errno hmem
      simp at hmem
    refine ⟨_, _, .snoc (.snoc (.snoc (.snoc (l := []) .nil ?first ⟨rfl, rfl⟩) ?second ⟨rfl, rfl⟩)
      ?tick ⟨rfl, rfl⟩) ?next ⟨rfl, rfl⟩, rfl, rfl, by decide⟩
    case first =>
      refine ⟨⟨fun _ => Tick.noConfusion, hpositive⟩, fun x hadds => ?_, Timer.Action.noConfusion⟩
      obtain rfl : 1 = x := hadds
      rintro (⟨i, hmem⟩ | hmem)
      · exact List.not_mem_nil hmem
      · exact List.not_mem_nil hmem
    case second =>
      refine ⟨⟨fun _ => Tick.noConfusion, hpositive⟩, fun x hadds => ?_, Timer.Action.noConfusion⟩
      obtain rfl : 3 = x := hadds
      rintro (⟨i, hmem⟩ | hmem)
      · revert i
        decide
      · exact List.not_mem_nil hmem
    case tick => exact ⟨rfl, fun x hadds => hadds.elim, Timer.Action.noConfusion⟩
    case next =>
      refine ⟨trivial, fun x hadds => hadds.elim, fun _ x curSlot t htick hobj => ?_⟩
      -- the tick has task 1 in hand, for its first and last round
      have hcons : [1] = x :: curSlot := Tick.slot.inj htick
      obtain rfl : 1 = x := (List.cons.inj hcons).1
      obtain rfl := Option.some.inj hobj
      show (1 : Int) ≤ SLOTNUM
      decide
  obtain ⟨log, s, hrun, rfl, htick, hmem⟩ := hrun
  exact ⟨_, s, rfl, htick, (cancels_iff_in_slot hrun 3).mpr ⟨_, hmem⟩⟩

/-- Two tasks are due in the same tick. In the callback of the first one neither of them can be
cancelled: the second one is called, and the first one, which is called at every tick, goes on. -/
theorem cancel_fails : ∃ (log : List Timer.Event) (s : Timer),
    Traced.Run Timer.step Timer.Possible (fresh threeTasks)
      [.runAfter {} 1, .runAfter {} 2, .onTick (.expirations 1), .next] log s ∧
    s.tick = .running 1 [2] ∧ Live 1 log ∧ Live 2 log ∧ ¬ Cancels 1 s ∧ ¬ Cancels 2 s ∧
    ∃ log' u, Traced.Run Timer.step Timer.Possible s
      [.cancelRunAfter 2, .cancelRunAfter 1, .next, .next, .next, .next, .onTick (.expirations 1),
        .next] log' u ∧
      log' = [.wheel (.doit 2 0 0), .delete 2, .wheel .tick, .wheel (.doit 1 0 0)] := by
  have hrun : ∃ log s, Traced.Run Timer.step Timer.Possible (fresh threeTasks)
      [.runAfter {} 1, .runAfter {} 2, .onTick (.expirations 1), .next] log s ∧
      s.tick = .running 1 [2] ∧
      log = [.wheel (.added 1), .runAfter 1 true, .wheel (.added 2), .runAfter 2 true,
        .wheel .tick, .wheel (.doit 1 0 0)] ∧
      (∀ i, 1 ∉ s.wheel.slot i ∧ 2 ∉ s.wheel.slot i) ∧
      ∃ log' u, Traced.Run Timer.step Timer.Possible s
        [.cancelRunAfter 2, .cancelRunAfter 1, .next, .next, .next, .next,
          .onTick (.expirations 1), .next] log' u ∧
        log' = [.wheel (.doit 2 0 0), .delete 2, .wheel .tick, .wheel (.doit 1 0 0)] := by
    have hpositive : ({} : Syscalls).Positive := by
      intro errno hmem
      simp at hmem
    refine ⟨_, _, .snoc (.snoc (.snoc (.snoc (l := []) .nil ?first ⟨rfl, rfl⟩) ?second ⟨rfl, rfl⟩)
      ?tick ⟨rfl, rfl⟩) ?next ⟨rfl, rfl⟩, rfl, rfl, ?none, _, _, .snoc (.snoc (.snoc (.snoc (.snoc
      (.snoc (.snoc (.snoc (l := []) .nil ?two ⟨rfl, rfl⟩) ?one ⟨rfl, rfl⟩) ?_ ⟨rfl, rfl⟩) ?_
      ⟨rfl, rfl⟩) ?_ ⟨rfl, rfl⟩) ?_ ⟨rfl, rfl⟩) ?again ⟨rfl, rfl⟩) ?_ ⟨rfl, rfl⟩, rfl⟩
    case first => exact ⟨fun _ => Tick.noConfusion, hpositive⟩
    case second => exact ⟨fun _ => Tick.noConfusion, hpositive⟩
    case none => decide
    case two => exact fun _ => Tick.noConfusion
    case one => exact fun _ => Tick.noConfusion
    case tick => rfl
    case again => rfl
    all_goals trivial
  obtain ⟨log, s, hrun, htick, rfl, hnone, hlater⟩ := hrun
  refine ⟨_, s, hrun, htick, by unfold Live; decide, by unfold Live; decide, fun h => ?_,
    fun h => ?_, hlater⟩
  · obtain ⟨i, hmem⟩ := h.in_slot
    exact (hnone i).1 hmem
  · obtain ⟨i, hmem⟩ := h.in_slot
    exact (hnone i).2 hmem

end Ndsl.Proofs.Timer
