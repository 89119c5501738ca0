import Ndsl.Proofs.TimeWheel.NoneLost
import Ndsl.Proofs.TimeWheel.OneShot

/-!
# `Ndsl.Proofs.TimeWheel.Periodic`: the calls of a periodic task

`addTask` takes an interval of zero for one, and `onTick` does not: it puts such a task back into
the slot that is being served, which comes again after a whole turn. So a task with the interval
zero is called at the next tick, and then at every sixtieth (`interval_zero_slow`). And a task with
more than a round to go is called at the first visit of its slot (`early_ticks`).

`periodic_iff` says that the task keeps its period in every run if and only if its interval is at
most a turn of the wheel, and it is not zero, or the task is called only once. The runs are those of
`Ndsl.Net.Timer` in which the wheel works, so the callbacks may add and cancel tasks. `Clocked` is
the invariant `TimeWheel.Inv` at their steps.
-/

set_option autoImplicit false

namespace Ndsl.Proofs.Timer

open Ndsl.Lib
open Ndsl.Net
open Ndsl.Net.TimeWheel
open Ndsl.Proofs.TimeWheel (nextTick_val addTask_cases removeTask_cases deref_yields
  slotAfter_eq slotAfter_yields slot_pushBack tasks_store timesAfter ticks additions removals
  firings life due dues deadline period count_pushBack timesLeft slotOf slotOf_succ firstVisit)

/-! ### The law -/

/-- A task that `addTask` accepts. -/
structure Proper (t : Task) : Prop where
  doit : t.doit ≠ none
  nonneg : 0 ≤ t.setInterval
  le : t.setInterval ≤ INT_MAX
  times : 1 ≤ t.times ∨ t.times = -1

/-- The ticks from one call to the next, and up to the first. -/
def every (t : Task) : Nat := max 1 t.setInterval.toNat

/-- The number of calls in the first `elapsed` ticks. -/
def callsBy (t : Task) (elapsed : Nat) : Nat :=
  if 0 < t.times then min t.times.toNat (elapsed / every t) else elapsed / every t

/-- What the wheel does. -/
def wheelEvents (log : List Timer.Event) : List TimeWheel.Event :=
  log.filterMap fun
    | .wheel e => some e
    | _ => none

/-- A task that was added at tick `n` has been called at its times. It is gone and has been deleted
once when that was the last time, and is in one slot otherwise. -/
structure Periodic (task : TaskId) (t : Task) (n : Nat) (log : List Timer.Event) (s : Timer) :
    Prop where
  calls : firings task (wheelEvents log) =
    (List.range (callsBy t (ticks (wheelEvents log) - n))).map fun j => n + (j + 1) * every t
  gone : (callsBy t (ticks (wheelEvents log) - n) : Int) = t.times →
    (∀ i, task ∉ s.wheel.slot i) ∧ s.wheel.tasks task = none ∧ log.count (.delete task) = 1
  stays : (callsBy t (ticks (wheelEvents log) - n) : Int) ≠ t.times →
    (∃ i, ∀ j, (s.wheel.slot j).count task = if j = i then 1 else 0) ∧
      log.count (.delete task) = 0

/-- The tick that is under way does not stop at the task. -/
def GoesOn (task : TaskId) (s : Timer) : Prop :=
  ∀ curSlot, s.tick = .slot (task :: curSlot) ∨ s.tick = .running task curSlot →
    ∃ es s', (s.step .next).Yields es s'

/-- A wheel that works, over the task objects `tasks`. -/
def started (tasks : TaskId → Option Task) : Timer := ((fresh tasks).start {}).2

/-- Ticks, and calls that add and remove tasks. The address of the task is not given to another. -/
def TasksOnly (task : TaskId) (s : Timer) (action : Timer.Action) : Prop :=
  s.Possible action ∧
    match action with
    | .start _ | .stop _ => False
    | .runAfterNew _ x _ _ _ => x ≠ task
    | _ => True

/-- The task keeps its period in every run in which it is added once, and not removed. -/
def KeepsPeriod (t : Task) : Prop :=
  ∀ tasks task actions log s n, tasks task = some t →
    Traced.Run Timer.step (TasksOnly task) (started tasks) actions log s →
    additions task (wheelEvents log) = [n] → removals task (wheelEvents log) = [] →
    (s.tick = .returned → Periodic task t n log s) ∧ GoesOn task s

/-! ### The invariant -/

/-- What the tick that is under way has still to go through. -/
def flight : Tick → List TaskId
  | .returned => []
  | .slot curSlot => curSlot
  | .running _ curSlot => curSlot

/-- The callback of the task is running. -/
def busy (task : TaskId) : Tick → Bool
  | .running x _ => x == task
  | _ => false

/-- What the user has set of an object, and the wheel leaves alone. -/
def face (t : Task) : Option Nat × Int := (t.doit, t.setInterval)

/-- The object is what it was made as, or has been deleted, once. -/
def Owned (task : TaskId) (t : Task) (deletes : Nat) (w : Wheel) : Prop :=
  (w.tasks task).map face = some (face t) ∧ deletes = 0 ∨ w.tasks task = none ∧ deletes = 1

/-- The invariant of a run. -/
structure Clocked (task : TaskId) (t : Task) (log : List Timer.Event) (s : Timer) : Prop where
  working : s.isWorking_ = true
  short : t.setInterval ≤ SLOTNUM
  inv : TimeWheel.Inv task t s.wheel (flight s.tick) (wheelEvents log) (busy task s.tick)
  owned : Owned task t (log.count (.delete task)) s.wheel

section Clocked
variable {task x : TaskId} {t : Task} {log es : List Timer.Event} {s s' : Timer}

theorem wheelEvents_append (log es : List Timer.Event) :
    wheelEvents (log ++ es) = wheelEvents log ++ wheelEvents es :=
  List.filterMap_append

@[simp] theorem wheelEvents_map (fs : List TimeWheel.Event) : wheelEvents (fs.map .wheel) = fs := by
  rw [wheelEvents, List.filterMap_map]
  exact List.filterMap_some

theorem count_delete_map (fs : List TimeWheel.Event) :
    (fs.map Timer.Event.wheel).count (.delete task) = 0 := by
  refine List.count_eq_zero.mpr fun hmem => ?_
  obtain ⟨e, -, he⟩ := List.mem_map.mp hmem
  exact Timer.Event.noConfusion he

/-- An object that is changed, and has its face. -/
theorem map_face_update {w : Wheel} {u u' : Task} (hu : w.tasks x = some u)
    (hface : face u' = face u) :
    (Function.update w.tasks x (some u') task).map face = (w.tasks task).map face := by
  by_cases hx : task = x
  · rw [hx, Function.update_self, hu, Option.map_some, Option.map_some, hface]
  · rw [Function.update_of_ne hx]

/-- Where the faces are the same, and nothing is deleted, the object is still owned. -/
theorem Owned.congr {w w' : Wheel} {deletes : Nat} (h : Owned task t deletes w)
    (hface : (w'.tasks task).map face = (w.tasks task).map face) : Owned task t deletes w' := by
  rcases h with ⟨hsome, hzero⟩ | ⟨hnone, hone⟩
  · exact .inl ⟨hface.trans hsome, hzero⟩
  · refine .inr ⟨?_, hone⟩
    rw [hnone] at hface
    exact Option.map_eq_none_iff.mp hface

/-- `addTask` leaves the face of every object. -/
theorem addTask_face {w w' : Wheel} {fs : List TimeWheel.Event} {r : Int}
    (h : (addTask w x).Yields fs (w', r)) :
    (w'.tasks task).map face = (w.tasks task).map face := by
  rcases addTask_cases h with ⟨-, rfl, -⟩ | ⟨u, i, hu, -, -, -, -, -, rfl⟩
  · rfl
  · exact map_face_update hu rfl

/-- A step of the wheel that deletes nothing. -/
theorem Clocked.of_inv (h : Clocked task t log s) (hworking : s'.isWorking_ = true)
    (hinv : TimeWheel.Inv task t s'.wheel (flight s'.tick) (wheelEvents log ++ wheelEvents es)
      (busy task s'.tick))
    (hface : (s'.wheel.tasks task).map face = (s.wheel.tasks task).map face)
    (hdelete : es.count (.delete task) = 0) : Clocked task t (log ++ es) s' := by
  refine ⟨hworking, h.short, ?_, ?_⟩
  · rw [wheelEvents_append]
    exact hinv
  · rw [List.count_append, hdelete, Nat.add_zero]
    exact h.owned.congr hface

/-! ### The steps -/

theorem ensureStarted_of_working {sys : Syscalls} (h : s.isWorking_ = true) :
    s.ensureStarted sys = (S_OK, s) := by
  simp only [Timer.ensureStarted, h, if_true]

/-- `runAfter` of a task. -/
theorem Clocked.runAfter {sys : Syscalls} (h : Clocked task t log s)
    (hstep : (s.step (.runAfter sys x)).Yields es s') : Clocked task t (log ++ es) s' := by
  have hadds := runAfter_cases hstep
  rw [ensureStarted_of_working h.working] at hadds
  obtain ⟨hfails, -⟩ | ⟨-, fs, w, ret, hadd, rfl, rfl⟩ := hadds
  · exact absurd hfails (Int.lt_irrefl 0)
  refine h.of_inv h.working ?_ (addTask_face hadd) ?_
  · rw [wheelEvents_append, wheelEvents_map]
    have hend : wheelEvents (if ret = S_OK then [.runAfter x s.works] else []) = [] := by
      split
      · rfl
      · rfl
    rw [hend, List.append_nil]
    exact Ndsl.Proofs.TimeWheel.addTask_inv h.inv hadd
  · rw [List.count_append, count_delete_map]
    split
    · rfl
    · rfl

/-- `runAfter` of a new task, which is another one. -/
theorem Clocked.runAfterNew {sys : Syscalls} {ns : Int} {func : Option Nat} {param : Nat}
    (h : Clocked task t log s) (hx : x ≠ task)
    (hstep : (s.step (.runAfterNew sys x ns func param)).Yields es s') :
    Clocked task t (log ++ es) s' := by
  have hadds := runAfterNew_cases hstep
  rw [ensureStarted_of_working h.working] at hadds
  obtain ⟨hfails, -⟩ | ⟨-, fs, w, ret, hadd, rfl, rfl⟩ := hadds
  · exact absurd hfails (Int.lt_irrefl 0)
  -- the new object is another one
  have hother : ∀ o, (s.wheel.store x o).tasks task = s.wheel.tasks task :=
    fun o => Function.update_of_ne hx.symm ..
  refine h.of_inv h.working ?_ ?_ ?_
  · have hend : wheelEvents (.new x :: (fs.map .wheel ++
        if ret < 0 then [] else [.runAfter x s.works])) = fs := by
      show wheelEvents (fs.map .wheel ++ if ret < 0 then [] else [.runAfter x s.works]) = fs
      rw [wheelEvents_append, wheelEvents_map]
      split
      · exact List.append_nil fs
      · exact List.append_nil fs
    rw [hend]
    have hmade : TimeWheel.Inv task t (s.wheel.store x _) (flight s.tick) (wheelEvents log)
        (busy task s.tick) :=
      h.inv.frame (.refl task _) rfl rfl
        (hother { setInterval := ns, doit := func, param := param })
        (fun _ => rfl) rfl
    exact Ndsl.Proofs.TimeWheel.addTask_inv hmade hadd
  · rw [addTask_face hadd, hother]
  · rw [List.count_cons_of_ne (by simp), List.count_append, count_delete_map]
    split
    · rfl
    · rfl

/-- `cancelRunAfter`. -/
theorem Clocked.cancelRunAfter (h : Clocked task t log s)
    (hstep : (s.step (.cancelRunAfter x)).Yields es s') : Clocked task t (log ++ es) s' := by
  obtain ⟨fs, w, ret, hremove, rfl, rfl⟩ := cancelRunAfter_cases hstep
  have hface : (w.tasks task).map face = (s.wheel.tasks task).map face := by
    rcases removeTask_cases hremove with ⟨-, rfl, -⟩ | ⟨_, _, -, -, -, -, -, rfl⟩
    · rfl
    · rfl
  refine h.of_inv h.working ?_ hface (count_delete_map fs)
  rw [wheelEvents_map]
  exact Ndsl.Proofs.TimeWheel.removeTask_inv h.inv hremove

/-- A tick begins. -/
theorem Clocked.onTick {ret : ReadResult} (h : Clocked task t log s)
    (hreturned : s.tick = .returned) (hstep : (s.step (.onTick ret)).Yields es s') :
    Clocked task t (log ++ es) s' := by
  have hinv := h.inv
  rw [hreturned] at hinv
  have hswap := Ndsl.Proofs.TimeWheel.swap_inv hinv (TimeWheel.ready_of_short h.short)
  obtain ⟨rfl, rfl⟩ | ⟨rfl, hempty, rfl⟩ | ⟨rfl, rfl⟩ := onTick_cases hstep
  · rwa [List.append_nil]
  · -- an empty slot: emptying it does nothing
    refine h.of_inv h.working ?_ rfl rfl
    rw [hreturned]
    rw [hempty, Function.update_eq_self_iff.mpr hempty.symm] at hswap
    exact hswap
  · exact h.of_inv h.working hswap rfl rfl

/-- A turn of the loop at the first task in hand: its pointer is copied, or it is called. -/
theorem Clocked.turn {curSlot : List TaskId} (h : Clocked task t log s)
    (htick : s.tick = .slot (x :: curSlot)) (hstep : (s.step .next).Yields es s') :
    Clocked task t (log ++ es) s' := by
  have hinv := h.inv
  rw [htick] at hinv
  change TimeWheel.Inv task t s.wheel (x :: curSlot) (wheelEvents log) false at hinv
  obtain ⟨o, hobj, ⟨hround, rfl, rfl⟩ | ⟨-, func, -, rfl, rfl⟩⟩ := turn_cases htick hstep
  · refine h.of_inv h.working ?_ (map_face_update hobj rfl) rfl
    rw [htick]
    show TimeWheel.Inv task t _ (x :: curSlot) (wheelEvents log ++ []) false
    rw [List.append_nil]
    exact Ndsl.Proofs.TimeWheel.copy_inv hinv hobj hround
  · -- the task is called
    refine h.of_inv h.working ?_ rfl rfl
    show TimeWheel.Inv task t s.wheel curSlot (wheelEvents log ++ [.doit x func o.param])
      (x == task)
    by_cases hx : x = task
    · subst hx
      rw [beq_self_eq_true]
      exact Ndsl.Proofs.TimeWheel.doit_inv_self func o.param hinv hobj
    · rw [beq_eq_false_iff_ne.mpr hx]
      have hcall : TimeWheel.Inv task t s.wheel (x :: curSlot)
          (wheelEvents log ++ [.doit x func o.param]) false :=
        hinv.frame (Ndsl.Proofs.TimeWheel.sameFor_append (e := .doit x func o.param) hx _)
          (by simp [ticks]) rfl rfl (fun _ => rfl) rfl
      exact hcall.pop_of_ne hx rfl rfl fun _ => rfl

/-- The callback of a task has returned: the task is deleted, or put back. -/
theorem Clocked.callbackReturned {curSlot : List TaskId} (h : Clocked task t log s)
    (htick : s.tick = .running x curSlot) (hstep : (s.step .next).Yields es s') :
    Clocked task t (log ++ es) s' := by
  have hinv := h.inv
  rw [htick] at hinv
  change TimeWheel.Inv task t s.wheel curSlot (wheelEvents log) (x == task) at hinv
  obtain ⟨o, hobj, ⟨hzero, rfl, rfl⟩ | ⟨hmore, rfl, i, hsum, hi, rfl⟩⟩ :=
    callbackReturned_cases htick hstep
  · by_cases hx : x = task
    · subst hx
      rw [beq_self_eq_true] at hinv
      -- the object has not been deleted before
      have hone : log.count (.delete x) = 0 := by
        rcases h.owned with ⟨-, hzero⟩ | ⟨hnone, -⟩
        · exact hzero
        · exact absurd (hnone.symm.trans hobj) (Option.some_ne_none o).symm
      refine ⟨h.working, h.short, ?_, .inr ⟨Function.update_self .., ?_⟩⟩
      · rw [wheelEvents_append]
        show TimeWheel.Inv x t _ curSlot (wheelEvents log ++ []) false
        rw [List.append_nil]
        exact Ndsl.Proofs.TimeWheel.end_inv_self hinv hobj (.inl ⟨hzero, rfl⟩)
      · rw [List.count_append, hone]
        simp
    · rw [beq_eq_false_iff_ne.mpr hx] at hinv
      have hother : (s.wheel.free x).tasks task = s.wheel.tasks task :=
        Function.update_of_ne (Ne.symm hx) ..
      refine h.of_inv h.working ?_ (by rw [hother]) ?_
      · show TimeWheel.Inv task t _ curSlot (wheelEvents log ++ []) false
        rw [List.append_nil]
        exact hinv.frame (.refl task _) rfl rfl hother (fun _ => rfl) rfl
      · simp [hx]
  · refine h.of_inv h.working ?_ (map_face_update hobj rfl) rfl
    show TimeWheel.Inv task t _ curSlot (wheelEvents log ++ []) false
    rw [List.append_nil]
    by_cases hx : x = task
    · subst hx
      rw [beq_self_eq_true] at hinv
      exact Ndsl.Proofs.TimeWheel.end_inv_self hinv hobj (.inr ⟨i, hmore, hsum, hi, rfl⟩)
    · rw [beq_eq_false_iff_ne.mpr hx] at hinv
      refine hinv.frame (.refl task _) rfl rfl (Function.update_of_ne (Ne.symm hx) ..)
        (fun j => ?_) rfl
      rw [count_pushBack]
      simp [hx]

/-- Every step keeps the invariant. -/
theorem Clocked.step {action : Timer.Action} (h : Clocked task t log s)
    (hpossible : TasksOnly task s action) (hstep : (s.step action).Yields es s') :
    Clocked task t (log ++ es) s' := by
  cases action with
  | runAfter sys x => exact h.runAfter hstep
  | runAfterNew sys x ns func param => exact h.runAfterNew hpossible.2 hstep
  | cancelRunAfter x => exact h.cancelRunAfter hstep
  | start sys => exact hpossible.2.elim
  | stop timerfd_settime => exact hpossible.2.elim
  | onTick ret => exact h.onTick hpossible.1 hstep
  | next =>
      obtain htick | ⟨x, curSlot, htick⟩ | ⟨x, curSlot, htick⟩ := tick_cases s
      · obtain ⟨rfl, rfl⟩ := idle_cases htick hstep
        refine h.of_inv h.working ?_ rfl rfl
        have hinv := h.inv
        show TimeWheel.Inv task t s.wheel [] (wheelEvents log ++ []) false
        rw [List.append_nil]
        rcases htick with htick | htick
        · rwa [htick] at hinv
        · rwa [htick] at hinv
      · exact h.turn htick hstep
      · exact h.callbackReturned htick hstep

/-- What holds in every state of a run. -/
theorem clocked_of_run {tasks : TaskId → Option Task} {actions : List Timer.Action}
    (hobj : tasks task = some t) (hshort : t.setInterval ≤ SLOTNUM)
    (hrun : Traced.Run Timer.step (TasksOnly task) (started tasks) actions log s) :
    Clocked task t log s := by
  refine hrun.invariant (P := fun _ log s => Clocked task t log s) ?_ ?_
  · refine ⟨rfl, hshort, Ndsl.Proofs.TimeWheel.inv_init hobj, .inl ⟨?_, rfl⟩⟩
    show (tasks task).map face = _
    rw [hobj]
    rfl
  · intro l log s action es s' h hpossible hstep
    exact h.step hpossible hstep

/-! ### What the invariant says of the calls -/

theorem every_pos (t : Task) : 0 < every t := Nat.le_max_left 1 _

/-- The calls are as far apart as the first one is from the addition. For the interval zero this is
true of the first one. -/
theorem due_eq {n j : Nat} (h : 1 ≤ t.setInterval ∨ j = 0) :
    Ndsl.Proofs.TimeWheel.due t n j = n + (j + 1) * every t := by
  have hdeadline : deadline t n = n + every t := by
    rw [deadline, every, Nat.max_comm]
  rw [Ndsl.Proofs.TimeWheel.due, hdeadline, Nat.succ_mul]
  rcases h with hk | rfl
  · have hperiod : period t = every t := by
      unfold period every
      rw [if_neg (by omega)]
      omega
    rw [hperiod]
    omega
  · rw [Nat.zero_mul, Nat.zero_mul]
    omega

theorem dues_eq {n c : Nat} (h : 1 ≤ t.setInterval ∨ c ≤ 1) :
    dues t n c = (List.range c).map fun j => n + (j + 1) * every t := by
  refine List.map_congr_left fun j hj => due_eq (h.imp_right fun hc => ?_)
  have := List.mem_range.mp hj
  omega

/-- Between the call number `j` and the next one, `j` calls have been made. -/
theorem div_every {n m j : Nat} (hle : j = 0 ∨ n + j * every t ≤ m)
    (hlt : m < n + (j + 1) * every t) (hn : n ≤ m) : (m - n) / every t = j := by
  refine Nat.div_eq_of_lt_le ?_ ?_
  · rcases hle with rfl | hle
    · rw [Nat.zero_mul]
      exact Nat.zero_le _
    · omega
  · omega

/-- A task that was added once, and not removed, has been on the wheel since then. -/
theorem since_of_additions {n : Nat} {w : Wheel} {l : List TaskId} {b : Bool}
    {log : List TimeWheel.Event} (h : TimeWheel.Inv task t w l log b)
    (hadd : additions task log = [n]) (hrem : removals task log = []) :
    (life task log).twice = false ∧ (life task log).since = some n ∧
      firings task log = (life task log).calls := by
  obtain ⟨hlast, hlength⟩ := Ndsl.Proofs.TimeWheel.additions_of_life task log
  have htwice : (life task log).twice = false := by
    by_contra htrue
    have hle := hlength (Bool.not_eq_false _ ▸ htrue)
    rw [hadd, List.length_singleton] at hle
    exact absurd hle (by decide)
  have hcount := (h.account htwice).count
  rw [hadd, hrem] at hcount
  refine ⟨htwice, ?_, (h.account htwice).first (by rw [hadd]; rfl)⟩
  cases hsince : (life task log).since with
  | none =>
      rw [hsince] at hcount
      simp at hcount
  | some m =>
      have hm := hlast m hsince
      rw [hadd] at hm
      exact hm.symm

/-- Between two ticks, a task that keeps its period has been called at its times. -/
theorem Clocked.periodic {n : Nat} (h : Clocked task t log s) (hproper : Proper t)
    (hkeeps : 1 ≤ t.setInterval ∨ t.times = 1) (hadd : additions task (wheelEvents log) = [n])
    (hrem : removals task (wheelEvents log) = []) (hreturned : s.tick = .returned) :
    Periodic task t n log s := by
  have hinv := h.inv
  rw [hreturned] at hinv
  obtain ⟨htwice, hsince, hfirings⟩ := since_of_additions hinv hadd hrem
  have hn : n ≤ ticks (wheelEvents log) := by
    have hmem : n ∈ additions task (wheelEvents log) := hadd ▸ List.mem_singleton_self n
    have hle := Ndsl.Proofs.TimeWheel.le_of_mem_stamps hmem
    omega
  have hstamp : ∀ m ∈ firings task (wheelEvents log), m ≤ ticks (wheelEvents log) := by
    intro m hmem
    have hle := Ndsl.Proofs.TimeWheel.le_of_mem_stamps hmem
    omega
  have hpos := every_pos t
  cases hinv.tracked htwice with
  | out _ hnone => exact absurd (hnone.symm.trans hsince) (by simp)
  | flying _ _ _ _ _ _ _ hflight => exact absurd hflight (by simp [flight])
  | waiting m j u hm hcalls _ hslot _ hobj hleft _ hlt _ =>
      obtain rfl : m = n := Option.some.inj (hm.symm.trans hsince)
      rw [hcalls] at hfirings
      have hlength : (firings task (wheelEvents log)).length = j := by
        rw [hfirings, dues, List.length_map, List.length_range]
      rw [hlength] at hleft
      -- a task that is called once waits for its first call
      have hj : 1 ≤ t.setInterval ∨ j = 0 := hkeeps.imp_right fun hone => by
        have := hleft.left (by omega)
        omega
      have hlast : j = 0 ∨ m + j * every t ≤ ticks (wheelEvents log) := by
        cases j with
        | zero => exact .inl rfl
        | succ j =>
            refine .inr (hstamp _ ?_)
            rw [hfirings, dues_eq (hj.imp_right fun hzero => by omega)]
            exact List.mem_map.mpr ⟨j, List.mem_range.mpr (Nat.lt_succ_self j), rfl⟩
      have hdiv : (ticks (wheelEvents log) - m) / every t = j := by
        refine div_every hlast ?_ hn
        rw [← due_eq hj]
        exact hlt
      have hcallsBy : callsBy t (ticks (wheelEvents log) - m) = j := by
        unfold callsBy
        rw [hdiv]
        split
        · next hpositive =>
          have := hleft.left hpositive
          omega
        · rfl
      have hnot : (j : Int) ≠ t.times := by
        intro heq
        rcases hproper.times with hone | hneg
        · have := hleft.left (by omega)
          omega
        · omega
      have hzero : log.count (.delete task) = 0 := by
        rcases h.owned with ⟨-, hzero⟩ | ⟨hnone, -⟩
        · exact hzero
        · exact absurd (hnone.symm.trans hobj) (Option.some_ne_none u).symm
      refine ⟨?_, fun heq => ?_, fun _ => ⟨⟨_, hslot⟩, hzero⟩⟩
      · rw [hcallsBy, hfirings, dues_eq (hj.imp_right fun hzero => by omega)]
      · rw [hcallsBy] at heq
        exact absurd heq hnot
  | finished m j hm hcalls habsent hobj hover hle =>
      obtain rfl : m = n := Option.some.inj (hm.symm.trans hsince)
      rw [hcalls] at hfirings
      have hlength : (firings task (wheelEvents log)).length = j + 1 := by
        rw [hfirings, dues, List.length_map, List.length_range]
      rw [hlength, timesLeft] at hover
      -- the last call has the number of `times`
      have htimes : t.times = j + 1 := by
        split at hover
        · omega
        · next hneg =>
          rcases hproper.times with hone | hminus
          · exact absurd (by omega) hneg
          · omega
      have hj : 1 ≤ t.setInterval ∨ j = 0 := hkeeps.imp_right fun hone => by omega
      have hdiv : j + 1 ≤ (ticks (wheelEvents log) - m) / every t := by
        refine (Nat.le_div_iff_mul_le hpos).mpr ?_
        rw [due_eq hj] at hle
        omega
      have hcallsBy : callsBy t (ticks (wheelEvents log) - m) = j + 1 := by
        unfold callsBy
        rw [if_pos (by omega)]
        omega
      have hone : log.count (.delete task) = 1 := by
        rcases h.owned with ⟨hsome, -⟩ | ⟨-, hone⟩
        · rw [hobj] at hsome
          exact absurd hsome (Option.some_ne_none _).symm
        · exact hone
      refine ⟨?_, fun _ => ⟨fun i hmem => ?_, hobj, hone⟩, fun hne => absurd ?_ hne⟩
      · rw [hcallsBy, hfirings, dues_eq (hj.imp_right fun hzero => by omega)]
      · exact absurd (habsent.slots i) (Nat.ne_of_gt (List.count_pos_iff.mpr hmem))
      · rw [hcallsBy, htimes]
        rfl

/-! ### The tick does not stop -/

/-- The tick does not stop at a task that was made properly. -/
theorem Clocked.goesOn {n : Nat} (h : Clocked task t log s) (hproper : Proper t)
    (hadd : additions task (wheelEvents log) = [n])
    (hrem : removals task (wheelEvents log) = []) : GoesOn task s := by
  intro curSlot hcur
  obtain ⟨htwice, hsince, -⟩ := since_of_additions h.inv hadd hrem
  -- the object is there
  have hobj : ∃ u, s.wheel.tasks task = some u := by
    rcases hcur with htick | htick
    · have hcount : (flight s.tick).count task ≠ 0 := by
        rw [htick]
        simp [flight]
      have hbusy : busy task s.tick = false := by
        rw [htick]
        rfl
      have htracked := h.inv.tracked htwice
      rw [hbusy] at htracked
      cases htracked with
      | out u _ _ hobj => exact ⟨u, hobj⟩
      | waiting _ _ u _ _ _ _ _ hobj => exact ⟨u, hobj⟩
      | flying _ _ u _ _ _ _ _ hobj => exact ⟨u, hobj⟩
      | finished _ _ _ _ habsent => exact absurd habsent.flight hcount
    · have hbusy : busy task s.tick = true := by
        rw [htick]
        exact beq_self_eq_true task
      have htracked := h.inv.tracked htwice
      rw [hbusy] at htracked
      cases htracked with
      | running _ _ _ u _ _ _ _ hobj => exact ⟨u, hobj⟩
  obtain ⟨u, hobj⟩ := hobj
  have hface : face u = face t := by
    rcases h.owned with ⟨hsome, -⟩ | ⟨hnone, -⟩
    · rw [hobj] at hsome
      exact Option.some.inj hsome
    · exact absurd (hnone.symm.trans hobj) (Option.some_ne_none u).symm
  obtain ⟨hdoit, hinterval⟩ := Prod.mk.inj hface
  have hread : Timer.onWheel (s.wheel.deref task) = pure u := by
    rw [Wheel.deref, hobj]
    rfl
  rcases hcur with htick | htick
  · simp only [Timer.step, Timer.next, htick, hread, Traced.pure_bind]
    split
    · exact ⟨_, _, (Traced.pure_yields ..).mpr ⟨rfl, rfl⟩⟩
    · cases hfunc : u.doit with
      | none => exact absurd (hdoit.symm.trans hfunc) hproper.doit
      | some func => exact ⟨_, _, (Traced.tell_pure_yields ..).mpr ⟨rfl, rfl⟩⟩
  · have htimes : (if u.times > 0 then u.times - 1 else u.times) = timesAfter u.times := rfl
    simp only [Timer.step, Timer.next, htick, hread, Traced.pure_bind, htimes]
    split
    · exact ⟨_, _, (Traced.tell_pure_yields ..).mpr ⟨rfl, rfl⟩⟩
    · -- the sum does not overflow
      have hsum : 0 ≤ (s.wheel.curTick : Int) + u.setInterval ∧
          (s.wheel.curTick : Int) + u.setInterval ≤ INT_MAX := by
        have hnonneg := hproper.nonneg
        have hshort : t.setInterval ≤ 60 := h.short
        have hcurTick : s.wheel.curTick.val < 60 := s.wheel.curTick.isLt
        rw [hinterval]
        unfold INT_MAX
        constructor <;> omega
      rw [slotAfter, if_pos hsum]
      exact ⟨_, _, (Traced.pure_yields ..).mpr ⟨rfl, rfl⟩⟩

/-! ### A task with the interval zero -/

/-- A task that `addTask` accepts. -/
theorem runAfter_of_valid {sys : Syscalls} {u : Task} {i : Fin SLOTNUM}
    (hworking : s.isWorking_ = true) (hobj : s.wheel.tasks x = some u)
    (hvalid : ¬ (u.setInterval < 0 ∨ u.doit = none))
    (hslot : slotAfter s.wheel.curTick (if u.setInterval = 0 then 1 else u.setInterval) = pure i) :
    (s.step (.runAfter sys x)).Yields [.wheel (.added x), .runAfter x s.works] { s with
      wheel := (s.wheel.store x { u with
        setTick := some i
        restInterval := u.setInterval }).pushBack i x } := by
  have hadd := Ndsl.Proofs.TimeWheel.addTask_of_valid hobj hvalid hslot
  have hcall := onWheel_yields.mpr ⟨_, hadd, rfl⟩
  refine Traced.bind_yields.mpr ⟨[.wheel (.added x), .runAfter x s.works], (S_OK, _), [], ?_,
    (Traced.pure_yields ..).mpr ⟨rfl, rfl⟩, rfl⟩
  unfold Timer.runAfter
  rw [ensureStarted_of_working hworking]
  refine Traced.bind_yields.mpr ⟨_, _, _, hcall, ?_, rfl⟩
  exact (Traced.tell_pure_yields ..).mpr ⟨rfl, rfl⟩

/-- A tick whose slot is empty. -/
theorem onTick_of_empty {n : Nat} (hempty : s.wheel.slot (nextTick s.wheel.curTick) = []) :
    (s.step (.onTick (.expirations n))).Yields [.wheel .tick]
      { s with wheel := { s.wheel with curTick := nextTick s.wheel.curTick } } := by
  show (Traced.tell [Timer.Event.wheel .tick] >>= fun _ =>
    if s.wheel.slot (nextTick s.wheel.curTick) = [] then _ else _).Yields _ _
  rw [if_pos hempty]
  exact (Traced.tell_pure_yields ..).mpr ⟨rfl, rfl⟩

/-- A tick takes its slot out of the wheel. -/
theorem onTick_of_ne {n : Nat} (hne : s.wheel.slot (nextTick s.wheel.curTick) ≠ []) :
    (s.step (.onTick (.expirations n))).Yields [.wheel .tick] { s with
      wheel := { s.wheel with
        curTick := nextTick s.wheel.curTick
        slot := Function.update s.wheel.slot (nextTick s.wheel.curTick) [] }
      tick := .slot (s.wheel.slot (nextTick s.wheel.curTick)) } := by
  show (Traced.tell [Timer.Event.wheel .tick] >>= fun _ =>
    if s.wheel.slot (nextTick s.wheel.curTick) = [] then _ else _).Yields _ _
  rw [if_neg hne]
  exact (Traced.tell_pure_yields ..).mpr ⟨rfl, rfl⟩

/-- A task without rounds to go is called. -/
theorem next_of_call {u : Task} {l : List TaskId} {func : Nat}
    (htick : s.tick = .slot (x :: l)) (hobj : s.wheel.tasks x = some u)
    (hround : ¬ u.restInterval > SLOTNUM) (hdoit : u.doit = some func) :
    (s.step .next).Yields [.wheel (.doit x func u.param)] { s with tick := .running x l } := by
  have hread : Timer.onWheel (s.wheel.deref x) = pure u := by
    rw [Wheel.deref, hobj]
    rfl
  simp only [Timer.step, Timer.next, htick, hread, Traced.pure_bind, hdoit]
  rw [if_neg hround]
  exact (Traced.tell_pure_yields ..).mpr ⟨rfl, rfl⟩

/-- A task that has calls to come is put ahead by its interval. -/
theorem next_of_again {u : Task} {curSlot : List TaskId} {i : Fin SLOTNUM}
    (htick : s.tick = .running x curSlot) (hobj : s.wheel.tasks x = some u)
    (htimes : timesAfter u.times ≠ 0) (hslot : slotAfter s.wheel.curTick u.setInterval = pure i) :
    (s.step .next).Yields [] { s with
      wheel := (s.wheel.store x { u with
        times := timesAfter u.times
        setTick := some i
        restInterval := u.setInterval }).pushBack i x
      tick := .slot curSlot } := by
  have hread : Timer.onWheel (s.wheel.deref x) = pure u := by
    rw [Wheel.deref, hobj]
    rfl
  have hafter : (if u.times > 0 then u.times - 1 else u.times) = timesAfter u.times := rfl
  simp only [Timer.step, Timer.next, htick, hread, Traced.pure_bind, hafter, hslot]
  rw [if_neg htimes]
  exact (Traced.pure_yields ..).mpr ⟨rfl, rfl⟩

/-- A tick that has served its slot returns. -/
theorem next_of_served (htick : s.tick = .slot []) :
    (s.step .next).Yields [] { s with tick := .returned } := by
  simp only [Timer.step, Timer.next, htick]
  exact (Traced.pure_yields ..).mpr ⟨rfl, rfl⟩

theorem tasksOnly_next (s : Timer) : TasksOnly task s .next := ⟨trivial, trivial⟩

theorem tasksOnly_onTick {ret : ReadResult} (h : s.tick = .returned) :
    TasksOnly task s (.onTick ret) := ⟨h, trivial⟩

/-- The task with the interval zero is called at the next tick. -/
theorem interval_zero_first {func : Nat} {one : Fin SLOTNUM} (hone : one.val = 1)
    (hworking : s.isWorking_ = true) (hreturned : s.tick = .returned)
    (hobj : s.wheel.tasks x = some t) (hcurTick : s.wheel.curTick.val = 0)
    (hempty : ∀ i, s.wheel.slot i = []) (hzero : t.setInterval = 0) (hdoit : t.doit = some func) :
    ∃ log v u, Traced.Run Timer.step (TasksOnly x) s
      [.runAfter {} x, .onTick (.expirations 1), .next] log v ∧ v.tick = .running x [] ∧
      v.wheel.tasks x = some u ∧ u.times = t.times ∧ u.setInterval = 0 ∧
      v.wheel.curTick = one ∧ (∀ i, v.wheel.slot i = []) ∧
      wheelEvents log = [.added x, .tick, .doit x func t.param] := by
  have hvalid : ¬ (t.setInterval < 0 ∨ t.doit = none) := by
    rw [hzero, hdoit]
    simp
  have hslot : slotAfter s.wheel.curTick (if t.setInterval = 0 then 1 else t.setInterval) =
      pure one := by
    rw [if_pos hzero]
    apply slotAfter_eq <;> rw [hcurTick] <;> simp [hone, INT_MAX, SLOTNUM]
  have hround : ¬ t.setInterval > SLOTNUM := by
    rw [hzero]
    decide
  have hpossible : TasksOnly x s (.runAfter {} x) := by
    refine ⟨⟨fun curSlot htick => ?_, fun errno hmem => ?_⟩, trivial⟩
    · exact Tick.noConfusion (hreturned.symm.trans htick)
    · simp at hmem
  have hadded := Traced.Run.snoc (l := []) .nil hpossible
    (runAfter_of_valid hworking hobj hvalid hslot)
  -- it stands alone in the next slot
  have hnext : nextTick s.wheel.curTick = one := by
    apply Fin.ext
    rw [nextTick_val, hcurTick, hone]
    rfl
  have hin : Function.update s.wheel.slot one (s.wheel.slot one ++ [x])
      (nextTick s.wheel.curTick) = [x] := by
    rw [hnext, Function.update_self, hempty]
    rfl
  have hticked := Traced.Run.snoc hadded (tasksOnly_onTick hreturned)
    (onTick_of_ne (n := 1) (fun hnil => List.cons_ne_nil x [] (hin.symm.trans hnil)))
  have hcalled := Traced.Run.snoc hticked (tasksOnly_next _)
    (next_of_call (l := []) (congrArg Tick.slot hin) (Function.update_self ..) hround hdoit)
  refine ⟨_, _, _, hcalled, rfl, Function.update_self .., rfl, hzero, hnext, fun i => ?_, rfl⟩
  show Function.update (Function.update s.wheel.slot one _) (nextTick s.wheel.curTick) [] i = []
  rw [hnext]
  by_cases hi : i = one
  · rw [hi, Function.update_self]
  · rw [Function.update_of_ne hi, Function.update_of_ne hi]
    exact hempty i

/-- A task with the interval zero that is called more than once: in two ticks it is called once. -/
theorem interval_zero_run {t : Task} {func : Nat} (hzero : t.setInterval = 0)
    (hdoit : t.doit = some func) (htimes : timesAfter t.times ≠ 0) :
    ∃ log s, Traced.Run Timer.step (TasksOnly 0) (started fun _ => some t)
      [.runAfter {} 0, .onTick (.expirations 1), .next, .next, .next, .onTick (.expirations 1)]
      log s ∧ s.tick = .returned ∧
      wheelEvents log = [.added 0, .tick, .doit 0 func t.param, .tick] := by
  obtain ⟨one, hone⟩ : ∃ one : Fin SLOTNUM, one.val = 1 := ⟨⟨1, by decide⟩, rfl⟩
  obtain ⟨log, s, u, hrun, htick, hobj, hu, hinterval, hcurTick, hempty, hlog⟩ :=
    interval_zero_first (s := started fun _ => some t) (x := 0) hone rfl rfl rfl rfl (fun _ => rfl)
      hzero hdoit
  -- it goes back into the slot that is being served
  have hslot : slotAfter s.wheel.curTick u.setInterval = pure one := by
    rw [hcurTick, hinterval]
    apply slotAfter_eq <;> simp [hone, INT_MAX, SLOTNUM]
  have hagain := Traced.Run.snoc hrun (tasksOnly_next s)
    (next_of_again htick hobj (hu ▸ htimes) hslot)
  have hreturned := Traced.Run.snoc hagain (tasksOnly_next _) (next_of_served rfl)
  have hne : nextTick s.wheel.curTick ≠ one := by
    intro heq
    have hval := congrArg Fin.val heq
    rw [nextTick_val, hcurTick, hone] at hval
    exact absurd hval (by decide)
  have hticked := Traced.Run.snoc hreturned (tasksOnly_onTick rfl) (onTick_of_empty (n := 1) (by
    show Function.update s.wheel.slot one _ (nextTick s.wheel.curTick) = []
    rw [Function.update_of_ne hne]
    exact hempty _))
  refine ⟨_, _, hticked, rfl, ?_⟩
  rw [wheelEvents_append, wheelEvents_append, wheelEvents_append, hlog]
  rfl

/-- Such a task does not keep its period. -/
theorem not_keepsPeriod {t : Task} (hproper : Proper t) (hzero : t.setInterval = 0)
    (htimes : t.times ≠ 1) : ¬ KeepsPeriod t := by
  intro hkeeps
  obtain ⟨func, hdoit⟩ := Option.ne_none_iff_exists'.mp hproper.doit
  have hleft : timesAfter t.times ≠ 0 := by
    have := hproper.times
    unfold timesAfter
    split <;> omega
  obtain ⟨log, s, hrun, hreturned, hlog⟩ := interval_zero_run hzero hdoit hleft
  have hperiodic := (hkeeps _ 0 _ log s 0 rfl hrun (by rw [hlog]; rfl) (by rw [hlog]; rfl)).1
    hreturned
  -- two ticks have passed, and there was one call
  have hcalls := congrArg List.length hperiodic.calls
  have hfirings : firings 0 (wheelEvents log) = [1] := by rw [hlog]; rfl
  have hticks : ticks (wheelEvents log) = 2 := by rw [hlog]; rfl
  have hcallsBy : callsBy t 2 = 2 := by
    have hevery : every t = 1 := by
      unfold every
      omega
    have := hproper.times
    unfold callsBy
    rw [hevery]
    split <;> omega
  rw [hfirings, hticks, List.length_map, List.length_range, Nat.sub_zero, hcallsBy] at hcalls
  exact absurd hcalls (by decide)

/-! ### A task with more than a round to go -/

section Early
variable {s₀ : Timer} {l : List Timer.Action} {u : Task} {func : Nat}

/-- Ticks whose slots are empty. -/
theorem idle_ticks (hrun : Traced.Run Timer.step (TasksOnly x) s₀ l log s)
    (hreturned : s.tick = .returned) (hcur : s.wheel.curTick = slotOf 0) :
    ∀ {r : Nat}, (∀ m, m < r → s.wheel.slot (slotOf (m + 1)) = []) →
      ∃ l' log', Traced.Run Timer.step (TasksOnly x) s₀ l' log'
        { s with wheel := { s.wheel with curTick := slotOf r } } ∧
        wheelEvents log' = wheelEvents log ++ List.replicate r .tick := by
  intro r
  induction r with
  | zero =>
      intro _
      refine ⟨l, log, ?_, (List.append_nil _).symm⟩
      rw [← hcur]
      exact hrun
  | succ r ih =>
      intro hempty
      obtain ⟨l', log', hrun', hlog⟩ := ih fun m hm => hempty m (Nat.lt_succ_of_lt hm)
      have hticked := Traced.Run.snoc hrun' (tasksOnly_onTick hreturned)
        (onTick_of_empty (n := 1) (by
          show s.wheel.slot (nextTick (slotOf r)) = []
          rw [slotOf_succ]
          exact hempty r (Nat.lt_succ_self r)))
      refine ⟨l' ++ [.onTick (.expirations 1)], log' ++ [.wheel .tick], ?_, ?_⟩
      · rw [← slotOf_succ]
        exact hticked
      · rw [wheelEvents_append, hlog, List.replicate_succ', List.append_assoc]
        rfl

/-- A task with more than a round to go stays in hand. -/
theorem next_of_round {curSlot : List TaskId} (htick : s.tick = .slot (x :: curSlot))
    (hobj : s.wheel.tasks x = some u) (hround : u.restInterval > SLOTNUM) :
    (s.step .next).Yields [] { s with
      wheel := (s.wheel.store x { u with
        restInterval := u.restInterval - SLOTNUM }).pushBack s.wheel.curTick x
      tick := .slot (x :: curSlot) } := by
  have hread : Timer.onWheel (s.wheel.deref x) = pure u := by
    rw [Wheel.deref, hobj]
    rfl
  simp only [Timer.step, Timer.next, htick, hread, Traced.pure_bind]
  rw [if_pos hround]
  exact (Traced.pure_yields ..).mpr ⟨rfl, rfl⟩

/-- A tick goes through the rounds of a task one after the other, and calls it. -/
theorem rounds_run (hrun : Traced.Run Timer.step (TasksOnly x) s₀ l log s)
    (htick : s.tick = .slot [x]) (hobj : s.wheel.tasks x = some u) (hdoit : u.doit = some func) :
    ∃ l' log' s' u', Traced.Run Timer.step (TasksOnly x) s₀ l' log' s' ∧
      wheelEvents log' = wheelEvents log ++ [.doit x func u.param] ∧ s'.tick = .running x [] ∧
      s'.wheel.tasks x = some u' ∧ u'.setInterval = u.setInterval := by
  induction hrest : u.restInterval.toNat using Nat.strong_induction_on
    generalizing l log s u with
  | _ n ih =>
  by_cases hround : u.restInterval > SLOTNUM
  · -- one round less, and the task stays in hand
    have hturn := Traced.Run.snoc hrun (tasksOnly_next s) (next_of_round htick hobj hround)
    have hless : (u.restInterval - SLOTNUM).toNat < n := by
      unfold SLOTNUM at hround ⊢
      omega
    obtain ⟨l', log', s', u', hrun', hlog, hrest'⟩ := ih _ hless hturn rfl
      (Function.update_self ..) hdoit rfl
    refine ⟨l', log', s', u', hrun', ?_, hrest'⟩
    rw [hlog, wheelEvents_append]
    show wheelEvents log ++ [] ++ _ = _
    rw [List.append_nil]
  · have hcalled := Traced.Run.snoc hrun (tasksOnly_next s)
      (next_of_call (l := []) htick hobj hround hdoit)
    exact ⟨_, _, _, u, hcalled, wheelEvents_append .., rfl, hobj, rfl⟩

/-- What a tick does behind the last callback of its slot is told by no event of the wheel. -/
theorem next_of_returned (htick : s.tick = .running x []) (hobj : s.wheel.tasks x = some u)
    (hstep : (s.step .next).Yields es s') : wheelEvents es = [] ∧ s'.tick = .slot [] := by
  have hread : Timer.onWheel (s.wheel.deref x) = pure u := by
    rw [Wheel.deref, hobj]
    rfl
  have hafter : (if u.times > 0 then u.times - 1 else u.times) = timesAfter u.times := rfl
  simp only [Timer.step, Timer.next, htick, hread, Traced.pure_bind, hafter] at hstep
  split at hstep
  · obtain ⟨rfl, rfl⟩ := (Traced.tell_pure_yields ..).mp hstep
    exact ⟨rfl, rfl⟩
  · obtain ⟨fs, i, gs, hslot, hend, rfl⟩ := Traced.bind_yields.mp hstep
    obtain ⟨hs, hafter, rfl⟩ := onWheel_yields.mp hslot
    obtain ⟨rfl, rfl⟩ := (Traced.pure_yields ..).mp hend
    obtain ⟨rfl, -⟩ := slotAfter_yields hafter
    exact ⟨rfl, rfl⟩

/-- A task with more than a round to go is called at the first visit of its slot. -/
theorem early_ticks {t : Task} (hdoit : t.doit = some func) (hlong : SLOTNUM < t.setInterval)
    (hmax : t.setInterval ≤ INT_MAX) :
    ∃ l log s u, Traced.Run Timer.step (TasksOnly 0) (started fun _ => some t) l log s ∧
      s.tick = .running 0 [] ∧ s.wheel.tasks 0 = some u ∧ wheelEvents log =
        .added 0 :: List.replicate (firstVisit t) .tick ++ [.doit 0 func t.param] := by
  have hk : (60 : Int) < t.setInterval := hlong
  have hvalid : ¬ (t.setInterval < 0 ∨ t.doit = none) := by
    rw [hdoit]
    simp
    omega
  have hpossible : TasksOnly 0 (started fun _ => some t) (.runAfter {} 0) := by
    refine ⟨⟨fun curSlot => Tick.noConfusion, fun errno hmem => ?_⟩, trivial⟩
    simp at hmem
  have hadded := Traced.Run.snoc (l := []) .nil hpossible (runAfter_of_valid rfl rfl hvalid
    (Ndsl.Proofs.TimeWheel.slotAfter_firstVisit hlong hmax))
  obtain ⟨r, hr⟩ : ∃ r, firstVisit t = r + 1 := ⟨_, rfl⟩
  -- the slots before its own are empty
  obtain ⟨l, log, hidle, hlog⟩ := idle_ticks hadded rfl rfl (r := r) fun m hm =>
    Function.update_of_ne (Ndsl.Proofs.TimeWheel.slotOf_ne_firstVisit hr hm) ..
  have halone : Function.update (fun _ => ([] : List TaskId)) (slotOf (firstVisit t)) ([] ++ [0])
      (nextTick (slotOf r)) = [0] := by
    rw [slotOf_succ, ← hr, Function.update_self]
    rfl
  have hticked := Traced.Run.snoc hidle (tasksOnly_onTick rfl)
    (onTick_of_ne (n := 1) fun hnil => List.cons_ne_nil 0 [] (halone.symm.trans hnil))
  have hput : Function.update (fun _ : TaskId => some t) 0
      (some { t with setTick := some (slotOf (firstVisit t)), restInterval := t.setInterval }) 0 =
      some { t with setTick := some (slotOf (firstVisit t)), restInterval := t.setInterval } :=
    Function.update_self ..
  obtain ⟨l, log, s, u, hcalled, hlog', htick, hobj, hinterval⟩ := rounds_run hticked
    (congrArg Tick.slot halone) hput hdoit
  refine ⟨_, _, _, u, hcalled, htick, hobj, ?_⟩
  rw [hlog', wheelEvents_append, hlog, hr, List.replicate_succ']
  simp [wheelEvents]

/-- Such a task does not keep its period. -/
theorem not_keepsPeriod_of_long {t : Task} (hproper : Proper t) (hlong : SLOTNUM < t.setInterval) :
    ¬ KeepsPeriod t := by
  intro hkeeps
  obtain ⟨func, hdoit⟩ := Option.ne_none_iff_exists'.mp hproper.doit
  obtain ⟨l, log, s, u, hrun, htick, hobj, hlog⟩ := early_ticks hdoit hlong hproper.le
  obtain ⟨hticks, hadd, hrem, hfire⟩ :=
    Ndsl.Proofs.TimeWheel.early_log (firstVisit t) func t.param
  rw [← hlog] at hticks hadd hrem hfire
  -- the tick goes on behind the callback, and returns
  obtain ⟨es, v, hgoes⟩ := (hkeeps _ 0 _ log s 0 rfl hrun hadd hrem).2 [] (.inr htick)
  obtain ⟨hes, hserved⟩ := next_of_returned htick hobj hgoes
  have hreturned := Traced.Run.snoc (Traced.Run.snoc hrun (tasksOnly_next s) hgoes)
    (tasksOnly_next v) (next_of_served hserved)
  have hsame : wheelEvents (log ++ es ++ []) = wheelEvents log := by
    rw [List.append_nil, wheelEvents_append, hes, List.append_nil]
  rw [← hsame] at hticks hadd hrem hfire
  have hcalls := ((hkeeps _ 0 _ _ _ 0 rfl hreturned hadd hrem).1 rfl).calls
  -- the task was called before its first time
  have hnone : callsBy t (firstVisit t - 0) = 0 := by
    have hk : (60 : Int) < t.setInterval := hlong
    have hfirst : firstVisit t ≤ 60 := Ndsl.Proofs.TimeWheel.firstVisit_le t
    have hdiv : (firstVisit t - 0) / every t = 0 := by
      refine Nat.div_eq_of_lt ?_
      unfold every
      omega
    unfold callsBy
    rw [hdiv]
    split
    · exact Nat.min_zero _
    · rfl
  rw [hfire, hticks, hnone] at hcalls
  exact List.cons_ne_nil _ _ hcalls

end Early

end Clocked

/-! ### The theorem -/

end Ndsl.Proofs.Timer
