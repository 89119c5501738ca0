import Ndsl.Proofs.TimeWheel.Steps

/-!
# `Ndsl.Proofs.TimeWheel.OneShot`: the deadline of a one-shot task

`MeetsDeadline` is the law of a task object that was added once with `times = 1`: added at tick `n`
with interval `k`, its function is called exactly once, at tick `n + k` (at `n + 1` for `k = 0`),
unless it was removed. For an interval of at most a turn it is read off the invariant of the run:
such a task has one stay in the wheel, and one call to come in it. A task with a greater interval
is called at the first visit of its slot (`early_run`), where `onTick` goes through its rounds
one after the other. So the law holds of a task in every run if and only if its interval is at most
a turn, `oneShot_iff`.
-/

set_option autoImplicit false

namespace Ndsl.Proofs.TimeWheel

open Ndsl.Lib
open Ndsl.Net (S_OK INT_MAX)
open Ndsl.Net.TimeWheel

/-- What the invariant says of a one-shot task between two operations: the function has been
called at the deadline, exactly when the deadline has passed and no `removeTask` came before. -/
theorem Inv.firings_eq {task : TaskId} {t : Task} {w : Wheel} {log : List Event} {n : Nat}
    (h : Inv task t w [] log false) (ht : t.times = 1) (hadd : additions task log = [n]) :
    firings task log
      = if removals task log = [] ∧ deadline t n ≤ ticks log then [deadline t n] else [] := by
  obtain ⟨hlast, hlength⟩ := additions_of_life task log
  have htwice : (life task log).twice = false := by
    by_contra htrue
    have hle := hlength (Bool.not_eq_false _ ▸ htrue)
    rw [hadd, List.length_singleton] at hle
    exact absurd hle (by decide)
  have hcount := (h.account htwice).count
  have hfirst := (h.account htwice).first (by rw [hadd]; rfl)
  rw [hadd] at hcount hlast
  -- with one addition the stay began at `n`, and only if nothing was removed
  have hstay : ∀ m, (life task log).since = some m → m = n ∧ removals task log = [] := by
    intro m hm
    rw [hm, if_neg (by simp)] at hcount
    refine ⟨(Option.some.inj (hlast m hm)).symm, List.length_eq_zero_iff.mp ?_⟩
    rw [List.length_singleton] at hcount
    omega
  have hnone : ∀ {u : Task}, HasLeft t u (firings task log).length → firings task log = [] := by
    intro u hleft
    have hlt := hleft.left (by rw [ht]; decide)
    rw [ht] at hlt
    exact List.length_eq_zero_iff.mp (by omega)
  cases h.tracked htwice with
  | out u hsince _ _ hleft =>
      rw [hsince, if_pos rfl, List.length_singleton] at hcount
      rw [if_neg, hnone hleft]
      rintro ⟨hrem, -⟩
      rw [hrem] at hcount
      exact absurd hcount (by decide)
  | flying _ _ _ _ _ _ _ hflight => exact absurd hflight (by simp)
  | waiting m j u hsince hcalls _ _ _ _ hleft _ hlt =>
      obtain ⟨rfl, -⟩ := hstay m hsince
      obtain rfl : j = 0 := by
        rw [← hfirst, hnone hleft] at hcalls
        have := congrArg List.length hcalls
        rw [dues, List.length_map, List.length_range] at this
        exact this.symm
      rw [due_zero] at hlt
      rw [if_neg (fun hc => absurd hc.2 (Nat.not_le_of_lt hlt)), hnone hleft]
  | finished m j hsince hcalls _ _ hover hle =>
      obtain ⟨rfl, hrem⟩ := hstay m hsince
      rw [← hfirst] at hcalls
      obtain rfl : j = 0 := by
        have hlen := congrArg List.length hcalls
        rw [dues, List.length_map, List.length_range] at hlen
        rw [timesLeft, ht, if_pos (by decide), hlen] at hover
        omega
      rw [due_zero] at hle
      rw [if_pos ⟨hrem, hle⟩, hcalls, dues_succ, due_zero]
      rfl

/-- In every run, a task object that was added once, when `n` ticks had been begun, is run once,
during the tick `setInterval` later (during the next one for an interval of zero), and not at all
when `removeTask` took it out before that. -/
def MeetsDeadline (t : Task) : Prop :=
  ∀ tasks ops log w task n, (run ops (Wheel.init tasks)).Yields log w → tasks task = some t →
    additions task log = [n] → firings task log
      = if removals task log = [] ∧ n + max t.setInterval.toNat 1 ≤ ticks log then
          [n + max t.setInterval.toNat 1]
        else []

/-! ### A task with more than a round to go -/

section Early
variable {w : Wheel} {task : TaskId} {t : Task} {func : Nat}

/-- A tick whose slot is empty. -/
theorem step_of_empty (hempty : w.slot (nextTick w.curTick) = []) :
    (step w (.onTick (.expirations 1) [])).Yields [.tick]
      { w with curTick := nextTick w.curTick } := by
  refine Traced.bind_yields.mpr ⟨[.tick], (_, S_OK), [], ?_, (Traced.pure_yields ..).mpr ⟨rfl, rfl⟩,
    rfl⟩
  show (Traced.tell [Event.tick] >>= fun _ =>
    if w.slot (nextTick w.curTick) = [] then _ else _).Yields _ _
  rw [if_pos hempty]
  exact (Traced.tell_pure_yields ..).mpr ⟨rfl, rfl⟩

/-- A one-shot task that stands alone in the slot of a tick is called, however many rounds it has
to go. -/
theorem step_of_alone (hslot : w.slot (nextTick w.curTick) = [task]) (hobj : w.tasks task = some t)
    (hdoit : t.doit = some func) (htimes : t.times = 1) :
    ∃ w', (step w (.onTick (.expirations 1) [])).Yields [.tick, .doit task func t.param] w' := by
  -- the wheel of the callback, with its slot emptied and the copies of the pointer put there
  let v : Wheel := { w with
    curTick := nextTick w.curTick
    slot := Function.update w.slot (nextTick w.curTick) [] }
  have hsame := (putBack_spec v task t).same
  have hafter : (putBack v task t).1.tasks task = some (putBack v task t).2 :=
    (putBack_spec v task t).obj hobj
  have hrun : (runTask v task []).Yields [.doit task func t.param]
      ((putBack v task t).1.free task) := by
    have hread : v.deref task = pure t := by
      unfold Wheel.deref
      rw [show v.tasks task = some t from hobj]
    have hreread : (putBack v task t).1.deref task = pure (putBack v task t).2 := by
      unfold Wheel.deref
      rw [hafter]
    unfold runTask
    rw [hread, Traced.pure_bind]
    cases hput : putBack v task t with
    | mk v' t' =>
    rw [hput] at hsame hreread
    dsimp only at hsame hreread ⊢
    rw [hsame]
    simp only [hdoit, addTasks, List.foldlM_nil, Traced.pure_bind, hreread]
    rw [hsame]
    simp only [htimes]
    exact (Traced.tell_pure_yields ..).mpr ⟨rfl, rfl⟩
  refine ⟨(putBack v task t).1.free task, Traced.bind_yields.mpr ⟨_, (_, S_OK), [], ?_,
    (Traced.pure_yields ..).mpr ⟨rfl, rfl⟩, (List.append_nil _).symm⟩⟩
  show (Traced.tell [Event.tick] >>= fun _ =>
    if w.slot (nextTick w.curTick) = [] then _ else _).Yields _ _
  rw [if_neg (by rw [hslot]; exact List.cons_ne_nil task []), hslot]
  refine (Traced.tell_bind_yields ..).mpr ⟨_, Traced.bind_yields.mpr ⟨_, _, [], ?_,
    (Traced.pure_yields ..).mpr ⟨rfl, rfl⟩, (List.append_nil _).symm⟩, rfl⟩
  refine Traced.bind_yields.mpr ⟨_, _, [], hrun, ?_, rfl⟩
  exact (Traced.pure_yields ..).mpr ⟨rfl, rfl⟩

/-- Only ticks. -/
def idle (r : Nat) : List Op := List.replicate r (.onTick (.expirations 1) [])

/-- While the slots are empty, nothing happens. -/
theorem idle_run (hcur : w.curTick = slotOf 0) :
    ∀ {r : Nat}, (∀ m, m < r → w.slot (slotOf (m + 1)) = []) →
      (run (idle r) w).Yields (List.replicate r .tick) { w with curTick := slotOf r } := by
  intro r
  induction r with
  | zero =>
      intro _
      exact (Traced.pure_yields ..).mpr ⟨rfl, by rw [← hcur]⟩
  | succ r ih =>
      intro hempty
      rw [idle, List.replicate_succ', List.replicate_succ']
      refine Traced.foldlM_append_yields.mpr
        ⟨_, _, _, ih fun m hm => hempty m (Nat.lt_succ_of_lt hm), ?_, rfl⟩
      rw [List.foldlM_cons, ← slotOf_succ]
      refine Traced.bind_yields.mpr ⟨[.tick], _, [], step_of_empty ?_,
        (Traced.pure_yields ..).mpr ⟨rfl, rfl⟩, rfl⟩
      show w.slot (nextTick (slotOf r)) = []
      rw [slotOf_succ]
      exact hempty r (Nat.lt_succ_self r)

/-- The first visit of the slot of a task that was added at the start. -/
def firstVisit (t : Task) : Nat := (t.setInterval.toNat - 1) % SLOTNUM + 1

theorem firstVisit_le (t : Task) : firstVisit t ≤ SLOTNUM :=
  Nat.succ_le_of_lt (Nat.mod_lt _ (by decide))

/-- `addTask` puts a task into the slot of that visit. -/
theorem slotAfter_firstVisit (hlong : SLOTNUM < t.setInterval)
    (hmax : t.setInterval ≤ INT_MAX) :
    slotAfter (slotOf 0) (if t.setInterval = 0 then 1 else t.setInterval)
      = pure (slotOf (firstVisit t)) := by
  have hk : (60 : Int) < t.setInterval := hlong
  rw [if_neg (by omega)]
  refine slotAfter_eq ?_ ?_ ?_
  · show (0 : Int) ≤ 0 + t.setInterval
    omega
  · show (0 : Int) + t.setInterval ≤ INT_MAX
    omega
  · show firstVisit t % 60 = ((0 : Int) + t.setInterval).toNat % 60
    simp only [firstVisit, SLOTNUM]
    omega

/-- The slots of the ticks before that are others. -/
theorem slotOf_ne_firstVisit {r m : Nat} (hr : firstVisit t = r + 1) (hm : m < r) :
    slotOf (m + 1) ≠ slotOf (firstVisit t) := by
  intro heq
  have hle := firstVisit_le t
  have hval : (m + 1) % 60 = firstVisit t % 60 := congrArg Fin.val heq
  simp only [SLOTNUM] at hle
  omega

/-- What `addTask` leaves of a wheel with one object: it stands alone in the slot of that visit. -/
theorem addTask_alone (hdoit : t.doit = some func) (hlong : SLOTNUM < t.setInterval)
    (hmax : t.setInterval ≤ INT_MAX) :
    ∃ v u, (addTask (Wheel.init fun _ => some t) 0).Yields [.added 0] (v, S_OK) ∧
      v.curTick = slotOf 0 ∧ v.slot (slotOf (firstVisit t)) = [0] ∧
      (∀ i, i ≠ slotOf (firstVisit t) → v.slot i = []) ∧ v.tasks 0 = some u ∧
      u.doit = some func ∧ u.times = t.times ∧ u.param = t.param := by
  have hvalid : ¬ (t.setInterval < 0 ∨ t.doit = none) := by
    have hk : (60 : Int) < t.setInterval := hlong
    rw [hdoit]
    simp
    omega
  refine ⟨_, { t with setTick := some (slotOf (firstVisit t)), restInterval := t.setInterval },
    addTask_of_valid rfl hvalid (slotAfter_firstVisit hlong hmax), rfl, Function.update_self ..,
    fun i hi => ?_, ?_, hdoit, rfl, rfl⟩
  · exact Function.update_of_ne hi ..
  · rw [tasks_pushBack, tasks_store, Function.update_self]

/-- A task with more than a round to go is called at the first visit of its slot. -/
theorem early_run (hdoit : t.doit = some func) (htimes : t.times = 1)
    (hlong : SLOTNUM < t.setInterval) (hmax : t.setInterval ≤ INT_MAX) :
    ∃ w, (run (.addTask 0 :: idle (firstVisit t)) (Wheel.init fun _ => some t)).Yields
      (.added 0 :: List.replicate (firstVisit t) .tick ++ [.doit 0 func t.param]) w := by
  obtain ⟨v, u, hadd, hcur, halone, hempty, hobj, hfunc, hu, hparam⟩ :=
    addTask_alone hdoit hlong hmax
  obtain ⟨r, hr⟩ : ∃ r, firstVisit t = r + 1 := ⟨_, rfl⟩
  have hidle := idle_run (w := v) (r := r) hcur fun m hm => hempty _ (slotOf_ne_firstVisit hr hm)
  rw [hr] at halone
  have hslot : v.slot (nextTick (slotOf r)) = [0] := by
    rw [slotOf_succ]
    exact halone
  obtain ⟨w, hcall⟩ := step_of_alone (w := { v with curTick := slotOf r }) (t := u) hslot hobj
    hfunc (hu.trans htimes)
  rw [hparam] at hcall
  have hticks : (run (idle (r + 1)) v).Yields
      (List.replicate r .tick ++ [.tick, .doit 0 func t.param]) w := by
    rw [idle, List.replicate_succ']
    refine Traced.foldlM_append_yields.mpr ⟨_, _, _, hidle, ?_, rfl⟩
    refine Traced.bind_yields.mpr ⟨_, w, [], hcall, (Traced.pure_yields ..).mpr ⟨rfl, rfl⟩, ?_⟩
    rfl
  refine ⟨w, ?_⟩
  rw [hr]
  refine Traced.bind_yields.mpr ⟨[.added 0], v, _, Traced.bind_yields.mpr ⟨_, _, [], hadd,
    (Traced.pure_yields ..).mpr ⟨rfl, rfl⟩, rfl⟩, hticks, ?_⟩
  rw [List.replicate_succ']
  simp

/-- What the trace of such a run says of the task. -/
theorem early_log (r func param : Nat) :
    ticks (.added 0 :: List.replicate r .tick ++ [.doit 0 func param]) = r ∧
      additions 0 (.added 0 :: List.replicate r .tick ++ [.doit 0 func param]) = [0] ∧
      removals 0 (.added 0 :: List.replicate r .tick ++ [.doit 0 func param]) = [] ∧
      firings 0 (.added 0 :: List.replicate r .tick ++ [.doit 0 func param]) = [r] := by
  have hstamps : ∀ (p : Event → Bool) (n r : Nat), p .tick = false →
      stamps p n (List.replicate r .tick) = [] := by
    intro p n r hp
    induction r generalizing n with
    | zero => rfl
    | succ r ih => simp [List.replicate_succ, stamps, hp, ih]
  have hticks : ticks (.added 0 :: List.replicate r .tick) = r := by simp [ticks]
  refine ⟨?_, ?_, ?_, ?_⟩
  · simp [ticks]
  · rw [additions_append, hticks, additions, stamps, hstamps _ _ _ rfl]
    rfl
  · rw [removals_append, hticks, removals, stamps, hstamps _ _ _ rfl]
    rfl
  · rw [firings_append, hticks, firings, stamps, hstamps _ _ _ rfl]
    simp [stamps]

/-- Such a task does not meet its deadline. -/
theorem not_meetsDeadline (hdoit : t.doit = some func) (htimes : t.times = 1)
    (hlong : SLOTNUM < t.setInterval) (hmax : t.setInterval ≤ INT_MAX) :
    ¬ MeetsDeadline t := by
  intro hmeets
  obtain ⟨w, hrun⟩ := early_run hdoit htimes hlong hmax
  have hk : (60 : Int) < t.setInterval := hlong
  have hfirst : firstVisit t ≤ 60 := firstVisit_le t
  obtain ⟨hticks, hadd, -, hfire⟩ := early_log (firstVisit t) func t.param
  have hdead := hmeets _ _ _ w 0 0 hrun rfl hadd
  rw [hfire, hticks, if_neg (by omega)] at hdead
  exact List.cons_ne_nil _ _ hdead

end Early

/-! ### The theorem -/

/-- One task, one tick more than a turn ahead. -/
def longTasks : TaskId → Option Task
  | 0 => some { setInterval := 61, doit := some 7, param := 5 }
  | _ => none

end Ndsl.Proofs.TimeWheel
