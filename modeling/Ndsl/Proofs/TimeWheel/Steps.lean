import Ndsl.Proofs.TimeWheel.Stay

/-!
# `Ndsl.Proofs.TimeWheel.Steps`: every operation keeps the stays

One lemma for each function of `Ndsl.Net.TimeWheel`: it keeps `Inv`. Where the function works on
the tracked task itself, the lemma moves it from one stage of its life to the next; everywhere
else it uses the frame rule. `run_inv` is the induction over a run.
-/

set_option autoImplicit false

namespace Ndsl.Proofs.TimeWheel

open Ndsl.Lib
open Ndsl.Net.TimeWheel

/-! ### `addTask` keeps the invariant -/

/-- The slot chosen by `addTask` is the slot of the deadline. -/
theorem slotOf_deadline {t : Task} {n : Nat} {c i : Fin SLOTNUM} (hc : c = slotOf n)
    (h0 : 0 ≤ t.setInterval)
    (hi : i.val = ((c : Int) + max t.setInterval 1).toNat % SLOTNUM) :
    i = slotOf (deadline t n) := by
  subst hc
  apply Fin.ext
  rw [hi]
  simp only [slotOf, deadline, SLOTNUM]
  omega

/-- The tracked task itself is added. -/
theorem addTask_inv_self {task : TaskId} {t u : Task} {w : Wheel} {flight : List TaskId}
    {log : List Event} {busy : Bool} {i : Fin SLOTNUM} (h : Inv task t w flight log busy)
    (hu : w.tasks task = some u) (h0 : 0 ≤ u.setInterval)
    (hi : i.val = ((w.curTick : Int) + max u.setInterval 1).toNat % SLOTNUM) :
    Inv task t ((w.store task
      { u with setTick := some i, restInterval := u.setInterval }).pushBack i task) flight
      (log ++ [.added task]) busy := by
  have hticks : ticks (log ++ [Event.added task]) = ticks log := by simp [ticks]
  -- the new stay is counted once only when the task was out of the wheel
  have hout : (life task (log ++ [.added task])).twice = false →
      (life task log).twice = false ∧ (life task log).since = none := by
    intro htwice
    rw [life_added] at htwice
    simpa using htwice
  refine ⟨by rw [hticks]; exact h.clock, ?_, ?_⟩
  · intro htwice
    obtain ⟨hold, hnone⟩ := hout htwice
    exact (h.account hold).added hnone
  · intro htwice
    obtain ⟨hold, hnone⟩ := hout htwice
    cases h.tracked hold with
    | waiting _ _ _ hsince => exact absurd (hnone.symm.trans hsince) (by simp)
    | flying _ _ _ hsince => exact absurd (hnone.symm.trans hsince) (by simp)
    | running _ _ _ _ hsince => exact absurd (hnone.symm.trans hsince) (by simp)
    | finished _ _ hsince => exact absurd (hnone.symm.trans hsince) (by simp)
    | out u' _ habsent hobj hleft =>
        obtain rfl : u' = u := Option.some.inj (hobj.symm.trans hu)
        have hinterval := hleft.interval
        rw [hinterval] at h0 hi
        have hslot : i = slotOf (due t (ticks log) 0) := by
          rw [due_zero]
          exact slotOf_deadline h.clock h0 hi
        have hfire : firings task (log ++ [Event.added task]) = firings task log := by
          simp [firings_append, stamps]
        refine .waiting (ticks log) 0
          { u' with setTick := some i, restInterval := u'.setInterval } ?_ ?_ h0 ?_
          habsent.flight (by simp) ?_ (by rw [hslot]) ?_ hinterval ?_
        · rw [life_added]
        · rw [life_added]
          rfl
        · intro j
          rw [count_pushBack, slot_store, habsent.slots, hslot]
          simp
        · rw [hfire]
          exact ⟨hleft.interval, hleft.times, hleft.left⟩
        · rw [hticks, due_zero, deadline]
          omega
        · rw [hticks, due_zero, deadline]
          unfold SLOTNUM
          omega

theorem addTask_inv {task x : TaskId} {t : Task} {w w' : Wheel} {flight : List TaskId}
    {log es : List Event} {busy : Bool} {r : Int} (h : Inv task t w flight log busy)
    (hadd : (addTask w x).Yields es (w', r)) : Inv task t w' flight (log ++ es) busy := by
  rcases addTask_cases hadd with ⟨rfl, rfl, -⟩ | ⟨u, i, hu, h0, -, hi, rfl, -, rfl⟩
  · rwa [List.append_nil]
  · by_cases hx : x = task
    · subst hx
      exact addTask_inv_self h hu h0 hi
    · refine h.frame (sameFor_append (e := .added x) hx log) (by simp [ticks]) rfl ?_ ?_ rfl
      · simp [Function.update_of_ne (Ne.symm hx)]
      · intro j
        rw [count_pushBack, slot_store]
        simp [hx]

/-- What a callback adds keeps the invariant. -/
theorem addTasks_inv {task : TaskId} {t : Task} {w w' : Wheel} {flight adds : List TaskId}
    {log es : List Event} {busy : Bool} (h : Inv task t w flight log busy)
    (hadds : (addTasks w adds).Yields es w') : Inv task t w' flight (log ++ es) busy := by
  refine Traced.foldlM_yields_invariant (P := fun w log => Inv task t w flight log busy) ?_ h
    hadds
  intro w log x w' es hinv hstep
  rw [Traced.bind_yields] at hstep
  obtain ⟨fs, ⟨w₁, r⟩, gs, hx, hpure, rfl⟩ := hstep
  rw [Traced.pure_yields] at hpure
  obtain ⟨rfl, rfl⟩ := hpure
  rw [List.append_nil]
  exact addTask_inv hinv hx

/-! ### A tick keeps the invariant -/

/-- Leaving behind a task that is not the tracked one, with changes to its own object and its
own places only. -/
theorem Inv.pop_of_ne {task x : TaskId} {t : Task} {w w' : Wheel} {rest : List TaskId}
    {log : List Event} {busy : Bool} (hx : x ≠ task) (h : Inv task t w (x :: rest) log busy)
    (hcur : w'.curTick = w.curTick) (hobj : w'.tasks task = w.tasks task)
    (hslot : ∀ i, (w'.slot i).count task = (w.slot i).count task) :
    Inv task t w' rest log busy :=
  h.frame (SameFor.refl task log) rfl hcur hobj hslot (List.count_cons_of_ne hx).symm

/-- The turns of the loop at a task that is not the tracked one. -/
theorem runTask_inv_of_ne {task x : TaskId} {t : Task} {w w' : Wheel} {rest adds : List TaskId}
    {log es : List Event} (hx : x ≠ task) (h : Inv task t w (x :: rest) log false)
    (hrun : (runTask w x adds).Yields es w') : Inv task t w' rest (log ++ es) false := by
  have hother : ∀ (v : Wheel) (u : Option Task), Function.update v.tasks x u task = v.tasks task :=
    fun v u => Function.update_of_ne hx.symm u v.tasks
  obtain ⟨u, func, es₁, w₁, u₁, -, hadds, -, rfl, hend⟩ := runTask_cases hrun
  have hputs := putBack_spec w x u
  have hcall : Inv task t (putBack w x u).1 (x :: rest) (log ++ [.doit x func u.param]) false :=
    h.frame (sameFor_append (e := .doit x func u.param) hx log) (by simp [ticks]) hputs.curTick
      (hputs.tasks task hx.symm) (hputs.count task hx.symm) rfl
  have h₁ := addTasks_inv hcall hadds
  rw [List.append_assoc, List.singleton_append] at h₁
  rcases hend with ⟨-, rfl⟩ | ⟨i, -, -, -, rfl⟩
  · exact h₁.pop_of_ne hx rfl (by simp [hother]) (fun i => rfl)
  · exact h₁.pop_of_ne hx rfl (by simp [hother]) (fun i => by rw [count_pushBack]; simp [hx])

/-- Only a task in flight is met by the loop. -/
theorem Tracked.flying_of_head {task : TaskId} {t u : Task} {w : Wheel} {rest : List TaskId}
    {log : List Event} {busy : Bool} (h : Tracked task t w (task :: rest) log busy)
    (hu : w.tasks task = some u) :
    ∃ n j, (life task log).since = some n ∧ (life task log).calls = dues t n j ∧
      0 ≤ t.setInterval ∧ Absent task w rest ∧ HasLeft t u (firings task log).length ∧
      u.restInterval ≤ SLOTNUM ∧ t.setInterval ≤ SLOTNUM ∧ due t n j = ticks log := by
  have hpos : (task :: rest).count task ≠ 0 := by simp
  cases h with
  | out _ _ habsent => exact absurd habsent.flight hpos
  | waiting _ _ _ _ _ _ _ hflight => exact absurd hflight hpos
  | running _ _ _ _ _ _ _ habsent => exact absurd habsent.flight hpos
  | finished _ _ _ _ habsent => exact absurd habsent.flight hpos
  | flying n j u' hsince hcalls hk hslot hflight hobj hleft hlast hshort hnow =>
      obtain rfl : u' = u := Option.some.inj (hobj.symm.trans hu)
      have hrest : rest.count task = 0 := by
        rw [List.count_cons_self] at hflight
        omega
      exact ⟨n, j, hsince, hcalls, hk, ⟨hslot, hrest⟩, hleft, hlast, hshort, hnow⟩

/-- The call of the tracked task's function happens when it is due. -/
theorem doit_inv_self {task : TaskId} {t u : Task} {w : Wheel} {rest : List TaskId}
    {log : List Event} (func param : Nat) (h : Inv task t w (task :: rest) log false)
    (hu : w.tasks task = some u) : Inv task t w rest (log ++ [.doit task func param]) true := by
  have hticks : ticks (log ++ [Event.doit task func param]) = ticks log := by simp [ticks]
  have htwice_eq : (life task (log ++ [.doit task func param])).twice = (life task log).twice := by
    rw [life_doit]
  refine ⟨by rw [hticks]; exact h.clock, ?_, ?_⟩
  · intro htwice
    rw [htwice_eq] at htwice
    obtain ⟨n, j, hsince, -⟩ := (h.tracked htwice).flying_of_head hu
    exact (h.account htwice).doit hsince func param
  · intro htwice
    rw [htwice_eq] at htwice
    obtain ⟨n, j, hsince, hcalls, hk, habsent, hleft, -, hshort, hnow⟩ :=
      (h.tracked htwice).flying_of_head hu
    refine .running n j (firings task log).length u ?_ ?_ hk habsent hu hleft ?_ ?_ hshort
    · rw [life_doit]
      exact hsince
    · rw [life_doit, dues_succ, hcalls, hnow]
    · simp [firings_append, stamps]
    · rw [hticks, hnow]

/-- The slot of the next call. -/
theorem slotOf_due_succ {t : Task} {n j : Nat} {c i : Fin SLOTNUM}
    (hc : c = slotOf (due t n j)) (hk : 0 ≤ t.setInterval)
    (hi : i.val = ((c : Int) + t.setInterval).toNat % SLOTNUM) : i = slotOf (due t n (j + 1)) := by
  subst hc
  apply Fin.ext
  rw [hi, due_succ]
  simp only [slotOf, period, SLOTNUM]
  split <;> omega

/-- After its callback, the tracked task is deleted when this was its last time, and waits for
its next call otherwise. -/
theorem end_inv_self {task : TaskId} {t u : Task} {w w' : Wheel} {rest : List TaskId}
    {log : List Event} (h : Inv task t w rest log true) (hu : w.tasks task = some u)
    (hend : (timesAfter u.times = 0 ∧ w' = w.free task) ∨
      ∃ i, timesAfter u.times ≠ 0 ∧ 0 ≤ (w.curTick : Int) + u.setInterval ∧
        i.val = ((w.curTick : Int) + u.setInterval).toNat % SLOTNUM ∧
        w' = (w.store task { u with
          times := timesAfter u.times
          setTick := some i
          restInterval := u.setInterval }).pushBack i task) :
    Inv task t w' rest log false := by
  have hclock : w'.curTick = slotOf (ticks log) := by
    rcases hend with ⟨-, rfl⟩ | ⟨i, -, -, -, rfl⟩
    · exact h.clock
    · exact h.clock
  refine ⟨hclock, h.account, fun htwice => ?_⟩
  cases h.tracked htwice with
  | running n j c u' hsince hcalls hk habsent hobj hleft hcount hnow hshort =>
      obtain rfl : u' = u := Option.some.inj (hobj.symm.trans hu)
      -- the callback left the record alone, so the times that are left are as counted
      have htimes : timesAfter u'.times = timesLeft t.times (firings task log).length := by
        rw [hleft.times, timesAfter_timesLeft hleft.left, hcount]
      rcases hend with ⟨hzero, rfl⟩ | ⟨i, hmore, -, hi, rfl⟩
      · refine .finished n j hsince hcalls ⟨habsent.slots, habsent.flight⟩ (by simp) ?_
          (Nat.le_of_eq hnow)
        rw [← htimes]
        exact hzero
      · rw [hleft.interval] at hi
        -- the slot is the one of the next due time, a period after this one
        have hslot : i = slotOf (due t n (j + 1)) :=
          slotOf_due_succ (h.clock.trans (by rw [hnow])) hk hi
        have hleft' : 0 < t.times → ((firings task log).length : Int) < t.times := by
          intro hpos
          have hc := hleft.left hpos
          rw [htimes, timesLeft, if_pos hpos, hcount] at hmore
          rw [hcount]
          omega
        refine .waiting n (j + 1)
          { u' with
            times := timesAfter u'.times
            setTick := some i
            restInterval := u'.setInterval } hsince hcalls hk ?_ habsent.flight (by simp)
          ⟨hleft.interval, htimes, hleft'⟩ (by rw [hslot]) ?_ hleft.interval ?_
        · intro i'
          rw [count_pushBack, slot_store, habsent.slots, hslot]
          simp
        · rw [due_succ, hnow]
          unfold period SLOTNUM
          split <;> omega
        · rw [due_succ, hnow]
          unfold period SLOTNUM
          split <;> omega

/-- One turn at a task that has more than a round to go. The tracked one is not met by the loop
before its last round. -/
theorem copy_inv {task x : TaskId} {t u : Task} {w : Wheel} {rest : List TaskId}
    {log : List Event} (h : Inv task t w (x :: rest) log false) (hu : w.tasks x = some u)
    (hround : u.restInterval > SLOTNUM) :
    Inv task t ((w.store x { u with restInterval := u.restInterval - SLOTNUM }).pushBack
      w.curTick x) (x :: rest) log false := by
  by_cases hx : x = task
  · subst hx
    refine ⟨h.clock, h.account, fun htwice => ?_⟩
    obtain ⟨_, _, -, -, -, -, -, hlast, -⟩ := (h.tracked htwice).flying_of_head hu
    exact absurd hround (Int.not_lt.mpr hlast)
  · refine h.frame (.refl task log) rfl rfl (Function.update_of_ne (Ne.symm hx) ..) (fun i => ?_)
      rfl
    rw [count_pushBack, slot_store, if_neg fun hboth => hx hboth.2]
    rfl

/-- The turns of the loop at the tracked task: it is in its last round, and is called. What
becomes of a task that was added while it was in the wheel is not followed. -/
theorem runTask_inv_self {task : TaskId} {t : Task} {w w' : Wheel} {rest adds : List TaskId}
    {log es : List Event} (h : Inv task t w (task :: rest) log false)
    (hrun : (runTask w task adds).Yields es w') : Inv task t w' rest (log ++ es) false := by
  obtain ⟨u, func, es₁, w₁, u₁, hu, hadds, hu₁, rfl, hend⟩ := runTask_cases hrun
  have hcall : Inv task t (putBack w task u).1 rest (log ++ [.doit task func u.param]) true := by
    by_cases htwice : (life task log).twice = false
    · obtain ⟨_, _, -, -, -, -, -, hlast, -⟩ := (h.tracked htwice).flying_of_head hu
      rw [putBack_of_last hlast]
      exact doit_inv_self func u.param h hu
    · have htwice' : ¬ (life task (log ++ [.doit task func u.param])).twice = false := by
        rwa [life_doit]
      refine ⟨?_, fun hfalse => absurd hfalse htwice', fun hfalse => absurd hfalse htwice'⟩
      rw [(putBack_spec w task u).curTick, h.clock]
      simp [ticks]
  have h₁ := addTasks_inv hcall hadds
  rw [List.append_assoc, List.singleton_append] at h₁
  exact end_inv_self h₁ hu₁ hend

/-- The turns of the loop at one task. -/
theorem runTask_inv {task x : TaskId} {t : Task} {w w' : Wheel} {rest adds : List TaskId}
    {log es : List Event} (h : Inv task t w (x :: rest) log false)
    (hrun : (runTask w x adds).Yields es w') : Inv task t w' rest (log ++ es) false := by
  by_cases hx : x = task
  · subst hx
    exact runTask_inv_self h hrun
  · exact runTask_inv_of_ne hx h hrun

/-- The whole loop. -/
theorem runSlot_inv {task : TaskId} {t : Task} :
    ∀ {flight : List TaskId} {w w' : Wheel} {calls : List (List TaskId)} {log es : List Event},
      Inv task t w flight log false → (runSlot w flight calls).Yields es w' →
      Inv task t w' [] (log ++ es) false := by
  intro flight
  induction flight with
  | nil =>
      intro w w' calls log es h hrun
      rw [runSlot, Traced.pure_yields] at hrun
      obtain ⟨rfl, rfl⟩ := hrun
      rwa [List.append_nil]
  | cons x rest ih =>
      intro w w' calls log es h hrun
      rw [runSlot, Traced.bind_yields] at hrun
      obtain ⟨es₁, w₁, es₂, hx, hrest, rfl⟩ := hrun
      rw [← List.append_assoc]
      exact ih (runTask_inv h hx) hrest

theorem nextTick_val (c : Fin SLOTNUM) : (nextTick c).val = (c.val + 1) % SLOTNUM := by
  have hlt : c.val < 60 := c.isLt
  show (if c.val + 1 ≥ 60 then (c.val + 1) % SLOTNUM else c.val + 1) = _
  split
  · rfl
  · exact (Nat.mod_eq_of_lt (by simp only [SLOTNUM]; omega)).symm

theorem slotOf_succ (n : Nat) : nextTick (slotOf n) = slotOf (n + 1) := by
  apply Fin.ext
  rw [nextTick_val]
  exact Nat.mod_add_mod n SLOTNUM 1

/-- A tick by itself says nothing about a task. -/
theorem sameFor_tick (task : TaskId) (log : List Event) : SameFor task log (log ++ [.tick]) :=
  sameFor_append (e := .tick) id log

/-- The next tick does not meet the task with more than a round to go. -/
def Ready (task : TaskId) (t : Task) (w : Wheel) (log : List Event) : Prop :=
  (life task log).twice = false → task ∈ w.slot (nextTick w.curTick) → t.setInterval ≤ SLOTNUM

/-- A task whose interval is at most a turn is always ready. -/
theorem ready_of_short {task : TaskId} {t : Task} {w : Wheel} {log : List Event}
    (h : t.setInterval ≤ SLOTNUM) : Ready task t w log := fun _ _ => h

/-- The object of a task that waits for the next tick says how many rounds it has to go. -/
theorem Inv.ready {task : TaskId} {t : Task} {w : Wheel} {log : List Event}
    (h : Inv task t w [] log false) (hlast : ∀ u, task ∈ w.slot (nextTick w.curTick) →
      w.tasks task = some u → u.restInterval ≤ SLOTNUM) : Ready task t w log := by
  intro htwice hmem
  have hpos : (w.slot (nextTick w.curTick)).count task ≠ 0 :=
    Nat.ne_of_gt (List.count_pos_iff.mpr hmem)
  cases h.tracked htwice with
  | out _ _ habsent => exact absurd (habsent.slots _) hpos
  | finished _ _ _ _ habsent => exact absurd (habsent.slots _) hpos
  | flying _ _ _ _ _ _ hslot => exact absurd (hslot _) hpos
  | waiting n j u _ _ _ _ _ hobj _ _ _ hrest =>
      rw [← hrest]
      exact hlast u hmem hobj

/-- Advancing the tick and swapping the slot out: a task that waits there is in flight from
now on, any other one is a tick closer. -/
theorem swap_inv {task : TaskId} {t : Task} {w : Wheel} {log : List Event}
    (h : Inv task t w [] log false) (hready : Ready task t w log) :
    Inv task t
      { w with
        curTick := nextTick w.curTick
        slot := Function.update w.slot (nextTick w.curTick) [] }
      (w.slot (nextTick w.curTick)) (log ++ [.tick]) false := by
  have hticks : ticks (log ++ [Event.tick]) = ticks log + 1 := by simp [ticks]
  have hnext : nextTick w.curTick = slotOf (ticks log + 1) := by rw [h.clock, slotOf_succ]
  have hsame := sameFor_tick task log
  have hlife := hsame.life_eq
  have hfire := hsame.firings_eq
  refine ⟨by rw [hticks]; exact hnext, fun htwice => ?_, fun htwice => ?_⟩
  · rw [hlife] at htwice
    exact (h.account htwice).same hsame
  · rw [hlife] at htwice
    -- emptying a slot makes no task appear
    have hgone : (∀ i, (w.slot i).count task = 0) →
        ∀ i, (Function.update w.slot (nextTick w.curTick) [] i).count task = 0 := by
      intro hslot i
      by_cases hi : i = nextTick w.curTick
      · simp [hi]
      · rw [Function.update_of_ne hi, hslot]
    cases h.tracked htwice with
    | out u hsince habsent hobj hleft =>
        exact .out u (by rwa [hlife]) ⟨hgone habsent.slots, habsent.slots _⟩ hobj (by rwa [hfire])
    | finished n j hsince hcalls habsent hobj hover hle =>
        exact .finished n j (by rwa [hlife]) (by rwa [hlife]) ⟨hgone habsent.slots, habsent.slots _⟩
          hobj (by rwa [hfire]) (by rw [hticks]; omega)
    | flying _ _ _ _ _ _ _ hflight => exact absurd hflight (by simp)
    | waiting n j u hsince hcalls hk hslot hflight hobj hleft htick hlt hrest hnear =>
        -- it is still in the slot of its due time, unless that is the slot that was swapped
        have hslot' : ∀ i, (Function.update w.slot (nextTick w.curTick) [] i).count task
            = if i = slotOf (due t n j) ∧ i ≠ nextTick w.curTick then 1 else 0 := by
          intro i
          by_cases hi : i = nextTick w.curTick
          · simp [hi]
          · rw [Function.update_of_ne hi, hslot]
            simp [hi]
        by_cases hdue : slotOf (due t n j) = nextTick w.curTick
        · -- its slot has come, for the first time
          have hshort : t.setInterval ≤ SLOTNUM := by
            refine hready htwice (List.count_pos_iff.mp ?_)
            rw [hslot, if_pos hdue.symm]
            exact Nat.one_pos
          have hnow : due t n j = ticks log + 1 := by
            have hmod : due t n j % SLOTNUM = (ticks log + 1) % SLOTNUM :=
              congrArg Fin.val (hdue.trans hnext)
            have hle := hnear hshort
            simp only [SLOTNUM] at hmod hle
            omega
          refine .flying n j u (by rwa [hlife]) (by rwa [hlife]) hk ?_ ?_ hobj (by rwa [hfire])
            (by rwa [hrest]) hshort (by rw [hticks, hnow])
          · intro i
            rw [hslot', hdue]
            simp
          · rw [hslot, hdue]
            simp
        · have hmod : due t n j ≠ ticks log + 1 := by
            rintro hnow
            exact hdue (by rw [hnow, hnext])
          refine .waiting n j u (by rwa [hlife]) (by rwa [hlife]) hk ?_ ?_ hobj (by rwa [hfire])
            htick (by rw [hticks]; omega) hrest fun hshort => ?_
          · intro i
            rw [hslot']
            by_cases hi : i = slotOf (due t n j)
            · simp [hi, hdue]
            · simp [hi]
          · rw [hslot]
            simp [Ne.symm hdue]
          · have := hnear hshort
            rw [hticks]
            omega

theorem onTick_inv {task : TaskId} {t : Task} {w w' : Wheel} {ret : ReadResult}
    {calls : List (List TaskId)} {log es : List Event} {r : Int}
    (h : Inv task t w [] log false) (hready : Ready task t w log)
    (hrun : (onTick w ret calls).Yields es (w', r)) : Inv task t w' [] (log ++ es) false := by
  rcases onTick_cases hrun with ⟨rfl, rfl⟩ | ⟨fs, rfl, hslot⟩
  · rwa [List.append_nil]
  · rw [List.append_cons]
    exact runSlot_inv (swap_inv h hready) hslot

/-! ### `removeTask` keeps the invariant -/

/-- Taking one entry of a task out of a slot. -/
theorem count_erase_slot (w : Wheel) (i j : Fin SLOTNUM) (x task : TaskId) :
    ((Function.update w.slot i ((w.slot i).erase x)) j).count task
      = (w.slot j).count task - if j = i ∧ x = task then 1 else 0 := by
  by_cases hj : j = i
  · subst hj
    rw [Function.update_self, List.count_erase]
    by_cases hx : x = task
    · simp [hx]
    · simp [hx]
  · simp [hj]

/-- Only a waiting task is in a slot. -/
theorem Tracked.waiting_of_mem {task : TaskId} {t u : Task} {w : Wheel} {flight : List TaskId}
    {log : List Event} {busy : Bool} {i : Fin SLOTNUM} (h : Tracked task t w flight log busy)
    (hu : w.tasks task = some u) (hi : u.setTick = some i) (hmem : task ∈ w.slot i) :
    busy = false ∧ flight.count task = 0 ∧ (∃ n, (life task log).since = some n) ∧
      HasLeft t u (firings task log).length ∧
      ∀ j, (w.slot j).count task = if j = i then 1 else 0 := by
  have hpos : (w.slot i).count task ≠ 0 := Nat.ne_of_gt (List.count_pos_iff.mpr hmem)
  cases h with
  | out _ _ habsent => exact absurd (habsent.slots i) hpos
  | finished _ _ _ _ habsent => exact absurd (habsent.slots i) hpos
  | flying _ _ _ _ _ _ hslot => exact absurd (hslot i) hpos
  | running _ _ _ _ _ _ _ habsent => exact absurd (habsent.slots i) hpos
  | waiting n j u' hsince hcalls hk hslot hflight hobj hleft htick =>
      obtain rfl : u' = u := Option.some.inj (hobj.symm.trans hu)
      obtain rfl : slotOf (due t n j) = i := Option.some.inj (htick.symm.trans hi)
      exact ⟨rfl, hflight, ⟨n, hsince⟩, hleft, hslot⟩

theorem removeTask_inv {task x : TaskId} {t : Task} {w w' : Wheel} {flight : List TaskId}
    {log es : List Event} {busy : Bool} {r : Int} (h : Inv task t w flight log busy)
    (hrem : (removeTask w x).Yields es (w', r)) : Inv task t w' flight (log ++ es) busy := by
  rcases removeTask_cases hrem with ⟨rfl, rfl, -⟩ | ⟨u, i, hu, hi, hmem, rfl, -, rfl⟩
  · rwa [List.append_nil]
  · by_cases hx : x = task
    · subst hx
      have hticks : ticks (log ++ [Event.removed x]) = ticks log := by simp [ticks]
      have htwice_eq : (life x (log ++ [.removed x])).twice = (life x log).twice := by
        rw [life_removed]
      refine ⟨by rw [hticks]; exact h.clock, fun htwice => ?_, fun htwice => ?_⟩
      · rw [htwice_eq] at htwice
        obtain ⟨-, -, ⟨n, hsince⟩, -⟩ := (h.tracked htwice).waiting_of_mem hu hi hmem
        exact (h.account htwice).removed hsince
      · rw [htwice_eq] at htwice
        obtain ⟨rfl, hflight, -, hleft, hslot⟩ := (h.tracked htwice).waiting_of_mem hu hi hmem
        have hfire : firings x (log ++ [Event.removed x]) = firings x log := by
          simp [firings_append, stamps]
        refine .out u ?_ ⟨?_, hflight⟩ hu (by rwa [hfire])
        · rw [life_removed]
        · intro j
          rw [count_erase_slot, hslot]
          simp
    · refine h.frame (sameFor_append (e := .removed x) hx log) (by simp [ticks]) rfl rfl ?_ rfl
      intro j
      rw [count_erase_slot]
      simp [hx]

/-! ### A run keeps the invariant -/

theorem step_inv {task : TaskId} {t : Task} {w w' : Wheel} {op : Op} {log es : List Event}
    (h : Inv task t w [] log false)
    (hready : ∀ ret calls, op = .onTick ret calls → Ready task t w log)
    (hstep : (step w op).Yields es w') : Inv task t w' [] (log ++ es) false := by
  cases op with
  | addTask x =>
      rw [step, Traced.bind_yields] at hstep
      obtain ⟨fs, ⟨w₁, r⟩, gs, hx, hpure, rfl⟩ := hstep
      rw [Traced.pure_yields] at hpure
      obtain ⟨rfl, rfl⟩ := hpure
      rw [List.append_nil]
      exact addTask_inv h hx
  | removeTask x =>
      rw [step, Traced.bind_yields] at hstep
      obtain ⟨fs, ⟨w₁, r⟩, gs, hx, hpure, rfl⟩ := hstep
      rw [Traced.pure_yields] at hpure
      obtain ⟨rfl, rfl⟩ := hpure
      rw [List.append_nil]
      exact removeTask_inv h hx
  | onTick ret calls =>
      rw [step, Traced.bind_yields] at hstep
      obtain ⟨fs, ⟨w₁, r⟩, gs, hx, hpure, rfl⟩ := hstep
      rw [Traced.pure_yields] at hpure
      obtain ⟨rfl, rfl⟩ := hpure
      rw [List.append_nil]
      exact onTick_inv h (hready ret calls rfl) hx

/-- A wheel on which nothing has happened. -/
theorem inv_init {task : TaskId} {t : Task} {tasks : TaskId → Option Task}
    (hobj : tasks task = some t) : Inv task t (Wheel.init tasks) [] [] false := by
  refine ⟨rfl, fun _ => account_nil, fun _ => .out t rfl ⟨fun _ => rfl, rfl⟩ hobj ⟨rfl, ?_, id⟩⟩
  show t.times = timesLeft t.times 0
  unfold timesLeft
  split
  · exact (Int.sub_zero _).symm
  · rfl

/-- Every run keeps the stays of a task whose interval is at most a turn. -/
theorem run_inv {task : TaskId} {t : Task} {tasks : TaskId → Option Task} {ops : List Op}
    {w : Wheel} {log : List Event} (hobj : tasks task = some t) (hshort : t.setInterval ≤ SLOTNUM)
    (hrun : (run ops (Wheel.init tasks)).Yields log w) : Inv task t w [] log false :=
  Traced.foldlM_yields_of_nil (P := fun w log => Inv task t w [] log false)
    (fun _ _ _ _ _ h hstep => step_inv h (fun _ _ _ => ready_of_short hshort) hstep)
    (inv_init hobj) hrun

end Ndsl.Proofs.TimeWheel
