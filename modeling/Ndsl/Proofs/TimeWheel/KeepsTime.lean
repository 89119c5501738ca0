import Ndsl.Proofs.TimeWheel.Steps

/-!
# `Ndsl.Proofs.TimeWheel.KeepsTime`: the wheel and the real time

The timerfd counts the intervals that have passed, and a `read` returns how many there were since
the last one. `clockedStep` runs the wheel beside the total of these counts and stamps each event
with the totals before and after the call that it happened in. `KeepsTime` says what a wheel does
that follows the total: its tick is the total modulo `SLOTNUM`, and a task added at the total `n`
with interval `k` is first called in the call of `onTick` in which the total reaches `n + k`.

`onTick` reads the count and moves on by one, and it calls a task that has more than a round to go
at the first visit of its slot. So the wheel keeps time in the runs in which every count is one and
no tick meets such a task, `keeps_time_of_punctual`, and falls behind at the first greater count.
-/

set_option autoImplicit false

namespace Ndsl.Proofs.TimeWheel

open Ndsl.Lib
open Ndsl.Net.TimeWheel

/-! ### The wheel beside the real time -/

/-- The totals of the counts read before and after a call. -/
structure Span where
  before : Nat
  after : Nat
  deriving Repr, DecidableEq

/-- What a call reads from the timerfd. -/
def counts : Op → Nat
  | .onTick (.expirations exp) _ => exp
  | _ => 0

/-- One call, beside the total of the counts. -/
def clockedStep (s : Wheel × Nat) (op : Op) : Traced (Span × Event) (Wheel × Nat) :=
  let span : Span := { before := s.2, after := s.2 + counts op }
  { log := (step s.1 op).log.map fun e => (span, e)
    value := (step s.1 op).value.map fun w => (w, span.after) }

/-- Every `onTick` reads a count. -/
def Reads : Op → Prop
  | .onTick (.expirations exp) _ => 1 ≤ exp
  | .onTick (.error _) _ => False
  | _ => True

/-- No `onTick` comes late. -/
def Punctual : Op → Prop
  | .onTick (.expirations exp) _ => exp = 1
  | _ => True

/-- No tick meets a task with more than a round to go. -/
def LastRounds (w : Wheel) : Op → Prop
  | .onTick _ _ => ∀ x ∈ w.slot (nextTick w.curTick), ∀ t, w.tasks x = some t →
      t.restInterval ≤ SLOTNUM
  | _ => True

/-- The condition on a step. -/
def OnTime (s : Wheel × Nat) (op : Op) : Prop := Punctual op ∧ LastRounds s.1 op

/-- The calls of a task that is due at the total `due`: none before, and the first one in the
call of `onTick` in which the total reaches it. -/
def Served (due total : Nat) : List Span → Prop
  | [] => total < due
  | first :: _ => first.before < due ∧ due ≤ first.after

/-- The wheel follows the total of the counts. -/
structure KeepsTime (tasks : TaskId → Option Task) (log : List (Span × Event)) (w : Wheel)
    (total : Nat) : Prop where
  clock : w.curTick.val = total % SLOTNUM
  calls : ∀ task t span, tasks task = some t → 1 ≤ t.setInterval →
    (stay task log).since = some span →
    Served (span.after + t.setInterval.toNat) total (stay task log).calls

/-! ### Between two ticks the clock stands still -/

section Still
variable {w w' : Wheel} {es : List Event}

theorem addTask_still {task : TaskId} {r : Int} (h : (addTask w task).Yields es (w', r)) :
    ticks es = 0 ∧ w'.curTick = w.curTick := by
  rcases addTask_cases h with ⟨rfl, rfl, -⟩ | ⟨_, _, _, _, _, _, rfl, -, rfl⟩
  · exact ⟨rfl, rfl⟩
  · exact ⟨by simp [ticks], rfl⟩

theorem addTasks_still {adds : List TaskId} (h : (addTasks w adds).Yields es w') :
    ticks es = 0 ∧ w'.curTick = w.curTick := by
  refine Traced.foldlM_yields_of_nil (P := fun v log => ticks log = 0 ∧ v.curTick = w.curTick) ?_
    ⟨rfl, rfl⟩ h
  rintro v log task v' fs ⟨hzero, hcur⟩ hstep
  rw [Traced.bind_yields] at hstep
  obtain ⟨fs, ⟨v₁, r⟩, gs, hadd, hpure, rfl⟩ := hstep
  rw [Traced.pure_yields] at hpure
  obtain ⟨rfl, rfl⟩ := hpure
  obtain ⟨hzero', hcur'⟩ := addTask_still hadd
  rw [List.append_nil, ticks_append]
  exact ⟨by omega, hcur'.trans hcur⟩

theorem runTask_still {task : TaskId} {adds : List TaskId}
    (h : (runTask w task adds).Yields es w') : ticks es = 0 ∧ w'.curTick = w.curTick := by
  obtain ⟨t, func, es₁, w₁, t₁, -, hadds, -, rfl, hend⟩ := runTask_cases h
  obtain ⟨hzero, hcur⟩ := addTasks_still hadds
  rw [(putBack_spec w task t).curTick] at hcur
  have hzero' : ticks (.doit task func t.param :: es₁) = 0 := by
    rw [ticks, List.count_cons_of_ne (by simp)]
    exact hzero
  rcases hend with ⟨-, rfl⟩ | ⟨i, -, -, -, rfl⟩
  · exact ⟨hzero', hcur⟩
  · exact ⟨hzero', hcur⟩

theorem runSlot_still {flight : List TaskId} :
    ∀ {w w' : Wheel} {calls : List (List TaskId)} {es : List Event},
      (runSlot w flight calls).Yields es w' → ticks es = 0 ∧ w'.curTick = w.curTick := by
  induction flight with
  | nil =>
      intro w w' calls es h
      rw [runSlot, Traced.pure_yields] at h
      obtain ⟨rfl, rfl⟩ := h
      exact ⟨rfl, rfl⟩
  | cons task rest ih =>
      intro w w' calls es h
      rw [runSlot, Traced.bind_yields] at h
      obtain ⟨es₁, w₁, es₂, htask, hrest, rfl⟩ := h
      obtain ⟨hzero, hcur⟩ := runTask_still htask
      obtain ⟨hzero', hcur'⟩ := ih hrest
      rw [ticks_append]
      exact ⟨by omega, hcur'.trans hcur⟩

end Still

/-- The events of one call: a tick is the first one, and only a call that ticks calls a task. -/
theorem step_events {w w' : Wheel} {op : Op} {es : List Event}
    (h : (step w op).Yields es w') :
    (ticks es = 0 ∧ counts op = 0 ∧ w'.curTick = w.curTick ∧
        ∀ task func param, .doit task func param ∉ es) ∨
      ∃ exp calls fs, op = .onTick (.expirations exp) calls ∧ es = .tick :: fs ∧ ticks fs = 0 ∧
        w'.curTick = nextTick w.curTick := by
  cases op with
  | addTask x =>
      rw [step, Traced.bind_yields] at h
      obtain ⟨fs, ⟨w₁, r⟩, gs, hx, hpure, rfl⟩ := h
      obtain ⟨rfl, rfl⟩ := (Traced.pure_yields ..).mp hpure
      rw [List.append_nil]
      obtain ⟨hzero, hcur⟩ := addTask_still hx
      refine .inl ⟨hzero, rfl, hcur, fun task func param hmem => ?_⟩
      rcases addTask_cases hx with ⟨rfl, -, -⟩ | ⟨_, _, _, _, _, _, rfl, -, -⟩
      · exact absurd hmem List.not_mem_nil
      · simp at hmem
  | removeTask x =>
      rw [step, Traced.bind_yields] at h
      obtain ⟨fs, ⟨w₁, r⟩, gs, hx, hpure, rfl⟩ := h
      obtain ⟨rfl, rfl⟩ := (Traced.pure_yields ..).mp hpure
      rw [List.append_nil]
      rcases removeTask_cases hx with ⟨rfl, rfl, -⟩ | ⟨_, _, _, _, _, rfl, -, rfl⟩
      · exact .inl ⟨rfl, rfl, rfl, fun _ _ _ hmem => absurd hmem List.not_mem_nil⟩
      · exact .inl ⟨by simp [ticks], rfl, rfl, fun _ _ _ hmem => by simp at hmem⟩
  | onTick ret calls =>
      rw [step, Traced.bind_yields] at h
      obtain ⟨fs, ⟨w₁, r⟩, gs, hx, hpure, rfl⟩ := h
      obtain ⟨rfl, rfl⟩ := (Traced.pure_yields ..).mp hpure
      rw [List.append_nil]
      cases ret with
      | error errno =>
          -- the descriptor could not be read, and there is no tick
          obtain ⟨rfl, heq⟩ := (Traced.pure_yields ..).mp hx
          obtain ⟨rfl, -⟩ := Prod.mk.inj heq
          exact .inl ⟨rfl, rfl, rfl, fun _ _ _ hmem => absurd hmem List.not_mem_nil⟩
      | expirations exp =>
          rcases onTick_cases hx with ⟨rfl, -⟩ | ⟨es, rfl, hslot⟩
          · -- a count that was read is always followed by a tick
            rw [onTick, Traced.tell_bind_yields] at hx
            obtain ⟨_, -, hnil⟩ := hx
            exact absurd hnil (by simp)
          · obtain ⟨hzero, hcur⟩ := runSlot_still hslot
            exact .inr ⟨exp, calls, es, rfl, rfl, hzero, hcur⟩

/-! ### Stamps and ticks -/

/-- The stay of a task by the totals and by the ticks. -/
structure Agrees (s : Stay Span) (s' : Stay Nat) : Prop where
  since : s'.since = s.since.map Span.after
  calls : s'.calls = s.calls.map Span.after
  spans : ∀ span ∈ s.calls, span.before < span.after
  twice : s'.twice = s.twice

section Agrees
variable {task : TaskId} {s : Stay Span} {s' : Stay Nat} {span : Span}

/-- One more event, in a call whose total after it is the tick of the event. -/
theorem Agrees.next (h : Agrees s s') {e : Event}
    (hcall : ∀ x func param, e = .doit x func param → span.before < span.after) :
    Agrees (s.next task (span, e)) (s'.next task (span.after, e)) := by
  obtain ⟨hsince, hcalls, hspans, htwice⟩ := h
  unfold Stay.next
  cases e with
  | tick => exact ⟨hsince, hcalls, hspans, htwice⟩
  | added x =>
      by_cases hx : x = task
      · simp only [if_pos hx]
        -- a stay begins, without a call so far
        refine ⟨rfl, rfl, fun _ hmem => absurd hmem List.not_mem_nil, ?_⟩
        show (s'.twice || s'.since.isSome) = (s.twice || s.since.isSome)
        rw [htwice, hsince, Option.isSome_map]
      · simp only [if_neg hx]
        exact ⟨hsince, hcalls, hspans, htwice⟩
  | removed x =>
      by_cases hx : x = task
      · simp only [if_pos hx]
        exact ⟨rfl, hcalls, hspans, htwice⟩
      · simp only [if_neg hx]
        exact ⟨hsince, hcalls, hspans, htwice⟩
  | doit x func param =>
      by_cases hx : x = task
      · simp only [if_pos hx]
        -- the call is at the tick of the event, which is behind the last total
        refine ⟨hsince, ?_, ?_, htwice⟩
        · show s'.calls ++ [span.after] = (s.calls ++ [span]).map Span.after
          rw [hcalls, List.map_append]
          rfl
        · intro c hc
          rcases List.mem_append.mp hc with hc | hc
          · exact hspans c hc
          · obtain rfl := List.mem_singleton.mp hc
            exact hcall x func param rfl
      · simp only [if_neg hx]
        exact ⟨hsince, hcalls, hspans, htwice⟩

variable (task span) in
/-- The rest of a call, behind its tick. -/
theorem Agrees.events {es : List Event} (hticks : ticks es = 0)
    (hcall : ∀ x func param, .doit x func param ∈ es → span.before < span.after) :
    ∀ {s : Stay Span} {s' : Stay Nat}, Agrees s s' →
      Agrees ((es.map fun e => (span, e)).foldl (Stay.next task) s)
        ((timed span.after es).foldl (Stay.next task) s') := by
  induction es with
  | nil =>
      intro s s' h
      exact h
  | cons e es ih =>
      intro s s' h
      have he : e ≠ .tick := by
        rintro rfl
        rw [ticks, List.count_cons_self] at hticks
        omega
      have hrest : ticks es = 0 := by
        rw [ticks, List.count_cons_of_ne he] at hticks
        exact hticks
      rw [List.map_cons, timed, if_neg he, List.foldl_cons, List.foldl_cons]
      refine ih hrest (fun x func param hmem => hcall x func param (List.mem_cons_of_mem _ hmem))
        (h.next ?_)
      rintro x func param rfl
      exact hcall x func param (List.mem_cons_self ..)

end Agrees

/-! ### Whole runs -/

/-- What a punctual run keeps: the total is the number of ticks, and the stays by the totals are
the stays by the ticks. -/
structure InStep (log : List (Span × Event)) (s : Wheel × Nat) : Prop where
  total : s.2 = ticks (log.map Prod.snd)
  clock : s.1.curTick = slotOf s.2
  stays : ∀ task, Agrees (stay task log) (life task (log.map Prod.snd))

/-- A step beside the total is a step of the wheel. -/
theorem clockedStep_yields {s s' : Wheel × Nat} {op : Op} {es : List (Span × Event)}
    (h : (clockedStep s op).Yields es s') :
    ∃ fs, (step s.1 op).Yields fs s'.1 ∧ s'.2 = s.2 + counts op ∧
      es = fs.map fun e => ({ before := s.2, after := s.2 + counts op }, e) := by
  obtain ⟨hlog, hvalue⟩ := h
  obtain ⟨w, hw, rfl⟩ := Option.map_eq_some_iff.mp hvalue
  exact ⟨(step s.1 op).log, ⟨rfl, hw⟩, rfl, hlog.symm⟩

/-- Forgetting the stamps of a call. -/
theorem map_snd_stamped (log : List (Span × Event)) (span : Span) (fs : List Event) :
    (log ++ fs.map fun e => (span, e)).map Prod.snd = log.map Prod.snd ++ fs := by
  rw [List.map_append, List.map_map]
  congr 1
  exact List.map_id fs

theorem InStep.step {log es : List (Span × Event)} {s s' : Wheel × Nat} {op : Op}
    (h : InStep log s) (hpunctual : Punctual op) (hstep : (clockedStep s op).Yields es s') :
    InStep (log ++ es) s' := by
  obtain ⟨fs, hfs, htotal, rfl⟩ := clockedStep_yields hstep
  have hold := h.total
  rcases step_events hfs with
    ⟨hzero, hcounts, hcur, hcall⟩ | ⟨exp, calls, gs, rfl, rfl, hzero, hcur⟩
  · -- the total and the ticks stand still together
    rw [hcounts, Nat.add_zero] at htotal ⊢
    refine ⟨?_, ?_, fun task => ?_⟩
    · rw [map_snd_stamped, ticks_append, hzero, Nat.add_zero, htotal, hold]
    · rw [hcur, htotal, h.clock]
    · rw [map_snd_stamped, stay, List.foldl_append, life, timed_append, stay, List.foldl_append,
        Nat.zero_add, ← hold]
      exact Agrees.events task ⟨s.2, s.2⟩ hzero
        (fun x func param hmem => absurd hmem (hcall x func param)) (h.stays task)
  · obtain rfl : exp = 1 := hpunctual
    -- a punctual call reports one expiration, and ticks once
    have htick : ticks (Event.tick :: gs) = 1 := by
      rw [ticks, List.count_cons_self]
      exact congrArg (· + 1) hzero
    refine ⟨?_, ?_, fun task => ?_⟩
    · rw [map_snd_stamped, ticks_append, htick, htotal, hold]
      rfl
    · rw [hcur, htotal, h.clock, slotOf_succ]
      rfl
    · rw [map_snd_stamped, stay, List.foldl_append, life, timed_append, stay, List.foldl_append,
        Nat.zero_add, ← hold, List.map_cons, timed, if_pos rfl, List.foldl_cons, List.foldl_cons]
      exact Agrees.events task ⟨s.2, s.2 + 1⟩ hzero (fun _ _ _ _ => Nat.lt_succ_self _)
        (h.stays task)

/-- In a run in which every count is one, no tick meets a task with more than a round to go, and no
task is added while it is in the wheel, the wheel keeps time. -/
theorem keeps_time_of_punctual {tasks : TaskId → Option Task} {ops : List Op}
    {log : List (Span × Event)} {w : Wheel} {total : Nat}
    (hrun : Traced.Run clockedStep OnTime (Wheel.init tasks, 0) ops log (w, total))
    (hfresh : ∀ task, (stay task log).twice = false) : KeepsTime tasks log w total := by
  have hstep : InStep log (w, total) := by
    have hinit : InStep [] (Wheel.init tasks, 0) :=
      ⟨rfl, rfl, fun _ => ⟨rfl, rfl, fun _ hmem => absurd hmem List.not_mem_nil, rfl⟩⟩
    refine hrun.invariant (P := fun _ log s => InStep log s) hinit ?_
    intro l log s op es s' h hontime hyields
    exact h.step hontime.1 hyields
  refine ⟨congrArg Fin.val hstep.clock, ?_⟩
  intro task t span hobj hk hsince
  have hinv : Inv task t w [] (log.map Prod.snd) false := by
    refine hrun.invariant (P := fun _ log s => Inv task t s.1 [] (log.map Prod.snd) false)
      (inv_init hobj) ?_
    intro l log s op es s' h hontime hyields
    obtain ⟨fs, hfs, -, rfl⟩ := clockedStep_yields hyields
    rw [map_snd_stamped]
    refine step_inv h ?_ hfs
    rintro ret calls rfl
    exact h.ready fun u hmem hu => hontime.2 task hmem u hu
  obtain ⟨hsince', hcalls', hspans, htwice'⟩ := hstep.stays task
  rw [hsince] at hsince'
  rw [hfresh] at htwice'
  -- the first call is the one numbered zero, and it falls due at the deadline
  have hdue : due t span.after 0 = span.after + t.setInterval.toNat := by
    rw [due_zero, deadline]
    omega
  have hfirst : ∀ {n j : Nat}, (life task (log.map Prod.snd)).since = some n →
      (life task (log.map Prod.snd)).calls = dues t n (j + 1) →
      Served (span.after + t.setInterval.toNat) total (stay task log).calls := by
    intro n j hn hcalls
    obtain rfl : n = span.after := Option.some.inj (hn.symm.trans hsince')
    rw [hcalls'] at hcalls
    cases hlist : (stay task log).calls with
    | nil =>
        rw [hlist, dues_succ] at hcalls
        exact absurd hcalls (by simp)
    | cons first rest =>
        rw [hlist, dues, List.range_succ_eq_map, List.map_cons, List.map_cons] at hcalls
        have hafter : first.after = due t span.after 0 := (List.cons.inj hcalls).1
        have hlt := hspans first (by rw [hlist]; exact List.mem_cons_self ..)
        exact ⟨by omega, by omega⟩
  cases hinv.tracked htwice' with
  | out u hnone => exact absurd (hnone.symm.trans hsince') (by simp)
  | flying _ _ _ _ _ _ _ hflight => exact absurd hflight (by simp)
  | finished n j hn hcalls => exact hfirst hn hcalls
  | waiting n j u hn hcalls _ _ _ _ _ _ hlt =>
      cases j with
      | succ j => exact hfirst hn hcalls
      | zero =>
          -- not called yet, and the total is still before the deadline
          obtain rfl : n = span.after := Option.some.inj (hn.symm.trans hsince')
          have hnil : (stay task log).calls = [] := by
            rw [hcalls'] at hcalls
            exact List.map_eq_nil_iff.mp hcalls
          rw [hnil]
          show total < _
          rw [← hdue, show total = ticks (log.map Prod.snd) from hstep.total]
          exact hlt

/-- A task for the next interval but one. -/
def lateTasks : TaskId → Option Task
  | 0 => some { setInterval := 2, doit := some 7, param := 5 }
  | _ => none

/-- The task is called in the second of two ticks that come on time. -/
theorem keeps_time_of_punctual_two :
    ∃ log w, Traced.Run clockedStep OnTime (Wheel.init lateTasks, 0)
      [.addTask 0, .onTick (.expirations 1) [], .onTick (.expirations 1) []] log (w, 2) ∧
      KeepsTime lateTasks log w 2 := by
  have hrun : ∃ log w, Traced.Run clockedStep OnTime (Wheel.init lateTasks, 0)
      [.addTask 0, .onTick (.expirations 1) [], .onTick (.expirations 1) []] log (w, 2) ∧
      log = [({ before := 0, after := 0 }, .added 0), ({ before := 0, after := 1 }, .tick),
        ({ before := 1, after := 2 }, .tick), ({ before := 1, after := 2 }, .doit 0 7 5)] := by
    refine ⟨_, _, .snoc (.snoc (.snoc (l := []) .nil ?add ⟨rfl, rfl⟩) ?first ⟨rfl, rfl⟩) ?second
      ⟨rfl, rfl⟩, rfl⟩
    case add => exact ⟨trivial, trivial⟩
    case first =>
      refine ⟨rfl, fun x hmem => ?_⟩
      -- the slot of the first tick is empty
      exact absurd (show x ∈ [] from hmem) List.not_mem_nil
    case second =>
      refine ⟨rfl, fun x hmem t hobj => ?_⟩
      obtain rfl := List.mem_singleton.mp (show x ∈ [0] from hmem)
      obtain rfl := Option.some.inj hobj
      show (2 : Int) ≤ SLOTNUM
      decide
  obtain ⟨log, w, hrun, rfl⟩ := hrun
  refine ⟨_, w, hrun, keeps_time_of_punctual hrun fun task => ?_⟩
  by_cases h : 0 = task
  · subst h
    rfl
  · simp [stay, Stay.next, h]

/-- The loop was busy for two intervals: the one `onTick` that reads them serves the first slot
only. -/
theorem late_not_served :
    ∃ log w, Traced.Run clockedStep (fun _ op => Reads op) (Wheel.init lateTasks, 0)
      [.addTask 0, .onTick (.expirations 2) []] log (w, 2) ∧
      (∀ task, (stay task log).twice = false) ∧ ¬ KeepsTime lateTasks log w 2 := by
  have hrun : ∃ log w, Traced.Run clockedStep (fun _ op => Reads op) (Wheel.init lateTasks, 0)
      [.addTask 0, .onTick (.expirations 2) []] log (w, 2) ∧
      log = [({ before := 0, after := 0 }, .added 0), ({ before := 0, after := 2 }, .tick)] := by
    refine ⟨_, _, .snoc (.snoc (l := []) .nil ?_ ⟨rfl, rfl⟩) ?_ ⟨rfl, rfl⟩, ?_⟩
    · trivial
    · show 1 ≤ 2
      decide
    · decide
  obtain ⟨log, w, hrun, rfl⟩ := hrun
  refine ⟨_, w, hrun, fun task => ?_, fun h => ?_⟩
  · by_cases h : 0 = task
    · subst h
      rfl
    · simp [stay, Stay.next, h]
  · -- the total has reached the deadline, and there was no call
    have hlt : 2 < 2 := h.calls 0 _ _ rfl (by decide) rfl
    exact absurd hlt (by decide)

end Ndsl.Proofs.TimeWheel
