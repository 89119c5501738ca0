import Ndsl.Net.RecvTimers
import Ndsl.Proofs.TimeWheel.NoneLost
import Ndsl.Proofs.TimeWheel.Steps

/-!
# `Ndsl.Proofs.Dtp.RecvTimers`: the timers of the requests for files

Two parties free the task of a request: `agreeRecvFile`, which cancels it first, and `onTick`, which
has run it. `timeMp_` keeps one task for each client, the first one, and never forgets it. So the
first acceptance of a client frees its task, and every later one uses the freed object again.

`TimersSound` is the law: no task object is used or deleted after it was deleted, and a request
whose offer is accepted before `WAITTIMEOUT` ticks have passed gets no notice of failure.
`timers_sound_of_careful` says that it holds in every run in which `agreeRecvFile` is called only
when the entry of the client in `timeMp_` is a task that is still there, and is the one of the
request.

The invariant has two parts. `Objects` says which objects there are, and where the wheel holds them;
`Timing` says how many ticks ago the tasks on the wheel were asked for.
-/

set_option autoImplicit false

namespace Ndsl.Proofs.RecvTimers

open Ndsl.Lib
open Ndsl.Net
open Ndsl.Net.TimeWheel
open Ndsl.Net.RecvTimers (State RecvFileInfo newTask handleRecvfileFail onTimer uses
  HANDLERECVFILEFAIL)
open Ndsl.Proofs.Timer (inHand Held fresh)
open Ndsl.Proofs.TimeWheel (slotOf slotOf_succ)

/-! ### The law -/

/-- What a trace does to the task objects. -/
def accesses (log : List RecvTimers.Event) : List (Access TaskId) :=
  log.filterMap fun
    | .access x => some x
    | _ => none

/-- The ticks in a trace. -/
def ticks (log : List RecvTimers.Event) : Nat := log.count .tick

/-- The offer for the request was accepted before `WAITTIMEOUT` ticks had passed. -/
def Accepted (task : TaskId) (log : List RecvTimers.Event) : Prop :=
  ∃ pre client mid post,
    log = pre ++ .request task client :: (mid ++ .accept client (some task) :: post) ∧
      ticks mid < WAITTIMEOUT

/-- The timers of the requests are used as they should. -/
structure TimersSound (log : List RecvTimers.Event) : Prop where
  safe : Access.Safe (accesses log)
  silent : ∀ task, Accepted task log → ∀ client msg, .notice task client msg ∉ log

/-! ### The condition -/

/-- The condition on a step: the entry of the client in `timeMp_`, if there is one, is a task that
has not been deleted and that no tick has taken out; and if the request that the offer answers has
its task on the wheel, then it is the entry. -/
def Careful (s : State) : RecvTimers.Op → Prop
  | .agreeRecvFile client answers =>
    (∀ task, s.timeMp_ client = some task →
      s.timer.wheel.tasks task ≠ none ∧ task ∉ inHand s.timer.tick) ∧
    ∀ task, answers = some task → (∃ i, task ∈ s.timer.wheel.slot i) →
      (∃ fileName, s.infos task = some { client_ := client, fileName_ := fileName }) →
      s.timeMp_ client = some task
  | _ => True

/-! ### The trace -/

section Trace
variable {task : TaskId} {log es : List RecvTimers.Event}

@[simp] theorem accesses_append :
    accesses (log ++ es) = accesses log ++ accesses es := List.filterMap_append

@[simp] theorem ticks_append : ticks (log ++ es) = ticks log + ticks es := List.count_append

/-- `P` holds of the number of ticks since the request. -/
def Elapsed (task : TaskId) (log : List RecvTimers.Event) (P : Nat → Prop) : Prop :=
  ∀ pre client post, log = pre ++ .request task client :: post → P (ticks post)

/-- What lies in an extended trace, and not in the extension, lies in the trace. -/
theorem split_of_append {α : Type} {log es pre post : List α} {x : α} (hx : x ∉ es)
    (h : log ++ es = pre ++ x :: post) : ∃ rest, log = pre ++ x :: rest ∧ post = rest ++ es := by
  rcases List.append_eq_append_iff.mp h with ⟨as, rfl, has⟩ | ⟨as, rfl, has⟩
  · -- the part before `x` would reach into the extension
    refine absurd ?_ hx
    rw [has]
    exact List.mem_append_right _ (List.mem_cons_self ..)
  · cases as with
    | nil =>
        rw [List.nil_append] at has
        exact absurd (has ▸ List.mem_cons_self ..) hx
    | cons y as =>
        obtain ⟨rfl, rfl⟩ := List.cons.inj has
        exact ⟨as, rfl, rfl⟩

theorem Elapsed.append {P Q : Nat → Prop} (h : Elapsed task log P)
    (hreq : ∀ client, .request task client ∉ es) (himp : ∀ n, P n → Q (n + ticks es)) :
    Elapsed task (log ++ es) Q := by
  intro pre client post heq
  obtain ⟨rest, hlog, rfl⟩ := split_of_append (hreq client) heq
  rw [ticks_append]
  exact himp _ (h pre client rest hlog)

/-- A request that comes now was not there before. -/
theorem elapsed_request {P : Nat → Prop} {client : Nat}
    (hnew : ∀ client, .request task client ∉ log) (hes : ∀ client, .request task client ∉ es)
    (h : P (ticks es)) : Elapsed task (log ++ .request task client :: es) P := by
  intro pre client' post heq
  rcases List.append_eq_append_iff.mp heq with ⟨as, rfl, has⟩ | ⟨as, rfl, has⟩
  · cases as with
    | nil =>
        obtain ⟨-, rfl⟩ := List.cons.inj has
        exact h
    | cons y as =>
        obtain ⟨-, rfl⟩ := List.cons.inj has
        exact absurd (List.mem_append_right _ (List.mem_cons_self ..)) (hes client')
  · cases as with
    | nil =>
        obtain ⟨-, rfl⟩ := List.cons.inj has
        exact h
    | cons y as =>
        obtain ⟨rfl, -⟩ := List.cons.inj has
        exact absurd (List.mem_append_right _ (List.mem_cons_self ..)) (hnew client')

/-- Without an acceptance nothing becomes accepted. -/
theorem Accepted.of_append (h : Accepted task (log ++ es))
    (hes : ∀ client, .accept client (some task) ∉ es) : Accepted task log := by
  obtain ⟨pre, client, mid, post, heq, hmid⟩ := h
  rw [← List.cons_append, ← List.append_assoc] at heq
  obtain ⟨rest, hlog, -⟩ := split_of_append (hes client) heq
  rw [List.append_assoc, List.cons_append] at hlog
  exact ⟨pre, client, mid, rest, hlog, hmid⟩

/-- An acceptance for a request that becomes accepted by it. -/
theorem Accepted.of_accept {client : Nat} {answers : Option TaskId}
    (h : Accepted task (log ++ .accept client answers :: es))
    (hes : ∀ client, .accept client (some task) ∉ es) :
    Accepted task log ∨ (answers = some task ∧
      ∃ pre mid, log = pre ++ .request task client :: mid ∧ ticks mid < WAITTIMEOUT) := by
  obtain ⟨pre, client', mid, post, heq, hmid⟩ := h
  rw [← List.cons_append, ← List.append_assoc, ← List.singleton_append, ← List.append_assoc] at heq
  obtain ⟨rest, hlog, -⟩ := split_of_append (hes client') heq
  by_cases hnew : .accept client' (some task) = RecvTimers.Event.accept client answers
  · -- it is this acceptance, or one before it
    obtain ⟨rfl, rfl⟩ := RecvTimers.Event.accept.inj hnew
    rcases List.eq_nil_or_concat rest with rfl | ⟨front, last, rfl⟩
    · obtain ⟨rfl, -⟩ := List.append_inj' hlog rfl
      exact .inr ⟨rfl, pre, mid, rfl, hmid⟩
    · rw [List.concat_eq_append, ← List.cons_append, ← List.append_assoc] at hlog
      obtain ⟨rfl, -⟩ := List.append_inj' hlog rfl
      rw [List.append_assoc, List.cons_append]
      exact .inl ⟨pre, client', mid, front, rfl, hmid⟩
  · obtain ⟨rest', hlog', -⟩ := split_of_append (by rwa [List.mem_singleton]) hlog
    rw [List.append_assoc, List.cons_append] at hlog'
    exact .inl ⟨pre, client', mid, rest', hlog', hmid⟩

end Trace

/-! ### What the timer does -/

section Timer
variable {s : Timer} {sys : Syscalls} {task : TaskId} {infos : TaskId → Option RecvFileInfo}

/-- The task of a request, in the slot `i`. -/
def waiting (task : TaskId) (i : Fin SLOTNUM) : Task :=
  { newTask task with setTick := some i, restInterval := WAITTIMEOUT }

/-- What the timer does is what the requests see of it. -/
theorem view_timer_yields {α : Type} {x : Traced Timer.Event α} {es : List RecvTimers.Event}
    {a : α} : (x.view (onTimer infos) id).Yields es a ↔
      ∃ fs, x.Yields fs a ∧ es = fs.flatMap (onTimer infos) := by
  rw [Traced.view_yields]
  exact ⟨fun ⟨fs, _, hx, hes, rfl⟩ => ⟨fs, hx, hes⟩, fun ⟨fs, hx, hes⟩ => ⟨fs, a, hx, hes, rfl⟩⟩

/-- `start` may clear the slots, and leaves the rest of the wheel alone. -/
theorem ensureStarted_wheel (s : Timer) (hpositive : sys.Positive) :
    0 ≤ (s.ensureStarted sys).1 ∧ (s.ensureStarted sys).2.tick = s.tick ∧
      (s.ensureStarted sys).2.wheel.curTick = s.wheel.curTick ∧
      (s.ensureStarted sys).2.wheel.tasks = s.wheel.tasks ∧
      ∀ i, ((s.ensureStarted sys).2.wheel.slot i).Sublist (s.wheel.slot i) := by
  have hsame : ∀ ret : Int, 0 ≤ ret → 0 ≤ ret ∧ s.tick = s.tick ∧
      s.wheel.curTick = s.wheel.curTick ∧ s.wheel.tasks = s.wheel.tasks ∧
      ∀ i, (s.wheel.slot i).Sublist (s.wheel.slot i) :=
    fun ret hret => ⟨hret, rfl, rfl, rfl, fun i => .refl _⟩
  have hret : 0 ≤ (s.start sys).1 := by
    rcases Timer.start_cases s hpositive with ⟨-, hok, -⟩ | ⟨-, hmem, -⟩
    · rw [hok]
      decide
    · exact Int.le_of_lt (hpositive _ hmem)
  cases hwork : s.isWorking_ with
  | true =>
      have heq : s.ensureStarted sys = (S_OK, s) := by
        simp only [Timer.ensureStarted, hwork, if_true]
      rw [heq]
      exact hsame S_OK (by decide)
  | false =>
      have heq : s.ensureStarted sys = s.start sys := by
        simp only [Timer.ensureStarted, hwork, Bool.false_eq_true, if_false]
      rw [heq]
      refine ⟨hret, ?_⟩
      -- the calls of `start` in turn; the slots are cleared behind the first
      obtain ⟨create, settime, epoll⟩ := sys
      cases create with
      | some errno =>
          rw [Timer.start_of_create hpositive rfl]
          exact (hsame 0 (Int.le_refl 0)).2
      | none =>
          have hclears : ∀ i, ([] : List TaskId).Sublist (s.wheel.slot i) :=
            fun i => List.nil_sublist _
          cases settime with
          | some errno => exact ⟨rfl, rfl, rfl, hclears⟩
          | none =>
              cases epoll with
              | some errno => exact ⟨rfl, rfl, rfl, hclears⟩
              | none => exact ⟨rfl, rfl, rfl, hclears⟩

/-- `WAITTIMEOUT` ticks ahead is a slot. -/
theorem slotAfter_waittimeout {c : Fin SLOTNUM} {n : Nat} (hc : c = slotOf n) :
    slotAfter c WAITTIMEOUT = pure (slotOf (n + WAITTIMEOUT)) := by
  have hlt : c.val < 60 := c.isLt
  have hval : c.val = n % 60 := by rw [hc]; rfl
  refine Ndsl.Proofs.TimeWheel.slotAfter_eq ?_ ?_ ?_
  · omega
  · simp only [WAITTIMEOUT, INT_MAX]
    omega
  · show (n + WAITTIMEOUT) % 60 = ((c : Int) + WAITTIMEOUT).toNat % 60
    simp only [WAITTIMEOUT]
    omega

/-- `runAfter` puts a new task `WAITTIMEOUT` ticks ahead. The requests see nothing of it. -/
theorem runAfter_newTask {n : Nat} (infos : TaskId → Option RecvFileInfo)
    (hpositive : sys.Positive) (hclock : s.wheel.curTick = slotOf n)
    (hobj : s.wheel.tasks task = some (newTask task)) :
    ∃ ret timer base, ((s.runAfter sys task).view (onTimer infos) id).Yields [] (ret, timer) ∧
      (∀ i, (base i).Sublist (s.wheel.slot i)) ∧ timer.tick = s.tick ∧
      timer.wheel.curTick = s.wheel.curTick ∧
      timer.wheel.tasks = Function.update s.wheel.tasks task
        (some (waiting task (slotOf (n + WAITTIMEOUT)))) ∧
      timer.wheel.slot = Function.update base (slotOf (n + WAITTIMEOUT))
        (base (slotOf (n + WAITTIMEOUT)) ++ [task]) := by
  obtain ⟨hret, htick, hcur, htasks, hslots⟩ := ensureStarted_wheel s hpositive
  have hadd : (addTask (s.ensureStarted sys).2.wheel task).Yields [.added task]
      (((s.ensureStarted sys).2.wheel.store task (waiting task (slotOf (n + WAITTIMEOUT)))).pushBack
        (slotOf (n + WAITTIMEOUT)) task, S_OK) := by
    refine Ndsl.Proofs.TimeWheel.addTask_of_valid (t := newTask task) ?_ ?_ ?_
    · rw [htasks, hobj]
    · simp [newTask, WAITTIMEOUT]
    · rw [if_neg (by simp [newTask, WAITTIMEOUT])]
      exact slotAfter_waittimeout (hcur.trans hclock)
  refine ⟨S_OK, { (s.ensureStarted sys).2 with wheel := ((s.ensureStarted sys).2.wheel.store task
    (waiting task (slotOf (n + WAITTIMEOUT)))).pushBack (slotOf (n + WAITTIMEOUT)) task },
    (s.ensureStarted sys).2.wheel.slot, view_timer_yields.mpr
    ⟨[.wheel (.added task), .runAfter task (s.ensureStarted sys).2.works], ?_, rfl⟩, hslots, htick,
    hcur, ?_, rfl⟩
  · simp only [Timer.runAfter, if_neg (Int.not_lt.mpr hret)]
    rw [Traced.bind_yields]
    refine ⟨[.wheel (.added task)], _, _, Timer.onWheel_yields.mpr ⟨_, hadd, rfl⟩, ?_, rfl⟩
    exact ⟨rfl, rfl⟩
  · show Function.update _ task _ = _
    rw [htasks]

/-- `cancelRunAfter` takes a task out of the slot that it names, if it is there. -/
theorem cancelRunAfter_yields {t : Task} (infos : TaskId → Option RecvFileInfo)
    (hobj : s.wheel.tasks task = some t) :
    ∃ ret slot, ((s.cancelRunAfter task).view (onTimer infos) id).Yields []
        (ret, { s with wheel := { s.wheel with slot := slot } }) ∧
      (∀ i, (slot i).Sublist (s.wheel.slot i)) ∧
      ∀ i, t = waiting task i → slot i = (s.wheel.slot i).erase task := by
  -- a `removeTask` that returns shows nothing to the requests
  have hreturns : ∀ {fs : List TimeWheel.Event} {slot : Fin SLOTNUM → List TaskId} {ret : Int},
      fs.flatMap (fun e => onTimer infos (.wheel e)) = [] →
      (removeTask s.wheel task).Yields fs ({ s.wheel with slot := slot }, ret) →
      ((s.cancelRunAfter task).view (onTimer infos) id).Yields []
        (ret, { s with wheel := { s.wheel with slot := slot } }) := by
    intro fs slot ret hnil hremove
    refine view_timer_yields.mpr ⟨fs.map .wheel, ?_, ?_⟩
    · rw [Timer.cancelRunAfter, Traced.bind_yields]
      exact ⟨_, _, [], Timer.onWheel_yields.mpr ⟨fs, hremove, rfl⟩, ⟨rfl, rfl⟩,
        (List.append_nil _).symm⟩
    · rw [List.flatMap_map]
      exact hnil.symm
  have hrefused : ∀ {ret : Int}, (removeTask s.wheel task).Yields [] (s.wheel, ret) →
      ((s.cancelRunAfter task).view (onTimer infos) id).Yields []
        (ret, { s with wheel := { s.wheel with slot := s.wheel.slot } }) :=
    fun h => hreturns rfl h
  -- a task of a request has a time and a function, so it is not refused
  by_cases hinvalid : t.setInterval = -1 ∨ t.doit = none
  · refine ⟨S_FALSE, s.wheel.slot, hrefused ?_, fun i => .refl _, ?_⟩
    · rw [removeTask, Wheel.deref, hobj]
      simp only [Traced.pure_bind]
      rw [if_pos hinvalid]
      exact ⟨rfl, rfl⟩
    · rintro i rfl
      simp [waiting, newTask, WAITTIMEOUT] at hinvalid
  · cases htick : t.setTick with
    | none =>
        refine ⟨S_FALSE, s.wheel.slot, hrefused ?_, fun i => .refl _, ?_⟩
        · rw [removeTask, Wheel.deref, hobj]
          simp only [Traced.pure_bind, htick]
          rw [if_neg hinvalid]
          exact ⟨rfl, rfl⟩
        · rintro i rfl
          exact absurd htick.symm (Option.some_ne_none i).symm
    | some j =>
        have hremoved : [TimeWheel.Event.removed task].flatMap
            (fun e => onTimer infos (.wheel e)) = [] := rfl
        -- the slot that the task names is searched, and no other
        by_cases hmem : task ∈ s.wheel.slot j
        · refine ⟨S_OK, Function.update s.wheel.slot j ((s.wheel.slot j).erase task),
            hreturns hremoved ?_, fun i => ?_, ?_⟩
          · rw [removeTask, Wheel.deref, hobj]
            simp only [Traced.pure_bind, htick]
            rw [if_neg hinvalid, if_neg (not_not.mpr hmem)]
            exact ⟨rfl, rfl⟩
          · by_cases hi : i = j
            · subst hi
              rw [Function.update_self]
              exact List.erase_sublist
            · rw [Function.update_of_ne hi]
          · rintro i rfl
            obtain rfl : i = j := Option.some.inj htick
            rw [Function.update_self]
        · refine ⟨S_FALSE, s.wheel.slot, hrefused ?_, fun i => .refl _, ?_⟩
          · rw [removeTask, Wheel.deref, hobj]
            simp only [Traced.pure_bind, htick]
            rw [if_neg hinvalid, if_pos hmem]
            exact ⟨rfl, rfl⟩
          · rintro i rfl
            obtain rfl : i = j := Option.some.inj htick
            exact (List.erase_of_not_mem hmem).symm

end Timer

/-! ### The invariant -/

/-- Which task objects there are, and where the timer holds them. -/
structure Objects (log : List RecvTimers.Event) (s : State) : Prop where
  safe : Access.Safe (accesses log)
  dead : ∀ t ∈ Access.deleted (accesses log), s.timer.wheel.tasks t = none ∧ s.infos t ≠ none
  slots : ∀ i, ∀ t ∈ s.timer.wheel.slot i, s.timer.wheel.tasks t = some (waiting t i)
  hand : ∀ t ∈ inHand s.timer.tick, ∃ i, s.timer.wheel.tasks t = some (waiting t i)
  nodup : ∀ i, (s.timer.wheel.slot i).Nodup
  handNodup : (inHand s.timer.tick).Nodup
  apart : ∀ t ∈ inHand s.timer.tick, ∀ i, t ∉ s.timer.wheel.slot i
  made : ∀ t, Held t s.timer → s.infos t ≠ none
  entries : ∀ client t, s.timeMp_ client = some t → s.infos t ≠ none

/-- When the tasks that the timer holds were asked for. -/
structure Timing (log : List RecvTimers.Event) (s : State) : Prop where
  clock : s.timer.wheel.curTick = slotOf (ticks log)
  request : ∀ t client, .request t client ∈ log →
    ∃ fileName, s.infos t = some { client_ := client, fileName_ := fileName }
  slots : ∀ i, ∀ t ∈ s.timer.wheel.slot i, Elapsed t log fun n =>
    n < WAITTIMEOUT ∧ i = slotOf (ticks log + (WAITTIMEOUT - n))
  hand : ∀ t ∈ inHand s.timer.tick, Elapsed t log (WAITTIMEOUT ≤ ·)
  due : ∀ t client msg, .notice t client msg ∈ log →
    s.infos t ≠ none ∧ Elapsed t log (WAITTIMEOUT ≤ ·)
  silent : ∀ t, Accepted t log →
    ¬ Held t s.timer ∧ ∀ client msg, .notice t client msg ∉ log

section Steps
variable {log es : List RecvTimers.Event} {s s' : State} {task : TaskId}

/-- An object that is there was not deleted. -/
theorem Objects.not_deleted (h : Objects log s) {t : Task}
    (hobj : s.timer.wheel.tasks task = some t) : task ∉ Access.deleted (accesses log) := by
  intro hmem
  rw [(h.dead task hmem).1] at hobj
  exact Option.some_ne_none t hobj.symm

/-- An object that was never made was not deleted, and nobody holds it. -/
theorem Objects.not_made (h : Objects log s) (hinfo : s.infos task = none) :
    task ∉ Access.deleted (accesses log) ∧ ¬ Held task s.timer :=
  ⟨fun hmem => (h.dead task hmem).2 hinfo, fun hheld => h.made task hheld hinfo⟩

/-- The requests of a trace are those for which there is a `RecvFileInfo`. -/
theorem Timing.not_requested (h : Timing log s) (hinfo : s.infos task = none) (client : Nat) :
    .request task client ∉ log := by
  intro hmem
  obtain ⟨fileName, hsome⟩ := h.request task client hmem
  rw [hinfo] at hsome
  exact Option.some_ne_none _ hsome.symm

/-- An accepted request was made. -/
theorem Timing.accepted_made (h : Timing log s) (haccepted : Accepted task log) :
    s.infos task ≠ none := by
  obtain ⟨pre, client, mid, post, rfl, -⟩ := haccepted
  intro hinfo
  exact h.not_requested hinfo client (List.mem_append_right _ (List.mem_cons_self ..))

/-! ### `recvFile` -/

/-- What a request for a new task has done, `n` ticks after the start. -/
structure Requested (n : Nat) (task : TaskId) (client : Nat) (filename : List UInt8)
    (s s' : State) : Prop where
  tick : s'.timer.tick = s.timer.tick
  curTick : s'.timer.wheel.curTick = s.timer.wheel.curTick
  tasks : s'.timer.wheel.tasks = Function.update s.timer.wheel.tasks task
    (some (waiting task (slotOf (n + WAITTIMEOUT))))
  slot : ∃ base : Fin SLOTNUM → List TaskId, (∀ i, (base i).Sublist (s.timer.wheel.slot i)) ∧
    s'.timer.wheel.slot = Function.update base (slotOf (n + WAITTIMEOUT))
      (base (slotOf (n + WAITTIMEOUT)) ++ [task])
  timeMp_ : s'.timeMp_ = RecvTimers.insert s.timeMp_ client task
  infos : s'.infos = Function.update s.infos task
    (some { client_ := client, fileName_ := filename })

/-- `recvFile` makes an object and puts it on the wheel. -/
theorem recvFile_effect {sys : Syscalls} {n : Nat} (task : TaskId) (client : Nat)
    (filename : List UInt8) (hclock : s.timer.wheel.curTick = slotOf n) (hpositive : sys.Positive) :
    ∃ s', (RecvTimers.recvFile sys task client filename s).Yields
        [.request task client, .access (.use task)] s' ∧
      Requested n task client filename s s' := by
  obtain ⟨ret, timer, base, hrun, hbase, htick, hcur, htasks, hslot⟩ :=
    runAfter_newTask (s := { s.timer with wheel := s.timer.wheel.store task (newTask task) })
      (Function.update s.infos task (some { client_ := client, fileName_ := filename }))
      hpositive hclock (Function.update_self task _ _)
  refine ⟨{ timer := timer, timeMp_ := RecvTimers.insert s.timeMp_ client task, infos := _ }, ?_,
    htick, hcur, ?_, ⟨base, hbase, hslot⟩, rfl, rfl⟩
  · rw [RecvTimers.recvFile, Traced.tell_bind_yields]
    refine ⟨[.access (.use task)], ?_, rfl⟩
    rw [Traced.tell_bind_yields]
    refine ⟨[], ?_, rfl⟩
    rw [Traced.bind_yields]
    exact ⟨[], _, [], hrun, ⟨rfl, rfl⟩, rfl⟩
  · rw [htasks]
    exact Function.update_idem ..

section Requested
variable {n : Nat} {client : Nat} {filename : List UInt8}

/-- What is on the wheel now is the new task, and what has been left there. -/
theorem Requested.mem_slot (h : Requested n task client filename s s')
    (hheld : ¬ Held task s.timer) {i : Fin SLOTNUM} {t : TaskId}
    (ht : t ∈ s'.timer.wheel.slot i) :
    (t ≠ task ∧ t ∈ s.timer.wheel.slot i) ∨ (t = task ∧ i = slotOf (n + WAITTIMEOUT)) := by
  obtain ⟨base, hbase, hslot⟩ := h.slot
  have hold : t ∈ base i → t ≠ task ∧ t ∈ s.timer.wheel.slot i := by
    intro hin
    have hin' := (hbase i).subset hin
    refine ⟨?_, hin'⟩
    rintro rfl
    exact hheld (.inl ⟨i, hin'⟩)
  rw [hslot] at ht
  by_cases hi : i = slotOf (n + WAITTIMEOUT)
  · rw [hi, Function.update_self] at ht
    rcases List.mem_append.mp ht with hin | hin
    · exact .inl (hold (hi ▸ hin))
    · exact .inr ⟨List.mem_singleton.mp hin, hi⟩
  · rw [Function.update_of_ne hi] at ht
    exact .inl (hold ht)

theorem Requested.nodup (h : Requested n task client filename s s')
    (hheld : ¬ Held task s.timer) (hnodup : ∀ i, (s.timer.wheel.slot i).Nodup)
    (i : Fin SLOTNUM) : (s'.timer.wheel.slot i).Nodup := by
  obtain ⟨base, hbase, hslot⟩ := h.slot
  have hold : (base i).Nodup := (hnodup i).sublist (hbase i)
  rw [hslot]
  by_cases hi : i = slotOf (n + WAITTIMEOUT)
  · subst hi
    rw [Function.update_self]
    refine List.nodup_append.mpr ⟨hold, List.pairwise_singleton .., ?_⟩
    intro a ha b hb
    obtain rfl := List.mem_singleton.mp hb
    rintro rfl
    exact hheld (.inl ⟨_, (hbase _).subset ha⟩)
  · rwa [Function.update_of_ne hi]

theorem Requested.mem_hand (h : Requested n task client filename s s')
    (hheld : ¬ Held task s.timer) {t : TaskId} (ht : t ∈ inHand s'.timer.tick) :
    t ≠ task ∧ t ∈ inHand s.timer.tick := by
  rw [h.tick] at ht
  refine ⟨?_, ht⟩
  rintro rfl
  exact hheld (.inr ht)

/-- The other requests are what they were. -/
theorem Requested.infos_eq (h : Requested n task client filename s s')
    (hinfo : s.infos task = none) {t : TaskId} (ht : s.infos t ≠ none) :
    s'.infos t = s.infos t := by
  rw [h.infos, Function.update_of_ne]
  rintro rfl
  exact ht hinfo

theorem Requested.infos_self (h : Requested n task client filename s s') :
    s'.infos task = some { client_ := client, fileName_ := filename } := by
  rw [h.infos, Function.update_self]

/-- An entry for another task was there before. -/
theorem Requested.entry (h : Requested n task client filename s s') {c : Nat} {t : TaskId}
    (hne : t ≠ task) (ht : s'.timeMp_ c = some t) : s.timeMp_ c = some t := by
  rw [h.timeMp_, RecvTimers.insert] at ht
  by_cases hc : c = client
  · rw [hc, Function.update_self] at ht
    rw [hc]
    cases hentry : s.timeMp_ client with
    | none =>
        rw [hentry, Option.none_or] at ht
        exact absurd (Option.some.inj ht).symm hne
    | some u => rwa [hentry, Option.some_or] at ht
  · rwa [Function.update_of_ne hc] at ht

/-- A request makes one object more. -/
theorem Objects.request (h : Objects log s) (hrequested : Requested n task client filename s s')
    (hinfo : s.infos task = none) :
    Objects (log ++ [.request task client, .access (.use task)]) s' := by
  obtain ⟨hdeleted, hheld⟩ := h.not_made hinfo
  -- records that were there stay
  have hmade : ∀ t, s.infos t ≠ none → s'.infos t ≠ none := by
    intro t ht
    rwa [hrequested.infos_eq hinfo ht]
  have hself : s'.infos task ≠ none := by
    rw [hrequested.infos_self]
    exact Option.some_ne_none _
  exact {
    safe := by
      rw [accesses_append, Access.safe_append]
      exact ⟨h.safe, hdeleted, trivial⟩
    dead := by
      -- the new object was not deleted before, so it is none of these
      intro t ht
      rw [accesses_append, Access.deleted_append] at ht
      have hold : t ∈ Access.deleted (accesses log) :=
        (List.mem_append.mp ht).resolve_right List.not_mem_nil
      obtain ⟨hnone, hsome⟩ := h.dead t hold
      have hne : t ≠ task := by
        rintro rfl
        exact hdeleted hold
      rw [hrequested.tasks, Function.update_of_ne hne]
      exact ⟨hnone, hmade t hsome⟩
    slots := by
      intro i t ht
      rw [hrequested.tasks]
      -- what is in a slot was there before, or is the new task in its slot
      rcases hrequested.mem_slot hheld ht with ⟨hne, hin⟩ | ⟨rfl, rfl⟩
      · rw [Function.update_of_ne hne]
        exact h.slots i t hin
      · rw [Function.update_self]
    hand := by
      intro t ht
      obtain ⟨hne, hin⟩ := hrequested.mem_hand hheld ht
      rw [hrequested.tasks, Function.update_of_ne hne]
      exact h.hand t hin
    nodup := hrequested.nodup hheld h.nodup
    handNodup := by
      rw [hrequested.tick]
      exact h.handNodup
    apart := by
      -- the new task is in a slot, and not in the hand of the tick
      intro t ht i hin
      obtain ⟨hne, ht'⟩ := hrequested.mem_hand hheld ht
      rcases hrequested.mem_slot hheld hin with ⟨-, hin'⟩ | ⟨heq, -⟩
      · exact h.apart t ht' i hin'
      · exact hne heq
    made := by
      intro t ht
      by_cases heq : t = task
      · rwa [heq]
      · refine hmade t (h.made t ?_)
        rcases ht with ⟨i, hin⟩ | hin
        · exact .inl ⟨i, ((hrequested.mem_slot hheld hin).resolve_right fun h => heq h.1).2⟩
        · exact .inr (hrequested.mem_hand hheld hin).2
    entries := by
      intro c t ht
      by_cases heq : t = task
      · rwa [heq]
      · exact hmade t (h.entries c t (hrequested.entry heq ht)) }

/-- The time of the new request begins. -/
theorem Timing.requested (h : Timing log s)
    (hrequested : Requested (ticks log) task client filename s s') (hinfo : s.infos task = none)
    (hheld : ¬ Held task s.timer) :
    Timing (log ++ [.request task client, .access (.use task)]) s' := by
  -- the new entries of the log are about the new task only
  have hes : ∀ t, t ≠ task → ∀ c, RecvTimers.Event.request t c ∉
      [RecvTimers.Event.request task client, .access (.use task)] := by
    intro t hne c hin
    simp [hne] at hin
  have hticks : ticks [RecvTimers.Event.request task client, .access (.use task)] = 0 := rfl
  exact {
    clock := by
      rw [hrequested.curTick, ticks_append]
      exact h.clock
    request := by
      intro t c hin
      rcases List.mem_append.mp hin with hin | hin
      · obtain ⟨fileName, hsome⟩ := h.request t c hin
        refine ⟨fileName, ?_⟩
        rw [hrequested.infos_eq hinfo (by rw [hsome]; exact Option.some_ne_none _), hsome]
      · obtain ⟨rfl, rfl⟩ : t = task ∧ c = client := by simpa using hin
        exact ⟨filename, hrequested.infos_self⟩
    slots := by
      intro i t ht
      rw [ticks_append, hticks]
      rcases hrequested.mem_slot hheld ht with ⟨hne, hin⟩ | ⟨rfl, rfl⟩
      · exact (h.slots i t hin).append (hes t hne) fun n h => h
      · exact elapsed_request (h.not_requested hinfo) (fun c hin => by simp at hin)
          ⟨Nat.succ_pos _, rfl⟩
    hand := by
      intro t ht
      obtain ⟨hne, hin⟩ := hrequested.mem_hand hheld ht
      exact (h.hand t hin).append (hes t hne) fun n h => h
    due := by
      intro t c msg hin
      -- a notice is of an older request, since the new one has none
      have hold : .notice t c msg ∈ log := by simpa using hin
      obtain ⟨hmade, hdue⟩ := h.due t c msg hold
      have hne : t ≠ task := by
        rintro rfl
        exact hmade hinfo
      rw [hrequested.infos_eq hinfo hmade]
      exact ⟨hmade, hdue.append (hes t hne) fun n h => h⟩
    silent := by
      intro t haccepted
      -- an accepted request is older as well
      have hold : Accepted t log := haccepted.of_append fun c hin => by simp at hin
      obtain ⟨hnot, hquiet⟩ := h.silent t hold
      refine ⟨?_, fun c msg hin => hquiet c msg (by simpa using hin)⟩
      rintro (⟨i, hin⟩ | hin)
      · rcases hrequested.mem_slot hheld hin with ⟨-, hin'⟩ | ⟨rfl, -⟩
        · exact hnot (.inl ⟨i, hin'⟩)
        · exact h.accepted_made hold hinfo
      · exact hnot (.inr (hrequested.mem_hand hheld hin).2) }

end Requested

/-- A request keeps the invariant. -/
theorem recvFile_inv {sys : Syscalls} {client : Nat} {filename : List UInt8}
    (hobjects : Objects log s) (htiming : Timing log s) (hpositive : sys.Positive)
    (hinfo : s.infos task = none) :
    ∃ es s', (RecvTimers.recvFile sys task client filename s).Yields es s' ∧
      Objects (log ++ es) s' ∧ Timing (log ++ es) s' := by
  obtain ⟨s', hrun, hrequested⟩ := recvFile_effect task client filename htiming.clock hpositive
  have hheld := (hobjects.not_made hinfo).2
  exact ⟨_, s', hrun, hobjects.request hrequested hinfo, htiming.requested hrequested hinfo hheld⟩

/-! ### Steps that take away -/

/-- A part of a trace that only accesses objects. -/
def Plain (es : List RecvTimers.Event) : Prop := ∀ e ∈ es, ∃ x, e = .access x

/-- A step that puts nothing on the wheel and nothing into the hands of the tick. -/
structure Shrinks (s s' : State) : Prop where
  curTick : s'.timer.wheel.curTick = s.timer.wheel.curTick
  infos : s'.infos = s.infos
  slots : ∀ i, ∀ t ∈ s'.timer.wheel.slot i, t ∈ s.timer.wheel.slot i
  hand : ∀ t ∈ inHand s'.timer.tick, t ∈ inHand s.timer.tick

theorem Shrinks.held (h : Shrinks s s') (hheld : Held task s'.timer) : Held task s.timer := by
  rcases hheld with ⟨i, hin⟩ | hin
  · exact .inl ⟨i, h.slots i task hin⟩
  · exact .inr (h.hand task hin)

theorem Plain.ticks (h : Plain es) : ticks es = 0 := by
  refine List.count_eq_zero.mpr fun hin => ?_
  obtain ⟨x, hx⟩ := h _ hin
  exact RecvTimers.Event.noConfusion hx

theorem Plain.request (h : Plain es) (client : Nat) : .request task client ∉ es := by
  intro hin
  obtain ⟨x, hx⟩ := h _ hin
  exact RecvTimers.Event.noConfusion hx

theorem Plain.accept (h : Plain es) (client : Nat) (answers : Option TaskId) :
    .accept client answers ∉ es := by
  intro hin
  obtain ⟨x, hx⟩ := h _ hin
  exact RecvTimers.Event.noConfusion hx

theorem Plain.notice (h : Plain es) (client : Nat) (msg : Dtp.ControlMsg) :
    .notice task client msg ∉ es := by
  intro hin
  obtain ⟨x, hx⟩ := h _ hin
  exact RecvTimers.Event.noConfusion hx

/-- Such a step keeps the times of what is left, unless an offer is accepted in it. -/
theorem Timing.shrink (h : Timing log s) (hplain : Plain es) (hs : Shrinks s s') :
    Timing (log ++ es) s' := by
  have hkeep : ∀ {P : Nat → Prop} {t : TaskId}, Elapsed t log P → Elapsed t (log ++ es) P := by
    intro P t helapsed
    refine helapsed.append hplain.request fun n hn => ?_
    rwa [hplain.ticks, Nat.add_zero]
  have hticks : ticks (log ++ es) = ticks log := by
    rw [ticks_append, hplain.ticks, Nat.add_zero]
  refine ⟨?_, ?_, ?_, ?_, ?_, ?_⟩
  · rw [hs.curTick, hticks]
    exact h.clock
  · intro t c hin
    rw [hs.infos]
    exact h.request t c ((List.mem_append.mp hin).resolve_right (hplain.request c))
  · intro i t ht
    rw [hticks]
    exact hkeep (h.slots i t (hs.slots i t ht))
  · exact fun t ht => hkeep (h.hand t (hs.hand t ht))
  · intro t c msg hin
    rw [hs.infos]
    exact (h.due t c msg ((List.mem_append.mp hin).resolve_right (hplain.notice c msg))).imp_right
      hkeep
  · intro t haccepted
    obtain ⟨hnot, hquiet⟩ := h.silent t (haccepted.of_append fun c => hplain.accept c _)
    exact ⟨fun hheld => hnot (hs.held hheld), fun c msg hin =>
      hquiet c msg ((List.mem_append.mp hin).resolve_right (hplain.notice c msg))⟩

/-- An acceptance leaves nothing of the request that it answers. -/
theorem Timing.accept {client : Nat} {answers : Option TaskId} (h : Timing log s)
    (hcareful : Careful s (.agreeRecvFile client answers)) (hs : Shrinks s s')
    (hentry : ∀ t, s.timeMp_ client = some t → ∀ i, t ∉ s'.timer.wheel.slot i) :
    Timing (log ++ [.accept client answers]) s' := by
  have hkeep : ∀ {P : Nat → Prop} {t : TaskId}, Elapsed t log P →
      Elapsed t (log ++ [.accept client answers]) P :=
    fun helapsed => helapsed.append (fun c hin => by simp at hin) fun n h => h
  have hticks : ticks (log ++ [.accept client answers]) = ticks log := by
    rw [ticks_append]
    rfl
  refine ⟨?_, ?_, ?_, ?_, ?_, ?_⟩
  · rw [hs.curTick, hticks]
    exact h.clock
  · intro t c hin
    rw [hs.infos]
    exact h.request t c (by simpa using hin)
  · intro i t ht
    rw [hticks]
    exact hkeep (h.slots i t (hs.slots i t ht))
  · exact fun t ht => hkeep (h.hand t (hs.hand t ht))
  · intro t c msg hin
    rw [hs.infos]
    exact (h.due t c msg (by simpa using hin)).imp_right hkeep
  · intro t haccepted
    rcases haccepted.of_accept fun c => List.not_mem_nil with hold | ⟨rfl, pre, mid, heq, hmid⟩
    · obtain ⟨hnot, hquiet⟩ := h.silent t hold
      exact ⟨fun hheld => hnot (hs.held hheld), fun c msg hin => hquiet c msg (by simpa using hin)⟩
    · -- its ticks have not passed, so it was neither taken out of the wheel nor given notice
      have hnow : ∀ {P : Nat → Prop}, Elapsed t log P → P (ticks mid) :=
        fun helapsed => helapsed pre client mid heq
      refine ⟨?_, fun c msg hin => ?_⟩
      · rintro (⟨i, hin⟩ | hin)
        · have hrequest := h.request t client (by simp [heq])
          exact hentry t (hcareful.2 t rfl ⟨i, hs.slots i t hin⟩ hrequest) i hin
        · exact Nat.not_le_of_lt hmid (hnow (h.hand t (hs.hand t hin)))
      · exact Nat.not_le_of_lt hmid (hnow (h.due t c msg (by simpa using hin)).2)

/-- A step that uses and deletes an object that it has taken away from the timer. -/
theorem Objects.delete {t : Task} (h : Objects log s) (hs : Shrinks s s')
    (hslots : ∀ i, (s'.timer.wheel.slot i).Sublist (s.timer.wheel.slot i))
    (hhand : (inHand s'.timer.tick).Sublist (inHand s.timer.tick))
    (hthere : s.timer.wheel.tasks task = some t) (hmade : s.infos task ≠ none)
    (hgone : ¬ Held task s'.timer)
    (htasks : s'.timer.wheel.tasks = Function.update s.timer.wheel.tasks task none)
    (hmp : s'.timeMp_ = s.timeMp_) (hes : accesses es = [.use task, .delete task]) :
    Objects (log ++ es) s' := by
  have hnot := h.not_deleted hthere
  refine ⟨?_, ?_, ?_, ?_, ?_, ?_, ?_, ?_, ?_⟩
  · rw [accesses_append, hes, Access.safe_append]
    refine ⟨h.safe, hnot, ?_, trivial⟩
    show task ∉ Access.deleted (accesses log) ++ []
    rwa [List.append_nil]
  · intro x hx
    -- the deleted objects are the older ones and this one
    rw [hs.infos, htasks]
    rw [accesses_append, hes, Access.deleted_append] at hx
    by_cases heq : x = task
    · rw [heq, Function.update_self]
      exact ⟨rfl, hmade⟩
    · rw [Function.update_of_ne heq]
      refine h.dead x ((List.mem_append.mp hx).resolve_right fun hin => heq ?_)
      exact List.mem_singleton.mp hin
  · intro i x hx
    rw [htasks, Function.update_of_ne]
    · exact h.slots i x (hs.slots i x hx)
    · rintro rfl
      exact hgone (.inl ⟨i, hx⟩)
  · intro x hx
    rw [htasks, Function.update_of_ne]
    · exact h.hand x (hs.hand x hx)
    · rintro rfl
      exact hgone (.inr hx)
  · exact fun i => (h.nodup i).sublist (hslots i)
  · exact h.handNodup.sublist hhand
  · exact fun x hx i hin => h.apart x (hs.hand x hx) i (hs.slots i x hin)
  · intro x hx
    rw [hs.infos]
    exact h.made x (hs.held hx)
  · intro c x hx
    rw [hs.infos]
    rw [hmp] at hx
    exact h.entries c x hx

/-! ### `agreeRecvFile` -/

/-- A careful acceptance keeps the invariant. -/
theorem agreeRecvFile_inv {client : Nat} {answers : Option TaskId} (hobjects : Objects log s)
    (htiming : Timing log s) (hcareful : Careful s (.agreeRecvFile client answers)) :
    ∃ es s', (RecvTimers.agreeRecvFile client answers s).Yields es s' ∧
      Objects (log ++ es) s' ∧ Timing (log ++ es) s' := by
  cases hentry : s.timeMp_ client with
  | none =>
      -- no entry for the client: nothing but the acceptance is noted
      have hsame : accesses (log ++ [.accept client answers]) = accesses log := by
        rw [accesses_append]
        exact List.append_nil _
      refine ⟨[.accept client answers], s, ?_, ?_, ?_⟩
      · rw [RecvTimers.agreeRecvFile, hentry]
        exact ⟨rfl, rfl⟩
      · exact ⟨by rw [hsame]; exact hobjects.safe, by rw [hsame]; exact hobjects.dead,
          hobjects.slots, hobjects.hand, hobjects.nodup, hobjects.handNodup, hobjects.apart,
          hobjects.made, hobjects.entries⟩
      · refine htiming.accept hcareful ⟨rfl, rfl, fun _ _ h => h, fun _ h => h⟩ fun t ht => ?_
        rw [hentry] at ht
        exact absurd ht.symm (Option.some_ne_none t)
  | some task =>
      -- the entry leads to an object that is there, and that no tick has in its hand
      obtain ⟨hthere, hnotInHand⟩ := hcareful.1 task hentry
      obtain ⟨t, ht⟩ := Option.ne_none_iff_exists'.mp hthere
      obtain ⟨ret, slot, hcancel, hsub, herase⟩ := cancelRunAfter_yields s.infos ht
      have hgone : ∀ i, task ∉ slot i := by
        intro i hin
        have hold := (hsub i).subset hin
        have hwaiting := Option.some.inj (ht.symm.trans (hobjects.slots i task hold))
        rw [herase i hwaiting] at hin
        exact (hobjects.nodup i).not_mem_erase hin
      have hshrinks : Shrinks s { s with timer := { s.timer with
          wheel := Wheel.free { s.timer.wheel with slot := slot } task } } :=
        ⟨rfl, rfl, fun i _ hin => (hsub i).subset hin, fun _ hin => hin⟩
      refine ⟨[.accept client answers, .access (.use task), .access (.delete task)], _, ?_,
        hobjects.delete hshrinks hsub (.refl _) ht (hobjects.entries client task hentry) ?_ rfl rfl
          rfl, ?_⟩
      · rw [RecvTimers.agreeRecvFile, Traced.tell_bind_yields]
        refine ⟨[.access (.use task), .access (.delete task)], ?_, rfl⟩
        simp only [hentry]
        rw [Traced.tell_bind_yields]
        refine ⟨[.access (.delete task)], ?_, rfl⟩
        rw [Traced.bind_yields]
        exact ⟨[], _, _, hcancel, ⟨rfl, rfl⟩, rfl⟩
      · rintro (⟨i, hin⟩ | hin)
        · exact hgone i hin
        · exact hnotInHand hin
      · -- first the offer is accepted, and then the object is deleted
        have haccept := htiming.accept hcareful hshrinks fun x hx i hin => ?_
        · rw [← List.singleton_append, ← List.append_assoc]
          refine haccept.shrink ?_ ⟨rfl, rfl, fun _ _ hin => hin, fun _ hin => hin⟩
          intro e he
          rcases List.mem_cons.mp he with rfl | he
          · exact ⟨_, rfl⟩
          · exact ⟨_, List.mem_singleton.mp he⟩
        · obtain rfl : x = task := Option.some.inj (hx.symm.trans hentry)
          exact hgone i hin

/-! ### `onTick` -/

/-- A tick has begun: it serves the slot `i`. -/
structure Ticked (i : Fin SLOTNUM) (s s' : State) : Prop where
  curTick : s'.timer.wheel.curTick = i
  tasks : s'.timer.wheel.tasks = s.timer.wheel.tasks
  slot : s'.timer.wheel.slot = Function.update s.timer.wheel.slot i []
  hand : inHand s'.timer.tick = s.timer.wheel.slot i
  timeMp_ : s'.timeMp_ = s.timeMp_
  infos : s'.infos = s.infos

/-- A tick takes the tasks of its slot into its hands. An empty slot may as well be emptied. -/
theorem onTick_effect (exp : Nat) (hreturned : s.timer.tick = .returned) :
    ∃ s', (RecvTimers.onTick (.expirations exp) s).Yields [.tick] s' ∧
      Ticked (nextTick s.timer.wheel.curTick) s s' := by
  by_cases hslot : s.timer.wheel.slot (nextTick s.timer.wheel.curTick) = []
  · refine ⟨{ s with timer := { s.timer with wheel := { s.timer.wheel with
      curTick := nextTick s.timer.wheel.curTick } } }, ?_, rfl, rfl, ?_, ?_, rfl, rfl⟩
    · rw [RecvTimers.onTick, Traced.bind_yields]
      refine ⟨[.tick], _, [], view_timer_yields.mpr ⟨[.wheel .tick], ?_, rfl⟩, ⟨rfl, rfl⟩, rfl⟩
      rw [Timer.onTick, Traced.tell_bind_yields]
      refine ⟨[], ?_, rfl⟩
      rw [if_pos hslot]
      exact ⟨rfl, rfl⟩
    · exact (Function.update_eq_self_iff.mpr hslot.symm).symm
    · rw [hslot]
      show inHand s.timer.tick = []
      rw [hreturned]
      rfl
  · refine ⟨{ s with timer := { s.timer with
      wheel := { s.timer.wheel with
        curTick := nextTick s.timer.wheel.curTick
        slot := Function.update s.timer.wheel.slot (nextTick s.timer.wheel.curTick) [] }
      tick := .slot (s.timer.wheel.slot (nextTick s.timer.wheel.curTick)) } }, ?_, rfl, rfl,
      rfl, rfl, rfl, rfl⟩
    rw [RecvTimers.onTick, Traced.bind_yields]
    refine ⟨[.tick], _, [], view_timer_yields.mpr ⟨[.wheel .tick], ?_, rfl⟩, ⟨rfl, rfl⟩, rfl⟩
    rw [Timer.onTick, Traced.tell_bind_yields]
    refine ⟨[], ?_, rfl⟩
    rw [if_neg hslot]
    exact ⟨rfl, rfl⟩

section Ticked
variable {i : Fin SLOTNUM}

theorem Ticked.mem_slot (h : Ticked i s s') {j : Fin SLOTNUM} {t : TaskId}
    (ht : t ∈ s'.timer.wheel.slot j) : j ≠ i ∧ t ∈ s.timer.wheel.slot j := by
  rw [h.slot] at ht
  by_cases hj : j = i
  · rw [hj, Function.update_self] at ht
    exact absurd ht List.not_mem_nil
  · rw [Function.update_of_ne hj] at ht
    exact ⟨hj, ht⟩

theorem Ticked.held (h : Ticked i s s') (hheld : Held task s'.timer) : Held task s.timer := by
  rcases hheld with ⟨j, hin⟩ | hin
  · exact .inl ⟨j, (h.mem_slot hin).2⟩
  · exact .inl ⟨i, h.hand ▸ hin⟩

/-- The objects are the same. -/
theorem Objects.tick (h : Objects log s) (hticked : Ticked i s s') :
    Objects (log ++ [.tick]) s' := by
  have hsame : accesses (log ++ [.tick]) = accesses log := by
    rw [accesses_append]
    exact List.append_nil _
  exact {
    safe := by
      rw [hsame]
      exact h.safe
    dead := by
      rw [hsame, hticked.tasks, hticked.infos]
      exact h.dead
    slots := by
      intro j t ht
      rw [hticked.tasks]
      exact h.slots j t (hticked.mem_slot ht).2
    hand := by
      intro t ht
      rw [hticked.hand] at ht
      rw [hticked.tasks]
      exact ⟨i, h.slots i t ht⟩
    nodup := by
      intro j
      rw [hticked.slot]
      by_cases hj : j = i
      · rw [hj, Function.update_self]
        exact .nil
      · rw [Function.update_of_ne hj]
        exact h.nodup j
    handNodup := by
      rw [hticked.hand]
      exact h.nodup i
    apart := by
      -- a task names the slot it is in, so it is in one slot only
      intro t ht j hin
      rw [hticked.hand] at ht
      obtain ⟨hne, hin'⟩ := hticked.mem_slot hin
      have htwo := (h.slots i t ht).symm.trans (h.slots j t hin')
      have htick := congrArg Task.setTick (Option.some.inj htwo)
      exact hne (Option.some.inj htick).symm
    made := by
      intro t ht
      rw [hticked.infos]
      exact h.made t (hticked.held ht)
    entries := by
      rw [hticked.timeMp_, hticked.infos]
      exact h.entries }

/-- The slot that is served now is that of the requests of `WAITTIMEOUT` ticks ago. -/
theorem served_eq {now n : Nat} (hn : n < WAITTIMEOUT)
    (heq : slotOf (now + (WAITTIMEOUT - n)) = slotOf (now + 1)) : n + 1 = WAITTIMEOUT := by
  have hmod : (now + (WAITTIMEOUT - n)) % 60 = (now + 1) % 60 := congrArg Fin.val heq
  simp only [WAITTIMEOUT] at hn hmod ⊢
  omega

/-- One tick more has passed. -/
theorem Timing.tick (h : Timing log s) (hticked : Ticked (slotOf (ticks log + 1)) s s') :
    Timing (log ++ [.tick]) s' := by
  have hticks : ticks (log ++ [.tick]) = ticks log + 1 := ticks_append
  have hrequest : ∀ t c, RecvTimers.Event.request t c ∉ [RecvTimers.Event.tick] := by
    intro t c hin
    simp at hin
  exact {
    clock := by rw [hticked.curTick, hticks]
    request := by
      intro t c hin
      rw [hticked.infos]
      exact h.request t c (by simpa using hin)
    slots := by
      intro i t ht
      obtain ⟨hne, hin⟩ := hticked.mem_slot ht
      refine (h.slots i t hin).append (hrequest t) fun n hn => ?_
      -- its time is not over at this tick, or it would be in the slot that is swapped out
      have hlater : n + 1 ≠ WAITTIMEOUT := by
        intro heq
        refine hne (hn.2.trans (congrArg slotOf ?_))
        omega
      have hlt := hn.1
      refine ⟨by show n + 1 < WAITTIMEOUT; omega, ?_⟩
      rw [hticks, hn.2]
      congr 1
      show ticks log + (WAITTIMEOUT - n) = ticks log + 1 + (WAITTIMEOUT - (n + 1))
      omega
    hand := by
      intro t ht
      rw [hticked.hand] at ht
      -- it was in the slot of this tick, so its time is over now
      refine (h.slots _ t ht).append (hrequest t) fun n hn => ?_
      exact Nat.le_of_eq (served_eq hn.1 hn.2.symm).symm
    due := by
      intro t c msg hin
      obtain ⟨hmade, hdue⟩ := h.due t c msg (by simpa using hin)
      rw [hticked.infos]
      exact ⟨hmade, hdue.append (hrequest t) fun n hn => Nat.le_succ_of_le hn⟩
    silent := by
      intro t haccepted
      obtain ⟨hnot, hquiet⟩ := h.silent t (haccepted.of_append fun c hin => by simp at hin)
      exact ⟨fun hheld => hnot (hticked.held hheld),
        fun c msg hin => hquiet c msg (by simpa using hin)⟩ }

end Ticked

/-- A tick keeps the invariant. -/
theorem onTick_inv {ret : ReadResult} (hobjects : Objects log s) (htiming : Timing log s)
    (hreturned : s.timer.tick = .returned) :
    ∃ es s', (RecvTimers.onTick ret s).Yields es s' ∧
      Objects (log ++ es) s' ∧ Timing (log ++ es) s' := by
  cases ret with
  | error errno =>
      refine ⟨[], s, ⟨rfl, rfl⟩, ?_, ?_⟩
      · rwa [List.append_nil]
      · rwa [List.append_nil]
  | expirations exp =>
      obtain ⟨s', hrun, hticked⟩ := onTick_effect exp hreturned
      rw [htiming.clock, slotOf_succ] at hticked
      exact ⟨_, s', hrun, hobjects.tick hticked, htiming.tick hticked⟩

/-! ### The loop of `onTick` -/

/-- The hands of the tick change without a task leaving them. -/
theorem rearrange_inv (tick : Tick) (es : List RecvTimers.Event) (hobjects : Objects log s)
    (htiming : Timing log s)
    (hhand : inHand tick = inHand s.timer.tick) (hplain : Plain es)
    (hes : Access.SafeFrom (Access.deleted (accesses log)) (accesses es))
    (hdeleted : Access.deleted (accesses es) = []) :
    Objects (log ++ es) { s with timer := { s.timer with tick := tick } } ∧
      Timing (log ++ es) { s with timer := { s.timer with tick := tick } } := by
  have hin : ∀ t, Held t { s.timer with tick := tick } → Held t s.timer := by
    rintro t (hslot | hin)
    · exact .inl hslot
    · exact .inr (hhand ▸ hin)
  refine ⟨⟨?_, ?_, hobjects.slots, ?_, hobjects.nodup, ?_, ?_, ?_, hobjects.entries⟩, ?_⟩
  · rw [accesses_append, Access.safe_append]
    exact ⟨hobjects.safe, hes⟩
  · rw [accesses_append, Access.deleted_append, hdeleted, List.append_nil]
    exact hobjects.dead
  · exact fun t ht => hobjects.hand t (hhand ▸ ht)
  · show (inHand tick).Nodup
    rw [hhand]
    exact hobjects.handNodup
  · exact fun t ht => hobjects.apart t (hhand ▸ ht)
  · exact fun t ht => hobjects.made t (hin t ht)
  · exact htiming.shrink hplain ⟨rfl, rfl, fun _ _ h => h, fun _ h => hhand ▸ h⟩

/-- A task is called: the request gets its notice, and its time has passed. -/
theorem call_inv {curSlot : List TaskId} (hobjects : Objects log s) (htiming : Timing log s)
    (htick : s.timer.tick = .slot (task :: curSlot)) :
    ∃ es s', (RecvTimers.next s).Yields es s' ∧ Objects (log ++ es) s' ∧ Timing (log ++ es) s' := by
  have hhand : inHand s.timer.tick = task :: curSlot := by rw [htick]; rfl
  have hin : task ∈ inHand s.timer.tick := by
    rw [hhand]
    exact List.mem_cons_self ..
  obtain ⟨i, hobj⟩ := hobjects.hand task hin
  have hmade := hobjects.made task (.inr hin)
  obtain ⟨info, hinfo⟩ := Option.ne_none_iff_exists'.mp hmade
  -- the use of the object, and then the notice
  obtain ⟨huse, htimingUse⟩ := rearrange_inv (.running task curSlot) [.access (.use task)]
    hobjects htiming hhand.symm
    (fun e he => ⟨_, List.mem_singleton.mp he⟩) ⟨hobjects.not_deleted hobj, trivial⟩ rfl
  have hnotice : handleRecvfileFail s.infos task = [.notice task info.client_
      (Dtp.RecvFile.makeNoticeMsg Dtp.RECVFILEFAIL info.fileName_)] := by
    rw [handleRecvfileFail, hinfo]
  refine ⟨[.access (.use task)] ++ handleRecvfileFail s.infos task,
    { s with timer := { s.timer with tick := .running task curSlot } }, ?_, ?_, ?_⟩
  · rw [RecvTimers.next, Traced.tell_bind_yields, htick]
    refine ⟨handleRecvfileFail s.infos task, ?_, rfl⟩
    rw [Traced.bind_yields]
    refine ⟨_, _, [], view_timer_yields.mpr ⟨[.wheel (.doit task HANDLERECVFILEFAIL task)], ?_,
      rfl⟩, ⟨rfl, rfl⟩, ?_⟩
    · -- the task has no round to go, so it is called at once
      have hread : (Timer.onWheel (s.timer.wheel.deref task)) = pure (waiting task i) := by
        rw [Wheel.deref, hobj]
        rfl
      simp only [Timer.next, htick, hread, Traced.pure_bind]
      rw [if_neg (by simp [waiting, SLOTNUM, WAITTIMEOUT])]
      exact ⟨rfl, rfl⟩
    · simp [onTimer]
  · rw [← List.append_assoc]
    -- the notice is no access
    have hsame : accesses (log ++ [.access (.use task)] ++ handleRecvfileFail s.infos task)
        = accesses (log ++ [.access (.use task)]) := by
      rw [accesses_append, hnotice]
      exact List.append_nil _
    exact ⟨by rw [hsame]; exact huse.safe, by rw [hsame]; exact huse.dead, huse.slots, huse.hand,
      huse.nodup, huse.handNodup, huse.apart, huse.made, huse.entries⟩
  · rw [← List.append_assoc, hnotice]
    have hrequest : ∀ t c, RecvTimers.Event.request t c ∉ [RecvTimers.Event.notice task info.client_
        (Dtp.RecvFile.makeNoticeMsg Dtp.RECVFILEFAIL info.fileName_)] := by
      intro t c hmem
      simp at hmem
    refine ⟨?_, ?_, ?_, ?_, ?_, ?_⟩
    · rw [ticks_append]
      exact htimingUse.clock
    · intro t c hmem
      exact htimingUse.request t c (by simpa using hmem)
    · intro j t ht
      rw [ticks_append]
      exact (htimingUse.slots j t ht).append (hrequest t) fun n h => h
    · exact fun t ht => (htimingUse.hand t ht).append (hrequest t) fun n h => h
    · intro t c msg hmem
      rcases List.mem_append.mp hmem with hmem | hmem
      · exact (htimingUse.due t c msg hmem).imp_right fun h => h.append (hrequest t) fun n h => h
      · -- the notice of this call: its task was in the hand of the tick, so its time has passed
        obtain ⟨rfl, -⟩ : t = task ∧ _ := by simpa using hmem
        refine ⟨hmade, (htimingUse.hand t ?_).append (hrequest t) fun n h => h⟩
        exact List.mem_cons_self ..
    · intro t haccepted
      obtain ⟨hnot, hquiet⟩ :=
        htimingUse.silent t (haccepted.of_append fun c hmem => by simp at hmem)
      refine ⟨hnot, fun c msg hmem => ?_⟩
      rcases List.mem_append.mp hmem with hmem | hmem
      · exact hquiet c msg hmem
      · -- an accepted request would not be in the hand of the tick
        obtain ⟨rfl, -⟩ : t = task ∧ _ := by simpa using hmem
        exact hnot (.inr (List.mem_cons_self ..))

/-- The callback has returned: the tick deletes the task. -/
theorem callbackReturned_inv {curSlot : List TaskId} (hobjects : Objects log s)
    (htiming : Timing log s) (htick : s.timer.tick = .running task curSlot) :
    ∃ es s', (RecvTimers.next s).Yields es s' ∧ Objects (log ++ es) s' ∧ Timing (log ++ es) s' := by
  have hhand : inHand s.timer.tick = task :: curSlot := by rw [htick]; rfl
  have hin : task ∈ inHand s.timer.tick := by
    rw [hhand]
    exact List.mem_cons_self ..
  obtain ⟨i, hobj⟩ := hobjects.hand task hin
  have hsub : curSlot.Sublist (inHand s.timer.tick) := by
    rw [hhand]
    exact List.sublist_cons_self ..
  have hshrinks : Shrinks s { s with timer := { s.timer with
      wheel := s.timer.wheel.free task, tick := .slot curSlot } } :=
    ⟨rfl, rfl, fun _ _ h => h, fun _ h => hsub.subset h⟩
  refine ⟨[.access (.use task), .access (.delete task)], _, ?_,
    hobjects.delete hshrinks (fun _ => .refl _) hsub hobj (hobjects.made task (.inr hin)) ?_ rfl rfl
      rfl, htiming.shrink ?_ hshrinks⟩
  · rw [RecvTimers.next, Traced.tell_bind_yields, htick]
    refine ⟨[.access (.delete task)], ?_, rfl⟩
    rw [Traced.bind_yields]
    refine ⟨_, _, [], view_timer_yields.mpr ⟨[.delete task], ?_, rfl⟩, ⟨rfl, rfl⟩, rfl⟩
    have hread : (Timer.onWheel (s.timer.wheel.deref task)) = pure (waiting task i) := by
      rw [Wheel.deref, hobj]
      rfl
    simp only [Timer.next, htick, hread, Traced.pure_bind]
    exact ⟨rfl, rfl⟩
  · rintro (⟨j, hslot⟩ | hmem)
    · exact hobjects.apart task hin j hslot
    · have hnodup := hobjects.handNodup
      rw [hhand] at hnodup
      exact (List.nodup_cons.mp hnodup).1 hmem
  · intro e he
    rcases List.mem_cons.mp he with rfl | he
    · exact ⟨_, rfl⟩
    · exact ⟨_, List.mem_singleton.mp he⟩

/-- A turn of the loop keeps the invariant. -/
theorem next_inv (hobjects : Objects log s) (htiming : Timing log s) :
    ∃ es s', (RecvTimers.next s).Yields es s' ∧ Objects (log ++ es) s' ∧ Timing (log ++ es) s' := by
  have hplain : Plain [] := fun e he => absurd he List.not_mem_nil
  cases htick : s.timer.tick with
  | running task curSlot => exact callbackReturned_inv hobjects htiming htick
  | returned =>
      have hrun : (RecvTimers.next s).Yields [] s := by
        rw [RecvTimers.next, htick]
        simp only [Timer.next, htick]
        exact ⟨rfl, rfl⟩
      refine ⟨[], s, hrun, ?_, ?_⟩
      · rwa [List.append_nil]
      · rwa [List.append_nil]
  | slot curSlot =>
      cases curSlot with
      | cons task curSlot => exact call_inv hobjects htiming htick
      | nil =>
          have hhand : inHand .returned = inHand s.timer.tick := by rw [htick]; rfl
          refine ⟨[], _, ?_, rearrange_inv .returned [] hobjects htiming hhand hplain trivial rfl⟩
          rw [RecvTimers.next, htick]
          simp only [Timer.next, htick]
          exact ⟨rfl, rfl⟩

/-- A careful step goes through, and keeps the invariant. -/
theorem step_inv {op : RecvTimers.Op} (hobjects : Objects log s) (htiming : Timing log s)
    (hpossible : RecvTimers.Possible s op) (hcareful : Careful s op) :
    ∃ es s', (RecvTimers.step s op).Yields es s' ∧ Objects (log ++ es) s' ∧
      Timing (log ++ es) s' := by
  cases op with
  | recvFile sys task client filename =>
      exact recvFile_inv hobjects htiming hpossible.2.1 hpossible.2.2
  | agreeRecvFile client answers => exact agreeRecvFile_inv hobjects htiming hcareful
  | onTick ret => exact onTick_inv hobjects htiming hpossible
  | next => exact next_inv hobjects htiming

end Steps

/-! ### Whole runs -/

/-- A loop in which nothing was asked for. -/
def initial : State := { timer := fresh fun _ => none }

/-- A step that is possible and careful. -/
def CarefullyPossible (s : State) (op : RecvTimers.Op) : Prop :=
  RecvTimers.Possible s op ∧ Careful s op

/-- In a run of careful steps the timers are used as they should, and no careful step stops on its
way. -/
theorem timers_sound_of_careful {ops : List RecvTimers.Op} {log : List RecvTimers.Event} {s : State}
    (hrun : Traced.Run RecvTimers.step CarefullyPossible initial ops log s) :
    TimersSound log ∧ ∀ op, CarefullyPossible s op →
      TimersSound (log ++ (RecvTimers.step s op).log) ∧
        ∃ s', (RecvTimers.step s op).value = some s' := by
  -- at the start no task is made
  have hinit : Objects [] initial ∧ Timing [] initial := by
    have hnothing : ∀ t, ¬ Held t initial.timer := by
      rintro t (⟨i, hin⟩ | hin)
      · exact List.not_mem_nil hin
      · exact List.not_mem_nil hin
    have hempty : ∀ {P : Prop} (pre post : List RecvTimers.Event) (e : RecvTimers.Event),
        [] = pre ++ e :: post → P := by
      intro P pre post e heq
      exact absurd heq.symm (List.append_ne_nil_of_right_ne_nil _ (List.cons_ne_nil _ _))
    refine ⟨⟨Access.safe_nil, fun t ht => absurd ht List.not_mem_nil, fun i t ht =>
      absurd ht List.not_mem_nil, fun t ht => absurd ht List.not_mem_nil, fun i => .nil, .nil,
      fun t ht => absurd ht List.not_mem_nil, fun t ht => absurd ht (hnothing t), fun c t ht =>
      absurd ht.symm (Option.some_ne_none t)⟩, ⟨rfl, fun t c hin => absurd hin List.not_mem_nil,
      fun i t ht => absurd ht List.not_mem_nil, fun t ht => absurd ht List.not_mem_nil,
      fun t c msg hin => absurd hin List.not_mem_nil, ?_⟩⟩
    rintro t ⟨pre, client, mid, post, heq, -⟩
    exact hempty pre _ _ heq
  have hinv : Objects log s ∧ Timing log s := by
    refine hrun.invariant (P := fun _ log s => Objects log s ∧ Timing log s) hinit ?_
    intro l log s op es s' h hok hyields
    obtain ⟨es', s'', hyields', hobjects, htiming⟩ := step_inv h.1 h.2 hok.1 hok.2
    obtain ⟨rfl, rfl⟩ := hyields.unique hyields'
    exact ⟨hobjects, htiming⟩
  -- the two invariants give what is claimed of the trace
  have hsound : ∀ {log : List RecvTimers.Event} {s : State}, Objects log s → Timing log s →
      TimersSound log :=
    fun hobjects htiming => ⟨hobjects.safe, fun t h => (htiming.silent t h).2⟩
  refine ⟨hsound hinv.1 hinv.2, fun op hok => ?_⟩
  obtain ⟨es, s', ⟨hlog, hvalue⟩, hobjects, htiming⟩ := step_inv hinv.1 hinv.2 hok.1 hok.2
  rw [hlog]
  exact ⟨hsound hobjects htiming, s', hvalue⟩

/-- The name of a file. -/
def aFile : List UInt8 := [97, 0]

/-- Two clients ask for a file. The offer of the first one is accepted, and after `WAITTIMEOUT`
ticks the second one gets its notice. -/
theorem timers_sound_of_careful_two : ∃ log : List RecvTimers.Event,
    log = [.request 0 7, .access (.use 0), .request 1 8, .access (.use 1), .accept 7 (some 0),
      .access (.use 0), .access (.delete 0), .tick, .tick, .tick, .tick, .tick, .access (.use 1),
      .notice 1 8 { flag := Dtp.RECVFILEFAIL, fileName := [97] }, .access (.use 1),
      .access (.delete 1)] ∧
    TimersSound log := by
  have hrun : ∃ log s, Traced.Run RecvTimers.step CarefullyPossible initial
      [.recvFile {} 0 7 aFile, .recvFile {} 1 8 aFile, .agreeRecvFile 7 (some 0),
        .onTick (.expirations 1), .onTick (.expirations 1), .onTick (.expirations 1),
        .onTick (.expirations 1), .onTick (.expirations 1), .next, .next] log s ∧
      log = [.request 0 7, .access (.use 0), .request 1 8, .access (.use 1), .accept 7 (some 0),
        .access (.use 0), .access (.delete 0), .tick, .tick, .tick, .tick, .tick, .access (.use 1),
        .notice 1 8 { flag := Dtp.RECVFILEFAIL, fileName := [97] }, .access (.use 1),
        .access (.delete 1)] := by
    have hpositive : ({} : Syscalls).Positive := by
      intro errno hmem
      simp at hmem
    refine ⟨_, _, .snoc (.snoc (.snoc (.snoc (.snoc (.snoc (.snoc (.snoc (.snoc (.snoc (l := [])
      .nil ?first ⟨rfl, rfl⟩) ?second ⟨rfl, rfl⟩) ?accept ⟨rfl, rfl⟩) ?_ ⟨rfl, rfl⟩) ?_ ⟨rfl, rfl⟩)
      ?_ ⟨rfl, rfl⟩) ?_ ⟨rfl, rfl⟩) ?_ ⟨rfl, rfl⟩) ?call ⟨rfl, rfl⟩) ?delete ⟨rfl, rfl⟩, rfl⟩
    case first => exact ⟨⟨fun _ => Tick.noConfusion, hpositive, rfl⟩, trivial⟩
    case second => exact ⟨⟨fun _ => Tick.noConfusion, hpositive, rfl⟩, trivial⟩
    case accept =>
      refine ⟨fun _ => Tick.noConfusion, fun task hentry => ?_, fun task hanswers _ _ => ?_⟩
      · obtain rfl : 0 = task := Option.some.inj hentry
        exact ⟨Option.some_ne_none _, List.not_mem_nil⟩
      · obtain rfl : 0 = task := Option.some.inj hanswers
        rfl
    case call => exact ⟨trivial, trivial⟩
    case delete => exact ⟨trivial, trivial⟩
    all_goals exact ⟨rfl, trivial⟩
  obtain ⟨log, s, hrun, rfl⟩ := hrun
  exact ⟨_, rfl, (timers_sound_of_careful hrun).1⟩

/-- A client asks for a file and accepts the offer, and accepts another offer, for which it did not
ask. The entry of `timeMp_` is still there, and the second acceptance uses the task that the first
one deleted. -/
theorem deleted_task_used : ¬ ∀ (ops : List RecvTimers.Op) (log : List RecvTimers.Event) (s : State)
    (op : RecvTimers.Op), Traced.Run RecvTimers.step RecvTimers.Possible initial ops log s →
      RecvTimers.Possible s op → TimersSound (log ++ (RecvTimers.step s op).log) := by
  intro h
  have hrun : ∃ log s, Traced.Run RecvTimers.step RecvTimers.Possible initial
      [.recvFile {} 0 7 aFile, .agreeRecvFile 7 (some 0)] log s ∧
      s.timer.tick = .returned ∧
      log ++ (RecvTimers.step s (.agreeRecvFile 7 none)).log =
        [.request 0 7, .access (.use 0), .accept 7 (some 0), .access (.use 0), .access (.delete 0),
          .accept 7 none, .access (.use 0)] := by
    refine ⟨_, _, .snoc (.snoc (l := []) .nil ?first ⟨rfl, rfl⟩) ?second ⟨rfl, rfl⟩, rfl, rfl⟩
    case first =>
      refine ⟨fun _ => Tick.noConfusion, fun errno hmem => ?_, rfl⟩
      simp at hmem
    case second => exact fun _ => Tick.noConfusion
  obtain ⟨log, s, hrun, hreturned, hlog⟩ := hrun
  have hsound := h _ _ _ (.agreeRecvFile 7 none) hrun fun curSlot heq => by
    rw [hreturned] at heq
    exact Tick.noConfusion heq
  rw [hlog] at hsound
  have hsafe := Access.safe_iff_safeFrom.mp hsound.safe
  revert hsafe
  decide

end Ndsl.Proofs.RecvTimers
