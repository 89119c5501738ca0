import Mathlib.Data.List.Induction
import Ndsl.Proofs.TimeWheel.Cases

/-!
# `Ndsl.Proofs.TimeWheel.Stay`: a task's stay in the wheel

A run of the wheel leaves a trace of events. `stamps` reads off it the numbers of the ticks
at which the selected events happened, so `additions`, `removals` and `firings` of a task are
lists of tick numbers. `life` reads off it the stay of a task: since when it is in the wheel, and
the ticks at which it has been called since then.

The invariant of a run is `Inv`. Its first part, `clock`, ties `curTick_` to the number of ticks.
Its second part, `Tracked`, follows one task through its life: out of the wheel, waiting in the
slot of its next call, in flight in the list that `onTick` swapped out, running its callback, or
finished. A task whose interval is at most a turn of the wheel is called at the first visit of its
slot, and that is its deadline. One with a greater interval is only followed up to that visit, at
which `onTick` goes wrong. Nothing is said of a task that is added while it is in the wheel.
-/

set_option autoImplicit false

namespace Ndsl.Proofs.TimeWheel

open Ndsl.Lib
open Ndsl.Net.TimeWheel

/-! ### Reading a trace -/

/-- The number of ticks in a trace. -/
def ticks (log : List Event) : Nat := log.count .tick

/-- The numbers of the ticks at which the events `p` selects happened, with `n` ticks before
the trace. -/
def stamps (p : Event → Bool) (n : Nat) : List Event → List Nat
  | [] => []
  | e :: es => (if p e then [n] else []) ++ stamps p (if e = .tick then n + 1 else n) es

/-- When `addTask` accepted the task. -/
def additions (task : TaskId) (log : List Event) : List Nat :=
  stamps (fun e => e == .added task) 0 log

/-- When `removeTask` returned `S_OK` for the task. -/
def removals (task : TaskId) (log : List Event) : List Nat :=
  stamps (fun e => e == .removed task) 0 log

/-- When the task's function was called. -/
def firings (task : TaskId) (log : List Event) : List Nat :=
  stamps (fun e => match e with | .doit x _ _ => x == task | _ => false) 0 log

theorem ticks_append (log es : List Event) : ticks (log ++ es) = ticks log + ticks es :=
  List.count_append

theorem stamps_append (p : Event → Bool) (n : Nat) (log es : List Event) :
    stamps p n (log ++ es) = stamps p n log ++ stamps p (n + ticks log) es := by
  induction log generalizing n with
  | nil => simp [stamps, ticks]
  | cons e log ih =>
      rw [List.cons_append, stamps, stamps, ih, List.append_assoc]
      by_cases he : e = .tick
      · simp only [he, if_true, ticks, List.count_cons_self, Nat.add_assoc, Nat.add_comm 1]
      · simp only [he, if_false, ticks, List.count_cons_of_ne he]

/-- A trace has no stamp from behind its end. -/
theorem le_of_mem_stamps {p : Event → Bool} {n m : Nat} {log : List Event}
    (h : m ∈ stamps p n log) : m ≤ n + ticks log := by
  induction log generalizing n with
  | nil => exact absurd h List.not_mem_nil
  | cons e log ih =>
      have hticks : ticks (e :: log) = ticks log + if e = .tick then 1 else 0 := by
        rw [ticks, List.count_cons, ← ticks]
        simp
      rw [hticks]
      rw [stamps] at h
      rcases List.mem_append.mp h with h | h
      · split at h
        · rw [List.mem_singleton.mp h]
          exact Nat.le_add_right n _
        · exact absurd h List.not_mem_nil
      · have hle := ih h
        split at hle
        · next htick => rw [if_pos htick]; omega
        · next htick => rw [if_neg htick]; omega

section Append
variable (task : TaskId) (log es : List Event)

theorem additions_append : additions task (log ++ es)
    = additions task log ++ stamps (fun e => e == .added task) (ticks log) es := by
  rw [additions, stamps_append, Nat.zero_add, ← additions]

theorem removals_append : removals task (log ++ es)
    = removals task log ++ stamps (fun e => e == .removed task) (ticks log) es := by
  rw [removals, stamps_append, Nat.zero_add, ← removals]

theorem firings_append : firings task (log ++ es)
    = firings task log ++
      stamps (fun e => match e with | .doit x _ _ => x == task | _ => false) (ticks log) es := by
  rw [firings, stamps_append, Nat.zero_add, ← firings]

end Append

/-! ### The stay of a task -/

/-- What a trace says of the last stay of a task in the wheel, with stamps `τ` on the events:
when it was added, unless it was removed since, when it was called since, and whether it was ever
added while it was in the wheel. -/
structure Stay (τ : Type) where
  since : Option τ := none
  calls : List τ := []
  twice : Bool := false
  deriving Repr, DecidableEq

/-- One more event. -/
def Stay.next {τ : Type} (task : TaskId) (s : Stay τ) (p : τ × Event) : Stay τ :=
  match p.2 with
  | .added x =>
    if x = task then { since := some p.1, calls := [], twice := s.twice || s.since.isSome } else s
  | .removed x => if x = task then { s with since := none } else s
  | .doit x _ _ => if x = task then { s with calls := s.calls ++ [p.1] } else s
  | .tick => s

/-- The stay of a task after a stamped trace. -/
def stay {τ : Type} (task : TaskId) (log : List (τ × Event)) : Stay τ :=
  log.foldl (Stay.next task) {}

/-- A trace whose events are stamped with the ticks before them, after `n` ticks. -/
def timed : Nat → List Event → List (Nat × Event)
  | _, [] => []
  | n, e :: es => (n, e) :: timed (if e = .tick then n + 1 else n) es

/-- The stay of a task, in ticks. -/
def life (task : TaskId) (log : List Event) : Stay Nat := stay task (timed 0 log)

/-- An event of a task. -/
def About (task : TaskId) : Event → Prop
  | .added x => x = task
  | .removed x => x = task
  | .doit x _ _ => x = task
  | .tick => False

theorem timed_append (n : Nat) (log es : List Event) :
    timed n (log ++ es) = timed n log ++ timed (n + ticks log) es := by
  induction log generalizing n with
  | nil => simp [timed, ticks]
  | cons e log ih =>
      rw [List.cons_append, timed, timed, ih, List.cons_append]
      by_cases he : e = .tick
      · simp only [he, if_true, ticks, List.count_cons_self, Nat.add_assoc, Nat.add_comm 1]
      · simp only [he, if_false, ticks, List.count_cons_of_ne he]

section Life
variable (task : TaskId) (log : List Event)

/-- One more event goes on from the stay so far. -/
theorem life_append (e : Event) :
    life task (log ++ [e]) = (life task log).next task (ticks log, e) := by
  rw [life, timed_append, stay, List.foldl_append, Nat.zero_add]
  rfl

theorem life_added : life task (log ++ [.added task])
    = { since := some (ticks log)
        calls := []
        twice := (life task log).twice || (life task log).since.isSome } := by
  rw [life_append]
  simp [Stay.next]

theorem life_removed : life task (log ++ [.removed task])
    = { life task log with since := none } := by
  rw [life_append]
  simp [Stay.next]

theorem life_doit (func param : Nat) : life task (log ++ [.doit task func param])
    = { life task log with calls := (life task log).calls ++ [ticks log] } := by
  rw [life_append]
  simp [Stay.next]

end Life

/-- An event that is not about a task leaves its stay alone. -/
theorem life_other {task : TaskId} {e : Event} (h : ¬ About task e) (log : List Event) :
    life task (log ++ [e]) = life task log := by
  rw [life_append]
  cases e with
  | tick => rfl
  | added x => exact if_neg h
  | removed x => exact if_neg h
  | doit x func param => exact if_neg h

/-- Two traces that say the same of a task. -/
structure SameFor (task : TaskId) (log log' : List Event) : Prop where
  life_eq : life task log' = life task log
  additions_eq : additions task log' = additions task log
  removals_eq : removals task log' = removals task log
  firings_eq : firings task log' = firings task log

theorem SameFor.refl (task : TaskId) (log : List Event) : SameFor task log log :=
  ⟨rfl, rfl, rfl, rfl⟩

/-- An event that is not about a task says nothing about it. -/
theorem sameFor_append {task : TaskId} {e : Event} (h : ¬ About task e) (log : List Event) :
    SameFor task log (log ++ [e]) := by
  refine ⟨life_other h log, ?_, ?_, ?_⟩
  · rw [additions_append]
    cases e <;> simp_all [stamps, About]
  · rw [removals_append]
    cases e <;> simp_all [stamps, About]
  · rw [firings_append]
    cases e <;> simp_all [stamps, About]

/-- A stay began with the last addition, and one that began within another one has two. -/
theorem additions_of_life (task : TaskId) (log : List Event) :
    (∀ n, (life task log).since = some n → (additions task log).getLast? = some n) ∧
      ((life task log).twice = true → 2 ≤ (additions task log).length) := by
  induction log using List.reverseRecOn with
  | nil => exact ⟨fun n h => absurd h.symm (Option.some_ne_none n), fun h => Bool.noConfusion h⟩
  | append_singleton log e ih =>
      obtain ⟨ihSince, ihTwice⟩ := ih
      by_cases he : About task e
      · cases e with
        | tick => exact False.elim he
        | added x =>
            obtain rfl : x = task := he
            have hadd : additions x (log ++ [.added x]) = additions x log ++ [ticks log] := by
              simp [additions_append, stamps]
            rw [life_added, hadd]
            refine ⟨fun n h => by simpa using h, fun h => ?_⟩
            rw [List.length_append, List.length_singleton]
            -- it began within a stay before, or begins within one now
            rcases Bool.or_eq_true_iff.mp h with htwice | hsome
            · have := ihTwice htwice
              omega
            · obtain ⟨n, hn⟩ := Option.isSome_iff_exists.mp hsome
              have hne : additions x log ≠ [] := by
                intro hnil
                have := ihSince n hn
                rw [hnil] at this
                exact Option.some_ne_none n this.symm
              have := List.length_pos_iff.mpr hne
              omega
        | removed x =>
            obtain rfl : x = task := he
            have hadd : additions x (log ++ [.removed x]) = additions x log := by
              simp [additions_append, stamps]
            rw [life_removed, hadd]
            exact ⟨fun n h => absurd h.symm (Option.some_ne_none n), ihTwice⟩
        | doit x func param =>
            obtain rfl : x = task := he
            have hadd : additions x (log ++ [.doit x func param]) = additions x log := by
              simp [additions_append, stamps]
            rw [life_doit, hadd]
            exact ⟨ihSince, ihTwice⟩
      · -- an event about another task, or a tick
        obtain ⟨hlife, hadd, -, -⟩ := sameFor_append he log
        rw [hlife, hadd]
        exact ⟨ihSince, ihTwice⟩

/-- How the lists of ticks go with the stay of a task that was never added while it was in the
wheel. -/
structure Account (task : TaskId) (log : List Event) : Prop where
  count : (additions task log).length
    = (removals task log).length + if (life task log).since = none then 0 else 1
  fresh : additions task log = [] → firings task log = []
  first : (additions task log).length = 1 → firings task log = (life task log).calls

section Account
variable {task : TaskId} {log log' : List Event}

theorem account_nil : Account task [] := ⟨rfl, fun _ => rfl, fun h => absurd h Nat.zero_ne_one⟩

theorem Account.same (h : Account task log) (hsame : SameFor task log log') :
    Account task log' := by
  obtain ⟨hlife, hadd, hrem, hfire⟩ := hsame
  exact ⟨by rw [hlife, hadd, hrem]; exact h.count, by rw [hadd, hfire]; exact h.fresh,
    by rw [hlife, hadd, hfire]; exact h.first⟩

/-- A task that is in the wheel was added. -/
theorem Account.additions_ne_nil (h : Account task log) {n : Nat}
    (hsince : (life task log).since = some n) : additions task log ≠ [] := by
  intro hnil
  have hcount := h.count
  rw [hnil, hsince] at hcount
  simp at hcount

theorem Account.added (h : Account task log) (hout : (life task log).since = none) :
    Account task (log ++ [.added task]) := by
  have hadd : additions task (log ++ [.added task]) = additions task log ++ [ticks log] := by
    simp [additions_append, stamps]
  have hrem : removals task (log ++ [.added task]) = removals task log := by
    simp [removals_append, stamps]
  have hfire : firings task (log ++ [.added task]) = firings task log := by
    simp [firings_append, stamps]
  refine ⟨?_, ?_, ?_⟩
  · have hcount := h.count
    rw [hout] at hcount
    rw [hadd, hrem, life_added, List.length_append, hcount]
    simp
  · rw [hadd]
    simp
  · intro hone
    rw [hadd, List.length_append, List.length_singleton] at hone
    rw [hfire, life_added]
    exact h.fresh (List.length_eq_zero_iff.mp (by omega))

theorem Account.removed (h : Account task log) {n : Nat}
    (hsince : (life task log).since = some n) : Account task (log ++ [.removed task]) := by
  have hadd : additions task (log ++ [.removed task]) = additions task log := by
    simp [additions_append, stamps]
  have hrem : removals task (log ++ [.removed task]) = removals task log ++ [ticks log] := by
    simp [removals_append, stamps]
  have hfire : firings task (log ++ [.removed task]) = firings task log := by
    simp [firings_append, stamps]
  refine ⟨?_, ?_, ?_⟩
  · have hcount := h.count
    rw [hsince] at hcount
    rw [hadd, hrem, life_removed, List.length_append, hcount]
    simp
  · rw [hadd]
    exact fun hnil => absurd hnil (h.additions_ne_nil hsince)
  · rw [hadd, hfire, life_removed]
    exact h.first

theorem Account.doit (h : Account task log) {n : Nat}
    (hsince : (life task log).since = some n) (func param : Nat) :
    Account task (log ++ [.doit task func param]) := by
  have hadd : additions task (log ++ [.doit task func param]) = additions task log := by
    simp [additions_append, stamps]
  have hrem : removals task (log ++ [.doit task func param]) = removals task log := by
    simp [removals_append, stamps]
  have hfire : firings task (log ++ [.doit task func param])
      = firings task log ++ [ticks log] := by
    simp [firings_append, stamps]
  refine ⟨?_, ?_, ?_⟩
  · rw [hadd, hrem, life_doit]
    exact h.count
  · rw [hadd]
    exact fun hnil => absurd hnil (h.additions_ne_nil hsince)
  · intro hone
    rw [hadd] at hone
    rw [hfire, life_doit, h.first hone]

end Account

/-! ### The invariant -/

/-- The slot that is current at tick `d`. -/
def slotOf (d : Nat) : Fin SLOTNUM := ⟨d % SLOTNUM, Nat.mod_lt _ (by decide)⟩

/-- The tick at which a task added at tick `n` is due. -/
def deadline (t : Task) (n : Nat) : Nat := n + max t.setInterval.toNat 1

/-- The ticks from one call to the next. A task whose interval is zero goes back into the slot
that is being served, which comes again after a whole turn. -/
def period (t : Task) : Nat := if t.setInterval.toNat = 0 then SLOTNUM else t.setInterval.toNat

/-- The tick of the call number `j` of a task added at tick `n`. -/
def due (t : Task) (n j : Nat) : Nat := deadline t n + j * period t

/-- The ticks of the first `j` calls. -/
def dues (t : Task) (n j : Nat) : List Nat := (List.range j).map (due t n)

/-- What `c` calls leave of `times`. -/
def timesLeft (times : Int) (c : Nat) : Int := if 0 < times then times - c else times

/-- The object `u` of a task that was made as `t` and has been called `c` times, with a time
left. -/
structure HasLeft (t u : Task) (c : Nat) : Prop where
  interval : u.setInterval = t.setInterval
  times : u.times = timesLeft t.times c
  left : 0 < t.times → c < t.times

/-- In no slot, and not in flight. -/
structure Absent (task : TaskId) (w : Wheel) (flight : List TaskId) : Prop where
  slots : ∀ i, (w.slot i).count task = 0
  flight : flight.count task = 0

/-- Where the life of one task stands. `t` is the object as the user made it, `flight` the
part of the swapped-out list that `onTick` has not been through yet. The last argument says
whether the task's own callback is running. -/
inductive Tracked (task : TaskId) (t : Task) (w : Wheel) (flight : List TaskId)
    (log : List Event) : Bool → Prop
  /-- Not added yet, or removed. -/
  | out (u : Task) (hsince : (life task log).since = none) (habsent : Absent task w flight)
      (hobj : w.tasks task = some u) (hleft : HasLeft t u (firings task log).length) :
      Tracked task t w flight log false
  /-- In the slot of its next call, which is at most a turn away if its interval is. -/
  | waiting (n j : Nat) (u : Task) (hsince : (life task log).since = some n)
      (hcalls : (life task log).calls = dues t n j) (hk : 0 ≤ t.setInterval)
      (hslot : ∀ i, (w.slot i).count task = if i = slotOf (due t n j) then 1 else 0)
      (hflight : flight.count task = 0) (hobj : w.tasks task = some u)
      (hleft : HasLeft t u (firings task log).length)
      (htick : u.setTick = some (slotOf (due t n j))) (hlt : ticks log < due t n j)
      (hrest : u.restInterval = t.setInterval)
      (hnear : t.setInterval ≤ SLOTNUM → due t n j ≤ ticks log + SLOTNUM) :
      Tracked task t w flight log false
  /-- In the list that `onTick` is going through, in its last round. -/
  | flying (n j : Nat) (u : Task) (hsince : (life task log).since = some n)
      (hcalls : (life task log).calls = dues t n j) (hk : 0 ≤ t.setInterval)
      (hslot : ∀ i, (w.slot i).count task = 0) (hflight : flight.count task = 1)
      (hobj : w.tasks task = some u) (hleft : HasLeft t u (firings task log).length)
      (hlast : u.restInterval ≤ SLOTNUM) (hshort : t.setInterval ≤ SLOTNUM)
      (hnow : due t n j = ticks log) : Tracked task t w flight log false
  /-- Its function has been called and its callback is adding tasks. -/
  | running (n j c : Nat) (u : Task) (hsince : (life task log).since = some n)
      (hcalls : (life task log).calls = dues t n (j + 1)) (hk : 0 ≤ t.setInterval)
      (habsent : Absent task w flight) (hobj : w.tasks task = some u) (hleft : HasLeft t u c)
      (hcount : (firings task log).length = c + 1) (hnow : due t n j = ticks log)
      (hshort : t.setInterval ≤ SLOTNUM) :
      Tracked task t w flight log true
  /-- Called for the last time and deleted. -/
  | finished (n j : Nat) (hsince : (life task log).since = some n)
      (hcalls : (life task log).calls = dues t n (j + 1)) (habsent : Absent task w flight)
      (hobj : w.tasks task = none) (hover : timesLeft t.times (firings task log).length = 0)
      (hle : due t n j ≤ ticks log) : Tracked task t w flight log false

/-- The invariant of the run. Nothing is said of a task that was added while it was in the
wheel. -/
structure Inv (task : TaskId) (t : Task) (w : Wheel) (flight : List TaskId)
    (log : List Event) (busy : Bool) : Prop where
  clock : w.curTick = slotOf (ticks log)
  account : (life task log).twice = false → Account task log
  tracked : (life task log).twice = false → Tracked task t w flight log busy

theorem due_zero (t : Task) (n : Nat) : due t n 0 = deadline t n := by
  rw [due, Nat.zero_mul, Nat.add_zero]

theorem due_succ (t : Task) (n j : Nat) : due t n (j + 1) = due t n j + period t := by
  rw [due, due, Nat.succ_mul, Nat.add_assoc]

theorem dues_succ (t : Task) (n j : Nat) : dues t n (j + 1) = dues t n j ++ [due t n j] := by
  rw [dues, dues, List.range_succ, List.map_append]
  rfl

/-- A call takes one of the times that are left. -/
theorem timesAfter_timesLeft {times : Int} {c : Nat} (hleft : 0 < times → c < times) :
    timesAfter (timesLeft times c) = timesLeft times (c + 1) := by
  unfold timesAfter timesLeft
  by_cases htimes : 0 < times
  · have := hleft htimes
    rw [if_pos htimes, if_pos htimes, if_pos (by omega)]
    omega
  · rw [if_neg htimes, if_neg htimes, if_neg htimes]

section Frame
variable {task : TaskId} {t : Task} {w w' : Wheel} {flight flight' : List TaskId}
  {log log' : List Event} {busy : Bool}

theorem Absent.frame (h : Absent task w flight)
    (hslot : ∀ i, (w'.slot i).count task = (w.slot i).count task)
    (hflight : flight'.count task = flight.count task) : Absent task w' flight' :=
  ⟨fun i => (hslot i).trans (h.slots i), hflight.trans h.flight⟩

/-- `Tracked` reads the wheel only through the task's own object and its own places, and the
trace only through the task's own events and the ticks. -/
theorem Tracked.frame (h : Tracked task t w flight log busy) (hsame : SameFor task log log')
    (hticks : ticks log' = ticks log)
    (hobj : w'.tasks task = w.tasks task)
    (hslot : ∀ i, (w'.slot i).count task = (w.slot i).count task)
    (hflight : flight'.count task = flight.count task) : Tracked task t w' flight' log' busy := by
  obtain ⟨hlife, -, -, hfire⟩ := hsame
  cases h with
  | out u hsince habsent ho hleft =>
      exact .out u (by rwa [hlife]) (habsent.frame hslot hflight) (by rwa [hobj]) (by rwa [hfire])
  | waiting n j u hsince hcalls hk hs hf ho hleft htick hlt hrest hnear =>
      exact .waiting n j u (by rwa [hlife]) (by rwa [hlife]) hk (fun i => (hslot i).trans (hs i))
        (by rwa [hflight]) (by rwa [hobj]) (by rwa [hfire]) htick (by rwa [hticks]) hrest
        (by rwa [hticks])
  | flying n j u hsince hcalls hk hs hf ho hleft hlast hshort hnow =>
      exact .flying n j u (by rwa [hlife]) (by rwa [hlife]) hk (fun i => (hslot i).trans (hs i))
        (by rwa [hflight]) (by rwa [hobj]) (by rwa [hfire]) hlast hshort (by rwa [hticks])
  | running n j c u hsince hcalls hk habsent ho hleft hcount hnow hshort =>
      exact .running n j c u (by rwa [hlife]) (by rwa [hlife]) hk (habsent.frame hslot hflight)
        (by rwa [hobj]) hleft (by rwa [hfire]) (by rwa [hticks]) hshort
  | finished n j hsince hcalls habsent ho hover hle =>
      exact .finished n j (by rwa [hlife]) (by rwa [hlife]) (habsent.frame hslot hflight)
        (by rwa [hobj]) (by rwa [hfire]) (by rwa [hticks])

/-- The same for the whole invariant. -/
theorem Inv.frame (h : Inv task t w flight log busy) (hsame : SameFor task log log')
    (hticks : ticks log' = ticks log) (hcur : w'.curTick = w.curTick)
    (hobj : w'.tasks task = w.tasks task)
    (hslot : ∀ i, (w'.slot i).count task = (w.slot i).count task)
    (hflight : flight'.count task = flight.count task) : Inv task t w' flight' log' busy := by
  refine ⟨by rw [hcur, hticks]; exact h.clock, ?_, ?_⟩
  · intro htwice
    rw [hsame.life_eq] at htwice
    exact (h.account htwice).same hsame
  · intro htwice
    rw [hsame.life_eq] at htwice
    exact (h.tracked htwice).frame hsame hticks hobj hslot hflight

end Frame

end Ndsl.Proofs.TimeWheel
