import Mathlib.Algebra.BigOperators.Group.Finset.Basic
import Ndsl.Net.WQRestart

/-!
# `Ndsl.Proofs.WQThreadpool.Restarts`: a pool that is started again

`quit` joins and deletes what `vThreads` points to, and it leaves the pointers there. So the `quit`
that ends the second cycle begins with a `Thread` that was deleted. It goes wrong too where
`pthread_create` has failed in `start`, which looks at no result.

`restarts_of_joinable` says that this is all: as long as each `quit` finds only pointers to threads
that were created and not yet joined, it joins those of its own `start`, and it leaves no thread and
no quit item behind. A `quit` that finds another pointer never returns.

The quit items that were added are in the queue or with a worker that they have stopped (`quits`).
`Phase` says how many they are, and which `Thread`s are gone, for each place of the owner.
-/

set_option autoImplicit false

namespace Ndsl.Proofs.WQRestart

open Ndsl.Lib Ndsl.Lib.Monitor
open Ndsl.Net
open Ndsl.Net.WQThreadpool (Item Worker)
open Ndsl.Net.WQRestart

/-! ### Statements -/

/-- `quit` finds only pointers to threads that were created and that nobody has joined. -/
def Joinable (s : Pool) : Move → Prop
  | .call .quit => s.isRunning_ = true →
      ∀ thread ∈ s.vThreads, thread ∉ s.deleted ∧ s.threads thread ≠ none
  | _ => True

/-- What holds at all times. -/
structure Restarts (s : Pool) : Prop where
  defined : s.caller ≠ .undefined
  joinedOnce : s.joined.Nodup
  deletedOnce : s.deleted.Nodup
  /-- When `quit` has returned, it has joined what the last `start` has created. -/
  matching : s.caller = .outside → s.isRunning_ = false → s.joinedNow = s.created
  /-- All `Thread`s that were made are joined and deleted then, and their threads have ended. -/
  all : s.caller = .outside → s.isRunning_ = false → ∀ thread < s.fresh,
    s.joined.count thread = 1 ∧ s.deleted.count thread = 1 ∧ s.threads thread = some .ended
  noQuit : s.caller = .outside → s.isRunning_ = false →
    .quitFunc ∉ s.workqueue_ ∧ ∀ thread worker, s.threads thread = some worker → worker = .ended

/-! ### The invariant -/

/-- The thread has taken a quit item. -/
def stopped : Option Worker → Nat
  | some (.doit .quitFunc) | some .ended => 1
  | _ => 0

/-- The quit items in the queue, and the threads that have taken one. -/
def quits (s : Pool) : Nat :=
  s.workqueue_.count .quitFunc + ∑ thread ∈ Finset.range s.fresh, stopped (s.threads thread)

/-- Every `Thread` of the pool has a thread. -/
def Started (s : Pool) : Prop := ∀ thread < s.fresh, s.threads thread ≠ none

/-- Where the owner stands, when the last `start` has begun with the `Thread` of the number `base`
and the first `gone` ones are joined. -/
def Phase (s : Pool) (base gone : Nat) : Prop :=
  match s.caller with
  | .outside =>
    if s.isRunning_ then
      gone = base ∧ s.fresh = base + s.maxThreads_.toNat ∧ quits s = base
    else gone = s.fresh ∧ s.joinedNow = s.created ∧ quits s = s.fresh
  | .starting i => s.isRunning_ = false ∧ gone = base ∧ s.fresh = base + i ∧
      i ≤ s.maxThreads_.toNat ∧ quits s = base
  | .adding i => s.isRunning_ = true ∧ base = 0 ∧ gone = 0 ∧ s.fresh = s.maxThreads_.toNat ∧
      i ≤ s.fresh ∧ s.joinedNow = [] ∧ Started s ∧ quits s = i
  | .joining i => s.isRunning_ = false ∧ base = 0 ∧ gone = i ∧ i ≤ s.fresh ∧
      s.joinedNow = List.range i ∧ Started s ∧ quits s = s.fresh
  | .undefined => False

/-- What every step keeps. -/
structure Inv (s : Pool) (base gone : Nat) : Prop where
  pointers : s.vThreads = List.range s.fresh
  base_le : base ≤ s.fresh
  created : s.created = List.range' base (s.fresh - base)
  joined : s.joined = List.range gone
  deleted : s.deleted = List.range gone
  ended : ∀ thread < gone, s.threads thread = some .ended
  later : ∀ thread, s.fresh ≤ thread → s.threads thread = none
  phase : Phase s base gone

/-! ### What a worker does -/

section Workers
variable {s t : Pool} {base gone : Nat} {pc threads : Nat → Option Worker} {items : List Item}

/-- Threads that waited may have been woken. -/
def Woken (pc threads : Nat → Option Worker) : Prop :=
  ∀ thread, threads thread = pc thread ∨ pc thread = some .wait ∧ threads thread = some .lock

theorem Woken.refl (pc : Nat → Option Worker) : Woken pc pc := fun _ => .inl rfl

/-- A thread that can be woken waits. -/
theorem of_woken {w k : Option Worker} (h : WQRestart.woken w = some k) :
    w = some .wait ∧ k = some .lock := by
  unfold WQRestart.woken at h
  split at h
  · exact ⟨rfl, (Option.some.inj h).symm⟩
  · exact absurd h.symm (Option.some_ne_none k)

theorem woken_of_signalsMore (h : SignalsMore s items threads) : Woken s.threads threads := by
  unfold SignalsMore at h
  split at h
  · obtain ⟨choice, hs⟩ := h
    cases hs with
    | nobody => exact Woken.refl _
    | wakes u k hu =>
        obtain ⟨hwait, rfl⟩ := of_woken hu
        intro thread
        by_cases heq : thread = u
        · subst heq
          exact .inr ⟨hwait, Function.update_self ..⟩
        · exact .inl (Function.update_of_ne heq _ _)
  · rw [h]
    exact Woken.refl _

namespace Woken

theorem ended (h : Woken pc threads) {thread : Nat} (hended : pc thread = some .ended) :
    threads thread = some .ended := by
  rcases h thread with hsame | ⟨hwait, -⟩
  · rw [hsame, hended]
  · exact absurd (hwait.symm.trans hended) (by simp)

theorem none_iff (h : Woken pc threads) (thread : Nat) :
    threads thread = none ↔ pc thread = none := by
  rcases h thread with hsame | ⟨hwait, hlock⟩
  · rw [hsame]
  · simp [hwait, hlock]

theorem stopped_eq (h : Woken pc threads) (thread : Nat) :
    stopped (threads thread) = stopped (pc thread) := by
  rcases h thread with hsame | ⟨hwait, hlock⟩
  · rw [hsame]
  · rw [hwait, hlock]
    rfl

end Woken

/-- One of the numbers that are summed has changed. -/
theorem sum_update {n thread : Nat} (hlt : thread < n) (f : Nat → Option Worker)
    (w : Option Worker) :
    (∑ k ∈ Finset.range n, stopped (Function.update f thread w k)) + stopped (f thread) =
      (∑ k ∈ Finset.range n, stopped (f k)) + stopped w := by
  have hmem : thread ∈ Finset.range n := Finset.mem_range.mpr hlt
  have hrest : ∑ k ∈ (Finset.range n).erase thread, stopped (Function.update f thread w k) =
      ∑ k ∈ (Finset.range n).erase thread, stopped (f k) :=
    Finset.sum_congr rfl fun k hk => by rw [Function.update_of_ne (Finset.ne_of_mem_erase hk)]
  have hself : stopped (Function.update f thread w thread) = stopped w := by
    rw [Function.update_self]
  rw [← Finset.add_sum_erase _ _ hmem, ← Finset.add_sum_erase _ _ hmem, hrest, hself]
  omega

/-- The pool with another queue and other threads. -/
def after (s : Pool) (items : List Item) (threads : Nat → Option Worker) (ret : Int) : Pool :=
  { s with workqueue_ := items, threads := threads, ret := ret }

/-- Neither a thread, nor one that has ended, nor a quit item came or went. -/
structure Quiet (s : Pool) (items : List Item) (threads : Nat → Option Worker) : Prop where
  ended : ∀ thread, s.threads thread = some .ended → threads thread = some .ended
  none_iff : ∀ thread, threads thread = none ↔ s.threads thread = none
  quits : ∀ ret, quits (after s items threads ret) = quits s

/-- A call that only returns. -/
theorem Quiet.refl (s : Pool) : Quiet s s.workqueue_ s.threads :=
  ⟨fun _ => id, fun _ => Iff.rfl, fun _ => rfl⟩

/-- Work comes into the queue. -/
theorem Quiet.addWork (work : Nat) (h : Woken s.threads threads) :
    Quiet s (s.workqueue_ ++ [.work work]) threads := by
  refine ⟨fun _ => h.ended, h.none_iff, fun ret => ?_⟩
  have hcount : (s.workqueue_ ++ [Item.work work]).count Item.quitFunc =
      s.workqueue_.count Item.quitFunc := by
    simp [List.count_append]
  unfold WQRestart.quits after
  simp only [hcount, h.stopped_eq]

/-- A worker takes a step, behind which the quit items are as many as before. -/
theorem Quiet.worker {thread : Nat} {w w' : Worker} (hlt : thread < s.fresh)
    (hw : s.threads thread = some w) (hne : w ≠ .ended) (hwoken : Woken s.threads threads)
    (hcount : items.count .quitFunc + stopped (some w') =
      s.workqueue_.count .quitFunc + stopped (some w)) :
    Quiet s items (Function.update threads thread (some w')) := by
  refine ⟨fun k hk => ?_, fun k => ?_, fun ret => ?_⟩
  · have hother : k ≠ thread := by
      rintro rfl
      exact hne (Option.some.inj (hw.symm.trans hk))
    rw [Function.update_of_ne hother, hwoken.ended hk]
  · by_cases hk : k = thread
    · subst hk
      rw [Function.update_self, hw]
      simp
    · rw [Function.update_of_ne hk, hwoken.none_iff]
  · have hsum := sum_update hlt threads (some w')
    have hstopped : stopped (threads thread) = stopped (some w) := by rw [hwoken.stopped_eq, hw]
    simp only [hstopped, hwoken.stopped_eq] at hsum
    unfold WQRestart.quits after
    dsimp only
    omega

/-- What the owner knows does not depend on what the workers do. -/
theorem Inv.quiet (h : Inv s base gone) (hq : Quiet s items threads) (ret : Int) :
    Inv (after s items threads ret) base gone := by
  have hstarted : Started (after s items threads ret) ↔ Started s :=
    forall₂_congr fun thread _ => not_congr (hq.none_iff thread)
  refine ⟨h.pointers, h.base_le, h.created, h.joined, h.deleted, ?ended, ?later, ?phase⟩
  case ended => exact fun thread hlt => hq.ended thread (h.ended thread hlt)
  case later => exact fun thread hle => (hq.none_iff thread).mpr (h.later thread hle)
  case phase =>
    have hphase := h.phase
    unfold Phase at hphase ⊢
    rw [hq.quits, hstarted]
    exact hphase

end Workers

/-! ### What the owner does -/

section Owner
variable {s t : Pool} {base gone i : Nat}

/-- `start` begins. -/
theorem Inv.start (h : Inv s base gone) (hcaller : s.caller = .outside)
    (hrunning : s.isRunning_ = false) :
    Inv { s with caller := .starting 0, created := [] } s.fresh gone := by
  have hphase := h.phase
  unfold Phase at hphase
  rw [hcaller, hrunning] at hphase
  obtain ⟨hgone, -, hquits⟩ := hphase
  refine ⟨h.pointers, Nat.le_refl _, ?_, h.joined, h.deleted, h.ended, h.later, ?_⟩
  · rw [Nat.sub_self]
    rfl
  · exact ⟨hrunning, hgone, rfl, Nat.zero_le _, hquits⟩

/-- One turn of the loop of `start`. -/
theorem Inv.create (h : Inv s base gone) (hcaller : s.caller = .starting i)
    (hlt : i < s.maxThreads_) (ok : Bool) :
    Inv { s with
      vThreads := s.vThreads ++ [s.fresh]
      threads := Function.update s.threads s.fresh (if ok then some .lock else none)
      fresh := s.fresh + 1
      created := s.created ++ [s.fresh]
      caller := .starting (i + 1) } base gone := by
  have hphase := h.phase
  unfold Phase at hphase
  rw [hcaller] at hphase
  obtain ⟨hrunning, hgone, hfresh, -, hquits⟩ := hphase
  have hbase := h.base_le
  -- the new thread has taken no quit item
  have hnew : stopped (if ok then some .lock else none) = 0 := by cases ok <;> rfl
  have hothers : ∀ k < s.fresh, Function.update s.threads s.fresh
      (if ok then some .lock else none) k = s.threads k :=
    fun k hk => Function.update_of_ne (Nat.ne_of_lt hk) _ _
  refine ⟨?_, Nat.le_succ_of_le hbase, ?_, h.joined, h.deleted, fun k hk => ?_, fun k hk => ?_, ?_⟩
  · rw [h.pointers, List.range_succ]
  · rw [h.created, Nat.succ_sub hbase, List.range'_concat, Nat.one_mul, Nat.add_sub_cancel' hbase]
  · dsimp only
    rw [hothers k (by omega)]
    exact h.ended k hk
  · dsimp only at hk ⊢
    rw [Function.update_of_ne (by omega)]
    exact h.later k (by omega)
  · refine ⟨hrunning, hgone, by dsimp only; omega, by dsimp only; omega, ?_⟩
    unfold quits at hquits ⊢
    dsimp only
    rw [Finset.sum_range_succ, Function.update_self, hnew, Nat.add_zero,
      Finset.sum_congr rfl fun k hk => by rw [hothers k (Finset.mem_range.mp hk)]]
    exact hquits

/-- `start` returns. -/
theorem Inv.started (h : Inv s base gone) (hcaller : s.caller = .starting i)
    (hge : ¬ i < s.maxThreads_) :
    Inv { s with isRunning_ := true, caller := .outside, ret := S_OK } base gone := by
  have hphase := h.phase
  unfold Phase at hphase
  rw [hcaller] at hphase
  obtain ⟨-, hgone, hfresh, hle, hquits⟩ := hphase
  refine ⟨h.pointers, h.base_le, h.created, h.joined, h.deleted, h.ended, h.later, ?_⟩
  exact ⟨hgone, by dsimp only; omega, hquits⟩

/-- `quit` begins, where it can join what it finds. -/
theorem Inv.quit (h : Inv s base gone) (hcaller : s.caller = .outside)
    (hrunning : s.isRunning_ = true) (hjoinable : Joinable s (.call .quit)) :
    Inv { s with caller := .adding 0, joinedNow := [] } base gone := by
  have hphase := h.phase
  unfold Phase at hphase
  rw [hcaller, hrunning] at hphase
  obtain ⟨hgone, hfresh, hquits⟩ := hphase
  have hfound := hjoinable hrunning
  rw [h.pointers, h.deleted] at hfound
  -- the first `Thread` would be one that is deleted
  have hnone : base = 0 := by
    have hbase := h.base_le
    by_contra hne
    refine (hfound 0 (List.mem_range.mpr (by omega))).1 (List.mem_range.mpr ?_)
    omega
  refine ⟨h.pointers, h.base_le, h.created, h.joined, h.deleted, h.ended, h.later, ?_⟩
  refine ⟨hrunning, hnone, hgone.trans hnone, by dsimp only; omega, Nat.zero_le _, rfl, ?_, ?_⟩
  · exact fun thread hlt => (hfound thread (List.mem_range.mpr hlt)).2
  · exact hquits.trans hnone

/-- One turn of the first loop of `quit`. -/
theorem Inv.add (h : Inv s base gone) (hcaller : s.caller = .adding i) (hlt : i < s.maxThreads_)
    {threads : Nat → Option Worker} (hwoken : Woken s.threads threads) :
    Inv { s with
      workqueue_ := s.workqueue_ ++ [.quitFunc]
      threads := threads
      caller := .adding (i + 1) } base gone := by
  have hphase := h.phase
  unfold Phase at hphase
  rw [hcaller] at hphase
  obtain ⟨hrunning, hbase, hgone, hfresh, hle, hnow, hstarted, hquits⟩ := hphase
  refine ⟨h.pointers, h.base_le, h.created, h.joined, h.deleted, ?_, ?_, ?_⟩
  · exact fun k hk => hwoken.ended (h.ended k hk)
  · exact fun k hk => (hwoken.none_iff k).mpr (h.later k hk)
  · refine ⟨hrunning, hbase, hgone, hfresh, by dsimp only; omega, hnow, ?_, ?_⟩
    · exact fun k hk hnone => hstarted k hk ((hwoken.none_iff k).mp hnone)
    · unfold quits at hquits ⊢
      dsimp only
      simp only [hwoken.stopped_eq]
      rw [List.count_append, List.count_singleton_self]
      omega

/-- The first loop of `quit` ends. -/
theorem Inv.clear (h : Inv s base gone) (hcaller : s.caller = .adding i)
    (hge : ¬ i < s.maxThreads_) :
    Inv { s with isRunning_ := false, caller := .joining 0 } base gone := by
  have hphase := h.phase
  unfold Phase at hphase
  rw [hcaller] at hphase
  obtain ⟨-, hbase, hgone, hfresh, hle, hnow, hstarted, hquits⟩ := hphase
  refine ⟨h.pointers, h.base_le, h.created, h.joined, h.deleted, h.ended, h.later, ?_⟩
  refine ⟨rfl, hbase, hgone, Nat.zero_le _, hnow, hstarted, ?_⟩
  show quits s = s.fresh
  omega

/-- One turn of the second loop of `quit`. -/
theorem Inv.join (h : Inv s base gone) (hcaller : s.caller = .joining i) {thread : Nat}
    (hat : s.vThreads[i]? = some thread) (hended : s.threads thread = some .ended) :
    Inv { s with
      joined := s.joined ++ [thread]
      joinedNow := s.joinedNow ++ [thread]
      deleted := s.deleted ++ [thread]
      caller := .joining (i + 1) } base (gone + 1) := by
  have hphase := h.phase
  unfold Phase at hphase
  rw [hcaller] at hphase
  obtain ⟨hrunning, hbase, rfl, hle, hnow, hstarted, hquits⟩ := hphase
  -- the pointer at `i` is the one to the `Thread` `i`
  rw [h.pointers] at hat
  obtain ⟨hlt, rfl⟩ := List.getElem?_eq_some_iff.mp hat
  rw [List.length_range] at hlt
  rw [List.getElem_range] at hended ⊢
  refine ⟨h.pointers, h.base_le, h.created, ?_, ?_, fun k hk => ?_, h.later, ?_⟩
  · rw [h.joined, List.range_succ]
  · rw [h.deleted, List.range_succ]
  · rcases Nat.lt_succ_iff_lt_or_eq.mp hk with hlt | rfl
    · exact h.ended k hlt
    · exact hended
  · refine ⟨hrunning, hbase, rfl, hlt, ?_, hstarted, hquits⟩
    rw [hnow, List.range_succ]

/-- `quit` returns. -/
theorem Inv.returned (h : Inv s base gone) (hcaller : s.caller = .joining i)
    (hge : s.vThreads.length ≤ i) : Inv { s with caller := .outside, ret := S_OK } base gone := by
  have hphase := h.phase
  unfold Phase at hphase
  rw [hcaller] at hphase
  obtain ⟨hrunning, rfl, rfl, hle, hnow, -, hquits⟩ := hphase
  rw [h.pointers, List.length_range] at hge
  obtain rfl : s.fresh = gone := Nat.le_antisymm hge hle
  refine ⟨h.pointers, h.base_le, h.created, h.joined, h.deleted, h.ended, h.later, ?_⟩
  unfold Phase
  dsimp only
  rw [hrunning]
  refine ⟨rfl, ?_, hquits⟩
  rw [hnow, h.created, Nat.sub_zero, List.range_eq_range']

/-- The owner never joins where it must not. -/
theorem Inv.not_dangling (h : Inv s base gone) (hcaller : s.caller = .joining i) {thread : Nat}
    (hat : s.vThreads[i]? = some thread) :
    ¬ (thread ∈ s.deleted ∨ s.threads thread = none) := by
  have hphase := h.phase
  unfold Phase at hphase
  rw [hcaller] at hphase
  obtain ⟨-, -, rfl, -, -, hstarted, -⟩ := hphase
  rw [h.pointers] at hat
  obtain ⟨hlt, rfl⟩ := List.getElem?_eq_some_iff.mp hat
  rw [List.length_range] at hlt
  rw [List.getElem_range, h.deleted, List.mem_range]
  exact not_or.mpr ⟨Nat.lt_irrefl _, hstarted _ hlt⟩

/-- The maximum is only changed while nothing runs. -/
theorem Inv.setMaxThreads (h : Inv s base gone) (hcaller : s.caller = .outside)
    (maxThreads : Int) : Inv (s.setMaxThreads maxThreads) base gone := by
  have hret : ∀ ret, Inv { s with ret := ret } base gone := (h.quiet (Quiet.refl s) ·)
  unfold Pool.setMaxThreads
  split
  · exact hret _
  next hrunning =>
  split
  · exact hret _
  · refine ⟨h.pointers, h.base_le, h.created, h.joined, h.deleted, h.ended, h.later, ?_⟩
    have hphase := h.phase
    unfold Phase at hphase ⊢
    rw [hcaller, if_neg hrunning] at hphase
    dsimp only
    rw [hcaller, if_neg hrunning]
    exact hphase

end Owner

/-! ### Runs -/

section Runs
variable {s t : Pool} {m : Move} {base gone : Nat}

/-- A `Thread` whose thread does something was made. -/
theorem Inv.lt_fresh (h : Inv s base gone) {thread : Nat} {w : Worker}
    (hw : s.threads thread = some w) : thread < s.fresh := by
  by_contra hge
  exact absurd (hw.symm.trans (h.later thread (Nat.le_of_not_lt hge))) (Option.some_ne_none w)

/-- A worker takes a step, behind which the quit items are as many as before. -/
theorem Inv.worker (h : Inv s base gone) {thread : Nat} {items : List Item}
    {threads : Nat → Option Worker} {w : Worker} (w' : Worker) (hw : s.threads thread = some w)
    (hne : w ≠ .ended) (hwoken : Woken s.threads threads)
    (hcount : items.count .quitFunc + stopped (some w') =
      s.workqueue_.count .quitFunc + stopped (some w)) :
    Inv { s with workqueue_ := items, threads := Function.update threads thread (some w') }
      base gone :=
  h.quiet (Quiet.worker (h.lt_fresh hw) hw hne hwoken hcount) s.ret

/-- Every step keeps the invariant, if it is no `quit` that finds a pointer it cannot join. -/
theorem Inv.step (h : Inv s base gone) (hjoinable : Joinable s m) (hstep : Step s m t) :
    ∃ base gone, Inv t base gone := by
  cases hstep with
  | setMaxThreads maxThreads hcaller => exact ⟨_, _, h.setMaxThreads hcaller maxThreads⟩
  | startRefused => exact ⟨_, _, h.quiet (Quiet.refl s) S_FALSE⟩
  | start hcaller hrunning => exact ⟨_, _, h.start hcaller hrunning⟩
  | create i ok hcaller hlt => exact ⟨_, _, h.create hcaller hlt ok⟩
  | started i hcaller hge => exact ⟨_, _, h.started hcaller hge⟩
  | addWorkRefused => exact ⟨_, _, h.quiet (Quiet.refl s) S_FALSE⟩
  | addWork work threads _ _ hsignals =>
      exact ⟨_, _, h.quiet (Quiet.addWork work (woken_of_signalsMore hsignals)) S_OK⟩
  | quitRefused => exact ⟨_, _, h.quiet (Quiet.refl s) S_FALSE⟩
  | quit hcaller hrunning => exact ⟨_, _, h.quit hcaller hrunning hjoinable⟩
  | add i threads hcaller hlt _ hsignals =>
      exact ⟨_, _, h.add hcaller hlt (woken_of_signalsMore hsignals)⟩
  | addRefused i hcaller _ hrunning =>
      -- `isRunning_` is cleared behind this loop
      have hphase := h.phase
      unfold Phase at hphase
      rw [hcaller] at hphase
      exact absurd (hphase.1.symm.trans hrunning) (by decide)
  | clear i hcaller hge => exact ⟨_, _, h.clear hcaller hge⟩
  | join i thread hcaller hat _ hended => exact ⟨_, _, h.join hcaller hat hended⟩
  | dangling i thread hcaller hat hbad => exact absurd hbad (h.not_dangling hcaller hat)
  | returned i hcaller hge => exact ⟨_, _, h.returned hcaller hge⟩
  | wait thread hw => exact ⟨_, _, h.worker .wait hw nofun (Woken.refl _) rfl⟩
  | spurious thread hw => exact ⟨_, _, h.worker .lock hw nofun (Woken.refl _) rfl⟩
  | dequeue thread item items threads hw hqueue hsignals =>
      refine ⟨_, _, h.worker (.doit item) hw nofun (woken_of_signalsMore hsignals) ?_⟩
      rw [hqueue]
      cases item with
      | quitFunc =>
          rw [List.count_cons_self]
          rfl
      | work work =>
          rw [List.count_cons_of_ne Item.noConfusion]
          rfl
  | doit thread work hw => exact ⟨_, _, h.worker .lock hw nofun (Woken.refl _) rfl⟩
  | «break» thread hw => exact ⟨_, _, h.worker .ended hw nofun (Woken.refl _) rfl⟩

/-- No quit item is left when every thread has ended. -/
theorem count_quitFunc_of_ended (hquits : quits s = s.fresh)
    (hended : ∀ thread < s.fresh, s.threads thread = some .ended) :
    s.workqueue_.count .quitFunc = 0 := by
  have hsum := Finset.sum_const_nat fun thread hthread => by
    show stopped (s.threads thread) = 1
    rw [hended thread (Finset.mem_range.mp hthread)]
    rfl
  rw [Finset.card_range, Nat.mul_one] at hsum
  unfold quits at hquits
  omega

theorem Inv.restarts (h : Inv s base gone) : Restarts s := by
  have hphase := h.phase
  have hgone : s.caller = .outside → s.isRunning_ = false → gone = s.fresh ∧
      s.joinedNow = s.created ∧ quits s = s.fresh := by
    intro hcaller hrunning
    unfold Phase at hphase
    rw [hcaller, hrunning] at hphase
    exact hphase
  constructor
  case defined =>
    intro hcaller
    unfold Phase at hphase
    rw [hcaller] at hphase
    exact hphase
  case joinedOnce =>
    rw [h.joined]
    exact List.nodup_range
  case deletedOnce =>
    rw [h.deleted]
    exact List.nodup_range
  case matching => exact fun hcaller hrunning => (hgone hcaller hrunning).2.1
  case all =>
    intro hcaller hrunning thread hlt
    obtain ⟨rfl, -, -⟩ := hgone hcaller hrunning
    have hone : (List.range s.fresh).count thread = 1 :=
      List.count_eq_one_of_mem List.nodup_range (List.mem_range.mpr hlt)
    rw [h.joined, h.deleted]
    exact ⟨hone, hone, h.ended thread hlt⟩
  case noQuit =>
    intro hcaller hrunning
    obtain ⟨rfl, -, hquits⟩ := hgone hcaller hrunning
    refine ⟨List.count_eq_zero.mp (count_quitFunc_of_ended hquits h.ended), ?_⟩
    intro thread worker hw
    exact Option.some.inj (hw.symm.trans (h.ended thread (h.lt_fresh hw)))

/-- `quit` is on its way to a pointer that it cannot join. -/
structure Stuck (k thread : Nat) (s : Pool) : Prop where
  pointer : s.vThreads[k]? = some thread
  bad : thread ∈ s.deleted ∨ s.threads thread = none
  inQuit : (∃ i, s.caller = .adding i) ∨ (∃ i ≤ k, s.caller = .joining i) ∨
    s.caller = .undefined

/-- The workers do not help it. -/
theorem Stuck.after {k thread : Nat} {items : List Item} {threads : Nat → Option Worker}
    (h : Stuck k thread s) (hnone : s.threads thread = none → threads thread = none) :
    Stuck k thread (after s items threads s.ret) :=
  ⟨h.pointer, h.bad.imp_right hnone, h.inQuit⟩

theorem Stuck.step {k thread : Nat} (h : Stuck k thread s) (hstep : Step s m t) :
    Stuck k thread t := by
  -- what a worker does leaves a `Thread` without a thread as it is
  have hupdate : ∀ {threads : Nat → Option Worker} {k w w'}, Woken s.threads threads →
      s.threads k = some w → s.threads thread = none →
      Function.update threads k w' thread = none := by
    intro threads k w w' hwoken hw hnone
    have hne : thread ≠ k := by
      rintro rfl
      exact absurd (hw.symm.trans hnone) (Option.some_ne_none w)
    rw [Function.update_of_ne hne, hwoken.none_iff, hnone]
  -- the owner is inside `quit`
  have hinside : s.caller ≠ .outside ∧ ∀ i, s.caller ≠ .starting i := by
    rcases h.inQuit with ⟨i, hi⟩ | ⟨i, -, hi⟩ | hi <;> rw [hi] <;> exact ⟨nofun, nofun⟩
  cases hstep with
  | setMaxThreads _ hcaller => exact absurd hcaller hinside.1
  | startRefused hcaller => exact absurd hcaller hinside.1
  | start hcaller => exact absurd hcaller hinside.1
  | create i ok hcaller => exact absurd hcaller (hinside.2 i)
  | started i hcaller => exact absurd hcaller (hinside.2 i)
  | addWorkRefused _ hcaller => exact absurd hcaller hinside.1
  | addWork _ _ hcaller => exact absurd hcaller hinside.1
  | quitRefused hcaller => exact absurd hcaller hinside.1
  | quit hcaller => exact absurd hcaller hinside.1
  | add i threads _ _ _ hsignals =>
      exact ⟨h.pointer, h.bad.imp_right ((woken_of_signalsMore hsignals).none_iff thread).mpr,
        .inl ⟨_, rfl⟩⟩
  | addRefused i => exact ⟨h.pointer, h.bad, .inl ⟨_, rfl⟩⟩
  | clear i => exact ⟨h.pointer, h.bad, .inr (.inl ⟨0, Nat.zero_le k, rfl⟩)⟩
  | join i thread' hcaller hat hnot hended =>
      have hle : i ≤ k := by
        rcases h.inQuit with ⟨j, hj⟩ | ⟨j, hle, hj⟩ | hj
        · exact absurd (hj.symm.trans hcaller) nofun
        · rwa [← Caller.joining.inj (hj.symm.trans hcaller)]
        · exact absurd (hj.symm.trans hcaller) nofun
      -- the pointer that is joined is another one
      have hne : i ≠ k := by
        rintro rfl
        obtain rfl := Option.some.inj (hat.symm.trans h.pointer)
        rcases h.bad with hdeleted | hnone
        · exact hnot hdeleted
        · exact absurd (hended.symm.trans hnone) (Option.some_ne_none _)
      refine ⟨h.pointer, h.bad.imp_left (List.mem_append_left _), ?_⟩
      exact .inr (.inl ⟨i + 1, Nat.lt_of_le_of_ne hle hne, rfl⟩)
  | dangling => exact ⟨h.pointer, h.bad, .inr (.inr rfl)⟩
  | returned i hcaller hge =>
      have hlt := (List.getElem?_eq_some_iff.mp h.pointer).1
      rcases h.inQuit with ⟨j, hj⟩ | ⟨j, hle, hj⟩ | hj
      · exact absurd (hj.symm.trans hcaller) nofun
      · obtain rfl := Caller.joining.inj (hj.symm.trans hcaller)
        omega
      · exact absurd (hj.symm.trans hcaller) nofun
  | wait k hw => exact h.after (hupdate (Woken.refl _) hw)
  | spurious k hw => exact h.after (hupdate (Woken.refl _) hw)
  | dequeue k _ _ _ hw _ hsignals =>
      exact h.after (hupdate (woken_of_signalsMore hsignals) hw)
  | doit k _ hw => exact h.after (hupdate (Woken.refl _) hw)
  | «break» k hw => exact h.after (hupdate (Woken.refl _) hw)

/-- A `quit` that finds a pointer it cannot join does not return. -/
theorem never_returns {u : Pool} (hbad : ¬ Joinable s (.call .quit))
    (hstep : Step s (.call .quit) t) (h : Reaches Step (fun _ _ => True) t u) :
    u.caller ≠ .outside := by
  unfold Joinable at hbad
  push Not at hbad
  obtain ⟨hrunning, thread, hmem, hthread⟩ := hbad
  obtain ⟨k, hk⟩ := List.mem_iff_getElem?.mp hmem
  have hstuck : Stuck k thread t := by
    cases hstep with
    | quitRefused _ hnot => exact absurd (hrunning.symm.trans hnot) (by decide)
    | quit =>
        refine ⟨hk, ?_, .inl ⟨0, rfl⟩⟩
        by_cases hdeleted : thread ∈ s.deleted
        · exact .inl hdeleted
        · exact .inr (hthread hdeleted)
  have hend : Stuck k thread u := Reaches.invariant (fun _ _ _ hP _ hi => hP.step hi) hstuck h
  rcases hend.inQuit with ⟨i, hi⟩ | ⟨i, -, hi⟩ | hi <;> rw [hi] <;> nofun

end Runs

/-- In every run in which each `quit` finds only pointers that it can join, the pool can be
restarted. The next `quit` that finds another one never returns. -/
theorem restarts_of_joinable {maxThreads : Int} {s : Pool}
    (h : Reaches Step Joinable { maxThreads_ := maxThreads } s) :
    Restarts s ∧ ∀ t u, ¬ Joinable s (.call .quit) → Step s (.call .quit) t →
      Reaches Step (fun _ _ => True) t u → u.caller ≠ .outside := by
  have hinit : Inv { maxThreads_ := maxThreads } 0 0 :=
    ⟨rfl, Nat.le_refl 0, rfl, rfl, rfl, nofun, fun _ _ => rfl, ⟨rfl, rfl, rfl⟩⟩
  have hkeep : ∀ s m t, (∃ base gone, Inv s base gone) → Joinable s m → Step s m t →
      ∃ base gone, Inv t base gone := by
    intro s m t ⟨_, _, hinv⟩ hjoinable hstep
    exact hinv.step hjoinable hstep
  obtain ⟨base, gone, hinv⟩ := Reaches.invariant hkeep ⟨0, 0, hinit⟩ h
  exact ⟨hinv.restarts, fun t u => never_returns⟩

/-! ### Two cycles -/

/-- A thread that does not wait is put beside threads that do not wait. -/
theorem woken_update {threads : Nat → Option Worker} (h : ∀ k, woken (threads k) = none)
    (thread : Nat) {w : Option Worker} (hw : woken w = none) (k : Nat) :
    woken (Function.update threads thread w k) = none := by
  by_cases hk : k = thread
  · rw [hk, Function.update_self, hw]
  · rw [Function.update_of_ne hk, h k]

/-- One thread is started, quit and joined. -/
theorem first_cycle : ∃ s, Reaches Step Joinable { maxThreads_ := 1 } s ∧
    s.caller = .outside ∧ s.isRunning_ = false ∧ s.maxThreads_ = 1 ∧ s.vThreads = [0] ∧
      s.deleted = [0] ∧ ∀ k, woken (s.threads k) = none := by
  have hlock : ∀ k, woken (Function.update (fun _ => none) 0 (some .lock) k) = none :=
    woken_update (fun _ => rfl) 0 rfl
  refine ⟨_, .snoc (.snoc (.snoc (.snoc (.snoc (.snoc (.snoc (.snoc (.snoc (.snoc .refl
    ?_ (.start rfl rfl)) ?_ (.create 0 true rfl (by decide))) ?_ (.started 1 rfl (by decide)))
    ?quit (.quit rfl rfl)) ?_ (.add 0 _ rfl (by decide) rfl ⟨none, .nobody hlock⟩))
    ?_ (.dequeue 0 .quitFunc [] _ rfl rfl rfl)) ?_ (.break 0 rfl)) ?_ (.clear 1 rfl (by decide)))
    ?_ (.join 0 0 rfl rfl (by decide) rfl)) ?_ (.returned 1 rfl (by decide)),
    rfl, rfl, rfl, rfl, rfl, ?woken⟩
  case quit =>
    intro _ thread hmem
    obtain rfl : thread = 0 := List.mem_singleton.mp hmem
    exact ⟨List.not_mem_nil, Option.some_ne_none _⟩
  case woken => exact woken_update (woken_update hlock 0 rfl) 0 rfl
  all_goals trivial

/-- When it has been quit, everything is joined and deleted once. -/
theorem restarts_of_joinable_first : ∃ s, Reaches Step Joinable { maxThreads_ := 1 } s ∧
    s.caller = .outside ∧ s.deleted = [0] ∧ Restarts s := by
  obtain ⟨s, hreach, hcaller, -, -, -, hdeleted, -⟩ := first_cycle
  exact ⟨s, hreach, hcaller, hdeleted, (restarts_of_joinable hreach).1⟩

/-- The same pool is started and quit once more. The second `quit` joins the `Thread` that the first
one has deleted. -/
theorem second_quit_undefined : ∃ s, Reaches Step (fun _ _ => True) { maxThreads_ := 1 } s ∧
    s.caller = .undefined ∧ ¬ Restarts s := by
  obtain ⟨s, hreach, hcaller, hrunning, hmax, hpointers, hdeleted, hwoken⟩ := first_cycle
  have hall : Reaches Step (fun _ _ => True) { maxThreads_ := 1 } s :=
    hreach.mono fun _ _ _ _ _ => trivial
  have hlock := woken_update hwoken s.fresh (w := some .lock) rfl
  have hlt : (0 : Nat) < s.maxThreads_ := by rw [hmax]; decide
  have hge : ¬ (1 : Nat) < s.maxThreads_ := by rw [hmax]; decide
  refine ⟨_, .snoc (.snoc (.snoc (.snoc (.snoc (.snoc (.snoc hall
    trivial (.start hcaller hrunning)) trivial (.create 0 true rfl hlt))
    trivial (.started 1 rfl hge)) trivial (.quit rfl rfl))
    trivial (.add 0 (Function.update s.threads s.fresh (some .lock)) rfl hlt rfl ?signal))
    trivial (.clear 1 rfl hge))
    trivial (.dangling 0 0 rfl ?first (.inl ?deleted)), rfl, fun h => h.defined rfl⟩
  case signal =>
    unfold SignalsMore
    rw [if_pos (by simp)]
    exact ⟨none, .nobody hlock⟩
  case first =>
    show (s.vThreads ++ [s.fresh])[0]? = some 0
    rw [hpointers]
    rfl
  case deleted =>
    show 0 ∈ s.deleted
    rw [hdeleted]
    exact List.mem_singleton_self 0

end Ndsl.Proofs.WQRestart
