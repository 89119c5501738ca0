import Ndsl.Net.ELThreadpool

/-!
# `Ndsl.Proofs.ELThreadpool.Failures`: calls that fail

`start` and `getNextEventLoop` put the new loop and its thread into the pool, and then they start
the thread. If `pthread_create` fails, both stay there: the next selections may return a loop that
nothing runs, and `quit` joins a thread that was not started. `getNextEventLoop` also takes
`nextThread_` modulo the maximum before it knows whether it can give a loop.

`keeps_iff_traceless` says that these are the only ways: in a sequence of calls each one keeps its
promise exactly when each one is traceless, that is, when the thread of a loop that was initialised
can be created and the counter is below the maximum where no loop can be given.
-/

set_option autoImplicit false

namespace Ndsl.Proofs.ELThreadpool

open Ndsl.Lib
open Ndsl.Net Ndsl.Net.ELThreadpool

/-! ### Statements -/

/-- What a call returns. -/
inductive Result
  | code (ret : Int)
  | loop (el : Option Nat)
  deriving Repr, DecidableEq

/-- The call says that it has failed. -/
def Result.Failed : Result → Prop
  | .code ret => ret ≠ S_OK
  | .loop el => el = none

/-- One call, and what it returns. -/
def call (processors : Int) (s : ELThreadpool) : Op → Traced Event (Result × ELThreadpool)
  | .start new => do
    let (ret, s) ← s.start processors new
    return (.code ret, s)
  | .getNextEventLoop new => do
    let (el, s) ← s.getNextEventLoop new
    return (.loop el, s)
  | .setMaxThreads maxThreads =>
    return (.code (s.setMaxThreads processors maxThreads).1,
      (s.setMaxThreads processors maxThreads).2)
  | .quit => do
    let (ret, s) ← s.quit
    return (.code ret, s)

/-- `loops_`, `loopThreads_` and `nextThread_` are as they were. -/
def Unchanged (s t : ELThreadpool) : Prop :=
  t.loops_ = s.loops_ ∧ t.loopThreads_ = s.loopThreads_ ∧ t.nextThread_ = s.nextThread_

/-- What a call has promised: it did `es`, returned `r` and made `t` of `s`. -/
structure Kept (s : ELThreadpool) (es : List Event) (r : Result) (t : ELThreadpool) : Prop where
  failed : r.Failed → Unchanged s t
  /-- A loop that is returned has a thread that was started. -/
  returned : ∀ el, r = .loop (some el) → ∃ th ∈ t.loopThreads_, th.loop_ = el ∧ th.running = true
  joined : ∀ th, .join th ∈ es → th.running = true

/-- The call keeps its promise, if it returns. -/
def Keeps (processors : Int) (s : ELThreadpool) (op : Op) : Prop :=
  ∀ es r t, (call processors s op).Yields es (r, t) → Kept s es r t

/-- The calls that fail without a trace. Where a loop can be initialised its thread can be created
too, and a selection that has no loop to give finds the counter below the maximum. -/
def Traceless (s : ELThreadpool) : Op → Prop
  | .start new => new.init = S_OK → new.run = S_OK
  | .getNextEventLoop new => s.MaxThreads_ ≠ 0 →
      (s.nextThread_ % s.MaxThreads_ = s.loops_.length → new.init = S_OK → new.run = S_OK) ∧
      (s.loops_.length < s.nextThread_ % s.MaxThreads_ ∨
          s.nextThread_ % s.MaxThreads_ = s.loops_.length ∧ new.init ≠ S_OK →
        s.nextThread_ < s.MaxThreads_)
  | _ => True

/-- It holds of every call of a sequence, in the state that the call finds. -/
def EveryCall (processors : Int) (P : ELThreadpool → Op → Prop) : ELThreadpool → List Op → Prop
  | _, [] => True
  | s, op :: ops =>
    P s op ∧ ∀ es t, (s.step processors op).Yields es t → EveryCall processors P t ops

/-! ### What a call does -/

section Calls
variable {processors : Int} {s t : ELThreadpool} {new : Creation} {es : List Event}

/-- A loop was put into the pool, and its thread. -/
def Pushed (new : Creation) (s t : ELThreadpool) : Prop :=
  t.loops_ = s.loops_ ++ [s.fresh] ∧
    t.loopThreads_ = s.loopThreads_ ++ [{ loop_ := s.fresh, running := new.run = S_OK }]

theorem Pushed.ne (h : Pushed new s t) : t.loops_ ≠ s.loops_ := by
  intro heq
  rw [h.1] at heq
  simp at heq

/-- What `start` does. -/
theorem start_cases {ret : Int} (h : (s.start processors new).Yields es (ret, t)) :
    (∀ th, .join th ∉ es) ∧
      (new.init ≠ S_OK ∧ ret = S_FALSE ∧ Unchanged s t ∨
        new.init = S_OK ∧ (ret = S_OK ↔ new.run = S_OK) ∧ Pushed new s t) := by
  -- the default of the maximum touches neither the loops nor the counter
  have hsame : ∀ s' : ELThreadpool, s' = (if s.MaxThreads_ = 0
      then { s with MaxThreads_ := toUnsigned (capacity processors) } else s) →
      s'.loops_ = s.loops_ ∧ s'.loopThreads_ = s.loopThreads_ ∧ s'.nextThread_ = s.nextThread_ ∧
        s'.fresh = s.fresh := by
    intro s' hs'
    subst hs'
    split <;> exact ⟨rfl, rfl, rfl, rfl⟩
  unfold ELThreadpool.start at h
  generalize hset : (if s.MaxThreads_ = 0
      then { s with MaxThreads_ := toUnsigned (capacity processors) } else s) = s' at h
  have hs' := hsame s' hset.symm
  dsimp only at h
  split at h
  next hinit =>
    obtain ⟨rfl, heq⟩ := (Traced.tell_pure_yields ..).mp h
    obtain ⟨rfl, rfl⟩ := Prod.mk.inj heq
    exact ⟨by simp, .inl ⟨hinit, rfl, hs'.1, hs'.2.1, hs'.2.2.1⟩⟩
  next hinit =>
    have hinit : new.init = S_OK := not_not.mp hinit
    have hpushed : ∀ n, Pushed new s { s'.pushBack new with fresh := n } := by
      intro n
      simp [Pushed, pushBack, hs']
    split at h
    next hrun =>
      obtain ⟨rfl, heq⟩ := (Traced.tell_pure_yields ..).mp h
      obtain ⟨rfl, rfl⟩ := Prod.mk.inj heq
      exact ⟨by simp, .inr ⟨hinit, iff_of_false (by decide) hrun, hpushed _⟩⟩
    next hrun =>
      obtain ⟨rfl, heq⟩ := (Traced.pure_yields ..).mp h
      obtain ⟨rfl, rfl⟩ := Prod.mk.inj heq
      exact ⟨by simp, .inr ⟨hinit, by simp [not_not.mp hrun], hpushed _⟩⟩

/-- What a selection does, by where the counter stands. -/
theorem getNextEventLoop_cases {el : Option Nat}
    (h : (s.getNextEventLoop new).Yields es (el, t)) :
    s.MaxThreads_ ≠ 0 ∧ (∀ th, .join th ∉ es) ∧
      (s.nextThread_ % s.MaxThreads_ < s.loops_.length ∧
          el = s.loops_[s.nextThread_ % s.MaxThreads_]? ∧ t.loops_ = s.loops_ ∧
          t.loopThreads_ = s.loopThreads_ ∨
        s.nextThread_ % s.MaxThreads_ = s.loops_.length ∧ new.init = S_OK ∧ Pushed new s t ∧
          el = (if new.run = S_OK then some s.fresh else none) ∨
        (s.loops_.length < s.nextThread_ % s.MaxThreads_ ∨
            s.nextThread_ % s.MaxThreads_ = s.loops_.length ∧ new.init ≠ S_OK) ∧
          el = none ∧ t.loops_ = s.loops_ ∧ t.loopThreads_ = s.loopThreads_ ∧
          t.nextThread_ = s.nextThread_ % s.MaxThreads_) := by
  unfold getNextEventLoop at h
  by_cases hmax : s.MaxThreads_ = 0
  · rw [if_pos hmax] at h
    exact absurd h (Traced.fault_yields _ _)
  rw [if_neg hmax] at h
  dsimp only at h
  refine ⟨hmax, ?_⟩
  split at h
  next hlt =>
    obtain ⟨rfl, heq⟩ := (Traced.pure_yields ..).mp h
    obtain ⟨rfl, rfl⟩ := Prod.mk.inj heq
    exact ⟨by simp, .inl ⟨hlt, rfl, rfl, rfl⟩⟩
  next hge =>
  split at h
  next heq =>
    split at h
    next hinit =>
      obtain ⟨rfl, hpair⟩ := (Traced.tell_pure_yields ..).mp h
      obtain ⟨rfl, rfl⟩ := Prod.mk.inj hpair
      exact ⟨by simp, .inr (.inr ⟨.inr ⟨heq, hinit⟩, rfl, rfl, rfl, rfl⟩)⟩
    next hinit =>
    have hinit : new.init = S_OK := not_not.mp hinit
    split at h
    next hrun =>
      obtain ⟨rfl, hpair⟩ := (Traced.tell_pure_yields ..).mp h
      obtain ⟨rfl, rfl⟩ := Prod.mk.inj hpair
      exact ⟨by simp, .inr (.inl ⟨heq, hinit, ⟨rfl, rfl⟩, (if_neg hrun).symm⟩)⟩
    next hrun =>
      obtain ⟨rfl, hpair⟩ := (Traced.pure_yields ..).mp h
      obtain ⟨rfl, rfl⟩ := Prod.mk.inj hpair
      refine ⟨by simp, .inr (.inl ⟨heq, hinit, ⟨rfl, rfl⟩, ?_⟩)⟩
      rw [if_pos (not_not.mp hrun)]
      show (s.loops_ ++ [s.fresh])[s.nextThread_ % s.MaxThreads_]? = some s.fresh
      rw [heq, List.getElem?_concat_length]
  next hne =>
    obtain ⟨rfl, hpair⟩ := (Traced.tell_pure_yields ..).mp h
    obtain ⟨rfl, rfl⟩ := Prod.mk.inj hpair
    exact ⟨by simp, .inr (.inr ⟨.inl (by omega), rfl, rfl, rfl, rfl⟩)⟩

/-- `start` always returns. -/
theorem start_total (processors : Int) (s : ELThreadpool) (new : Creation) :
    ∃ es ret t, (s.start processors new).Yields es (ret, t) := by
  unfold ELThreadpool.start
  dsimp only
  split
  · exact ⟨_, _, _, rfl, rfl⟩
  · split <;> exact ⟨_, _, _, rfl, rfl⟩

/-- A selection returns, when the maximum is set. -/
theorem getNextEventLoop_total (hmax : s.MaxThreads_ ≠ 0) (new : Creation) :
    ∃ es el t, (s.getNextEventLoop new).Yields es (el, t) := by
  unfold getNextEventLoop
  rw [if_neg hmax]
  dsimp only
  split
  · exact ⟨_, _, _, rfl, rfl⟩
  split
  · split
    · exact ⟨_, _, _, rfl, rfl⟩
    · split <;> exact ⟨_, _, _, rfl, rfl⟩
  · exact ⟨_, _, _, rfl, rfl⟩

end Calls

/-! ### What a call keeps -/

/-- Each loop of the pool has a thread, which was started. -/
def Threaded (s : ELThreadpool) : Prop :=
  s.loopThreads_ = s.loops_.map fun el => { loop_ := el, running := true }

section Keeps
variable {processors : Int} {s t : ELThreadpool} {new : Creation} {op : Op} {es : List Event}

theorem Threaded.of_unchanged (h : Threaded s) (hloops : t.loops_ = s.loops_)
    (hthreads : t.loopThreads_ = s.loopThreads_) : Threaded t := by
  unfold Threaded
  rw [hthreads, hloops]
  exact h

theorem Threaded.push (h : Threaded s) (hpushed : Pushed new s t) (hrun : new.run = S_OK) :
    Threaded t := by
  unfold Threaded
  rw [hpushed.2, hpushed.1, h, List.map_append, List.map_singleton, decide_eq_true hrun]

/-- A thread of the pool is one that was started. -/
theorem Threaded.running (h : Threaded s) {th : ELThread} (hth : th ∈ s.loopThreads_) :
    th.running = true := by
  rw [h] at hth
  obtain ⟨el, -, rfl⟩ := List.mem_map.mp hth
  rfl

/-- A loop of the pool has its thread there. -/
theorem Threaded.mem (h : Threaded s) {el : Nat} (hel : el ∈ s.loops_) :
    ∃ th ∈ s.loopThreads_, th.loop_ = el ∧ th.running = true := by
  refine ⟨{ loop_ := el, running := true }, ?_, rfl, rfl⟩
  rw [h]
  exact List.mem_map_of_mem hel

theorem call_start_yields {r : Result}
    (h : (call processors s (.start new)).Yields es (r, t)) :
    ∃ ret, r = .code ret ∧ (s.start processors new).Yields es (ret, t) := by
  obtain ⟨fs, ⟨ret, t'⟩, gs, hstart, hend, rfl⟩ := Traced.bind_yields.mp h
  obtain ⟨rfl, heq⟩ := (Traced.pure_yields ..).mp hend
  obtain ⟨rfl, rfl⟩ := Prod.mk.inj heq
  rw [List.append_nil]
  exact ⟨ret, rfl, hstart⟩

theorem call_getNextEventLoop_yields {r : Result}
    (h : (call processors s (.getNextEventLoop new)).Yields es (r, t)) :
    ∃ el, r = .loop el ∧ (s.getNextEventLoop new).Yields es (el, t) := by
  obtain ⟨fs, ⟨el, t'⟩, gs, hselect, hend, rfl⟩ := Traced.bind_yields.mp h
  obtain ⟨rfl, heq⟩ := (Traced.pure_yields ..).mp hend
  obtain ⟨rfl, rfl⟩ := Prod.mk.inj heq
  rw [List.append_nil]
  exact ⟨el, rfl, hselect⟩

/-- `start` keeps its promise when it is traceless, and the pool keeps its threads. -/
theorem start_keeps (h : Threaded s) {r : Result}
    (hcall : (call processors s (.start new)).Yields es (r, t))
    (htraceless : Traceless s (.start new)) : Kept s es r t ∧ Threaded t := by
  obtain ⟨ret, rfl, hstart⟩ := call_start_yields hcall
  obtain ⟨hjoin, ⟨-, -, hsame⟩ | ⟨hinit, hret, hpushed⟩⟩ := start_cases hstart
  · refine ⟨⟨fun _ => hsame, nofun, fun th hth => absurd hth (hjoin th)⟩, ?_⟩
    exact h.of_unchanged hsame.1 hsame.2.1
  · have hrun := htraceless hinit
    refine ⟨⟨fun hfailed => absurd (hret.mpr hrun) hfailed, nofun, ?_⟩, h.push hpushed hrun⟩
    exact fun th hth => absurd hth (hjoin th)

/-- The same of a selection. -/
theorem getNextEventLoop_keeps (h : Threaded s) {r : Result}
    (hcall : (call processors s (.getNextEventLoop new)).Yields es (r, t))
    (htraceless : Traceless s (.getNextEventLoop new)) : Kept s es r t ∧ Threaded t := by
  obtain ⟨el, rfl, hselect⟩ := call_getNextEventLoop_yields hcall
  obtain ⟨hmax, hjoin, hcases⟩ := getNextEventLoop_cases hselect
  obtain ⟨hrun, hcounter⟩ := htraceless hmax
  have hjoined : ∀ th, .join th ∈ es → th.running = true := fun th hth => absurd hth (hjoin th)
  rcases hcases with ⟨hlt, hel, hloops, hthreads⟩ | ⟨heq, hinit, hpushed, hel⟩ |
    ⟨hnone, hel, hloops, hthreads, hnext⟩
  · have hkept := h.of_unchanged hloops hthreads
    rw [List.getElem?_eq_getElem hlt] at hel
    refine ⟨⟨fun hfailed => ?_, fun loop hloop => ?_, hjoined⟩, hkept⟩
    · exact absurd (hel.symm.trans hfailed) (Option.some_ne_none _)
    · obtain rfl : el = some loop := Result.loop.inj hloop
      refine hkept.mem ?_
      rw [hloops, Option.some.inj hel]
      exact List.getElem_mem hlt
  · have hrun := hrun heq hinit
    have hkept := h.push hpushed hrun
    rw [if_pos hrun] at hel
    refine ⟨⟨fun hfailed => ?_, fun loop hloop => ?_, hjoined⟩, hkept⟩
    · exact absurd (hel.symm.trans hfailed) (Option.some_ne_none _)
    · obtain rfl : el = some loop := Result.loop.inj hloop
      refine hkept.mem ?_
      rw [hpushed.1, Option.some.inj hel]
      exact List.mem_append_right _ (List.mem_singleton_self _)
  · have hbelow := hcounter hnone
    rw [Nat.mod_eq_of_lt hbelow] at hnext
    refine ⟨⟨fun _ => ⟨hloops, hthreads, hnext⟩, fun loop hloop => ?_, hjoined⟩, ?_⟩
    · obtain rfl : el = some loop := Result.loop.inj hloop
      exact absurd hel (Option.some_ne_none _)
    · exact h.of_unchanged hloops hthreads

/-- A traceless call keeps its promise, and the pool keeps its threads. -/
theorem Threaded.keeps (h : Threaded s) {r : Result}
    (hcall : (call processors s op).Yields es (r, t)) (htraceless : Traceless s op) :
    Kept s es r t ∧ Threaded t := by
  cases op with
  | start new => exact start_keeps h hcall htraceless
  | getNextEventLoop new => exact getNextEventLoop_keeps h hcall htraceless
  | setMaxThreads maxThreads =>
      obtain ⟨rfl, heq⟩ := (Traced.pure_yields ..).mp hcall
      obtain ⟨rfl, rfl⟩ := Prod.mk.inj heq
      have hsame : Unchanged s (s.setMaxThreads processors maxThreads).2 := by
        unfold ELThreadpool.setMaxThreads
        dsimp only
        split
        · exact ⟨rfl, rfl, rfl⟩
        · split <;> exact ⟨rfl, rfl, rfl⟩
      exact ⟨⟨fun _ => hsame, nofun, nofun⟩, h.of_unchanged hsame.1 hsame.2.1⟩
  | quit =>
      have hsizes : s.loopThreads_.length = s.loops_.length := by rw [h, List.length_map]
      obtain ⟨fs, ⟨ret, t'⟩, gs, hquit, hend, rfl⟩ := Traced.bind_yields.mp hcall
      obtain ⟨rfl, heq⟩ := (Traced.pure_yields ..).mp hend
      obtain ⟨rfl, rfl⟩ := Prod.mk.inj heq
      rw [ELThreadpool.quit, if_neg (not_not_intro hsizes), Traced.tell_pure_yields] at hquit
      obtain ⟨rfl, hpair⟩ := hquit
      obtain ⟨rfl, rfl⟩ := Prod.mk.inj hpair
      refine ⟨⟨fun hfailed => absurd rfl hfailed, nofun, fun th hth => ?_⟩, rfl⟩
      rw [List.append_nil, List.mem_map] at hth
      obtain ⟨th', hmem, heq⟩ := hth
      obtain rfl := Event.join.inj heq
      exact h.running (List.mem_reverse.mp hmem)

/-- A call that is not traceless breaks its promise. -/
theorem traceless_of_keeps (h : Keeps processors s op) : Traceless s op := by
  cases op with
  | start new =>
      intro hinit
      by_contra hrun
      obtain ⟨es, ret, t, hstart⟩ := start_total processors s new
      have hkept := h es (.code ret) t (Traced.bind_yields.mpr ⟨es, _, [], hstart, ⟨rfl, rfl⟩,
        (List.append_nil es).symm⟩)
      obtain ⟨-, ⟨hno, -⟩ | ⟨-, hret, hpushed⟩⟩ := start_cases hstart
      · exact hno hinit
      · exact hpushed.ne (hkept.failed fun hok => hrun (hret.mp hok)).1
  | getNextEventLoop new =>
      intro hmax
      obtain ⟨es, el, t, hselect⟩ := getNextEventLoop_total hmax new
      have hkept := h es (.loop el) t (Traced.bind_yields.mpr ⟨es, _, [], hselect, ⟨rfl, rfl⟩,
        (List.append_nil es).symm⟩)
      obtain ⟨-, -, ⟨hlt, -⟩ | ⟨heq, hinit, hpushed, hel⟩ | ⟨hnone, hel, -, -, hnext⟩⟩ :=
        getNextEventLoop_cases hselect
      · exact ⟨fun heq => absurd heq (Nat.ne_of_lt hlt), fun hor => by omega⟩
      · refine ⟨fun _ _ => ?_, fun hor => absurd hinit (hor.elim (by omega) And.right)⟩
        by_contra hrun
        rw [if_neg hrun] at hel
        exact hpushed.ne (hkept.failed hel).1
      · refine ⟨fun heq hinit => ?_, fun _ => ?_⟩
        · rcases hnone with hlt | ⟨-, hno⟩
          · omega
          · exact absurd hinit hno
        · -- the counter was taken modulo the maximum, and it is as it was
          rw [← Nat.mod_eq_iff_lt hmax, ← hnext]
          exact (hkept.failed hel).2.2
  | setMaxThreads => trivial
  | quit => trivial

/-- A call is the step that forgets what is returned. -/
theorem step_yields :
    (s.step processors op).Yields es t ↔ ∃ r, (call processors s op).Yields es (r, t) := by
  -- the two differ in what they make of the pair
  have hview : ∀ {β : Type} (x : Traced Event (β × ELThreadpool)) (f : β → Result),
      (x >>= fun a => pure a.2).Yields es t ↔
        ∃ r, (x >>= fun a => pure (f a.1, a.2)).Yields es (r, t) := by
    intro β x f
    simp only [Traced.bind_yields, Traced.pure_yields, Prod.mk.injEq]
    constructor
    · rintro ⟨fs, a, gs, hx, ⟨hgs, ht⟩, hes⟩
      exact ⟨f a.1, fs, a, gs, hx, ⟨hgs, rfl, ht⟩, hes⟩
    · rintro ⟨_, fs, a, gs, hx, ⟨hgs, _, ht⟩, hes⟩
      exact ⟨fs, a, gs, hx, ⟨hgs, ht⟩, hes⟩
  cases op with
  | start new => exact hview _ .code
  | getNextEventLoop new => exact hview _ .loop
  | setMaxThreads maxThreads =>
      show (pure _ : Traced Event ELThreadpool).Yields es t ↔
        ∃ r, (pure _ : Traced Event (Result × ELThreadpool)).Yields es (r, t)
      simp only [Traced.pure_yields, Prod.mk.injEq]
      constructor
      · rintro ⟨hes, ht⟩
        exact ⟨_, hes, rfl, ht⟩
      · rintro ⟨_, hes, _, ht⟩
        exact ⟨hes, ht⟩
  | quit => exact hview _ .code

/-- From a pool that has its threads, each call keeps its promise exactly when each is traceless. -/
theorem Threaded.everyCall_iff (h : Threaded s) (ops : List Op) :
    EveryCall processors (Keeps processors) s ops ↔ EveryCall processors Traceless s ops := by
  induction ops generalizing s with
  | nil => exact Iff.rfl
  | cons op ops ih =>
      have hnext : Traceless s op → ∀ es t, (s.step processors op).Yields es t → Threaded t := by
        intro htraceless es t hstep
        obtain ⟨r, hcall⟩ := step_yields.mp hstep
        exact (h.keeps hcall htraceless).2
      constructor
      · intro ⟨hkeeps, hrest⟩
        have htraceless := traceless_of_keeps hkeeps
        exact ⟨htraceless, fun es t hstep =>
          (ih (hnext htraceless es t hstep)).mp (hrest es t hstep)⟩
      · intro ⟨htraceless, hrest⟩
        exact ⟨fun es r t hcall => (h.keeps hcall htraceless).1, fun es t hstep =>
          (ih (hnext htraceless es t hstep)).mpr (hrest es t hstep)⟩

end Keeps

/-- In a sequence of calls every one keeps its promise exactly when every one is traceless. -/
theorem keeps_iff_traceless (processors : Int) (ops : List Op) :
    EveryCall processors (Keeps processors) {} ops ↔ EveryCall processors Traceless {} ops :=
  Threaded.everyCall_iff (s := {}) rfl ops

/-- The thread of the first loop cannot be created. `start` fails and leaves the loop, the next
selection returns it, and `quit` joins the thread. And behind two selections and a `quit` a
selection that fails takes the counter back to zero. -/
theorem failure_leaves_trace :
    ¬ EveryCall 4 (Keeps 4) {} [.start { run := 11 }] ∧
    (∃ es s fs t, (({} : ELThreadpool).start 4 { run := 11 }).Yields es (S_FALSE, s) ∧
      s.loops_ = [0] ∧ s.loopThreads_ = [{ loop_ := 0, running := false }] ∧
      (s.getNextEventLoop {}).Yields fs (some 0, t) ∧
      ∃ u, t.quit.Yields [.join { loop_ := 0, running := false }] (S_OK, u)) ∧
    ∃ es s t, ([.setMaxThreads 2, .start {}, .getNextEventLoop {}, .getNextEventLoop {},
        .quit].foldlM (ELThreadpool.step 4) {}).Yields es s ∧
      (s.getNextEventLoop { init := S_FALSE }).Yields [.log "init error\n"] (none, t) ∧
      s.nextThread_ = 2 ∧ t.nextThread_ = 0 := by
  refine ⟨fun h => ?_, ⟨_, _, _, _, ⟨rfl, rfl⟩, rfl, rfl, ⟨rfl, rfl⟩, _, rfl, rfl⟩,
    _, _, _, ⟨rfl, rfl⟩, ⟨rfl, rfl⟩, rfl, rfl⟩
  have hkept := h.1 [.log "ELThread run error\n"] (.code S_FALSE) _ ⟨rfl, rfl⟩
  have hfailed : Result.Failed (.code S_FALSE) := show S_FALSE ≠ S_OK by decide
  exact absurd (hkept.failed hfailed).1 (by decide)

end Ndsl.Proofs.ELThreadpool
