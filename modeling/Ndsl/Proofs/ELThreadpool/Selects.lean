import Ndsl.Net.ELThreadpool

/-!
# `Ndsl.Proofs.ELThreadpool.Selects`: the pool always has a loop to give

`getNextEventLoop` divides by `MaxThreads_` and takes `nextThread_` for at most the number of loops.
`start`, `setMaxThreads` and the selection itself keep that so, as long as `start` is not called on
a full pool. `quit` takes the loops away and leaves `nextThread_` where it is: it holds again when
as many loops have been started. `served_iff_careful` says that in such runs each selection behind a
successful `start` gives a loop, and that the next one does not where it is not careful.
-/

set_option autoImplicit false

namespace Ndsl.Proofs.ELThreadpool

open Ndsl.Lib
open Ndsl.Net Ndsl.Net.ELThreadpool

/-! ### Careful runs -/

/-- A pool, whether it has been quit since its last selection, and whether a `start` has been
successful. -/
structure Watched where
  pool : ELThreadpool := {}
  quitted : Bool := false
  started : Bool := false

/-- One call. -/
def watch (processors : Int) (s : Watched) (op : Op) : Traced Event Watched := do
  let pool ← s.pool.step processors op
  return { pool := pool
           quitted := match op with
             | .quit => true
             | .getNextEventLoop _ => false
             | _ => s.quitted
           started := match op with
             | .start new => s.started || (new.init == S_OK && new.run == S_OK)
             | _ => s.started }

/-- `EventLoop::init` succeeds. -/
def Initialised : Op → Prop
  | .start new => new.init = S_OK
  | .getNextEventLoop new => new.init = S_OK
  | _ => True

/-- The maximum behind the first line of `start`. -/
def maximum (processors : Int) (s : ELThreadpool) : Nat :=
  if s.MaxThreads_ = 0 then toUnsigned (ELThreadpool.capacity processors) else s.MaxThreads_

/-- The selection opens a loop, and `pthread_create` fails. -/
def OpensInVain (s : ELThreadpool) (new : Creation) : Prop :=
  s.nextThread_ % s.MaxThreads_ = s.loops_.length ∧ new.run ≠ S_OK

/-- The calls that keep the pool in order. `start` finds room for a loop. A selection finds a
maximum, and behind a successful `start` it opens no loop in vain; the first one behind a `quit`
comes when that many loops have been started again. -/
def Careful (processors : Int) (s : Watched) : Op → Prop
  | .start _ => s.pool.loops_.length < maximum processors s.pool
  | .getNextEventLoop new => s.pool.MaxThreads_ ≠ 0 ∧
      (s.started = true → ¬ OpensInVain s.pool new) ∧
      (s.quitted = true → s.pool.nextThread_ ≤ s.pool.loops_.length)
  | _ => True

/-- Each loop has its thread, and there are no more of them than the maximum. -/
structure Ordered (s : Watched) : Prop where
  sizes : s.pool.loopThreads_.length = s.pool.loops_.length
  atMost : s.pool.loops_.length ≤ s.pool.MaxThreads_

/-- A selection finds its counter in range and gives a loop of the pool. Before a successful `start`
it may give `NULL`, when it opens a loop in vain. -/
def Selects (s : Watched) (new : Creation) : Prop :=
  s.pool.nextThread_ ≤ s.pool.loops_.length ∧
    ∃ es loop t, (s.pool.getNextEventLoop new).Yields es (loop, t) ∧
      (∀ l, loop = some l → l ∈ t.loops_) ∧
      (loop = none → s.started = false ∧ OpensInVain s.pool new)

/-- The call leaves the pool in order, and it gives a loop if it is a selection. -/
structure Served (processors : Int) (s : Watched) (op : Op) : Prop where
  ordered : ∃ es t, (watch processors s op).Yields es t ∧ Ordered t
  selects : ∀ new, op = .getNextEventLoop new → Selects s new

/-! ### The invariant -/

/-- What every call keeps. -/
structure Inv (processors : Int) (s : Watched) : Prop where
  sizes : s.pool.loopThreads_.length = s.pool.loops_.length
  atMost : s.pool.loops_.length ≤ s.pool.MaxThreads_
  capacity : s.pool.MaxThreads_ ≤ toUnsigned (capacity processors)
  next : s.quitted = false → s.pool.nextThread_ ≤ s.pool.loops_.length

section Selection
variable {processors : Int} {s : Watched} {new : Creation}

theorem toUnsigned_lt (i : Int) : toUnsigned i < 2 ^ 32 := by
  unfold toUnsigned
  omega

/-- The selection of a loop that is there. -/
theorem getNextEventLoop_there {s : ELThreadpool} (hmax : s.MaxThreads_ ≠ 0)
    (hlt : s.nextThread_ % s.MaxThreads_ < s.loops_.length) :
    (s.getNextEventLoop new).Yields [] (some (s.loops_.get ⟨_, hlt⟩),
      { s with nextThread_ := (s.nextThread_ % s.MaxThreads_ + 1) % 2 ^ 32 }) := by
  unfold getNextEventLoop
  rw [if_neg hmax]
  dsimp only
  rw [if_pos hlt, List.getElem?_eq_getElem hlt]
  exact ⟨rfl, rfl⟩

/-- The selection that opens a loop. -/
theorem getNextEventLoop_opens {s : ELThreadpool} (hmax : s.MaxThreads_ ≠ 0)
    (hinit : new.init = S_OK) (hrun : new.run = S_OK)
    (heq : s.nextThread_ % s.MaxThreads_ = s.loops_.length) :
    (s.getNextEventLoop new).Yields [] (some s.fresh, { s.pushBack new with
      nextThread_ := (s.nextThread_ % s.MaxThreads_ + 1) % 2 ^ 32
      fresh := s.fresh + 1 }) := by
  have hgrown : (s.loops_ ++ [s.fresh])[s.nextThread_ % s.MaxThreads_]? = some s.fresh := by
    rw [heq, List.getElem?_concat_length]
  unfold getNextEventLoop
  rw [if_neg hmax]
  dsimp only
  rw [if_neg (Nat.not_lt.mpr (Nat.le_of_eq heq.symm)), if_pos heq, if_neg (not_not_intro hinit),
    if_neg (not_not_intro hrun)]
  simp only [pushBack, hgrown]
  exact ⟨rfl, rfl⟩

/-- The selection that opens a loop in vain leaves it in the pool. -/
theorem getNextEventLoop_inVain {s : ELThreadpool} (hmax : s.MaxThreads_ ≠ 0)
    (hinit : new.init = S_OK) (hvain : OpensInVain s new) :
    (s.getNextEventLoop new).Yields [.log "run error\n"] (none, { s.pushBack new with
      nextThread_ := s.nextThread_ % s.MaxThreads_
      fresh := s.fresh + 1 }) := by
  obtain ⟨heq, hrun⟩ := hvain
  unfold getNextEventLoop
  rw [if_neg hmax]
  dsimp only
  rw [if_neg (Nat.not_lt.mpr (Nat.le_of_eq heq.symm)), if_pos heq, if_neg (not_not_intro hinit),
    if_pos hrun]
  exact ⟨rfl, rfl⟩

theorem sizes_pushBack {s : ELThreadpool} (h : s.loopThreads_.length = s.loops_.length) :
    (s.pushBack new).loopThreads_.length = (s.pushBack new).loops_.length := by
  rw [pushBack, List.length_append, List.length_append, h]
  rfl

/-- What a selection does in a pool that is in order. -/
theorem getNextEventLoop_yields (h : Inv processors s) (hinit : new.init = S_OK)
    (hcareful : Careful processors s (.getNextEventLoop new)) :
    s.pool.nextThread_ ≤ s.pool.loops_.length ∧
    ∃ es loop t, (s.pool.getNextEventLoop new).Yields es (loop, t) ∧
      (∀ l, loop = some l → l ∈ t.loops_) ∧
      (loop = none → s.started = false ∧ OpensInVain s.pool new) ∧
      t.loopThreads_.length = t.loops_.length ∧ t.loops_.length ≤ t.MaxThreads_ ∧
      t.MaxThreads_ = s.pool.MaxThreads_ ∧ t.nextThread_ ≤ t.loops_.length := by
  obtain ⟨hmax, hrun, hquitted⟩ := hcareful
  have hatMost := h.atMost
  have hnext : s.pool.nextThread_ ≤ s.pool.loops_.length := by
    cases hq : s.quitted with
    | false => exact h.next hq
    | true => exact hquitted hq
  refine ⟨hnext, ?_⟩
  have hmod := Nat.mod_le s.pool.nextThread_ s.pool.MaxThreads_
  have hmodlt := Nat.mod_lt s.pool.nextThread_ (Nat.pos_of_ne_zero hmax)
  have hbound := toUnsigned_lt (ELThreadpool.capacity processors)
  have hcapacity := h.capacity
  have hgrown : (s.pool.loops_ ++ [s.pool.fresh]).length = s.pool.loops_.length + 1 :=
    List.length_append
  by_cases hlt : s.pool.nextThread_ % s.pool.MaxThreads_ < s.pool.loops_.length
  · refine ⟨_, _, _, getNextEventLoop_there hmax hlt, fun l hl => ?_, nofun, h.sizes, hatMost, rfl,
      ?_⟩
    · exact Option.some.inj hl ▸ List.get_mem ..
    -- the counter stays an `unsigned int`
    · show (s.pool.nextThread_ % s.pool.MaxThreads_ + 1) % 2 ^ 32 ≤ s.pool.loops_.length
      omega
  · have heq : s.pool.nextThread_ % s.pool.MaxThreads_ = s.pool.loops_.length := by omega
    have hroom : (s.pool.loops_ ++ [s.pool.fresh]).length ≤ s.pool.MaxThreads_ := by omega
    by_cases hstarts : new.run = S_OK
    · refine ⟨_, _, _, getNextEventLoop_opens hmax hinit hstarts heq, fun l hl => ?_, nofun,
        sizes_pushBack h.sizes, hroom, rfl, ?_⟩
      · exact Option.some.inj hl ▸ List.mem_append_right _ (List.mem_singleton_self _)
      · show (s.pool.nextThread_ % s.pool.MaxThreads_ + 1) % 2 ^ 32 ≤
          (s.pool.loops_ ++ [s.pool.fresh]).length
        omega
    · have hvain : OpensInVain s.pool new := ⟨heq, hstarts⟩
      have hnot : s.started = false := Bool.eq_false_iff.mpr fun hs => hrun hs hvain
      refine ⟨_, none, _, getNextEventLoop_inVain hmax hinit hvain, nofun, fun _ => ⟨hnot, hvain⟩,
        sizes_pushBack h.sizes, hroom, rfl, ?_⟩
      show s.pool.nextThread_ % s.pool.MaxThreads_ ≤ (s.pool.loops_ ++ [s.pool.fresh]).length
      omega

/-- A selection that gives a loop was careful. -/
theorem careful_of_selects (hinit : new.init = S_OK) (h : Selects s new) :
    Careful processors s (.getNextEventLoop new) := by
  obtain ⟨hnext, es, loop, t, hyields, -, hnone⟩ := h
  by_cases hmax : s.pool.MaxThreads_ = 0
  · rw [getNextEventLoop, if_pos hmax] at hyields
    exact absurd hyields.2 (Option.some_ne_none _).symm
  refine ⟨hmax, fun hstarted hvain => ?_, fun _ => hnext⟩
  -- the thread of the new loop has not started, so `NULL` is returned
  obtain ⟨-, hnull⟩ := hyields.unique (getNextEventLoop_inVain hmax hinit hvain)
  obtain ⟨hnot, -⟩ := hnone (congrArg Prod.fst hnull)
  exact Bool.noConfusion (hstarted.symm.trans hnot)

end Selection

/-! ### What one call keeps -/

section Step
variable {processors : Int} {s t : Watched} {op : Op} {es : List Event}

/-- What `start` does when the loop can be initialised. -/
theorem start_yields (processors : Int) {new : Creation} (hinit : new.init = S_OK) : ∃ fs,
    (watch processors s (.start new)).Yields fs { s with
      pool := { s.pool with
        MaxThreads_ := maximum processors s.pool
        loops_ := s.pool.loops_ ++ [s.pool.fresh]
        loopThreads_ := s.pool.loopThreads_ ++
          [{ loop_ := s.pool.fresh, running := new.run = S_OK }]
        fresh := s.pool.fresh + 1 }
      started := s.started || (new.init == S_OK && new.run == S_OK) } := by
  have hset : (if s.pool.MaxThreads_ = 0 then
      { s.pool with MaxThreads_ := toUnsigned (ELThreadpool.capacity processors) }
      else s.pool) = { s.pool with MaxThreads_ := maximum processors s.pool } := by
    unfold maximum
    split <;> rfl
  have hstart : ∃ fs ret, (s.pool.start processors new).Yields fs (ret, { s.pool with
      MaxThreads_ := maximum processors s.pool
      loops_ := s.pool.loops_ ++ [s.pool.fresh]
      loopThreads_ := s.pool.loopThreads_ ++ [{ loop_ := s.pool.fresh, running := new.run = S_OK }]
      fresh := s.pool.fresh + 1 }) := by
    unfold ELThreadpool.start
    rw [hset]
    simp only [hinit, ne_eq, not_true_eq_false, if_false, pushBack]
    by_cases hrun : new.run = S_OK
    · rw [if_neg (not_not_intro hrun)]
      exact ⟨[], S_OK, rfl, rfl⟩
    · rw [if_pos hrun]
      exact ⟨[.log "ELThread run error\n"], S_FALSE, rfl, rfl⟩
  obtain ⟨fs, ret, hstart⟩ := hstart
  exact ⟨_, Traced.bind_yields.mpr ⟨_, _, _, Traced.bind_yields.mpr ⟨fs, _, [], hstart,
    ⟨rfl, rfl⟩, rfl⟩, ⟨rfl, rfl⟩, rfl⟩⟩

/-- A loop that is started, when there is room for it. -/
theorem Inv.start (h : Inv processors s) {new : Creation} (hinit : new.init = S_OK)
    (hroom : s.pool.loops_.length < maximum processors s.pool)
    (hyields : (watch processors s (.start new)).Yields es t) : Inv processors t := by
  obtain ⟨fs, hstart⟩ := start_yields (s := s) processors hinit
  obtain ⟨-, rfl⟩ := hyields.unique hstart
  have hsizes := h.sizes
  refine ⟨?_, ?_, ?_, fun hq => ?_⟩
  · simp only [List.length_append, List.length_singleton, hsizes]
  · simp only [List.length_append, List.length_singleton]
    exact hroom
  · show maximum processors s.pool ≤ _
    unfold maximum
    split
    · exact Nat.le_refl _
    · exact h.capacity
  · have hnext := h.next hq
    simp only [List.length_append, List.length_singleton]
    exact Nat.le_succ_of_le hnext

/-- `quit` joins the threads, the last one first. -/
theorem quit_yields {pool : ELThreadpool}
    (hsizes : pool.loopThreads_.length = pool.loops_.length) :
    pool.quit.Yields (pool.loopThreads_.reverse.map .join)
      (S_OK, { pool with loopThreads_ := [], loops_ := [] }) := by
  rw [ELThreadpool.quit, if_neg (not_not_intro hsizes), Traced.tell_bind_yields]
  exact ⟨[], ⟨rfl, rfl⟩, (List.append_nil _).symm⟩

/-- Every careful call keeps the invariant. -/
theorem Inv.step (h : Inv processors s) (hinit : Initialised op)
    (hcareful : Careful processors s op) (hyields : (watch processors s op).Yields es t) :
    Inv processors t := by
  have hsizes := h.sizes
  have hatMost := h.atMost
  have hcapacity := h.capacity
  cases op with
  | start new => exact h.start hinit hcareful hyields
  | getNextEventLoop new =>
      -- the selection is a function of the pool, so it is the one of the lemma
      obtain ⟨-, fs, loop, pool, hpool, -, -, hsizes', hatMost', hmax, hnext⟩ :=
        getNextEventLoop_yields h hinit hcareful
      have hwatch : (watch processors s (.getNextEventLoop new)).Yields ((fs ++ []) ++ [])
          ⟨pool, false, s.started⟩ :=
        Traced.bind_yields.mpr ⟨_, pool, [], Traced.bind_yields.mpr
          ⟨fs, _, [], hpool, ⟨rfl, rfl⟩, rfl⟩, ⟨rfl, rfl⟩, rfl⟩
      obtain ⟨-, rfl⟩ := hyields.unique hwatch
      exact ⟨hsizes', hatMost', hmax ▸ hcapacity, fun _ => hnext⟩
  | setMaxThreads maxThreads =>
      obtain ⟨fs, pool, gs, hstep, hend, -⟩ := Traced.bind_yields.mp hyields
      obtain ⟨-, rfl⟩ := (Traced.pure_yields ..).mp hend
      obtain ⟨-, rfl⟩ := (Traced.pure_yields ..).mp hstep
      unfold ELThreadpool.setMaxThreads
      split
      · exact ⟨hsizes, hatMost, hcapacity, h.next⟩
      · next hge =>
        dsimp only
        split
        · -- a number beyond the capacity is cut to it
          exact ⟨hsizes, Nat.le_trans hatMost hcapacity, Nat.le_refl _, h.next⟩
        · next hle => exact ⟨hsizes, by dsimp only; omega, Nat.le_of_not_lt hle, h.next⟩
  | quit =>
      obtain ⟨fs, pool, gs, hstep, hend, -⟩ := Traced.bind_yields.mp hyields
      obtain ⟨-, rfl⟩ := (Traced.pure_yields ..).mp hend
      obtain ⟨fs', x, gs', hquit, hend', -⟩ := Traced.bind_yields.mp hstep
      obtain ⟨-, rfl⟩ := (Traced.pure_yields ..).mp hend'
      obtain ⟨-, rfl⟩ := hquit.unique (quit_yields hsizes)
      exact ⟨rfl, Nat.zero_le _, hcapacity, fun hq => Bool.noConfusion hq⟩

/-- In a pool that is in order every careful call is served. -/
theorem Inv.served (h : Inv processors s) (hinit : Initialised op)
    (hcareful : Careful processors s op) : Served processors s op := by
  refine ⟨?_, fun new hop => ?_⟩
  · have hyields : ∃ es t, (watch processors s op).Yields es t := by
      cases op with
      | start new =>
          obtain ⟨fs, hstart⟩ := start_yields (s := s) processors hinit
          exact ⟨fs, _, hstart⟩
      | getNextEventLoop new =>
          obtain ⟨-, fs, loop, pool, hpool, -⟩ := getNextEventLoop_yields h hinit hcareful
          exact ⟨_, _, Traced.bind_yields.mpr ⟨_, pool, [], Traced.bind_yields.mpr
            ⟨fs, _, [], hpool, ⟨rfl, rfl⟩, rfl⟩, ⟨rfl, rfl⟩, rfl⟩⟩
      | setMaxThreads maxThreads => exact ⟨_, _, rfl, rfl⟩
      | quit =>
          have hquit := quit_yields h.sizes
          exact ⟨_, _, Traced.bind_yields.mpr ⟨_, _, [], Traced.bind_yields.mpr
            ⟨_, _, [], hquit, ⟨rfl, rfl⟩, rfl⟩, ⟨rfl, rfl⟩, rfl⟩⟩
    obtain ⟨es, t, hyields⟩ := hyields
    have ht := h.step hinit hcareful hyields
    exact ⟨es, t, hyields, ht.sizes, ht.atMost⟩
  · subst hop
    obtain ⟨hnext, fs, loop, t, hpool, hmem, hnone, -⟩ := getNextEventLoop_yields h hinit hcareful
    exact ⟨hnext, fs, loop, t, hpool, hmem, hnone⟩

/-- A call that is served was careful. -/
theorem careful_of_served (hinit : Initialised op) (h : Served processors s op) :
    Careful processors s op := by
  cases op with
  | start new =>
      -- the new loop is counted against the maximum
      obtain ⟨es, t, hyields, hordered⟩ := h.ordered
      obtain ⟨fs, hstart⟩ := start_yields (s := s) processors hinit
      obtain ⟨-, rfl⟩ := hyields.unique hstart
      have hatMost := hordered.atMost
      simp only [List.length_append, List.length_singleton] at hatMost
      exact hatMost
  | getNextEventLoop new => exact careful_of_selects hinit (h.selects new rfl)
  | setMaxThreads => trivial
  | quit => trivial

end Step

end Ndsl.Proofs.ELThreadpool
