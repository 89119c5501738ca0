import Mathlib.Data.Int.CardIntervalMod
import Ndsl.Proofs.ELThreadpool.Selects

/-!
# `Ndsl.Proofs.ELThreadpool.Balances`: the loops are given out in turn

`getNextEventLoop` takes its counter modulo the maximum and then adds one, and it opens a loop where
the counter stands behind the last one. So the pool grows up to the maximum, and from then on the
counter goes round.

`Turn` says what the pool looks like after so many selections: which loops there are, and where the
counter stands. `balances` follows from it by an induction over the selections.
-/

set_option autoImplicit false

namespace Ndsl.Proofs.ELThreadpool

open Ndsl.Lib
open Ndsl.Net Ndsl.Net.ELThreadpool

/-! ### Statements -/

/-- Selections one after the other, and the loops that they return. -/
def selections : List Creation → ELThreadpool → Traced Event (List (Option Nat) × ELThreadpool)
  | [], s => return ([], s)
  | new :: news, s => do
    let (loop, s) ← s.getNextEventLoop new
    let (loops, s) ← selections news s
    return (loop :: loops, s)

/-- A pool whose maximum is set, or is not, and that has not been started. -/
def configured (processors : Int) (settings : List Nat) : ELThreadpool :=
  settings.foldl (fun s maxThreads => (s.setMaxThreads processors maxThreads).2) {}

/-- A loop and its thread are created. -/
def Created (new : Creation) : Prop := new.init = S_OK ∧ new.run = S_OK

/-- What the selections have returned, and the pool that they leave. -/
structure Balanced (M : Nat) (returned : List (Option Nat)) (s : ELThreadpool) : Prop where
  /-- Each selection has returned the loop whose turn it was. -/
  inTurn : ∀ n < returned.length, ∃ loop,
    returned[n]? = some (some loop) ∧ s.loops_[n % M]? = some loop
  distinct : s.loops_.Nodup
  atMost : s.loops_.length ≤ M
  /-- No loop was returned more than once more often than another. -/
  balanced : M ≤ returned.length → ∀ a ∈ s.loops_, ∀ b ∈ s.loops_,
    returned.count (some a) ≤ returned.count (some b) + 1

/-! ### What the pool looks like -/

/-- The number of loops after so many selections. -/
def grown (M n : Nat) : Nat := min (max n 1) M

/-- The pool after `n` selections, when its first loop was `first`. -/
structure Turn (M first n : Nat) (s : ELThreadpool) : Prop where
  max_eq : s.MaxThreads_ = M
  loops : s.loops_ = List.range' first (grown M n)
  fresh : s.fresh = first + grown M n
  next : s.nextThread_ % M = n % M ∧ s.nextThread_ ≤ M

section Turn
variable {M first n : Nat} {s : ELThreadpool} {new : Creation}

/-- A loop that is there. -/
theorem getNextEventLoop_of_lt (hmax : s.MaxThreads_ ≠ 0)
    (hlt : s.nextThread_ % s.MaxThreads_ < s.loops_.length) :
    (s.getNextEventLoop new).Yields [] (s.loops_[s.nextThread_ % s.MaxThreads_]?,
      { s with nextThread_ := (s.nextThread_ % s.MaxThreads_ + 1) % 2 ^ 32 }) := by
  unfold getNextEventLoop
  rw [if_neg hmax]
  dsimp only
  rw [if_pos hlt]
  exact ⟨rfl, rfl⟩

/-- The next loop is made. -/
theorem getNextEventLoop_of_eq (hmax : s.MaxThreads_ ≠ 0) (hcreated : Created new)
    (heq : s.nextThread_ % s.MaxThreads_ = s.loops_.length) :
    (s.getNextEventLoop new).Yields [] (some s.fresh,
      { s.pushBack new with
        nextThread_ := (s.nextThread_ % s.MaxThreads_ + 1) % 2 ^ 32
        fresh := s.fresh + 1 }) := by
  obtain ⟨hinit, hrun⟩ := hcreated
  have hlast : (s.loops_ ++ [s.fresh])[s.nextThread_ % s.MaxThreads_]? = some s.fresh := by
    rw [heq, List.getElem?_concat_length]
  unfold getNextEventLoop
  rw [if_neg hmax]
  dsimp only
  rw [if_neg (Nat.not_lt.mpr (Nat.le_of_eq heq.symm)), if_pos heq, if_neg (not_not_intro hinit),
    if_neg (not_not_intro hrun)]
  simp only [pushBack, hlast]
  exact ⟨rfl, rfl⟩

theorem getElem?_range' {i k : Nat} (h : i < k) :
    (List.range' first k)[i]? = some (first + i) := by
  rw [List.getElem?_range' h, Nat.one_mul]

/-- One selection returns the loop whose turn it is, and opens at most this one. -/
theorem Turn.select (h : Turn M first n s) (hM : 1 ≤ M) (hlt : M < 2 ^ 32)
    (hcreated : Created new) : ∃ t, (s.getNextEventLoop new).Yields [] (some (first + n % M), t) ∧
      Turn M first (n + 1) t ∧
      (t.loops_ = s.loops_ ∨ t.loops_ = s.loops_ ++ [first + n % M]) := by
  obtain ⟨hmaximum, hloops, hfresh, hnext, -⟩ := h
  have hmax : s.MaxThreads_ ≠ 0 := by omega
  have hmod : n % M < M := Nat.mod_lt n hM
  have hcursor : s.nextThread_ % s.MaxThreads_ = n % M := by rw [hmaximum, hnext]
  have hlength : s.loops_.length = grown M n := by rw [hloops, List.length_range']
  -- the counter stands behind the loop that was returned, at most at the maximum
  have hstep : (n % M + 1) % 2 ^ 32 = n % M + 1 := Nat.mod_eq_of_lt (by omega)
  have hturn : (n % M + 1) % M = (n + 1) % M ∧ n % M + 1 ≤ M :=
    ⟨by rw [Nat.add_mod, Nat.mod_mod, ← Nat.add_mod], hmod⟩
  by_cases hthere : n % M < grown M n
  · -- the pool has this loop, so it does not grow
    have hsame : grown M (n + 1) = grown M n := by
      unfold grown at hthere ⊢
      rcases Nat.lt_or_ge n M with hn | hn
      · rw [Nat.mod_eq_of_lt hn] at hthere
        omega
      · omega
    have hselect := @getNextEventLoop_of_lt s new hmax (by rwa [hcursor, hlength])
    rw [hcursor, hloops, getElem?_range' hthere, hstep] at hselect
    exact ⟨_, hselect, ⟨hmaximum, by rw [hsame], by rw [hsame]; exact hfresh, hturn⟩,
      .inl hloops.symm⟩
  · -- the counter is at the end of the pool, which is not full
    have hn : n < M := by
      unfold grown at hthere
      rcases Nat.lt_or_ge n M with hn | hn
      · exact hn
      · omega
    rw [Nat.mod_eq_of_lt hn] at hthere
    have hgrown : grown M n = n := by
      unfold grown at hthere ⊢
      omega
    have hmore : grown M (n + 1) = n + 1 := by
      unfold grown
      omega
    have hselect := getNextEventLoop_of_eq hmax hcreated
      (by rw [hcursor, Nat.mod_eq_of_lt hn, hlength, hgrown])
    rw [hcursor, hfresh, hgrown, hstep] at hselect
    rw [Nat.mod_eq_of_lt hn] at hselect hturn ⊢
    refine ⟨_, hselect, ⟨hmaximum, ?_, ?_, hturn⟩, .inr ?_⟩
    · show s.loops_ ++ [s.fresh] = _
      rw [hloops, hfresh, hgrown, hmore, List.range'_concat, Nat.one_mul]
    · rw [hmore, Nat.add_assoc]
    · show s.loops_ ++ [s.fresh] = _
      rw [hfresh, hgrown]

/-- So many selections return the loops in turn. -/
theorem Turn.selections (hM : 1 ≤ M) (hlt : M < 2 ^ 32) : ∀ {news : List Creation} {n : Nat}
    {s : ELThreadpool}, Turn M first n s → (∀ new ∈ news, Created new) →
    ∃ t, (selections news s).Yields []
        ((List.range' n news.length).map fun i => some (first + i % M), t) ∧
      Turn M first (n + news.length) t := by
  intro news
  induction news with
  | nil => exact fun h _ => ⟨_, ⟨rfl, rfl⟩, h⟩
  | cons new news ih =>
      intro n s h hnews
      obtain ⟨hnew, hrest⟩ := List.forall_mem_cons.mp hnews
      obtain ⟨t, hselect, hturn, -⟩ := h.select hM hlt hnew
      obtain ⟨u, hothers, hend⟩ := ih hturn hrest
      refine ⟨u, ?_, ?_⟩
      · rw [List.length_cons, List.range'_succ, List.map_cons]
        exact Traced.bind_yields.mpr ⟨[], _, [], hselect, Traced.bind_yields.mpr
          ⟨[], _, [], hothers, ⟨rfl, rfl⟩, rfl⟩, rfl⟩
      · rw [List.length_cons, Nat.add_comm news.length, ← Nat.add_assoc]
        exact hend

/-- How often a loop was returned. -/
theorem count_returned (first N : Nat) {i : Nat} (hM : 1 ≤ M) (hi : i < M) :
    ((List.range' 0 N).map fun k => some (first + k % M)).count (some (first + i)) =
      N / M + if i < N % M then 1 else 0 := by
  have hcount : ((List.range' 0 N).map fun k => some (first + k % M)).count (some (first + i)) =
      N.count (· ≡ i [MOD M]) := by
    induction N with
    | zero => rfl
    | succ N ih =>
        have hlast : (some (first + N % M) = some (first + i)) = (N ≡ i [MOD M]) := by
          rw [Option.some.injEq, Nat.add_left_cancel_iff, Nat.ModEq, Nat.mod_eq_of_lt hi]
        rw [List.range'_concat, Nat.one_mul, Nat.zero_add, List.map_append, List.count_append, ih,
          Nat.count_succ, List.map_singleton, List.count_singleton]
        simp only [beq_iff_eq, hlast]
  rw [hcount, Nat.count_modEq_card _ hM, Nat.mod_eq_of_lt hi]

/-- The selections behind `start` keep the loops in balance. -/
theorem Turn.balanced (hM : 1 ≤ M) {N : Nat} (h : Turn M first N s) :
    Balanced M ((List.range' 0 N).map fun k => some (first + k % M)) s := by
  have hloops := h.loops
  have hlength : ((List.range' 0 N).map fun k => some (first + k % M)).length = N := by
    rw [List.length_map, List.length_range']
  refine ⟨fun n hn => ?_, ?_, ?_, fun _ a ha b hb => ?_⟩
  · rw [hlength] at hn
    -- a selection that was made has opened its loop, if it was not there
    have hthere : n % M < grown M N := by
      have hmod := Nat.mod_lt n hM
      have hle := Nat.mod_le n M
      unfold grown
      omega
    refine ⟨first + n % M, ?_, ?_⟩
    · rw [List.getElem?_map, List.getElem?_range' hn, Nat.one_mul, Nat.zero_add, Option.map_some]
    · rw [hloops, getElem?_range' hthere]
  · rw [hloops]
    exact List.nodup_range'
  · rw [hloops, List.length_range']
    exact Nat.min_le_right _ _
  · -- two counts are a quotient, or one more
    have hindex : ∀ a ∈ s.loops_, ∃ i < M, a = first + i := by
      intro a ha
      rw [hloops, List.mem_range'_1] at ha
      have hle : grown M N ≤ M := Nat.min_le_right _ _
      exact ⟨a - first, by omega, by omega⟩
    obtain ⟨i, hi, rfl⟩ := hindex a ha
    obtain ⟨j, hj, rfl⟩ := hindex b hb
    rw [count_returned first N hM hi, count_returned first N hM hj]
    split <;> split <;> omega

end Turn

/-! ### A pool that is started -/

section Start
variable {processors : Int} {settings : List Nat} {first new : Creation} {news : List Creation}

/-- A pool that has not been started has no loops, and its counter is at zero. -/
theorem configured_eq (processors : Int) (settings : List Nat) :
    ∃ M < 2 ^ 32, configured processors settings = { MaxThreads_ := M } := by
  have hstep : ∀ M < 2 ^ 32, ∀ maxThreads, ∃ M' < 2 ^ 32,
      (({ MaxThreads_ := M } : ELThreadpool).setMaxThreads processors maxThreads).2 =
        { MaxThreads_ := M' } := by
    intro M hM maxThreads
    have hcapacity := toUnsigned_lt (ELThreadpool.capacity processors)
    have hnone : ¬ maxThreads < ({ MaxThreads_ := M } : ELThreadpool).loopThreads_.length :=
      Nat.not_lt_zero maxThreads
    unfold ELThreadpool.setMaxThreads
    rw [if_neg hnone]
    dsimp only
    split
    · exact ⟨_, hcapacity, rfl⟩
    · next hle => exact ⟨maxThreads, Nat.lt_of_le_of_lt (Nat.le_of_not_lt hle) hcapacity, rfl⟩
  unfold configured
  suffices h : ∀ M < 2 ^ 32, ∃ M' < 2 ^ 32, settings.foldl
      (fun (s : ELThreadpool) maxThreads => (s.setMaxThreads processors maxThreads).2)
      { MaxThreads_ := M } = { MaxThreads_ := M' } from h 0 (by decide)
  induction settings with
  | nil => exact fun M hM => ⟨M, hM, rfl⟩
  | cons maxThreads settings ih =>
      intro M hM
      obtain ⟨M', hM', hset⟩ := hstep M hM maxThreads
      rw [List.foldl_cons, hset]
      exact ih M' hM'

/-- `start` opens the first loop, and sets the maximum if it was not set. -/
theorem start_turn {M : Nat} (hM : 1 ≤ maximum processors { MaxThreads_ := M })
    (hcreated : Created first) : ∃ s,
    (({ MaxThreads_ := M } : ELThreadpool).start processors first).Yields [] (S_OK, s) ∧
      Turn (maximum processors { MaxThreads_ := M }) 0 0 s := by
  obtain ⟨hinit, hrun⟩ := hcreated
  have hset : (if M = 0 then
      ({ MaxThreads_ := toUnsigned (ELThreadpool.capacity processors) } : ELThreadpool)
      else { MaxThreads_ := M }) = { MaxThreads_ := maximum processors { MaxThreads_ := M } } := by
    unfold maximum
    split <;> rfl
  have hone : grown (maximum processors { MaxThreads_ := M }) 0 = 1 := by
    unfold grown
    omega
  unfold ELThreadpool.start
  dsimp only
  rw [hset, if_neg (not_not_intro hinit), if_neg (not_not_intro hrun)]
  refine ⟨_, ⟨rfl, rfl⟩, rfl, ?_, ?_, rfl, Nat.zero_le _⟩
  · rw [hone]
    rfl
  · rw [hone]

/-- A pool is started, and then loops are selected. The selections return the loops in turn, and the
next one opens one loop at most. -/
theorem balances (hM : 1 ≤ maximum processors (configured processors settings))
    (hfirst : Created first) (hnews : ∀ new ∈ news, Created new) (hnew : Created new) :
    ∃ s returned t loop u,
      ((configured processors settings).start processors first).Yields [] (S_OK, s) ∧
      (selections news s).Yields [] (returned, t) ∧ returned.length = news.length ∧
      Balanced (maximum processors (configured processors settings)) returned t ∧
      (t.getNextEventLoop new).Yields [] (some loop, u) ∧
      (u.loops_ = t.loops_ ∨ u.loops_ = t.loops_ ++ [loop]) := by
  obtain ⟨M, hlt, hconfigured⟩ := configured_eq processors settings
  rw [hconfigured] at hM ⊢
  have hbound : maximum processors { MaxThreads_ := M } < 2 ^ 32 := by
    unfold maximum
    split
    · exact toUnsigned_lt _
    · exact hlt
  obtain ⟨s, hstart, hturn⟩ := start_turn hM hfirst
  obtain ⟨t, hselections, hend⟩ := hturn.selections hM hbound hnews
  rw [Nat.zero_add] at hend
  obtain ⟨u, hselect, -, hgrows⟩ := hend.select hM hbound hnew
  refine ⟨s, _, t, _, u, hstart, hselections, ?_, hend.balanced hM, hselect, hgrows⟩
  rw [List.length_map, List.length_range']

/-- Three selections from a pool of two loops. -/
theorem balances_three : ∃ s returned t,
    ((configured 4 [2]).start 4 {}).Yields [] (S_OK, s) ∧
    (selections [{}, {}, {}] s).Yields [] (returned, t) ∧ returned.length = 3 ∧
    Balanced 2 returned t := by
  have hmaximum : maximum 4 (configured 4 [2]) = 2 := rfl
  obtain ⟨s, returned, t, loop, u, hstart, hselections, hlength, hbalanced, -⟩ :=
    @balances 4 [2] {} {} [{}, {}, {}] (by decide) ⟨rfl, rfl⟩ (fun new hnew => by
        obtain rfl : new = {} := by simpa using hnew
        exact ⟨rfl, rfl⟩) ⟨rfl, rfl⟩
  rw [hmaximum] at hbalanced
  exact ⟨s, returned, t, hstart, hselections, hlength, hbalanced⟩

end Start

end Ndsl.Proofs.ELThreadpool
