import Ndsl.Net.Semaphore

/-!
# `Ndsl.Proofs.Semaphore.Wakes`: no thread sleeps on what it could take

`give` and `take` signal one thread. The one that is woken may ask for more than there is and go
back to sleep, and one that asks for less stays asleep. `settled_of_careful` says that nobody sleeps
on what there is as long as each signal goes to a thread that can proceed, if there is one that
waits.

The invariant that carries this: where a thread waits for no more than there is, another one is
under way that can proceed, or that is about to signal (`Helps`).
-/

set_option autoImplicit false

namespace Ndsl.Proofs.Semaphore

open Ndsl.Lib Ndsl.Lib.Monitor
open Ndsl.Net Ndsl.Net.Semaphore

variable {τ : Type} [DecidableEq τ]

/-- When nobody holds the mutex and no thread that was woken has yet to test its condition, nobody
waits for as much as there is. -/
def Settled (s : State τ) : Prop :=
  s.mutex_ = none → (∀ t r, s.pc t ≠ .takeRelock r) →
    ∀ t r, s.pc t = .takeWait r → s.resources_ < r

/-- A signal goes to a thread that can proceed, if there is one that waits. -/
def Careful (s : State τ) (choice : Option τ) : Prop :=
  ∀ w, choice = some w → ∀ t r, s.pc t = .takeWait r → r ≤ s.resources_ →
    ∃ r', s.pc w = .takeWait r' ∧ r' ≤ s.resources_

/-! ### The invariant -/

/-- The places that need the mutex. -/
def inside : Semaphore.Pc → Prop
  | .takeTest _ | .takeSub _ | .takeSignal | .giveAdd _ | .giveSignal | .unlock => True
  | _ => False

/-- The thread can proceed, or it is about to signal. -/
def Helps (resources : Nat) : Semaphore.Pc → Prop
  | .takeTest r | .takeRelock r | .takeSub r => r ≤ resources
  | .takeSignal | .giveSignal => True
  | _ => False

/-- Where a thread could proceed but waits, another one is under way. -/
def Helped (resources : Nat) (pc : τ → Semaphore.Pc) : Prop :=
  ∀ t r, pc t = .takeWait r → r ≤ resources → ∃ u, Helps resources (pc u)

/-- Nobody waits for nothing. -/
def Positive (pc : τ → Semaphore.Pc) : Prop := ∀ t r, pc t = .takeWait r → 0 < r

/-- What every careful step keeps. -/
structure Inv (s : State τ) : Prop where
  held : Held inside s.pc s.mutex_
  positive : Positive s.pc
  helped : Helped s.resources_ s.pc

omit [DecidableEq τ] in
theorem Inv.settled {s : State τ} (h : Inv s) : Settled s := by
  intro hfree hretested t r hwaits
  by_contra hle
  obtain ⟨u, hu⟩ := h.helped t r hwaits (Nat.le_of_not_lt hle)
  -- the helper is inside, so it holds the mutex, or it was woken
  have hin : inside (s.pc u) := by
    cases hpc : s.pc u with
    | takeRelock r => exact absurd hpc (hretested u r)
    | takeTest r => trivial
    | takeSub r => trivial
    | takeSignal => trivial
    | giveSignal => trivial
    | outside | takeLock r | takeWait r | giveLock r | giveAdd r | unlock =>
        rw [hpc] at hu
        exact hu.elim
  exact absurd (hfree.symm.trans (h.held u hin)) (Option.some_ne_none u).symm

/-! ### What one thread changes -/

section Go
variable {pc pc' : τ → Semaphore.Pc} {t : τ} {k : Semaphore.Pc} {resources : Nat}
  {choice : Option τ}

/-- A thread that is woken does not wait any more. -/
theorem woken_woken {k k' : Semaphore.Pc} (h : woken k = some k') : woken k' = none := by
  cases k with
  | takeWait r =>
      obtain rfl := Option.some.inj h
      rfl
  | _ => exact absurd h.symm (Option.some_ne_none _)

omit [DecidableEq τ] in
/-- A place from which nobody can be woken is none where a thread waits. -/
theorem ne_takeWait (hk : woken k = none) (r : Nat) : k ≠ .takeWait r := by
  rintro rfl
  exact absurd hk (Option.some_ne_none _)

/-- A thread may go to sleep on something. -/
theorem Positive.wait (h : Positive pc) (hk : ∀ r, k = .takeWait r → 0 < r) :
    Positive (Function.update pc t k) := by
  intro u r hu
  by_cases heq : u = t
  · subst heq
    rw [Function.update_self] at hu
    exact hk r hu
  · rw [Function.update_of_ne heq] at hu
    exact h u r hu

/-- A thread may go on. -/
theorem Positive.go (h : Positive pc) (hk : woken k = none) : Positive (Function.update pc t k) :=
  h.wait fun r hr => absurd hr (ne_takeWait hk r)

/-- A thread goes to sleep on more than there is. If it helped before it helps still. -/
theorem Helped.wait (h : Helped resources pc) (hk : Helps resources (pc t) → Helps resources k)
    (hwait : ∀ r, k = .takeWait r → resources < r) :
    Helped resources (Function.update pc t k) := by
  intro u r hu hle
  have hne : u ≠ t := by
    rintro rfl
    rw [Function.update_self] at hu
    exact absurd hle (Nat.not_le.mpr (hwait r hu))
  rw [Function.update_of_ne hne] at hu
  obtain ⟨v, hv⟩ := h u r hu hle
  by_cases heq : v = t
  · subst heq
    exact ⟨v, by rw [Function.update_self]; exact hk hv⟩
  · exact ⟨v, by rwa [Function.update_of_ne heq]⟩

/-- A thread goes on and helps as before. -/
theorem Helped.go (h : Helped resources pc) (hk : Helps resources (pc t) → Helps resources k)
    (hwait : woken k = none) : Helped resources (Function.update pc t k) :=
  h.wait hk fun r hr => absurd hr (ne_takeWait hwait r)

/-- A thread that helps is enough. -/
theorem Helped.of_helps (hk : Helps resources k) : Helped resources (Function.update pc t k) :=
  fun _ _ _ _ => ⟨t, by rwa [Function.update_self]⟩

theorem Positive.signals (h : Positive pc) (hs : Signals woken pc choice pc') : Positive pc' := by
  cases hs with
  | nobody => exact h
  | wakes u k hu =>
      exact h.go (woken_woken hu)

end Go

/-- Behind a careful signal the thread that it woke helps the others. -/
theorem helped_signals {s : State τ} {t : τ} {choice : Option τ} {pc : τ → Semaphore.Pc}
    (hcareful : Careful s choice) (hs : Signals woken s.pc choice pc) (ht : woken (s.pc t) = none) :
    Helped s.resources_ (Function.update pc t .unlock) := by
  intro u r hu hle
  have hne : u ≠ t := by
    intro heq
    subst heq
    rw [Function.update_self] at hu
    exact Semaphore.Pc.noConfusion hu
  rw [Function.update_of_ne hne] at hu
  cases hs with
  | nobody hnobody =>
      have hnone := hnobody u
      rw [hu] at hnone
      exact absurd hnone (Option.some_ne_none _)
  | wakes w k hw =>
      have hwt : w ≠ t := by
        rintro rfl
        exact absurd (hw.symm.trans ht) (Option.some_ne_none k)
      have huw : u ≠ w := by
        rintro rfl
        rw [Function.update_self] at hu
        exact ne_takeWait (woken_woken hw) r hu
      rw [Function.update_of_ne huw] at hu
      -- some thread could proceed, so the one that was woken can
      obtain ⟨r', hw', hle'⟩ := hcareful w rfl u r hu hle
      rw [hw'] at hw
      obtain rfl := Option.some.inj hw
      refine ⟨w, ?_⟩
      rw [Function.update_of_ne hwt, Function.update_self]
      exact hle'

/-- Every careful step keeps the invariant. -/
theorem Inv.step {s s' : State τ} {choice : Option τ} (h : Inv s) (hcareful : Careful s choice)
    (hstep : Step s choice s') : Inv s' := by
  obtain ⟨hheld, hpositive, hhelped⟩ := h
  -- a thread that is woken up is not inside yet
  have hoff : ∀ k k', woken k = some k' → ¬ inside k' := by
    intro k k' hk
    cases k with
    | takeWait r =>
        obtain rfl := Option.some.inj hk
        exact not_false
    | _ => exact absurd hk.symm (Option.some_ne_none _)
  cases hstep with
  | take t r _ hpc | give t r _ hpc =>
      exact ⟨hheld.go False.elim, hpositive.go rfl, hhelped.go (by rw [hpc]; exact id) rfl⟩
  | takeLock t r hpc hfree | giveLock t r hpc hfree =>
      -- the lock is free, so no thread is inside, and the one that takes it is alone
      rw [hfree] at hheld
      exact ⟨hheld.lock, hpositive.go rfl, hhelped.go (by rw [hpc]; exact False.elim) rfl⟩
  | takeRelock t r hpc hfree =>
      rw [hfree] at hheld
      exact ⟨hheld.lock, hpositive.go rfl, hhelped.go (by rw [hpc]; exact id) rfl⟩
  | takeWait t r hpc hlt =>
      have hsleeps : ∀ r', Semaphore.Pc.takeWait r = .takeWait r' → s.resources_ < r' := by
        rintro r' heq
        exact Semaphore.Pc.takeWait.inj heq ▸ hlt
      refine ⟨hheld.unlock (by rw [hpc]; trivial) not_false, hpositive.wait fun r' heq => ?_,
        hhelped.wait (fun hhelps => ?_) hsleeps⟩
      · exact Nat.lt_of_le_of_lt (Nat.zero_le _) (hsleeps r' heq)
      · -- a thread that goes to sleep did not help
        rw [hpc] at hhelps
        exact absurd hhelps (Nat.not_le.mpr hlt)
  | takeSpurious t r hpc =>
      exact ⟨hheld.go False.elim, hpositive.go rfl, hhelped.go (by rw [hpc]; exact False.elim)
        rfl⟩
  | takeEnough t r hpc hle =>
      exact ⟨hheld.go fun _ => by rw [hpc]; trivial, hpositive.go rfl,
        hhelped.go (by rw [hpc]; exact id) rfl⟩
  | takeSub t r hpc | giveAdd t r hpc =>
      exact ⟨hheld.go fun _ => by rw [hpc]; trivial, hpositive.go rfl, .of_helps trivial⟩
  | signal t choice pc hpc _ hs =>
      -- the thread that signals is not one of those that sleep
      have ht : woken (s.pc t) = none := by
        rcases hpc with hpc | hpc <;> rw [hpc] <;> rfl
      refine ⟨?_, (hpositive.signals hs).go rfl, helped_signals (s := s) hcareful hs ht⟩
      refine (hheld.signals hoff hs).go fun _ => ?_
      rw [hs.same ht]
      rcases hpc with hpc | hpc <;> rw [hpc] <;> trivial
  | quiet t hpc hnone =>
      refine ⟨hheld.go fun _ => ?_, hpositive.go rfl, fun u r hu hle => ?_⟩
      · rcases hpc with hpc | hpc <;> rw [hpc] <;> trivial
      · -- there is nothing to take
        have hpos := (hpositive.go (t := t) (k := .unlock) rfl) u r hu
        exact absurd (Nat.lt_of_lt_of_le hpos hle) hnone
  | unlock t hpc =>
      exact ⟨hheld.unlock (by rw [hpc]; trivial) not_false, hpositive.go rfl,
        hhelped.go (by rw [hpc]; exact id) rfl⟩

/-- In a run whose signals are all careful, nobody sleeps on what there is. -/
theorem settled_of_careful {resources : Nat} {s : State τ}
    (hrun : Reaches Step Careful { resources_ := resources } s) : Settled s := by
  have hstart : Inv ({ resources_ := resources } : State τ) :=
    ⟨fun _ => False.elim, fun _ _ h => Semaphore.Pc.noConfusion h,
      fun _ _ h => Semaphore.Pc.noConfusion h⟩
  have hinv : Inv s := hrun.invariant (fun _ _ _ h hcareful hstep => h.step hcareful hstep) hstart
  exact hinv.settled

/-- A step wakes a thread that waits. -/
theorem waits_of_step {s s' : State τ} {w : τ} (hstep : Step s (some w) s') :
    ∃ r, s.pc w = .takeWait r := by
  cases hstep with
  | signal t choice pc _ _ hs =>
      cases hs with
      | wakes w k hw =>
          cases hpc : s.pc w with
          | takeWait r => exact ⟨r, rfl⟩
          | _ =>
              rw [hpc] at hw
              exact absurd hw.symm (Option.some_ne_none k)

/-- As long as all threads that wait ask for the same amount, every choice of
`pthread_cond_signal` is careful. -/
theorem settled_of_same_amount {resources amount : Nat} {s : State τ}
    (hrun : Reaches Step (fun s _ => ∀ t r, s.pc t = .takeWait r → r = amount)
      { resources_ := resources } s) : Settled s := by
  refine settled_of_careful (hrun.mono fun s choice s' hsame hstep => ?_)
  intro w hchoice t r hwaits hle
  subst hchoice
  obtain ⟨r', hw⟩ := waits_of_step hstep
  exact ⟨r', hw, by rw [hsame w r' hw, ← hsame t r hwaits]; exact hle⟩

/-! ### Two amounts -/

/-- Thread 0 waits for two and thread 1 for one. Thread 2 has given one and is about to signal. -/
def aboutToSignal : State (Fin 3) :=
  { resources_ := 1
    mutex_ := some 2
    pc := fun t => if t = 0 then .takeWait 2 else if t = 1 then .takeWait 1 else .giveSignal }

theorem reaches_aboutToSignal {ok : State (Fin 3) → Option (Fin 3) → Prop}
    (hok : ∀ s, ok s none) : Reaches Step ok { resources_ := 0 } aboutToSignal := by
  have hrun : ∃ s : State (Fin 3), Reaches Step ok { resources_ := 0 } s ∧ s.resources_ = 1 ∧
      s.mutex_ = some 2 ∧ s.pc = aboutToSignal.pc := by
    refine ⟨_, .snoc (.snoc (.snoc (.snoc (.snoc (.snoc (.snoc (.snoc (.snoc .refl
      (hok _) (.take 0 2 (by decide) rfl)) (hok _) (.takeLock 0 2 rfl rfl))
      (hok _) (.takeWait 0 2 rfl (by decide))) (hok _) (.take 1 1 (by decide) rfl))
      (hok _) (.takeLock 1 1 rfl rfl)) (hok _) (.takeWait 1 1 rfl (by decide)))
      (hok _) (.give 2 1 (by decide) rfl)) (hok _) (.giveLock 2 1 rfl rfl))
      (hok _) (.giveAdd 2 1 rfl), rfl, rfl, ?_⟩
    funext t
    obtain rfl | rfl | rfl : t = 0 ∨ t = 1 ∨ t = 2 := by omega
    all_goals rfl
  obtain ⟨⟨resources, mutex, pc⟩, hrun, rfl, rfl, rfl⟩ := hrun
  exact hrun

/-- Thread 1 is woken and takes what thread 2 has given. -/
theorem settled_of_careful_two : ∃ s : State (Fin 3),
    Reaches Step Careful { resources_ := 0 } s ∧ s.mutex_ = none ∧ s.resources_ = 0 ∧
      s.pc 0 = .takeWait 2 ∧ s.pc 1 = .outside ∧ Settled s := by
  have hnone : ∀ s : State (Fin 3), Careful s none :=
    fun _ w hw => absurd hw (Option.some_ne_none w).symm
  have hcareful : Careful aboutToSignal (some 1) := by
    intro w hw t r _ _
    obtain rfl := Option.some.inj hw
    exact ⟨1, rfl, Nat.le_refl 1⟩
  have hrun : ∃ s : State (Fin 3), Reaches Step Careful { resources_ := 0 } s ∧
      s.mutex_ = none ∧ s.resources_ = 0 ∧ s.pc 0 = .takeWait 2 ∧ s.pc 1 = .outside :=
    ⟨_, .snoc (.snoc (.snoc (.snoc (.snoc (.snoc (.snoc (reaches_aboutToSignal hnone)
      hcareful (.signal 2 (some 1) _ (.inr rfl) (by decide) (.wakes 1 _ rfl)))
      (hnone _) (.unlock 2 rfl)) (hnone _) (.takeRelock 1 1 rfl rfl))
      (hnone _) (.takeEnough 1 1 rfl (by decide))) (hnone _) (.takeSub 1 1 rfl))
      (hnone _) (.quiet 1 (.inl rfl) (by decide))) (hnone _) (.unlock 1 rfl),
      rfl, rfl, rfl, rfl⟩
  obtain ⟨s, hrun, hfree, hres, h0, h1⟩ := hrun
  exact ⟨s, hrun, hfree, hres, h0, h1, settled_of_careful hrun⟩

/-- Thread 0 is woken, finds one, and goes back to sleep. Thread 1 sleeps, and could take it. -/
theorem sleeps_on_enough : ∃ s : State (Fin 3),
    Reaches Step (fun _ _ => True) { resources_ := 0 } s ∧ s.resources_ = 1 ∧ ¬ Settled s := by
  have hrun : ∃ s : State (Fin 3), Reaches Step (fun _ _ => True) { resources_ := 0 } s ∧
      s.mutex_ = none ∧ s.resources_ = 1 ∧ s.pc 0 = .takeWait 2 ∧ s.pc 1 = .takeWait 1 ∧
      s.pc 2 = .outside :=
    ⟨_, .snoc (.snoc (.snoc (.snoc (reaches_aboutToSignal (fun _ => trivial))
      trivial (.signal 2 (some 0) _ (.inr rfl) (by decide) (.wakes 0 _ rfl)))
      trivial (.unlock 2 rfl)) trivial (.takeRelock 0 2 rfl rfl))
      trivial (.takeWait 0 2 rfl (by decide)), rfl, rfl, rfl, rfl, rfl⟩
  obtain ⟨s, hrun, hfree, hres, h0, h1, h2⟩ := hrun
  refine ⟨s, hrun, hres, fun hsettled => ?_⟩
  have hlt := hsettled hfree (fun t r hrelock => ?_) 1 1 h1
  · exact absurd hlt (Nat.not_lt.mpr (Nat.le_of_eq hres.symm))
  · obtain rfl | rfl | rfl : t = 0 ∨ t = 1 ∨ t = 2 := by omega
    · exact Semaphore.Pc.noConfusion (h0.symm.trans hrelock)
    · exact Semaphore.Pc.noConfusion (h1.symm.trans hrelock)
    · exact Semaphore.Pc.noConfusion (h2.symm.trans hrelock)

end Ndsl.Proofs.Semaphore
