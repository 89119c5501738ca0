import Mathlib.Algebra.BigOperators.Group.Finset.Piecewise
import Mathlib.Logic.Function.Basic
import Mathlib.Logic.Relation

/-!
# `Ndsl.Lib.Monitor`: threads with a mutex and a condition variable

A thread is where it stands in its code: a state has a `pc : τ → κ` for the threads `τ`. A step
moves one of them, and `pthread_cond_signal` another one.

`Reaches` is for the runs whose steps all meet a condition. `Signals` is the choice that
`pthread_cond_signal` has, and `Held` says that only the holder of the mutex is at a place where the
mutex is needed.
-/

set_option autoImplicit false

namespace Ndsl.Lib

/-! ### Guarded runs -/

section Reaches
variable {σ ι : Type} (step : σ → ι → σ → Prop) (ok : σ → ι → Prop)

/-- Steps that each meet `ok` lead from `s` to `t`. -/
def Reaches : σ → σ → Prop :=
  Relation.ReflTransGen fun s t => ∃ i, ok s i ∧ step s i t

variable {step ok}

/-- What a step that meets the guard preserves holds of every state that is reached. -/
theorem Reaches.invariant {P : σ → Prop} (hstep : ∀ s i t, P s → ok s i → step s i t → P t)
    {s t : σ} (hs : P s) (h : Reaches step ok s t) : P t := by
  induction h with
  | refl => exact hs
  | tail _ hlast ih =>
      obtain ⟨i, hok, hi⟩ := hlast
      exact hstep _ i _ ih hok hi

/-- One more step. -/
theorem Reaches.snoc {s t u : σ} {i : ι} (h : Reaches step ok s t) (hok : ok t i)
    (hi : step t i u) : Reaches step ok s u :=
  Relation.ReflTransGen.tail h ⟨i, hok, hi⟩

/-- A condition may be replaced by one that follows for the steps that are taken. -/
theorem Reaches.mono {ok' : σ → ι → Prop} (himp : ∀ s i t, ok s i → step s i t → ok' s i)
    {s t : σ} (h : Reaches step ok s t) : Reaches step ok' s t := by
  induction h with
  | refl => exact .refl
  | tail _ hlast ih =>
      obtain ⟨i, hok, hi⟩ := hlast
      exact ih.snoc (himp _ i _ hok hi) hi

end Reaches

namespace Monitor

variable {τ κ : Type} [DecidableEq τ]

/-- The thread that has moved, or another one. -/
theorem eq_or_of_update {pc : τ → κ} {t u : τ} {k x : κ} (h : Function.update pc t k u = x) :
    (u = t ∧ k = x) ∨ (u ≠ t ∧ pc u = x) := by
  by_cases heq : u = t
  · subst heq
    rw [Function.update_self] at h
    exact .inl ⟨rfl, h⟩
  · rw [Function.update_of_ne heq] at h
    exact .inr ⟨heq, h⟩

/-! ### The condition variable -/

/-- `pthread_cond_signal`: it wakes the thread `choice`, one of those that wait, and `none` when
nobody waits. `woken` says where a thread that waits comes to stand. -/
inductive Signals (woken : κ → Option κ) (pc : τ → κ) : Option τ → (τ → κ) → Prop
  | nobody : (∀ t, woken (pc t) = none) → Signals woken pc none pc
  | wakes (t : τ) (k : κ) : woken (pc t) = some k →
      Signals woken pc (some t) (Function.update pc t k)

/-- A thread that does not wait stays where it is. -/
theorem Signals.same {woken : κ → Option κ} {pc pc' : τ → κ} {choice : Option τ} {t : τ}
    (h : Signals woken pc choice pc') (ht : woken (pc t) = none) : pc' t = pc t := by
  cases h with
  | nobody => rfl
  | wakes u k hu =>
      have hne : t ≠ u := by
        rintro rfl
        exact absurd (hu.symm.trans ht) (Option.some_ne_none k)
      rw [Function.update_of_ne hne]

/-! ### The mutex -/

/-- Only the holder of the mutex is inside. -/
def Held (inside : κ → Prop) (pc : τ → κ) (mutex : Option τ) : Prop :=
  ∀ t, inside (pc t) → mutex = some t

variable {inside : κ → Prop} {woken : κ → Option κ} {pc pc' : τ → κ} {mutex : Option τ} {t : τ}
  {k : κ}

/-- A thread takes the free mutex. -/
theorem Held.lock (h : Held inside pc none) :
    Held inside (Function.update pc t k) (some t) := by
  intro u hu
  by_cases heq : u = t
  · rw [heq]
  · rw [Function.update_of_ne heq] at hu
    exact absurd (h u hu) (Option.some_ne_none u).symm

/-- A thread that is inside goes on there, or one that is outside stays outside. -/
theorem Held.go (h : Held inside pc mutex) (hk : inside k → inside (pc t)) :
    Held inside (Function.update pc t k) mutex := by
  intro u hu
  by_cases heq : u = t
  · subst heq
    rw [Function.update_self] at hu
    exact h u (hk hu)
  · rw [Function.update_of_ne heq] at hu
    exact h u hu

/-- The holder of the mutex gives it back. -/
theorem Held.unlock (h : Held inside pc mutex) (ht : inside (pc t)) (hk : ¬ inside k) :
    Held inside (Function.update pc t k) none := by
  intro u hu
  by_cases heq : u = t
  · subst heq
    rw [Function.update_self] at hu
    exact absurd hu hk
  · -- nobody else was inside
    rw [Function.update_of_ne heq] at hu
    exact absurd (Option.some.inj ((h u hu).symm.trans (h t ht))) heq

/-- A thread that is woken stays outside. -/
theorem Held.signals {choice : Option τ} (h : Held inside pc mutex)
    (hwoken : ∀ k k', woken k = some k' → ¬ inside k') (hs : Signals woken pc choice pc') :
    Held inside pc' mutex := by
  cases hs with
  | nobody => exact h
  | wakes u k hu => exact h.go fun hk => absurd hk (hwoken _ k hu)

/-! ### Histories -/

section Share
variable {α : Type} {u : τ} {a : α}

/-- What the thread `t` has in a history of who did what. -/
def share (t : τ) (l : List (τ × α)) : List α :=
  l.filterMap fun x => if x.1 = t then some x.2 else none

theorem share_append (l l' : List (τ × α)) : share t (l ++ l') = share t l ++ share t l' :=
  List.filterMap_append

/-- What a thread does itself. -/
theorem share_map (as : List α) : share t (as.map (t, ·)) = as := by
  induction as with
  | nil => rfl
  | cons a as ih =>
      have hcons : share t ((t, a) :: as.map (t, ·)) = a :: share t (as.map (t, ·)) := by
        simp [share]
      rw [List.map_cons, hcons, ih]

/-- What another thread does. -/
theorem share_map_of_ne (h : u ≠ t) (as : List α) : share t (as.map (u, ·)) = [] := by
  induction as with
  | nil => rfl
  | cons a as ih =>
      have hcons : share t ((u, a) :: as.map (u, ·)) = share t (as.map (u, ·)) := by
        simp [share, h]
      rw [List.map_cons, hcons, ih]

/-- A history is the shares of its threads together. -/
theorem count_map_snd [DecidableEq α] {l : List (Nat × α)} {n : Nat} (h : ∀ x ∈ l, x.1 < n) :
    (l.map Prod.snd).count a = ∑ t ∈ Finset.range n, (share t l).count a := by
  induction l with
  | nil => simp [share]
  | cons x l ih =>
      have hx : x.1 ∈ Finset.range n := Finset.mem_range.mpr (h x List.mem_cons_self)
      have hshare : ∀ t, (share t (x :: l)).count a =
          (if x.1 = t then if x.2 = a then 1 else 0 else 0) + (share t l).count a := by
        intro t
        by_cases ht : x.1 = t <;> by_cases ha : x.2 = a <;>
          simp [share, ht, ha, Nat.add_comm]
      simp only [hshare, Finset.sum_add_distrib]
      rw [Finset.sum_ite_eq, if_pos hx, ← ih fun y hy => h y (List.mem_cons_of_mem x hy),
        List.map_cons, List.count_cons, Nat.add_comm]
      simp only [beq_iff_eq]

end Share

end Monitor

end Ndsl.Lib
