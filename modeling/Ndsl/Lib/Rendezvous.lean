import Mathlib.Algebra.BigOperators.Group.Finset.Basic
import Mathlib.Algebra.Order.BigOperators.Group.Finset
import Mathlib.Data.Fintype.Basic
import Mathlib.Logic.Function.Basic

/-!
# `Ndsl.Lib.Rendezvous`: opening channels that have two ends

Parties open the ends of channels, each one in an order of its own. The open of an end waits until
somebody has opened the other end of the channel, or waits with it. An open that fails returns at
any time, with nothing opened; until then it may count as one that waits. A schedule says whose turn
it is.

* `length_run_le`: a schedule has so many turns at most as there are opens to begin and to end.
* `progress`: when each end has its other end in the order of some party, and the channels have
  ranks that go up in every order, nobody waits for ever. So every schedule can be continued until
  all opens have returned (`exists_finished`).
* `opened_eq_nil`: when no two parties can begin with the two ends of one channel, nobody ever opens
  anything.
-/

set_option autoImplicit false

namespace Ndsl.Lib.Rendezvous

/-- The ends of a channel. -/
inductive End
  | read
  | write
  deriving Repr, DecidableEq

/-- The other end. -/
def End.other : End → End
  | .read => .write
  | .write => .read

/-- An open: the end of a channel, and whether it fails. -/
structure Attempt (ι : Type) where
  point : ι × End
  fails : Bool := false
  deriving Repr, DecidableEq

/-- A party: the ends that it has opened, and the opens that have not returned. -/
structure Party (ι : Type) where
  opened : List (ι × End) := []
  rest : List (Attempt ι)
  /-- It waits with the first one of them. -/
  begun : Bool := false
  deriving Repr, DecidableEq

variable {π ι : Type}

/-- The ends that opens are for which do not fail. -/
def points (xs : List (Attempt ι)) : List (ι × End) :=
  xs.filterMap fun x => if x.fails then none else some x.point

/-- The ends of the opens up to the first one that does not fail. -/
def firsts : List (Attempt ι) → List (ι × End)
  | [] => []
  | x :: xs => x.point :: if x.fails then firsts xs else []

/-- The ends that a party has opened or waits with. -/
def Party.ends (a : Party ι) : List (ι × End) :=
  a.opened ++ if a.begun then (a.rest.take 1).map Attempt.point else []

/-- The other end of a channel. -/
def opposite (x : ι × End) : ι × End := (x.1, x.2.other)

/-- Somebody has opened the end, or waits with it. -/
def Present (s : π → Party ι) (x : ι × End) : Prop := ∃ p, x ∈ (s p).ends

instance [Fintype π] [DecidableEq ι] (s : π → Party ι) (x : ι × End) : Decidable (Present s x) :=
  inferInstanceAs (Decidable (∃ p, x ∈ (s p).ends))

/-- The parties at the start. -/
def start (orders : π → List (Attempt ι)) : π → Party ι := fun p => { rest := orders p }

/-- All opens have returned. -/
def Finished (s : π → Party ι) : Prop := ∀ p, (s p).rest = []

@[simp] theorem points_cons_of_fails {x : Attempt ι} (xs : List (Attempt ι)) (h : x.fails = true) :
    points (x :: xs) = points xs := by
  rw [points, List.filterMap_cons_none (by rw [if_pos h]), points]

@[simp] theorem points_cons_of_opens {x : Attempt ι} (xs : List (Attempt ι))
    (h : x.fails = false) : points (x :: xs) = x.point :: points xs := by
  rw [points, List.filterMap_cons_some (b := x.point) (by rw [h]; rfl), points]

theorem firsts_subset_of_fails {x : Attempt ι} (xs : List (Attempt ι)) (h : x.fails = true) :
    firsts xs ⊆ firsts (x :: xs) := by
  rw [firsts, if_pos h]
  exact List.subset_cons_self _ _

/-- A party that has opened nothing waits with one of its first ends. -/
theorem ends_subset_firsts {a : Party ι} (h : a.opened = []) : a.ends ⊆ firsts a.rest := by
  intro y hy
  rw [Party.ends, h, List.nil_append] at hy
  split at hy
  next =>
    cases hrest : a.rest with
    | nil =>
        rw [hrest] at hy
        exact absurd hy List.not_mem_nil
    | cons x rest =>
        rw [hrest] at hy
        obtain rfl := List.mem_singleton.mp hy
        rw [firsts]
        exact List.mem_cons_self
  next => exact absurd hy List.not_mem_nil

variable [Fintype π] [DecidableEq π] [DecidableEq ι]

/-- A turn of a party: it begins its next open, or its open returns. One that fails may do so at any
time. -/
def step (s : π → Party ι) (p : π) : Option (π → Party ι) :=
  match (s p).rest with
  | [] => none
  | x :: rest =>
    if (s p).begun = false then some (Function.update s p { s p with begun := true })
    else if x.fails then some (Function.update s p { opened := (s p).opened, rest := rest })
    else if Present s (opposite x.point) then
      some (Function.update s p { opened := (s p).opened ++ [x.point], rest := rest })
    else none

/-- The turns of a schedule. -/
def run (schedule : List π) (s : π → Party ι) : Option (π → Party ι) := schedule.foldlM step s

/-! ### One turn -/

section
variable {s t : π → Party ι} {p : π}

/-- What a turn of a party does. -/
inductive Turn (s : π → Party ι) (p : π) : (π → Party ι) → Prop
  | begins (x : Attempt ι) (rest : List (Attempt ι)) (hrest : (s p).rest = x :: rest)
      (hbegun : (s p).begun = false) : Turn s p (Function.update s p { s p with begun := true })
  | fails (x : Attempt ι) (rest : List (Attempt ι)) (hrest : (s p).rest = x :: rest)
      (hbegun : (s p).begun = true) (hfails : x.fails = true) :
      Turn s p (Function.update s p { opened := (s p).opened, rest := rest })
  | opens (x : Attempt ι) (rest : List (Attempt ι)) (hrest : (s p).rest = x :: rest)
      (hbegun : (s p).begun = true) (hfails : x.fails = false)
      (hpresent : Present s (opposite x.point)) :
      Turn s p (Function.update s p { opened := (s p).opened ++ [x.point], rest := rest })

theorem turn_of_step (h : step s p = some t) : Turn s p t := by
  unfold step at h
  split at h
  next => exact absurd h.symm (Option.some_ne_none t)
  next x rest hrest =>
    split at h
    next hbegun =>
      obtain rfl := Option.some.inj h
      exact .begins x rest hrest hbegun
    next hbegun =>
      have hbegun := eq_true_of_ne_false hbegun
      split at h
      next hfails =>
        obtain rfl := Option.some.inj h
        exact .fails x rest hrest hbegun hfails
      next hfails =>
        split at h
        next hpresent =>
          obtain rfl := Option.some.inj h
          exact .opens x rest hrest hbegun (eq_false_of_ne_true hfails) hpresent
        next => exact absurd h.symm (Option.some_ne_none t)

/-- A party that cannot take a turn waits for an end that is not there. -/
theorem waits_of_step {x : Attempt ι} {rest : List (Attempt ι)} (h : step s p = none)
    (hrest : (s p).rest = x :: rest) :
    (s p).begun = true ∧ x.fails = false ∧ ¬ Present s (opposite x.point) := by
  unfold step at h
  simp only [hrest] at h
  split at h
  next => exact absurd h (Option.some_ne_none _)
  next hbegun =>
    split at h
    next => exact absurd h (Option.some_ne_none _)
    next hfails =>
      split at h
      next => exact absurd h (Option.some_ne_none _)
      next hpresent => exact ⟨eq_true_of_ne_false hbegun, eq_false_of_ne_true hfails, hpresent⟩

/-- The order of a party stays, but for the opens that fail. -/
theorem order_step (h : step s p = some t) (q : π) :
    (t q).opened ++ points (t q).rest = (s q).opened ++ points (s q).rest := by
  by_cases hq : q = p
  · subst hq
    cases turn_of_step h with
    | begins x rest hrest hbegun => rw [Function.update_self]
    | fails x rest hrest hbegun hfails =>
        rw [Function.update_self, hrest, points_cons_of_fails rest hfails]
    | opens x rest hrest hbegun hfails hpresent =>
        rw [Function.update_self, hrest, points_cons_of_opens rest hfails, List.append_assoc]
        rfl
  · cases turn_of_step h with
    | begins => rw [Function.update_of_ne hq]
    | fails => rw [Function.update_of_ne hq]
    | opens => rw [Function.update_of_ne hq]

/-! ### How long it takes -/

/-- The turns that a party still has. -/
def Party.turns (a : Party ι) : Nat := 2 * a.rest.length - a.begun.toNat

/-- The turns that there still are. -/
def work (s : π → Party ι) : Nat := ∑ p, (s p).turns

theorem work_step (h : step s p = some t) : work t + 1 = work s := by
  have hupdate : ∀ a : Party ι, a.turns + 1 = (s p).turns →
      work (Function.update s p a) + 1 = work s := by
    intro a ha
    have hsum : ∀ u : π → Party ι, work u = (u p).turns + ∑ q ∈ Finset.univ.erase p, (u q).turns :=
      fun u => (Finset.add_sum_erase _ _ (Finset.mem_univ p)).symm
    have hothers : ∑ q ∈ Finset.univ.erase p, (Function.update s p a q).turns =
        ∑ q ∈ Finset.univ.erase p, (s q).turns :=
      Finset.sum_congr rfl fun q hq => by rw [Function.update_of_ne (Finset.ne_of_mem_erase hq)]
    rw [hsum s, hsum (Function.update s p a), hothers, Function.update_self]
    omega
  cases turn_of_step h with
  | begins x rest hrest hbegun =>
      refine hupdate _ ?_
      simp only [Party.turns, hrest, hbegun, List.length_cons, Bool.toNat_true, Bool.toNat_false]
      omega
  | fails x rest hrest hbegun hfails =>
      refine hupdate _ ?_
      simp only [Party.turns, hrest, hbegun, List.length_cons, Bool.toNat_true, Bool.toNat_false]
      omega
  | opens x rest hrest hbegun hfails hpresent =>
      refine hupdate _ ?_
      simp only [Party.turns, hrest, hbegun, List.length_cons, Bool.toNat_true, Bool.toNat_false]
      omega

end

/-! ### Runs -/

section
variable {orders : π → List (Attempt ι)} {s t : π → Party ι} {schedule : List π}

/-- What holds at the start and is kept by every turn holds in every run. -/
theorem run_induction {P : (π → Party ι) → Prop} (hstep : ∀ s p t, P s → step s p = some t → P t)
    (hs : P s) (h : run schedule s = some t) : P t := by
  induction schedule generalizing s with
  | nil =>
      obtain rfl := Option.some.inj h
      exact hs
  | cons p schedule ih =>
      obtain ⟨u, hu, hrest⟩ := Option.bind_eq_some_iff.mp h
      exact ih (hstep s p u hs hu) hrest

theorem order_run (h : run schedule (start orders) = some s) (p : π) :
    (s p).opened ++ points (s p).rest = points (orders p) :=
  run_induction (P := fun s => ∀ p, (s p).opened ++ points (s p).rest = points (orders p))
    (fun _ _ _ hs hstep q => (order_step hstep q).trans (hs q)) (fun _ => rfl) h p

/-- Every turn of a schedule counts. -/
theorem length_add_work (h : run schedule s = some t) :
    schedule.length + work t = work s := by
  induction schedule generalizing s with
  | nil =>
      obtain rfl := Option.some.inj h
      exact Nat.zero_add _
  | cons p schedule ih =>
      obtain ⟨u, hu, hrest⟩ := Option.bind_eq_some_iff.mp h
      have hwork := work_step hu
      have hlength := ih hrest
      rw [List.length_cons]
      omega

/-- There is one turn to begin an open, and one to end it. -/
theorem length_run_le (h : run schedule (start orders) = some s) :
    schedule.length ≤ ∑ p, 2 * (orders p).length := by
  have hwork : work (start orders) = ∑ p, 2 * (orders p).length := rfl
  have hlength := length_add_work h
  omega

/-! ### Nobody waits for ever -/

/-- Each end has its other end in the order of some party, and the ranks of the channels go up in
every order. -/
structure Orderly (rank : ι → Nat) (orders : π → List (Attempt ι)) : Prop where
  ranked : ∀ p, (points (orders p)).Pairwise fun x y => rank x.1 < rank y.1
  paired : ∀ p, ∀ x ∈ points (orders p), ∃ q, opposite x ∈ points (orders q)

variable {rank : ι → Nat}

/-- Among the parties that wait, one waits for the end of a channel with the lowest rank. Whoever is
to open the other end of it waits for nothing. -/
theorem progress (horderly : Orderly rank orders) (h : run schedule (start orders) = some s) :
    Finished s ∨ ∃ p t, step s p = some t := by
  by_contra hstuck
  rw [not_or] at hstuck
  obtain ⟨hunfinished, hstuck⟩ := hstuck
  have hnone : ∀ p, step s p = none := fun p =>
    Option.eq_none_iff_forall_ne_some.mpr fun t ht => hstuck ⟨p, t, ht⟩
  -- by induction on the rank nobody waits
  have hall : ∀ n p x rest, (s p).rest = x :: rest → rank x.point.1 ≠ n := by
    intro n
    induction n using Nat.strong_induction_on with
    | _ n ih =>
        rintro p x rest hrest rfl
        obtain ⟨-, hopens, habsent⟩ := waits_of_step (hnone p) hrest
        have hmem : x.point ∈ points (orders p) := by
          rw [← order_run h p, hrest, points_cons_of_opens rest hopens]
          exact List.mem_append_right _ List.mem_cons_self
        obtain ⟨q, hq⟩ := horderly.paired p x.point hmem
        have hranked := horderly.ranked q
        rw [← order_run h q] at hq hranked
        rcases List.mem_append.mp hq with hopened | hwaits
        · exact habsent ⟨q, List.mem_append_left _ hopened⟩
        · cases hrest' : (s q).rest with
          | nil =>
              rw [hrest'] at hwaits
              exact absurd hwaits List.not_mem_nil
          | cons y ys =>
              obtain ⟨hbegun, hopens', -⟩ := waits_of_step (hnone q) hrest'
              rw [hrest', points_cons_of_opens ys hopens'] at hwaits hranked
              rcases List.mem_cons.mp hwaits with heq | hlater
              · -- the other party waits with the other end itself
                refine habsent ⟨q, List.mem_append_right _ ?_⟩
                rw [if_pos hbegun, hrest', heq]
                exact List.mem_cons_self
              · have hlt := (List.pairwise_cons.mp (List.pairwise_append.mp hranked).2.1).1 _ hlater
                exact ih (rank y.point.1) hlt q y ys hrest' rfl
  refine hunfinished fun p => ?_
  cases hrest : (s p).rest with
  | nil => rfl
  | cons x rest => exact absurd rfl (hall (rank x.point.1) p x rest hrest)

/-- Whatever the turns were so far, they can be continued until all opens have returned. -/
theorem exists_finished (horderly : Orderly rank orders)
    (h : run schedule (start orders) = some s) :
    ∃ later t, run (schedule ++ later) (start orders) = some t ∧ Finished t := by
  induction hn : work s generalizing schedule s with
  | zero =>
      refine ⟨[], s, by rwa [List.append_nil], ?_⟩
      rcases progress horderly h with hfinished | ⟨p, t, hstep⟩
      · exact hfinished
      · have hwork := work_step hstep
        omega
  | succ n ih =>
      rcases progress horderly h with hfinished | ⟨p, t, hstep⟩
      · exact ⟨[], s, by rwa [List.append_nil], hfinished⟩
      · have hnext : run (schedule ++ [p]) (start orders) = some t := by
          rw [run, List.foldlM_append]
          refine Option.bind_eq_some_iff.mpr ⟨s, h, ?_⟩
          exact Option.bind_eq_some_iff.mpr ⟨t, hstep, rfl⟩
        have hwork := work_step hstep
        obtain ⟨later, u, hrun, hfinished⟩ := ih hnext (by omega)
        refine ⟨p :: later, u, ?_, hfinished⟩
        rwa [List.append_assoc] at hrun

/-! ### Everybody waits for ever -/

/-- When no two parties can begin with the two ends of one channel, no end is ever opened. A party
that does not stop at an open that fails can begin with the next one. -/
theorem opened_eq_nil (hfirst : ∀ p q, ∀ x ∈ firsts (orders p), ∀ y ∈ firsts (orders q),
      y ≠ opposite x) (h : run schedule (start orders) = some s) (p : π) :
    (s p).opened = [] ∧ firsts (s p).rest ⊆ firsts (orders p) := by
  refine run_induction (P := fun s => ∀ p, (s p).opened = [] ∧
    firsts (s p).rest ⊆ firsts (orders p)) ?_ (fun _ => ⟨rfl, List.Subset.refl _⟩) h p
  intro s p t hs hstep q
  have hother : ∀ a : Party ι, (a.opened = [] ∧ firsts a.rest ⊆ firsts (orders p)) →
      (Function.update s p a q).opened = [] ∧
        firsts (Function.update s p a q).rest ⊆ firsts (orders q) := by
    intro a ha
    by_cases hq : q = p
    · subst hq
      rw [Function.update_self]
      exact ha
    · rw [Function.update_of_ne hq]
      exact hs q
  obtain ⟨hnil, hsubset⟩ := hs p
  cases turn_of_step hstep with
  | begins => exact hother _ ⟨hnil, hsubset⟩
  | fails x rest hrest hbegun hfails =>
      rw [hrest] at hsubset
      exact hother _ ⟨hnil, List.Subset.trans (firsts_subset_of_fails rest hfails) hsubset⟩
  | opens x rest hrest hbegun hfails hpresent =>
      -- an open that returns would have found the other end at the start of an order
      obtain ⟨r, hr⟩ := hpresent
      have hx : x.point ∈ firsts (orders p) := by
        refine hsubset ?_
        rw [hrest, firsts]
        exact List.mem_cons_self
      exact absurd rfl (hfirst p r _ hx _ ((hs r).2 (ends_subset_firsts (hs r).1 hr)))

end

end Ndsl.Lib.Rendezvous
