import Mathlib.Algebra.Order.BigOperators.Group.Finset
import Ndsl.Net.WQThreadpool

/-!
# `Ndsl.Proofs.WQThreadpool.Finishes`: accepted work is done when `quit` returns

`quit` puts one quit item for each worker behind the work that is in the queue. `addWork` tests
`isRunning_` without the mutex, so a client may put its item behind the last quit item, where no
worker comes. `finishes_of_careful` says that in every run in which no client does so the work that
was accepted has been executed once when `quit` returns, each worker has taken one quit item, and
there is always a worker awake for what is in the queue.

The items in the order of the queue are those that the workers have taken and those that are left
(`order`). The invariant is about them (`InOrder`), about what each worker has done with its share
(`Working`), and about the numbers of the calls (`Numbered`).
-/

set_option autoImplicit false

namespace Ndsl.Proofs.WQThreadpool

open Ndsl.Lib Ndsl.Lib.Monitor
open Ndsl.Net Ndsl.Net.WQThreadpool

variable {κ : Type} [DecidableEq κ]

/-! ### Careful runs -/

/-- The number of quit items that `quit` has added. -/
def added (s : WQThreadpool κ) : Nat :=
  match s.quitter with
  | .outside => 0
  | .adding i => i
  | .joining _ | .returned => s.maxThreads_

/-- A client adds its item while there are quit items to come. -/
def Careful (s : WQThreadpool κ) : Move κ → Prop
  | .enqueue _ => added s < s.maxThreads_
  | _ => True

/-- How often the item of a call has been executed. -/
def executions (s : WQThreadpool κ) (call : Nat) : Nat :=
  (s.finished.map Prod.snd).count (.work call)

/-- What holds at all times. -/
structure Finishes (s : WQThreadpool κ) : Prop where
  once : ∀ call, executions s call ≤ 1
  executed : s.quitter = .returned → ∀ call ∈ s.accepted, executions s call = 1
  oneQuit : s.quitter = .returned → ∀ i < s.maxThreads_, (share i s.taken).count .quitFunc = 1
  awake : s.workqueue_ ≠ [] → ∃ i < s.maxThreads_, s.vThreads i ≠ .wait ∧ s.vThreads i ≠ .ended

/-! ### The invariant -/

/-- The call that added an item. -/
def call? : Item → Option Nat
  | .quitFunc => none
  | .work call => some call

/-- The items that have been added, in the order of the queue. -/
def order (s : WQThreadpool κ) : List Item := s.taken.map Prod.snd ++ s.workqueue_

/-- The queue has what was accepted and what `quit` has added, and ends on the last quit item. -/
structure InOrder (s : WQThreadpool κ) : Prop where
  calls : (order s).filterMap call? = s.accepted
  quits : (order s).count .quitFunc = added s
  last : added s = s.maxThreads_ → ∀ item, (order s).getLast? = some item → item = .quitFunc
  added_le : added s ≤ s.maxThreads_
  running : s.isRunning_ = false → added s = s.maxThreads_

/-- No two calls have the same number. -/
structure Numbered (s : WQThreadpool κ) : Prop where
  nodup : s.accepted.Nodup
  fresh : ∀ call ∈ s.accepted, call < s.fresh
  tested : ∀ client call, s.clients client = .tested call → call < s.fresh ∧ call ∉ s.accepted
  unique : ∀ c c' call, s.clients c = .tested call → s.clients c' = .tested call → c = c'

/-- The item that a worker has in hand. -/
def held : Worker → List Item
  | .doit item => [item]
  | _ => []

/-- The worker has taken its quit item. -/
def Gone : Worker → Prop
  | .doit .quitFunc | .ended => True
  | _ => False

/-- The worker comes back to the queue by itself. -/
def Live : Worker → Prop
  | .lock | .doit (.work _) => True
  | _ => False

/-- What the workers have done with what they have taken. -/
structure Working (s : WQThreadpool κ) : Prop where
  takenBelow : ∀ x ∈ s.taken, x.1 < s.maxThreads_
  finishedBelow : ∀ x ∈ s.finished, x.1 < s.maxThreads_
  below : ∀ i, s.vThreads i ≠ .lock → i < s.maxThreads_
  shares : ∀ i, share i s.taken = share i s.finished ++ held (s.vThreads i)
  gone : ∀ i, Gone (s.vThreads i) → (share i s.taken).count .quitFunc = 1
  notGone : ∀ i, ¬ Gone (s.vThreads i) → (share i s.taken).count .quitFunc = 0

/-- Some worker comes to an item that is in the queue. -/
def Awake (s : WQThreadpool κ) : Prop :=
  s.workqueue_ ≠ [] → ∃ i < s.maxThreads_, Live (s.vThreads i)

/-- The threads that `quit` has joined have ended. -/
def Joined (s : WQThreadpool κ) : Prop :=
  ∀ i < s.maxThreads_, (s.quitter = .returned ∨ ∃ j, s.quitter = .joining j ∧ i < j) →
    s.vThreads i = .ended

/-- What every careful step keeps. -/
structure Inv (s : WQThreadpool κ) : Prop where
  inOrder : InOrder s
  numbered : Numbered s
  working : Working s
  awake : Awake s
  joined : Joined s

/-! ### Counting -/

/-- How often a call is among the items. -/
theorem count_work (items : List Item) (call : Nat) :
    items.count (.work call) = (items.filterMap call?).count call := by
  induction items with
  | nil => rfl
  | cons item items ih =>
      cases item with
      | quitFunc =>
          rw [List.count_cons_of_ne Item.noConfusion, ih]
          rfl
      | work n =>
          show (Item.work n :: items).count (.work call) =
            (n :: items.filterMap call?).count call
          rw [List.count_cons, List.count_cons, ih]
          simp

/-- A worker waits, or comes back by itself, or has taken its quit item. -/
theorem live_of_not_gone {w : Worker} (hgone : ¬ Gone w) (hwait : woken w = none) : Live w := by
  cases w with
  | lock => trivial
  | wait => exact absurd hwait (Option.some_ne_none _)
  | doit item =>
      cases item with
      | quitFunc => exact absurd trivial hgone
      | work call => trivial
  | ended => exact absurd trivial hgone

section Counting
variable {s : WQThreadpool κ}

omit [DecidableEq κ] in
/-- As long as there are fewer quit items taken than workers, one has not taken its own. -/
theorem Working.exists_not_gone (h : Working s)
    (hlt : (s.taken.map Prod.snd).count .quitFunc < s.maxThreads_) :
    ∃ i < s.maxThreads_, ¬ Gone (s.vThreads i) := by
  by_contra hnone
  have hall : ∀ i ∈ Finset.range s.maxThreads_, (share i s.taken).count .quitFunc = 1 := by
    intro i hi
    refine h.gone i ?_
    by_contra hgone
    exact hnone ⟨i, Finset.mem_range.mp hi, hgone⟩
  rw [count_map_snd h.takenBelow, Finset.sum_const_nat hall, Finset.card_range, Nat.mul_one] at hlt
  exact Nat.lt_irrefl _ hlt

omit [DecidableEq κ] in
/-- As long as something is in the queue, some worker has not taken its quit item. -/
theorem exists_not_gone (hwork : Working s) (horder : InOrder s) (hne : s.workqueue_ ≠ []) :
    ∃ i < s.maxThreads_, ¬ Gone (s.vThreads i) := by
  refine hwork.exists_not_gone ?_
  have hcount : (s.taken.map Prod.snd).count .quitFunc + s.workqueue_.count .quitFunc =
      added s := by
    rw [← List.count_append]
    exact horder.quits
  by_cases hall : added s = s.maxThreads_
  · -- the last item is a quit item
    have hlast : s.workqueue_.getLast hne = .quitFunc := by
      refine horder.last hall _ ?_
      rw [order, List.getLast?_append_of_ne_nil _ hne, List.getLast?_eq_some_getLast hne]
    have hpos : 0 < s.workqueue_.count .quitFunc :=
      List.count_pos_iff.mpr (hlast ▸ List.getLast_mem hne)
    omega
  · have hle := horder.added_le
    omega

end Counting

/-! ### Signals -/

section Signal
variable {s : WQThreadpool κ} {items : List Item} {vThreads : Nat → Worker}

omit [DecidableEq κ] in
/-- A signal wakes at most one worker, and changes nothing else. -/
theorem same_of_signalsMore (h : SignalsMore s items vThreads) (i : Nat) :
    vThreads i = s.vThreads i ∨ (s.vThreads i = .wait ∧ vThreads i = .lock) := by
  unfold SignalsMore at h
  split at h
  · obtain ⟨choice, hs⟩ := h
    cases hwait : s.vThreads i with
    | wait =>
        cases hs with
        | nobody hnobody =>
            have hnone := hnobody i
            rw [hwait] at hnone
            exact absurd hnone (Option.some_ne_none _)
        | wakes t k ht =>
            by_cases heq : i = t
            · subst heq
              rw [hwait] at ht
              obtain rfl := Option.some.inj ht
              exact .inr ⟨rfl, Function.update_self ..⟩
            · exact .inl (by rw [Function.update_of_ne heq, hwait])
    | lock | doit _ | ended =>
        refine .inl ?_
        rw [hs.same (by rw [hwait]; rfl), hwait]
  · exact .inl (congrFun h i)

omit [DecidableEq κ] in
/-- Where a worker has not taken its quit item, one comes back behind a signal. -/
theorem live_of_signalsMore (h : SignalsMore s items vThreads) (hne : items ≠ []) {p : Nat → Prop}
    (hbelow : ∀ i, s.vThreads i = .wait → i < s.maxThreads_ ∧ p i)
    (hgone : ∃ i < s.maxThreads_, p i ∧ ¬ Gone (vThreads i)) :
    ∃ i < s.maxThreads_, p i ∧ Live (vThreads i) := by
  unfold SignalsMore at h
  rw [if_pos (List.length_pos_iff.mpr hne)] at h
  obtain ⟨choice, hs⟩ := h
  cases hs with
  | nobody hnobody =>
      obtain ⟨i, hi, hp, hnot⟩ := hgone
      exact ⟨i, hi, hp, live_of_not_gone hnot (hnobody i)⟩
  | wakes t k ht =>
      cases hwait : s.vThreads t with
      | wait =>
          obtain ⟨hlt, hp⟩ := hbelow t hwait
          rw [hwait] at ht
          obtain rfl := Option.some.inj ht
          exact ⟨t, hlt, hp, by rw [Function.update_self]; trivial⟩
      | lock | doit _ | ended =>
          rw [hwait] at ht
          exact absurd ht.symm (Option.some_ne_none k)

end Signal

/-! ### What a step does to the queue -/

section Steps
variable {s s' : WQThreadpool κ} {move : Move κ}

omit [DecidableEq κ] in
/-- Nothing is added. -/
theorem InOrder.same (h : InOrder s) (horder : order s' = order s) (hadded : added s' = added s)
    (haccepted : s'.accepted = s.accepted) (hmax : s'.maxThreads_ = s.maxThreads_)
    (hrunning : s'.isRunning_ = false → added s = s.maxThreads_) : InOrder s' where
  calls := by rw [horder, haccepted]; exact h.calls
  quits := by rw [horder, hadded]; exact h.quits
  last := by rw [horder, hadded, hmax]; exact h.last
  added_le := by rw [hadded, hmax]; exact h.added_le
  running := by rw [hadded, hmax]; exact hrunning

theorem InOrder.step (h : InOrder s) (hcareful : Careful s move) (hstep : Step s move s') :
    InOrder s' := by
  cases hstep with
  | refuse => exact h
  | test | wait | spurious | doit | «break» => exact h.same rfl rfl rfl rfl h.running
  | enqueue client call vThreads =>
      have horder : order { s.enqueue (.work call) vThreads with
          clients := Function.update s.clients client .outside
          accepted := s.accepted ++ [call] } = order s ++ [.work call] :=
        (List.append_assoc ..).symm
      refine ⟨?_, ?_, fun hall => absurd hall (Nat.ne_of_lt hcareful), h.added_le, h.running⟩
      · rw [horder, List.filterMap_append, h.calls]
        rfl
      · rw [horder, List.count_append, h.quits]
        rfl
  | add i vThreads hquitter hlt hrunning =>
      have hadded : added s = i := by rw [added, hquitter]
      have horder : order { s.enqueue .quitFunc vThreads with quitter := .adding (i + 1) } =
          order s ++ [.quitFunc] := (List.append_assoc ..).symm
      refine ⟨?_, ?_, fun _ item hitem => ?_, hlt, fun hnot => absurd (hrunning.symm.trans hnot)
        Bool.noConfusion⟩
      · rw [horder, List.filterMap_append, h.calls]
        exact List.append_nil _
      · rw [horder, List.count_append, h.quits, hadded]
        rfl
      · rw [horder, List.getLast?_concat] at hitem
        exact (Option.some.inj hitem).symm
  | quit hquitter =>
      have hadded : added s = 0 := by rw [added, hquitter]
      exact h.same rfl hadded.symm rfl rfl h.running
  | addRefused i hquitter hlt hnot =>
      -- the flag is still set, since there are quit items to come
      have hadded : added s = i := by rw [added, hquitter]
      have hall := h.running hnot
      omega
  | clear i hquitter hge =>
      have hadded : added s = s.maxThreads_ := by
        have heq : added s = i := by rw [added, hquitter]
        have hle := h.added_le
        omega
      exact h.same rfl hadded.symm rfl rfl fun _ => hadded
  | join i hquitter | returned i hquitter =>
      have hadded : added s = s.maxThreads_ := by rw [added, hquitter]
      exact h.same rfl hadded.symm rfl rfl fun _ => hadded
  | dequeue i item items vThreads _ _ hqueue =>
      refine h.same ?_ rfl rfl rfl h.running
      show (s.taken ++ [(i, item)]).map Prod.snd ++ items = s.taken.map Prod.snd ++ s.workqueue_
      rw [hqueue, List.map_append, List.append_assoc]
      rfl

/-! ### What a step does to the calls -/

/-- A call gets a number of its own, and gives it up when its item is in the queue. -/
theorem Numbered.step (h : Numbered s) (hstep : Step s move s') : Numbered s' := by
  cases hstep with
  | refuse => exact h
  | test client houtside =>
      refine ⟨h.nodup, fun call hmem => Nat.lt_succ_of_lt (h.fresh call hmem),
        fun c call hc => ?_, fun c c' call hc hc' => ?_⟩
      · rcases eq_or_of_update hc with ⟨-, heq⟩ | ⟨-, hc⟩
        · obtain rfl := Caller.tested.inj heq
          exact ⟨Nat.lt_succ_self _, fun hmem => Nat.lt_irrefl _ (h.fresh _ hmem)⟩
        · obtain ⟨hlt, hnot⟩ := h.tested c call hc
          exact ⟨Nat.lt_succ_of_lt hlt, hnot⟩
      · rcases eq_or_of_update hc with ⟨hclient, heq⟩ | ⟨-, hc⟩ <;>
          rcases eq_or_of_update hc' with ⟨hclient', heq'⟩ | ⟨-, hc'⟩
        · exact hclient.trans hclient'.symm
        · -- the other client has an older number
          obtain rfl := Caller.tested.inj heq
          exact absurd (h.tested c' _ hc').1 (Nat.lt_irrefl _)
        · obtain rfl := Caller.tested.inj heq'
          exact absurd (h.tested c _ hc).1 (Nat.lt_irrefl _)
        · exact h.unique c c' call hc hc'
  | enqueue client call vThreads htested =>
      -- the number goes from its caller into the queue
      obtain ⟨hlt, hnot⟩ := h.tested client call htested
      refine ⟨?_, fun n hmem => ?_, fun c n hc => ?_, fun c c' n hc hc' => ?_⟩
      · exact h.nodup.append (List.nodup_singleton call) (List.disjoint_singleton.mpr hnot)
      · rcases List.mem_append.mp hmem with hmem | hmem
        · exact h.fresh n hmem
        · obtain rfl := List.mem_singleton.mp hmem
          exact hlt
      · rcases eq_or_of_update hc with ⟨-, heq⟩ | ⟨hne, hother⟩
        · exact Caller.noConfusion heq
        · refine ⟨(h.tested c n hother).1, fun hmem => ?_⟩
          rcases List.mem_append.mp hmem with hmem | hmem
          · exact (h.tested c n hother).2 hmem
          · obtain rfl := List.mem_singleton.mp hmem
            exact hne (h.unique c client n hother htested)
      · rcases eq_or_of_update hc with ⟨-, heq⟩ | ⟨-, hc⟩
        · exact Caller.noConfusion heq
        · rcases eq_or_of_update hc' with ⟨-, heq'⟩ | ⟨-, hc'⟩
          · exact Caller.noConfusion heq'
          · exact h.unique c c' n hc hc'
  | wait | spurious | doit | «break» | add | quit | addRefused | clear | join | returned
  | dequeue => exact ⟨h.nodup, h.fresh, h.tested, h.unique⟩

/-! ### What a step does to the workers -/

omit [DecidableEq κ] in
/-- The workers that are not signalled stand where they stood. -/
theorem Working.signalled (h : Working s) {vThreads : Nat → Worker}
    (hsame : ∀ i, vThreads i = s.vThreads i ∨ (s.vThreads i = .wait ∧ vThreads i = .lock))
    (htaken : s'.taken = s.taken) (hfinished : s'.finished = s.finished)
    (hmax : s'.maxThreads_ = s.maxThreads_) (hthreads : s'.vThreads = vThreads) : Working s' := by
  -- going from `wait` to `lock` a worker has nothing in its hand
  have hheld : ∀ i, held (vThreads i) = held (s.vThreads i) ∧
      (Gone (vThreads i) ↔ Gone (s.vThreads i)) ∧
      (vThreads i ≠ .lock → s.vThreads i ≠ .lock) := by
    intro i
    rcases hsame i with heq | ⟨hwait, hlock⟩
    · rw [heq]
      exact ⟨rfl, Iff.rfl, id⟩
    · rw [hwait, hlock]
      exact ⟨rfl, Iff.rfl, fun _ => Worker.noConfusion⟩
  refine ⟨?_, ?_, fun i hi => ?_, fun i => ?_, fun i hi => ?_, fun i hi => ?_⟩
  · rw [htaken, hmax]
    exact h.takenBelow
  · rw [hfinished, hmax]
    exact h.finishedBelow
  · rw [hthreads] at hi
    rw [hmax]
    exact h.below i ((hheld i).2.2 hi)
  · rw [htaken, hfinished, hthreads, (hheld i).1]
    exact h.shares i
  · rw [hthreads] at hi
    rw [htaken]
    exact h.gone i ((hheld i).2.1.mp hi)
  · rw [hthreads] at hi
    rw [htaken]
    exact h.notGone i fun hgone => hi ((hheld i).2.1.mpr hgone)

omit [DecidableEq κ] in
/-- One worker takes something out of the queue, or is done with something, or goes to sleep. -/
theorem Working.moved (h : Working s) (i : Nat) (w : Worker) (took did : List Item)
    (hlt : i < s.maxThreads_)
    (hshares : share i s.taken ++ took = share i s.finished ++ did ++ held w)
    (hgone : Gone w → (share i s.taken ++ took).count .quitFunc = 1)
    (hnotGone : ¬ Gone w → (share i s.taken ++ took).count .quitFunc = 0)
    (htaken : s'.taken = s.taken ++ took.map (i, ·))
    (hfinished : s'.finished = s.finished ++ did.map (i, ·))
    (hmax : s'.maxThreads_ = s.maxThreads_)
    (hthreads : s'.vThreads = Function.update s.vThreads i w) : Working s' := by
  have hbelow : ∀ (l : List (Nat × Item)) (items : List Item), (∀ x ∈ l, x.1 < s.maxThreads_) →
      ∀ x ∈ l ++ items.map (i, ·), x.1 < s.maxThreads_ := by
    intro l items hl x hx
    rcases List.mem_append.mp hx with hx | hx
    · exact hl x hx
    · obtain ⟨item, -, rfl⟩ := List.mem_map.mp hx
      exact hlt
  have hself : share i s'.taken = share i s.taken ++ took := by
    rw [htaken, share_append, share_map]
  have hothers : ∀ j, j ≠ i → s'.vThreads j = s.vThreads j ∧ share j s'.taken = share j s.taken ∧
      share j s'.finished = share j s.finished := by
    intro j hj
    rw [hthreads, htaken, hfinished, share_append, share_append, share_map_of_ne hj.symm,
      share_map_of_ne hj.symm, List.append_nil, List.append_nil, Function.update_of_ne hj]
    exact ⟨rfl, rfl, rfl⟩
  have hw : s'.vThreads i = w := by rw [hthreads, Function.update_self]
  refine ⟨?_, ?_, fun j hj => ?_, fun j => ?_, fun j hj => ?_, fun j hj => ?_⟩
  · rw [htaken, hmax]
    exact hbelow _ _ h.takenBelow
  · rw [hfinished, hmax]
    exact hbelow _ _ h.finishedBelow
  all_goals by_cases heq : j = i
  · rw [heq, hmax]
    exact hlt
  · rw [(hothers j heq).1] at hj
    rw [hmax]
    exact h.below j hj
  · rw [heq, hself, hw, hfinished, share_append, share_map]
    exact hshares
  · obtain ⟨hthread, htook, hdid⟩ := hothers j heq
    rw [hthread, htook, hdid]
    exact h.shares j
  · rw [heq, hself]
    rw [heq, hw] at hj
    exact hgone hj
  · obtain ⟨hthread, htook, -⟩ := hothers j heq
    rw [htook]
    exact h.gone j (hthread ▸ hj)
  · rw [heq, hself]
    rw [heq, hw] at hj
    exact hnotGone hj
  · obtain ⟨hthread, htook, -⟩ := hothers j heq
    rw [htook]
    exact h.notGone j (hthread ▸ hj)

theorem Working.step (h : Working s) (hstep : Step s move s') : Working s' := by
  cases hstep with
  | refuse => exact h
  | test | quit | addRefused | clear | join | returned =>
      -- these do not touch a worker, nor the record of what was taken
      exact h.signalled (fun _ => .inl rfl) rfl rfl rfl rfl
  | enqueue _ _ vThreads _ hs | add _ vThreads _ _ _ hs =>
      -- a signal makes workers go on that wait, and does no more
      exact h.signalled (same_of_signalsMore hs) rfl rfl rfl rfl
  | wait i hlt hpc _ =>
      -- the worker begins to wait with everything done that it took
      have hshares := h.shares i
      have hcount := h.notGone i (by rw [hpc]; exact id)
      rw [hpc] at hshares
      refine h.moved i .wait [] [] hlt ?_ False.elim ?_
        (List.append_nil _).symm (List.append_nil _).symm rfl rfl
      · rw [List.append_nil, hshares, List.append_nil]
        rfl
      · rw [List.append_nil]
        exact fun _ => hcount
  | spurious i hpc =>
      -- a spurious wake-up is the same for the invariant as a signal
      have hsame : ∀ j, Function.update s.vThreads i .lock j = s.vThreads j ∨
          (s.vThreads j = .wait ∧ Function.update s.vThreads i .lock j = .lock) := by
        intro j
        by_cases heq : j = i
        · subst heq
          exact .inr ⟨hpc, Function.update_self ..⟩
        · exact .inl (Function.update_of_ne heq ..)
      exact h.signalled hsame rfl rfl rfl rfl
  | dequeue i item items vThreads hlt hpc hqueue hs =>
      -- the signal first, and then the worker that has taken the item
      have hsignalled : Working { s with vThreads := vThreads } :=
        h.signalled (same_of_signalsMore hs) rfl rfl rfl rfl
      have hshares := h.shares i
      have hcount := h.notGone i (by rw [hpc]; exact id)
      rw [hpc] at hshares
      refine hsignalled.moved i (.doit item) [item] [] hlt ?_ ?_ ?_
        rfl (List.append_nil _).symm rfl rfl
      · show share i s.taken ++ [item] = share i s.finished ++ [] ++ [item]
        rw [hshares]
        rfl
      · intro hgone
        cases item with
        | quitFunc =>
            show (share i s.taken ++ [Item.quitFunc]).count .quitFunc = 1
            rw [List.count_append, hcount]
            rfl
        | work call => exact hgone.elim
      · intro hnot
        cases item with
        | quitFunc => exact absurd trivial hnot
        | work call =>
            show (share i s.taken ++ [Item.work call]).count .quitFunc = 0
            rw [List.count_append, hcount]
            rfl
  | doit i call hpc =>
      -- what was taken last is finished now
      have hlt := h.below i (by rw [hpc]; exact Worker.noConfusion)
      have hshares := h.shares i
      have hcount := h.notGone i (by rw [hpc]; exact id)
      rw [hpc] at hshares
      refine h.moved i .lock [] [.work call] hlt ?_ False.elim ?_
        (List.append_nil _).symm rfl rfl rfl
      · rw [List.append_nil, hshares]
        exact (List.append_nil _).symm
      · rw [List.append_nil]
        exact fun _ => hcount
  | «break» i hpc =>
      -- the quit item is finished, and the worker stays gone
      have hlt := h.below i (by rw [hpc]; exact Worker.noConfusion)
      have hshares := h.shares i
      have hcount := h.gone i (by rw [hpc]; trivial)
      rw [hpc] at hshares
      refine h.moved i .ended [] [.quitFunc] hlt ?_ ?_
        (absurd trivial) (List.append_nil _).symm rfl rfl rfl
      · rw [List.append_nil, hshares]
        exact (List.append_nil _).symm
      · rw [List.append_nil]
        exact fun _ => hcount

/-! ### What a step does to those that sleep and those that have ended -/

/-- Behind a step some worker comes to what is in the queue. -/
theorem Awake.step (h : Awake s) (hbelow : ∀ i, s.vThreads i ≠ .lock → i < s.maxThreads_)
    (hgone : s'.workqueue_ ≠ [] → ∃ i < s'.maxThreads_, ¬ Gone (s'.vThreads i))
    (hstep : Step s move s') : Awake s' := by
  have hwaits : ∀ i, s.vThreads i = .wait → i < s.maxThreads_ :=
    fun i hi => hbelow i (by rw [hi]; exact Worker.noConfusion)
  have hself : ∀ (vThreads : Nat → Worker) (i : Nat) (w : Worker), Live w →
      Live (Function.update vThreads i w i) := by
    intro vThreads i w hw
    rwa [Function.update_self]
  have hothers : ∀ (vThreads : Nat → Worker) (i j : Nat) (w : Worker), j ≠ i →
      Live (vThreads j) → Live (Function.update vThreads i w j) := by
    intro vThreads i j w hne hlive
    rwa [Function.update_of_ne hne]
  cases hstep with
  | refuse | test | quit | addRefused | clear | join | returned => exact h
  | enqueue _ _ vThreads _ hs | add _ vThreads _ _ _ hs =>
      intro hne
      -- the item is new: a worker that is not gone was awake, or the signal woke one up
      obtain ⟨i, hi, hnot⟩ := hgone hne
      obtain ⟨j, hj, -, hlive⟩ := live_of_signalsMore (p := fun _ => True) hs hne
        (fun i hi => ⟨hwaits i hi, trivial⟩) ⟨i, hi, trivial, hnot⟩
      exact ⟨j, hj, hlive⟩
  | wait i _ _ hempty => exact fun hne => absurd hempty hne
  | spurious i hpc =>
      exact fun _ => ⟨i, hwaits i hpc, hself _ i .lock trivial⟩
  | dequeue i item items vThreads hlt hpc _ hs =>
      intro hne
      cases item with
      | work call => exact ⟨i, hlt, hself _ i (.doit (.work call)) trivial⟩
      | quitFunc =>
          -- this worker is gone, so it is another one that is not
          obtain ⟨j, hj, hnot⟩ := hgone hne
          have hother : j ≠ i := by
            rintro rfl
            refine hnot ?_
            show Gone (Function.update vThreads j (.doit .quitFunc) j)
            rw [Function.update_self]
            trivial
          have hsame : Function.update vThreads i (.doit .quitFunc) j = vThreads j :=
            Function.update_of_ne hother ..
          have hwaitsOther : ∀ k, s.vThreads k = .wait → k < s.maxThreads_ ∧ k ≠ i := by
            refine fun k hk => ⟨hwaits k hk, ?_⟩
            rintro rfl
            exact Worker.noConfusion (hpc.symm.trans hk)
          obtain ⟨k, hk, hki, hlive⟩ := live_of_signalsMore (p := (· ≠ i)) hs hne hwaitsOther
            ⟨j, hj, hother, hsame ▸ hnot⟩
          exact ⟨k, hk, hothers vThreads i k (.doit .quitFunc) hki hlive⟩
  | doit i call hpc =>
      exact fun _ => ⟨i, hbelow i (by rw [hpc]; exact Worker.noConfusion),
        hself _ i .lock trivial⟩
  | «break» i hpc =>
      intro hne
      -- the worker that ends was not the one that was awake
      obtain ⟨j, hj, hlive⟩ := h hne
      have hother : j ≠ i := by
        rintro rfl
        rw [hpc] at hlive
        exact hlive
      exact ⟨j, hj, hothers s.vThreads i j .ended hother hlive⟩

/-- A worker that has ended does nothing more. -/
theorem ended_of_step {i : Nat} (hended : s.vThreads i = .ended) (hstep : Step s move s') :
    s'.vThreads i = .ended := by
  have hupdate : ∀ (vThreads : Nat → Worker) (j : Nat) (w : Worker), s.vThreads j ≠ .ended →
      vThreads i = .ended → Function.update vThreads j w i = .ended := by
    intro vThreads j w hj hi
    have hne : i ≠ j := by
      rintro rfl
      exact hj hended
    rw [Function.update_of_ne hne, hi]
  have hsignalled : ∀ {items vThreads}, SignalsMore s items vThreads → vThreads i = .ended := by
    intro items vThreads hs
    rcases same_of_signalsMore hs i with hsame | ⟨hwait, -⟩
    · rw [hsame, hended]
    · exact Worker.noConfusion (hended.symm.trans hwait)
  cases hstep with
  | refuse | test | quit | addRefused | clear | join | returned => exact hended
  | enqueue _ _ _ _ hs | add _ _ _ _ _ hs => exact hsignalled hs
  | wait _ _ hpc | spurious _ hpc | doit _ _ hpc | «break» _ hpc =>
      exact hupdate _ _ _ (by rw [hpc]; exact Worker.noConfusion) hended
  | dequeue _ _ _ _ _ hpc _ hs =>
      exact hupdate _ _ _ (by rw [hpc]; exact Worker.noConfusion) (hsignalled hs)

/-- `quit` joins one thread after the other. -/
theorem Joined.step (h : Joined s) (hstep : Step s move s') : Joined s' := by
  intro i hi hjoined
  have hstays := fun hended => ended_of_step (i := i) hended hstep
  cases hstep with
  | refuse | test | enqueue | wait | spurious | dequeue | doit | «break» =>
      exact hstays (h i hi hjoined)
  | quit | add | addRefused =>
      rcases hjoined with hret | ⟨j, hj, -⟩
      · exact Quitter.noConfusion hret
      · exact Quitter.noConfusion hj
  | clear =>
      rcases hjoined with hret | ⟨j, hj, hlt⟩
      · exact Quitter.noConfusion hret
      · obtain rfl := Quitter.joining.inj hj
        exact absurd hlt (Nat.not_lt_zero i)
  | join k hquitter _ hended =>
      rcases hjoined with hret | ⟨j, hj, hlt⟩
      · exact Quitter.noConfusion hret
      · obtain rfl := Quitter.joining.inj hj
        rcases Nat.lt_succ_iff_lt_or_eq.mp hlt with hlt | rfl
        · exact h i hi (.inr ⟨k, hquitter, hlt⟩)
        · exact hended
  | returned k hquitter hge =>
      exact h i hi (.inr ⟨k, hquitter, Nat.lt_of_lt_of_le hi (Nat.le_of_not_lt hge)⟩)

/-- Every careful step keeps the invariant. -/
theorem Inv.step (h : Inv s) (hcareful : Careful s move) (hstep : Step s move s') : Inv s' := by
  have horder := h.inOrder.step hcareful hstep
  have hworking := h.working.step hstep
  exact ⟨horder, h.numbered.step hstep, hworking,
    h.awake.step h.working.below (exists_not_gone hworking horder) hstep, h.joined.step hstep⟩

end Steps

/-! ### The main result -/

section Finished
variable {s : WQThreadpool κ}

omit [DecidableEq κ] in
/-- An item has been done at most as often as it has been taken. -/
theorem Working.count_finished_le (h : Working s) (item : Item) :
    (s.finished.map Prod.snd).count item ≤ (s.taken.map Prod.snd).count item := by
  rw [count_map_snd h.finishedBelow, count_map_snd h.takenBelow]
  refine Finset.sum_le_sum fun i _ => ?_
  rw [h.shares i, List.count_append]
  exact Nat.le_add_right _ _

omit [DecidableEq κ] in
/-- When all workers have ended, what they have taken is done. -/
theorem Working.count_finished (h : Working s) (item : Item)
    (hended : ∀ i < s.maxThreads_, s.vThreads i = .ended) :
    (s.finished.map Prod.snd).count item = (s.taken.map Prod.snd).count item := by
  rw [count_map_snd h.finishedBelow, count_map_snd h.takenBelow]
  refine Finset.sum_congr rfl fun i hi => ?_
  rw [h.shares i, hended i (Finset.mem_range.mp hi)]
  exact congrArg _ (List.append_nil _).symm

omit [DecidableEq κ] in
/-- A call is accepted as often as its item is in the order of the queue. -/
theorem InOrder.count_work (h : InOrder s) (call : Nat) :
    (s.taken.map Prod.snd).count (.work call) + s.workqueue_.count (.work call) =
      s.accepted.count call := by
  rw [← List.count_append, ← h.calls, ← Proofs.WQThreadpool.count_work]
  rfl

omit [DecidableEq κ] in
theorem Inv.finishes (h : Inv s) : Finishes s := by
  have honce : ∀ call, s.accepted.count call ≤ 1 := List.nodup_iff_count_le_one.mp h.numbered.nodup
  refine ⟨fun call => ?_, fun hreturned call hmem => ?_, fun hreturned i hi => ?_, fun hne => ?_⟩
  · have hdone := h.working.count_finished_le (.work call)
    have htaken := h.inOrder.count_work call
    have hle := honce call
    show (s.finished.map Prod.snd).count (.work call) ≤ 1
    omega
  · have hended : ∀ i < s.maxThreads_, s.vThreads i = .ended :=
      fun i hi => h.joined i hi (.inl hreturned)
    -- nobody is there for what would be left
    have hempty : s.workqueue_ = [] := by
      by_contra hne
      obtain ⟨i, hi, hnot⟩ := exists_not_gone h.working h.inOrder hne
      exact hnot (by rw [hended i hi]; trivial)
    have htaken := h.inOrder.count_work call
    have hpos := List.count_pos_iff.mpr hmem
    have hle := honce call
    rw [hempty, List.count_nil] at htaken
    show (s.finished.map Prod.snd).count (.work call) = 1
    rw [h.working.count_finished _ hended]
    omega
  · exact h.working.gone i (by rw [h.joined i hi (.inl hreturned)]; trivial)
  · obtain ⟨i, hi, hlive⟩ := h.awake hne
    refine ⟨i, hi, fun hwait => ?_, fun hended => ?_⟩
    · exact absurd hlive (by rw [hwait]; exact id)
    · exact absurd hlive (by rw [hended]; exact id)

end Finished

/-- In a run in which no client adds its item behind the last quit item, the work that was accepted
is done once when `quit` returns, each worker has taken one quit item, and there is a worker awake
for what is in the queue. -/
theorem finishes_of_careful {maxThreads : Nat} {s : WQThreadpool κ}
    (hrun : Reaches Step Careful { maxThreads_ := maxThreads } s) : Finishes s := by
  have hstart : Inv ({ maxThreads_ := maxThreads } : WQThreadpool κ) := by
    refine ⟨⟨rfl, rfl, fun _ item hitem => ?_, Nat.zero_le _, Bool.noConfusion⟩,
      ⟨List.nodup_nil, fun _ hmem => absurd hmem List.not_mem_nil,
        fun _ _ h => Caller.noConfusion h, fun _ _ _ h => Caller.noConfusion h⟩,
      ⟨fun _ hx => absurd hx List.not_mem_nil, fun _ hx => absurd hx List.not_mem_nil,
        fun _ h => absurd rfl h, fun _ => rfl, fun _ => False.elim, fun _ _ => rfl⟩,
      fun hne => absurd rfl hne, fun i _ hjoined => ?_⟩
    · exact absurd hitem (Option.some_ne_none item).symm
    · rcases hjoined with hret | ⟨j, hj, -⟩
      · exact Quitter.noConfusion hret
      · exact Quitter.noConfusion hj
  have hinv : Inv s := hrun.invariant (fun _ _ _ h hcareful hstep => h.step hcareful hstep) hstart
  exact hinv.finishes

/-! ### One worker and one client -/

omit [DecidableEq κ] in
/-- Nobody waits, so the signal changes nothing. -/
theorem signalsMore_nobody {s : WQThreadpool κ} {items : List Item}
    (h : ∀ i, woken (s.vThreads i) = none) : SignalsMore s items s.vThreads := by
  unfold SignalsMore
  split
  · exact ⟨none, .nobody h⟩
  · rfl

/-- The client's item is in the queue before the quit item. -/
theorem finishes_of_careful_one : ∃ s : WQThreadpool Unit,
    Reaches Step Careful { maxThreads_ := 1 } s ∧ s.quitter = .returned ∧ s.accepted = [0] ∧
      Finishes s := by
  have hrun : ∃ s : WQThreadpool Unit, Reaches Step Careful { maxThreads_ := 1 } s ∧
      s.quitter = .returned ∧ s.accepted = [0] := by
    refine ⟨_, .snoc (.snoc (.snoc (.snoc (.snoc (.snoc (.snoc (.snoc (.snoc (.snoc (.snoc
      .refl (by trivial) (.test () rfl rfl))
      (by exact Nat.zero_lt_one) (.enqueue () 0 _ rfl (signalsMore_nobody fun _ => rfl)))
      (by trivial) (.quit rfl rfl))
      (by trivial) (.add 0 _ rfl (by decide) rfl (signalsMore_nobody fun _ => rfl)))
      (by trivial) (.clear 1 rfl (by decide)))
      (by trivial) (.dequeue 0 (.work 0) _ _ (by decide) rfl rfl (signalsMore_nobody fun _ => rfl)))
      (by trivial) (.doit 0 0 rfl)) (by trivial) (.dequeue 0 .quitFunc _ _ (by decide) rfl rfl rfl))
      (by trivial) (.break 0 rfl)) (by trivial) (.join 0 rfl (by decide) rfl))
      (by trivial) (.returned 1 rfl (by decide)), rfl, rfl⟩
  obtain ⟨s, hrun, hreturned, haccepted⟩ := hrun
  exact ⟨s, hrun, hreturned, haccepted, finishes_of_careful hrun⟩

/-- The client has tested `isRunning_` before `quit` and adds its item when the worker has ended. It
gets `S_OK`, and nobody executes the item. -/
theorem accepted_never_executed : ∃ s : WQThreadpool Unit,
    Reaches Step (fun _ _ => True) { maxThreads_ := 1 } s ∧ s.quitter = .returned ∧
      s.accepted = [0] ∧ s.vThreads 0 = .ended ∧ executions s 0 = 0 ∧ ¬ Finishes s := by
  have hrun : ∃ s : WQThreadpool Unit, Reaches Step (fun _ _ => True) { maxThreads_ := 1 } s ∧
      s.quitter = .returned ∧ s.accepted = [0] ∧ s.vThreads 0 = .ended ∧ executions s 0 = 0 := by
    refine ⟨_, .snoc (.snoc (.snoc (.snoc (.snoc (.snoc (.snoc (.snoc (.snoc
      .refl trivial (.test () rfl rfl)) trivial (.quit rfl rfl))
      trivial (.add 0 _ rfl (by decide) rfl (signalsMore_nobody fun _ => rfl)))
      trivial (.clear 1 rfl (by decide)))
      trivial (.dequeue 0 .quitFunc _ _ (by decide) rfl rfl rfl)) trivial (.break 0 rfl))
      trivial (.join 0 rfl (by decide) rfl)) trivial (.returned 1 rfl (by decide)))
      trivial (.enqueue () 0 _ rfl (signalsMore_nobody fun i => ?_)), rfl, rfl, rfl, rfl⟩
    cases i with
    | zero => rfl
    | succ i => rfl
  obtain ⟨s, hrun, hreturned, haccepted, hended, hnone⟩ := hrun
  refine ⟨s, hrun, hreturned, haccepted, hended, hnone, fun hfinishes => ?_⟩
  have hone := hfinishes.executed hreturned 0 (haccepted ▸ List.mem_singleton_self 0)
  rw [hnone] at hone
  exact absurd hone (by decide)

end Ndsl.Proofs.WQThreadpool
