import Mathlib.Data.List.Basic
import Mathlib.Data.List.Nodup
import Mathlib.Logic.Function.Basic

/-!
# `Ndsl.Lib.Ring`: intrusive lists that close to a ring

`Links` are the two pointers of each node, in memory. `insertAfter` and `erase` are the operations
on them, one store after the other. `Ring links head xs` says that the nodes `xs` lie behind `head`,
in both directions: it is what the pointers mean.

`Ring.insertAfter` and `Ring.erase` say what the operations do to a ring, and `frame_insertAfter`
and `frame_erase` that they leave the other rings alone. `Ring.next` and `Ring.empty_iff` are for a
loop that walks along a ring.
-/

set_option autoImplicit false

namespace Ndsl.Lib

/-- The pointers of a node. -/
@[ext] structure Links.Pair (α : Type) where
  next : α
  prev : α
  deriving Repr, DecidableEq

/-- The pointers of all nodes. -/
abbrev Links (α : Type) := α → Links.Pair α

namespace Links

variable {α : Type}

/-! ### The operations -/

section Operations
variable [DecidableEq α]

/-- `node->next = x`. -/
def setNext (l : Links α) (node x : α) : Links α :=
  Function.update l node { l node with next := x }

/-- `node->prev = x`. -/
def setPrev (l : Links α) (node x : α) : Links α :=
  Function.update l node { l node with prev := x }

/-- `this->insert_after(x)`. -/
def insertAfter (l : Links α) (this x : α) : Links α :=
  let l := l.setPrev (l this).next x
  let l := l.setNext x (l this).next
  let l := l.setPrev x this
  l.setNext this x

/-- `this->erase()`. -/
def erase (l : Links α) (this : α) : Links α :=
  let l := l.setPrev (l this).next (l this).prev
  l.setNext (l this).prev (l this).next

/-- `this->empty()`. -/
def empty (l : Links α) (this : α) : Bool :=
  (l this).next = this && (l this).prev = this

section Stores
variable (l : Links α) (node this x c : α)

@[simp] theorem next_setNext : (l.setNext node x c).next = if c = node then x else (l c).next := by
  rw [setNext, Function.update_apply]
  split <;> rfl

@[simp] theorem prev_setNext : (l.setNext node x c).prev = (l c).prev := by
  rw [setNext, Function.update_apply]
  split
  · next heq => rw [heq]
  · rfl

@[simp] theorem next_setPrev : (l.setPrev node x c).next = (l c).next := by
  rw [setPrev, Function.update_apply]
  split
  · next heq => rw [heq]
  · rfl

@[simp] theorem prev_setPrev : (l.setPrev node x c).prev = if c = node then x else (l c).prev := by
  rw [setPrev, Function.update_apply]
  split <;> rfl

theorem next_insertAfter : (l.insertAfter this x c).next =
    if c = this then x else if c = x then (l this).next else (l c).next := by
  simp [insertAfter]

theorem prev_insertAfter : (l.insertAfter this x c).prev =
    if c = x then this else if c = (l this).next then x else (l c).prev := by
  simp [insertAfter]

theorem next_erase : (l.erase this c).next =
    if c = (l this).prev then (l this).next else (l c).next := by
  simp [erase]

theorem prev_erase : (l.erase this c).prev =
    if c = (l this).next then (l this).prev else (l c).prev := by
  simp [erase]

end Stores

end Operations

/-! ### Paths -/

/-- The pointers lead from `a` over the nodes `xs` to `b`, and back. -/
def Path (l : Links α) : α → List α → α → Prop
  | a, [], b => (l a).next = b ∧ (l b).prev = a
  | a, x :: xs, b => (l a).next = x ∧ (l x).prev = a ∧ Path l x xs b

/-- A ring: the pointers lead from the head over the nodes, which are all different, back to the
head. -/
structure Ring (l : Links α) (head : α) (xs : List α) : Prop where
  nodup : (head :: xs).Nodup
  path : l.Path head xs head

section Paths
variable {l l' : Links α} {a b x : α} {xs ys : List α}

theorem Path.append_iff : l.Path a (xs ++ x :: ys) b ↔ l.Path a xs x ∧ l.Path x ys b := by
  induction xs generalizing a with
  | nil =>
      exact ⟨fun ⟨hnext, hprev, h⟩ => ⟨⟨hnext, hprev⟩, h⟩,
        fun ⟨⟨hnext, hprev⟩, h⟩ => ⟨hnext, hprev, h⟩⟩
  | cons y xs ih =>
      rw [List.cons_append, Path, Path, ih, and_assoc, and_assoc]

/-- The first node of a path, or its end. -/
theorem Path.next (h : l.Path a xs b) : (l a).next = xs.headD b := by
  cases xs with
  | nil => exact h.1
  | cons x xs => exact h.1

/-- A path is still there when its pointers are. -/
theorem Path.congr (h : l.Path a xs b) (hnext : ∀ c ∈ a :: xs, (l' c).next = (l c).next)
    (hprev : ∀ c ∈ xs ++ [b], (l' c).prev = (l c).prev) : l'.Path a xs b := by
  induction xs generalizing a with
  | nil =>
      exact ⟨(hnext a List.mem_cons_self).trans h.1, (hprev b List.mem_cons_self).trans h.2⟩
  | cons y xs ih =>
      obtain ⟨hfirst, hback, hrest⟩ := h
      exact ⟨(hnext a List.mem_cons_self).trans hfirst, (hprev y List.mem_cons_self).trans hback,
        ih hrest (fun c hc => hnext c (List.mem_cons_of_mem a hc))
          fun c hc => hprev c (List.mem_cons_of_mem y hc)⟩

/-- The node before the end of a path. -/
theorem Path.prev_mem (h : l.Path a xs b) : (l b).prev ∈ a :: xs := by
  induction xs generalizing a with
  | nil => exact List.mem_cons.mpr (.inl h.2)
  | cons y xs ih => exact List.mem_cons_of_mem a (ih h.2.2)

/-- The node behind the start. -/
theorem Path.next_mem (h : l.Path a xs b) : (l a).next ∈ xs ++ [b] := by
  cases xs with
  | nil => exact List.mem_cons.mpr (.inl h.1)
  | cons x xs => exact List.mem_cons.mpr (.inl h.1)

/-- A path that leads elsewhere from the last of its nodes on. -/
theorem Path.redirect (h : l.Path a xs x) (hnodup : (a :: xs).Nodup)
    (hlast : (l' (l x).prev).next = b) (hback : (l' b).prev = (l x).prev)
    (hnext : ∀ c ∈ a :: xs, c ≠ (l x).prev → (l' c).next = (l c).next)
    (hprev : ∀ c ∈ xs, (l' c).prev = (l c).prev) : l'.Path a xs b := by
  induction xs generalizing a with
  | nil =>
      obtain ⟨-, rfl⟩ := h
      exact ⟨hlast, hback⟩
  | cons y xs ih =>
      obtain ⟨hfirst, hy, hrest⟩ := h
      obtain ⟨hnot, hnodup⟩ := List.nodup_cons.mp hnodup
      -- the last node is another one than the first
      have hne : a ≠ (l x).prev := fun heq => hnot (heq ▸ hrest.prev_mem)
      exact ⟨(hnext a List.mem_cons_self hne).trans hfirst, (hprev y List.mem_cons_self).trans hy,
        ih hrest hnodup (fun c hc => hnext c (List.mem_cons_of_mem a hc))
          fun c hc => hprev c (List.mem_cons_of_mem y hc)⟩

end Paths

/-! ### Rings -/

namespace Ring

section Mem
variable {l l' : Links α} {head x h : α} {xs ys pre post : List α}

/-- A ring is still there when its pointers are. -/
theorem congr (hring : l.Ring h ys) (hsame : ∀ c ∈ h :: ys, l' c = l c) : l'.Ring h ys := by
  refine ⟨hring.nodup, hring.path.congr (fun c hc => by rw [hsame c hc]) fun c hc => ?_⟩
  rw [hsame c ((List.perm_append_singleton h ys).mem_iff.mp hc)]

/-- The node behind the head is one of the ring. -/
theorem next_mem (hring : l.Ring head xs) : (l head).next ∈ head :: xs :=
  (List.perm_append_singleton head xs).mem_iff.mp hring.path.next_mem

/-- So are both neighbours of a node. -/
theorem neighbours_mem (hring : l.Ring head (pre ++ x :: post)) :
    (l x).next ∈ head :: (pre ++ x :: post) ∧ (l x).prev ∈ head :: (pre ++ x :: post) := by
  obtain ⟨hbefore, hbehind⟩ := Path.append_iff.mp hring.path
  constructor
  · rcases List.mem_append.mp hbehind.next_mem with hmem | hmem
    · exact List.mem_cons_of_mem _ (List.mem_append_right _ (List.mem_cons_of_mem _ hmem))
    · exact List.mem_cons.mpr (.inl (List.mem_singleton.mp hmem))
  · rcases List.mem_cons.mp hbefore.prev_mem with heq | hmem
    · exact List.mem_cons.mpr (.inl heq)
    · exact List.mem_cons_of_mem _ (List.mem_append_left _ hmem)

end Mem

variable [DecidableEq α] {l l' : Links α} {head x h : α} {xs ys pre post : List α}

/-- `empty` tells whether there are nodes. -/
theorem empty_iff (hring : l.Ring head xs) : l.empty head = true ↔ xs = [] := by
  unfold empty
  rw [Bool.and_eq_true, decide_eq_true_eq, decide_eq_true_eq]
  constructor
  · rintro ⟨hnext, -⟩
    cases xs with
    | nil => rfl
    | cons x xs =>
        have hx : x = head := hring.path.next.symm.trans hnext
        exact absurd (hx ▸ List.mem_cons_self) (List.nodup_cons.mp hring.nodup).1
  · rintro rfl
    exact hring.path

/-- A new node becomes the first one. -/
theorem insertAfter (hring : l.Ring head xs) (hx : x ∉ head :: xs) :
    (l.insertAfter head x).Ring head (x :: xs) := by
  obtain ⟨hnodup, hpath⟩ := hring
  have hne : head ≠ x := fun heq => hx (heq ▸ List.mem_cons_self)
  refine ⟨?_, ?_, ?_, ?_⟩
  · rw [List.nodup_cons, List.mem_cons, not_or, List.nodup_cons]
    exact ⟨⟨hne, (List.nodup_cons.mp hnodup).1⟩, fun hmem => hx (List.mem_cons_of_mem _ hmem),
      (List.nodup_cons.mp hnodup).2⟩
  · rw [next_insertAfter, if_pos rfl]
  · rw [prev_insertAfter, if_pos rfl]
  · cases xs with
    | nil =>
        obtain ⟨hnext, -⟩ := hpath
        refine ⟨?_, ?_⟩
        · rw [next_insertAfter, if_neg (Ne.symm hne), if_pos rfl, hnext]
        · rw [prev_insertAfter, if_neg hne, hnext, if_pos rfl]
    | cons y ys =>
        obtain ⟨hnext, -, hrest⟩ := hpath
        have hyx : y ≠ x := fun heq => hx (heq ▸ List.mem_cons_of_mem _ List.mem_cons_self)
        obtain ⟨hhead, hy, -⟩ : head ∉ y :: ys ∧ y ∉ ys ∧ ys.Nodup :=
          ⟨(List.nodup_cons.mp hnodup).1, List.nodup_cons.mp (List.nodup_cons.mp hnodup).2⟩
        refine ⟨?_, ?_, hrest.congr (fun c hc => ?_) fun c hc => ?_⟩
        · rw [next_insertAfter, if_neg (Ne.symm hne), if_pos rfl, hnext]
        · rw [prev_insertAfter, if_neg hyx, if_pos hnext.symm]
        · have hcx : c ≠ x := fun heq => hx (heq ▸ List.mem_cons_of_mem _ hc)
          have hchead : c ≠ head := fun heq => hhead (heq ▸ hc)
          rw [next_insertAfter, if_neg hchead, if_neg hcx]
        · -- the pointers back are those of the other nodes and of the head
          have hmem : c ∈ head :: ys := by
            rcases List.mem_append.mp hc with hc | hc
            · exact List.mem_cons_of_mem _ hc
            · exact List.mem_cons.mpr (.inl (List.mem_singleton.mp hc))
          have hcx : c ≠ x := by
            rintro rfl
            rcases List.mem_cons.mp hmem with heq | hc
            · exact hne heq.symm
            · exact hx (List.mem_cons_of_mem _ (List.mem_cons_of_mem _ hc))
          have hcy : c ≠ (l head).next := by
            rw [hnext]
            rintro rfl
            rcases List.mem_cons.mp hmem with heq | hc
            · exact hhead (heq ▸ List.mem_cons_self)
            · exact hy hc
          rw [prev_insertAfter, if_neg hcx, if_neg hcy]

/-- A node is taken out. -/
theorem erase (hring : l.Ring head (pre ++ x :: post)) : (l.erase x).Ring head (pre ++ post) := by
  obtain ⟨hnodup, hpath⟩ := hring
  obtain ⟨hbefore, hbehind⟩ := Path.append_iff.mp hpath
  have hsub : (head :: (pre ++ post)).Sublist (head :: (pre ++ x :: post)) :=
    ((List.sublist_cons_self x post).append_left pre).cons_cons head
  have hrest : (head :: (pre ++ post)).Nodup := hnodup.sublist hsub
  have hfirst : (head :: pre).Nodup :=
    hrest.sublist ((List.sublist_append_left pre post).cons_cons head)
  -- the node in front comes to lead to the one behind, and back
  have hforth : (l.erase x (l x).prev).next = (l x).next := by rw [next_erase, if_pos rfl]
  have hback : (l.erase x (l x).next).prev = (l x).prev := by rw [prev_erase, if_pos rfl]
  have hnext : ∀ c ∈ head :: pre, c ≠ (l x).prev → (l.erase x c).next = (l c).next :=
    fun c _ hne => by rw [next_erase, if_neg hne]
  refine ⟨hrest, ?_⟩
  cases post with
  | nil =>
      rw [hbehind.1] at hforth hback
      rw [List.append_nil]
      refine hbefore.redirect hfirst hforth hback hnext fun c hc => ?_
      have hne : c ≠ (l x).next := by
        rw [hbehind.1]
        rintro rfl
        exact (List.nodup_cons.mp hfirst).1 hc
      rw [prev_erase, if_neg hne]
  | cons y ys =>
      obtain ⟨hy, -, hlast⟩ := hbehind
      rw [hy] at hforth hback
      have hboth : ((head :: pre) ++ y :: ys).Nodup := hrest
      obtain ⟨-, hys, hdisjoint⟩ := List.nodup_append.mp hboth
      refine Path.append_iff.mpr ⟨hbefore.redirect hfirst hforth hback hnext fun c hc => ?_,
        hlast.congr (fun c hc => ?_) fun c hc => ?_⟩
      · have hne : c ≠ (l x).next := by
          rw [hy]
          exact hdisjoint c (List.mem_cons_of_mem _ hc) y List.mem_cons_self
        rw [prev_erase, if_neg hne]
      · have hne : c ≠ (l x).prev := (hdisjoint _ hbefore.prev_mem c hc).symm
        rw [next_erase, if_neg hne]
      · have hne : c ≠ (l x).next := by
          rw [hy]
          rintro rfl
          rcases List.mem_append.mp hc with hc | hc
          · exact (List.nodup_cons.mp hys).1 hc
          · exact hdisjoint head List.mem_cons_self c List.mem_cons_self
              (List.mem_singleton.mp hc).symm
        rw [prev_erase, if_neg hne]

/-! ### Other rings -/

/-- A node outside of a ring is no matter of it. -/
theorem update (hother : l.Ring h ys) (hx : x ∉ h :: ys) (pair : Links.Pair α) :
    Links.Ring (Function.update l x pair) h ys := by
  refine hother.congr fun c hc => ?_
  have hne : c ≠ x := fun heq => hx (heq ▸ hc)
  exact Function.update_of_ne hne _ _

/-- A new node of one ring is none of another one. -/
theorem frame_insertAfter (hring : l.Ring head xs) (hother : l.Ring h ys) (hx : x ∉ h :: ys)
    (hdisjoint : ∀ c ∈ head :: xs, c ∉ h :: ys) : (l.insertAfter head x).Ring h ys := by
  refine hother.congr fun c hc => ?_
  have hhead : c ≠ head := fun heq => hdisjoint head List.mem_cons_self (heq ▸ hc)
  have hcx : c ≠ x := fun heq => hx (heq ▸ hc)
  have hnext : c ≠ (l head).next := fun heq => hdisjoint _ hring.next_mem (heq ▸ hc)
  refine Pair.ext ?_ ?_
  · rw [next_insertAfter, if_neg hhead, if_neg hcx]
  · rw [prev_insertAfter, if_neg hcx, if_neg hnext]

/-- Neither is one that is taken out. -/
theorem frame_erase (hring : l.Ring head (pre ++ x :: post)) (hother : l.Ring h ys)
    (hdisjoint : ∀ c ∈ head :: (pre ++ x :: post), c ∉ h :: ys) : (l.erase x).Ring h ys := by
  refine hother.congr fun c hc => ?_
  have hprev : c ≠ (l x).prev := fun heq => hdisjoint _ hring.neighbours_mem.2 (heq ▸ hc)
  have hnext : c ≠ (l x).next := fun heq => hdisjoint _ hring.neighbours_mem.1 (heq ▸ hc)
  refine Pair.ext ?_ ?_
  · rw [next_erase, if_neg hprev]
  · rw [prev_erase, if_neg hnext]

end Ring

end Links

end Ndsl.Lib
