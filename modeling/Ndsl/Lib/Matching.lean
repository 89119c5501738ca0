import Mathlib.Data.List.Basic
import Mathlib.Data.List.Induction

/-!
# `Ndsl.Lib.Matching`: completions that are matched with requests

Requests wait in the order in which they were posted. A completion says which requests it may
belong to, and the oldest of those that wait is served. `matching` reads off a log which requests
wait and which were served, in that order (`posted_perm`).
-/

set_option autoImplicit false

namespace Ndsl.Lib

/-- Requests that wait and requests that were served. -/
structure Matching (α : Type) where
  waiting : List α := []
  served : List α := []

namespace Matching

/-- What an event does. -/
inductive Use (α : Type)
  | post (a : α)
  /-- A request of this kind is completed. -/
  | complete (kind : α → Bool)

variable {ε α : Type}

/-- The requests behind an event. -/
def after (m : Matching α) : Option (Use α) → Matching α
  | none => m
  | some (.post a) => { m with waiting := m.waiting ++ [a] }
  | some (.complete kind) =>
      { waiting := m.waiting.eraseP kind, served := m.served ++ (m.waiting.find? kind).toList }

/-- The request that is posted. -/
def post? : Option (Use α) → Option α
  | some (.post a) => some a
  | _ => none

section List
variable {kind : α → Bool} {l : List α} {a : α}

/-- The list from which the first of a kind has been taken. -/
theorem exists_of_find? (h : l.find? kind = some a) :
    ∃ front behind, l = front ++ a :: behind ∧ l.eraseP kind = front ++ behind := by
  obtain ⟨ha, front, behind, rfl, hfront⟩ := List.find?_eq_some_iff_append.mp h
  refine ⟨front, behind, rfl, ?_⟩
  have hnone : ∀ b ∈ front, ¬ kind b := fun b hb => by
    simpa using hfront b hb
  rw [List.eraseP_append_right _ hnone, List.eraseP_cons_of_pos ha]

theorem perm_of_find? (h : l.find? kind = some a) : l.Perm (a :: l.eraseP kind) := by
  obtain ⟨front, behind, rfl, herase⟩ := exists_of_find? h
  rw [herase]
  exact List.perm_middle

theorem eraseP_of_find?_eq_none (h : l.find? kind = none) : l.eraseP kind = l :=
  List.eraseP_of_forall_not (List.find?_eq_none.mp h)

end List

section After
variable {m : Matching α} {kind : α → Bool} {a : α}

theorem after_complete_of_some (h : m.waiting.find? kind = some a) :
    m.after (some (.complete kind)) =
      { waiting := m.waiting.eraseP kind, served := m.served ++ [a] } := by
  rw [after, h]
  rfl

/-- Where none is of the kind, nothing changes. -/
theorem after_complete_of_none (h : m.waiting.find? kind = none) :
    m.after (some (.complete kind)) = m := by
  rw [after, h, eraseP_of_find?_eq_none h, Option.toList_none, List.append_nil]

end After

section Log
variable (use : ε → Option (Use α))

/-- The requests behind a log. -/
def matching (log : List ε) : Matching α := log.foldl (fun m e => m.after (use e)) {}

/-- The requests that were posted. -/
def posted (log : List ε) : List α := log.filterMap fun e => post? (use e)

variable {use}

theorem matching_append (log es : List ε) :
    matching use (log ++ es) = es.foldl (fun m e => m.after (use e)) (matching use log) :=
  List.foldl_append

theorem matching_snoc (log : List ε) (e : ε) :
    matching use (log ++ [e]) = (matching use log).after (use e) := by
  rw [matching_append, List.foldl_cons, List.foldl_nil]

/-- Events that have nothing to do with the requests. -/
theorem matching_append_of_none {log es : List ε} (h : ∀ e ∈ es, use e = none) :
    matching use (log ++ es) = matching use log := by
  have hsame : ∀ m : Matching α, ∀ e ∈ es, m.after (use e) = m := by
    intro m e he
    rw [h e he]
    rfl
  rw [matching_append, List.foldl_ext _ (fun m _ => m) _ hsame]
  exact List.foldl_fixed' (fun _ => rfl) es

/-- Each request that was posted has been served once or waits. -/
theorem posted_perm (log : List ε) :
    (posted use log).Perm ((matching use log).served ++ (matching use log).waiting) := by
  induction log using List.reverseRecOn with
  | nil => exact List.Perm.refl _
  | append_singleton log e ih =>
      rw [matching_snoc, posted, List.filterMap_append]
      change (posted use log ++ _).Perm _
      generalize matching use log = m at ih
      cases hu : use e with
      | none =>
          rw [List.filterMap_cons_none (by rw [hu]; rfl), List.filterMap_nil, List.append_nil]
          exact ih
      | some u =>
          cases u with
          | post a =>
              rw [List.filterMap_cons_some (by rw [hu]; rfl), List.filterMap_nil]
              refine (ih.append_right [a]).trans ?_
              rw [List.append_assoc]
              exact List.Perm.refl _
          | complete kind =>
              rw [List.filterMap_cons_none (by rw [hu]; rfl), List.filterMap_nil, List.append_nil]
              cases hfind : m.waiting.find? kind with
              | none =>
                  rw [after_complete_of_none hfind]
                  exact ih
              | some a =>
                  -- the request moves from those that wait to those that were served
                  rw [after_complete_of_some hfind]
                  refine ih.trans ?_
                  show (m.served ++ m.waiting).Perm (m.served ++ [a] ++ m.waiting.eraseP kind)
                  rw [List.append_assoc]
                  exact (perm_of_find? hfind).append_left _

end Log

end Matching

end Ndsl.Lib
