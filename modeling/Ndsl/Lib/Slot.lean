import Mathlib.Data.List.Induction
import Mathlib.Data.List.Perm.Basic

/-!
# `Ndsl.Lib.Slot`: a place for one registration

A registration is put into a slot and stays there until something takes it. One that is put on
another one replaces it. `slot` reads off a log what has become of the registrations: those that
were taken, those that were replaced, and the one that is there (`registered_perm`).
-/

set_option autoImplicit false

namespace Ndsl.Lib

/-- What an event does to the slot. -/
inductive Use (ρ : Type)
  | put (r : ρ)
  | take

/-- What has become of the registrations. -/
structure Slot (ρ : Type) where
  armed : Option ρ := none
  consumed : List ρ := []
  replaced : List ρ := []
  /-- How often there was nothing to take. -/
  missed : Nat := 0

namespace Slot

variable {ε ρ : Type}

/-- The slot behind an event. -/
def after (s : Slot ρ) : Option (Use ρ) → Slot ρ
  | none => s
  | some (.put r) => { s with armed := some r, replaced := s.replaced ++ s.armed.toList }
  | some .take =>
      match s.armed with
      | some r => { s with armed := none, consumed := s.consumed ++ [r] }
      | none => { s with missed := s.missed + 1 }

/-- The registration that is put into the slot. -/
def put? : Option (Use ρ) → Option ρ
  | some (.put r) => some r
  | _ => none

section After
variable {s : Slot ρ} {r : ρ}

theorem after_put_of_none (h : s.armed = none) :
    s.after (some (.put r)) = { s with armed := some r } := by
  rw [after, h, Option.toList_none, List.append_nil]

theorem after_take_of_some (h : s.armed = some r) :
    s.after (some .take) = { s with armed := none, consumed := s.consumed ++ [r] } := by
  rw [after, h]

theorem after_take_of_none (h : s.armed = none) :
    s.after (some .take) = { s with missed := s.missed + 1 } := by
  rw [after, h]

end After

section Log
variable (use : ε → Option (Use ρ))

/-- The slot behind a log. -/
def slot (log : List ε) : Slot ρ := log.foldl (fun s e => s.after (use e)) {}

/-- The registrations that were made. -/
def registered (log : List ε) : List ρ := log.filterMap fun e => put? (use e)

variable {use}

theorem slot_append (log es : List ε) :
    slot use (log ++ es) = es.foldl (fun s e => s.after (use e)) (slot use log) :=
  List.foldl_append

theorem slot_snoc (log : List ε) (e : ε) :
    slot use (log ++ [e]) = (slot use log).after (use e) := by
  rw [slot_append, List.foldl_cons, List.foldl_nil]

/-- Events that have nothing to do with the slot. -/
theorem slot_append_of_none {log es : List ε} (h : ∀ e ∈ es, use e = none) :
    slot use (log ++ es) = slot use log := by
  rw [slot_append]
  generalize slot use log = s
  induction es with
  | nil => rfl
  | cons e es ih =>
      rw [List.foldl_cons, h e List.mem_cons_self]
      exact ih fun e he => h e (List.mem_cons_of_mem _ he)

/-- A registration has been taken, or replaced, or is there. -/
theorem registered_perm (log : List ε) : (registered use log).Perm
    ((slot use log).consumed ++ (slot use log).replaced ++ (slot use log).armed.toList) := by
  induction log using List.reverseRecOn with
  | nil => exact List.Perm.refl _
  | append_singleton log e ih =>
      rw [slot_snoc, registered, List.filterMap_append]
      generalize slot use log = s at ih
      cases hu : use e with
      | none =>
          rw [List.filterMap_cons_none (by rw [hu]; rfl), List.filterMap_nil, List.append_nil]
          exact ih
      | some u =>
          cases u with
          | put r =>
              rw [List.filterMap_cons_some (by rw [hu]; rfl), List.filterMap_nil]
              refine (ih.append_right [r]).trans ?_
              show (s.consumed ++ s.replaced ++ s.armed.toList ++ [r]).Perm
                (s.consumed ++ (s.replaced ++ s.armed.toList) ++ [r])
              rw [List.append_assoc s.consumed]
          | take =>
              rw [List.filterMap_cons_none (by rw [hu]; rfl), List.filterMap_nil, List.append_nil]
              refine ih.trans ?_
              cases harmed : s.armed with
              | none => rw [after_take_of_none harmed, harmed]
              | some r =>
                  -- the registration moves from the slot to those that were taken
                  rw [after_take_of_some harmed]
                  show (s.consumed ++ s.replaced ++ [r]).Perm
                    (s.consumed ++ [r] ++ s.replaced ++ [])
                  rw [List.append_nil, List.append_assoc, List.append_assoc]
                  exact List.perm_append_comm.append_left _

/-- Where none was replaced, they were taken in order. -/
theorem registered_eq {log : List ε} (h : (slot use log).replaced = []) :
    registered use log = (slot use log).consumed ++ (slot use log).armed.toList := by
  induction log using List.reverseRecOn with
  | nil => rfl
  | append_singleton log e ih =>
      rw [slot_snoc] at h ⊢
      rw [registered, List.filterMap_append]
      change registered use log ++ _ = _
      generalize slot use log = s at ih h
      cases hu : use e with
      | none =>
          rw [hu] at h
          rw [List.filterMap_cons_none (by rw [hu]; rfl), List.filterMap_nil, List.append_nil]
          exact ih h
      | some u =>
          rw [hu] at h
          cases u with
          | put r =>
              -- none was armed before, or it would have been replaced
              obtain ⟨hreplaced, hnone⟩ := List.append_eq_nil_iff.mp h
              rw [List.filterMap_cons_some (by rw [hu]; rfl), List.filterMap_nil, ih hreplaced,
                hnone, List.append_nil]
              rfl
          | take =>
              rw [List.filterMap_cons_none (by rw [hu]; rfl), List.filterMap_nil, List.append_nil]
              cases harmed : s.armed with
              | none =>
                  rw [after_take_of_none harmed] at h ⊢
                  rw [ih h, harmed]
              | some r =>
                  rw [after_take_of_some harmed] at h ⊢
                  rw [ih h, harmed]
                  exact (List.append_nil _).symm

end Log

end Slot

end Ndsl.Lib
