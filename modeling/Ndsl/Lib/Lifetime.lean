import Mathlib.Tactic.Common

/-!
# `Ndsl.Lib.Lifetime`: objects that are used and deleted

`Access ω` is one access of a program to an object of `ω`: it uses the object, or deletes it.
`Safe` says of the accesses of a program, in their order, that none is to an object that was
deleted before. A double deletion is such an access, so a safe program deletes nothing twice
(`Safe.nodup`).

`SafeFrom dead` is the same for a part of the program that finds the objects `dead` deleted. It
goes through the accesses one by one, and `safe_append` splits a longer program into such parts.
-/

set_option autoImplicit false

namespace Ndsl.Lib

/-- What a program does with an object. -/
inductive Access (ω : Type)
  | use (object : ω)
  | delete (object : ω)
  deriving Repr, DecidableEq

namespace Access

variable {ω : Type}

/-- The object of an access. -/
def object : Access ω → ω
  | use o => o
  | delete o => o

/-- The objects that were deleted. -/
def deleted (log : List (Access ω)) : List ω :=
  log.filterMap fun
    | use _ => none
    | delete o => some o

/-- No access is to an object that was deleted before it. -/
def Safe (log : List (Access ω)) : Prop :=
  ∀ pre x post, log = pre ++ x :: post → x.object ∉ deleted pre

/-- No access is to one of the objects `dead`, or to an object that was deleted before it. -/
def SafeFrom (dead : List ω) : List (Access ω) → Prop
  | [] => True
  | x :: log => x.object ∉ dead ∧ SafeFrom (dead ++ deleted [x]) log

@[simp] theorem deleted_nil : deleted ([] : List (Access ω)) = [] := rfl

@[simp] theorem deleted_append (log log' : List (Access ω)) :
    deleted (log ++ log') = deleted log ++ deleted log' := List.filterMap_append

theorem deleted_cons (x : Access ω) (log : List (Access ω)) :
    deleted (x :: log) = deleted [x] ++ deleted log :=
  deleted_append [x] log

/-- Two parts of a program, one after the other. -/
theorem safeFrom_append {dead : List ω} {log log' : List (Access ω)} :
    SafeFrom dead (log ++ log') ↔ SafeFrom dead log ∧ SafeFrom (dead ++ deleted log) log' := by
  induction log generalizing dead with
  | nil =>
      rw [List.nil_append, deleted_nil, List.append_nil]
      exact ⟨fun h => ⟨trivial, h⟩, fun h => h.2⟩
  | cons x log ih =>
      have hdeleted : dead ++ deleted [x] ++ deleted log = dead ++ deleted (x :: log) := by
        rw [List.append_assoc, ← deleted_cons]
      rw [List.cons_append, SafeFrom, SafeFrom, ih, hdeleted, and_assoc]

/-- Safety, access by access. -/
theorem safeFrom_iff {dead : List ω} {log : List (Access ω)} :
    SafeFrom dead log ↔
      ∀ pre x post, log = pre ++ x :: post → x.object ∉ dead ++ deleted pre := by
  constructor
  · rintro h pre x post rfl
    exact (safeFrom_append.mp h).2.1
  · intro h
    induction log generalizing dead with
    | nil => trivial
    | cons x log ih =>
        refine ⟨?_, ih fun pre y post hlog => ?_⟩
        · have hx := h [] x log rfl
          rwa [deleted_nil, List.append_nil] at hx
        · rw [List.append_assoc, ← deleted_cons]
          exact h (x :: pre) y post (by rw [hlog, List.cons_append])

theorem safe_iff_safeFrom {log : List (Access ω)} : Safe log ↔ SafeFrom [] log := by
  rw [safeFrom_iff]
  exact Iff.rfl

/-- Uses are safe where nothing was deleted. -/
theorem safeFrom_of_deleted_eq_nil {log : List (Access ω)} (h : deleted log = []) :
    SafeFrom [] log := by
  rw [safeFrom_iff]
  rintro pre x post rfl
  rw [deleted_append, List.append_eq_nil_iff] at h
  rw [List.nil_append, h.1]
  exact List.not_mem_nil

instance decidableSafeFrom [DecidableEq ω] :
    ∀ (dead : List ω) (log : List (Access ω)), Decidable (SafeFrom dead log)
  | _, [] => isTrue trivial
  | dead, x :: log =>
    have := decidableSafeFrom (dead ++ deleted [x]) log
    inferInstanceAs (Decidable (x.object ∉ dead ∧ SafeFrom (dead ++ deleted [x]) log))

@[simp] theorem safe_nil : Safe ([] : List (Access ω)) :=
  safe_iff_safeFrom.mpr trivial

/-- A program is safe when what it did so far is, and what it does then leaves alone what was
deleted. -/
theorem safe_append {log log' : List (Access ω)} :
    Safe (log ++ log') ↔ Safe log ∧ SafeFrom (deleted log) log' := by
  rw [safe_iff_safeFrom, safe_iff_safeFrom, safeFrom_append, List.nil_append]

/-- A safe program deletes nothing twice. -/
theorem Safe.nodup {log : List (Access ω)} (h : Safe log) : (deleted log).Nodup := by
  rw [safe_iff_safeFrom] at h
  suffices hall : ∀ dead : List ω, dead.Nodup → SafeFrom dead log → (dead ++ deleted log).Nodup by
    exact hall [] List.nodup_nil h
  clear h
  induction log with
  | nil =>
      intro dead hdead _
      rwa [deleted_nil, List.append_nil]
  | cons x log ih =>
      intro dead hdead h
      rw [deleted_cons, ← List.append_assoc]
      refine ih _ ?_ h.2
      cases x with
      | use o =>
          show (dead ++ []).Nodup
          rwa [List.append_nil]
      | delete o =>
          refine List.nodup_append.mpr ⟨hdead, List.nodup_cons.mpr ⟨List.not_mem_nil, .nil⟩, ?_⟩
          intro a ha b hb
          obtain rfl := List.mem_singleton.mp hb
          rintro rfl
          exact h.1 ha

end Access

end Ndsl.Lib
