import Mathlib.Logic.Function.Basic
import Mathlib.Tactic.Common

/-!
# `Ndsl.Lib.Maps`: maps that keep the first entry

The `insert` of a C++ map leaves an entry alone that is there already. On a map that is a function
to `Option`, that is `Function.update m key ((m key).or (some a))`. The lemmas say what is found in
such a map.
-/

set_option autoImplicit false

namespace Ndsl.Lib.Maps

variable {κ α : Type} [DecidableEq κ] {m : κ → Option α} {key key' : κ} {a b : α}

/-- What is found was there, or is new and stands under its key. -/
theorem insert_cases (h : Function.update m key ((m key).or (some a)) key' = some b) :
    m key' = some b ∨ m key' = none ∧ key' = key ∧ b = a := by
  by_cases hkey : key' = key
  · subst hkey
    rw [Function.update_self] at h
    cases hold : m key' with
    | none =>
        rw [hold] at h
        exact .inr ⟨rfl, rfl, (Option.some.inj h).symm⟩
    | some old =>
        rw [hold] at h
        exact .inl h
  · rw [Function.update_of_ne hkey] at h
    exact .inl h

end Ndsl.Lib.Maps
