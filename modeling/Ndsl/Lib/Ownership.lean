import Mathlib.Data.Finset.Union
import Ndsl.Lib.Traced

/-!
# `Ndsl.Lib.Ownership`: what a program holds

`Deed ω` is what a program does with an object of `ω`: it acquires the object, uses it, or releases
it. `Deed.run` takes the objects that are held through the deeds of a program, in their order. It
fails at the first deed that cannot be done: the use or the release of an object that is not held,
because it was released before or was never there. When it succeeds, its result is what the program
has not released.

`Keeps` is a rule of pre- and postconditions for executions whose events may be deeds: with these
objects held, all deeds of the execution can be done, and a value that it returns and the objects
that are held then are as the postcondition says. Its lemmas follow the code.
-/

set_option autoImplicit false

namespace Ndsl.Lib

/-- What a program does with an object. -/
inductive Deed (ω : Type)
  | acquire (object : ω)
  | use (object : ω)
  | release (object : ω)
  deriving Repr, DecidableEq

namespace Deed

variable {ω : Type} [DecidableEq ω]

/-- One deed, for a program that holds these objects. -/
def step (held : Finset ω) : Deed ω → Option (Finset ω)
  | acquire o => if o ∈ held then none else some (insert o held)
  | use o => if o ∈ held then some held else none
  | release o => if o ∈ held then some (held.erase o) else none

/-- The deeds, one after the other. -/
def run (held : Finset ω) (deeds : List (Deed ω)) : Option (Finset ω) :=
  deeds.foldlM step held

variable {held held' : Finset ω} {o : ω} {deeds more : List (Deed ω)}

@[simp] theorem run_nil : run held [] = some held := rfl

theorem run_cons (d : Deed ω) : run held (d :: deeds) = (step held d).bind (run · deeds) :=
  List.foldlM_cons

/-- A program in two parts. -/
theorem run_append : run held (deeds ++ more) = (run held deeds).bind (run · more) :=
  List.foldlM_append

theorem run_append_of_run (h : run held deeds = some held') :
    run held (deeds ++ more) = run held' more := by
  rw [run_append, h]
  rfl

theorem run_use (h : o ∈ held) : run held (use o :: deeds) = run held deeds := by
  rw [run_cons, step, if_pos h]
  rfl

/-- Nothing can be done with an object that is not held. -/
theorem run_use_of_notMem (h : o ∉ held) : run held (use o :: deeds) = none := by
  rw [run_cons, step, if_neg h]
  rfl

/-- What is held and is not held any more was released. -/
theorem release_mem_of_mem (h : run held deeds = some held') (ho : o ∈ held) (hgone : o ∉ held') :
    release o ∈ deeds := by
  induction deeds generalizing held with
  | nil => exact absurd (Option.some.inj h ▸ ho) hgone
  | cons d deeds ih =>
      rw [run_cons] at h
      obtain ⟨next, hnext, hrest⟩ := Option.bind_eq_some_iff.mp h
      by_cases hd : d = release o
      · exact hd ▸ List.mem_cons_self
      · refine List.mem_cons_of_mem _ (ih hrest ?_)
        cases d with
        | acquire o' =>
            obtain ⟨-, hnext⟩ := Option.ite_none_left_eq_some.mp hnext
            exact Option.some.inj hnext ▸ Finset.mem_insert_of_mem ho
        | use o' =>
            obtain ⟨-, hnext⟩ := Option.ite_none_right_eq_some.mp hnext
            exact Option.some.inj hnext ▸ ho
        | release o' =>
            obtain ⟨-, hnext⟩ := Option.ite_none_right_eq_some.mp hnext
            have hne : o ≠ o' := fun heq => hd (heq ▸ rfl)
            exact Option.some.inj hnext ▸ Finset.mem_erase_of_ne_of_mem hne ho

/-- What was acquired and is not held at the end was released. -/
theorem release_mem_of_acquire_mem (h : run held deeds = some held') (hmade : acquire o ∈ deeds)
    (hgone : o ∉ held') : release o ∈ deeds := by
  induction deeds generalizing held with
  | nil => simp at hmade
  | cons d deeds ih =>
      rw [run_cons] at h
      obtain ⟨next, hnext, hrest⟩ := Option.bind_eq_some_iff.mp h
      refine List.mem_cons_of_mem _ ?_
      rcases List.mem_cons.mp hmade with rfl | hmade
      · obtain ⟨-, hnext⟩ := Option.ite_none_left_eq_some.mp hnext
        exact release_mem_of_mem hrest (Option.some.inj hnext ▸ Finset.mem_insert_self ..) hgone
      · exact ih hrest hmade

/-! ### Executions -/

section
variable {ε α β : Type} {deedOf : ε → Option (Deed ω)}

/-- With these objects held, the deeds of the execution can be done, and what it returns and what is
held then are as `post` says. -/
def Keeps (deedOf : ε → Option (Deed ω)) (held : Finset ω) (x : Traced ε α)
    (post : α → Finset ω → Prop) : Prop :=
  ∃ held', run held (x.log.filterMap deedOf) = some held' ∧ ∀ a, x.value = some a → post a held'

namespace Keeps

variable {x : Traced ε α} {f : α → Traced ε β} {post : α → Finset ω → Prop}
  {post' : β → Finset ω → Prop}

theorem pure {a : α} (h : post a held) : Keeps deedOf held (pure a) post :=
  ⟨held, rfl, fun _ hb => Option.some.inj hb ▸ h⟩

/-- What is held stays held. -/
theorem returns {a : α} :
    Keeps deedOf held (Pure.pure a) fun b after => b = a ∧ after = held :=
  pure ⟨rfl, rfl⟩

theorem fault : Keeps deedOf held (Traced.fault : Traced ε α) post :=
  ⟨held, rfl, fun _ h => nomatch h⟩

/-- One execution behind another. -/
theorem bind (hx : Keeps deedOf held x post)
    (hf : ∀ a held', post a held' → Keeps deedOf held' (f a) post') :
    Keeps deedOf held (x >>= f) post' := by
  obtain ⟨held₁, hrun, hpost⟩ := hx
  cases hvalue : x.value with
  | none =>
      rw [Traced.bind_of_none f hvalue]
      exact ⟨held₁, hrun, fun _ h => nomatch h⟩
  | some a =>
      obtain ⟨held₂, hrun₂, hpost₂⟩ := hf a held₁ (hpost a hvalue)
      rw [Traced.bind_of_some f hvalue]
      refine ⟨held₂, ?_, hpost₂⟩
      show run held ((x.log ++ (f a).log).filterMap deedOf) = some held₂
      rw [List.filterMap_append, run_append_of_run hrun, hrun₂]

/-- An execution that does not return: nothing comes behind it. -/
theorem stops_bind (hx : Keeps deedOf held x fun _ _ => False) :
    Keeps deedOf held (x >>= f) post' :=
  hx.bind fun _ _ h => h.elim

/-- Events that are no deeds. -/
theorem tell_bind {es : List ε} {f : Unit → Traced ε β} (hes : es.filterMap deedOf = [])
    (hf : Keeps deedOf held (f ()) post') : Keeps deedOf held (Traced.tell es >>= f) post' := by
  have htell : Keeps deedOf held (Traced.tell es) fun _ after => after = held := by
    refine ⟨held, ?_, fun _ _ => rfl⟩
    rw [Traced.log_tell, hes]
    rfl
  refine htell.bind ?_
  rintro _ _ rfl
  exact hf

/-- A deed, and nothing else. -/
theorem deed {e : ε} {d : Deed ω} {post : Unit → Finset ω → Prop} (he : deedOf e = some d)
    (hd : step held d = some held') (hpost : post () held') :
    Keeps deedOf held (Traced.tell [e]) post := by
  refine ⟨held', ?_, fun _ _ => hpost⟩
  rw [Traced.log_tell, List.filterMap_cons_some he, run_cons, hd]
  rfl

/-- A deed. -/
theorem deed_bind {e : ε} {d : Deed ω} {f : Unit → Traced ε β} (he : deedOf e = some d)
    (hd : step held d = some held') (hf : Keeps deedOf held' (f ()) post') :
    Keeps deedOf held (Traced.tell [e] >>= f) post' := by
  have htell : Keeps deedOf held (Traced.tell [e]) fun _ after => after = held' := deed he hd rfl
  refine htell.bind ?_
  rintro _ _ rfl
  exact hf

theorem acquire_bind {e : ε} {f : Unit → Traced ε β} (he : deedOf e = some (.acquire o))
    (ho : o ∉ held) (hf : Keeps deedOf (insert o held) (f ()) post') :
    Keeps deedOf held (Traced.tell [e] >>= f) post' :=
  deed_bind he (if_neg ho) hf

theorem use_bind {e : ε} {f : Unit → Traced ε β} (he : deedOf e = some (.use o)) (ho : o ∈ held)
    (hf : Keeps deedOf held (f ()) post') : Keeps deedOf held (Traced.tell [e] >>= f) post' :=
  deed_bind he (if_pos ho) hf

theorem release_bind {e : ε} {f : Unit → Traced ε β} (he : deedOf e = some (.release o))
    (ho : o ∈ held) (hf : Keeps deedOf (held.erase o) (f ()) post') :
    Keeps deedOf held (Traced.tell [e] >>= f) post' :=
  deed_bind he (if_pos ho) hf

theorem mono {post' : α → Finset ω → Prop} (h : Keeps deedOf held x post)
    (himp : ∀ a held', post a held' → post' a held') : Keeps deedOf held x post' := by
  obtain ⟨held', hrun, hpost⟩ := h
  exact ⟨held', hrun, fun a ha => himp a held' (hpost a ha)⟩

/-- What it says of an execution that returns. -/
theorem of_yields {es : List ε} {a : α} (h : Keeps deedOf held x post) (hx : x.Yields es a) :
    ∃ held', run held (es.filterMap deedOf) = some held' ∧ post a held' := by
  obtain ⟨held', hrun, hpost⟩ := h
  exact ⟨held', hx.1 ▸ hrun, hpost a hx.2⟩

end Keeps

end

end Deed

end Ndsl.Lib
