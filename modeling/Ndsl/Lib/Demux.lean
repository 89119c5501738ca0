import Mathlib.Logic.Function.Basic
import Ndsl.Lib.Traced

/-!
# `Ndsl.Lib.Demux`: one stream of inputs for many components

A stream brings inputs for components that know nothing of each other. `route` hands an input to the
component under its key, and drops it when there is none. The components share the stream and the
trace, and nothing else: each one does what it would do if its own inputs came alone (`Alone`).

* `alone_of_yields`: what a run of the whole is for each component.
* `yields_of_alone`: the run of the whole comes to its end when that of each component does.
-/

set_option autoImplicit false

namespace Ndsl.Lib.Demux

variable {κ σ ι ε : Type} [DecidableEq κ] (key : ι → κ) (step : σ → ι → Traced ε σ)

/-- An input goes to the component under its key. -/
def route (parts : κ → Option σ) (i : ι) : Traced (κ × ε) (κ → Option σ) :=
  match parts (key i) with
  | none => pure parts
  | some s =>
    (step s i).view (fun e => [(key i, e)]) fun s' => Function.update parts (key i) (some s')

/-- What an event of the trace is to the component under a key. -/
def ownOf (k : κ) (e : κ × ε) : Option ε := if e.1 = k then some e.2 else none

/-- What the component under a key does in a trace. -/
def own (k : κ) (es : List (κ × ε)) : List ε := es.filterMap (ownOf k)

/-- The inputs for a key. -/
def inputs (k : κ) (is : List ι) : List ι := is.filter fun i => key i = k

/-- For each component it is as if its inputs came alone, and there are no components but those
which there were. -/
def Alone (parts : κ → Option σ) (is : List ι) (es : List (κ × ε)) (parts' : κ → Option σ) : Prop :=
  ∀ k, (parts k = none → parts' k = none ∧ own k es = []) ∧
    ∀ s, parts k = some s →
      ∃ s', parts' k = some s' ∧ ((inputs key k is).foldlM step s).Yields (own k es) s'

variable {key step} {parts parts' : κ → Option σ} {i : ι} {is : List ι} {es fs : List (κ × ε)}
  {k : κ} {s : σ}

theorem own_append (k : κ) (es fs : List (κ × ε)) : own k (es ++ fs) = own k es ++ own k fs :=
  List.filterMap_append

theorem own_map_self (k : κ) (es : List ε) : own k (es.map (Prod.mk k)) = es := by
  induction es with
  | nil => rfl
  | cons e es ih =>
      have hown : ownOf k (k, e) = some e := if_pos rfl
      rw [List.map_cons, own, List.filterMap_cons_some hown]
      exact congrArg _ ih

theorem own_map_of_ne {k k' : κ} (hne : k' ≠ k) (es : List ε) :
    own k (es.map (Prod.mk k')) = [] := by
  induction es with
  | nil => rfl
  | cons e es ih =>
      have hown : ownOf k (k', e) = none := if_neg hne
      rw [List.map_cons, own, List.filterMap_cons_none hown]
      exact ih

theorem inputs_cons_self (is : List ι) :
    inputs key (key i) (i :: is) = i :: inputs key (key i) is :=
  List.filter_cons_of_pos (decide_eq_true rfl)

theorem inputs_cons_of_ne (hne : key i ≠ k) (is : List ι) :
    inputs key k (i :: is) = inputs key k is := by
  rw [inputs, List.filter_cons_of_neg (by simpa using hne)]
  rfl

/-- An input for a component. -/
theorem route_of_some (h : parts (key i) = some s) {acts : List ε} {s' : σ}
    (hstep : (step s i).Yields acts s') :
    (route key step parts i).Yields (acts.map (Prod.mk (key i)))
      (Function.update parts (key i) (some s')) := by
  rw [route, h]
  exact Traced.view_yields.mpr ⟨acts, s', hstep, List.map_eq_flatMap, rfl⟩

/-- What an input does: nothing, or what its component does with it. -/
theorem route_cases (h : (route key step parts i).Yields es parts') :
    (parts (key i) = none ∧ es = [] ∧ parts' = parts) ∨
      ∃ s acts s', parts (key i) = some s ∧ (step s i).Yields acts s' ∧
        es = acts.map (Prod.mk (key i)) ∧ parts' = Function.update parts (key i) (some s') := by
  cases hs : parts (key i) with
  | none =>
      rw [route, hs] at h
      obtain ⟨rfl, rfl⟩ := (Traced.pure_yields ..).mp h
      exact .inl ⟨rfl, rfl, rfl⟩
  | some s =>
      rw [route, hs] at h
      obtain ⟨acts, s', hstep, rfl, rfl⟩ := Traced.view_yields.mp h
      exact .inr ⟨s, acts, s', rfl, hstep, List.map_eq_flatMap.symm, rfl⟩

/-- A run of the whole is a run of each component. -/
theorem alone_of_yields (h : (is.foldlM (route key step) parts).Yields es parts') :
    Alone key step parts is es parts' := by
  induction is generalizing parts es with
  | nil =>
      obtain ⟨rfl, rfl⟩ := (Traced.pure_yields ..).mp h
      exact fun k => ⟨fun hnone => ⟨hnone, rfl⟩, fun s hs => ⟨s, hs, rfl, rfl⟩⟩
  | cons i is ih =>
      rw [List.foldlM_cons] at h
      obtain ⟨fs, mid, gs, hfirst, hrest, rfl⟩ := Traced.bind_yields.mp h
      have hrest := ih hrest
      intro k
      rw [own_append]
      rcases route_cases hfirst with ⟨hnone, rfl, rfl⟩ | ⟨s, acts, s', hs, hstep, rfl, rfl⟩
      · -- the input is dropped, so it is none of the inputs of a component
        refine ⟨(hrest k).1, fun s hs => ?_⟩
        have hne : key i ≠ k := by
          rintro rfl
          exact Option.some_ne_none s (hs.symm.trans hnone)
        rw [inputs_cons_of_ne hne]
        exact (hrest k).2 s hs
      · by_cases hk : key i = k
        · subst hk
          refine ⟨fun hnone => absurd (hs.symm.trans hnone) (Option.some_ne_none s), ?_⟩
          intro t ht
          obtain rfl := Option.some.inj (hs.symm.trans ht)
          obtain ⟨s'', hs'', hrun⟩ := (hrest (key i)).2 s' (Function.update_self ..)
          rw [inputs_cons_self, List.foldlM_cons, own_map_self]
          exact ⟨s'', hs'', Traced.bind_yields.mpr ⟨_, _, _, hstep, hrun, rfl⟩⟩
        · have hother : Function.update parts (key i) (some s') k = parts k :=
            Function.update_of_ne (Ne.symm hk) ..
          rw [inputs_cons_of_ne hk, own_map_of_ne hk, List.nil_append, ← hother]
          exact hrest k

/-- When each component comes to the end of its inputs, so does the whole. -/
theorem yields_of_alone (h : ∀ k s, parts k = some s →
      ∃ acts s', ((inputs key k is).foldlM step s).Yields acts s') :
    ∃ es parts', (is.foldlM (route key step) parts).Yields es parts' := by
  induction is generalizing parts with
  | nil => exact ⟨[], parts, rfl, rfl⟩
  | cons i is ih =>
      cases hs : parts (key i) with
      | none =>
          have hroute : route key step parts i = pure parts := by rw [route, hs]
          rw [List.foldlM_cons, hroute, Traced.pure_bind]
          refine ih fun k s hk => ?_
          have hne : key i ≠ k := by
            rintro rfl
            exact Option.some_ne_none s (hk.symm.trans hs)
          rw [← inputs_cons_of_ne hne is]
          exact h k s hk
      | some s =>
          obtain ⟨acts, t, hrun⟩ := h (key i) s hs
          rw [inputs_cons_self, List.foldlM_cons] at hrun
          obtain ⟨first, s', rest, hstep, hlater, rfl⟩ := Traced.bind_yields.mp hrun
          have hcomponents : ∀ k u, Function.update parts (key i) (some s') k = some u →
              ∃ acts u', ((inputs key k is).foldlM step u).Yields acts u' := by
            intro k u hk
            by_cases heq : key i = k
            · subst heq
              rw [Function.update_self] at hk
              obtain rfl := Option.some.inj hk
              exact ⟨rest, t, hlater⟩
            · rw [Function.update_of_ne (Ne.symm heq)] at hk
              rw [← inputs_cons_of_ne heq is]
              exact h k u hk
          obtain ⟨es, parts', hrest⟩ := ih hcomponents
          refine ⟨first.map (Prod.mk (key i)) ++ es, parts', ?_⟩
          rw [List.foldlM_cons]
          exact Traced.bind_yields.mpr ⟨_, _, _, route_of_some hs hstep, hrest, rfl⟩

end Ndsl.Lib.Demux
