import Mathlib.Data.List.Basic

/-!
# `Ndsl.Lib.Registrations`: requests that are served, each at most once

A component takes requests and serves each of them, at once or when something has come in for it.
The requests go by the order in which they were made. `Happening` is what the component does in one
call: for one of the requests, or while none of them waits.

`Lawful` is the law of such a component: no request is completed twice, what is done for a request
is what it asks for, and while none waits nothing is done that would need one. How often a call
completes its request, what serving means, and what may be done without a request are parameters.
`served`, `idle` and `more` are the rules by which a log grows, and `Waits` is a request that is
still to be completed.
-/

set_option autoImplicit false

namespace Ndsl.Lib

/-- What was done in one call. -/
inductive Happening (ε : Type)
  /-- For the request with this number. -/
  | served (call : Nat) (done : ε)
  /-- While no request was waiting. -/
  | unarmed (done : ε)

namespace Registrations

variable {ε ρ : Type}

/-- The requests that were completed, as often as they were. -/
def completed (times : ε → Nat) (log : List (Happening ε)) : List Nat :=
  log.flatMap fun
    | .served call done => List.replicate (times done) call
    | .unarmed _ => []

/-- The law of the requests. -/
structure Lawful (times : ε → Nat) (serves : ρ → ε → Prop) (quiet : ε → Prop) (requests : List ρ)
    (log : List (Happening ε)) : Prop where
  once : (completed times log).Nodup
  own : ∀ call done, .served call done ∈ log → ∃ r, requests[call]? = some r ∧ serves r done
  unarmed : ∀ done, .unarmed done ∈ log → quiet done

/-- A request that has not been completed yet. -/
structure Waits (times : ε → Nat) (requests : List ρ) (log : List (Happening ε)) (call : Nat)
    (r : ρ) : Prop where
  request : requests[call]? = some r
  notYet : call ∉ completed times log

section Log
variable {times : ε → Nat} {log : List (Happening ε)} {requests : List ρ} {call : Nat} {done : ε}
  {r : ρ}

@[simp] theorem completed_append (log es : List (Happening ε)) :
    completed times (log ++ es) = completed times log ++ completed times es := List.flatMap_append

@[simp] theorem completed_served (call : Nat) (done : ε) :
    completed times [.served call done] = List.replicate (times done) call := List.append_nil _

@[simp] theorem completed_unarmed (done : ε) : completed times [.unarmed done] = [] := rfl

/-- What is completed was served. -/
theorem mem_of_completed (h : call ∈ completed times log) : ∃ done, .served call done ∈ log := by
  obtain ⟨e, he, hmem⟩ := List.mem_flatMap.mp h
  cases e with
  | served call' done =>
      obtain rfl := List.eq_of_mem_replicate hmem
      exact ⟨done, he⟩
  | unarmed done => exact absurd hmem List.not_mem_nil

theorem getElem?_snoc {r' : ρ} (h : requests[call]? = some r) :
    (requests ++ [r'])[call]? = some r := by
  rw [List.getElem?_append_left (List.getElem?_eq_some_iff.mp h).1]
  exact h

/-- A request waits on while another one is served, or none is. -/
theorem Waits.other {call' : Nat} (h : Waits times requests log call r) (hne : call ≠ call')
    (r' : ρ) (done : ε) :
    Waits times (requests ++ [r']) (log ++ [.served call' done]) call r := by
  refine ⟨getElem?_snoc h.request, ?_⟩
  rw [completed_append, completed_served, List.mem_append]
  rintro (hmem | hmem)
  · exact h.notYet hmem
  · exact hne (List.eq_of_mem_replicate hmem)

/-- A request waits on when it is served and not completed. -/
theorem Waits.untouched (h : Waits times requests log call r) (hnone : times done = 0) :
    Waits times requests (log ++ [.served call done]) call r := by
  refine ⟨h.request, ?_⟩
  rw [completed_append, completed_served, hnone, List.replicate_zero, List.append_nil]
  exact h.notYet

/-- A request that is completed is among the completed ones. -/
theorem completed_of_served (honce : times done ≠ 0) :
    call ∈ completed times (log ++ [.served call done]) := by
  rw [completed_append, completed_served]
  exact List.mem_append_right _ (List.mem_replicate.mpr ⟨honce, rfl⟩)

theorem Waits.lt (h : Waits times requests log call r) : call < requests.length :=
  (List.getElem?_eq_some_iff.mp h.request).1

end Log

namespace Lawful

variable {times : ε → Nat} {serves : ρ → ε → Prop} {quiet : ε → Prop} {requests : List ρ}
  {log : List (Happening ε)} {call : Nat} {done : ε} {r : ρ}

/-- Nothing has been done yet. -/
theorem nil : Lawful times serves quiet requests [] :=
  ⟨List.nodup_nil, fun _ _ hmem => absurd hmem List.not_mem_nil,
    fun _ hmem => absurd hmem List.not_mem_nil⟩

/-- Another request changes nothing. -/
theorem more (h : Lawful times serves quiet requests log) (r : ρ) :
    Lawful times serves quiet (requests ++ [r]) log := by
  refine ⟨h.once, fun call done hmem => ?_, h.unarmed⟩
  obtain ⟨r', hr', hserves⟩ := h.own call done hmem
  exact ⟨r', getElem?_snoc hr', hserves⟩

/-- A request that is completed has been made. -/
theorem lt_of_completed (h : Lawful times serves quiet requests log)
    (hmem : call ∈ completed times log) : call < requests.length := by
  obtain ⟨done, hdone⟩ := mem_of_completed hmem
  obtain ⟨r, hr, -⟩ := h.own call done hdone
  exact (List.getElem?_eq_some_iff.mp hr).1

/-- A new request waits. -/
theorem waits (h : Lawful times serves quiet requests log) (r : ρ) :
    Waits times (requests ++ [r]) log requests.length r :=
  ⟨List.getElem?_concat_length, fun hmem => Nat.lt_irrefl _ (h.lt_of_completed hmem)⟩

/-- What is done for a request that waits keeps the law when it is what the request asks for, and
completes it once at most. -/
theorem served (h : Lawful times serves quiet requests log)
    (hwaits : Waits times requests log call r) (hserves : serves r done) (honce : times done ≤ 1) :
    Lawful times serves quiet requests (log ++ [.served call done]) := by
  refine ⟨?_, fun call' done' hmem => ?_, fun done' hmem => ?_⟩
  · rw [completed_append, completed_served, List.nodup_append]
    refine ⟨h.once, List.nodup_replicate.mpr honce, fun a ha b hb => ?_⟩
    rw [List.eq_of_mem_replicate hb]
    exact fun heq => hwaits.notYet (heq ▸ ha)
  · rcases List.mem_append.mp hmem with hmem | hmem
    · exact h.own call' done' hmem
    · obtain ⟨rfl, rfl⟩ := Happening.served.inj (List.mem_singleton.mp hmem)
      exact ⟨r, hwaits.request, hserves⟩
  · rcases List.mem_append.mp hmem with hmem | hmem
    · exact h.unarmed done' hmem
    · exact nomatch List.mem_singleton.mp hmem

/-- What is done while no request waits keeps the law when it does not need one. -/
theorem idle (h : Lawful times serves quiet requests log) (hquiet : quiet done) :
    Lawful times serves quiet requests (log ++ [.unarmed done]) := by
  refine ⟨?_, fun call' done' hmem => ?_, fun done' hmem => ?_⟩
  · rw [completed_append, completed_unarmed, List.append_nil]
    exact h.once
  · rcases List.mem_append.mp hmem with hmem | hmem
    · exact h.own call' done' hmem
    · exact nomatch List.mem_singleton.mp hmem
  · rcases List.mem_append.mp hmem with hmem | hmem
    · exact h.unarmed done' hmem
    · obtain rfl := Happening.unarmed.inj (List.mem_singleton.mp hmem)
      exact hquiet

/-- What was done last for a request is what it asks for. -/
theorem last_served (h : Lawful times serves quiet requests (log ++ [.served call done]))
    (hcall : requests[call]? = some r) : serves r done := by
  obtain ⟨r', hr', hserves⟩ := h.own call done (List.mem_append_right _ List.mem_cons_self)
  obtain rfl := Option.some.inj (hcall.symm.trans hr')
  exact hserves

/-- What was done last without a request did not need one. -/
theorem last_unarmed (h : Lawful times serves quiet requests (log ++ [.unarmed done])) :
    quiet done := h.unarmed done (List.mem_append_right _ List.mem_cons_self)

end Lawful

end Registrations

end Ndsl.Lib
