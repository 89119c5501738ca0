import Mathlib.Data.List.Basic

/-!
# `Ndsl.Lib.Pipe`: what goes in comes out, in order

A pipe takes values at one end and gives them at the other, in the order in which they went in. It
may hold any number of them. `Carries` says how a pipe goes from one content to another, and
`Carries.balance` is its law: what it held, and what went in, has come out, or is what it holds.

A transport is shown to be a pipe by reading off its trace what went in and what came out
(`Carries.gets` is for a step that gives several times).
-/

set_option autoImplicit false

namespace Ndsl.Lib

/-- What is done with a pipe. -/
inductive Pipe (β : Type)
  | put (bs : List β)
  | get (bs : List β)

namespace Pipe

variable {β : Type}

/-- What went in. -/
def puts (log : List (Pipe β)) : List β :=
  log.flatMap fun
    | .put bs => bs
    | .get _ => []

/-- What came out. -/
def gets (log : List (Pipe β)) : List β :=
  log.flatMap fun
    | .put _ => []
    | .get bs => bs

/-- A pipe that held `q` holds `q'` behind the log. -/
inductive Carries (q : List β) : List (Pipe β) → List β → Prop
  | nil : Carries q [] q
  | put {log : List (Pipe β)} {q' bs : List β} : Carries q log q' →
      Carries q (log ++ [.put bs]) (q' ++ bs)
  | get {log : List (Pipe β)} {q' bs : List β} : Carries q log (bs ++ q') →
      Carries q (log ++ [.get bs]) q'

@[simp] theorem puts_nil : puts ([] : List (Pipe β)) = [] := rfl

@[simp] theorem gets_nil : gets ([] : List (Pipe β)) = [] := rfl

@[simp] theorem puts_append (log es : List (Pipe β)) : puts (log ++ es) = puts log ++ puts es :=
  List.flatMap_append

@[simp] theorem gets_append (log es : List (Pipe β)) : gets (log ++ es) = gets log ++ gets es :=
  List.flatMap_append

@[simp] theorem puts_put (bs : List β) : puts [.put bs] = bs := List.append_nil bs

@[simp] theorem puts_get (bs : List β) : puts [.get bs] = [] := rfl

@[simp] theorem gets_put (bs : List β) : gets [.put bs] = [] := rfl

@[simp] theorem gets_get (bs : List β) : gets [.get bs] = bs := List.append_nil bs

namespace Carries

variable {q q' : List β} {log : List (Pipe β)}

/-- Nothing is lost, made up or overtaken. -/
theorem balance (h : Carries q log q') : q ++ puts log = gets log ++ q' := by
  induction h with
  | nil => exact (List.append_nil q).trans (List.nil_append q).symm
  | put _ ih => rw [puts_append, gets_append, puts_put, gets_put, ← List.append_assoc, ih,
      List.append_nil, List.append_assoc]
  | get _ ih => rw [puts_append, gets_append, puts_get, gets_get, List.append_nil, ih,
      List.append_assoc]

/-- What comes out of a pipe that was empty is the beginning of what went in. -/
theorem beginning (h : Carries [] log q') : gets log <+: puts log :=
  ⟨q', h.balance.symm⟩

/-- Nothing is left in a pipe that has given everything. -/
theorem eq_iff (h : Carries [] log q') : gets log = puts log ↔ q' = [] := by
  have hbalance : puts log = gets log ++ q' := h.balance
  rw [hbalance, eq_comm, List.append_right_eq_self]

/-- Several things come out one after the other. -/
theorem gets {bss : List (List β)} (h : Carries q log (bss.flatten ++ q')) :
    Carries q (log ++ bss.map .get) q' := by
  induction bss generalizing log with
  | nil =>
      rw [List.map_nil, List.append_nil]
      exact h
  | cons bs bss ih =>
      rw [List.flatten_cons, List.append_assoc] at h
      rw [List.map_cons, List.append_cons]
      exact ih h.get

end Carries

end Pipe

end Ndsl.Lib
