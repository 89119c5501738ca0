import Mathlib.Data.List.Basic
import Mathlib.Data.List.Forall2

/-!
# `Ndsl.Lib.Outbox`: messages that are sent at once, or later

A sender tries each message at once. Where that fails the message is deferred, and the turns that
come later try the deferred messages, one after the other, in the order in which they were deferred.
`Turn` is what the sender does in one call: for a new message, or for the deferred ones.

`Faithful` is the law of such a sender. When a message has been accepted, what it means to send a
message, and what may be done while nothing is deferred are parameters. `inOrder` and `attempt` say
what the law means for a whole log.
-/

set_option autoImplicit false

namespace Ndsl.Lib

/-- What was done in one call. -/
inductive Turn (μ ε : Type)
  /-- For a new message. -/
  | now (m : μ) (done : ε)
  /-- For the messages that were deferred. -/
  | later (done : ε)

/-- What was done. -/
def Turn.done {μ ε : Type} : Turn μ ε → ε
  | .now _ done => done
  | .later done => done

namespace Outbox

variable {μ ε : Type}

/-- The messages, in their order. -/
def messages (log : List (Turn μ ε)) : List μ :=
  log.filterMap fun
    | .now m _ => some m
    | .later _ => none

section Law
variable (accepted : ε → Bool)

/-- The messages that were deferred, in their order. -/
def deferred (log : List (Turn μ ε)) : List μ :=
  log.filterMap fun
    | .now m done => if accepted done then none else some m
    | .later _ => none

/-- What was done each time when a message was accepted later. -/
def late (log : List (Turn μ ε)) : List ε :=
  log.filterMap fun
    | .now _ _ => none
    | .later done => if accepted done then some done else none

/-- The messages that are still deferred. -/
def outstanding (log : List (Turn μ ε)) : List μ :=
  (deferred accepted log).drop (late accepted log).length

/-- The law: each message is tried at once, and later the first one that is still deferred. -/
inductive Faithful (sends : μ → ε → Prop) (quiet : ε → Prop) : List (Turn μ ε) → Prop
  | nil : Faithful sends quiet []
  | now {log : List (Turn μ ε)} {m : μ} {done : ε} : Faithful sends quiet log → sends m done →
      Faithful sends quiet (log ++ [.now m done])
  | later {log : List (Turn μ ε)} {m : μ} {rest : List μ} {done : ε} :
      Faithful sends quiet log → outstanding accepted log = m :: rest → sends m done →
      Faithful sends quiet (log ++ [.later done])
  | idle {log : List (Turn μ ε)} {done : ε} : Faithful sends quiet log →
      outstanding accepted log = [] → quiet done → Faithful sends quiet (log ++ [.later done])

end Law

variable {accepted : ε → Bool} {sends : μ → ε → Prop} {quiet : ε → Prop} {log : List (Turn μ ε)}
  {m : μ} {done : ε}

/-! ### One more turn -/

theorem deferred_snoc (log : List (Turn μ ε)) (turn : Turn μ ε) :
    deferred accepted (log ++ [turn]) = deferred accepted log ++ deferred accepted [turn] :=
  List.filterMap_append

theorem late_snoc (log : List (Turn μ ε)) (turn : Turn μ ε) :
    late accepted (log ++ [turn]) = late accepted log ++ late accepted [turn] :=
  List.filterMap_append

theorem deferred_now (m : μ) (done : ε) :
    deferred accepted [.now m done] = if accepted done then [] else [m] := by
  cases h : accepted done <;> simp [deferred, h]

@[simp] theorem deferred_later (done : ε) : deferred accepted [(.later done : Turn μ ε)] = [] := rfl

@[simp] theorem late_now (m : μ) (done : ε) : late accepted [.now m done] = [] := rfl

theorem late_later (done : ε) :
    late accepted [(.later done : Turn μ ε)] = if accepted done then [done] else [] := by
  cases h : accepted done <;> simp [late, h]

/-- A message that is accepted at once changes nothing for the deferred ones. -/
theorem outstanding_now (h : accepted done = true) :
    outstanding accepted (log ++ [.now m done]) = outstanding accepted log := by
  rw [outstanding, deferred_snoc, late_snoc, deferred_now, if_pos h, late_now, List.append_nil,
    List.append_nil]
  rfl

/-- A message that is not accepted joins them. -/
theorem outstanding_deferred (h : accepted done = false)
    (hle : (late accepted log).length ≤ (deferred accepted log).length) :
    outstanding accepted (log ++ [.now m done]) = outstanding accepted log ++ [m] := by
  have hno : ¬ accepted done = true := by rw [h]; exact Bool.false_ne_true
  rw [outstanding, deferred_snoc, late_snoc, deferred_now, if_neg hno, late_now, List.append_nil,
    List.drop_append_of_le_length hle]
  rfl

/-- A turn in which nothing is accepted changes nothing for them either. -/
theorem outstanding_later (h : accepted done = false) :
    outstanding accepted (log ++ [.later done]) = outstanding accepted log := by
  have hno : ¬ accepted done = true := by rw [h]; exact Bool.false_ne_true
  rw [outstanding, deferred_snoc, late_snoc, deferred_later, late_later, if_neg hno,
    List.append_nil, List.append_nil]
  rfl

/-! ### What the law means -/

namespace Faithful

/-- What was accepted later are the first of the deferred messages, in their order, and each once.
-/
theorem inOrder (hquiet : ∀ done, quiet done → accepted done = false)
    (h : Faithful accepted sends quiet log) :
    List.Forall₂ sends ((deferred accepted log).take (late accepted log).length)
      (late accepted log) := by
  induction h with
  | nil => exact .nil
  | @now log m done _ _ ih =>
      have hle : (late accepted log).length ≤ (deferred accepted log).length :=
        ih.length_eq ▸ List.length_take_le' ..
      rw [deferred_snoc, late_snoc, late_now, List.append_nil, List.take_append_of_le_length hle]
      exact ih
  | @later log m rest done _ hfirst hsends ih =>
      rw [deferred_snoc, late_snoc, deferred_later, List.append_nil, late_later]
      cases haccepted : accepted done with
      | false =>
          rw [if_neg Bool.false_ne_true, List.append_nil]
          exact ih
      | true =>
          rw [if_pos rfl, List.length_append, List.length_singleton]
          -- the next of the deferred messages is the first one outstanding
          have hnext : (deferred accepted log)[(late accepted log).length]? = some m := by
            rw [← List.head?_drop]
            exact congrArg List.head? hfirst
          rw [List.take_add_one, hnext]
          exact List.rel_append ih (.cons hsends .nil)
  | @idle log done _ _ hdone ih =>
      rw [deferred_snoc, late_snoc, deferred_later, late_later,
        if_neg (by rw [hquiet done hdone]; exact Bool.false_ne_true), List.append_nil,
        List.append_nil]
      exact ih

/-- No more was accepted later than was deferred. -/
theorem late_le (hquiet : ∀ done, quiet done → accepted done = false)
    (h : Faithful accepted sends quiet log) :
    (late accepted log).length ≤ (deferred accepted log).length :=
  (h.inOrder hquiet).length_eq ▸ List.length_take_le' ..

/-- What is deferred is one of the messages. -/
theorem mem_messages_of_outstanding (hmem : m ∈ outstanding accepted log) : m ∈ messages log := by
  have hdeferred : m ∈ deferred accepted log := List.mem_of_mem_drop hmem
  obtain ⟨turn, hturn, hsome⟩ := List.mem_filterMap.mp hdeferred
  refine List.mem_filterMap.mpr ⟨turn, hturn, ?_⟩
  cases turn with
  | now m' done =>
      dsimp only at hsome
      split at hsome
      · exact absurd hsome.symm (Option.some_ne_none m)
      · exact hsome
  | later done => exact absurd hsome.symm (Option.some_ne_none m)

/-- Every turn sends one of the messages, or there is nothing to send. -/
theorem attempt (h : Faithful accepted sends quiet log) :
    ∀ turn ∈ log, quiet turn.done ∨ ∃ m ∈ messages log, sends m turn.done := by
  have hgrow : ∀ {log : List (Turn μ ε)} {m : μ} (turn : Turn μ ε), m ∈ messages log →
      m ∈ messages (log ++ [turn]) := by
    intro log m turn hmem
    rw [messages, List.filterMap_append]
    exact List.mem_append_left _ hmem
  induction h with
  | nil => exact fun turn hturn => absurd hturn List.not_mem_nil
  | @now log m done _ hsends ih =>
      intro turn hturn
      rcases List.mem_append.mp hturn with hturn | hturn
      · exact (ih turn hturn).imp_right fun ⟨m', hm', hsends'⟩ => ⟨m', hgrow _ hm', hsends'⟩
      · obtain rfl := List.mem_singleton.mp hturn
        refine .inr ⟨m, ?_, hsends⟩
        rw [messages, List.filterMap_append]
        exact List.mem_append_right _ List.mem_cons_self
  | @later log m rest done _ hfirst hsends ih =>
      intro turn hturn
      rcases List.mem_append.mp hturn with hturn | hturn
      · exact (ih turn hturn).imp_right fun ⟨m', hm', hsends'⟩ => ⟨m', hgrow _ hm', hsends'⟩
      · obtain rfl := List.mem_singleton.mp hturn
        have hmem : m ∈ outstanding accepted log := hfirst ▸ List.mem_cons_self
        exact .inr ⟨m, hgrow _ (mem_messages_of_outstanding hmem), hsends⟩
  | @idle log done _ _ hdone ih =>
      intro turn hturn
      rcases List.mem_append.mp hturn with hturn | hturn
      · exact (ih turn hturn).imp_right fun ⟨m', hm', hsends'⟩ => ⟨m', hgrow _ hm', hsends'⟩
      · obtain rfl := List.mem_singleton.mp hturn
        exact .inl hdone

/-- What was done last for a deferred message sends the first of them. -/
theorem last_later (h : Faithful accepted sends quiet (log ++ [.later done])) {rest : List μ}
    (hfirst : outstanding accepted log = m :: rest) : sends m done := by
  generalize hlog : log ++ [.later done] = whole at h
  cases h with
  | nil => exact absurd hlog (by simp)
  | now _ _ => exact nomatch (List.append_inj' hlog rfl).2
  | later _ hfirst' hsends =>
      obtain ⟨rfl, hlast⟩ := List.append_inj' hlog rfl
      obtain rfl := Turn.later.inj (List.singleton_inj.mp hlast)
      obtain ⟨rfl, -⟩ := List.cons.inj (hfirst.symm.trans hfirst')
      exact hsends
  | idle _ hnone _ =>
      obtain ⟨rfl, -⟩ := List.append_inj' hlog rfl
      exact absurd (hfirst.symm.trans hnone) (List.cons_ne_nil m rest)

end Faithful

end Outbox

end Ndsl.Lib
