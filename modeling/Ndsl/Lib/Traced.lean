import Mathlib.Tactic.Common
import Mathlib.Logic.Function.Basic

/-!
# `Ndsl.Lib.Traced`: partial computations that leave a trace

A `Traced ε α` is one execution of a piece of imperative code: the list of observable
actions it performed, and the value it came to, or `none` when it stopped on the way. The
trace survives the stop, so that a property of the actions ("every access is in bounds")
also speaks about the executions that never return.

* `Traced.Yields x es a`: the execution `x` performs exactly `es` and returns `a`.
  `bind_yields` and `pure_yields` take a `do` block apart.
* `Traced.record`: an execution as one event.
* `Traced.Ensures`: a postcondition on the actions and the value, and its rules.
* `Traced.Together`: two executions that are the same as long as the first one does what is `ok`,
  and its rules.
* `Traced.Simulates`: two executions that do the same, with states of two types, and its rules.
* `Traced.whileFuel`, `Traced.While`: a `while` loop, once with fuel and once as a
  derivation. `While.iff_fuel` says that the two are the same loop.
* `Traced.Visits`: the states at the head of the loop, whether it ends or not.
* `Traced.Always`: what holds after every part of a run, and its two equations.
* `Traced.Run`: a run whose inputs meet a guard, and `Run.invariant`, its induction.
* `foldlM_yields_invariant`: what one step preserves of a state and the trace so far, a
  whole run preserves.
-/

set_option autoImplicit false

namespace Ndsl.Lib

/-- One execution: the actions it performed and the value it returned, `none` when it
stopped before returning. -/
@[ext]
structure Traced (ε : Type) (α : Type) where
  log : List ε
  value : Option α
  deriving Repr, DecidableEq

namespace Traced

variable {ε α β σ ι : Type}

/-- Sequencing: after a stop nothing more is performed. -/
protected def bind (x : Traced ε α) (f : α → Traced ε β) : Traced ε β :=
  match x.value with
  | none => ⟨x.log, none⟩
  | some a => ⟨x.log ++ (f a).log, (f a).value⟩

instance : Monad (Traced ε) where
  pure a := ⟨[], some a⟩
  bind := Traced.bind

/-- Perform the actions `es`. -/
def tell (es : List ε) : Traced ε Unit := ⟨es, some ()⟩

/-- Stop here. -/
def fault : Traced ε α := ⟨[], none⟩

/-- `x` performs exactly the actions `es` and returns `a`. -/
def Yields (x : Traced ε α) (es : List ε) (a : α) : Prop :=
  x.log = es ∧ x.value = some a

/-- The same execution, as one that performs other actions and returns another value. -/
def view {ε' : Type} (acts : ε → List ε') (f : α → β) (x : Traced ε α) : Traced ε' β :=
  ⟨x.log.flatMap acts, x.value.map f⟩

/-- The execution as one event: `event` makes it of the actions, and `after` is what is returned. -/
def record {ε' : Type} (x : Traced ε α) (event : List ε → ε') (after : α → List ε → β) :
    Traced ε' β :=
  match x.value with
  | none => ⟨[], none⟩
  | some a => ⟨[event x.log], some (after a x.log)⟩

/-! ### Taking a `do` block apart -/

@[simp] theorem log_pure (a : α) : (pure a : Traced ε α).log = [] := rfl

@[simp] theorem value_pure (a : α) : (pure a : Traced ε α).value = some a := rfl

@[simp] theorem log_tell (es : List ε) : (tell es).log = es := rfl

@[simp] theorem value_tell (es : List ε) : (tell es).value = some () := rfl

@[simp] theorem log_fault : (fault : Traced ε α).log = [] := rfl

@[simp] theorem value_fault : (fault : Traced ε α).value = none := rfl

theorem bind_of_none {x : Traced ε α} (f : α → Traced ε β) (h : x.value = none) :
    x >>= f = ⟨x.log, none⟩ := by
  show Traced.bind x f = _
  rw [Traced.bind, h]

theorem bind_of_some {x : Traced ε α} {a : α} (f : α → Traced ε β) (h : x.value = some a) :
    x >>= f = ⟨x.log ++ (f a).log, (f a).value⟩ := by
  show Traced.bind x f = _
  rw [Traced.bind, h]

theorem log_bind (x : Traced ε α) (f : α → Traced ε β) :
    (x >>= f).log = x.log ++ x.value.elim [] fun a => (f a).log := by
  cases hx : x.value with
  | none =>
      rw [bind_of_none f hx]
      exact (List.append_nil _).symm
  | some a => rw [bind_of_some f hx, Option.elim_some]

theorem value_bind (x : Traced ε α) (f : α → Traced ε β) :
    (x >>= f).value = x.value.bind fun a => (f a).value := by
  cases hx : x.value with
  | none => rw [bind_of_none f hx, Option.bind_none]
  | some a => rw [bind_of_some f hx, Option.bind_some]

@[simp] theorem pure_bind (a : α) (f : α → Traced ε β) : (pure a : Traced ε α) >>= f = f a := by
  rw [bind_of_some f (value_pure a)]
  rfl

@[simp] theorem fault_bind (f : α → Traced ε β) : (fault : Traced ε α) >>= f = fault := by
  rw [bind_of_none f value_fault]
  rfl

@[simp] theorem log_tell_bind (es : List ε) (f : Unit → Traced ε β) :
    (tell es >>= f).log = es ++ (f ()).log := by
  rw [bind_of_some f (value_tell es), log_tell]

@[simp] theorem value_tell_bind (es : List ε) (f : Unit → Traced ε β) :
    (tell es >>= f).value = (f ()).value := by
  rw [bind_of_some f (value_tell es)]

@[simp] theorem bind_pure (x : Traced ε α) : x >>= pure = x := by
  cases hx : x.value with
  | none =>
      rw [bind_of_none _ hx]
      exact congrArg (Traced.mk x.log) hx.symm
  | some a =>
      rw [bind_of_some _ hx, log_pure, value_pure, List.append_nil]
      exact congrArg (Traced.mk x.log) hx.symm

theorem bind_assoc {γ : Type} (x : Traced ε α) (f : α → Traced ε β) (g : β → Traced ε γ) :
    x >>= f >>= g = x >>= fun a => f a >>= g := by
  cases hx : x.value with
  | none =>
      rw [bind_of_none f hx, bind_of_none (fun a => f a >>= g) hx, bind_of_none g rfl]
  | some a =>
      rw [bind_of_some f hx, bind_of_some (fun a => f a >>= g) hx]
      cases hf : (f a).value with
      | none => rw [bind_of_none g rfl, bind_of_none g hf]
      | some b =>
          rw [bind_of_some g rfl, bind_of_some g hf]
          simp only [List.append_assoc]

/-- Two parts of a trace, one after the other. -/
theorem tell_nil_bind (f : Unit → Traced ε β) : tell [] >>= f = f () := by
  have h : (pure () : Traced ε Unit) >>= f = f () := pure_bind () f
  exact h

theorem tell_bind_tell_bind (es fs : List ε) (f : Unit → Traced ε β) :
    (tell es >>= fun _ => tell fs >>= f) = tell (es ++ fs) >>= f := by
  rw [bind_of_some _ (value_tell es), bind_of_some _ (value_tell fs),
    bind_of_some _ (value_tell (es ++ fs))]
  simp only [log_tell, List.append_assoc]

@[simp] theorem pure_yields (a b : α) (es : List ε) :
    (pure a : Traced ε α).Yields es b ↔ es = [] ∧ a = b := by
  simp [Yields, eq_comm]

@[simp] theorem tell_yields (es fs : List ε) (u : Unit) : (tell es).Yields fs u ↔ es = fs := by
  simp [Yields]

@[simp] theorem fault_yields (es : List ε) (a : α) : ¬ (fault : Traced ε α).Yields es a := by
  simp [Yields]

/-- A sequence returns exactly when both halves do, and its trace is theirs, in order. -/
theorem bind_yields {x : Traced ε α} {f : α → Traced ε β} {es : List ε} {b : β} :
    (x >>= f).Yields es b ↔
      ∃ fs a gs, x.Yields fs a ∧ (f a).Yields gs b ∧ es = fs ++ gs := by
  cases hx : x.value with
  | none =>
      rw [bind_of_none f hx]
      simp [Yields, hx]
  | some a =>
      rw [bind_of_some f hx]
      constructor
      · rintro ⟨hlog, hval⟩
        exact ⟨x.log, a, (f a).log, ⟨rfl, hx⟩, ⟨rfl, hval⟩, hlog.symm⟩
      · rintro ⟨fs, a', gs, ⟨hfs, ha⟩, ⟨hgs, hb⟩, rfl⟩
        rw [hx, Option.some.injEq] at ha
        subst ha
        exact ⟨by rw [hfs, hgs], hb⟩

/-- An execution that returns is its actions, and then what it returns. -/
theorem Yields.eq_tell_bind {x : Traced ε α} {es : List ε} {a : α} (h : x.Yields es a) :
    x = tell es >>= fun _ => pure a := by
  obtain ⟨rfl, hvalue⟩ := h
  rw [bind_of_some _ (value_tell _), log_tell, log_pure, List.append_nil, value_pure, ← hvalue]

/-- The trace of a sequence whose first half returns. -/
theorem Yields.log_bind {x : Traced ε α} {es : List ε} {a : α} (h : x.Yields es a)
    (f : α → Traced ε β) : (x >>= f).log = es ++ (f a).log := by
  rw [bind_of_some f h.2, h.1]

/-- What the first half performs, the sequence performs. -/
theorem mem_log_bind {x : Traced ε α} (f : α → Traced ε β) {e : ε} (h : e ∈ x.log) :
    e ∈ (x >>= f).log := by
  cases hx : x.value with
  | none => rwa [bind_of_none f hx]
  | some a =>
      rw [bind_of_some f hx]
      exact List.mem_append_left _ h

/-- What is performed first, the sequence performs. -/
theorem mem_log_tell_bind {es : List ε} (f : Unit → Traced ε β) {e : ε} (h : e ∈ es) :
    e ∈ (tell es >>= f).log := by
  rw [log_tell_bind]
  exact List.mem_append_left _ h

/-- Performing actions first only prepends them to the trace. -/
@[simp] theorem tell_bind_yields (es fs : List ε) (f : Unit → Traced ε β) (b : β) :
    (tell es >>= f).Yields fs b ↔ ∃ gs, (f ()).Yields gs b ∧ fs = es ++ gs := by
  rw [bind_yields]
  constructor
  · rintro ⟨es', _, gs, hes, hf, rfl⟩
    rw [tell_yields] at hes
    exact ⟨gs, hf, by rw [hes]⟩
  · rintro ⟨gs, hf, rfl⟩
    exact ⟨es, (), gs, by simp, hf, rfl⟩

/-- Actions and a value. -/
theorem tell_pure_yields (es fs : List ε) (a b : α) :
    (tell es >>= fun _ => pure a).Yields fs b ↔ fs = es ∧ a = b := by
  rw [tell_bind_yields]
  constructor
  · rintro ⟨gs, hpure, rfl⟩
    obtain ⟨rfl, rfl⟩ := (pure_yields ..).mp hpure
    exact ⟨List.append_nil es, rfl⟩
  · rintro ⟨rfl, rfl⟩
    exact ⟨[], ⟨rfl, rfl⟩, (List.append_nil fs).symm⟩

/-- One execution has one trace and one value. -/
theorem Yields.unique {x : Traced ε α} {es fs : List ε} {a b : α} (h : x.Yields es a)
    (h' : x.Yields fs b) : es = fs ∧ a = b :=
  ⟨h.1.symm.trans h'.1, Option.some.inj (h.2.symm.trans h'.2)⟩

/-- What an execution does in another view of it. -/
theorem view_yields {ε' : Type} {acts : ε → List ε'} {f : α → β} {x : Traced ε α} {es : List ε'}
    {b : β} : (x.view acts f).Yields es b ↔
      ∃ fs a, x.Yields fs a ∧ es = fs.flatMap acts ∧ f a = b := by
  constructor
  · rintro ⟨hlog, hvalue⟩
    obtain ⟨a, ha, hb⟩ := Option.map_eq_some_iff.mp hvalue
    exact ⟨x.log, a, ⟨rfl, ha⟩, hlog.symm, hb⟩
  · rintro ⟨fs, a, ⟨hlog, hvalue⟩, rfl, rfl⟩
    exact ⟨congrArg (List.flatMap acts) hlog, congrArg (Option.map f) hvalue⟩

/-- An execution as one event returns when the execution does. -/
theorem record_yields {ε' : Type} {x : Traced ε α} {event : List ε → ε'} {after : α → List ε → β}
    {es : List ε'} {b : β} : (x.record event after).Yields es b ↔
      ∃ acts a, x.Yields acts a ∧ es = [event acts] ∧ b = after a acts := by
  unfold record
  cases hvalue : x.value with
  | none =>
      refine iff_of_false (fun h => Option.some_ne_none b h.2.symm) ?_
      rintro ⟨acts, a, hx, -⟩
      exact Option.some_ne_none a (hx.2.symm.trans hvalue)
  | some a =>
      constructor
      · rintro ⟨rfl, hb⟩
        exact ⟨_, a, ⟨rfl, hvalue⟩, rfl, (Option.some.inj hb).symm⟩
      · rintro ⟨acts, a', ⟨rfl, ha⟩, rfl, rfl⟩
        obtain rfl := Option.some.inj (hvalue.symm.trans ha)
        exact ⟨rfl, rfl⟩

/-! ### Postconditions -/

/-- Whatever becomes of the execution `x`, its actions are all `ok`, and what it returns, if it
returns, is one of `post`. -/
structure Ensures (ok : ε → Prop) (post : α → Prop) (x : Traced ε α) : Prop where
  acts : ∀ e ∈ x.log, ok e
  value : ∀ a, x.value = some a → post a

namespace Ensures

variable {ok : ε → Prop} {post : α → Prop} {post' : β → Prop} {x : Traced ε α}

theorem pure {a : α} (h : post a) : Ensures ok post (pure a : Traced ε α) := by
  refine ⟨fun _ he => absurd he List.not_mem_nil, fun b hb => ?_⟩
  rwa [← Option.some.inj hb]

theorem fault : Ensures ok post (fault : Traced ε α) := by
  refine ⟨fun _ he => absurd he List.not_mem_nil, fun a ha => ?_⟩
  exact absurd ha.symm (Option.some_ne_none a)

/-- A sequence does what its halves do, and the second one knows what the first one returned. -/
theorem bind {f : α → Traced ε β} (hx : Ensures ok post x)
    (hf : ∀ a, post a → Ensures ok post' (f a)) : Ensures ok post' (x >>= f) := by
  cases hvalue : x.value with
  | none =>
      rw [bind_of_none f hvalue]
      exact ⟨hx.acts, fun b hb => absurd hb.symm (Option.some_ne_none b)⟩
  | some a =>
      have hrest := hf a (hx.value a hvalue)
      rw [bind_of_some f hvalue]
      refine ⟨fun e he => ?_, hrest.value⟩
      exact (List.mem_append.mp he).elim (hx.acts e) (hrest.acts e)

theorem tell_bind {es : List ε} {f : Unit → Traced ε β} (hes : ∀ e ∈ es, ok e)
    (hf : Ensures ok post' (f ())) : Ensures ok post' (tell es >>= f) := by
  have htell : Ensures ok (fun _ => True) (tell es) := ⟨hes, fun _ _ => trivial⟩
  exact htell.bind fun _ _ => hf

/-- A loop does what its steps do, as long as each of them finds what it needs. -/
theorem foldlM_of_mem {post : σ → Prop} {step : σ → ι → Traced ε σ} (is : List ι)
    (hstep : ∀ s, ∀ i ∈ is, post s → Ensures ok post (step s i)) :
    ∀ {s : σ}, post s → Ensures ok post (is.foldlM step s) := by
  induction is with
  | nil => exact fun hs => .pure hs
  | cons i is ih =>
      intro s hs
      rw [List.foldlM_cons]
      have hrest : ∀ s, ∀ j ∈ is, post s → Ensures ok post (step s j) :=
        fun s j hj => hstep s j (List.mem_cons_of_mem i hj)
      exact (hstep s i List.mem_cons_self hs).bind fun t ht => ih hrest ht

theorem foldlM {post : σ → Prop} {step : σ → ι → Traced ε σ}
    (hstep : ∀ s i, post s → Ensures ok post (step s i)) (is : List ι) {s : σ} (hs : post s) :
    Ensures ok post (is.foldlM step s) :=
  foldlM_of_mem is (fun s i _ => hstep s i) hs

theorem mono {ok' : ε → Prop} {post'' : α → Prop} (h : Ensures ok post x)
    (hok : ∀ e, ok e → ok' e) (hpost : ∀ a, post a → post'' a) : Ensures ok' post'' x :=
  ⟨fun e he => hok e (h.acts e he), fun a ha => hpost a (h.value a ha)⟩

/-- What is known of an execution that returns. -/
theorem of_yields {es : List ε} {a : α} (h : Ensures ok post x) (hx : x.Yields es a) :
    (∀ e ∈ es, ok e) ∧ post a :=
  ⟨hx.1 ▸ h.acts, h.value a hx.2⟩

/-- In another view the actions are those that the actions stand for. -/
theorem view {ε' : Type} {ok' : ε' → Prop} {acts : ε → List ε'} {f : α → β}
    (h : Ensures ok post x) (hok : ∀ e, ok e → ∀ e' ∈ acts e, ok' e')
    (hpost : ∀ a, post a → post' (f a)) : Ensures ok' post' (x.view acts f) := by
  constructor
  · intro e' he'
    obtain ⟨e, he, hmem⟩ := List.mem_flatMap.mp he'
    exact hok e (h.acts e he) e' hmem
  · intro b hb
    obtain ⟨a, ha, rfl⟩ := Option.map_eq_some_iff.mp hb
    exact hpost a (h.value a ha)

end Ensures

/-! ### Two executions -/

/-- As long as the execution `x` does what is `ok`, the execution `y` does the same, and comes to a
related value. -/
def Together (ok : ε → Prop) (rel : α → α → Prop) (x y : Traced ε α) : Prop :=
  (∀ e ∈ x.log, ok e) → y.log = x.log ∧ Option.Rel rel x.value y.value

namespace Together

variable {ok : ε → Prop} {rel : α → α → Prop} {rel' : β → β → Prop} {x y : Traced ε α}

theorem pure {a b : α} (h : rel a b) :
    Together ok rel (pure a : Traced ε α) (pure b : Traced ε α) :=
  fun _ => ⟨rfl, .some h⟩

theorem fault : Together ok rel (fault : Traced ε α) (fault : Traced ε α) := fun _ => ⟨rfl, .none⟩

theorem bind {f g : α → Traced ε β} (hx : Together ok rel x y)
    (hf : ∀ a b, rel a b → Together ok rel' (f a) (g b)) :
    Together ok rel' (x >>= f) (y >>= g) := by
  intro hok
  obtain ⟨hlog, hvalue⟩ := hx fun e he => hok e (mem_log_bind f he)
  cases hxv : x.value with
  | none =>
      rw [hxv] at hvalue
      cases hyv : y.value with
      | none =>
          rw [bind_of_none f hxv, bind_of_none g hyv]
          exact ⟨hlog, .none⟩
      | some b =>
          rw [hyv] at hvalue
          cases hvalue
  | some a =>
      rw [hxv] at hvalue
      cases hyv : y.value with
      | none =>
          rw [hyv] at hvalue
          cases hvalue
      | some b =>
          rw [hyv] at hvalue
          cases hvalue with
          | some hab =>
              rw [bind_of_some f hxv] at hok ⊢
              rw [bind_of_some g hyv]
              have hrest := hf a b hab fun e he => hok e (List.mem_append_right _ he)
              refine ⟨?_, hrest.2⟩
              show y.log ++ (g b).log = x.log ++ (f a).log
              rw [hlog, hrest.1]

theorem tell_bind {es : List ε} {f g : Unit → Traced ε β}
    (hf : (∀ e ∈ es, ok e) → Together ok rel' (f ()) (g ())) :
    Together ok rel' (tell es >>= f) (tell es >>= g) := by
  intro hok
  rw [log_tell_bind, List.forall_mem_append] at hok
  obtain ⟨hlog, hvalue⟩ := hf hok.1 hok.2
  rw [log_tell_bind, log_tell_bind, value_tell_bind, value_tell_bind, hlog]
  exact ⟨rfl, hvalue⟩

end Together

/-- Two executions that do the same and come to related values, or stop at the same place. -/
def Simulates (rel : α → β → Prop) (x : Traced ε α) (y : Traced ε β) : Prop :=
  y.log = x.log ∧ Option.Rel rel x.value y.value

namespace Simulates

variable {γ δ : Type} {rel : α → β → Prop} {rel' : γ → δ → Prop} {x : Traced ε α} {y : Traced ε β}

theorem pure {a : α} {b : β} (h : rel a b) :
    Simulates rel (pure a : Traced ε α) (pure b : Traced ε β) := ⟨rfl, .some h⟩

theorem refl (x : Traced ε α) : Simulates Eq x x := by
  refine ⟨rfl, ?_⟩
  cases x.value with
  | none => exact .none
  | some a => exact .some rfl

theorem bind {f : α → Traced ε γ} {g : β → Traced ε δ} (hx : Simulates rel x y)
    (hf : ∀ a b, rel a b → Simulates rel' (f a) (g b)) : Simulates rel' (x >>= f) (y >>= g) := by
  obtain ⟨hlog, hvalue⟩ := hx
  cases hxv : x.value with
  | none =>
      rw [hxv] at hvalue
      cases hyv : y.value with
      | none =>
          rw [bind_of_none f hxv, bind_of_none g hyv]
          exact ⟨hlog, .none⟩
      | some b =>
          rw [hyv] at hvalue
          cases hvalue
  | some a =>
      rw [hxv] at hvalue
      cases hyv : y.value with
      | none =>
          rw [hyv] at hvalue
          cases hvalue
      | some b =>
          rw [hyv] at hvalue
          cases hvalue with
          | some hab =>
              rw [bind_of_some f hxv, bind_of_some g hyv]
              obtain ⟨hrest, hlast⟩ := hf a b hab
              refine ⟨?_, hlast⟩
              show y.log ++ (g b).log = x.log ++ (f a).log
              rw [hlog, hrest]

/-- Two executions that return. -/
theorem of_yields {es : List ε} {a : α} {b : β} (hx : x.Yields es a) (hy : y.Yields es b)
    (h : rel a b) : Simulates rel x y := by
  refine ⟨hy.1.trans hx.1.symm, ?_⟩
  rw [hx.2, hy.2]
  exact .some h

/-- What the second execution performs, the first one performs as well. -/
theorem back {es : List ε} {b : β} (h : Simulates rel x y) (hy : y.Yields es b) :
    ∃ a, x.Yields es a ∧ rel a b := by
  obtain ⟨hlog, hvalue⟩ := h
  rw [hy.2] at hvalue
  cases hxv : x.value with
  | none =>
      rw [hxv] at hvalue
      cases hvalue
  | some a =>
      rw [hxv] at hvalue
      cases hvalue with
      | some hab => exact ⟨a, ⟨hlog.symm.trans hy.1, hxv⟩, hab⟩

end Simulates

/-! ### `while` loops -/

section While
variable (cond : σ → Bool) (body : σ → Traced ε σ)

/-- At most `fuel` iterations of `while (cond) body`. The state returned is the one at which
the condition failed, or the one at which the fuel ran out. -/
def whileFuel : Nat → σ → Traced ε σ
  | 0, s => pure s
  | fuel + 1, s => if cond s then body s >>= whileFuel fuel else pure s

/-- `while (cond) body` started at `s` performs `es` and ends at `s'`. -/
inductive While : σ → List ε → σ → Prop
  | stop {s : σ} : cond s = false → While s [] s
  | step {s s' s'' : σ} {es fs : List ε} : cond s = true → (body s).Yields es s' →
      While s' fs s'' → While s (es ++ fs) s''

/-- The states at the head of the loop: `Visits n s s'` when `n` iterations lead from `s` to
`s'`, each begun with the condition true. -/
inductive Visits : Nat → σ → σ → Prop
  | zero {s : σ} : Visits 0 s s
  | succ {n : Nat} {s s' s'' : σ} {es : List ε} : cond s = true → (body s).Yields es s' →
      Visits n s' s'' → Visits (n + 1) s s''

variable {cond body}

/-- The condition is false where the loop ends. -/
theorem While.cond_eq_false {s s' : σ} {es : List ε} (h : While cond body s es s') :
    cond s' = false := by
  induction h with
  | stop hc => exact hc
  | step _ _ _ ih => exact ih

/-- A loop whose condition is already false does nothing. -/
theorem While.of_false {s s' : σ} {es : List ε} (hc : cond s = false)
    (h : While cond body s es s') : es = [] ∧ s' = s := by
  cases h with
  | stop _ => exact ⟨rfl, rfl⟩
  | step hc' _ _ => exact absurd (hc.symm.trans hc') (by simp)

/-- A loop whose condition is true begins with one run of its body. -/
theorem While.of_true {s s' : σ} {es : List ε} (hc : cond s = true)
    (h : While cond body s es s') :
    ∃ fs t gs, (body s).Yields fs t ∧ While cond body t gs s' ∧ es = fs ++ gs := by
  cases h with
  | stop hc' => exact absurd (hc'.symm.trans hc) (by simp)
  | step _ hb hw => exact ⟨_, _, _, hb, hw, rfl⟩

/-- The loop is deterministic. -/
theorem While.unique {s s' t : σ} {es fs : List ε} (h : While cond body s es s')
    (h' : While cond body s fs t) : es = fs ∧ s' = t := by
  induction h generalizing fs with
  | stop hc =>
      obtain ⟨rfl, rfl⟩ := h'.of_false hc
      exact ⟨rfl, rfl⟩
  | step hc hb _ ih =>
      obtain ⟨_, _, _, hb', hw', rfl⟩ := h'.of_true hc
      obtain ⟨rfl, rfl⟩ := hb.unique hb'
      obtain ⟨rfl, rfl⟩ := ih hw'
      exact ⟨rfl, rfl⟩

/-- The loop with fuel, at a state where the condition fails, is a derivation. -/
theorem While.of_fuel {fuel : Nat} : ∀ {s s' : σ} {es : List ε},
    (whileFuel cond body fuel s).Yields es s' → cond s' = false → While cond body s es s' := by
  induction fuel with
  | zero =>
      intro s s' es h hc
      obtain ⟨rfl, rfl⟩ := (pure_yields _ _ _).mp h
      exact .stop hc
  | succ fuel ih =>
      intro s s' es h hc
      rw [whileFuel] at h
      cases hs : cond s with
      | false =>
          rw [hs] at h
          obtain ⟨rfl, rfl⟩ := (pure_yields _ _ _).mp (by simpa using h)
          exact .stop hc
      | true =>
          rw [hs, if_pos rfl, bind_yields] at h
          obtain ⟨fs, t, gs, hb, hrest, rfl⟩ := h
          exact .step hs hb (ih hrest hc)

/-- More fuel than a loop needs changes nothing. -/
theorem While.fuel_mono {s s' : σ} {es : List ε} (h : While cond body s es s') :
    ∃ fuel₀, ∀ fuel, fuel₀ ≤ fuel → (whileFuel cond body fuel s).Yields es s' := by
  induction h with
  | @stop s hc =>
      refine ⟨0, fun fuel _ => ?_⟩
      cases fuel with
      | zero => exact ⟨rfl, rfl⟩
      | succ fuel => simp [whileFuel, hc]
  | step hc hb _ ih =>
      obtain ⟨fuel₀, hfuel⟩ := ih
      refine ⟨fuel₀ + 1, fun fuel hle => ?_⟩
      obtain ⟨fuel, rfl⟩ : ∃ n, fuel = n + 1 := ⟨fuel - 1, by omega⟩
      rw [whileFuel, hc, if_pos rfl, bind_yields]
      exact ⟨_, _, _, hb, hfuel fuel (by omega), rfl⟩

/-- The loop ends at `s'` with trace `es` exactly when some amount of fuel gets it there. -/
theorem While.iff_fuel {s s' : σ} {es : List ε} :
    While cond body s es s' ↔
      ∃ fuel, (whileFuel cond body fuel s).Yields es s' ∧ cond s' = false :=
  ⟨fun h => h.fuel_mono.imp fun fuel₀ hf => ⟨hf fuel₀ (Nat.le_refl _), h.cond_eq_false⟩,
    fun ⟨_, hf, hc⟩ => .of_fuel hf hc⟩

/-- One more iteration. -/
theorem Visits.snoc {n : Nat} {s t u : σ} {es : List ε} (hv : Visits cond body n s t)
    (hc : cond t = true) (hb : (body t).Yields es u) : Visits cond body (n + 1) s u := by
  induction hv with
  | zero => exact .succ hc hb .zero
  | succ hc' hb' _ ih => exact .succ hc' hb' (ih hc hb)

/-- A loop that ends goes on to its end from every state it visits. -/
theorem Visits.while_of {n : Nat} {s t s' : σ} {es : List ε} (hv : Visits cond body n s t)
    (h : While cond body s es s') : ∃ fs, While cond body t fs s' := by
  induction hv generalizing es with
  | zero => exact ⟨es, h⟩
  | succ hc hb _ ih =>
      obtain ⟨_, _, _, hb', hw, rfl⟩ := h.of_true hc
      obtain ⟨rfl, rfl⟩ := hb.unique hb'
      exact ih hw

/-- What an iteration preserves holds of every state the loop visits. -/
theorem Visits.invariant {P : σ → Prop}
    (hstep : ∀ s es s', P s → cond s = true → (body s).Yields es s' → P s') {n : Nat} {s t : σ}
    (hv : Visits cond body n s t) (hs : P s) : P t := by
  induction hv with
  | zero => exact hs
  | succ hc hb _ ih => exact ih (hstep _ _ _ hs hc hb)

/-- Every action of the loop, however much fuel it is given, is one of an iteration begun at
a state the loop visits with its condition true. -/
theorem mem_log_whileFuel {fuel : Nat} {s : σ} {e : ε}
    (h : e ∈ (whileFuel cond body fuel s).log) :
    ∃ n t, Visits cond body n s t ∧ cond t = true ∧ e ∈ (body t).log := by
  induction fuel generalizing s with
  | zero => simp [whileFuel] at h
  | succ fuel ih =>
      rw [whileFuel] at h
      cases hs : cond s with
      | false => simp [hs] at h
      | true =>
          rw [hs, if_pos rfl] at h
          cases hb : (body s).value with
          | none =>
              rw [bind_of_none _ hb] at h
              exact ⟨0, s, .zero, hs, h⟩
          | some t =>
              rw [bind_of_some _ hb, List.mem_append] at h
              rcases h with h | h
              · exact ⟨0, s, .zero, hs, h⟩
              · obtain ⟨n, u, hv, hu, he⟩ := ih h
                exact ⟨n + 1, u, .succ hs ⟨rfl, hb⟩ hv, hu, he⟩

/-- Conversely, the actions of every iteration the loop begins are in its trace, given enough
fuel. -/
theorem Visits.log_subset {n : Nat} {s t : σ} (hv : Visits cond body n s t)
    (ht : cond t = true) {e : ε} (he : e ∈ (body t).log) :
    e ∈ (whileFuel cond body (n + 1) s).log := by
  induction hv with
  | @zero s =>
      rw [whileFuel, ht, if_pos rfl]
      cases hb : (body s).value with
      | none => rw [bind_of_none _ hb]; exact he
      | some u => rw [bind_of_some _ hb]; exact List.mem_append_left _ he
  | succ hc hb _ ih =>
      rw [whileFuel, hc, if_pos rfl, bind_of_some _ hb.2]
      exact List.mem_append_right _ (ih ht he)

end While

/-! ### Logs -/

/-- A projection of a log sees nothing in events that it leaves out. -/
theorem filterMap_append_of_none {f : ε → Option β} {log es : List ε}
    (h : ∀ e ∈ es, f e = none) : (log ++ es).filterMap f = log.filterMap f := by
  rw [List.filterMap_append, List.filterMap_eq_nil_iff.mpr h, List.append_nil]

/-! ### Runs over a list of inputs -/

/-- What one step preserves of the state and the trace so far, a whole run preserves. -/
theorem foldlM_yields_invariant {step : σ → ι → Traced ε σ} {P : σ → List ε → Prop}
    (hstep : ∀ s log i s' es, P s log → (step s i).Yields es s' → P s' (log ++ es)) :
    ∀ {is : List ι} {s s' : σ} {log es : List ε}, P s log →
      (is.foldlM step s).Yields es s' → P s' (log ++ es) := by
  intro is
  induction is with
  | nil =>
      intro s s' log es hP h
      rw [List.foldlM_nil, pure_yields] at h
      obtain ⟨rfl, rfl⟩ := h
      rwa [List.append_nil]
  | cons i is ih =>
      intro s s' log es hP h
      rw [List.foldlM_cons, bind_yields] at h
      obtain ⟨fs, t, gs, hi, hrest, rfl⟩ := h
      rw [← List.append_assoc]
      exact ih (hstep _ _ _ _ _ hP hi) hrest

/-- The same of a run whose trace is new. -/
theorem foldlM_yields_of_nil {step : σ → ι → Traced ε σ} {P : σ → List ε → Prop}
    (hstep : ∀ s log i s' es, P s log → (step s i).Yields es s' → P s' (log ++ es))
    {is : List ι} {s s' : σ} {es : List ε} (hP : P s []) (h : (is.foldlM step s).Yields es s') :
    P s' es := by
  have hend := foldlM_yields_invariant hstep hP h
  rwa [List.nil_append] at hend

/-- A run over two lists of inputs is a run over each of them. -/
theorem foldlM_append_yields {step : σ → ι → Traced ε σ} {is js : List ι} {s s' : σ}
    {es : List ε} : ((is ++ js).foldlM step s).Yields es s' ↔
      ∃ fs t gs, (is.foldlM step s).Yields fs t ∧ (js.foldlM step t).Yields gs s' ∧
        es = fs ++ gs := by
  induction is generalizing s es with
  | nil =>
      rw [List.nil_append, List.foldlM_nil]
      constructor
      · intro h
        exact ⟨[], s, es, ⟨rfl, rfl⟩, h, rfl⟩
      · rintro ⟨fs, t, gs, hnil, h, rfl⟩
        obtain ⟨rfl, rfl⟩ := (pure_yields ..).mp hnil
        exact h
  | cons i is ih =>
      rw [List.cons_append, List.foldlM_cons, List.foldlM_cons, bind_yields]
      constructor
      · rintro ⟨fs, t, gs, hi, hrest, rfl⟩
        obtain ⟨gs, u, ks, his, hjs, rfl⟩ := ih.mp hrest
        refine ⟨fs ++ gs, u, ks, bind_yields.mpr ⟨fs, t, gs, hi, his, rfl⟩, hjs, ?_⟩
        rw [List.append_assoc]
      · rintro ⟨fs, u, ks, hfirst, hjs, rfl⟩
        obtain ⟨fs, t, gs, hi, his, rfl⟩ := bind_yields.mp hfirst
        refine ⟨fs, t, gs ++ ks, hi, ih.mpr ⟨gs, u, ks, his, hjs, rfl⟩, ?_⟩
        rw [List.append_assoc]

/-- A sequence does what is `ok` exactly when its halves do. -/
theorem forall_log_bind {ok : ε → Prop} {x : Traced ε α} {f : α → Traced ε β} :
    (∀ e ∈ (x >>= f).log, ok e) ↔
      (∀ e ∈ x.log, ok e) ∧ ∀ es a, x.Yields es a → ∀ e ∈ (f a).log, ok e := by
  cases hx : x.value with
  | none =>
      rw [bind_of_none f hx]
      refine ⟨fun h => ⟨h, fun es a ha => ?_⟩, And.left⟩
      exact absurd (hx.symm.trans ha.2) (Option.some_ne_none a).symm
  | some a =>
      have hyields : ∀ es b, x.Yields es b → b = a :=
        fun es b hb => Option.some.inj (hb.2.symm.trans hx)
      rw [bind_of_some f hx, List.forall_mem_append]
      refine and_congr_right fun _ => ⟨fun h es b hb => ?_, fun h => h _ a ⟨rfl, hx⟩⟩
      rwa [hyields es b hb]

/-- `Always P step s log l`: `P` holds after every part of a run over the inputs `l`, which
begins in `s` with the trace `log`. -/
def Always (P : List ε → Prop) (step : σ → ι → Traced ε σ) (s : σ) (log : List ε)
    (l : List ι) : Prop :=
  ∀ l' es t, l' <+: l → (l'.foldlM step s).Yields es t → P (log ++ es)

section Always
variable {P : List ε → Prop} {step : σ → ι → Traced ε σ} {s s' : σ} {log es : List ε}

/-- It holds before the first step. -/
theorem Always.now {l : List ι} (h : Always P step s log l) : P log := by
  have := h [] [] s List.nil_prefix ⟨rfl, rfl⟩
  rwa [List.append_nil] at this

theorem always_nil : Always P step s log [] ↔ P log := by
  constructor
  · exact Always.now
  · rintro h l' es t hpre hrun
    obtain rfl := List.prefix_nil.mp hpre
    obtain ⟨rfl, -⟩ := (pure_yields ..).mp hrun
    rwa [List.append_nil]

/-- `Always` takes its first step. -/
theorem always_cons {i : ι} {l : List ι} (hstep : (step s i).Yields es s') :
    Always P step s log (i :: l) ↔ P log ∧ Always P step s' (log ++ es) l := by
  constructor
  · intro h
    refine ⟨h.now, fun l' fs t hpre hrun => ?_⟩
    rw [List.append_assoc]
    refine h (i :: l') (es ++ fs) t (List.cons_prefix_cons.mpr ⟨rfl, hpre⟩) ?_
    rw [List.foldlM_cons, bind_yields]
    exact ⟨es, s', fs, hstep, hrun, rfl⟩
  · rintro ⟨hP, h⟩ l' fs t hpre hrun
    cases l' with
    | nil =>
        obtain ⟨rfl, -⟩ := (pure_yields ..).mp hrun
        rwa [List.append_nil]
    | cons i' l' =>
        obtain ⟨rfl, htail⟩ := List.cons_prefix_cons.mp hpre
        rw [List.foldlM_cons, bind_yields] at hrun
        obtain ⟨es', s'', gs, hstep', hrest, rfl⟩ := hrun
        obtain ⟨rfl, rfl⟩ := hstep.unique hstep'
        rw [← List.append_assoc]
        exact h l' gs t htail hrest

end Always

/-! ### Guarded runs -/

section Run
variable (step : σ → ι → Traced ε σ) (ok : σ → ι → Prop)

/-- `Run s l log s'`: the inputs `l`, each of which meets `ok` in the state that it finds,
lead from `s` to `s'` and leave the trace `log`. -/
inductive Run (s : σ) : List ι → List ε → σ → Prop
  | nil : Run s [] [] s
  | snoc {l : List ι} {i : ι} {log es : List ε} {t u : σ} : Run s l log t → ok t i →
      (step t i).Yields es u → Run s (l ++ [i]) (log ++ es) u

variable {step ok}

/-- What a step that meets the guard preserves holds of every state a guarded run reaches. -/
theorem Run.invariant {s : σ} {P : List ι → List ε → σ → Prop} (hnil : P [] [] s)
    (hsnoc : ∀ l log t i es u, P l log t → ok t i → (step t i).Yields es u →
      P (l ++ [i]) (log ++ es) u)
    {l : List ι} {log : List ε} {t : σ} (h : Run step ok s l log t) : P l log t := by
  induction h with
  | nil => exact hnil
  | snoc _ hok hstep ih => exact hsnoc _ _ _ _ _ _ ih hok hstep

/-- A run without inputs stays where it is. -/
theorem Run.eq_of_nil {s t : σ} {inputs : List ι} {log : List ε}
    (h : Run step ok s inputs log t) (hnil : inputs = []) : log = [] ∧ t = s := by
  cases h with
  | nil => exact ⟨rfl, rfl⟩
  | snoc => exact absurd hnil (List.append_ne_nil_of_right_ne_nil _ (List.cons_ne_nil _ _))

/-- A run that takes an input takes it first. -/
theorem Run.uncons {s u : σ} {i : ι} {l : List ι} {log : List ε}
    (h : Run step ok s (i :: l) log u) :
    ∃ es t log', ok s i ∧ (step s i).Yields es t ∧ Run step ok t l log' u ∧ log = es ++ log' := by
  -- the induction is on the last input, so the inputs are any list that begins with `i`
  have hgen : ∀ {inputs : List ι} {log : List ε} {u : σ}, Run step ok s inputs log u →
      ∀ l, inputs = i :: l → ∃ es t log', ok s i ∧ (step s i).Yields es t ∧
        Run step ok t l log' u ∧ log = es ++ log' := by
    intro inputs log u hrun
    induction hrun with
    | nil => exact fun l heq => absurd heq (List.cons_ne_nil i l).symm
    | @snoc front j log es t u hrun hok hstep ih =>
        intro l heq
        cases front with
        | nil =>
            obtain ⟨rfl, rfl⟩ := List.cons.inj heq
            obtain ⟨rfl, rfl⟩ := hrun.eq_of_nil rfl
            exact ⟨es, u, [], hok, hstep, .nil, (List.append_nil es).symm⟩
        | cons _ front =>
            obtain ⟨rfl, rfl⟩ := List.cons.inj heq
            obtain ⟨es', t', log', hok', hstep', hrun', rfl⟩ := ih front rfl
            exact ⟨es', t', log' ++ es, hok', hstep', .snoc hrun' hok hstep,
              List.append_assoc ..⟩
  exact hgen h l rfl

/-- A run under a guard is a run under every weaker one. -/
theorem Run.mono {ok' : σ → ι → Prop} (himp : ∀ s i, ok s i → ok' s i) {s t : σ}
    {l : List ι} {log : List ε} (h : Run step ok s l log t) : Run step ok' s l log t := by
  induction h with
  | nil => exact .nil
  | snoc _ hok hstep ih => exact .snoc ih (himp _ _ hok) hstep

end Run

end Traced

end Ndsl.Lib
