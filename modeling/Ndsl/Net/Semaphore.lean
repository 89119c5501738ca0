import Ndsl.Lib.Monitor

/-!
# `Ndsl.Net.Semaphore`: the counting semaphore

`Semaphore.cc`: `take` and `give` of any amount, by any threads. A thread stands in front of one of
the statements of the two functions, and a step executes one statement of one thread.
-/

set_option autoImplicit false

namespace Ndsl.Net

open Ndsl.Lib

namespace Semaphore

/-- The statement that a thread executes next. -/
inductive Pc
  /-- Not in a call. -/
  | outside
  /-- `take(r)`: `pthread_mutex_lock`. -/
  | takeLock (r : Nat)
  /-- `while (resources_ < r)`. -/
  | takeTest (r : Nat)
  /-- Blocked in `pthread_cond_wait`. -/
  | takeWait (r : Nat)
  /-- Woken, and about to get the mutex back. -/
  | takeRelock (r : Nat)
  /-- `resources_ -= r`. -/
  | takeSub (r : Nat)
  /-- `if (resources_ > 0) pthread_cond_signal`, in `take`. -/
  | takeSignal
  /-- `give(r)`: `pthread_mutex_lock`. -/
  | giveLock (r : Nat)
  /-- `resources_ += r`. -/
  | giveAdd (r : Nat)
  /-- `if (resources_ > 0) pthread_cond_signal`, in `give`. -/
  | giveSignal
  /-- `pthread_mutex_unlock`, in both. -/
  | unlock
  deriving Repr, DecidableEq

/-- A semaphore and the threads that use it. `cond_` is the threads that wait. -/
structure State (τ : Type) where
  /-- An `unsigned int`. -/
  resources_ : Nat
  mutex_ : Option τ := none
  pc : τ → Pc := fun _ => .outside

/-- Where a thread that waits stands when it is woken. -/
def woken : Pc → Option Pc
  | .takeWait r => some (.takeRelock r)
  | _ => none

variable {τ : Type} [DecidableEq τ]

/-- The thread `t` goes on to `k`. -/
def State.goto (s : State τ) (t : τ) (k : Pc) : State τ := { s with pc := Function.update s.pc t k }

/-- One step, and the thread that `pthread_cond_signal` wakes in it. -/
inductive Step (s : State τ) : Option τ → State τ → Prop
  | take (t : τ) (r : Nat) : r < 2 ^ 32 → s.pc t = .outside → Step s none (s.goto t (.takeLock r))
  | takeLock (t : τ) (r : Nat) : s.pc t = .takeLock r → s.mutex_ = none →
      Step s none { s.goto t (.takeTest r) with mutex_ := some t }
  | takeWait (t : τ) (r : Nat) : s.pc t = .takeTest r → s.resources_ < r →
      Step s none { s.goto t (.takeWait r) with mutex_ := none }
  /-- `pthread_cond_wait` may return without a signal. -/
  | takeSpurious (t : τ) (r : Nat) : s.pc t = .takeWait r → Step s none (s.goto t (.takeRelock r))
  | takeRelock (t : τ) (r : Nat) : s.pc t = .takeRelock r → s.mutex_ = none →
      Step s none { s.goto t (.takeTest r) with mutex_ := some t }
  | takeEnough (t : τ) (r : Nat) : s.pc t = .takeTest r → ¬ s.resources_ < r →
      Step s none (s.goto t (.takeSub r))
  | takeSub (t : τ) (r : Nat) : s.pc t = .takeSub r →
      Step s none { s.goto t .takeSignal with resources_ := (s.resources_ + 2 ^ 32 - r) % 2 ^ 32 }
  | give (t : τ) (r : Nat) : r < 2 ^ 32 → s.pc t = .outside → Step s none (s.goto t (.giveLock r))
  | giveLock (t : τ) (r : Nat) : s.pc t = .giveLock r → s.mutex_ = none →
      Step s none { s.goto t (.giveAdd r) with mutex_ := some t }
  | giveAdd (t : τ) (r : Nat) : s.pc t = .giveAdd r →
      Step s none { s.goto t .giveSignal with resources_ := (s.resources_ + r) % 2 ^ 32 }
  | signal (t : τ) (choice : Option τ) (pc : τ → Pc) : s.pc t = .takeSignal ∨ s.pc t = .giveSignal →
      s.resources_ > 0 → Monitor.Signals woken s.pc choice pc →
      Step s choice (State.goto { s with pc := pc } t .unlock)
  | quiet (t : τ) : s.pc t = .takeSignal ∨ s.pc t = .giveSignal → ¬ s.resources_ > 0 →
      Step s none (s.goto t .unlock)
  | unlock (t : τ) : s.pc t = .unlock → Step s none { s.goto t .outside with mutex_ := none }

end Semaphore

end Ndsl.Net
