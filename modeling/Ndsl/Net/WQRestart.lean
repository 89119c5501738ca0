import Ndsl.Net.Basic
import Ndsl.Net.WQThreadpool

/-!
# `Ndsl.Net.WQRestart`: the pool of worker threads, started and quit again

`WQThreadpool.cc` from the constructor on: one thread calls `setMaxThreads`, `start`, `addWork` and
`quit`, and the workers run `doWork` beside it. `Ndsl.Net.WQThreadpool` has the time between one
`start` and its `quit`, with many clients. Here the `Thread` objects are kept apart from the threads
that they stand for, so that it can be said which of them a pointer in `vThreads` still means.

A `Thread` is the number of the `new` that made it.
-/

set_option autoImplicit false

namespace Ndsl.Net.WQRestart

open Ndsl.Lib
open Ndsl.Net.WQThreadpool (Item Worker)

/-- Where the thread stands that owns the pool. -/
inductive Caller
  | outside
  /-- In the loop of `start`. -/
  | starting (i : Nat)
  /-- In the first loop of `quit`. -/
  | adding (i : Nat)
  /-- In the second one. -/
  | joining (i : Nat)
  /-- It has joined through a pointer to a `Thread` that was deleted, or one that has no thread. -/
  | undefined
  deriving Repr, DecidableEq

/-- `WQThreadpool`, and what has been done so far. -/
structure Pool where
  maxThreads_ : Int
  isRunning_ : Bool := false
  workqueue_ : List Item := []
  vThreads : List Nat := []
  /-- The thread of each `Thread`, if `pthread_create` made one. -/
  threads : Nat → Option Worker := fun _ => none
  /-- The number of the next `new Thread`. -/
  fresh : Nat := 0
  caller : Caller := .outside
  /-- What the last call returned. -/
  ret : Int := S_OK
  /-- The `Thread`s that the last `start` has made. -/
  created : List Nat := []
  /-- The `Thread`s that the last `quit` has joined. -/
  joinedNow : List Nat := []
  /-- All that were joined. -/
  joined : List Nat := []
  /-- All that were deleted. -/
  deleted : List Nat := []

/-- Where a thread that waits stands when it is woken. -/
def woken : Option Worker → Option (Option Worker)
  | some .wait => some (some .lock)
  | _ => none

/-- `if (workqueue_.size() > 0) pthread_cond_signal(&cond_)` leads to `threads`. -/
def SignalsMore (s : Pool) (items : List Item) (threads : Nat → Option Worker) : Prop :=
  if items.length > 0 then ∃ choice, Monitor.Signals woken s.threads choice threads
  else threads = s.threads

/-- `WQThreadpool::setMaxThreads`. -/
def Pool.setMaxThreads (s : Pool) (maxThreads : Int) : Pool :=
  if s.isRunning_ then { s with ret := S_FALSE }
  else if maxThreads > s.maxThreads_ then { s with ret := S_FALSE }
  else { s with maxThreads_ := maxThreads, ret := S_OK }

/-- A call of the owner. The item is the number of its work, or `NULL`. -/
inductive Call
  | setMaxThreads (maxThreads : Int)
  | start
  | addWork (item : Option Nat)
  | quit
  deriving Repr, DecidableEq

/-- Who takes a step. -/
inductive Move
  | call (call : Call)
  /-- The owner goes on in its call. -/
  | go
  | worker (thread : Nat)
  deriving Repr, DecidableEq

/-- One step. What a thread does while it holds `mutex_` is one step. -/
inductive Step (s : Pool) : Move → Pool → Prop
  | setMaxThreads (maxThreads : Int) : s.caller = .outside →
      Step s (.call (.setMaxThreads maxThreads)) (s.setMaxThreads maxThreads)
  | startRefused : s.caller = .outside → s.isRunning_ = true →
      Step s (.call .start) { s with ret := S_FALSE }
  | start : s.caller = .outside → s.isRunning_ = false →
      Step s (.call .start) { s with caller := .starting 0, created := [] }
  /-- `new Thread`, `run`, whose result nothing looks at, and `push_back`. -/
  | create (i : Nat) (ok : Bool) : s.caller = .starting i → i < s.maxThreads_ →
      Step s .go { s with
        vThreads := s.vThreads ++ [s.fresh]
        threads := Function.update s.threads s.fresh (if ok then some .lock else none)
        fresh := s.fresh + 1
        created := s.created ++ [s.fresh]
        caller := .starting (i + 1) }
  | started (i : Nat) : s.caller = .starting i → ¬ i < s.maxThreads_ →
      Step s .go { s with isRunning_ := true, caller := .outside, ret := S_OK }
  | addWorkRefused (item : Option Nat) : s.caller = .outside →
      item = none ∨ s.isRunning_ = false →
      Step s (.call (.addWork item)) { s with ret := S_FALSE }
  | addWork (work : Nat) (threads : Nat → Option Worker) : s.caller = .outside →
      s.isRunning_ = true → SignalsMore s (s.workqueue_ ++ [.work work]) threads →
      Step s (.call (.addWork (some work))) { s with
        workqueue_ := s.workqueue_ ++ [.work work]
        threads := threads
        ret := S_OK }
  | quitRefused : s.caller = .outside → s.isRunning_ = false →
      Step s (.call .quit) { s with ret := S_FALSE }
  | quit : s.caller = .outside → s.isRunning_ = true →
      Step s (.call .quit) { s with caller := .adding 0, joinedNow := [] }
  /-- `addWork(item)` in `quit`. -/
  | add (i : Nat) (threads : Nat → Option Worker) : s.caller = .adding i → i < s.maxThreads_ →
      s.isRunning_ = true → SignalsMore s (s.workqueue_ ++ [.quitFunc]) threads →
      Step s .go { s with
        workqueue_ := s.workqueue_ ++ [.quitFunc]
        threads := threads
        caller := .adding (i + 1) }
  | addRefused (i : Nat) : s.caller = .adding i → i < s.maxThreads_ → s.isRunning_ = false →
      Step s .go { s with caller := .adding (i + 1) }
  | clear (i : Nat) : s.caller = .adding i → ¬ i < s.maxThreads_ →
      Step s .go { s with isRunning_ := false, caller := .joining 0 }
  /-- `(*it)->join()` comes back, and `delete (*it)`. -/
  | join (i : Nat) (thread : Nat) : s.caller = .joining i → s.vThreads[i]? = some thread →
      thread ∉ s.deleted → s.threads thread = some .ended →
      Step s .go { s with
        joined := s.joined ++ [thread]
        joinedNow := s.joinedNow ++ [thread]
        deleted := s.deleted ++ [thread]
        caller := .joining (i + 1) }
  | dangling (i : Nat) (thread : Nat) : s.caller = .joining i → s.vThreads[i]? = some thread →
      thread ∈ s.deleted ∨ s.threads thread = none →
      Step s .go { s with caller := .undefined }
  | returned (i : Nat) : s.caller = .joining i → s.vThreads.length ≤ i →
      Step s .go { s with caller := .outside, ret := S_OK }
  | wait (thread : Nat) : s.threads thread = some .lock → s.workqueue_ = [] →
      Step s (.worker thread) { s with
        threads := Function.update s.threads thread (some .wait) }
  /-- `pthread_cond_wait` may return without a signal. -/
  | spurious (thread : Nat) : s.threads thread = some .wait →
      Step s (.worker thread) { s with
        threads := Function.update s.threads thread (some .lock) }
  | dequeue (thread : Nat) (item : Item) (items : List Item) (threads : Nat → Option Worker) :
      s.threads thread = some .lock → s.workqueue_ = item :: items →
      SignalsMore s items threads →
      Step s (.worker thread) { s with
        workqueue_ := items
        threads := Function.update threads thread (some (.doit item)) }
  | doit (thread : Nat) (work : Nat) : s.threads thread = some (.doit (.work work)) →
      Step s (.worker thread) { s with
        threads := Function.update s.threads thread (some .lock) }
  | break (thread : Nat) : s.threads thread = some (.doit .quitFunc) →
      Step s (.worker thread) { s with
        threads := Function.update s.threads thread (some .ended) }

end Ndsl.Net.WQRestart
