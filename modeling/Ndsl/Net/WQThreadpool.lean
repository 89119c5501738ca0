import Ndsl.Lib.Monitor

/-!
# `Ndsl.Net.WQThreadpool`: the pool of worker threads

`WQThreadpool.cc`, from where `start` has returned: threads of clients call `addWork`, the workers
run `doWork`, and one thread calls `quit`. What a thread does while it holds `mutex_` is one step,
and so is each statement outside.

A `WorkItem` of a client is the number of the call that added it.
-/

set_option autoImplicit false

namespace Ndsl.Net

open Ndsl.Lib

namespace WQThreadpool

/-- A `WorkItem`, by its `doit`. -/
inductive Item
  | quitFunc
  | work (call : Nat)
  deriving Repr, DecidableEq

/-- Where a worker stands in `doWork`. -/
inductive Worker
  /-- `pthread_mutex_lock`, and the same in `pthread_cond_wait` when it was woken. -/
  | lock
  /-- Blocked in `pthread_cond_wait`. -/
  | wait
  /-- It has taken an item and given the mutex back. -/
  | doit (item : Item)
  /-- `return NULL`. -/
  | ended
  deriving Repr, DecidableEq

/-- Where a client stands in `addWork`. -/
inductive Caller
  | outside
  /-- It has found `isRunning_`. -/
  | tested (call : Nat)
  deriving Repr, DecidableEq

/-- Where the thread stands that calls `quit`. -/
inductive Quitter
  | outside
  /-- In the first loop. -/
  | adding (i : Nat)
  /-- In the second one. -/
  | joining (i : Nat)
  | returned
  deriving Repr, DecidableEq

end WQThreadpool

open WQThreadpool in
/-- `WQThreadpool`, its threads and its clients, and what has been done so far. -/
structure WQThreadpool (κ : Type) where
  maxThreads_ : Nat
  isRunning_ : Bool := true
  workqueue_ : List Item := []
  /-- The workers, those below `maxThreads_`. -/
  vThreads : Nat → Worker := fun _ => .lock
  clients : κ → Caller := fun _ => .outside
  quitter : Quitter := .outside
  /-- The number of the next call of `addWork`. -/
  fresh : Nat := 0
  /-- The calls of `addWork` that returned `S_OK`. -/
  accepted : List Nat := []
  /-- What each worker has taken out of the queue. -/
  taken : List (Nat × Item) := []
  /-- What each worker has done, the quit item that it ended on too. -/
  finished : List (Nat × Item) := []

namespace WQThreadpool

/-- Where a worker that waits stands when it is woken. -/
def woken : Worker → Option Worker
  | .wait => some .lock
  | _ => none

variable {κ : Type} [DecidableEq κ]

/-- `workqueue_.enqueue(item)`, behind which the queue is not empty and a worker is signalled. -/
def enqueue (s : WQThreadpool κ) (item : Item) (vThreads : Nat → Worker) : WQThreadpool κ :=
  { s with workqueue_ := s.workqueue_ ++ [item], vThreads := vThreads }

/-- `if (workqueue_.size() > 0) pthread_cond_signal(&cond_)` leads to `vThreads`. -/
def SignalsMore (s : WQThreadpool κ) (items : List Item) (vThreads : Nat → Worker) : Prop :=
  if items.length > 0 then ∃ choice, Monitor.Signals woken s.vThreads choice vThreads
  else vThreads = s.vThreads

/-- Who takes a step. -/
inductive Move (κ : Type)
  /-- `addWork`, up to the test of `isRunning_`. -/
  | test (client : κ)
  /-- `addWork`, with the mutex. -/
  | enqueue (client : κ)
  | quit
  | worker (i : Nat)

/-- One step. -/
inductive Step (s : WQThreadpool κ) : Move κ → WQThreadpool κ → Prop
  | refuse (client : κ) : s.clients client = .outside → s.isRunning_ = false →
      Step s (.test client) s
  | test (client : κ) : s.clients client = .outside → s.isRunning_ = true →
      Step s (.test client) { s with
        clients := Function.update s.clients client (.tested s.fresh)
        fresh := s.fresh + 1 }
  | enqueue (client : κ) (call : Nat) (vThreads : Nat → Worker) :
      s.clients client = .tested call → SignalsMore s (s.workqueue_ ++ [.work call]) vThreads →
      Step s (.enqueue client) { s.enqueue (.work call) vThreads with
        clients := Function.update s.clients client .outside
        accepted := s.accepted ++ [call] }
  | quit : s.quitter = .outside → s.isRunning_ = true →
      Step s .quit { s with quitter := .adding 0 }
  /-- `addWork(item)` in `quit`. -/
  | add (i : Nat) (vThreads : Nat → Worker) : s.quitter = .adding i → i < s.maxThreads_ →
      s.isRunning_ = true → SignalsMore s (s.workqueue_ ++ [.quitFunc]) vThreads →
      Step s .quit { s.enqueue .quitFunc vThreads with quitter := .adding (i + 1) }
  | addRefused (i : Nat) : s.quitter = .adding i → i < s.maxThreads_ → s.isRunning_ = false →
      Step s .quit { s with quitter := .adding (i + 1) }
  | clear (i : Nat) : s.quitter = .adding i → ¬ i < s.maxThreads_ →
      Step s .quit { s with isRunning_ := false, quitter := .joining 0 }
  | join (i : Nat) : s.quitter = .joining i → i < s.maxThreads_ → s.vThreads i = .ended →
      Step s .quit { s with quitter := .joining (i + 1) }
  | returned (i : Nat) : s.quitter = .joining i → ¬ i < s.maxThreads_ →
      Step s .quit { s with quitter := .returned }
  | wait (i : Nat) : i < s.maxThreads_ → s.vThreads i = .lock → s.workqueue_ = [] →
      Step s (.worker i) { s with vThreads := Function.update s.vThreads i .wait }
  /-- `pthread_cond_wait` may return without a signal. -/
  | spurious (i : Nat) : s.vThreads i = .wait →
      Step s (.worker i) { s with vThreads := Function.update s.vThreads i .lock }
  | dequeue (i : Nat) (item : Item) (items : List Item) (vThreads : Nat → Worker) :
      i < s.maxThreads_ → s.vThreads i = .lock → s.workqueue_ = item :: items →
      SignalsMore s items vThreads →
      Step s (.worker i) { s with
        workqueue_ := items
        vThreads := Function.update vThreads i (.doit item)
        taken := s.taken ++ [(i, item)] }
  | doit (i : Nat) (call : Nat) : s.vThreads i = .doit (.work call) →
      Step s (.worker i) { s with
        vThreads := Function.update s.vThreads i .lock
        finished := s.finished ++ [(i, .work call)] }
  | break (i : Nat) : s.vThreads i = .doit .quitFunc →
      Step s (.worker i) { s with
        vThreads := Function.update s.vThreads i .ended
        finished := s.finished ++ [(i, .quitFunc)] }

end WQThreadpool

end Ndsl.Net
