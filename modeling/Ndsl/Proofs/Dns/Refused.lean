import Ndsl.Proofs.Dns.Ids

/-!
# `Ndsl.Proofs.Dns.Refused`: a request that fails

`request` puts its entry into the table before it codes the name. Where `coding` refuses the name,
the entry is taken out again. Where `send` fails, it stays there, and it is counted, though the
caller has been told of an error. So a response can still write into the task.

The id of the request goes into the task before that. So a request that is refused, for a task that
is pending under another id in the same bucket, makes the entry that is there answer to the new id.

`noTrace_iff` says which of the requests that fail leave no trace.
-/

set_option autoImplicit false

namespace Ndsl.Proofs.Dns

open Ndsl.Lib Ndsl.Lib.Buckets
open Ndsl.Net Ndsl.Net.Dns

/-! ### Statements -/

/-- What `find_query` gives to responses with these ids, one after the other. -/
def found : List UInt16 → Dns → List (Option Nat)
  | [], _ => []
  | id :: ids, s => (s.findQuery id).1 :: found ids (s.findQuery id).2

/-- A call has left no trace of a request for a task: the table is as it was before, and no later
response comes to the task that would not have come to it anyway. Only the id has advanced, which is
also in the task. -/
structure NoTrace (task : Nat) (s t : Dns) : Prop where
  bucket : t.bucket_ = s.bucket_
  count : t.count_ = s.count_
  untouched : ∀ (ids : List UInt16) (i : Nat), (found ids t)[i]? = some (some task) →
    (found ids s)[i]? = some (some task)
  others : t = { s with
    current_ := t.current_
    tasks := Function.update s.tasks task
      { s.tasks task with query_id := (t.tasks task).query_id } }

/-- The request comes to an end before `send`, and where it takes an id, the task does not stand in
the bucket of this id under another one. -/
def Undone (task : Nat) (s : Dns) : Prop :=
  (s.tasks task).domain_size < 255 → ¬ Fits (s.tasks task) ∧
    ({ task := task } ∈ s.bucket_ (bucketOf (nextId s)) → queryId s { task := task } = nextId s)

/-! ### Later responses -/

section Found
variable {s t : Dns} {task : Nat} {id : UInt16}

/-- Nothing is found where the buckets and the ids are the same. -/
theorem findQuery_congr (hbucket : t.bucket_ = s.bucket_) (hids : queryId t = queryId s)
    (id : UInt16) : (t.findQuery id).1 = (s.findQuery id).1 ∧
      (t.findQuery id).2.bucket_ = (s.findQuery id).2.bucket_ := by
  have hsearch : (fun be : BucketEntry => decide ((t.tasks be.task).query_id = id)) =
      fun be => decide ((s.tasks be.task).query_id = id) :=
    funext fun be => by
      rw [show (t.tasks be.task).query_id = (s.tasks be.task).query_id from congrFun hids be]
  unfold Dns.findQuery
  dsimp only
  rw [hbucket, hsearch]
  split
  · exact ⟨rfl, hbucket⟩
  · exact ⟨rfl, rfl⟩

/-- `find_query` changes no id. -/
theorem queryId_findQuery (id : UInt16) (s : Dns) : queryId (s.findQuery id).2 = queryId s :=
  funext fun be => (findQuery_keeps id s).query_id be.task

theorem found_congr (ids : List UInt16) : ∀ {s t : Dns}, t.bucket_ = s.bucket_ →
    queryId t = queryId s → found ids t = found ids s := by
  induction ids with
  | nil => exact fun _ _ => rfl
  | cons id ids ih =>
      intro s t hbucket hids
      obtain ⟨hfirst, hrest⟩ := findQuery_congr hbucket hids id
      rw [found, found, hfirst]
      exact congrArg _ (ih hrest (by rw [queryId_findQuery, queryId_findQuery, hids]))

/-- A task that is found stands in the bucket of its id. -/
theorem mem_of_findQuery (h : (s.findQuery id).1 = some task) :
    { task := task } ∈ s.bucket_ (bucketOf id) ∧ queryId s { task := task } = id := by
  rcases findQuery_cases id s with ⟨hnone, -⟩ | ⟨pre, be, post, hsplit, hid, hfound⟩
  · rw [hnone] at h
    exact absurd h (Option.some_ne_none task).symm
  · rw [hfound] at h
    obtain rfl := Option.some.inj h
    refine ⟨?_, hid⟩
    rw [bucketOf, hsplit]
    exact List.mem_append_right pre List.mem_cons_self

/-- A task that does not stand in the bucket of its id is not found by any response. -/
theorem not_found (ids : List UInt16) : ∀ {s : Dns} {i : Nat},
    { task := task } ∉ s.bucket_ (bucketOf (queryId s { task := task })) →
    (found ids s)[i]? ≠ some (some task) := by
  induction ids with
  | nil => exact fun _ heq => absurd heq (by simp [found])
  | cons id ids ih =>
      intro s i hnot heq
      cases i with
      | zero =>
          obtain ⟨hmem, hid⟩ := mem_of_findQuery (Option.some.inj heq)
          rw [← hid] at hmem
          exact hnot hmem
      | succ i =>
          refine ih (s := (s.findQuery id).2) (fun hmem => hnot ?_) heq
          rw [queryId_findQuery] at hmem
          exact ((findQuery_keeps id s).bucket _).mem hmem

/-- A task under another id is not found by responses with this one. -/
theorem not_found_of_ne (k : Nat) : ∀ {s : Dns} {i : Nat}, queryId s { task := task } ≠ id →
    (found (List.replicate k id) s)[i]? ≠ some (some task) := by
  induction k with
  | zero => exact fun _ heq => absurd heq (by simp [found])
  | succ k ih =>
      intro s i hne heq
      rw [List.replicate_succ] at heq
      cases i with
      | zero => exact hne (mem_of_findQuery (Option.some.inj heq)).2
      | succ i => exact ih (s := (s.findQuery id).2) (by rwa [queryId_findQuery]) heq

/-- A task that stands in the bucket of its id is found in the end: each response with the id takes
an entry out. -/
theorem found_in_the_end : ∀ (n : Nat) {s : Dns}, (s.bucket_ (bucketOf id)).length = n →
    { task := task } ∈ s.bucket_ (bucketOf id) → queryId s { task := task } = id →
    ∃ k i : Nat, (found (List.replicate k id) s)[i]? = some (some task) := by
  intro n
  induction n with
  | zero =>
      intro s hlength hmem
      rw [List.length_eq_zero_iff.mp hlength] at hmem
      exact absurd hmem List.not_mem_nil
  | succ n ih =>
      intro s hlength hmem hid
      rcases findQuery_cases id s with ⟨-, hnone⟩ | ⟨pre, be, post, hsplit, hbe, hfound⟩
      · exact absurd hid (hnone _ hmem)
      by_cases htask : be.task = task
      · refine ⟨1, 0, ?_⟩
        rw [List.replicate_succ, found, hfound, htask]
        rfl
      · -- the entry of another task is gone, and this one is still there
        have hbucket : (s.findQuery id).2.bucket_ (bucketOf id) = pre ++ post := by
          rw [hfound]
          exact Function.update_self ..
        have hstill : { task := task } ∈ pre ++ post := by
          rw [bucketOf, hsplit, List.mem_append, List.mem_cons] at hmem
          rcases hmem with hmem | heq | hmem
          · exact List.mem_append_left post hmem
          · exact absurd (congrArg BucketEntry.task heq).symm htask
          · exact List.mem_append_right pre hmem
        have hshorter : (pre ++ post).length = n := by
          rw [bucketOf, hsplit, List.length_append, List.length_cons] at hlength
          rw [List.length_append]
          omega
        rw [← hbucket] at hstill hshorter
        obtain ⟨k, i, hk⟩ := ih hshorter hstill (by rw [queryId_findQuery]; exact hid)
        exact ⟨k + 1, i + 1, hk⟩

end Found

/-! ### Requests that fail -/

section Refused
variable {s t : Dns} {task : Nat} {packet : Packet} {errors : List Int} {es : List Event}
  {ret : Int}

/-- The table behind a request that is refused is that before it. -/
theorem dequeue_enqueue (s : Dns) (task : Nat) (hcount : s.count_ < 2 ^ 64) :
    (s.enqueue task).dequeue task = { s with
      current_ := s.current_ + 1
      tasks := Function.update s.tasks task { s.tasks task with query_id := nextId s } } := by
  have hbucket := bucket_dequeue_enqueue s task
  have hback : toSize ((toSize ((s.count_ : Int) + 1) : Int) - 1) = s.count_ := by
    unfold toSize
    omega
  calc (s.enqueue task).dequeue task
      = { (s.enqueue task).dequeue task with
          bucket_ := ((s.enqueue task).dequeue task).bucket_ } := rfl
    _ = _ := by
      rw [hbucket]
      show Dns.mk (toSize ((toSize ((s.count_ : Int) + 1) : Int) - 1)) _ _ _ _ = _
      rw [hback]
      rfl

/-- A request that is refused leaves a trace exactly when its task stands in the bucket of the id
under another one. -/
theorem noTrace_refused_iff (hcount : s.count_ < 2 ^ 64) :
    NoTrace task s ((s.enqueue task).dequeue task) ↔
      ({ task := task } ∈ s.bucket_ (bucketOf (nextId s)) →
        queryId s { task := task } = nextId s) := by
  rw [dequeue_enqueue s task hcount]
  generalize ht : { s with
    current_ := s.current_ + 1
    tasks := Function.update s.tasks task { s.tasks task with query_id := nextId s } } = t
  have hid : ∀ be, queryId t be = if be.task = task then nextId s else queryId s be := by
    rw [← ht]
    exact queryId_enqueue
  have hself : queryId t { task := task } = nextId s := by rw [hid, if_pos rfl]
  have hbucket : t.bucket_ = s.bucket_ := by rw [← ht]
  constructor
  · intro hnoTrace hmem
    by_contra hne
    -- responses with the new id come to the task now, and did not before
    obtain ⟨k, i, hfound⟩ := found_in_the_end _ (s := t) rfl (by rw [hbucket]; exact hmem) hself
    exact not_found_of_ne k hne (hnoTrace.untouched _ _ hfound)
  · intro hsame
    refine ⟨hbucket, by rw [← ht], fun ids i hfound => ?_, ?_⟩
    · by_cases hmem : { task := task } ∈ s.bucket_ (bucketOf (nextId s))
      · -- the task has this id already
        have hids : queryId t = queryId s := by
          funext be
          rw [hid]
          split
          · next heq =>
            subst heq
            exact (hsame hmem).symm
          · rfl
        rwa [found_congr ids hbucket hids] at hfound
      · exact absurd hfound (not_found ids (by rwa [hself, hbucket]))
    · rw [← ht]
      simp only [Function.update_self]

/-- A request leaves no trace exactly when it comes to its end before `send`, and its task does not
stand in the bucket of the id under another one. -/
theorem noTrace_iff (hcount : s.count_ < 2 ^ 64)
    (h : (s.request task packet errors).Yields es (ret, t)) :
    NoTrace task s t ↔ Undone task s := by
  rcases request_cases h with ⟨hlong, -, rfl⟩ | ⟨hshort, hrefused, -, rfl⟩ |
    ⟨hshort, hfits, -, rfl⟩
  · -- a name that is too long
    refine ⟨fun _ hshort => absurd hshort (Int.not_lt.mpr hlong), fun _ => ⟨rfl, rfl,
      fun _ _ hfound => hfound, ?_⟩⟩
    simp only [Function.update_eq_self]
  · rw [noTrace_refused_iff hcount]
    exact ⟨fun hsame _ => ⟨hrefused, hsame⟩, fun hundone => (hundone hshort).2⟩
  · -- the entry is in the table
    refine ⟨fun hnoTrace => ?_, fun hundone => absurd hfits (hundone hshort).1⟩
    have hlonger := congrFun hnoTrace.bucket (bucketOf (nextId s))
    change Function.update s.bucket_ (bucketOf (nextId s))
      ({ task := task } :: s.bucket_ (bucketOf (nextId s))) (bucketOf (nextId s)) = _ at hlonger
    rw [Function.update_self] at hlonger
    exact absurd (congrArg List.length hlonger) (by simp)

/-- Tasks whose name has a label of 65 bytes. -/
def tooLong : Dns :=
  fresh (fun _ => { domain_name := List.replicate 65 0x61, domain_size := 65, query_id := 0 })
    unused

/-- A request with a label that is too long leaves no trace. -/
theorem noTrace_iff_refused : ∃ es t, (tooLong.request 0 blank []).Yields es (EINVAL, t) ∧
    NoTrace 0 tooLong t := by
  obtain ⟨es, ⟨ret, t⟩, h⟩ := request_returns (s := tooLong) 0 [] blank (by decide) (by decide)
  have hret : (tooLong.request 0 blank []).value.map Prod.fst = some EINVAL := by rfl
  rw [h.2] at hret
  obtain rfl := Option.some.inj hret
  refine ⟨es, t, h, (noTrace_iff (by decide) h).mpr fun _ => ⟨fun hfits => ?_, ?_⟩⟩
  · have hlabels : labels (tooLong.tasks 0) = [List.replicate 65 0x61] :=
      List.splitOn_eq_singleton (by decide)
    rw [Fits, hlabels] at hfits
    exact absurd hfits (by decide)
  · exact fun hmem => absurd hmem List.not_mem_nil

/-- `send` reports that nobody listens at the name server. The caller is told of it, the entry stays
in the table, and a response with its id still comes to the task. -/
theorem failed_send_stays : ∃ es t,
    ((fresh (fun _ => named) unused).request 0 blank [111]).Yields es (111, t) ∧ t.count_ = 1 ∧
    (t.findQuery 0).1 = some 0 ∧ ¬ NoTrace 0 (fresh (fun _ => named) unused) t := by
  obtain ⟨es, ⟨ret, t⟩, h⟩ := request_returns (s := fresh (fun _ => named) unused) 0 [111] blank
    (by decide) (by decide)
  have hret : ((fresh (fun _ => named) unused).request 0 blank [111]).value.map Prod.fst =
      some 111 := by rfl
  rw [h.2] at hret
  obtain rfl := Option.some.inj hret
  have ht : t = (fresh (fun _ => named) unused).enqueue 0 := by
    rcases request_cases h with ⟨hlong, -, -⟩ | ⟨-, hrefused, -, -⟩ | ⟨-, -, -, ht⟩
    · exact absurd hlong (by decide)
    · exact absurd fits_named hrefused
    · exact ht
  subst ht
  refine ⟨es, _, h, rfl, rfl, fun hnoTrace => ?_⟩
  exact absurd hnoTrace.count (by decide)

end Refused

end Ndsl.Proofs.Dns
