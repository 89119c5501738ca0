import Ndsl.Lib.Buckets
import Ndsl.Proofs.Dns.Coding
import Ndsl.Proofs.Dns.Keeps

/-!
# `Ndsl.Proofs.Dns.Ids`: whose answer it is

An id is the lower half of a counter, and a request that nobody answers keeps its entry. So when the
counter comes round, a request gets the id of one that is still pending (`wrapped_ids`). The id
stands in the task, so a second request for a task that is pending changes the id of the first
entry.

`unambiguous_iff_careful` says that the ids tell the requests apart as long as no request does one
of the two, and that the next step keeps it so only then. `Identified` is the invariant, and
`Ndsl.Lib.Buckets` has the search.
-/

set_option autoImplicit false

namespace Ndsl.Proofs.Dns

open Ndsl.Lib Ndsl.Lib.Buckets
open Ndsl.Net Ndsl.Net.Dns

/-! ### Statements -/

/-- The entries of the table. -/
def pending (s : Dns) : List BucketEntry := contents DNS_BUCKET_SIZE s.bucket_

/-- The id of an entry. -/
def queryId (s : Dns) (be : BucketEntry) : UInt16 := (s.tasks be.task).query_id

/-- The ids with which queries for a task were sent. -/
def sentIds (task : Nat) (log : List Event) : List UInt16 :=
  log.filterMap fun
    | .send x packet _ => if x = task then some (sentId packet) else none
    | _ => none

/-- The pending entries have different ids, and `find_query` returns a task if and only if it is
pending and its last query was sent with this id. -/
structure Unambiguous (log : List Event) (s : Dns) : Prop where
  distinct : ((pending s).map (queryId s)).Nodup
  found_iff : ∀ id task, (s.findQuery id).1 = some task ↔
    { task := task } ∈ pending s ∧ (sentIds task log).getLast? = some id

/-- A request for a task that is not pending, under an id that no pending entry has. Where `coding`
refuses the name, the id of a pending task stays. -/
def Careful (s : Dns) : Action → Prop
  | .request task _ _ => (s.tasks task).domain_size < 255 →
      (Fits (s.tasks task) → { task := task } ∉ pending s ∧
        ∀ be ∈ pending s, queryId s be ≠ nextId s) ∧
      (¬ Fits (s.tasks task) → { task := task } ∈ pending s →
        queryId s { task := task } = nextId s)
  | _ => True

/-- The invariant: each entry lies in the bucket of its id, the ids are different, and they are
those of the last queries. -/
structure Identified (log : List Event) (s : Dns) : Prop where
  placed : Placed (queryId s) bucketOf s.bucket_
  distinct : ((pending s).map (queryId s)).Nodup
  sent : ∀ be ∈ pending s, (sentIds be.task log).getLast? = some (queryId s be)

section Ids
variable {s t : Dns} {log es : List Event} {task x : Nat} {id : UInt16} {be : BucketEntry}

theorem bucketOf_lt (id : UInt16) : bucketOf id < DNS_BUCKET_SIZE := Nat.mod_lt _ (by decide)

/-! ### What was sent -/

theorem sentIds_append (task : Nat) (log es : List Event) :
    sentIds task (log ++ es) = sentIds task log ++ sentIds task es :=
  List.filterMap_append

/-- Events that send nothing. -/
theorem sentIds_of_forall (h : ∀ e ∈ es, ∀ x packet error, e ≠ .send x packet error) :
    sentIds task (log ++ es) = sentIds task log := by
  have hnil : sentIds task es = [] := by
    refine List.filterMap_eq_nil_iff.mpr fun e he => ?_
    cases e with
    | send x packet error => exact absurd rfl (h _ he x packet error)
    | _ => rfl
  rw [sentIds_append, hnil, List.append_nil]

/-- The packets of a request are for its task. -/
theorem sentIds_of_ne {sent : List UInt8} (h : ∀ e ∈ es, ∃ error, e = .send task sent error)
    (hx : x ≠ task) : sentIds x es = [] := by
  refine List.filterMap_eq_nil_iff.mpr fun e he => ?_
  obtain ⟨error, rfl⟩ := h e he
  exact if_neg hx.symm

/-- The last query of a request has its id. -/
theorem getLast?_sentIds {sent : List UInt8} (h : ∀ e ∈ es, ∃ error, e = .send task sent error)
    (hne : es ≠ []) : (sentIds task (log ++ es)).getLast? = some (sentId sent) := by
  have hall : ∀ id ∈ sentIds task es, id = sentId sent := by
    intro id hid
    obtain ⟨e, he, heq⟩ := List.mem_filterMap.mp hid
    obtain ⟨error, rfl⟩ := h e he
    exact (Option.some.inj ((if_pos rfl).symm.trans heq)).symm
  have hsome : sentIds task es ≠ [] := by
    obtain ⟨e, he⟩ := List.exists_mem_of_ne_nil es hne
    obtain ⟨error, rfl⟩ := h e he
    exact List.ne_nil_of_mem (List.mem_filterMap.mpr ⟨_, he, if_pos rfl⟩)
  rw [sentIds_append, List.getLast?_append_of_ne_nil _ hsome,
    List.getLast?_eq_getLast_of_ne_nil hsome]
  exact congrArg some (hall _ (List.getLast_mem hsome))

/-! ### The search -/

/-- `find_query` searches the bucket of the id. -/
theorem findQuery_fst (id : UInt16) (s : Dns) : (s.findQuery id).1 =
    ((s.bucket_ (bucketOf id)).find? fun be => queryId s be = id).map BucketEntry.task := by
  unfold Dns.findQuery
  dsimp only
  split
  · next hfind =>
      have hnone : (s.bucket_ (bucketOf id)).find? (fun be => queryId s be = id) = none := hfind
      rw [hnone]
      rfl
  · next be hfind =>
      have hsome : (s.bucket_ (bucketOf id)).find? (fun be => queryId s be = id) = some be := hfind
      rw [hsome]
      rfl

/-- The invariant says what the search finds. -/
theorem Identified.unambiguous (h : Identified log s) : Unambiguous log s := by
  refine ⟨h.distinct, fun id task => ?_⟩
  have hsearch : (s.findQuery id).1 = some task ↔
      { task := task } ∈ pending s ∧ queryId s { task := task } = id := by
    rw [findQuery_fst, Option.map_eq_some_iff]
    constructor
    · rintro ⟨be, hfind, rfl⟩
      exact (h.placed.find?_eq_some_iff h.distinct (bucketOf_lt id)).mp hfind
    · intro hmem
      exact ⟨_, (h.placed.find?_eq_some_iff h.distinct (bucketOf_lt id)).mpr hmem, rfl⟩
  rw [hsearch]
  refine and_congr_right fun hpending => ?_
  rw [h.sent _ hpending, Option.some.injEq]

/-! ### One step -/

/-- Steps that put nothing into the table. -/
theorem Identified.keeps (h : Identified log s) (hkeeps : Keeps s t)
    (hquiet : ∀ e ∈ es, ∀ x packet error, e ≠ .send x packet error) :
    Identified (log ++ es) t := by
  have hid : queryId t = queryId s := funext fun be => hkeeps.query_id be.task
  have hsub : (pending t).Sublist (pending s) := contents_sublist hkeeps.bucket
  refine ⟨?_, ?_, fun be hbe => ?_⟩
  · rw [hid]
    exact h.placed.sublist hkeeps.bucket
  · rw [hid]
    exact h.distinct.sublist (hsub.map _)
  · rw [sentIds_of_forall hquiet, hid]
    exact h.sent be (hsub.mem hbe)

theorem not_send_of_isPut {e : Event} (h : IsPut e) (x : Nat) (packet : List UInt8)
    (error : Option Int) : e ≠ .send x packet error := by
  rintro rfl
  exact h

/-- A request changes the id of its task. -/
theorem queryId_enqueue (be : BucketEntry) : queryId (s.enqueue task) be =
    if be.task = task then nextId s else queryId s be := by
  show (Function.update s.tasks task _ be.task).query_id = _
  split
  · next heq =>
    rw [heq, Function.update_self]
    rfl
  · next hne =>
    rw [Function.update_of_ne hne]
    rfl

/-- The new entry, and those that were there. -/
theorem pending_enqueue (s : Dns) (task : Nat) :
    (pending (s.enqueue task)).Perm ({ task := task } :: pending s) :=
  contents_cons (bucketOf_lt (nextId s)) _

/-- The entry that was put in is taken out. -/
theorem bucket_dequeue_enqueue (s : Dns) (task : Nat) :
    ((s.enqueue task).dequeue task).bucket_ = s.bucket_ := by
  have hid : ((s.enqueue task).tasks task).query_id = nextId s :=
    (queryId_enqueue { task := task }).trans (if_pos rfl)
  show Function.update (Function.update s.bucket_ (bucketOf (nextId s))
    ({ task := task } :: s.bucket_ (bucketOf (nextId s))))
    (bucketOf ((s.enqueue task).tasks task).query_id) _ = _
  rw [hid]
  show Function.update (Function.update s.bucket_ (bucketOf (nextId s)) _) _
    (Function.update s.bucket_ (bucketOf (nextId s))
      ({ task := task } :: s.bucket_ (bucketOf (nextId s))) (bucketOf (nextId s))).tail = _
  rw [Function.update_self, Function.update_idem, List.tail_cons, Function.update_eq_self]

/-- A request with a new id, for a task that is not pending. -/
theorem Identified.enqueue (h : Identified log s) (hnew : { task := task } ∉ pending s)
    (hfree : ∀ be ∈ pending s, queryId s be ≠ nextId s)
    (hsent : (sentIds task (log ++ es)).getLast? = some (nextId s))
    (hothers : ∀ x, x ≠ task → sentIds x (log ++ es) = sentIds x log) :
    Identified (log ++ es) (s.enqueue task) := by
  -- the entries that were there are for other tasks, so they keep their ids
  have hne : ∀ be ∈ pending s, be.task ≠ task := by
    rintro be hbe rfl
    exact hnew hbe
  have hsame : ∀ be ∈ pending s, queryId (s.enqueue task) be = queryId s be := fun be hbe => by
    rw [queryId_enqueue, if_neg (hne be hbe)]
  have hself : queryId (s.enqueue task) { task := task } = nextId s := by
    rw [queryId_enqueue, if_pos rfl]
  have hperm := pending_enqueue s task
  refine ⟨fun i be hbe => ?_, ?_, fun be hbe => ?_⟩
  · change be ∈ Function.update s.bucket_ (bucketOf (nextId s)) _ i at hbe
    by_cases hi : i = bucketOf (nextId s)
    · rw [hi, Function.update_self] at hbe
      rcases List.mem_cons.mp hbe with rfl | hin
      · rw [hself, hi]
      · rw [hsame be (mem_contents.mpr ⟨_, bucketOf_lt _, hin⟩), hi]
        exact h.placed _ be hin
    · rw [Function.update_of_ne hi] at hbe
      have hlt : i < DNS_BUCKET_SIZE := by
        rw [← h.placed i be hbe]
        exact bucketOf_lt _
      rw [hsame be (mem_contents.mpr ⟨i, hlt, hbe⟩)]
      exact h.placed i be hbe
  · rw [(hperm.map _).nodup_iff, List.map_cons, List.nodup_cons, List.map_congr_left hsame, hself]
    refine ⟨fun hmem => ?_, h.distinct⟩
    obtain ⟨be, hbe, heq⟩ := List.mem_map.mp hmem
    exact hfree be hbe heq
  · rcases List.mem_cons.mp (hperm.mem_iff.mp hbe) with rfl | hold
    · rw [hself]
      exact hsent
    · rw [hothers _ (hne be hold), hsame be hold]
      exact h.sent be hold

/-- Where the ids are different behind a request that was sent, it was careful. -/
theorem careful_of_distinct
    (h : ((pending (s.enqueue task)).map (queryId (s.enqueue task))).Nodup) :
    { task := task } ∉ pending s ∧ ∀ be ∈ pending s, queryId s be ≠ nextId s := by
  have hself : queryId (s.enqueue task) { task := task } = nextId s := by
    rw [queryId_enqueue, if_pos rfl]
  rw [((pending_enqueue s task).map _).nodup_iff, List.map_cons, List.nodup_cons, hself] at h
  have hnew : { task := task } ∉ pending s := fun hmem => h.1 (List.mem_map.mpr ⟨_, hmem, hself⟩)
  refine ⟨hnew, fun be hbe heq => h.1 (List.mem_map.mpr ⟨be, hbe, ?_⟩)⟩
  rw [queryId_enqueue]
  split
  · rfl
  · exact heq

/-- A request that `coding` refuses. -/
theorem Identified.refused_iff (h : Identified log s) (task : Nat) (hes : ∀ e ∈ es, IsPut e) :
    (({ task := task } ∈ pending s → queryId s { task := task } = nextId s) →
      Identified (log ++ es) ((s.enqueue task).dequeue task)) ∧
    (Unambiguous (log ++ es) ((s.enqueue task).dequeue task) →
      { task := task } ∈ pending s → queryId s { task := task } = nextId s) := by
  have hbucket := bucket_dequeue_enqueue s task
  have hquiet : ∀ e ∈ es, ∀ x packet error, e ≠ .send x packet error := fun e he =>
    not_send_of_isPut (hes e he)
  have hpending : pending ((s.enqueue task).dequeue task) = pending s :=
    congrArg (contents DNS_BUCKET_SIZE) hbucket
  have hid : ∀ be, queryId ((s.enqueue task).dequeue task) be =
      if be.task = task then nextId s else queryId s be := fun be => queryId_enqueue be
  constructor
  · intro hstays
    -- the ids of the entries are what they were
    have hsame : ∀ be ∈ pending s, queryId ((s.enqueue task).dequeue task) be = queryId s be := by
      intro be hbe
      rw [hid]
      split
      · next htask =>
        subst htask
        exact (hstays hbe).symm
      · rfl
    refine ⟨fun i be hbe => ?_, ?_, fun be hbe => ?_⟩
    · rw [hbucket] at hbe
      have hlt : i < DNS_BUCKET_SIZE := by
        rw [← h.placed i be hbe]
        exact bucketOf_lt _
      rw [hsame be (mem_contents.mpr ⟨i, hlt, hbe⟩)]
      exact h.placed i be hbe
    · rw [hpending, List.map_congr_left hsame]
      exact h.distinct
    · rw [hpending] at hbe
      rw [sentIds_of_forall hquiet, hsame be hbe]
      exact h.sent be hbe
  · intro hunambiguous hmem
    -- the id that was sent finds the task still
    have hlast := h.sent _ hmem
    rw [← sentIds_of_forall hquiet] at hlast
    have hfound := (hunambiguous.found_iff _ _).mpr ⟨hpending ▸ hmem, hlast⟩
    rw [findQuery_fst, Option.map_eq_some_iff] at hfound
    obtain ⟨be, hfind, htask⟩ := hfound
    have heq : queryId ((s.enqueue task).dequeue task) be = queryId s { task := task } := by
      simpa using List.find?_some hfind
    rw [hid, if_pos htask] at heq
    exact heq.symm

/-- The next step keeps the invariant if it is careful, and the ids tell the requests apart only
then. -/
theorem Identified.step_iff (h : Identified log s) {action : Action}
    (hstep : (s.step action).Yields es t) :
    (Careful s action → Identified (log ++ es) t) ∧
      (Unambiguous (log ++ es) t → Careful s action) := by
  cases action with
  | rename x domain_name domain_size =>
      obtain ⟨rfl, rfl⟩ := (Traced.pure_yields ..).mp hstep
      refine ⟨fun _ => h.keeps ⟨fun _ => List.Sublist.refl _, fun y => ?_, rfl⟩
        fun _ he => absurd he List.not_mem_nil, fun _ => trivial⟩
      -- a rename touches no id
      show (Function.update s.tasks x _ y).query_id = _
      by_cases hy : y = x
      · rw [hy, Function.update_self]
      · rw [Function.update_of_ne hy]
  | handleRead datagrams =>
      obtain ⟨fs, ⟨ret, u⟩, gs, hread, hpure, rfl⟩ := Traced.bind_yields.mp hstep
      obtain ⟨rfl, rfl⟩ := (Traced.pure_yields ..).mp hpure
      -- a response takes entries away, and sends nothing
      have hkeeps := handleRead_keeps datagrams s
      refine ⟨fun _ => h.keeps (hkeeps.value _ hread.2) fun e he x packet error heq => ?_,
        fun _ => trivial⟩
      rw [List.append_nil, ← hread.1] at he
      rcases hkeeps.acts e he with hanswer | ⟨datagram, hrecv⟩
      · rw [heq] at hanswer
        exact hanswer
      · exact Event.noConfusion (heq.symm.trans hrecv)
  | request task packet errors =>
      obtain ⟨fs, ⟨ret, u⟩, gs, hrequest, hpure, rfl⟩ := Traced.bind_yields.mp hstep
      obtain ⟨rfl, rfl⟩ := (Traced.pure_yields ..).mp hpure
      rw [List.append_nil]
      -- the name is too long, or one of its labels is, or the query is sent
      rcases request_cases hrequest with ⟨hlong, rfl, rfl⟩ | ⟨hshort, hrefused, hputs, rfl⟩ |
        ⟨hshort, hfits, ⟨puts, sends, sent, rfl, hputs, hsome, hsends, hid⟩, rfl⟩
      · rw [List.append_nil]
        exact ⟨fun _ => h, fun _ hshort => absurd hshort (by omega)⟩
      · -- a refused request takes an entry out, which has to be the one that it has made
        obtain ⟨hkeeps, honly⟩ := h.refused_iff task hputs
        refine ⟨fun hcareful => hkeeps ((hcareful hshort).2 hrefused), fun hunambiguous _ => ?_⟩
        exact ⟨fun hfits => absurd hfits hrefused, fun _ => honly hunambiguous⟩
      · have hquiet : ∀ e ∈ puts, ∀ x packet error, e ≠ .send x packet error := fun e he =>
          not_send_of_isPut (hputs e he)
        rw [← List.append_assoc]
        constructor
        · -- the task is not pending, and no pending entry has the new id
          intro hcareful
          obtain ⟨hnew, hfree⟩ := (hcareful hshort).1 hfits
          rw [List.append_assoc]
          refine h.enqueue hnew hfree ?_ fun x hx => ?_
          · rw [← List.append_assoc, getLast?_sentIds hsends hsome, hid]
          · rw [← List.append_assoc, sentIds_append, sentIds_of_ne hsends hx, List.append_nil,
              sentIds_of_forall hquiet]
        · intro hunambiguous _
          exact ⟨fun _ => careful_of_distinct hunambiguous.distinct,
            fun hrefused => absurd hfits hrefused⟩

end Ids

/-! ### Runs -/

/-- In a run whose requests are all careful the ids tell the requests apart, and they do behind the
next step if and only if it is careful too. -/
theorem unambiguous_iff_careful {tasks : Nat → DnsTask} {buffer_ : Buffer} {actions : List Action}
    {log : List Event} {s : Dns}
    (hrun : Traced.Run Dns.step Careful (fresh tasks buffer_) actions log s) :
    Unambiguous log s ∧ ∀ action es t, (s.step action).Yields es t →
      (Unambiguous (log ++ es) t ↔ Careful s action) := by
  have hempty : pending (fresh tasks buffer_) = [] := contents_nil
  have hstart : Identified [] (fresh tasks buffer_) := by
    refine ⟨fun i be hbe => absurd hbe List.not_mem_nil, ?_, fun be hbe => ?_⟩
    · rw [hempty]
      exact List.nodup_nil
    · rw [hempty] at hbe
      exact absurd hbe List.not_mem_nil
  have hidentified : Identified log s :=
    hrun.invariant (P := fun _ log s => Identified log s) hstart
      fun _ _ _ _ _ _ h hcareful hstep => (h.step_iff hstep).1 hcareful
  refine ⟨hidentified.unambiguous, fun action es t hstep => ?_⟩
  obtain ⟨hkeeps, honly⟩ := hidentified.step_iff hstep
  exact ⟨honly, fun hcareful => (hkeeps hcareful).unambiguous⟩

/-! ### The counter comes round -/

/-- A task with a name of one byte. -/
def named : DnsTask := { domain_name := [0x61], domain_size := 1, query_id := 0 }

/-- A packet. -/
def blank : Packet := ⟨List.replicate 512 0, List.length_replicate⟩

theorem length_unused : (List.replicate BUFFER_SIZE (0 : UInt8)).length = BUFFER_SIZE :=
  List.length_replicate

/-- A buffer. -/
def unused : Buffer := ⟨List.replicate BUFFER_SIZE 0, length_unused⟩

/-- Requests for the tasks one after the other. -/
def requests (n : Nat) : List Action := (List.range n).map fun i => .request i blank []

theorem fits_named : Fits named := by
  have hlabels : labels named = [[0x61]] := List.splitOn_eq_singleton (by decide)
  rw [Fits, hlabels]
  decide

/-- A request with a name of one byte puts its entry into the table. -/
theorem request_named {s : Dns} (task : Nat) (hname : (s.tasks task).domain_name = [0x61])
    (hsize : (s.tasks task).domain_size = 1) :
    ∃ es, (s.step (.request task blank [])).Yields es (s.enqueue task) := by
  obtain ⟨es, ⟨ret, u⟩, hrequest⟩ := request_returns (s := s) task [] blank
    (by rw [hsize]; decide) (by rw [hsize, hname]; decide)
  have hfits : Fits (s.tasks task) := by
    rw [Fits, labels, hname, hsize]
    exact fits_named
  have hu : u = s.enqueue task := by
    rcases request_cases hrequest with ⟨hlong, -, -⟩ | ⟨-, hrefused, -, -⟩ | ⟨-, -, -, hu⟩
    · rw [hsize] at hlong
      exact absurd hlong (by decide)
    · exact absurd hfits hrefused
    · exact hu
  rw [← hu]
  exact ⟨_, Traced.bind_yields.mpr ⟨es, (ret, u), [], hrequest,
    (Traced.pure_yields ..).mpr ⟨rfl, rfl⟩, rfl⟩⟩

/-- Behind so many requests the task `i` is pending under the id `i`, as far as an id goes. -/
theorem requests_run (n : Nat) : ∃ log s,
    Traced.Run Dns.step (fun _ _ => True) (fresh (fun _ => named) unused) (requests n) log s ∧
    s.current_ = UInt32.ofNat n ∧
    (∀ i, (s.tasks i).domain_name = [0x61] ∧ (s.tasks i).domain_size = 1) ∧
    ∀ i < n, { task := i } ∈ pending s ∧ queryId s { task := i } = UInt16.ofNat i := by
  induction n with
  | zero =>
      exact ⟨[], _, .nil, rfl, fun _ => ⟨rfl, rfl⟩, fun _ hi => absurd hi (Nat.not_lt_zero _)⟩
  | succ n ih =>
      obtain ⟨log, s, hrun, hcurrent, hnames, hpending⟩ := ih
      obtain ⟨es, hstep⟩ := request_named n (hnames n).1 (hnames n).2
      have hactions : requests (n + 1) = requests n ++ [.request n blank []] := by
        rw [requests, List.range_succ, List.map_append]
        rfl
      -- the counter of requests is the next id, cut to its width
      have hid : nextId s = UInt16.ofNat n := by
        rw [nextId, hcurrent]
        apply UInt16.toNat_inj.mp
        simp
      rw [hactions]
      refine ⟨_, _, hrun.snoc trivial hstep, ?_, fun i => ?_, fun i hi => ?_⟩
      · show s.current_ + 1 = _
        rw [hcurrent, UInt32.ofNat_add]
        rfl
      · show (Function.update s.tasks n _ i).domain_name = _ ∧
          (Function.update s.tasks n _ i).domain_size = _
        by_cases heq : i = n
        · rw [heq, Function.update_self]
          exact hnames n
        · rw [Function.update_of_ne heq]
          exact hnames i
      · rw [(pending_enqueue s n).mem_iff, queryId_enqueue]
        by_cases heq : i = n
        · rw [heq, if_pos rfl]
          exact ⟨List.mem_cons_self, hid⟩
        · obtain ⟨hmem, hold⟩ := hpending i (by omega)
          rw [if_neg heq]
          exact ⟨List.mem_cons_of_mem _ hmem, hold⟩

/-- Two requests for two tasks: both are careful. -/
theorem unambiguous_iff_careful_two : ∃ log s,
    Traced.Run Dns.step Careful (fresh (fun _ => named) unused)
      [.request 1 blank [], .request 2 blank []] log s ∧ Unambiguous log s ∧
    ∀ action es t, (s.step action).Yields es t →
      (Unambiguous (log ++ es) t ↔ Careful s action) := by
  obtain ⟨es, hfirst⟩ := request_named (s := fresh (fun _ => named) unused) 1 rfl rfl
  obtain ⟨fs, hsecond⟩ := request_named
    (s := (fresh (fun _ => named) unused).enqueue 1) 2 rfl rfl
  have hone : pending ((fresh (fun _ => named) unused).enqueue 1) = [{ task := 1 }] := by rfl
  have hrun : Traced.Run Dns.step Careful (fresh (fun _ => named) unused)
      [.request 1 blank [], .request 2 blank []] (([] ++ es) ++ fs)
      (((fresh (fun _ => named) unused).enqueue 1).enqueue 2) := by
    refine .snoc (.snoc (l := []) .nil (fun _ => ⟨fun _ => ?_, ?_⟩) hfirst)
      (fun _ => ⟨fun _ => ?_, ?_⟩) hsecond
    · rw [hone]
      decide
    · exact fun hrefused => absurd fits_named hrefused
    · exact ⟨List.not_mem_nil, fun be hbe => absurd hbe List.not_mem_nil⟩
    · exact fun hrefused => absurd fits_named hrefused
  exact ⟨_, _, hrun, unambiguous_iff_careful hrun⟩

/-- Behind 65537 requests that nobody answers, the first and the last have the same id. -/
theorem wrapped_ids : ∃ log s,
    Traced.Run Dns.step (fun _ _ => True) (fresh (fun _ => named) unused) (requests (2 ^ 16 + 1))
      log s ∧
    { task := 0 } ∈ pending s ∧ { task := 2 ^ 16 } ∈ pending s ∧
    queryId s { task := 0 } = queryId s { task := 2 ^ 16 } ∧ ¬ Unambiguous log s := by
  obtain ⟨log, s, hrun, -, -, hpending⟩ := requests_run (2 ^ 16 + 1)
  obtain ⟨hfirst, hzero⟩ := hpending 0 (by decide)
  obtain ⟨hlast, hwrapped⟩ := hpending (2 ^ 16) (by decide)
  have hsame : queryId s { task := 0 } = queryId s { task := 2 ^ 16 } := by
    rw [hzero, hwrapped]
    rfl
  refine ⟨log, s, hrun, hfirst, hlast, hsame, fun hunambiguous => ?_⟩
  have heq := List.inj_on_of_nodup_map hunambiguous.distinct hfirst hlast hsame
  exact absurd (congrArg BucketEntry.task heq) (by decide)

end Ndsl.Proofs.Dns
