import Mathlib.Order.Interval.Finset.Nat
import Ndsl.Proofs.Dns.Refused
import Ndsl.Proofs.Dns.Rings

/-!
# `Ndsl.Proofs.Dns.Table`: the table and its counter

`Consistent` says that the pointers of each bucket close to a ring, that `count_` is the number of
entries, and that each entry lies in the bucket of its id. `request` and `find_query` keep it on
every path that they take.

`stop` deletes the entries and does not touch `count_`. When a request is pending, `count_` says so
from then on, and no name server can be set any more. `consistent_iff` says that a step keeps the
table consistent unless it is such a `stop`.
-/

set_option autoImplicit false

namespace Ndsl.Proofs.DnsTable

open Ndsl.Lib Ndsl.Lib.Buckets
open Ndsl.Net (Dns DnsTable S_OK toSize)
open Ndsl.Net.Dns (DNS_BUCKET_SIZE EINVAL EAGAIN Event Packet BucketEntry)
open Ndsl.Net.DnsTable
open Ndsl.Proofs.Dns (pending queryId bucketOf bucketOf_lt nextId queryId_enqueue pending_enqueue
  dequeue_enqueue request_cases request_returns findQuery_cases named blank unused)

/-! ### Statements -/

/-- These are the entries of the buckets. -/
structure Holds (entries : Nat → List Nat) (t : DnsTable) : Prop where
  ring : ∀ i < DNS_BUCKET_SIZE, t.links.Ring (.head i) ((entries i).map .entry)
  count : t.count_ = (contents DNS_BUCKET_SIZE entries).length
  placed : ∀ i < DNS_BUCKET_SIZE, ∀ be ∈ entries i, be ∈ t.live ∧
    (t.tasks (t.task be)).query_id.toNat % DNS_BUCKET_SIZE = i

/-- The pointers of the buckets close to rings, `count_` counts the entries, and each of these has
been allocated and lies in the bucket of its id. -/
def Consistent (t : DnsTable) : Prop := ∃ entries, Holds entries t

/-- Once `init` has made a new channel, `setNameServer` takes every address. -/
def Accepts (t : DnsTable) : Prop :=
  ∀ loop dnsfd errno enrolled srv connect recv errno', ∃ ret u,
    ((t.init (some loop) dnsfd errno enrolled).2.setNameServer srv connect recv errno').Yields []
      (ret, u) ∧ u.address_ = srv

/-- What `stop` leaves. -/
structure Stopped (t : DnsTable) : Prop where
  empty : ∀ i < DNS_BUCKET_SIZE, t.links.empty (.head i) = true
  count : t.count_ = 0
  accepts : Accepts t

/-- What a step leaves. -/
structure Kept (action : Action) (t : DnsTable) : Prop where
  consistent : Consistent t
  stopped : action = .stop → Stopped t

/-- The steps that a user can take. `new` gives an address that is not in use and not `NULL`. The
name of a task is as long as it says, and no request is pending for this task. The channel is there
where it is used. -/
def Legal (t : DnsTable) : Action → Prop
  | .init .. => True
  | .setNameServer .. => t.udp_ ≠ none
  | .request be task _ _ => be ∉ t.live ∧ (0 < be ∧ be < 2 ^ 64) ∧
      (0 ≤ (t.tasks task).domain_size ∧
        (t.tasks task).domain_size ≤ (t.tasks task).domain_name.length) ∧
      (∀ be' ∈ t.live, t.task be' ≠ task) ∧ t.udp_ ≠ none
  | .findQuery _ => True
  | .stop => t.loop_ ≠ none ∧ t.udp_ ≠ none

/-- The steps that keep the table consistent: a `stop` finds no request pending. -/
def Careful (t : DnsTable) : Action → Prop
  | .stop => t.count_ = 0
  | _ => True

/-! ### The lists -/

/-- The counter and the buckets of the lists. -/
structure Counted (s : Dns) : Prop where
  count : s.count_ = (pending s).length
  placed : Placed (queryId s) bucketOf s.bucket_

section Lists
variable {s : Dns} {task : Nat}

/-- The ids of the entries are what they were, when a task gets one that is not pending. -/
theorem Counted.queryId_eq (h : Counted s) (hnew : { task := task } ∉ pending s) :
    ∀ i, ∀ be ∈ s.bucket_ i, be.task ≠ task := by
  intro i be hbe heq
  have hi : i < DNS_BUCKET_SIZE := h.placed i be hbe ▸ bucketOf_lt _
  have hmem : be ∈ pending s := mem_contents.mpr ⟨i, hi, hbe⟩
  obtain ⟨_⟩ := be
  exact hnew (heq ▸ hmem)

/-- A request that gets an entry. -/
theorem Counted.enqueue (h : Counted s) (hnew : { task := task } ∉ pending s)
    (hsize : (pending s).length + 1 < 2 ^ 64) : Counted (s.enqueue task) := by
  refine ⟨?_, fun i be hbe => ?_⟩
  · rw [(pending_enqueue s task).length_eq, List.length_cons, ← h.count]
    show toSize ((s.count_ : Int) + 1) = s.count_ + 1
    have hcount := h.count
    unfold toSize
    omega
  · rw [queryId_enqueue]
    change be ∈ Function.update s.bucket_ (bucketOf (nextId s)) _ i at hbe
    by_cases hi : i = bucketOf (nextId s)
    · subst hi
      rw [Function.update_self] at hbe
      rcases List.mem_cons.mp hbe with rfl | hbe
      · rw [if_pos rfl]
      · rw [if_neg (h.queryId_eq hnew _ be hbe)]
        exact h.placed _ be hbe
    · rw [Function.update_of_ne hi] at hbe
      rw [if_neg (h.queryId_eq hnew _ be hbe)]
      exact h.placed _ be hbe

/-- A request that is refused. -/
theorem Counted.refused (h : Counted s) (hnew : { task := task } ∉ pending s)
    (hsize : (pending s).length + 1 < 2 ^ 64) : Counted ((s.enqueue task).dequeue task) := by
  have hcount := h.count
  rw [dequeue_enqueue s task (by omega)]
  refine ⟨h.count, fun i be hbe => ?_⟩
  have hne := h.queryId_eq hnew i be hbe
  show bucketOf (Function.update s.tasks task _ be.task).query_id = i
  rw [Function.update_of_ne hne]
  exact h.placed i be hbe

/-- A response. -/
theorem Counted.findQuery (h : Counted s) (hsize : (pending s).length < 2 ^ 64) (id : UInt16) :
    Counted (s.findQuery id).2 := by
  rcases findQuery_cases id s with ⟨hnone, -⟩ | ⟨pre, be, post, hsplit, -, hfound⟩
  · rw [hnone]
    exact h
  · rw [hfound]
    have hperm := contents_remove (bucketOf_lt id) hsplit
    have hlength := hperm.length_eq
    rw [List.length_cons] at hlength
    have hcount : s.count_ = (contents DNS_BUCKET_SIZE s.bucket_).length := h.count
    refine ⟨?_, h.placed.sublist fun i => ?_⟩
    · show toSize ((s.count_ : Int) - 1) =
        (contents DNS_BUCKET_SIZE (Function.update s.bucket_ (bucketOf id) (pre ++ post))).length
      have hbound : (contents DNS_BUCKET_SIZE s.bucket_).length < 2 ^ 64 := hsize
      unfold toSize
      omega
    · show (Function.update s.bucket_ (bucketOf id) (pre ++ post) i).Sublist (s.bucket_ i)
      by_cases hi : i = bucketOf id
      · subst hi
        rw [Function.update_self]
        exact hsplit ▸ (List.sublist_cons_self be post).append_left pre
      · rw [Function.update_of_ne hi]

end Lists

/-! ### The invariant -/

/-- The table shows lists whose entries are counted, and it lies at addresses. -/
def Inv (t : DnsTable) : Prop :=
  ∃ entries s, Shows entries t s ∧ Counted s ∧ ∀ be ∈ t.live, 0 < be ∧ be < 2 ^ 64

/-- There are fewer entries than addresses. -/
theorem length_lt {l : List Nat} (hnodup : l.Nodup) (h : ∀ a ∈ l, 0 < a ∧ a < 2 ^ 64) :
    l.length < 2 ^ 64 := by
  have hsub : l.toFinset ⊆ Finset.Ico 1 (2 ^ 64) := fun a ha =>
    Finset.mem_Ico.mpr (h a (List.mem_toFinset.mp ha))
  have hcard := Finset.card_le_card hsub
  rw [List.toFinset_card_of_nodup hnodup, Nat.card_Ico] at hcard
  omega

section Steps
variable {entries : Nat → List Nat} {t t' : DnsTable} {s : Dns} {be task : Nat} {id : UInt16}
  {es : List Event}

/-- The entries of the lists are those in memory. -/
theorem Shows.pending_eq (h : Shows entries t s) :
    pending s = (contents DNS_BUCKET_SIZE entries).map fun be => ⟨t.task be⟩ := by
  rw [pending, h.bucket, contents, contents, List.map_flatMap]

theorem Shows.length_eq (h : Shows entries t s) : (pending s).length = t.live.length := by
  rw [h.pending_eq, List.length_map, h.rings.live.length_eq]

/-- A task that no entry is for is not pending. -/
theorem Shows.not_pending (h : Shows entries t s) (hnew : ∀ be ∈ t.live, t.task be ≠ task) :
    { task := task } ∉ pending s := by
  rw [h.pending_eq]
  intro hmem
  obtain ⟨be, hbe, heq⟩ := List.mem_map.mp hmem
  exact hnew be (h.rings.live.mem_iff.mpr hbe) (BucketEntry.mk.inj heq)

theorem Inv.consistent (h : Inv t) : Consistent t := by
  obtain ⟨entries, s, hshows, hcounted, -⟩ := h
  refine ⟨entries, hshows.rings.ring, ?_, fun i hi be hbe => ⟨hshows.rings.mem_live hbe, ?_⟩⟩
  · rw [← hshows.count, hcounted.count, hshows.pending_eq, List.length_map]
  · have hplaced := hcounted.placed i ⟨t.task be⟩ (by
      rw [hshows.bucket]
      exact List.mem_map.mpr ⟨be, hbe, rfl⟩)
    rw [queryId, hshows.tasks] at hplaced
    exact hplaced

/-- A request keeps the invariant, on every path. -/
theorem Inv.request {packet : Packet} {errors : List Int} (h : Inv t)
    (hlegal : Legal t (.request be task packet errors)) :
    ∃ es x, (t.request be task packet errors).Yields es x ∧ Inv x.2 := by
  obtain ⟨entries, s, hshows, hcounted, hrange⟩ := h
  obtain ⟨hbe, haddress, ⟨hnonneg, hname⟩, hnew, hudp⟩ := hlegal
  rw [← hshows.tasks] at hnonneg hname
  have hpending := hshows.not_pending hnew
  have hlive : (be :: t.live).Nodup := List.nodup_cons.mpr
    ⟨hbe, hshows.rings.live.nodup_iff.mpr hshows.rings.distinct⟩
  have haddresses : ∀ a ∈ be :: t.live, 0 < a ∧ a < 2 ^ 64 :=
    List.forall_mem_cons.mpr ⟨haddress, hrange⟩
  have hsize : (pending s).length + 1 < 2 ^ 64 := by
    rw [hshows.length_eq]
    exact length_lt hlive haddresses
  obtain ⟨es, ⟨ret, s'⟩, hlists⟩ := request_returns task errors packet hnonneg hname
  obtain ⟨x, hmemory, -, hsub, entries', hshows'⟩ :=
    (request_shows hshows hbe hudp).back hlists
  refine ⟨es, x, hmemory, entries', s', hshows', ?_, fun a ha => haddresses a (hsub ha)⟩
  rcases request_cases hlists with ⟨-, -, rfl⟩ | ⟨-, -, -, rfl⟩ | ⟨-, -, -, rfl⟩
  · exact hcounted
  · exact hcounted.refused hpending hsize
  · exact hcounted.enqueue hpending hsize

/-- A response keeps the invariant. -/
theorem Inv.findQuery (h : Inv t) (id : UInt16) :
    ∃ x, (t.findQuery id).Yields [] x ∧ Inv x.2 := by
  obtain ⟨entries, s, hshows, hcounted, hrange⟩ := h
  obtain ⟨entries', t', hfound, hshows', hsub⟩ := findQuery_shows hshows id
  have hsize : (pending s).length < 2 ^ 64 := by
    rw [hshows.length_eq]
    exact length_lt (hshows.rings.live.nodup_iff.mpr hshows.rings.distinct) hrange
  exact ⟨_, hfound, entries', _, hshows', hcounted.findQuery hsize id,
    fun a ha => hrange a (hsub ha)⟩

/-- What does not concern the entries does not concern the invariant. -/
theorem Inv.congr (h : Inv t) (hlinks : t'.links = t.links) (hlive : t'.live = t.live)
    (htask : t'.task = t.task) (hcount : t'.count_ = t.count_) (htasks : t'.tasks = t.tasks)
    (hcurrent : t'.current_ = t.current_) : Inv t' := by
  obtain ⟨entries, s, hshows, hcounted, hrange⟩ := h
  refine ⟨entries, { s with buffer_ := t'.buffer_ }, ⟨?_, ?_, ?_, ?_, rfl, ?_⟩,
    ⟨hcounted.count, hcounted.placed⟩, ?_⟩
  · rw [hlinks, hlive]
    exact hshows.rings
  · rw [htask]
    exact hshows.bucket
  · exact hshows.count.trans hcount.symm
  · exact hshows.tasks.trans htasks.symm
  · exact hshows.current.trans hcurrent.symm
  · rw [hlive]
    exact hrange

/-- So does setting up. -/
theorem Inv.init (h : Inv t) (evloop : Option Nat) (dnsfd errno enrolled : Int) :
    Inv (t.init evloop dnsfd errno enrolled).2 := by
  unfold Ndsl.Net.DnsTable.init
  split
  · exact h
  · dsimp only
    split
    · exact h.congr rfl rfl rfl rfl rfl rfl
    · split
      · exact h.congr rfl rfl rfl rfl rfl rfl
      · exact h.congr rfl rfl rfl rfl rfl rfl

/-- And setting a name server. -/
theorem Inv.setNameServer (h : Inv t) (hudp : t.udp_ ≠ none)
    (srv : Ndsl.Net.Dns.SocketAddress4) (connect : Option Int) (recv : Option (List UInt8))
    (errno : Int) : ∃ x, (t.setNameServer srv connect recv errno).Yields [] x ∧ Inv x.2 := by
  obtain ⟨fd, hfd⟩ := Option.ne_none_iff_exists'.mp hudp
  unfold Ndsl.Net.DnsTable.setNameServer
  split
  · exact ⟨_, ⟨rfl, rfl⟩, h⟩
  · dsimp only
    split
    · next hnone => exact absurd hnone hudp
    · split
      · exact ⟨_, ⟨rfl, rfl⟩, h.congr rfl rfl rfl rfl rfl rfl⟩
      · split
        · exact ⟨_, ⟨rfl, rfl⟩, h.congr rfl rfl rfl rfl rfl rfl⟩
        · split
          · exact ⟨_, ⟨rfl, rfl⟩, h.congr rfl rfl rfl rfl rfl rfl⟩
          · exact ⟨_, ⟨rfl, rfl⟩, h.congr rfl rfl rfl rfl rfl rfl⟩

/-- A table whose counter is 0 takes an address. -/
theorem setNameServer_takes {fd : Int} (hcount : t.count_ = 0) (hudp : t.udp_ = some fd)
    (srv : Ndsl.Net.Dns.SocketAddress4) (connect : Option Int) (recv : Option (List UInt8))
    (errno : Int) : ∃ ret u, (t.setNameServer srv connect recv errno).Yields [] (ret, u) ∧
      u.address_ = srv := by
  unfold Ndsl.Net.DnsTable.setNameServer
  rw [if_neg (not_not.mpr hcount)]
  dsimp only
  split
  · next hnone => exact absurd (hudp.symm.trans hnone) (Option.some_ne_none fd)
  · split
    · exact ⟨_, _, ⟨rfl, rfl⟩, rfl⟩
    · split
      · exact ⟨_, _, ⟨rfl, rfl⟩, rfl⟩
      · split
        · exact ⟨_, _, ⟨rfl, rfl⟩, rfl⟩
        · exact ⟨_, _, ⟨rfl, rfl⟩, rfl⟩

theorem accepts_of_count (h : t.count_ = 0) : Accepts t := by
  intro loop dnsfd errno enrolled srv connect recv errno'
  have hinit : (t.init (some loop) dnsfd errno enrolled).2.count_ = 0 ∧
      (t.init (some loop) dnsfd errno enrolled).2.udp_ = some dnsfd := by
    unfold Ndsl.Net.DnsTable.init
    dsimp only
    split
    · exact ⟨h, rfl⟩
    · split
      · exact ⟨h, rfl⟩
      · exact ⟨h, rfl⟩
  exact setNameServer_takes hinit.1 hinit.2 srv connect recv errno'

/-- What `stop` does. When no request is pending it keeps the invariant. -/
theorem Inv.stop (h : Inv t) (hloop : t.loop_ ≠ none) (hudp : t.udp_ ≠ none) :
    ∃ t', t.stop.Yields [] t' ∧ t'.count_ = t.count_ ∧ (t.count_ = 0 → Inv t' ∧ Stopped t') := by
  obtain ⟨entries, s, hshows, -, -⟩ := h
  obtain ⟨t', hstop, hrings, hcount⟩ := stop_yields hshows.rings hloop hudp
  refine ⟨t', hstop, hcount, fun hzero => ?_⟩
  have hzero' : t'.count_ = 0 := hcount.trans hzero
  have hlive : t'.live = [] := List.perm_nil.mp (contents_nil (α := Nat) ▸ hrings.live)
  refine ⟨⟨fun _ => [], ⟨t'.count_, fun _ => [], t'.tasks, t'.buffer_, t'.current_⟩,
    ⟨hrings, rfl, rfl, rfl, rfl, rfl⟩, ⟨?_, fun i be hbe => ?_⟩, ?_⟩, fun i hi => ?_, hzero',
    accepts_of_count hzero'⟩
  · rw [pending, contents_nil]
    exact hzero'
  · exact absurd hbe List.not_mem_nil
  · rw [hlive]
    exact fun be hbe => absurd hbe List.not_mem_nil
  · exact (hrings.ring i hi).empty_iff.mpr rfl

/-- A step of a user either keeps the invariant, and is careful, or it leaves a counter that is
wrong. -/
theorem Inv.step (h : Inv t) {action : Action} (hlegal : Legal t action) :
    ∃ es t', (t.step action).Yields es t' ∧
      (Careful t action → Inv t' ∧ (action = .stop → Stopped t')) ∧
      (action = .stop → t'.count_ = t.count_) := by
  cases action with
  | init evloop dnsfd errno enrolled =>
      exact ⟨[], _, (Traced.pure_yields ..).mpr ⟨rfl, rfl⟩,
        fun _ => ⟨h.init evloop dnsfd errno enrolled, nofun⟩, nofun⟩
  | setNameServer srv connect recv errno =>
      obtain ⟨x, hset, hinv⟩ := h.setNameServer hlegal srv connect recv errno
      exact ⟨_, _, Traced.bind_yields.mpr ⟨[], x, [], hset, ⟨rfl, rfl⟩, rfl⟩,
        fun _ => ⟨hinv, nofun⟩, nofun⟩
  | request be task packet errors =>
      obtain ⟨es, x, hrequest, hinv⟩ := h.request hlegal
      exact ⟨_, _, Traced.bind_yields.mpr ⟨es, x, [], hrequest, ⟨rfl, rfl⟩, rfl⟩,
        fun _ => ⟨hinv, nofun⟩, nofun⟩
  | findQuery id =>
      obtain ⟨x, hfind, hinv⟩ := h.findQuery id
      exact ⟨_, _, Traced.bind_yields.mpr ⟨[], x, [], hfind, ⟨rfl, rfl⟩, rfl⟩,
        fun _ => ⟨hinv, nofun⟩, nofun⟩
  | stop =>
      obtain ⟨t', hstop, hcount, hkept⟩ := h.stop hlegal.1 hlegal.2
      exact ⟨[], t', hstop, fun hzero => ⟨(hkept hzero).1, fun _ => (hkept hzero).2⟩,
        fun _ => hcount⟩

/-- A consistent table with empty rings counts nothing. -/
theorem Consistent.count_eq_zero (h : Consistent t)
    (hempty : ∀ i < DNS_BUCKET_SIZE, t.links.empty (.head i) = true) : t.count_ = 0 := by
  obtain ⟨entries, hholds⟩ := h
  have hnone : contents DNS_BUCKET_SIZE entries = [] := by
    refine List.eq_nil_iff_forall_not_mem.mpr fun be hbe => ?_
    obtain ⟨i, hi, hmem⟩ := mem_contents.mp hbe
    have hring := (hholds.ring i hi).empty_iff.mp (hempty i hi)
    rw [List.map_eq_nil_iff.mp hring] at hmem
    exact absurd hmem List.not_mem_nil
  rw [hholds.count, hnone]
  rfl

end Steps

/-! ### Whole runs -/

/-- The constructor leaves empty rings. -/
theorem inv_fresh (tasks : Nat → Ndsl.Net.Dns.DnsTask) (buffer_ : Ndsl.Net.Dns.Buffer) :
    Inv (fresh tasks buffer_) := by
  refine ⟨fun _ => [], Ndsl.Net.Dns.fresh tasks buffer_,
    ⟨⟨fun i _ => ⟨List.nodup_singleton _, rfl, rfl⟩, ?_, ?_, fun _ _ => rfl⟩, rfl, rfl, rfl, rfl,
      rfl⟩, ⟨?_, fun i be hbe => absurd hbe List.not_mem_nil⟩,
    fun be hbe => absurd hbe List.not_mem_nil⟩
  · rw [contents_nil]
    exact List.nodup_nil
  · rw [contents_nil]
    exact List.Perm.refl []
  · show 0 = (contents DNS_BUCKET_SIZE fun _ => []).length
    rw [contents_nil]
    rfl

/-- Runs whose steps are careful keep the table consistent, and another step keeps it exactly when
it is careful. -/
theorem consistent_iff {tasks : Nat → Ndsl.Net.Dns.DnsTask} {buffer_ : Ndsl.Net.Dns.Buffer}
    {actions : List Action} {log : List Event} {t : DnsTable}
    (hrun : Traced.Run Ndsl.Net.DnsTable.step (fun t action => Legal t action ∧ Careful t action)
      (fresh tasks buffer_) actions log t) :
    Consistent t ∧ ∀ action, Legal t action →
      ((∃ es t', (t.step action).Yields es t' ∧ Kept action t') ↔ Careful t action) := by
  have hinv : Inv t := hrun.invariant (P := fun _ _ t => Inv t) (inv_fresh tasks buffer_)
    fun _ _ t action es t' h hok hstep => by
      obtain ⟨es', u, hstep', hkept, -⟩ := h.step hok.1
      obtain ⟨-, rfl⟩ := hstep.unique hstep'
      exact (hkept hok.2).1
  refine ⟨hinv.consistent, fun action hlegal => ?_⟩
  obtain ⟨es, t', hstep, hkept, hcount⟩ := hinv.step hlegal
  constructor
  · rintro ⟨es', u, hstep', hlaw⟩
    obtain ⟨-, rfl⟩ := hstep.unique hstep'
    cases action with
    | stop => exact (hcount rfl).symm.trans (hlaw.stopped rfl).count
    | init evloop dnsfd errno enrolled => trivial
    | setNameServer srv connect recv errno => trivial
    | request be task packet errors => trivial
    | findQuery id => trivial
  · intro hcareful
    exact ⟨es, t', hstep, (hkept hcareful).1.consistent, (hkept hcareful).2⟩

/-- A request that is answered, and a `stop` behind it. -/
theorem consistent_iff_answered : ∃ log t,
    Traced.Run Ndsl.Net.DnsTable.step (fun t action => Legal t action ∧ Careful t action)
      (fresh (fun _ => named) unused)
      [.init (some 0) 3 0 0, .request 1 0 blank [], .findQuery 0, .stop] log t ∧
    t.live = [] ∧ Consistent t ∧ ∀ action, Legal t action →
      ((∃ es t', (t.step action).Yields es t' ∧ Kept action t') ↔ Careful t action) := by
  have hrun : ∃ log t,
      Traced.Run Ndsl.Net.DnsTable.step (fun t action => Legal t action ∧ Careful t action)
        (fresh (fun _ => named) unused)
        [.init (some 0) 3 0 0, .request 1 0 blank [], .findQuery 0, .stop] log t ∧
      t.live = [] := by
    refine ⟨_, _, .snoc (.snoc (.snoc (.snoc (l := []) .nil ?_ ⟨rfl, rfl⟩) ?_ ⟨rfl, rfl⟩) ?_
      ⟨rfl, rfl⟩) ?_ ⟨rfl, rfl⟩, rfl⟩
    · exact ⟨trivial, trivial⟩
    · refine ⟨⟨List.not_mem_nil, by decide, ?_, fun be hbe => absurd hbe List.not_mem_nil,
        Option.some_ne_none 3⟩, trivial⟩
      decide
    · exact ⟨trivial, trivial⟩
    · exact ⟨⟨Option.some_ne_none 0, Option.some_ne_none 3⟩, rfl⟩
  obtain ⟨log, t, hrun, hlive⟩ := hrun
  exact ⟨log, t, hrun, hlive, consistent_iff hrun⟩

/-- A request that is pending when `stop` comes. No entry is left, and `count_` is 1; a name server
is refused from then on. -/
theorem stop_leaves_count : ∃ log t,
    Traced.Run Ndsl.Net.DnsTable.step Legal (fresh (fun _ => named) unused)
      [.init (some 0) 3 0 0, .request 1 0 blank [], .stop] log t ∧
    t.live = [] ∧ t.count_ = 1 ∧ ¬ Consistent t ∧ ∀ srv connect recv errno, ∃ u,
      ((t.init (some 0) 3 0 0).2.setNameServer srv connect recv errno).Yields [] (EINVAL, u) := by
  have hrun : ∃ log t, Traced.Run Ndsl.Net.DnsTable.step Legal (fresh (fun _ => named) unused)
      [.init (some 0) 3 0 0, .request 1 0 blank [], .stop] log t ∧ t.live = [] ∧ t.count_ = 1 ∧
      ∀ i < DNS_BUCKET_SIZE, t.links.empty (.head i) = true := by
    refine ⟨_, _, .snoc (.snoc (.snoc (l := []) .nil ?_ ⟨rfl, rfl⟩) ?_ ⟨rfl, rfl⟩) ?_ ⟨rfl, rfl⟩,
      rfl, rfl, ?_⟩
    · exact trivial
    · refine ⟨List.not_mem_nil, by decide, ?_, fun be hbe => absurd hbe List.not_mem_nil,
        Option.some_ne_none 3⟩
      decide
    · exact ⟨Option.some_ne_none 0, Option.some_ne_none 3⟩
    · decide
  obtain ⟨log, t, hrun, hlive, hcount, hempty⟩ := hrun
  refine ⟨log, t, hrun, hlive, hcount, fun h => ?_, fun srv connect recv errno =>
    ⟨(t.init (some 0) 3 0 0).2, ?_⟩⟩
  · exact absurd (hcount.symm.trans (h.count_eq_zero hempty)) Nat.one_ne_zero
  · have hone : (t.init (some 0) 3 0 0).2.count_ ≠ 0 := by
      show t.count_ ≠ 0
      rw [hcount]
      exact Nat.one_ne_zero
    unfold setNameServer
    rw [if_pos hone]
    exact ⟨rfl, rfl⟩

end Ndsl.Proofs.DnsTable
