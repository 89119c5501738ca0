import Ndsl.Net.DnsTable
import Ndsl.Proofs.Dns.Ids

/-!
# `Ndsl.Proofs.Dns.Rings`: the table of a `Dns` in memory

`Rings entries links live` says that the pointers of each bucket close to a ring over its entries,
and that these are the entries that have been allocated. `Shows entries t s` says that such a table
is what `Ndsl.Net.Dns` has as lists. `request_shows` and `findQuery_shows` are the two sides of one
coin for each operation: what `request` and `find_query` do in memory is what they do to the lists.
-/

set_option autoImplicit false

namespace Ndsl.Proofs.DnsTable

open Ndsl.Lib Ndsl.Lib.Buckets
open Ndsl.Net (Dns DnsTable S_OK toSize)
open Ndsl.Net.Dns (DNS_BUCKET_SIZE EINVAL Event Packet BucketEntry packetHead packetTail coding
  sendPacket)
open Ndsl.Net.DnsTable (Node findFrom drain)
open Ndsl.Proofs.Dns (pending queryId bucketOf bucketOf_lt nextId)

/-- The pointers of each bucket close to a ring over its entries, and no other ones are allocated.
-/
structure Rings (entries : Nat → List Nat) (links : Links Node) (live : List Nat) : Prop where
  ring : ∀ i < DNS_BUCKET_SIZE, links.Ring (.head i) ((entries i).map .entry)
  distinct : (contents DNS_BUCKET_SIZE entries).Nodup
  live : live.Perm (contents DNS_BUCKET_SIZE entries)
  outside : ∀ i, DNS_BUCKET_SIZE ≤ i → entries i = []

/-- The table in memory shows the lists of `s`. -/
structure Shows (entries : Nat → List Nat) (t : DnsTable) (s : Dns) : Prop where
  rings : Rings entries t.links t.live
  bucket : s.bucket_ = fun i => (entries i).map fun be => ⟨t.task be⟩
  count : s.count_ = t.count_
  tasks : s.tasks = t.tasks
  buffer : s.buffer_ = t.buffer_
  current : s.current_ = t.current_

namespace Rings

variable {entries : Nat → List Nat} {links : Links Node} {live : List Nat} {be i : Nat}
  {pre post : List Nat}

/-- The rings of two buckets have no node in common. -/
theorem disjoint (h : Rings entries links live) {j : Nat} (hi : i < DNS_BUCKET_SIZE)
    (hj : j < DNS_BUCKET_SIZE) (hne : i ≠ j) :
    ∀ c ∈ Node.head i :: (entries i).map .entry, c ∉ Node.head j :: (entries j).map .entry := by
  intro c hc hc'
  rcases List.mem_cons.mp hc with rfl | hc
  · rcases List.mem_cons.mp hc' with heq | hc'
    · exact hne (Node.head.inj heq)
    · obtain ⟨be, -, heq⟩ := List.mem_map.mp hc'
      exact Node.noConfusion heq
  · obtain ⟨be, hbe, rfl⟩ := List.mem_map.mp hc
    rcases List.mem_cons.mp hc' with heq | hc'
    · exact Node.noConfusion heq
    · obtain ⟨be', hbe', heq⟩ := List.mem_map.mp hc'
      obtain rfl := Node.entry.inj heq
      exact hne (index_eq_of_nodup h.distinct hi hj hbe hbe')

/-- The entries have been allocated. -/
theorem mem_live (h : Rings entries links live) (hbe : be ∈ entries i) : be ∈ live := by
  rcases Nat.lt_or_ge i DNS_BUCKET_SIZE with hi | hi
  · exact h.live.mem_iff.mpr (mem_contents.mpr ⟨i, hi, hbe⟩)
  · rw [h.outside i hi] at hbe
    exact absurd hbe List.not_mem_nil

/-- What changes in one of the buckets does not change what lies outside. -/
theorem outside_update (h : Rings entries links live) (hi : i < DNS_BUCKET_SIZE) (l : List Nat) :
    ∀ j, DNS_BUCKET_SIZE ≤ j → Function.update entries i l j = [] := fun j hj => by
  rw [Function.update_of_ne (Nat.ne_of_gt (Nat.lt_of_lt_of_le hi hj))]
  exact h.outside j hj

/-- An address that has not been allocated is no node. -/
theorem not_mem (h : Rings entries links live) (hbe : be ∉ live) :
    Node.entry be ∉ Node.head i :: (entries i).map .entry := by
  intro hmem
  rcases List.mem_cons.mp hmem with heq | hmem
  · exact Node.noConfusion heq
  · obtain ⟨be', hbe', heq⟩ := List.mem_map.mp hmem
    obtain rfl := Node.entry.inj heq
    exact hbe (h.mem_live hbe')

/-- The tasks of the entries are what they were when an address that has not been allocated gets
one. -/
theorem map_task (h : Rings entries links live) (hbe : be ∉ live) (f : Nat → Nat) (task i : Nat) :
    (entries i).map (fun be' => (⟨Function.update f be task be'⟩ : BucketEntry)) =
      (entries i).map fun be' => ⟨f be'⟩ := by
  refine List.map_congr_left fun be' hbe' => ?_
  have hne : be' ≠ be := fun heq => hbe (heq ▸ h.mem_live hbe')
  rw [Function.update_of_ne hne]

/-- A new entry becomes the first one of a bucket. -/
theorem push (h : Rings entries links live) (hbe : be ∉ live) (hi : i < DNS_BUCKET_SIZE)
    (pair : Links.Pair Node) :
    Rings (Function.update entries i (be :: entries i))
      (Links.insertAfter (Function.update links (.entry be) pair) (.head i) (.entry be))
      (be :: live) := by
  have hbefore : ∀ j < DNS_BUCKET_SIZE,
      Links.Ring (Function.update links (.entry be) pair) (.head j) ((entries j).map .entry) :=
    fun j hj => (h.ring j hj).update (h.not_mem hbe) pair
  have hperm : (contents DNS_BUCKET_SIZE (Function.update entries i (be :: entries i))).Perm
      (be :: contents DNS_BUCKET_SIZE entries) := contents_cons hi be
  refine ⟨fun j hj => ?_, ?_, (h.live.cons be).trans hperm.symm, h.outside_update hi _⟩
  · by_cases hne : j = i
    · subst hne
      rw [Function.update_self]
      exact (hbefore j hj).insertAfter (h.not_mem hbe)
    · rw [Function.update_of_ne hne]
      exact (hbefore i hi).frame_insertAfter (hbefore j hj) (h.not_mem hbe)
        (h.disjoint hi hj (Ne.symm hne))
  · rw [hperm.nodup_iff, List.nodup_cons]
    exact ⟨fun hmem => hbe (h.live.mem_iff.mpr hmem), h.distinct⟩

/-- An entry is taken out. -/
theorem remove (h : Rings entries links live) (hi : i < DNS_BUCKET_SIZE) (pre : List Nat)
    (hentries : entries i = pre ++ be :: post) :
    be ∈ live ∧ Rings (Function.update entries i (pre ++ post)) (links.erase (.entry be))
      (live.erase be) := by
  have hring : links.Ring (.head i) (pre.map .entry ++ .entry be :: post.map .entry) := by
    have hfull := h.ring i hi
    rwa [hentries, List.map_append, List.map_cons] at hfull
  have hperm := contents_remove hi hentries
  have hmem : be ∈ live := h.live.mem_iff.mpr (hperm.mem_iff.mpr List.mem_cons_self)
  refine ⟨hmem, fun j hj => ?_, ?_, ?_, h.outside_update hi _⟩
  · by_cases hne : j = i
    · subst hne
      rw [Function.update_self, List.map_append]
      exact hring.erase
    · rw [Function.update_of_ne hne]
      refine hring.frame_erase (h.ring j hj) ?_
      have hdisjoint := h.disjoint hi hj (Ne.symm hne)
      rwa [hentries, List.map_append, List.map_cons] at hdisjoint
  · exact (List.nodup_cons.mp (hperm.nodup_iff.mp h.distinct)).2
  · have herase := (h.live.trans hperm).erase be
    rwa [List.erase_cons_head] at herase

/-- A bucket has no more entries than have been allocated. -/
theorem length_le (h : Rings entries links live) (hi : i < DNS_BUCKET_SIZE) :
    (entries i).length ≤ live.length := by
  rw [h.live.length_eq]
  exact (bucket_sublist hi entries).length_le

end Rings

section Operations
variable {entries : Nat → List Nat} {t : DnsTable} {s : Dns} {be task i : Nat} {id : UInt16}
  {pre post : List Nat}

/-- An entry that has been allocated can be deleted. -/
theorem delete_yields (h : be ∈ t.live) :
    (t.delete be).Yields [] { t with live := t.live.erase be } := by
  rw [Ndsl.Net.DnsTable.delete, if_pos h]
  exact ⟨rfl, rfl⟩

/-! ### Requests -/

/-- A new entry, in memory and in the lists. -/
theorem Shows.enqueue (h : Shows entries t s) (hbe : be ∉ t.live) (task : Nat) :
    Shows (Function.update entries (bucketOf (nextId s)) (be :: entries (bucketOf (nextId s))))
      (t.enqueue be task) (s.enqueue task) := by
  have hid : t.current_.toUInt16 = nextId s := by rw [nextId, h.current]
  refine ⟨?_, ?_, ?_, ?_, h.buffer, congrArg (· + 1) h.current⟩
  · have hpush := h.rings.push hbe (bucketOf_lt (nextId s)) ⟨.entry be, .entry be⟩
    rw [← hid] at hpush ⊢
    exact hpush
  · funext i
    have hothers := h.rings.map_task hbe t.task task i
    show Function.update s.bucket_ (bucketOf (nextId s)) _ i =
      (Function.update entries (bucketOf (nextId s)) _ i).map
        fun be' => ⟨Function.update t.task be task be'⟩
    by_cases hi : i = bucketOf (nextId s)
    · subst hi
      rw [Function.update_self, Function.update_self, List.map_cons, Function.update_self, hothers,
        h.bucket]
      rfl
    · rw [Function.update_of_ne hi, Function.update_of_ne hi, hothers, h.bucket]
  · show toSize (s.count_ + 1) = toSize (t.count_ + 1)
    rw [h.count]
  · show Function.update s.tasks task _ = Function.update t.tasks task _
    rw [h.tasks, h.current]
    rfl

/-- An entry that is taken out, in memory and in the lists. -/
theorem Shows.remove (h : Shows entries t s) (hi : i < DNS_BUCKET_SIZE) (count : Nat)
    (pre : List Nat) (hentries : entries i = pre ++ be :: post) :
    be ∈ t.live ∧ Shows (Function.update entries i (pre ++ post))
      { t.erase be with live := t.live.erase be, count_ := count }
      { s with
        bucket_ := Function.update s.bucket_ i ((pre ++ post).map fun be => ⟨t.task be⟩)
        count_ := count } := by
  obtain ⟨hmem, hrings⟩ := h.rings.remove hi pre hentries
  refine ⟨hmem, hrings, ?_, rfl, h.tasks, h.buffer, h.current⟩
  funext j
  show Function.update s.bucket_ i _ j = (Function.update entries i _ j).map _
  by_cases hj : j = i
  · subst hj
    rw [Function.update_self, Function.update_self]
    rfl
  · rw [Function.update_of_ne hj, Function.update_of_ne hj, h.bucket]
    rfl

/-- The new entry is taken out again, in memory and in the lists. -/
theorem Shows.dequeue (h : Shows entries t s) (hbe : be ∉ t.live) (task : Nat) :
    ∃ t', ((t.enqueue be task).dequeue be).Yields [] t' ∧
      Shows entries t' ((s.enqueue task).dequeue task) ∧ t'.live = t.live := by
  have hshows := h.enqueue hbe task
  obtain ⟨hmem, hremoved⟩ := hshows.remove (bucketOf_lt (nextId s))
    (toSize (((t.enqueue be task).count_ : Int) - 1)) [] (Function.update_self ..)
  refine ⟨_, ?_, ⟨?_, ?_, ?_, hremoved.tasks, hremoved.buffer, hremoved.current⟩,
    List.erase_cons_head ..⟩
  · have hdelete : (((t.enqueue be task).erase be).delete be).Yields [] _ := delete_yields hmem
    exact Traced.bind_yields.mpr ⟨[], _, [], hdelete, (Traced.pure_yields ..).mpr ⟨rfl, rfl⟩, rfl⟩
  · have hrings := hremoved.rings
    rw [Function.update_idem, List.nil_append, Function.update_eq_self] at hrings
    exact hrings
  · rw [Ndsl.Proofs.Dns.bucket_dequeue_enqueue, h.bucket]
    exact funext fun i => (h.rings.map_task hbe t.task task i).symm
  · show toSize ((s.enqueue task).count_ - 1) = toSize ((t.enqueue be task).count_ - 1)
    rw [hshows.count]

/-- `request` in memory is `request` on the lists. -/
theorem request_shows {packet : Packet} {errors : List Int} (h : Shows entries t s)
    (hbe : be ∉ t.live) (hudp : t.udp_ ≠ none) :
    Traced.Simulates (fun x y => x.1 = y.1 ∧ x.2.live ⊆ be :: t.live ∧
        ∃ entries', Shows entries' x.2 y.2)
      (t.request be task packet errors) (s.request task packet errors) := by
  have hshows := h.enqueue hbe task
  have hopen : (t.enqueue be task).udp_ ≠ none := hudp
  unfold Ndsl.Net.DnsTable.request Dns.request
  rw [← h.tasks]
  split
  · exact .pure ⟨rfl, List.subset_cons_self be t.live, entries, h⟩
  · dsimp only
    rw [← hshows.tasks]
    refine (Traced.Simulates.refl _).bind fun _ packet heq => ?_
    subst heq
    refine (Traced.Simulates.refl _).bind fun _ coded heq => ?_
    subst heq
    split
    · -- `coding` has refused the name
      obtain ⟨t', hdequeue, hback, hlive⟩ := h.dequeue hbe task
      exact .of_yields (Traced.bind_yields.mpr ⟨[], t', [], hdequeue, ⟨rfl, rfl⟩, rfl⟩) ⟨rfl, rfl⟩
        ⟨rfl, hlive ▸ List.subset_cons_self be t.live, entries, hback⟩
    · refine (Traced.Simulates.refl _).bind fun _ packet heq => ?_
      subst heq
      obtain ⟨fd, hfd⟩ := Option.ne_none_iff_exists'.mp hopen
      rw [hfd]
      refine (Traced.Simulates.refl _).bind fun _ ret heq => ?_
      exact .pure ⟨heq, List.Subset.refl _, _, hshows⟩

/-! ### Responses -/

/-- The entry is one that `find_query` looks for. -/
def wanted (t : DnsTable) (id : UInt16) (be : Nat) : Bool :=
  (t.tasks (t.task be)).query_id = id

/-- The loop of `find_query` along the rest of a ring. -/
theorem findFrom_ring (id : UInt16) (index : Nat) : ∀ {ys : List Nat} {fuel : Nat} {a : Node},
    t.links.Path a (ys.map .entry) (.head index) → ys.length < fuel →
    (findFrom id index fuel (t.links a).next t).Yields [] (ys.find? (wanted t id))
  | [], fuel + 1, a, hpath, _ => by
      rw [hpath.1, findFrom, if_pos rfl]
      exact ⟨rfl, rfl⟩
  | be :: ys, fuel + 1, a, hpath, hlen => by
      obtain ⟨hnext, -, hrest⟩ := hpath
      rw [hnext, findFrom, if_neg Node.noConfusion]
      by_cases hid : (t.tasks (t.task be)).query_id = id
      · rw [List.find?_cons_of_pos (show wanted t id be = true from decide_eq_true hid), if_pos hid]
        exact ⟨rfl, rfl⟩
      · rw [List.find?_cons_of_neg (show ¬ wanted t id be = true from by simpa [wanted] using hid),
          if_neg hid]
        exact findFrom_ring id index hrest (Nat.lt_of_succ_lt_succ hlen)

/-- What `find_query` does to the lists when no entry is found. -/
theorem Shows.findQuery_none (h : Shows entries t s)
    (hnone : (entries (bucketOf id)).find? (wanted t id) = none) :
    s.findQuery id = (none, s) := by
  have hfind : (s.bucket_ (bucketOf id)).find? (fun be => (s.tasks be.task).query_id = id) =
      none := by
    rw [h.bucket, List.find?_map, h.tasks]
    exact Option.map_eq_none_iff.mpr hnone
  unfold Dns.findQuery
  rw [show id.toNat % DNS_BUCKET_SIZE = bucketOf id from rfl]
  dsimp only
  rw [hfind]

/-- And when one is found. -/
theorem Shows.findQuery_some (h : Shows entries t s)
    (hentries : entries (bucketOf id) = pre ++ be :: post) (hbe : wanted t id be = true)
    (hpre : ∀ a ∈ pre, ¬ wanted t id a = true) :
    s.findQuery id = (some (t.task be),
      { s with
        bucket_ := Function.update s.bucket_ (bucketOf id)
          ((pre ++ post).map fun be => ⟨t.task be⟩)
        count_ := toSize ((s.count_ : Int) - 1) }) := by
  have hbucket : s.bucket_ (bucketOf id) =
      (pre ++ be :: post).map fun be => (⟨t.task be⟩ : BucketEntry) := by
    rw [h.bucket, ← hentries]
  have hwanted : (fun be : BucketEntry => decide ((s.tasks be.task).query_id = id)) ∘
      (fun be => (⟨t.task be⟩ : BucketEntry)) = wanted t id := by
    rw [h.tasks]
    rfl
  have hfind : (s.bucket_ (bucketOf id)).find? (fun be => (s.tasks be.task).query_id = id) =
      some ⟨t.task be⟩ := by
    rw [hbucket, List.find?_map, hwanted, List.find?_append, List.find?_eq_none.mpr hpre,
      List.find?_cons_of_pos hbe]
    rfl
  have herase : (s.bucket_ (bucketOf id)).eraseP (fun be => (s.tasks be.task).query_id = id) =
      (pre ++ post).map fun be => ⟨t.task be⟩ := by
    rw [hbucket, List.eraseP_map, hwanted, List.eraseP_append_right _ hpre,
      List.eraseP_cons_of_pos hbe]
  unfold Dns.findQuery
  rw [show id.toNat % DNS_BUCKET_SIZE = bucketOf id from rfl]
  dsimp only
  rw [hfind, herase]

/-- `find_query` in memory is `find_query` on the lists. It comes to an end. -/
theorem findQuery_shows (h : Shows entries t s) (id : UInt16) : ∃ entries' t',
    (t.findQuery id).Yields [] ((s.findQuery id).1, t') ∧
      Shows entries' t' (s.findQuery id).2 ∧ t'.live ⊆ t.live := by
  have hlt : bucketOf id < DNS_BUCKET_SIZE := bucketOf_lt id
  have hlen : (entries (bucketOf id)).length < t.live.length + 1 :=
    Nat.lt_succ_of_le (h.rings.length_le hlt)
  have hsearch := findFrom_ring id (bucketOf id) (h.rings.ring _ hlt).path hlen
  cases hfind : (entries (bucketOf id)).find? (wanted t id) with
  | none =>
      rw [hfind] at hsearch
      rw [h.findQuery_none hfind]
      exact ⟨entries, t, Traced.bind_yields.mpr ⟨[], none, [], hsearch, ⟨rfl, rfl⟩, rfl⟩, h,
        List.Subset.refl _⟩
  | some be =>
      rw [hfind] at hsearch
      obtain ⟨hbe, pre, post, hentries, hpre⟩ := List.find?_eq_some_iff_append.mp hfind
      obtain ⟨hmem, hremoved⟩ := h.remove hlt (toSize ((t.count_ : Int) - 1)) pre hentries
      rw [h.findQuery_some hentries hbe (by simpa using hpre)]
      have hdelete : ((t.erase be).delete be).Yields [] _ := delete_yields hmem
      have hfound : (t.findQuery id).Yields [] (some (t.task be),
          { t.erase be with live := t.live.erase be, count_ := toSize ((t.count_ : Int) - 1) }) :=
        Traced.bind_yields.mpr ⟨[], some be, [], hsearch, Traced.bind_yields.mpr
          ⟨[], _, [], hdelete, (Traced.pure_yields ..).mpr ⟨rfl, rfl⟩, rfl⟩, rfl⟩
      rw [h.count]
      exact ⟨_, _, hfound, hremoved, List.erase_subset⟩

/-! ### Stopping -/

/-- The inner loop of `stop` takes all entries out of a bucket. It comes to an end. -/
theorem drain_yields (hi : i < DNS_BUCKET_SIZE) : ∀ {xs : List Nat} {fuel : Nat}
    {entries : Nat → List Nat} {t : DnsTable}, Rings entries t.links t.live → entries i = xs →
    xs.length ≤ fuel → ∃ t', (drain i fuel t).Yields [] t' ∧
      Rings (Function.update entries i []) t'.links t'.live ∧ t'.count_ = t.count_
  | [], fuel, entries, t, h, hentries, _ => by
      have hempty : t.links.empty (.head i) = true :=
        (h.ring i hi).empty_iff.mpr (by rw [hentries]; rfl)
      have hsame : Function.update entries i [] = entries := by
        rw [← hentries, Function.update_eq_self]
      refine ⟨t, ?_, ?_, rfl⟩
      · cases fuel with
        | zero =>
            rw [drain, if_pos hempty]
            exact ⟨rfl, rfl⟩
        | succ fuel =>
            rw [drain, if_pos hempty]
            exact ⟨rfl, rfl⟩
      · rw [hsame]
        exact h
  | be :: xs, fuel + 1, entries, t, h, hentries, hlen => by
      have hring := h.ring i hi
      have hnot : ¬ t.links.empty (.head i) = true := by
        rw [hring.empty_iff, hentries]
        exact List.cons_ne_nil _ _
      have hnext : (t.links (.head i)).next = .entry be := by
        rw [hring.path.next, hentries]
        rfl
      obtain ⟨hmem, hremoved⟩ := h.remove hi [] hentries
      -- the rest of the bucket
      obtain ⟨t', hdrain, hrings, hcount⟩ := drain_yields hi
        (t := { t.erase be with live := t.live.erase be }) hremoved (Function.update_self ..)
        (Nat.le_of_succ_le_succ hlen)
      refine ⟨t', ?_, ?_, hcount⟩
      · rw [drain, if_neg hnot, hnext]
        have hdelete : ((t.erase be).delete be).Yields [] _ := delete_yields hmem
        exact Traced.bind_yields.mpr ⟨[], _, [], hdelete, hdrain, rfl⟩
      · rwa [Function.update_idem] at hrings

/-- The outer loop does so with each of its buckets. -/
theorem drains_yields : ∀ {is : List Nat} {entries : Nat → List Nat} {t : DnsTable},
    (∀ i ∈ is, i < DNS_BUCKET_SIZE) → Rings entries t.links t.live →
    ∃ t' entries', (is.foldlM (fun t index => drain index t.live.length t) t).Yields [] t' ∧
      Rings entries' t'.links t'.live ∧ t'.count_ = t.count_ ∧
      ∀ i, i ∈ is ∨ entries i = [] → entries' i = []
  | [], entries, t, _, h => ⟨t, entries, ⟨rfl, rfl⟩, h, rfl, fun i hi =>
      hi.resolve_left List.not_mem_nil⟩
  | i :: is, entries, t, his, h => by
      have hlt := his i List.mem_cons_self
      obtain ⟨u, hdrain, hrings, hcount⟩ := drain_yields hlt h rfl (h.length_le hlt)
      obtain ⟨t', entries', hrest, hrings', hcount', hempty⟩ :=
        drains_yields (fun j hj => his j (List.mem_cons_of_mem i hj)) hrings
      refine ⟨t', entries', ?_, hrings', hcount'.trans hcount, fun j hj => hempty j ?_⟩
      · rw [List.foldlM_cons]
        exact Traced.bind_yields.mpr ⟨[], u, [], hdrain, hrest, rfl⟩
      · by_cases hji : j = i
        · subst hji
          exact .inr (Function.update_self ..)
        · rw [Function.update_of_ne hji]
          exact hj.imp_left fun hmem => (List.mem_cons.mp hmem).resolve_left hji

/-- `stop` leaves no entry. It comes to an end, and `count_` is what it was. -/
theorem stop_yields (h : Rings entries t.links t.live) (hloop : t.loop_ ≠ none)
    (hudp : t.udp_ ≠ none) : ∃ t', t.stop.Yields [] t' ∧
      Rings (fun _ => []) t'.links t'.live ∧ t'.count_ = t.count_ := by
  obtain ⟨loop, hloop⟩ := Option.ne_none_iff_exists'.mp hloop
  obtain ⟨fd, hudp⟩ := Option.ne_none_iff_exists'.mp hudp
  have hlt : ∀ i ∈ List.range DNS_BUCKET_SIZE, i < DNS_BUCKET_SIZE := fun i => List.mem_range.mp
  obtain ⟨t', entries', hdrains, hrings, hcount, hempty⟩ :=
    drains_yields (t := { t with udp_ := none }) hlt h
  have hnone : entries' = fun _ => [] := by
    funext i
    rcases Nat.lt_or_ge i DNS_BUCKET_SIZE with hi | hi
    · exact hempty i (.inl (List.mem_range.mpr hi))
    · exact hrings.outside i hi
  refine ⟨t', ?_, hnone ▸ hrings, hcount⟩
  unfold Ndsl.Net.DnsTable.stop
  split
  · exact hdrains
  · next hno => exact absurd hudp (hno loop fd hloop)

end Operations

end Ndsl.Proofs.DnsTable
