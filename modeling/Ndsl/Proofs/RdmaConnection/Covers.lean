import Ndsl.Net.RdmaConnection

/-!
# `Ndsl.Proofs.RdmaConnection.Covers`: requests and the registered memory

The functions that post a request look for the region that starts at the buffer, and take the length
as it comes. `registerMemory` gives back the region that starts at the address, however long it is.
The recorded `size` is read nowhere.

`Registered` is a connection beside the regions that the verbs hold. `inside_iff` says when a call
posts a request inside of them, and when it returns a region that is long enough. It rests on
`Tabled`: the table holds these regions and no others, whatever was called before.
-/

set_option autoImplicit false

namespace Ndsl.Proofs.RdmaConnection

open Ndsl.Lib
open Ndsl.Net Ndsl.Net.RdmaConnection

/-! ### Regions -/

/-- A region that is registered. -/
structure Region where
  mr : Mr
  addr : Nat
  len : Nat
  deriving Repr, DecidableEq

/-- The `n` bytes from `addr` on lie in the region. -/
def Region.Covers (r : Region) (addr n : Nat) : Prop := r.addr ≤ addr ∧ addr + n ≤ r.addr + r.len

/-- A connection, and the regions that the verbs hold. -/
structure Registered where
  conn : RdmaConnection := {}
  regions : List Region := []

/-- The regions behind a call with these events: `ibv_reg_mr` and `ibv_dereg_mr` that have worked
have added one and taken one away. -/
def regionsAfter (regions : List Region) (op : Op) (es : List Event) : List Region :=
  match op with
  | .registerMemory addr len atomic (some mr) =>
      if .regMr addr len atomic ∈ es then { mr := mr, addr := addr, len := len } :: regions
      else regions
  | .deregisterMemory _ ret =>
      if ret = 0 then regions.filter fun r => .deregMr r.mr ∉ es else regions
  | _ => regions

/-- One call. -/
def track (s : Registered) (op : Op) : Traced Event Registered where
  log := (s.conn.step op).log
  value := (s.conn.step op).value.map fun conn =>
    { conn := conn, regions := regionsAfter s.regions op (s.conn.step op).log }

/-- The region that `ibv_reg_mr` returns says where it starts. -/
def Reported : Op → Prop
  | .registerMemory addr _ _ region => ∀ mr, region = some mr → mr.addr = addr
  | _ => True

/-- What a call has posted lies in a region, and the region that it returns covers what was asked
for. -/
structure Inside (s : Registered) (op : Op) (es : List Event) (t : Registered) : Prop where
  posted : ∀ wr, .post wr 0 ∈ es → ∃ r ∈ s.regions, r.Covers wr.addr wr.length
  returned : ∀ addr len atomic region mr, op = .registerMemory addr len atomic region →
    .returnedMr (some mr) ∈ es → ∃ r ∈ t.regions, r.mr = mr ∧ r.Covers addr len

/-- Where a request on `buf` is posted, the table has a region around its `n` bytes. -/
def Reaches (buf n : Nat) (ret : Int) (s : RdmaConnection) : Prop :=
  ret = 0 → s.mrMap_ buf ≠ none →
    ∃ addr mr, s.mrMap_ addr = some mr ∧ addr ≤ buf ∧ buf + n ≤ addr + mr.size

/-- The calls that stay inside. A region that is there already is as long as the one that is asked
for, and a request, whose length is cut to 32 bits, does not go over the end of the regions. -/
def WithinSize (s : RdmaConnection) : Op → Prop
  | .registerMemory addr len _ _ => ∀ mr, s.mrMap_ addr = some mr → len ≤ mr.size
  | .onSend buf len _ _ ret => Reaches buf (len % 2 ^ 32) ret s
  | .onRecv buf len _ _ ret => Reaches buf (len % 2 ^ 32) ret s
  | .FetchAndAdd buf _ _ ret => Reaches buf 8 ret s
  | .CmpAndSwp buf _ _ _ ret => Reaches buf 8 ret s
  | _ => True

/-- The invariant: the table holds the regions that are registered. -/
structure Tabled (s : Registered) : Prop where
  mem_iff : ∀ r, r ∈ s.regions ↔
    s.conn.mrMap_ r.addr = some { mr := r.mr, addr := r.addr, size := r.len }
  starts : ∀ addr mr, s.conn.mrMap_ addr = some mr → mr.addr = addr ∧ mr.mr.addr = addr ∧ addr ≠ 0

section Calls
variable {s t : RdmaConnection} {es : List Event} {op : Op}

/-! ### Calls that have nothing to do with memory -/

/-- No request is posted and no region is registered, deregistered or returned. -/
def OffMemory : Event → Prop
  | .post _ _ => False
  | .regMr _ _ _ => False
  | .deregMr _ => False
  | .returnedMr _ => False
  | _ => True

theorem offMemory_singleton {e : Event} (h : OffMemory e) : ∀ e' ∈ [e], OffMemory e' :=
  List.forall_mem_singleton.mpr h

theorem pollCq_off (channel : Queue) (polls : List Poll) :
    (pollCq channel polls).Ensures OffMemory fun _ => True := by
  induction polls with
  | nil => exact .pure trivial
  | cons poll polls ih =>
      cases poll with
      | interrupted => exact ih
      | wc wc =>
          unfold pollCq
          refine .tell_bind (offMemory_singleton trivial) ?_
          split
          · exact .tell_bind (offMemory_singleton trivial) ih
          · exact ih.bind fun _ _ => .pure trivial

theorem pollIncomingData_off (channel : Queue) (polled : Polled) :
    (pollIncomingData channel polled).Ensures OffMemory fun _ => True := by
  unfold pollIncomingData
  split
  · exact .tell_bind (offMemory_singleton trivial) (.pure trivial)
  split
  · exact .tell_bind (offMemory_singleton trivial) (.pure trivial)
  refine (pollCq_off channel _).bind fun _ _ => .tell_bind ?_ ?_
  · split
    · exact offMemory_singleton trivial
    · exact fun _ he => absurd he List.not_mem_nil
  · exact .tell_bind (offMemory_singleton trivial) (.pure trivial)

theorem handle_off (queue : Queue) (polled : Polled) (s : RdmaConnection) :
    (s.handle queue polled).Ensures OffMemory fun t => t.mrMap_ = s.mrMap_ := by
  unfold handle
  split
  · exact .tell_bind (offMemory_singleton trivial) (.pure rfl)
  · exact (pollIncomingData_off queue polled).bind fun _ _ => .pure rfl

theorem finish_off (queue : Queue) (comp : SaveInfo) (dataList : List Wc) (s : RdmaConnection) :
    (s.finish queue comp dataList).Ensures OffMemory fun t => t.mrMap_ = s.mrMap_ := by
  unfold finish
  split
  · exact .tell_bind (offMemory_singleton trivial) (.pure rfl)
  · exact .tell_bind (offMemory_singleton trivial) (.pure rfl)

@[simp] theorem mrMap_setHandlers (l : List SaveInfo) (s : RdmaConnection) (queue : Queue) :
    (s.setHandlers l queue).mrMap_ = s.mrMap_ := by
  cases queue <;> rfl

theorem complete_off (queue : Queue) (wc : Wc) (dataList : List Wc) (s : RdmaConnection) :
    (s.complete queue wc dataList).Ensures OffMemory fun t => t.mrMap_ = s.mrMap_ := by
  have hfinish : ∀ l comp, ((s.setHandlers l queue).finish queue comp dataList).Ensures OffMemory
      fun t => t.mrMap_ = s.mrMap_ := fun l comp => by
    rw [← mrMap_setHandlers l s queue]
    exact finish_off _ _ _ _
  refine .tell_bind (offMemory_singleton trivial) ?_
  split
  · exact .tell_bind (offMemory_singleton trivial) (.pure rfl)
  · dsimp only
    split
    · split
      · exact .tell_bind (offMemory_singleton trivial) (.pure (mrMap_setHandlers ..))
      · split
        · exact .tell_bind (offMemory_singleton trivial) (.pure (mrMap_setHandlers ..))
        · exact hfinish _ _
    · exact hfinish _ _

theorem next_off (s : RdmaConnection) :
    s.next.Ensures OffMemory fun t => t.mrMap_ = s.mrMap_ := by
  unfold next
  split
  · exact .tell_bind (offMemory_singleton trivial) (.pure rfl)
  · exact complete_off ..
  · exact .pure rfl

theorem returns_off (s : RdmaConnection) :
    s.returns.Ensures OffMemory fun t => t.mrMap_ = s.mrMap_ := by
  unfold returns
  split
  · exact .tell_bind (offMemory_singleton trivial) (.pure rfl)
  · exact .pure rfl

/-! ### Requests -/

/-- What a function does that posts a request. -/
theorem call_postWr {buf : Nat} {wr : Mr → Wr} {ret : Int} {message : String}
    {handler : Option (Queue × SaveInfo)}
    (h : (call (s.postWr buf wr ret message handler)).Yields es t) :
    t.mrMap_ = s.mrMap_ ∧ (∀ mr, .returnedMr mr ∉ es) ∧
      ∀ wr', .post wr' 0 ∈ es ↔ ∃ mr, s.mrMap_ buf = some mr ∧ ret = 0 ∧ wr' = wr mr.mr := by
  obtain ⟨fs, ⟨r, u⟩, gs, hpost, hreturn, rfl⟩ := Traced.bind_yields.mp h
  obtain ⟨rfl, rfl⟩ := (Traced.tell_pure_yields ..).mp hreturn
  unfold postWr at hpost
  cases hmr : s.mrMap_ buf with
  | none =>
      simp only [hmr] at hpost
      obtain ⟨rfl, hpair⟩ := (Traced.tell_pure_yields ..).mp hpost
      obtain ⟨-, rfl⟩ := Prod.mk.inj hpair
      exact ⟨rfl, by simp, by simp⟩
  | some mr =>
      simp only [hmr] at hpost
      obtain ⟨fs, hrest, rfl⟩ := (Traced.tell_bind_yields ..).mp hpost
      by_cases hret : ret ≠ 0
      · rw [if_pos hret] at hrest
        obtain ⟨rfl, hpair⟩ := (Traced.tell_pure_yields ..).mp hrest
        obtain ⟨-, rfl⟩ := Prod.mk.inj hpair
        exact ⟨rfl, by simp, by simp [hret, Ne.symm hret]⟩
      · rw [if_neg hret] at hrest
        rw [not_not] at hret
        subst hret
        cases handler with
        | none =>
            obtain ⟨rfl, hpair⟩ := (Traced.pure_yields ..).mp hrest
            obtain ⟨-, rfl⟩ := Prod.mk.inj hpair
            exact ⟨rfl, by simp, by simp⟩
        | some handler =>
            obtain ⟨rfl, hpair⟩ := (Traced.tell_pure_yields ..).mp hrest
            obtain ⟨-, rfl⟩ := Prod.mk.inj hpair
            exact ⟨mrMap_setHandlers .., by simp, by simp⟩

/-! ### Registering -/

/-- What `registerMemory` does: nothing for `NULL`, it returns the region that is there, or it asks
for a new one. -/
theorem registerMemory_cases {addr len : Nat} {atomic : Bool} {region mr : Option Mr}
    (h : (s.registerMemory addr len atomic region).Yields es (mr, t)) :
    (addr = 0 ∧ es = [] ∧ mr = none ∧ t = s) ∨
    (∃ m, s.mrMap_ addr = some m ∧ es = [.log "memory region already exists."] ∧
      mr = some m.mr ∧ t = s) ∨
    (s.mrMap_ addr = none ∧ region = none ∧
      es = [.regMr addr len atomic, .log "ibv register mr error."] ∧ mr = none ∧ t = s) ∨
    (addr ≠ 0 ∧ s.mrMap_ addr = none ∧ ∃ m, region = some m ∧ es = [.regMr addr len atomic] ∧
      mr = some m ∧ t = { s with
        mrMap_ := Function.update s.mrMap_ addr
          (some { mr := m, addr := addr, size := len }) }) := by
  unfold registerMemory at h
  split at h
  · next hzero =>
    obtain ⟨rfl, hpair⟩ := (Traced.pure_yields ..).mp h
    obtain ⟨rfl, rfl⟩ := Prod.mk.inj hpair
    exact .inl ⟨hzero, rfl, rfl, rfl⟩
  next haddr =>
  split at h
  · next m hm =>
    obtain ⟨rfl, hpair⟩ := (Traced.tell_pure_yields ..).mp h
    obtain ⟨rfl, rfl⟩ := Prod.mk.inj hpair
    exact .inr (.inl ⟨m, hm, rfl, rfl, rfl⟩)
  next hm =>
  obtain ⟨fs, hrest, rfl⟩ := (Traced.tell_bind_yields ..).mp h
  cases region with
  | none =>
      obtain ⟨rfl, hpair⟩ := (Traced.tell_pure_yields ..).mp hrest
      obtain ⟨rfl, rfl⟩ := Prod.mk.inj hpair
      exact .inr (.inr (.inl ⟨hm, rfl, rfl, rfl, rfl⟩))
  | some m =>
      obtain ⟨rfl, hpair⟩ := (Traced.pure_yields ..).mp hrest
      obtain ⟨rfl, rfl⟩ := Prod.mk.inj hpair
      exact .inr (.inr (.inr ⟨haddr, hm, m, rfl, rfl, rfl, rfl⟩))

/-- What `deregisterMemory` does: nothing, or it asks for the end of the region, and takes it out of
the table when that has worked. -/
theorem deregisterMemory_cases {addr : Nat} {ret r : Int}
    (h : (s.deregisterMemory addr ret).Yields es (r, t)) :
    (s.mrMap_ addr = none ∧ es = [] ∧ t = s) ∨
    ∃ m, s.mrMap_ addr = some m ∧
      ((ret ≠ 0 ∧ es = [.deregMr m.mr, .log "ibv dereg mr error."] ∧ t = s) ∨
        (ret = 0 ∧ es = [.deregMr m.mr] ∧
          t = { s with mrMap_ := Function.update s.mrMap_ addr none })) := by
  unfold deregisterMemory at h
  split at h
  · next hm =>
    obtain ⟨rfl, hpair⟩ := (Traced.pure_yields ..).mp h
    exact .inl ⟨hm, rfl, (Prod.mk.inj hpair).2.symm⟩
  next m hm =>
  obtain ⟨fs, hrest, rfl⟩ := (Traced.tell_bind_yields ..).mp h
  split at hrest
  · next hret =>
    obtain ⟨rfl, hpair⟩ := (Traced.tell_pure_yields ..).mp hrest
    exact .inr ⟨m, hm, .inl ⟨hret, rfl, (Prod.mk.inj hpair).2.symm⟩⟩
  · next hret =>
    obtain ⟨rfl, hpair⟩ := (Traced.pure_yields ..).mp hrest
    exact .inr ⟨m, hm, .inr ⟨not_not.mp hret, rfl, (Prod.mk.inj hpair).2.symm⟩⟩

end Calls

/-! ### One call -/

section Step
variable {s t : Registered} {es : List Event} {op : Op} {conn : RdmaConnection} {buf n : Nat}

theorem track_yields : (track s op).Yields es t ↔ ∃ conn, (s.conn.step op).Yields es conn ∧
    t = { conn := conn, regions := regionsAfter s.regions op es } := by
  constructor
  · rintro ⟨rfl, hvalue⟩
    obtain ⟨conn, hconn, rfl⟩ := Option.map_eq_some_iff.mp hvalue
    exact ⟨conn, ⟨rfl, hconn⟩, rfl⟩
  · rintro ⟨conn, ⟨rfl, hconn⟩, rfl⟩
    exact ⟨rfl, Option.map_eq_some_iff.mpr ⟨conn, hconn, rfl⟩⟩

/-- Another state with the same table. -/
theorem Tabled.same (h : Tabled s) (htable : conn.mrMap_ = s.conn.mrMap_) :
    Tabled { conn := conn, regions := s.regions } := by
  refine ⟨fun r => ?_, fun addr mr hmr => h.starts addr mr ?_⟩
  · show _ ↔ conn.mrMap_ r.addr = _
    rw [htable]
    exact h.mem_iff r
  · rw [← htable]
    exact hmr

/-- The region of an entry. -/
theorem Tabled.mem_of_entry (h : Tabled s) {addr : Nat} {m : MemoryReigon}
    (hm : s.conn.mrMap_ addr = some m) :
    { mr := m.mr, addr := addr, len := m.size } ∈ s.regions := by
  refine (h.mem_iff _).mpr ?_
  show s.conn.mrMap_ addr = some { mr := m.mr, addr := addr, size := m.size }
  rw [hm, ← (h.starts addr m hm).1]

/-- Regions with one `ibv_mr` start at one address, so there is one of them. -/
theorem Tabled.eq_of_entry (h : Tabled s) {addr : Nat} {m : MemoryReigon} {r : Region}
    (hm : s.conn.mrMap_ addr = some m) (hr : r ∈ s.regions) (hmr : r.mr = m.mr) :
    r = { mr := m.mr, addr := addr, len := m.size } := by
  have hentry := (h.mem_iff r).mp hr
  have hraddr : r.addr = addr := by
    rw [← (h.starts _ _ hentry).2.1, ← (h.starts addr m hm).2.1, ← hmr]
  rw [hraddr, hm] at hentry
  obtain ⟨mr, addr', len⟩ := r
  obtain rfl := Option.some.inj hentry
  exact congrArg (Region.mk mr · len) hraddr

/-- The bytes lie in a region exactly when the table says so. -/
theorem Tabled.covered_iff (h : Tabled s) : (∃ r ∈ s.regions, r.Covers buf n) ↔
    ∃ addr mr, s.conn.mrMap_ addr = some mr ∧ addr ≤ buf ∧ buf + n ≤ addr + mr.size := by
  constructor
  · rintro ⟨r, hr, hle, hend⟩
    exact ⟨r.addr, _, (h.mem_iff r).mp hr, hle, hend⟩
  · rintro ⟨addr, mr, hmr, hle, hend⟩
    exact ⟨_, h.mem_of_entry hmr, hle, hend⟩

/-- A request is posted inside exactly when the table reaches around it. -/
theorem Tabled.post (h : Tabled s) {wr : Mr → Wr} {ret : Int} {message : String}
    {handler : Option (Queue × SaveInfo)} (hwr : ∀ mr, (wr mr).addr = buf ∧ (wr mr).length = n)
    (hop : ∀ addr len atomic region, op ≠ .registerMemory addr len atomic region)
    (hafter : regionsAfter s.regions op es = s.regions)
    (hcall : (call (s.conn.postWr buf wr ret message handler)).Yields es conn) :
    Tabled { conn := conn, regions := regionsAfter s.regions op es } ∧
      (Inside s op es { conn := conn, regions := regionsAfter s.regions op es } ↔
        Reaches buf n ret s.conn) := by
  obtain ⟨htable, -, hposts⟩ := call_postWr hcall
  rw [hafter]
  refine ⟨h.same htable, fun hinside hret hmapped => ?_, fun hreaches => ⟨fun wr' hmem => ?_,
    fun addr len atomic region mr heq => absurd heq (hop addr len atomic region)⟩⟩
  · obtain ⟨mr, hmr⟩ := Option.ne_none_iff_exists'.mp hmapped
    have hcovered := hinside.posted _ ((hposts _).mpr ⟨mr, hmr, hret, rfl⟩)
    rw [(hwr mr.mr).1, (hwr mr.mr).2] at hcovered
    exact h.covered_iff.mp hcovered
  · obtain ⟨mr, hmr, hret, rfl⟩ := (hposts wr').mp hmem
    rw [(hwr mr.mr).1, (hwr mr.mr).2]
    exact h.covered_iff.mpr (hreaches hret (by rw [hmr]; exact Option.some_ne_none mr))

/-- A call that has nothing to do with memory. -/
theorem Tabled.off (h : Tabled s) (op : Op)
    (hoff : (s.conn.step op).Ensures OffMemory fun t => t.mrMap_ = s.conn.mrMap_)
    (hop : ∀ addr len atomic region, op ≠ .registerMemory addr len atomic region)
    (hafter : regionsAfter s.regions op es = s.regions)
    (hcall : (s.conn.step op).Yields es conn) :
    Tabled { conn := conn, regions := regionsAfter s.regions op es } ∧
      Inside s op es { conn := conn, regions := regionsAfter s.regions op es } := by
  have hacts : ∀ e ∈ es, OffMemory e := hcall.1 ▸ hoff.acts
  rw [hafter]
  exact ⟨h.same (hoff.value _ hcall.2), fun wr hmem => absurd (hacts _ hmem) id,
    fun addr len atomic region mr heq => absurd heq (hop addr len atomic region)⟩

/-- The table with a new region. -/
theorem Tabled.insert (h : Tabled s) {addr len : Nat} {m : Mr} (haddr : addr ≠ 0)
    (hstart : m.addr = addr) (hm : s.conn.mrMap_ addr = none) :
    Tabled { conn := { s.conn with
               mrMap_ := Function.update s.conn.mrMap_ addr
                 (some { mr := m, addr := addr, size := len }) }
             regions := { mr := m, addr := addr, len := len } :: s.regions } := by
  refine ⟨fun r => ?_, fun addr' mr hmr => ?_⟩
  · show r ∈ _ ↔ Function.update s.conn.mrMap_ addr _ r.addr = _
    by_cases hraddr : r.addr = addr
    · -- no region that starts here was there before
      have hnew : r ∉ s.regions := fun hr => by
        have hentry := (h.mem_iff r).mp hr
        rw [hraddr, hm] at hentry
        exact absurd hentry (Option.some_ne_none _).symm
      rw [hraddr, Function.update_self, List.mem_cons, or_iff_left hnew, Option.some.injEq]
      obtain ⟨rmr, raddr, rlen⟩ := r
      simp only at hraddr
      simp [hraddr, eq_comm]
    · rw [Function.update_of_ne hraddr, ← h.mem_iff r, List.mem_cons, or_iff_right]
      rintro rfl
      exact hraddr rfl
  · change Function.update s.conn.mrMap_ addr _ addr' = _ at hmr
    by_cases heq : addr' = addr
    · rw [heq, Function.update_self] at hmr
      obtain rfl := Option.some.inj hmr
      exact ⟨heq.symm, hstart.trans heq.symm, heq ▸ haddr⟩
    · rw [Function.update_of_ne heq] at hmr
      exact h.starts addr' mr hmr

/-- The table without a region. -/
theorem Tabled.remove (h : Tabled s) {addr : Nat} {m : MemoryReigon} {kept : Region → Bool}
    (hm : s.conn.mrMap_ addr = some m) (hkept : ∀ r, kept r = true ↔ r.mr ≠ m.mr) :
    Tabled { conn := { s.conn with mrMap_ := Function.update s.conn.mrMap_ addr none }
             regions := s.regions.filter kept } := by
  refine ⟨fun r => ?_, fun addr' mr hmr => ?_⟩
  · show r ∈ List.filter _ _ ↔ Function.update s.conn.mrMap_ addr none r.addr = _
    rw [List.mem_filter, hkept]
    by_cases hraddr : r.addr = addr
    · rw [hraddr, Function.update_self]
      refine ⟨fun ⟨hmem, hnot⟩ => ?_, fun heq => absurd heq (Option.some_ne_none _).symm⟩
      -- it is the one that goes
      have hentry := (h.mem_iff r).mp hmem
      rw [hraddr, hm] at hentry
      exact absurd (congrArg MemoryReigon.mr (Option.some.inj hentry)).symm hnot
    · rw [Function.update_of_ne hraddr, ← h.mem_iff r, and_iff_left_iff_imp]
      intro hmem hmr
      exact hraddr (congrArg Region.addr (h.eq_of_entry hm hmem hmr))
  · change Function.update s.conn.mrMap_ addr none addr' = _ at hmr
    by_cases heq : addr' = addr
    · rw [heq, Function.update_self] at hmr
      exact absurd hmr (Option.some_ne_none mr).symm
    · rw [Function.update_of_ne heq] at hmr
      exact h.starts addr' mr hmr

/-- Where nothing is posted and no region is returned, there is nothing to show. -/
theorem Inside.of_nothing (hposts : ∀ wr, .post wr 0 ∉ es)
    (hreturns : ∀ mr, .returnedMr (some mr) ∉ es) : Inside s op es t :=
  ⟨fun wr hmem => absurd hmem (hposts wr),
    fun _ _ _ _ mr _ hmem => absurd hmem (hreturns mr)⟩

/-- The region that starts at the address is returned for a longer one as well. -/
theorem Tabled.inside_again_iff (h : Tabled s) {addr len : Nat} {atomic : Bool}
    {region : Option Mr} {m : MemoryReigon} (hm : s.conn.mrMap_ addr = some m) :
    Inside s (.registerMemory addr len atomic region)
      ([.log "memory region already exists."] ++ [.returnedMr (some m.mr)]) s ↔ len ≤ m.size := by
  constructor
  · intro hinside
    obtain ⟨r, hr, hrmr, -, hend⟩ := hinside.returned addr len atomic region m.mr rfl (by simp)
    obtain rfl := h.eq_of_entry hm hr hrmr
    exact Nat.le_of_add_le_add_left hend
  · refine fun hlong => ⟨by simp, ?_⟩
    rintro _ _ _ _ m' heq hmem
    obtain ⟨rfl, rfl, -, -⟩ := Op.registerMemory.inj heq
    obtain rfl : m' = m.mr := by simpa using hmem
    exact ⟨_, h.mem_of_entry hm, rfl, Nat.le_refl _, Nat.add_le_add_left hlong addr⟩

/-- A region that is returned covers what was asked for exactly when it is new, or long enough. -/
theorem Tabled.register (h : Tabled s) {addr len : Nat} {atomic : Bool} {region mr : Option Mr}
    (hreported : ∀ m, region = some m → m.addr = addr)
    (hcall : (s.conn.registerMemory addr len atomic region).Yields es (mr, conn)) :
    let after := regionsAfter s.regions (.registerMemory addr len atomic region)
      (es ++ [.returnedMr mr])
    Tabled { conn := conn, regions := after } ∧
      (Inside s (.registerMemory addr len atomic region) (es ++ [.returnedMr mr])
          { conn := conn, regions := after } ↔
        ∀ m, s.conn.mrMap_ addr = some m → len ≤ m.size) := by
  intro after
  have hsame : .regMr addr len atomic ∉ es ++ [.returnedMr mr] → after = s.regions := by
    intro hnot
    show regionsAfter _ _ _ = _
    cases region with
    | none => rfl
    | some m => exact if_neg hnot
  rcases registerMemory_cases hcall with ⟨rfl, rfl, rfl, rfl⟩ | ⟨m, hm, rfl, rfl, rfl⟩ |
    ⟨hm, rfl, rfl, rfl, rfl⟩ | ⟨haddr, hm, m, rfl, rfl, rfl, rfl⟩
  · rw [hsame (by simp)]
    refine ⟨h, fun _ m hm => absurd rfl (h.starts 0 m hm).2.2, fun _ => ?_⟩
    exact .of_nothing (by simp) (by simp)
  · -- the region that starts at the address, whatever its length
    rw [hsame (by simp)]
    refine ⟨h, (h.inside_again_iff hm).trans ⟨fun hlong m' hm' => ?_, fun hlong => hlong m hm⟩⟩
    obtain rfl := Option.some.inj (hm.symm.trans hm')
    exact hlong
  · refine ⟨h, fun _ m hm' => ?_, fun _ => .of_nothing (by simp) (by simp)⟩
    exact absurd (hm.symm.trans hm') (Option.some_ne_none m).symm
  · have hafter : after = { mr := m, addr := addr, len := len } :: s.regions := if_pos (by simp)
    rw [hafter]
    refine ⟨h.insert haddr (hreported m rfl) hm, fun _ m' hm' => ?_, fun _ => ⟨by simp, ?_⟩⟩
    · exact absurd (hm.symm.trans hm') (Option.some_ne_none m').symm
    · rintro _ _ _ _ m' heq hmem
      obtain ⟨rfl, rfl, -, -⟩ := Op.registerMemory.inj heq
      obtain rfl : m' = m := by simpa using hmem
      exact ⟨_, List.mem_cons_self, rfl, Nat.le_refl _, Nat.le_refl _⟩

/-- A region that is deregistered is gone from the table as well. -/
theorem Tabled.deregister (h : Tabled s) {addr : Nat} {ret r : Int}
    (hcall : (s.conn.deregisterMemory addr ret).Yields es (r, conn)) :
    Tabled { conn := conn
             regions :=
               regionsAfter s.regions (.deregisterMemory addr ret) (es ++ [.returned r]) } ∧
      ∀ wr, .post wr 0 ∉ es ++ [.returned r] := by
  have hkept : (ret = 0 → ∀ mr, .deregMr mr ∉ es ++ [.returned r]) →
      regionsAfter s.regions (.deregisterMemory addr ret) (es ++ [.returned r]) = s.regions := by
    intro hnot
    show (if ret = 0 then _ else _) = _
    split
    · next hret =>
      exact List.filter_eq_self.mpr fun x _ => decide_eq_true (hnot hret x.mr)
    · rfl
  rcases deregisterMemory_cases hcall with ⟨hm, rfl, rfl⟩ | ⟨m, hm, ⟨hret, rfl, rfl⟩ |
    ⟨rfl, rfl, rfl⟩⟩
  · rw [hkept (by simp)]
    exact ⟨h, by simp⟩
  · rw [hkept (fun heq => absurd heq hret)]
    exact ⟨h, by simp⟩
  · exact ⟨h.remove hm (by simp), by simp⟩

/-- Every call keeps the table, and it stays inside exactly when the lengths say so. -/
theorem Tabled.step (h : Tabled s) (hreported : Reported op) (hstep : (track s op).Yields es t) :
    Tabled t ∧ (Inside s op es t ↔ WithinSize s.conn op) := by
  obtain ⟨conn, hconn, rfl⟩ := track_yields.mp hstep
  have hnever : ∀ {op : Op}, Tabled s → WithinSize s.conn op →
      Tabled { conn := conn, regions := regionsAfter s.regions op es } ∧
        Inside s op es { conn := conn, regions := regionsAfter s.regions op es } →
      Tabled { conn := conn, regions := regionsAfter s.regions op es } ∧
        (Inside s op es { conn := conn, regions := regionsAfter s.regions op es } ↔
          WithinSize s.conn op) :=
    fun _ hsize hboth => ⟨hboth.1, fun _ => hsize, fun _ => hboth.2⟩
  cases op with
  | registerMemory addr len atomic region =>
      obtain ⟨fs, ⟨mr, u⟩, gs, hcall, hreturn, rfl⟩ := Traced.bind_yields.mp hconn
      obtain ⟨rfl, rfl⟩ := (Traced.tell_pure_yields ..).mp hreturn
      exact h.register hreported hcall
  | deregisterMemory addr ret =>
      obtain ⟨fs, ⟨r, u⟩, gs, hcall, hreturn, rfl⟩ := Traced.bind_yields.mp hconn
      obtain ⟨rfl, rfl⟩ := (Traced.tell_pure_yields ..).mp hreturn
      obtain ⟨htabled, hposts⟩ := h.deregister hcall
      refine ⟨htabled, fun _ => trivial, fun _ => ⟨fun wr hmem => absurd hmem (hposts wr), ?_⟩⟩
      exact fun _ _ _ _ _ heq => absurd heq Op.noConfusion
  | onSend buf len cb param ret =>
      exact h.post (fun _ => ⟨rfl, rfl⟩) (fun _ _ _ _ => Op.noConfusion) rfl hconn
  | onRecv buf len cb param ret =>
      exact h.post (fun _ => ⟨rfl, rfl⟩) (fun _ _ _ _ => Op.noConfusion) rfl hconn
  | FetchAndAdd buf remote_mr add ret =>
      exact h.post (fun _ => ⟨rfl, rfl⟩) (fun _ _ _ _ => Op.noConfusion) rfl hconn
  | CmpAndSwp buf remote_mr expected swap ret =>
      exact h.post (fun _ => ⟨rfl, rfl⟩) (fun _ _ _ _ => Op.noConfusion) rfl hconn
  | handleSend polled =>
      exact hnever h trivial
        (h.off (.handleSend polled) (handle_off ..) (fun _ _ _ _ => Op.noConfusion) rfl hconn)
  | handleRecv polled =>
      exact hnever h trivial
        (h.off (.handleRecv polled) (handle_off ..) (fun _ _ _ _ => Op.noConfusion) rfl hconn)
  | next =>
      exact hnever h trivial
        (h.off .next (next_off s.conn) (fun _ _ _ _ => Op.noConfusion) rfl hconn)
  | returns =>
      exact hnever h trivial
        (h.off .returns (returns_off s.conn) (fun _ _ _ _ => Op.noConfusion) rfl hconn)

end Step

/-! ### Runs -/

/-- Behind any calls, the next one posts inside of the regions and returns a region that covers what
was asked for, exactly when its lengths say so. -/
theorem inside_iff {ops : List Op} {log : List Event} {s : Registered}
    (hrun : Traced.Run track (fun _ op => Reported op) {} ops log s) {op : Op}
    (hreported : Reported op) {es : List Event} {t : Registered}
    (hstep : (track s op).Yields es t) : Inside s op es t ↔ WithinSize s.conn op := by
  have hempty : Tabled {} := by
    refine ⟨fun r => ⟨fun hr => absurd hr List.not_mem_nil, fun hr => ?_⟩, fun _ mr hmr => ?_⟩
    · exact absurd hr (Option.some_ne_none _).symm
    · exact absurd hmr (Option.some_ne_none mr).symm
  have htabled : Tabled s := hrun.invariant (P := fun _ _ s => Tabled s) hempty
    fun _ _ _ _ _ _ h hok hcall => (h.step hok hcall).1
  exact (htabled.step hreported hstep).2

/-- A region of four bytes. -/
def fourBytes : Mr := { addr := 4096 }

/-- A connection with this region. -/
def withFour : Registered where
  conn := { mrMap_ := Function.update (fun _ => none) 4096
              (some { mr := fourBytes, addr := 4096, size := 4 }) }
  regions := [{ mr := fourBytes, addr := 4096, len := 4 }]

theorem withFour_run : Traced.Run track (fun _ op => Reported op) {}
    [.registerMemory 4096 4 false (some fourBytes)] [.regMr 4096 4 false, .returnedMr fourBytes]
    withFour := by
  refine .snoc (l := []) .nil (fun mr heq => ?_) ⟨rfl, rfl⟩
  rw [← Option.some.inj heq]
  rfl

/-- A send of the four bytes stays inside. -/
theorem inside_iff_four : ∃ es t, (track withFour (.onSend 4096 4 none 0 0)).Yields es t ∧
    Inside withFour (.onSend 4096 4 none 0 0) es t := by
  have hstep : ∃ es t, (track withFour (.onSend 4096 4 none 0 0)).Yields es t :=
    ⟨_, _, rfl, rfl⟩
  obtain ⟨es, t, hstep⟩ := hstep
  have hreported : Reported (.onSend 4096 4 none 0 0) := trivial
  exact ⟨es, t, hstep, (inside_iff withFour_run hreported hstep).mpr
    fun _ _ => ⟨4096, _, rfl, Nat.le_refl _, by decide⟩⟩

/-- The region of four bytes is returned for sixteen, and sixteen bytes are posted from it. -/
theorem region_too_short :
    (∃ log, Traced.Run track (fun _ op => Reported op) {}
      [.registerMemory 4096 4 false (some fourBytes)] log withFour) ∧
    (∃ es t, (track withFour (.registerMemory 4096 16 false none)).Yields es t ∧
      .returnedMr (some fourBytes) ∈ es ∧
      ¬ Inside withFour (.registerMemory 4096 16 false none) es t) ∧
    ∃ es t, (track withFour (.onSend 4096 16 none 0 0)).Yields es t ∧
      ¬ Inside withFour (.onSend 4096 16 none 0 0) es t := by
  refine ⟨⟨_, withFour_run⟩, ⟨_, _, ⟨rfl, rfl⟩, by decide, fun h => ?_⟩,
    ⟨_, _, ⟨rfl, rfl⟩, fun h => ?_⟩⟩
  · obtain ⟨r, hr, -, -, hend⟩ := h.returned 4096 16 false none fourBytes rfl (by decide)
    obtain rfl : r = { mr := fourBytes, addr := 4096, len := 4 } := List.mem_singleton.mp hr
    exact absurd hend (by decide)
  · obtain ⟨r, hr, -, hend⟩ := h.posted
      { wr_id := 4096, opcode := .send, addr := 4096, length := 16, lkey := 0 } (by decide)
    obtain rfl : r = { mr := fourBytes, addr := 4096, len := 4 } := List.mem_singleton.mp hr
    exact absurd hend (by decide)

end Ndsl.Proofs.RdmaConnection
