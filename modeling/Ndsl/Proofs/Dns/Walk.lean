import Ndsl.Net.Dns

/-!
# `Ndsl.Proofs.Dns.Walk`: what the cursor does

`handle_read` does not know how long a name is. It moves the cursor by two when the first byte has
one of the two top bits, and behind the next zero byte otherwise. `skip` is the length that it finds
at the front of some bytes. This module says where each part of the walk ends, in terms of `skip`
and of the bytes from the cursor on.
-/

set_option autoImplicit false

namespace Ndsl.Proofs.Dns

open Ndsl.Lib
open Ndsl.Net Ndsl.Net.Dns

/-! ### The length of a name, as the code finds it -/

/-- The length of the name at the front of these bytes, as the code finds it. -/
def skip : List UInt8 → Option Nat
  | [] => none
  | c :: l =>
    if c &&& 0xc0 ≠ 0 then some 2
    else if cstrlen (c :: l) < (c :: l).length then some (cstrlen (c :: l) + 1)
    else none

section Skip
variable {c : UInt8} {l more : List UInt8} {n : Nat}

theorem skip_pointer (hc : c &&& 0xc0 ≠ 0) : skip (c :: l) = some 2 := if_pos hc

theorem skip_labels (hc : c &&& 0xc0 = 0) : skip (c :: l) =
    if cstrlen (c :: l) < (c :: l).length then some (cstrlen (c :: l) + 1) else none :=
  if_neg (not_not_intro hc)

/-- A name has at least one byte. -/
theorem skip_pos (h : skip l = some n) : 0 < n := by
  cases l with
  | nil => exact absurd h.symm (Option.some_ne_none n)
  | cons c l =>
      by_cases hc : c &&& 0xc0 = 0
      · rw [skip_labels hc] at h
        split at h
        · obtain rfl := Option.some.inj h
          exact Nat.succ_pos _
        · exact absurd h.symm (Option.some_ne_none n)
      · obtain rfl := Option.some.inj ((skip_pointer hc).symm.trans h)
        exact Nat.two_pos

/-- A name that is found is found in front of anything. -/
theorem skip_append (h : skip l = some n) : skip (l ++ more) = some n := by
  cases l with
  | nil => exact absurd h.symm (Option.some_ne_none n)
  | cons c l =>
      by_cases hc : c &&& 0xc0 = 0
      · rw [skip_labels hc] at h
        split at h
        · next hlt =>
          have hmore := cstrlen_append_of_lt hlt more
          rw [List.cons_append] at hmore
          rw [List.cons_append, skip_labels hc, hmore, if_pos, h]
          rw [← List.cons_append, List.length_append]
          exact Nat.lt_add_right _ hlt
        · exact absurd h.symm (Option.some_ne_none n)
      · rw [skip_pointer hc] at h
        rw [List.cons_append, skip_pointer hc, h]

/-- A name that ends inside the front is found there. -/
theorem skip_of_append (h : skip (l ++ more) = some n) (hle : n ≤ l.length) : skip l = some n := by
  cases l with
  | nil =>
      have := skip_pos h
      exact absurd hle (Nat.not_le.mpr this)
  | cons c l =>
      rw [List.cons_append] at h
      by_cases hc : c &&& 0xc0 = 0
      · rw [skip_labels hc, ← List.cons_append] at h
        split at h
        · obtain rfl := Option.some.inj h
          -- a front without a zero would make the name longer
          have hlt : cstrlen (c :: l) < (c :: l).length := by
            refine Nat.lt_of_le_of_ne (cstrlen_le_length _) fun heq => ?_
            have hnot := (cstrlen_eq_length_iff _).mp heq
            rw [cstrlen_append hnot] at hle
            omega
          rw [skip_labels hc, if_pos hlt, cstrlen_append_of_lt hlt more]
        · exact absurd h.symm (Option.some_ne_none n)
      · rw [skip_pointer hc] at h
        rw [skip_pointer hc, h]

end Skip

/-! ### Reading from the buffer -/

section Read
variable {s : Dns} {buf : Buffer} {p n : Nat} {c : UInt8} {l : List UInt8}

/-- The byte at a position. -/
theorem read_one (h : buf.bytes.drop p = c :: l) : buf.read p 1 = some [c] := by
  have hlt : p < buf.bytes.length := by
    by_contra hge
    rw [List.drop_eq_nil_of_le (Nat.le_of_not_lt hge)] at h
    exact List.cons_ne_nil _ _ h.symm
  rw [buf.length_eq] at hlt
  rw [Buffer.read, if_pos (by omega), Int.toNat_natCast, h]
  rfl

theorem read_of_le (h : p + n ≤ BUFFER_SIZE) :
    buf.read p n = some ((buf.bytes.drop p).take n) := by
  rw [Buffer.read, if_pos (by omega), Int.toNat_natCast]

theorem read_of_lt (h : BUFFER_SIZE < p + n) : buf.read p n = none := by
  rw [Buffer.read, if_neg (by omega)]

theorem load_eq (pos : Int) (n : Nat) (s : Dns) :
    s.load pos n = ⟨[.load pos n], s.buffer_.read pos n⟩ := by
  rw [load, Traced.bind_of_some _ (Traced.value_tell _), Traced.log_tell]
  cases s.buffer_.read pos n <;> rfl

@[simp] theorem log_load (pos : Int) (n : Nat) (s : Dns) : (s.load pos n).log = [.load pos n] := by
  rw [load_eq]

@[simp] theorem value_load (pos : Int) (n : Nat) (s : Dns) :
    (s.load pos n).value = s.buffer_.read pos n := by
  rw [load_eq]

end Read

/-! ### Names -/

/-- The buffer behind a name. A pointer has lost its two top bits. -/
def passed (buf : Buffer) (p : Nat) : Buffer :=
  match buf.bytes.drop p with
  | [] => buf
  | c :: _ => if c &&& 0xc0 ≠ 0 then buf.set p (0x3f &&& c) else buf

theorem passed_pointer {buf : Buffer} {p : Nat} {c : UInt8} {l : List UInt8}
    (h : buf.bytes.drop p = c :: l) (hc : c &&& 0xc0 ≠ 0) :
    passed buf p = buf.set p (0x3f &&& c) := by
  rw [passed, h]
  exact if_pos hc

theorem passed_labels {buf : Buffer} {p : Nat} {c : UInt8} {l : List UInt8}
    (h : buf.bytes.drop p = c :: l) (hc : c &&& 0xc0 = 0) : passed buf p = buf := by
  rw [passed, h]
  exact if_neg (not_not_intro hc)

/-- Behind the cursor the buffer stays as it was. -/
theorem drop_passed (buf : Buffer) {p q : Nat} (h : p < q) :
    (passed buf p).bytes.drop q = buf.bytes.drop q := by
  unfold passed
  split
  · rfl
  · split
    · exact List.drop_set_of_lt h
    · rfl

theorem read_passed (buf : Buffer) {p q n : Nat} (h : p < q) :
    (passed buf p).read q n = buf.read q n := by
  rw [Buffer.read, Buffer.read, Int.toNat_natCast, drop_passed buf h]

section Names
variable {s : Dns} {p : Nat}

/-- The scan ends at the first zero, or leaves the buffer. -/
theorem value_skipLabels (s : Dns) (fuel : Nat) : ∀ p : Nat, BUFFER_SIZE ≤ p + fuel →
    (s.skipLabels fuel p).value =
      if cstrlen (s.buffer_.bytes.drop p) < (s.buffer_.bytes.drop p).length then
        some ((p + cstrlen (s.buffer_.bytes.drop p) : Nat) : Int)
      else none := by
  -- behind the buffer nothing can be read
  have houtside : ∀ p : Nat, s.buffer_.bytes.drop p = [] → s.buffer_.read p 1 = none := by
    intro p hnil
    have hlen := List.drop_eq_nil_iff.mp hnil
    rw [s.buffer_.length_eq] at hlen
    exact read_of_lt (Nat.lt_succ_of_le hlen)
  induction fuel with
  | zero =>
      intro p hfuel
      have hnil : s.buffer_.bytes.drop p = [] :=
        List.drop_eq_nil_of_le (by rw [s.buffer_.length_eq]; exact hfuel)
      rw [skipLabels, Traced.value_bind, value_load, houtside p hnil, hnil]
      rfl
  | succ fuel ih =>
      intro p hfuel
      cases hdrop : s.buffer_.bytes.drop p with
      | nil =>
          rw [skipLabels, Traced.value_bind, value_load, houtside p hdrop]
          rfl
      | cons c l =>
          have hnext : s.buffer_.bytes.drop (p + 1) = l := by
            rw [← List.drop_drop, hdrop]
            rfl
          rw [skipLabels, Traced.value_bind, value_load, read_one hdrop, Option.bind_some]
          by_cases hc : c = 0
          · subst hc
            rfl
          · have hrest := ih (p + 1) (by omega)
            rw [hnext] at hrest
            rw [if_neg (by simpa using hc), Traced.value_tell_bind, cstrlen_cons hc,
              List.length_cons]
            refine hrest.trans ?_
            simp only [Nat.succ_lt_succ_iff, Nat.add_assoc, Nat.add_comm 1]

/-- The cursor is moved behind the name that the code finds. -/
theorem value_skipName (s : Dns) (p : Nat) :
    (s.skipName p).value =
      (skip (s.buffer_.bytes.drop p)).map fun n =>
        (((p + n : Nat) : Int), { s with buffer_ := passed s.buffer_ p }) := by
  cases hdrop : s.buffer_.bytes.drop p with
  | nil =>
      have hlen := List.drop_eq_nil_iff.mp hdrop
      rw [s.buffer_.length_eq] at hlen
      rw [skipName, Traced.value_bind, value_load, read_of_lt (Nat.lt_succ_of_le hlen)]
      rfl
  | cons c l =>
      rw [skipName, Traced.value_bind, value_load, read_one hdrop, Option.bind_some,
        List.headD_cons]
      by_cases hc : c &&& 0xc0 = 0
      · rw [if_neg (not_not_intro hc), passed_labels hdrop hc, skip_labels hc, Traced.value_bind,
          value_skipLabels s BUFFER_SIZE p (Nat.le_add_left _ _), hdrop]
        split
        · rfl
        · rfl
      · rw [if_pos hc, passed_pointer hdrop hc, skip_pointer hc]
        rfl

/-- A cursor in front of the buffer reads nothing. -/
theorem value_skipName_of_neg (s : Dns) {p : Int} (h : p < 0) : (s.skipName p).value = none := by
  rw [skipName, Traced.value_bind, value_load, Buffer.read, if_neg (by omega)]
  rfl

/-- An event that is not an answer or an outcome. -/
def IsWalk : Event → Prop
  | .load _ _ => True
  | .store _ => True
  | .move _ _ => True
  | _ => False

theorem skipLabels_isWalk (s : Dns) (fuel : Nat) (p : Int) :
    ∀ e ∈ (s.skipLabels fuel p).log, IsWalk e := by
  have hload : ∀ p, (s.load p 1).Ensures IsWalk fun _ => True := fun p =>
    ⟨by rw [log_load]; exact List.forall_mem_singleton.mpr trivial, fun _ _ => trivial⟩
  suffices h : (s.skipLabels fuel p).Ensures IsWalk fun _ => True from h.acts
  induction fuel generalizing p with
  | zero => exact (hload p).bind fun _ _ => .fault
  | succ fuel ih =>
      refine (hload p).bind fun c _ => ?_
      split
      · exact .pure trivial
      · exact .tell_bind (List.forall_mem_singleton.mpr trivial) (ih (p + 1))

theorem skipName_isWalk (s : Dns) (p : Int) : ∀ e ∈ (s.skipName p).log, IsWalk e := by
  suffices h : (s.skipName p).Ensures IsWalk fun _ => True from h.acts
  have hload : (s.load p 1).Ensures IsWalk fun _ => True :=
    ⟨by rw [log_load]; exact List.forall_mem_singleton.mpr trivial, fun _ _ => trivial⟩
  refine hload.bind fun c _ => ?_
  split
  · refine .tell_bind ?_ (.pure trivial)
    intro e he
    rcases List.mem_cons.mp he with rfl | he
    · trivial
    · rcases List.mem_cons.mp he with rfl | he
      · trivial
      · obtain rfl := List.mem_singleton.mp he
        trivial
  · have hlabels : (s.skipLabels BUFFER_SIZE p).Ensures IsWalk fun _ => True :=
      ⟨skipLabels_isWalk s BUFFER_SIZE p, fun _ _ => trivial⟩
    refine hlabels.bind fun q _ => .tell_bind ?_ (.pure trivial)
    exact List.forall_mem_singleton.mpr trivial

end Names

/-! ### Questions -/

/-- The buffer and the cursor behind the questions. -/
def behindQuestions : Nat → Buffer → Nat → Option (Buffer × Nat)
  | 0, buf, p => some (buf, p)
  | quests + 1, buf, p =>
    (skip (buf.bytes.drop p)).bind fun n => behindQuestions quests (passed buf p) (p + n + 4)

theorem value_skipQuestions (quests : Nat) : ∀ (s : Dns) (p : Nat),
    (s.skipQuestions quests p).value =
      (behindQuestions quests s.buffer_ p).map fun x =>
        ((x.2 : Int), { s with buffer_ := x.1 }) := by
  induction quests with
  | zero => exact fun s p => rfl
  | succ quests ih =>
      intro s p
      rw [skipQuestions, Traced.value_bind, value_skipName, behindQuestions]
      cases skip (s.buffer_.bytes.drop p) with
      | none => rfl
      | some n => exact ih { s with buffer_ := passed s.buffer_ p } (p + n + 4)

/-- The cursor has moved forward, and the buffer stays as it was behind it. -/
theorem behindQuestions_drop {quests : Nat} : ∀ {buf buf' : Buffer} {p q : Nat},
    behindQuestions quests buf p = some (buf', q) →
      p ≤ q ∧ buf'.bytes.drop q = buf.bytes.drop q := by
  induction quests with
  | zero =>
      intro buf buf' p q h
      obtain ⟨rfl, rfl⟩ := Prod.mk.inj (Option.some.inj h)
      exact ⟨Nat.le_refl p, rfl⟩
  | succ quests ih =>
      intro buf buf' p q h
      obtain ⟨n, hskip, hrest⟩ := Option.bind_eq_some_iff.mp h
      obtain ⟨hle, hdrop⟩ := ih hrest
      have hn := skip_pos hskip
      exact ⟨by omega, hdrop.trans (drop_passed buf (by omega))⟩

theorem skipQuestions_isWalk (quests : Nat) (s : Dns) (p : Int) :
    ∀ e ∈ (s.skipQuestions quests p).log, IsWalk e := by
  suffices h : (s.skipQuestions quests p).Ensures IsWalk fun _ => True from h.acts
  induction quests generalizing s p with
  | zero => exact .pure trivial
  | succ quests ih =>
      have hname : (s.skipName p).Ensures IsWalk fun _ => True :=
        ⟨skipName_isWalk s p, fun _ _ => trivial⟩
      refine hname.bind fun x _ => .tell_bind ?_ (ih x.2 (x.1 + sizeofPacketTail))
      exact List.forall_mem_singleton.mpr trivial

/-! ### Answers -/

/-- The bucket of an id. -/
def bucketOf (id : UInt16) : Nat := id.toNat % DNS_BUCKET_SIZE

/-- The `short` at a position. -/
def shortAt (buf : Buffer) (p : Nat) : Int := toShort (ofBE ((buf.bytes.drop p).take 2))

@[simp] theorem log_ntohs (pos : Int) (s : Dns) : (s.ntohs pos).log = [.load pos 2] := by
  rw [ntohs, Traced.log_bind, log_load]
  cases (s.load pos 2).value <;> rfl

@[simp] theorem value_ntohs (pos : Int) (s : Dns) :
    (s.ntohs pos).value = (s.buffer_.read pos 2).map ofBE := by
  rw [ntohs, Traced.value_bind, value_load]
  cases s.buffer_.read pos 2 <;> rfl

section Answers
variable {s : Dns} {id : UInt16} {answers start n : Nat}

/-- What the walk does with an answer once it has read its fields. -/
def withFields (id : UInt16) (answers : Nat) (type dlen data : Int) (s : Dns) :
    Traced Event (Bool × Dns) := do
  let x ← if type = DEFAULT_QUERY_TYPE then s.takeAddress id (answers = 0) data
    else pure (false, s)
  if x.1 then return (true, x.2)
  else do
    .tell [.move data (data + dlen)]
    x.2.walkAnswers id answers (data + dlen)

/-- An answer without an address, or an address that nobody waits for, is passed over. -/
theorem withFields_of_none {type dlen data : Int}
    (h : type = DEFAULT_QUERY_TYPE → s.findQuery id = (none, s)) :
    withFields id answers type dlen data s =
      .tell [.move data (data + dlen)] >>= fun _ => s.walkAnswers id answers (data + dlen) := by
  by_cases htype : type = DEFAULT_QUERY_TYPE
  · simp only [withFields, if_pos htype, takeAddress, h htype, Traced.pure_bind,
      Bool.false_eq_true, if_false]
  · simp only [withFields, if_neg htype, Traced.pure_bind, Bool.false_eq_true, if_false]

section Found
variable {dlen data : Int} {dtask : Nat} {t : Dns} {addr : List UInt8}

/-- An address that is not in the buffer. -/
theorem withFields_of_outside (hfound : s.findQuery id = (some dtask, t))
    (hread : t.buffer_.read data 4 = none) :
    withFields id answers DEFAULT_QUERY_TYPE dlen data s = ⟨[.load data 4], none⟩ := by
  simp only [withFields, if_true, takeAddress, hfound, load_eq, hread, Traced.bind_assoc]
  exact Traced.bind_of_none _ rfl

/-- An address in the last answer. -/
theorem withFields_last (hfound : s.findQuery id = (some dtask, t))
    (hread : t.buffer_.read data 4 = some addr) :
    withFields id 0 DEFAULT_QUERY_TYPE dlen data s =
      .tell [.load data 4, .addWork dtask] >>= fun _ => pure (true, t.pushBack dtask addr) := by
  have hload : (t.load data 4).Yields [.load data 4] addr := by
    rw [load_eq, hread]
    exact ⟨rfl, rfl⟩
  simp only [withFields, if_true, takeAddress, hfound, hload.eq_tell_bind, Traced.bind_assoc,
    Traced.pure_bind, Traced.tell_bind_tell_bind, decide_true]
  rfl

/-- An address in an answer that others follow. -/
theorem withFields_succ (hfound : s.findQuery id = (some dtask, t))
    (hread : t.buffer_.read data 4 = some addr) :
    withFields id (answers + 1) DEFAULT_QUERY_TYPE dlen data s =
      .tell [.load data 4, .move data (data + dlen)] >>= fun _ =>
        (t.pushBack dtask addr).walkAnswers id (answers + 1) (data + dlen) := by
  have hload : (t.load data 4).Yields [.load data 4] addr := by
    rw [load_eq, hread]
    exact ⟨rfl, rfl⟩
  simp only [withFields, if_true, takeAddress, hfound, hload.eq_tell_bind, Traced.bind_assoc,
    Traced.pure_bind, Nat.add_one_ne_zero, decide_false, Bool.false_eq_true, if_false,
    Traced.tell_bind_tell_bind, List.cons_append, List.nil_append]

end Found

/-- The entry that `find_query` takes: the first one of its bucket with this id. -/
theorem findQuery_cases (id : UInt16) (s : Dns) :
    (s.findQuery id = (none, s) ∧ ∀ be ∈ s.bucket_ (id.toNat % DNS_BUCKET_SIZE),
      (s.tasks be.task).query_id ≠ id) ∨
    ∃ pre be post, s.bucket_ (id.toNat % DNS_BUCKET_SIZE) = pre ++ be :: post ∧
      (s.tasks be.task).query_id = id ∧
      s.findQuery id = (some be.task,
        { s with
          bucket_ := Function.update s.bucket_ (id.toNat % DNS_BUCKET_SIZE) (pre ++ post)
          count_ := toSize ((s.count_ : Int) - 1) }) := by
  let found (be : BucketEntry) : Bool := (s.tasks be.task).query_id = id
  cases hfind : (s.bucket_ (id.toNat % DNS_BUCKET_SIZE)).find? found with
  | none =>
      refine .inl ⟨?_, fun be hbe heq => ?_⟩
      · simp only [findQuery]
        rw [show List.find? _ _ = none from hfind]
      · exact List.find?_eq_none.mp hfind be hbe (decide_eq_true heq)
  | some be =>
      right
      obtain ⟨hbe, pre, post, hsplit, hpre⟩ := List.find?_eq_some_iff_append.mp hfind
      refine ⟨pre, be, post, hsplit, of_decide_eq_true hbe, ?_⟩
      have herase : (s.bucket_ (id.toNat % DNS_BUCKET_SIZE)).eraseP found = pre ++ post := by
        rw [hsplit, List.eraseP_append_right _ fun b hb => by simpa using hpre b hb,
          List.eraseP_cons_of_pos hbe]
      simp only [findQuery]
      rw [show List.find? _ _ = some be from hfind]
      simp only
      rw [show List.eraseP _ _ = pre ++ post from herase]

/-- The events up to the fields of an answer. -/
def fieldEvents (s : Dns) (start p : Nat) : List Event :=
  (s.skipName start).log ++
    [.load p 2, .move p (p + 2), .move (p + 2) (p + 4), .move (p + 4) (p + 8), .load (p + 8) 2,
      .move (p + 8) (p + 10),
      .answer start p (shortAt s.buffer_ p) (shortAt s.buffer_ (p + 8))]

/-- The walk over an answer whose fields are in the buffer. -/
theorem walkAnswers_of_skip (hskip : skip (s.buffer_.bytes.drop start) = some n)
    (hin : start + n + 10 ≤ BUFFER_SIZE) :
    s.walkAnswers id (answers + 1) start =
      .tell (fieldEvents s start (start + n)) >>= fun _ =>
        withFields id answers (shortAt s.buffer_ (start + n)) (shortAt s.buffer_ (start + n + 8))
          ((start + n + 10 : Nat) : Int) { s with buffer_ := passed s.buffer_ start } := by
  have hn := skip_pos hskip
  -- what the walk over the name changes lies before the fields
  have hshort : ∀ q, start < q → q + 2 ≤ BUFFER_SIZE →
      (ntohs q { s with buffer_ := passed s.buffer_ start }).Yields [.load q 2]
        (ofBE ((s.buffer_.bytes.drop q).take 2)) := by
    intro q hq hle
    refine ⟨log_ntohs _ _, ?_⟩
    rw [value_ntohs, read_of_le hle, drop_passed _ hq]
    rfl
  have hname : (s.skipName start).Yields (s.skipName start).log
      (((start + n : Nat) : Int), { s with buffer_ := passed s.buffer_ start }) := by
    refine ⟨rfl, ?_⟩
    rw [value_skipName, hskip]
    rfl
  have htype := (hshort (start + n) (by omega) (by omega)).eq_tell_bind
  have hdlen := (hshort (start + n + 8) (by omega) (by omega)).eq_tell_bind
  rw [walkAnswers, hname.eq_tell_bind]
  simp only [Traced.bind_assoc, Traced.pure_bind]
  rw [htype]
  simp only [Traced.bind_assoc, Traced.pure_bind]
  rw [show ((start + n : Nat) : Int) + 8 = ((start + n + 8 : Nat) : Int) from rfl, hdlen]
  simp only [Traced.bind_assoc, Traced.pure_bind, Traced.tell_bind_tell_bind]
  simp only [fieldEvents, List.cons_append, List.nil_append]
  rfl

/-- The walk stops at an answer whose fields are not all in the buffer. -/
theorem walkAnswers_of_outside (id : UInt16) (answers : Nat)
    (hout : ∀ n, skip (s.buffer_.bytes.drop start) = some n → BUFFER_SIZE < start + n + 10) :
    (s.walkAnswers id (answers + 1) start).Ensures IsWalk fun _ => False := by
  -- the name ends somewhere, and the fields behind it are read in turn
  have hname : (s.skipName start).Ensures IsWalk fun x => ∃ n,
      skip (s.buffer_.bytes.drop start) = some n ∧ x.1 = ((start + n : Nat) : Int) := by
    refine ⟨skipName_isWalk s start, fun x hx => ?_⟩
    rw [value_skipName] at hx
    obtain ⟨n, hskip, rfl⟩ := Option.map_eq_some_iff.mp hx
    exact ⟨n, hskip, rfl⟩
  have hshort : ∀ (t : Dns) (q : Nat),
      (t.ntohs q).Ensures IsWalk fun _ => q + 2 ≤ BUFFER_SIZE := by
    intro t q
    refine ⟨by rw [log_ntohs]; exact List.forall_mem_singleton.mpr trivial, fun a ha => ?_⟩
    by_contra hlt
    rw [value_ntohs, read_of_lt (Nat.lt_of_not_le hlt)] at ha
    exact Option.some_ne_none a ha.symm
  refine hname.bind fun x hx => ?_
  obtain ⟨n, hskip, hp⟩ := hx
  have hlt := hout n hskip
  dsimp only
  rw [hp]
  refine (hshort x.2 (start + n)).bind fun type _ => .tell_bind ?_ ?_
  · intro e he
    rcases List.mem_cons.mp he with rfl | he
    · trivial
    · rcases List.mem_cons.mp he with rfl | he
      · trivial
      · obtain rfl := List.mem_singleton.mp he
        trivial
  · refine (hshort x.2 (start + n + 8)).bind fun dlen hdlen => ?_
    exact absurd hdlen (by omega)

/-- In front of the buffer there is nothing to walk over. -/
theorem walkAnswers_of_neg (id : UInt16) (answers : Nat) {p : Int} (hp : p < 0) :
    (s.walkAnswers id (answers + 1) p).Ensures IsWalk fun _ => False := by
  have hname : (s.skipName p).Ensures IsWalk fun _ => False := by
    refine ⟨skipName_isWalk s p, fun x hx => ?_⟩
    rw [value_skipName_of_neg s hp] at hx
    exact Option.some_ne_none x hx.symm
  exact hname.bind fun _ h => h.elim

end Answers

/-! ### A datagram -/

/-- The number in a field of the header. -/
def headAt (buf : Buffer) (p : Nat) : Nat := ofBE ((buf.bytes.drop p).take 2)

/-- The id in the header. -/
def idOf (buf : Buffer) : UInt16 := UInt16.ofNat (ofBE (buf.bytes.take 2).reverse)

/-- A datagram that is a response. -/
theorem response_eq {s : Dns} (hflags : headAt s.buffer_ 2 &&& QUERY_RESPONSE_FLAGS ≠ 0) :
    s.response =
      .tell [.load 2 2, .load 6 2, .load 4 2, .load 0 2] >>= fun _ =>
        s.skipQuestions (headAt s.buffer_ 4) 12 >>= fun x =>
          x.2.walkAnswers (idOf s.buffer_) (headAt s.buffer_ 6) x.1 := by
  have hhead : ∀ p : Nat, p + 2 ≤ BUFFER_SIZE →
      (s.ntohs p).Yields [.load p 2] (headAt s.buffer_ p) := by
    intro p hp
    refine ⟨log_ntohs _ _, ?_⟩
    rw [value_ntohs, read_of_le hp]
    rfl
  have hid : s.headId.Yields [.load 0 2] (idOf s.buffer_) := by
    have hread := @read_of_le s.buffer_ 0 2 (by decide)
    rw [headId, load_eq, show s.buffer_.read 0 2 = _ from hread]
    exact ⟨rfl, rfl⟩
  have h2 := (hhead 2 (by decide)).eq_tell_bind
  have h6 := (hhead 6 (by decide)).eq_tell_bind
  have h4 := (hhead 4 (by decide)).eq_tell_bind
  rw [response, show s.ntohs 2 = _ from h2]
  simp only [Traced.bind_assoc, Traced.pure_bind, if_neg hflags]
  rw [show s.ntohs 6 = _ from h6]
  simp only [Traced.bind_assoc, Traced.pure_bind]
  rw [show s.ntohs 4 = _ from h4, hid.eq_tell_bind]
  simp only [Traced.bind_assoc, Traced.pure_bind, Traced.tell_bind_tell_bind]
  rfl

/-- A datagram that is not a response. -/
theorem response_of_query {s : Dns} (hflags : headAt s.buffer_ 2 &&& QUERY_RESPONSE_FLAGS = 0) :
    s.response = .tell [.load 2 2] >>= fun _ => pure (true, s) := by
  have hhead : (s.ntohs 2).Yields [.load 2 2] (headAt s.buffer_ 2) := by
    refine ⟨log_ntohs _ _, ?_⟩
    have hread := @read_of_le s.buffer_ 2 2 (by decide)
    rw [value_ntohs, show s.buffer_.read 2 2 = _ from hread]
    rfl
  rw [response, hhead.eq_tell_bind]
  simp only [Traced.bind_assoc, Traced.pure_bind, if_pos hflags]

end Ndsl.Proofs.Dns
