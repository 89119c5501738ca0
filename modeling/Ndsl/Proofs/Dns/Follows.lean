import Ndsl.Lib.DnsMessage
import Ndsl.Proofs.Dns.Walk

/-!
# `Ndsl.Proofs.Dns.Follows`: the walk and the format of a response

`Follows` is what the walk over a response should do: read the fields of each answer where they
stand, and begin each next answer where it begins. `handle_read` takes the first zero byte for the
end of a name, and any first byte with a top bit for a pointer. So it misses the end of a name that
has a zero byte in a label, and of labels that are followed by a pointer. `follows_iff` says for
which responses the walk is right.
-/

set_option autoImplicit false

namespace Ndsl.Proofs.Dns

open Ndsl.Lib
open Ndsl.Lib.DnsMessage
open Ndsl.Net Ndsl.Net.Dns

/-! ### Where the answers stand -/

/-- An answer, as the walk reads it. -/
structure Visit where
  start : Int
  type_at : Int
  type : Int
  dlen : Int
  deriving Repr, DecidableEq

/-- The answers that the walk has read. -/
def visited (log : List Event) : List Visit :=
  log.filterMap fun
    | .answer start type_at type dlen => some ⟨start, type_at, type, dlen⟩
    | _ => none

/-- The answers as they stand in the response, from a position on. The type is read as a `short`. -/
def visits : Nat → List Record → List Visit
  | _, [] => []
  | start, a :: as =>
    { start := start
      type_at := (start + a.name.encode.length : Nat)
      type := toShort a.type.toNat
      dlen := a.rdata.length } :: visits (start + a.encode.length) as

/-- The bytes of the questions. -/
def questionBytes (r : Response) : List UInt8 := r.questions.flatMap Question.encode

/-- Where the answers begin. -/
def answersAt (r : Response) : Nat := 12 + (questionBytes r).length

/-- The walk reads the fields of each answer where they stand, and it begins each answer behind the
first one where this begins. -/
def Follows (r : Response) (log : List Event) : Prop :=
  match visits (answersAt r) r.answers with
  | [] => visited log = []
  | w :: ws => ∃ start, visited log = { w with start := start } :: ws

/-! ### The names that the code understands -/

/-- The code finds the end of these names: a pointer alone, and labels without a zero byte that are
ended by a zero byte, be it the second byte of a pointer. -/
def Findable (name : Name) : Prop :=
  match name.ending with
  | .root => ∀ label ∈ name.labels, 0 ∉ label.bytes
  | .pointer offset => name.labels = [] ∨
      UInt8.ofNat offset = 0 ∧ ∀ label ∈ name.labels, 0 ∉ label.bytes

/-- Of bytes that do not begin with a pointer, the last one is found as the end exactly when it is
the first zero. -/
theorem skip_concat_iff {c b : UInt8} {x : List UInt8} (hc : c &&& 0xc0 = 0) :
    skip (c :: x ++ [b]) = some (c :: x ++ [b]).length ↔ 0 ∉ c :: x ∧ b = 0 := by
  rw [List.cons_append, skip_labels hc, ← List.cons_append, List.length_append,
    List.length_singleton]
  constructor
  · intro h
    split at h
    · next hlt =>
      have hlen := Nat.succ.inj (Option.some.inj h)
      have hzero : 0 ∉ c :: x := by
        refine (cstrlen_eq_length_iff _).mp (Nat.le_antisymm (cstrlen_le_length _) ?_)
        by_contra hshort
        rw [cstrlen_append_of_lt (Nat.lt_of_not_le hshort)] at hlen
        omega
      refine ⟨hzero, ?_⟩
      by_contra hb
      rw [cstrlen_append hzero, cstrlen_cons hb, cstrlen_nil] at hlen
      omega
    · exact absurd h.symm (Option.some_ne_none _)
  · rintro ⟨hzero, rfl⟩
    have hlen : cstrlen (c :: x ++ [0]) = (c :: x).length := cstrlen_append hzero [0]
    rw [hlen, if_pos (Nat.lt_succ_self _)]

/-- The length of a label is not the first byte of a pointer, and not zero. -/
theorem label_length (label : Label) : UInt8.ofNat label.bytes.length &&& 0xc0 = 0 ∧
    UInt8.ofNat label.bytes.length ≠ 0 := by
  have hsmall : ∀ n < 64, UInt8.ofNat n &&& 0xc0 = 0 ∧ (n ≠ 0 → UInt8.ofNat n ≠ 0) := by decide
  have hlength := hsmall label.bytes.length (Nat.lt_succ_of_le label.length_le)
  exact ⟨hlength.1, hlength.2 fun h => label.ne_nil (List.eq_nil_of_length_eq_zero h)⟩

theorem zero_notMem_labels {labels : List Label} :
    0 ∉ labels.flatMap Label.encode ↔ ∀ label ∈ labels, 0 ∉ label.bytes := by
  simp only [List.mem_flatMap, not_exists, not_and]
  refine forall₂_congr fun label _ => ?_
  rw [Label.encode, List.mem_cons, not_or]
  exact and_iff_right (label_length label).2.symm

/-- The first byte of a pointer. -/
theorem pointer_head (offset : Fin (2 ^ 14)) :
    UInt8.ofNat (0xc0 + offset / 2 ^ 8) &&& 0xc0 ≠ 0 ∧ UInt8.ofNat (0xc0 + offset / 2 ^ 8) ≠ 0 := by
  have hsmall : ∀ n < 64, UInt8.ofNat (0xc0 + n) &&& 0xc0 ≠ 0 ∧ UInt8.ofNat (0xc0 + n) ≠ 0 := by
    decide
  exact hsmall (offset / 2 ^ 8) (by omega)

/-- The code finds the end of a name exactly when the name is one of these. -/
theorem skip_encode_iff (name : Name) :
    skip name.encode = some name.encode.length ↔ Findable name := by
  obtain ⟨labels, ending⟩ := name
  cases labels with
  | nil =>
      cases ending with
      | root =>
          refine ⟨fun _ label h => absurd h List.not_mem_nil, fun _ => ?_⟩
          rfl
      | pointer offset => exact ⟨fun _ => .inl rfl, fun _ => skip_pointer (pointer_head offset).1⟩
  | cons label labels =>
      have hfront : (label :: labels).flatMap Label.encode =
          UInt8.ofNat label.bytes.length :: (label.bytes ++ labels.flatMap Label.encode) := rfl
      have hhead := (label_length label).1
      cases ending with
      | root =>
          show skip ((label :: labels).flatMap Label.encode ++ [0]) = some _ ↔
            ∀ l ∈ label :: labels, 0 ∉ l.bytes
          rw [← zero_notMem_labels]
          simp only [Name.encode, NameEnd.encode]
          rw [hfront]
          exact (skip_concat_iff hhead).trans (and_iff_left rfl)
      | pointer offset =>
          have hptr := (pointer_head offset).2
          simp only [Name.encode, NameEnd.encode, Findable, reduceCtorEq, false_or]
          rw [← zero_notMem_labels, hfront]
          generalize label.bytes ++ labels.flatMap Label.encode = x
          generalize UInt8.ofNat (0xc0 + offset / 2 ^ 8) = hi at hptr
          -- the first byte of the pointer is one more byte that is not zero
          have hbytes : ∀ c lo : UInt8, c :: x ++ [hi, lo] = c :: (x ++ [hi]) ++ [lo] := by simp
          rw [hbytes, skip_concat_iff hhead, and_comm]
          refine and_congr_right fun _ => ?_
          rw [← List.cons_append, List.mem_append, List.mem_singleton, not_or]
          exact and_iff_left (Ne.symm hptr)

/-! ### The responses that the code understands -/

/-- These bytes are so many questions and a name, with names that are as long as the code finds
them. -/
def Cuts : Nat → List UInt8 → Prop
  | 0, l => skip l = some l.length
  | quests + 1, l => ∃ n, skip l = some n ∧ n + 4 ≤ l.length ∧ Cuts quests (l.drop (n + 4))

/-- The code finds the ends of the names of these answers, takes their lengths for what they are,
and has their fields in its buffer. -/
structure Clear (start : Nat) (as : List Record) : Prop where
  names : ∀ a ∈ as, Findable a.name
  lengths : ∀ a ∈ as, a.rdata.length < 2 ^ 15
  fits : ∀ v ∈ visits start as, v.type_at + 10 ≤ BUFFER_SIZE

/-- The same of a whole response. Of the first answer the code has to find the end of its name, from
wherever it has come through the questions. -/
def Understood (r : Response) : Prop :=
  match r.answers with
  | [] => True
  | a :: as =>
    Cuts r.questions.length (questionBytes r ++ a.name.encode) ∧
      answersAt r + a.name.encode.length + 10 ≤ BUFFER_SIZE ∧ a.rdata.length < 2 ^ 15 ∧
        Clear (answersAt r + a.encode.length) as

/-- The code comes through questions with such names. -/
theorem cuts_of_findable {questions : List Question} {name : Name}
    (hquestions : ∀ question ∈ questions, Findable question.name) (hname : Findable name) :
    Cuts questions.length (questions.flatMap Question.encode ++ name.encode) := by
  induction questions with
  | nil => exact (skip_encode_iff name).mpr hname
  | cons question questions ih =>
      rw [List.forall_mem_cons] at hquestions
      have hbytes : (question :: questions).flatMap Question.encode ++ name.encode =
          question.name.encode ++ (be16 question.qtype.toNat ++ be16 question.qclass.toNat ++
            (questions.flatMap Question.encode ++ name.encode)) := by
        simp only [List.flatMap_cons, Question.encode, List.append_assoc]
      rw [hbytes]
      refine ⟨_, skip_append ((skip_encode_iff question.name).mpr hquestions.1), ?_, ?_⟩
      · rw [List.length_append, List.length_append, List.length_append]
        exact Nat.add_le_add_left (Nat.le_add_right 4 _) _
      · rw [← List.drop_drop, List.drop_left]
        exact ih hquestions.2

/-! ### What the buffer holds -/

/-- The buffer holds these bytes from a position on, as many as it has room for. -/
def Holds (buf : Buffer) (p : Nat) (l : List UInt8) : Prop :=
  l.take (BUFFER_SIZE - p) <+: buf.bytes.drop p

section Holds
variable {buf : Buffer} {p : Nat} {x y l : List UInt8}

theorem holds_recv (buf : Buffer) (datagram : List UInt8) : Holds (buf.recv datagram) 0 datagram :=
  List.prefix_append _ _

/-- The bytes behind the front. -/
theorem Holds.append (h : Holds buf p (x ++ y)) : Holds buf (p + x.length) y := by
  obtain ⟨rest, hrest⟩ := h
  have hdrop := congrArg (List.drop x.length) hrest
  rw [List.drop_append, List.drop_drop, List.drop_take, List.drop_left, Nat.sub_sub] at hdrop
  exact ⟨_, hdrop⟩

/-- The front, when there is room for it. -/
theorem Holds.front (h : Holds buf p (x ++ y)) (hle : p + x.length ≤ BUFFER_SIZE) :
    ∃ rest, buf.bytes.drop p = x ++ rest := by
  have hx : x <+: (x ++ y).take (BUFFER_SIZE - p) :=
    List.prefix_take_iff.mpr ⟨List.prefix_append x y, by omega⟩
  obtain ⟨rest, hrest⟩ := hx.trans h
  exact ⟨rest, hrest.symm⟩

/-- A name in the buffer has its length exactly when it has it alone. -/
theorem Holds.skip_iff (h : Holds buf p (x ++ y)) (hle : p + x.length ≤ BUFFER_SIZE) {n : Nat}
    (hn : n ≤ x.length) : skip (buf.bytes.drop p) = some n ↔ skip x = some n := by
  obtain ⟨rest, hrest⟩ := h.front hle
  rw [hrest]
  exact ⟨fun hskip => skip_of_append hskip hn, skip_append⟩

theorem Holds.congr {buf' : Buffer} (h : Holds buf p l)
    (heq : buf'.bytes.drop p = buf.bytes.drop p) : Holds buf' p l := by
  rwa [Holds, heq]

end Holds

/-! ### Events -/

@[simp] theorem visited_append (log es : List Event) :
    visited (log ++ es) = visited log ++ visited es :=
  List.filterMap_append

theorem visited_of_isWalk {log : List Event} (h : ∀ e ∈ log, IsWalk e) : visited log = [] := by
  refine List.filterMap_eq_nil_iff.mpr fun e he => ?_
  have := h e he
  cases e with
  | answer start type_at type dlen => exact absurd this id
  | _ => rfl

/-! ### The fields of an answer -/

section Fields
variable {buf : Buffer} {p : Nat} {a : Record} {y : List UInt8}

theorem toShort_eq_iff {n : Nat} : toShort n = n ↔ n < 2 ^ 15 := by
  unfold toShort
  split
  · next hlt => exact ⟨fun _ => hlt, fun _ => rfl⟩
  · next hge => exact ⟨fun heq => by omega, fun hlt => absurd hlt hge⟩

/-- The fields of an answer that is in the buffer. -/
theorem shortAt_fields (h : Holds buf p (a.fields ++ y)) (hle : p + 10 ≤ BUFFER_SIZE) :
    shortAt buf p = toShort a.type.toNat ∧ shortAt buf (p + 8) = toShort a.rdata.length := by
  obtain ⟨rest, hrest⟩ := h.front hle
  have hdrop : buf.bytes.drop (p + 8) = be16 a.rdata.length ++ rest := by
    rw [← List.drop_drop, hrest]
    rfl
  have htype : (buf.bytes.drop p).take 2 = be16 a.type.toNat := by
    rw [hrest]
    rfl
  have hdlen : (buf.bytes.drop (p + 8)).take 2 = be16 a.rdata.length := by
    rw [hdrop]
    rfl
  refine ⟨?_, ?_⟩
  · rw [shortAt, htype, ofBE_be16, Nat.mod_eq_of_lt a.type.toNat_lt]
  · rw [shortAt, hdlen, ofBE_be16, Nat.mod_eq_of_lt a.length_lt]

/-- The code takes an answer for an address exactly when it is one. -/
theorem toShort_eq_typeA_iff {type : UInt16} :
    toShort type.toNat = DEFAULT_QUERY_TYPE ↔ type = typeA := by
  have hlt := type.toNat_lt
  rw [← UInt16.toNat_inj]
  show _ ↔ type.toNat = 1
  unfold toShort DEFAULT_QUERY_TYPE
  split <;> omega

end Fields

/-! ### One answer -/

section Answer
variable {s : Dns} {id : UInt16} {answers p : Nat}

/-- Of the first answer that the walk reads, and of the others. -/
theorem visited_walkAnswers_eq_cons_iff {w : Visit} {ws : List Visit} :
    visited (s.walkAnswers id (answers + 1) p).log = w :: ws ↔
      ∃ n, skip (s.buffer_.bytes.drop p) = some n ∧ p + n + 10 ≤ BUFFER_SIZE ∧
        w = ⟨p, (p + n : Nat), shortAt s.buffer_ (p + n), shortAt s.buffer_ (p + n + 8)⟩ ∧
        visited (withFields id answers (shortAt s.buffer_ (p + n))
          (shortAt s.buffer_ (p + n + 8)) ((p + n + 10 : Nat) : Int)
          { s with buffer_ := passed s.buffer_ p }).log = ws := by
  by_cases hin : ∃ n, skip (s.buffer_.bytes.drop p) = some n ∧ p + n + 10 ≤ BUFFER_SIZE
  · obtain ⟨n, hskip, hle⟩ := hin
    have hfields : visited (fieldEvents s p (p + n)) =
        [⟨p, (p + n : Nat), shortAt s.buffer_ (p + n), shortAt s.buffer_ (p + n + 8)⟩] := by
      rw [fieldEvents, visited_append, visited_of_isWalk (skipName_isWalk s p)]
      rfl
    rw [walkAnswers_of_skip hskip hle, Traced.log_tell_bind, visited_append, hfields,
      List.singleton_append, List.cons.injEq]
    constructor
    · rintro ⟨rfl, rfl⟩
      exact ⟨n, hskip, hle, rfl, rfl⟩
    · rintro ⟨m, hm, -, rfl, rfl⟩
      obtain rfl := Option.some.inj (hskip.symm.trans hm)
      exact ⟨rfl, rfl⟩
  · have hout : ∀ n, skip (s.buffer_.bytes.drop p) = some n → BUFFER_SIZE < p + n + 10 :=
      fun n hskip => Nat.lt_of_not_le fun hle => hin ⟨n, hskip, hle⟩
    rw [visited_of_isWalk (walkAnswers_of_outside id answers hout).acts]
    refine ⟨fun h => absurd h.symm (List.cons_ne_nil w ws), ?_⟩
    rintro ⟨n, hskip, hle, -⟩
    exact absurd ⟨n, hskip, hle⟩ hin

/-- Behind an answer the walk goes on where its data ends, unless it cannot read the address, or has
come to the end. -/
theorem visited_withFields (id : UInt16) (answers : Nat) (type dlen : Int) (data : Nat) (s : Dns) :
    (∃ t : Dns, t.buffer_ = s.buffer_ ∧
      visited (withFields id answers type dlen data s).log =
        visited (t.walkAnswers id answers (data + dlen)).log) ∨
    (type = DEFAULT_QUERY_TYPE ∧ BUFFER_SIZE < data + 4 ∧
      visited (withFields id answers type dlen data s).log = []) := by
  by_cases hnone : type = DEFAULT_QUERY_TYPE → s.findQuery id = (none, s)
  · -- nobody waits for the record, so the state stays
    refine .inl ⟨s, rfl, ?_⟩
    rw [withFields_of_none hnone, Traced.log_tell_bind, visited_append]
    rfl
  obtain ⟨rfl, hfind⟩ := Classical.not_imp.mp hnone
  rcases findQuery_cases id s with ⟨hnone, -⟩ | ⟨pre, be, post, -, -, hfound⟩
  · exact absurd hnone hfind
  cases hread : s.buffer_.read data 4 with
  | none =>
      -- the address lies behind the buffer, and the walk stops there
      have hout : BUFFER_SIZE < data + 4 := by
        by_contra hle
        rw [read_of_le (Nat.le_of_not_lt hle)] at hread
        exact Option.some_ne_none _ hread
      refine .inr ⟨rfl, hout, ?_⟩
      rw [withFields_of_outside hfound hread]
      rfl
  | some addr =>
      left
      cases answers with
      | zero =>
          refine ⟨s, rfl, ?_⟩
          rw [withFields_last hfound hread]
          rfl
      | succ answers =>
          refine ⟨_, ?_, by
            rw [withFields_succ hfound hread, Traced.log_tell_bind, visited_append]
            rfl⟩
          rfl

end Answer

/-! ### All answers -/

theorem clear_nil (start : Nat) : Clear start [] :=
  ⟨fun _ h => absurd h List.not_mem_nil, fun _ h => absurd h List.not_mem_nil,
    fun _ h => absurd h List.not_mem_nil⟩

theorem clear_cons_iff {start : Nat} {a : Record} {as : List Record} :
    Clear start (a :: as) ↔ skip a.name.encode = some a.name.encode.length ∧
      start + a.name.encode.length + 10 ≤ BUFFER_SIZE ∧ a.rdata.length < 2 ^ 15 ∧
        Clear (start + a.encode.length) as := by
  constructor
  · rintro ⟨hnames, hlengths, hfits⟩
    rw [List.forall_mem_cons] at hnames hlengths
    rw [visits, List.forall_mem_cons] at hfits
    have hfirst : ((start + a.name.encode.length : Nat) : Int) + 10 ≤ BUFFER_SIZE := hfits.1
    exact ⟨(skip_encode_iff _).mpr hnames.1, by omega, hlengths.1, hnames.2, hlengths.2, hfits.2⟩
  · rintro ⟨hname, hfits, hlength, hrest⟩
    refine ⟨List.forall_mem_cons.mpr ⟨(skip_encode_iff _).mp hname, hrest.names⟩,
      List.forall_mem_cons.mpr ⟨hlength, hrest.lengths⟩, ?_⟩
    rw [visits, List.forall_mem_cons]
    exact ⟨by dsimp only; omega, hrest.fits⟩

/-- The bytes of these answers. -/
def answerBytes (as : List Record) : List UInt8 := as.flatMap Record.encode

section Answers
variable {s : Dns} {id : UInt16} {as : List Record} {a : Record} {more : List UInt8}

/-- Behind the fields of an answer, the walk over the others is right when they are clear. -/
theorem visited_rest_iff {data : Nat}
    (hholds : Holds s.buffer_ data (a.rdata ++ (answerBytes as ++ more)))
    (hrest : ∀ t : Dns, Holds t.buffer_ (data + a.rdata.length) (answerBytes as ++ more) →
      (visited (t.walkAnswers id as.length (data + a.rdata.length : Nat)).log =
          visits (data + a.rdata.length) as ↔ Clear (data + a.rdata.length) as)) :
    visited (withFields id as.length (toShort a.type.toNat) a.rdata.length data s).log =
        visits (data + a.rdata.length) as ↔ Clear (data + a.rdata.length) as := by
  rcases visited_withFields id as.length (toShort a.type.toNat) a.rdata.length data s with
    ⟨t, hbuffer, hlog⟩ | ⟨htype, hout, hlog⟩
  · rw [hlog]
    exact hrest t (hbuffer ▸ hholds.append)
  · rw [hlog]
    have hlen := a.length_of_typeA (toShort_eq_typeA_iff.mp htype)
    cases as with
    | nil => exact ⟨fun _ => clear_nil _, fun _ => rfl⟩
    | cons b as =>
        -- the next answer begins behind the address, so it is not in the buffer either
        refine ⟨fun h => absurd h (List.cons_ne_nil _ _).symm, fun h => ?_⟩
        have hfits := (clear_cons_iff.mp h).2.1
        omega

/-- The walk over the answers is right when it comes to the type of the first one, and they are
clear. -/
theorem visited_iff_of_rest {p target : Nat}
    (hholds : Holds s.buffer_ target (a.fields ++ (a.rdata ++ (answerBytes as ++ more))))
    (hrest : ∀ t : Dns, Holds t.buffer_ (target + 10 + a.rdata.length) (answerBytes as ++ more) →
      (visited (t.walkAnswers id as.length (target + 10 + a.rdata.length : Nat)).log =
        visits (target + 10 + a.rdata.length) as ↔ Clear (target + 10 + a.rdata.length) as)) :
    (∃ start, visited (s.walkAnswers id (as.length + 1) p).log =
      ⟨start, target, toShort a.type.toNat, a.rdata.length⟩ ::
        visits (target + 10 + a.rdata.length) as) ↔
      (∃ n, skip (s.buffer_.bytes.drop p) = some n ∧ p + n = target) ∧ target + 10 ≤ BUFFER_SIZE ∧
        a.rdata.length < 2 ^ 15 ∧ Clear (target + 10 + a.rdata.length) as := by
  have hgo : ∀ n, skip (s.buffer_.bytes.drop p) = some n → p + n = target →
      (visited (withFields id as.length (toShort a.type.toNat) a.rdata.length
          ((target + 10 : Nat) : Int) { s with buffer_ := passed s.buffer_ p }).log =
        visits (target + 10 + a.rdata.length) as ↔ Clear (target + 10 + a.rdata.length) as) := by
    intro n hskip hn
    refine visited_rest_iff ?_ hrest
    have hpos := skip_pos hskip
    exact hholds.append.congr (drop_passed _ (by rw [Record.length_fields]; omega))
  constructor
  · rintro ⟨start, hvisited⟩
    -- the first visit gives where the fields are, and the others follow from `hgo`
    obtain ⟨n, hskip, hle, hfirst, hothers⟩ := visited_walkAnswers_eq_cons_iff.mp hvisited
    obtain ⟨-, htarget, htype, hdlen⟩ := Visit.mk.inj hfirst
    obtain rfl : target = p + n := Int.ofNat.inj htarget
    obtain ⟨hshort, hlength⟩ := shortAt_fields hholds hle
    rw [hlength] at hdlen
    have hlt := toShort_eq_iff.mp hdlen.symm
    rw [hshort, hlength, toShort_eq_iff.mpr hlt] at hothers
    exact ⟨⟨n, hskip, rfl⟩, hle, hlt, (hgo n hskip rfl).mp hothers⟩
  · rintro ⟨⟨n, hskip, rfl⟩, hle, hlt, hclear⟩
    obtain ⟨hshort, hlength⟩ := shortAt_fields hholds hle
    refine ⟨p, visited_walkAnswers_eq_cons_iff.mpr ⟨n, hskip, hle, ?_, ?_⟩⟩
    · rw [hshort, hlength, toShort_eq_iff.mpr hlt]
    · rw [hshort, hlength, toShort_eq_iff.mpr hlt]
      exact (hgo n hskip rfl).mpr hclear

/-- The walk over answers that it begins where they begin is right exactly when they are clear. -/
theorem visited_walkAnswers_iff (as : List Record) : ∀ {s : Dns} {start : Nat},
    Holds s.buffer_ start (answerBytes as ++ more) →
      (visited (s.walkAnswers id as.length start).log = visits start as ↔ Clear start as) := by
  induction as with
  | nil => exact fun {s start} _ => ⟨fun _ => clear_nil start, fun _ => rfl⟩
  | cons a as ih =>
      intro s start hholds
      have hbytes : answerBytes (a :: as) ++ more =
          a.name.encode ++ (a.fields ++ (a.rdata ++ (answerBytes as ++ more))) := by
        simp only [answerBytes, List.flatMap_cons, Record.encode, List.append_assoc]
      rw [hbytes] at hholds
      have hlen : start + a.encode.length =
          start + a.name.encode.length + 10 + a.rdata.length := by
        rw [Record.length_encode]
        omega
      have hfirst := visited_iff_of_rest (p := start) hholds.append fun t ht => ih ht
      rw [clear_cons_iff, hlen, List.length_cons, visits, hlen]
      constructor
      · intro h
        obtain ⟨⟨n, hskip, hn⟩, hle, hrest⟩ := hfirst.mp ⟨_, h⟩
        obtain rfl := Nat.add_left_cancel hn
        exact ⟨(hholds.skip_iff (by omega) (Nat.le_refl _)).mp hskip, hle, hrest⟩
      · rintro ⟨hname, hle, hrest⟩
        have hskip := (hholds.skip_iff (by omega) (Nat.le_refl _)).mpr hname
        obtain ⟨p, hp⟩ := hfirst.mpr ⟨⟨_, hskip, rfl⟩, hle, hrest⟩
        -- the walk began here
        obtain ⟨_, _, _, hstart, _⟩ := visited_walkAnswers_eq_cons_iff.mp hp
        obtain ⟨rfl, -⟩ := Visit.mk.inj hstart
        exact hp

end Answers

/-! ### The questions -/

/-- The walk over the questions and a name comes to the end of these bytes exactly when they can be
cut so. -/
theorem behindQuestions_iff_cuts (quests : Nat) : ∀ {buf : Buffer} {p : Nat} {l more : List UInt8},
    Holds buf p (l ++ more) → p + l.length ≤ BUFFER_SIZE →
      ((∃ buf' q n, behindQuestions quests buf p = some (buf', q) ∧
        skip (buf'.bytes.drop q) = some n ∧ q + n = p + l.length) ↔ Cuts quests l) := by
  induction quests with
  | zero =>
      intro buf p l more hholds hle
      have hskip := hholds.skip_iff hle (Nat.le_refl _)
      constructor
      · rintro ⟨buf', q, n, hbehind, hname, hend⟩
        obtain ⟨rfl, rfl⟩ := Prod.mk.inj (Option.some.inj hbehind)
        obtain rfl := Nat.add_left_cancel hend
        exact hskip.mp hname
      · exact fun hcuts => ⟨buf, p, l.length, rfl, hskip.mpr hcuts, rfl⟩
  | succ quests ih =>
      intro buf p l more hholds hle
      -- what holds behind the first question, when it ends inside these bytes
      have hnext : ∀ n, skip (buf.bytes.drop p) = some n → n + 4 ≤ l.length →
          ((∃ buf' q m, behindQuestions quests (passed buf p) (p + n + 4) = some (buf', q) ∧
            skip (buf'.bytes.drop q) = some m ∧ q + m = p + l.length) ↔
              Cuts quests (l.drop (n + 4))) := by
        intro n hskip hn
        have hpos := skip_pos hskip
        have hsum : p + n + 4 + (l.length - (n + 4)) = p + l.length := by omega
        have htake : (l.take (n + 4)).length = n + 4 := List.length_take_of_le hn
        rw [← List.take_append_drop (n + 4) l, List.append_assoc] at hholds
        have hbehind := hholds.append
        rw [htake, ← Nat.add_assoc] at hbehind
        have hdrop : (l.drop (n + 4)).length = l.length - (n + 4) := List.length_drop
        have hstart : Holds (passed buf p) (p + n + 4) (l.drop (n + 4) ++ more) :=
          hbehind.congr (drop_passed buf (by omega))
        have hend : p + n + 4 + (l.drop (n + 4)).length ≤ BUFFER_SIZE := by
          rw [hdrop]
          omega
        have hcuts := ih hstart hend
        rwa [hdrop, hsum] at hcuts
      constructor
      · rintro ⟨buf', q, m, hbehind, hname, hend⟩
        obtain ⟨n, hskip, hrest⟩ := Option.bind_eq_some_iff.mp hbehind
        have hq := (behindQuestions_drop hrest).1
        have hn : n + 4 ≤ l.length := by omega
        exact ⟨n, (hholds.skip_iff hle (by omega)).mp hskip, hn,
          (hnext n hskip hn).mp ⟨buf', q, m, hrest, hname, hend⟩⟩
      · rintro ⟨n, hskip, hn, hcuts⟩
        have hskip' := (hholds.skip_iff hle (by omega)).mpr hskip
        obtain ⟨buf', q, m, hrest, hname, hend⟩ := (hnext n hskip' hn).mpr hcuts
        exact ⟨buf', q, m, Option.bind_eq_some_iff.mpr ⟨n, hskip', hrest⟩, hname, hend⟩

/-- The walk over questions and answers is right exactly when the code finds the end of the first
answer's name, and the answers are clear. -/
theorem visited_behindQuestions_iff {s : Dns} {id : UInt16} {buf : Buffer} {quests p target : Nat}
    {l more : List UInt8} {a : Record} {as : List Record} {found : List Visit}
    (hholds : Holds buf p (l ++ (a.fields ++ (a.rdata ++ (answerBytes as ++ more)))))
    (htarget : p + l.length = target) (hnone : behindQuestions quests buf p = none → found = [])
    (hsome : ∀ buf' (q : Nat), behindQuestions quests buf p = some (buf', q) →
      found = visited (walkAnswers id (as.length + 1) q { s with buffer_ := buf' }).log) :
    (∃ start, found = ⟨start, target, toShort a.type.toNat, a.rdata.length⟩ ::
      visits (target + 10 + a.rdata.length) as) ↔
      Cuts quests l ∧ target + 10 ≤ BUFFER_SIZE ∧ a.rdata.length < 2 ^ 15 ∧
        Clear (target + 10 + a.rdata.length) as := by
  have hfields := hholds.append
  rw [htarget] at hfields
  -- where the walk comes to, when the fields have room
  have hcuts : target + 10 ≤ BUFFER_SIZE →
      ((∃ buf' q n, behindQuestions quests buf p = some (buf', q) ∧
        skip (buf'.bytes.drop q) = some n ∧ q + n = target) ↔ Cuts quests l) := by
    intro hle
    rw [← htarget]
    exact behindQuestions_iff_cuts quests hholds (by omega)
  cases hbehind : behindQuestions quests buf p with
  | none =>
      constructor
      · rintro ⟨start, h⟩
        exact absurd (h.symm.trans (hnone hbehind)) (List.cons_ne_nil _ _)
      · rintro ⟨hcut, hle, -⟩
        obtain ⟨_, _, _, hbehind', -⟩ := (hcuts hle).mpr hcut
        exact absurd (hbehind.symm.trans hbehind') (Option.some_ne_none _).symm
  | some x =>
      obtain ⟨buf', q⟩ := x
      rw [hsome buf' q hbehind]
      have hvisit : (∃ start, visited (walkAnswers id (as.length + 1) q
            { s with buffer_ := buf' }).log =
              ⟨start, target, toShort a.type.toNat, a.rdata.length⟩ ::
                visits (target + 10 + a.rdata.length) as) ↔
          (∃ n, skip (buf'.bytes.drop q) = some n ∧ q + n = target) ∧ target + 10 ≤ BUFFER_SIZE ∧
            a.rdata.length < 2 ^ 15 ∧ Clear (target + 10 + a.rdata.length) as := by
        by_cases hq : q ≤ target
        · have hdrop := (behindQuestions_drop hbehind).2
          have hkept : buf'.bytes.drop target = buf.bytes.drop target := by
            rw [← Nat.add_sub_cancel' hq, ← List.drop_drop, ← List.drop_drop, hdrop]
          exact visited_iff_of_rest (hfields.congr hkept) fun t ht => visited_walkAnswers_iff as ht
        · -- the cursor only moves forward
          constructor
          · rintro ⟨start, hvisited⟩
            obtain ⟨n, -, -, hfirst, -⟩ := visited_walkAnswers_eq_cons_iff.mp hvisited
            have htype := (Visit.mk.inj hfirst).2.1
            omega
          · rintro ⟨⟨n, -, hn⟩, -⟩
            omega
      rw [hvisit]
      constructor
      · rintro ⟨⟨n, hskip, hn⟩, hle, hrest⟩
        exact ⟨(hcuts hle).mp ⟨buf', q, n, hbehind, hskip, hn⟩, hle, hrest⟩
      · rintro ⟨hcut, hle, hrest⟩
        obtain ⟨buf'', q', n, hbehind', hskip, hn⟩ := (hcuts hle).mpr hcut
        obtain ⟨rfl, rfl⟩ := Prod.mk.inj (Option.some.inj (hbehind.symm.trans hbehind'))
        exact ⟨⟨n, hskip, hn⟩, hle, hrest⟩

/-! ### A response -/

section Response
variable {r : Response} {s : Dns}

theorem encode_eq (r : Response) : r.encode =
    r.header ++ (questionBytes r ++ (answerBytes r.answers ++ r.rest)) := by
  simp only [Response.encode, questionBytes, answerBytes, List.append_assoc]

/-- A number with the bit of a response. -/
theorem response_flag {n : Nat} (h : 2 ^ 15 ≤ n) (hlt : n < 2 ^ 16) :
    n &&& QUERY_RESPONSE_FLAGS ≠ 0 := by
  have hbit : n.testBit 15 = true := by
    rw [Nat.testBit_eq_decide_div_mod_eq]
    exact decide_eq_true (by omega)
  intro hzero
  have hand : (n &&& 2 ^ 15).testBit 15 = true := by
    rw [Nat.testBit_and, hbit, Nat.testBit_two_pow_self, Bool.true_and]
  rw [show n &&& 2 ^ 15 = 0 from hzero, Nat.zero_testBit] at hand
  exact Bool.noConfusion hand

/-- What the header of a response says. -/
theorem header_of_response (hholds : Holds s.buffer_ 0 r.encode) :
    headAt s.buffer_ 2 &&& QUERY_RESPONSE_FLAGS ≠ 0 ∧ headAt s.buffer_ 4 = r.questions.length ∧
      headAt s.buffer_ 6 = r.answers.length := by
  rw [encode_eq] at hholds
  obtain ⟨rest, hrest⟩ := hholds.front (by decide : 0 + 12 ≤ BUFFER_SIZE)
  rw [List.drop_zero] at hrest
  have hfield : ∀ (n : Nat) (p : Nat), (s.buffer_.bytes.drop p).take 2 = be16 n → n < 2 ^ 16 →
      headAt s.buffer_ p = n := by
    intro n p htake hlt
    rw [headAt, htake, ofBE_be16, Nat.mod_eq_of_lt hlt]
  have hflags := hfield r.flags.toNat 2 (by rw [hrest]; rfl) r.flags.toNat_lt
  rw [hflags]
  exact ⟨response_flag r.is_response r.flags.toNat_lt,
    hfield _ 4 (by rw [hrest]; rfl) r.questions_lt, hfield _ 6 (by rw [hrest]; rfl) r.answers_lt⟩

/-- The answers that `handle_read` reads from one response. -/
theorem visited_handleRead (r : Response) (s : Dns) :
    (behindQuestions r.questions.length (s.buffer_.recv r.encode) 12 = none →
      visited (s.handleRead [r.encode]).log = []) ∧
    ∀ buf' (q : Nat), behindQuestions r.questions.length (s.buffer_.recv r.encode) 12 =
        some (buf', q) →
      visited (s.handleRead [r.encode]).log =
        visited (walkAnswers (idOf (s.buffer_.recv r.encode)) r.answers.length q
          { s with buffer_ := buf' }).log := by
  let t : Dns := { s with buffer_ := s.buffer_.recv r.encode }
  obtain ⟨hflags, hquests, hanswers⟩ := header_of_response (s := t) (holds_recv s.buffer_ r.encode)
  -- what comes behind the response reads no answer
  have htail : ∀ x : Option (Bool × Dns), visited (x.elim [] fun a =>
      (if a.1 then handleRead [] a.2 else pure (0, a.2)).log) = [] := by
    intro x
    cases x with
    | none => rfl
    | some a =>
        rw [Option.elim_some]
        split
        · rfl
        · rfl
  have hrest : visited (s.handleRead [r.encode]).log = visited t.response.log := by
    rw [handleRead, Traced.log_tell_bind, visited_append, Traced.log_bind, visited_append]
    refine (congrArg (visited t.response.log ++ ·) (htail _)).trans ?_
    exact List.append_nil _
  have hresponse : visited t.response.log = visited ((skipQuestions r.questions.length 12 t >>=
      fun x => x.2.walkAnswers (idOf t.buffer_) r.answers.length x.1)).log := by
    rw [response_eq hflags, Traced.log_tell_bind, visited_append, hquests, hanswers]
    rfl
  have hvalue := value_skipQuestions r.questions.length t 12
  rw [hrest, hresponse, Traced.log_bind, visited_append,
    visited_of_isWalk (skipQuestions_isWalk _ _ _)]
  constructor
  · intro hnone
    rw [show t.buffer_ = s.buffer_.recv r.encode from rfl, hnone] at hvalue
    rw [show (skipQuestions r.questions.length 12 t).value = none from hvalue]
    rfl
  · intro buf' q hsome
    rw [show t.buffer_ = s.buffer_.recv r.encode from rfl, hsome] at hvalue
    rw [show (skipQuestions r.questions.length 12 t).value = some _ from hvalue, Option.elim_some]
    rfl

/-- The walk over the answers of a response, of which there is one. -/
theorem follows_iff_of_cons {a : Record} {as : List Record} (hanswers : r.answers = a :: as)
    (s : Dns) : Follows r (s.handleRead [r.encode]).log ↔
      Cuts r.questions.length (questionBytes r ++ a.name.encode) ∧
        answersAt r + a.name.encode.length + 10 ≤ BUFFER_SIZE ∧ a.rdata.length < 2 ^ 15 ∧
          Clear (answersAt r + a.encode.length) as := by
  have hholds : Holds (s.buffer_.recv r.encode) 0 r.encode := holds_recv _ _
  obtain ⟨hnone, hsome⟩ := visited_handleRead r s
  generalize s.buffer_.recv r.encode = buf at hholds hnone hsome
  have hbytes : r.encode = r.header ++ ((questionBytes r ++ a.name.encode) ++
      (a.fields ++ (a.rdata ++ (answerBytes as ++ r.rest)))) := by
    rw [encode_eq, hanswers]
    simp only [answerBytes, List.flatMap_cons, Record.encode, List.append_assoc]
  have hfront : Holds buf 12 ((questionBytes r ++ a.name.encode) ++
      (a.fields ++ (a.rdata ++ (answerBytes as ++ r.rest)))) := by
    rw [hbytes] at hholds
    exact hholds.append
  have htarget : 12 + (questionBytes r ++ a.name.encode).length =
      answersAt r + a.name.encode.length := by
    rw [List.length_append, ← Nat.add_assoc]
    rfl
  have hlen : answersAt r + a.encode.length =
      answersAt r + a.name.encode.length + 10 + a.rdata.length := by
    rw [Record.length_encode, ← Nat.add_assoc, ← Nat.add_assoc]
  rw [hanswers, List.length_cons] at hsome
  simp only [Follows, hanswers, visits, hlen]
  exact visited_behindQuestions_iff hfront htarget hnone hsome

/-- The walk follows the format exactly when the code understands the response. -/
theorem follows_iff (r : Response) (s : Dns) :
    Follows r (s.handleRead [r.encode]).log ↔ Understood r := by
  cases hanswers : r.answers with
  | nil =>
      obtain ⟨hnone, hsome⟩ := visited_handleRead r s
      simp only [Follows, Understood, hanswers, visits, iff_true]
      rw [hanswers] at hsome
      cases hbehind : behindQuestions r.questions.length (s.buffer_.recv r.encode) 12 with
      | none => exact hnone hbehind
      | some x => exact hsome x.1 x.2 hbehind
  | cons a as =>
      rw [follows_iff_of_cons hanswers, Understood, hanswers]

end Response

/-! ### A label and a pointer -/

/-- A client without requests. -/
def idle : Dns where
  count_ := 0
  bucket_ := fun _ => []
  tasks := fun _ => { query_id := 0 }
  buffer_ := ⟨List.replicate BUFFER_SIZE 0, List.length_replicate⟩

/-- A label of one byte. -/
def letter (b : UInt8) : Label := ⟨[b], List.cons_ne_nil b [], Nat.le_add_left 1 62⟩

/-- An address record. -/
def addressOf (name : Name) (addr : List UInt8) (h : addr.length = 4) : Record where
  name := name
  type := typeA
  rclass := 1
  ttl := 60
  rdata := addr
  length_lt := by omega
  length_of_typeA := fun _ => h

/-- The query for the name `a`, with an answer for `b.a` that points to the name in the query. -/
def compressed : Response where
  id := (1, 0)
  flags := 0x8180
  questions := [{ name := ⟨[letter 97], .root⟩, qtype := 1, qclass := 1 }]
  answers := [addressOf ⟨[letter 98], .pointer 12⟩ [10, 0, 0, 1] rfl]
  authorities := 0
  additionals := 0
  rest := []
  is_response := by decide
  questions_lt := by decide
  answers_lt := by decide

/-- The scan does not see the pointer, and takes a byte of the type for the end of the name. -/
theorem pointer_missed : ¬ Follows compressed (idle.handleRead [compressed.encode]).log := by
  rw [follows_iff_of_cons rfl]
  rintro ⟨⟨n, hskip, -, hname⟩, -⟩
  obtain rfl : 3 = n := Option.some.inj hskip
  have hmissed : skip [1, 98, 0xc0, 12] = some 4 := hname
  exact absurd hmissed (by decide)

end Ndsl.Proofs.Dns
