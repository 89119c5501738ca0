import Ndsl.Proofs.Dns.Follows
import Ndsl.Proofs.Dns.Keeps

/-!
# `Ndsl.Proofs.Dns.Inside`: what of its buffer `handle_read` looks at

`recv` says how long a datagram is, and `handle_read` does not use it. `Safe` is what the walk
should do nevertheless: look at bytes of the datagram only, and never move its cursor back. Then
what lies behind the datagram in the buffer does not matter (`response_together`). `safe_iff` says
for which datagrams the walk does so.
-/

set_option autoImplicit false

namespace Ndsl.Proofs.Dns

open Ndsl.Lib
open Ndsl.Net Ndsl.Net.Dns

/-! ### What the walk should do -/

/-- An event for a datagram of `n` bytes: an access is inside of it, and the cursor does not move
back. -/
def Inside (n : Nat) : Event → Prop
  | .load pos k => 0 ≤ pos ∧ pos + k ≤ n
  | .store pos => 0 ≤ pos ∧ pos < n
  | .move p q => p ≤ q
  | _ => True

/-- The events of a call, each for the datagram that was taken last. The first number is the size of
the one before. -/
def Examines : Nat → List Event → Prop
  | _, [] => True
  | _, .recv datagram :: es => Examines (datagram.getD []).length es
  | n, e :: es => Inside n e ∧ Examines n es

/-- The same requests, whatever is in the buffer. -/
def SameRequests (s t : Dns) : Prop := t = { s with buffer_ := t.buffer_ }

/-- A call on these datagrams looks at nothing else, and what was in the buffer before does not
change what it does. -/
structure Safe (datagrams : List (List UInt8)) (s : Dns) : Prop where
  inside : Examines 0 (s.handleRead datagrams).log
  same : ∀ buf : Buffer,
    (handleRead datagrams { s with buffer_ := buf }).log = (s.handleRead datagrams).log ∧
    Option.Rel (fun x y => y.1 = x.1 ∧ SameRequests x.2 y.2) (s.handleRead datagrams).value
      (handleRead datagrams { s with buffer_ := buf }).value

/-! ### The condition -/

/-- The bytes behind so many questions, with names as long as the code finds them. -/
def behind : Nat → List UInt8 → Option (List UInt8)
  | 0, l => some l
  | quests + 1, l => (skip l).bind fun n => behind quests (l.drop (n + 4))

/-- The `short` at a position of these bytes. -/
def shortIn (l : List UInt8) (p : Nat) : Int := toShort (ofBE ((l.drop p).take 2))

/-- These bytes hold so many answers, when so many requests with the id are pending: each has a name
that ends in them, its fields, and a length that is not negative. An address that is taken is there
as well, and of the last one the length does not matter. -/
def Complete : Nat → Nat → List UInt8 → Prop
  | 0, _, _ => True
  | answers + 1, pending, l => ∃ n, skip l = some n ∧ n + 10 ≤ l.length ∧
    if shortIn l n = DEFAULT_QUERY_TYPE ∧ 0 < pending then
      n + 14 ≤ l.length ∧ (answers = 0 ∨ 0 ≤ shortIn l (n + 8) ∧
        Complete answers (pending - 1) (l.drop (n + 10 + (shortIn l (n + 8)).toNat)))
    else 0 ≤ shortIn l (n + 8) ∧
      Complete answers pending (l.drop (n + 10 + (shortIn l (n + 8)).toNat))

/-- How many requests with this id are pending. -/
def pendings (id : UInt16) (s : Dns) : Nat :=
  (s.bucket_ (id.toNat % DNS_BUCKET_SIZE)).countP fun be => (s.tasks be.task).query_id = id

/-- The number in a field of the header of these bytes. -/
def fieldOf (l : List UInt8) (p : Nat) : Nat := ofBE ((l.drop p).take 2)

/-- The datagram has its flags, and if it is a response, the fields up to its second count, and the
questions and answers that it counts. -/
def WellCounted (datagram : List UInt8) (s : Dns) : Prop :=
  4 ≤ datagram.length ∧ (fieldOf datagram 2 &&& QUERY_RESPONSE_FLAGS ≠ 0 →
    8 ≤ datagram.length ∧ ∃ l, behind (fieldOf datagram 4) (datagram.drop 12) = some l ∧
      Complete (fieldOf datagram 6)
        (pendings (UInt16.ofNat (ofBE (datagram.take 2).reverse)) s) l)

/-- The same of each datagram that a call takes, in the state that it finds. -/
def AllCounted : List (List UInt8) → Dns → Prop
  | [], _ => True
  | datagram :: datagrams, s => WellCounted datagram s ∧ ∀ es t,
    (response { s with buffer_ := s.buffer_.recv datagram }).Yields es (true, t) →
      AllCounted datagrams t

/-! ### What lies behind the datagram -/

/-- Two states with the same requests, and buffers that agree in their first `n` bytes. -/
structure Near (n : Nat) (s t : Dns) : Prop where
  same : SameRequests s t
  agree : t.buffer_.bytes.take n = s.buffer_.bytes.take n

section Near
variable {n : Nat} {s t : Dns}

/-- What is read inside is the same. -/
theorem Near.read_eq (h : Near n s t) {pos : Int} {k : Nat} (hle : pos + k ≤ n) :
    t.buffer_.read pos k = s.buffer_.read pos k := by
  unfold Buffer.read
  split
  · next hin =>
    have hcut : ∀ l : List UInt8, (l.drop pos.toNat).take k =
        ((l.take n).drop pos.toNat).take k := by
      intro l
      rw [List.drop_take, List.take_take]
      congr 1
      omega
    rw [hcut, h.agree, ← hcut]
  · rfl

/-- A byte that is written leaves them near. -/
theorem Near.set (h : Near n s t) (pos : Nat) (b : UInt8) :
    Near n { s with buffer_ := s.buffer_.set pos b } { t with buffer_ := t.buffer_.set pos b } := by
  constructor
  · rw [SameRequests, h.same]
  · show (t.buffer_.bytes.set pos b).take n = (s.buffer_.bytes.set pos b).take n
    rw [List.take_set, List.take_set, h.agree]

theorem Near.load (h : Near n s t) (pos : Int) (k : Nat) :
    Traced.Together (Inside n) (fun x y => y = x) (s.load pos k) (t.load pos k) := by
  intro hok
  rw [load_eq, load_eq] at *
  have hin : Inside n (.load pos k) := hok _ (List.mem_singleton_self _)
  rw [h.read_eq hin.2]
  refine ⟨rfl, ?_⟩
  cases s.buffer_.read pos k with
  | none => exact .none
  | some bytes => exact .some rfl

theorem Near.ntohs (h : Near n s t) (pos : Int) :
    Traced.Together (Inside n) (fun x y => y = x) (s.ntohs pos) (t.ntohs pos) :=
  (h.load pos 2).bind fun _ _ heq => .pure (congrArg ofBE heq)

theorem Near.headId (h : Near n s t) :
    Traced.Together (Inside n) (fun x y => y = x) s.headId t.headId :=
  (h.load 0 2).bind fun _ _ heq => .pure (congrArg (fun l => UInt16.ofNat (ofBE l.reverse)) heq)

theorem Near.skipLabels (h : Near n s t) (fuel : Nat) : ∀ p : Int,
    Traced.Together (Inside n) (fun x y => y = x) (s.skipLabels fuel p) (t.skipLabels fuel p) := by
  induction fuel with
  | zero => exact fun p => (h.load p 1).bind fun _ _ _ => .fault
  | succ fuel ih =>
      intro p
      refine (h.load p 1).bind fun c d heq => ?_
      rw [heq]
      split
      · exact .pure rfl
      · exact .tell_bind fun _ => ih (p + 1)

/-- The same cursor, and states that are near. -/
def NearAt (n : Nat) {α : Type} (x y : α × Dns) : Prop := y.1 = x.1 ∧ Near n x.2 y.2

theorem Near.skipName (h : Near n s t) (p : Int) :
    Traced.Together (Inside n) (NearAt n) (s.skipName p) (t.skipName p) := by
  refine (h.load p 1).bind fun c d heq => ?_
  rw [heq]
  split
  · exact .tell_bind fun _ => .pure ⟨rfl, h.set p.toNat (0x3f &&& c.headD 0)⟩
  · refine (h.skipLabels BUFFER_SIZE p).bind fun q r heq => ?_
    rw [heq]
    exact .tell_bind fun _ => .pure ⟨rfl, h⟩

theorem Near.skipQuestions (quests : Nat) : ∀ {s t : Dns}, Near n s t → ∀ p : Int,
    Traced.Together (Inside n) (NearAt n) (s.skipQuestions quests p)
      (t.skipQuestions quests p) := by
  induction quests with
  | zero => exact fun h p => .pure ⟨rfl, h⟩
  | succ quests ih =>
      intro s t h p
      refine (h.skipName p).bind fun x y hxy => ?_
      dsimp only
      rw [hxy.1]
      exact .tell_bind fun _ => ih hxy.2 _

/-- The same requests have the same first one with an id. -/
theorem Near.findQuery (h : Near n s t) (id : UInt16) :
    (t.findQuery id).1 = (s.findQuery id).1 ∧ Near n (s.findQuery id).2 (t.findQuery id).2 := by
  obtain ⟨hsame, hagree⟩ := h
  rw [hsame]
  -- the search does not look at the buffer
  unfold Dns.findQuery
  dsimp only
  generalize List.find? _ _ = found
  cases found with
  | none => exact ⟨rfl, rfl, hagree⟩
  | some be => exact ⟨rfl, rfl, hagree⟩

theorem Near.pushBack (h : Near n s t) (dtask : Nat) (addr : List UInt8) :
    Near n (s.pushBack dtask addr) (t.pushBack dtask addr) := by
  refine ⟨?_, h.agree⟩
  rw [SameRequests, h.same]
  rfl

theorem Near.takeAddress (h : Near n s t) (id : UInt16) (last : Bool) (data : Int) :
    Traced.Together (Inside n) (NearAt n) (s.takeAddress id last data)
      (t.takeAddress id last data) := by
  obtain ⟨hfound, hnear⟩ := h.findQuery id
  unfold Dns.takeAddress
  generalize s.findQuery id = x at hfound hnear
  generalize t.findQuery id = y at hfound hnear
  obtain ⟨found, u⟩ := x
  obtain ⟨found', v⟩ := y
  obtain rfl : found' = found := hfound
  cases found' with
  | none => exact .pure ⟨rfl, hnear⟩
  | some dtask =>
      refine (Near.load hnear data 4).bind fun c d heq => ?_
      rw [heq]
      split
      · exact .tell_bind fun _ => .pure ⟨rfl, hnear.pushBack dtask c⟩
      · exact .pure ⟨rfl, hnear.pushBack dtask c⟩

theorem Near.walkAnswers (id : UInt16) (answers : Nat) : ∀ {s t : Dns}, Near n s t → ∀ p : Int,
    Traced.Together (Inside n) (NearAt n) (s.walkAnswers id answers p)
      (t.walkAnswers id answers p) := by
  induction answers with
  | zero => exact fun h p => .pure ⟨rfl, h⟩
  | succ answers ih =>
      intro s t h p
      refine (h.skipName p).bind fun x y hxy => ?_
      dsimp only
      rw [hxy.1]
      refine (hxy.2.ntohs x.1).bind fun type type' htype => ?_
      rw [htype]
      refine .tell_bind fun _ => (hxy.2.ntohs (x.1 + 8)).bind fun dlen dlen' hdlen => ?_
      rw [hdlen]
      -- both walks end with this answer, or both go on
      have hrest : ∀ z w : Bool × Dns, NearAt n z w → Traced.Together (Inside n) (NearAt n)
          (if z.1 then pure (true, z.2) else do
            .tell [.move (x.1 + 10) (x.1 + 10 + toShort dlen)]
            Dns.walkAnswers id answers (x.1 + 10 + toShort dlen) z.2)
          (if w.1 then pure (true, w.2) else do
            .tell [.move (x.1 + 10) (x.1 + 10 + toShort dlen)]
            Dns.walkAnswers id answers (x.1 + 10 + toShort dlen) w.2) := by
        intro z w hzw
        rw [hzw.1]
        split
        · exact .pure ⟨rfl, hzw.2⟩
        · exact .tell_bind fun _ => ih hzw.2 _
      refine .tell_bind fun _ => ?_
      split
      · exact (hxy.2.takeAddress id _ _).bind hrest
      · exact hrest (false, x.2) (false, y.2) ⟨rfl, hxy.2⟩

/-- As long as `handle_read` looks at the first `n` bytes only, the others do not matter. -/
theorem response_together (h : Near n s t) :
    Traced.Together (Inside n) (NearAt n) s.response t.response := by
  refine (h.ntohs 2).bind fun flags flags' hflags => ?_
  rw [hflags]
  split
  · exact .pure ⟨rfl, h⟩
  · refine (h.ntohs 6).bind fun answers answers' hanswers => ?_
    rw [hanswers]
    refine (h.ntohs 4).bind fun quests quests' hquests => ?_
    rw [hquests]
    refine h.headId.bind fun id id' hid => ?_
    rw [hid]
    refine (Near.skipQuestions quests h _).bind fun x y hxy => ?_
    dsimp only
    rw [hxy.1]
    exact Near.walkAnswers id answers hxy.2 _

end Near

/-! ### The bytes of the datagram from the cursor on -/

/-- Of the first `n` bytes in the buffer, those from a position on. -/
def part (n : Nat) (buf : Buffer) (p : Nat) : List UInt8 := (buf.bytes.drop p).take (n - p)

section Part
variable {n p q k : Nat} {buf : Buffer}

theorem length_part (hn : n ≤ BUFFER_SIZE) (buf : Buffer) (p : Nat) :
    (part n buf p).length = n - p := by
  rw [part, List.length_take, List.length_drop, buf.length_eq]
  omega

theorem drop_part (n : Nat) (buf : Buffer) (p k : Nat) :
    (part n buf p).drop k = part n buf (p + k) := by
  rw [part, part, List.drop_take, List.drop_drop, Nat.sub_sub]

theorem part_passed (n : Nat) (buf : Buffer) (h : p < q) :
    part n (passed buf p) q = part n buf q := by
  rw [part, part, drop_passed buf h]

/-- The datagram is what the buffer begins with. -/
theorem part_recv (buf : Buffer) {datagram : List UInt8} (hle : datagram.length ≤ BUFFER_SIZE)
    (p : Nat) : part datagram.length (buf.recv datagram) p = datagram.drop p := by
  have hall : (buf.recv datagram).bytes.take datagram.length = datagram := by
    show List.take _ (datagram.take BUFFER_SIZE ++ _) = _
    rw [List.take_of_length_le hle, List.take_left]
  rw [part, ← List.drop_take, hall]

/-- Behind the datagram the buffer goes on. -/
theorem drop_eq_part (n : Nat) (buf : Buffer) (p : Nat) :
    ∃ more, buf.bytes.drop p = part n buf p ++ more :=
  ⟨_, (List.take_append_drop (n - p) _).symm⟩

/-- A name that ends in the datagram is found there. -/
theorem skip_of_part (h : skip (part n buf p) = some k) : skip (buf.bytes.drop p) = some k := by
  obtain ⟨more, hmore⟩ := drop_eq_part n buf p
  rw [hmore]
  exact skip_append h

/-- A field in the datagram. -/
theorem take_part (buf : Buffer) (hin : p + k + 2 ≤ n) :
    ((part n buf p).drop k).take 2 = (buf.bytes.drop (p + k)).take 2 := by
  rw [drop_part, part, List.take_take]
  congr 1
  omega

/-- In the datagram the next byte is there to be read. -/
theorem part_cons (buf : Buffer) (hn : n ≤ BUFFER_SIZE) (h : p < n) :
    ∃ c l, part n buf p = c :: l ∧ part n buf (p + 1) = l ∧ buf.read p 1 = some [c] := by
  cases hpart : part n buf p with
  | nil =>
      have hlen := length_part hn buf p
      rw [hpart, List.length_nil] at hlen
      omega
  | cons c l =>
      obtain ⟨more, hmore⟩ := drop_eq_part n buf p
      rw [hpart, List.cons_append] at hmore
      refine ⟨c, l, rfl, ?_, read_one hmore⟩
      rw [← drop_part, hpart]
      rfl

end Part

/-! ### Names and questions -/

section Names
variable {n : Nat} {s : Dns}

/-- The first byte that a part of the walk looks at is in the datagram. -/
theorem lt_of_load {p k : Nat} {α : Type} {f : List UInt8 → Traced Event α}
    (h : ∀ e ∈ (s.load p k >>= f).log, Inside n e) : p + k ≤ n := by
  have hload : Event.load p k ∈ (s.load p k).log := by
    rw [log_load]
    exact List.mem_singleton_self _
  have hin : Inside n (.load p k) := h _ (Traced.mem_log_bind f hload)
  exact Int.ofNat_le.mp hin.2

theorem load_inside {p k : Nat} (h : p + k ≤ n) : Inside n (.load p k) :=
  ⟨Int.natCast_nonneg p, Int.ofNat_le.mpr h⟩

/-- The scan stays inside when there is a zero in the datagram. -/
theorem skipLabels_inside_iff (s : Dns) (hn : n ≤ BUFFER_SIZE) (fuel : Nat) : ∀ p : Nat,
    BUFFER_SIZE ≤ p + fuel → ((∀ e ∈ (s.skipLabels fuel p).log, Inside n e) ↔
      cstrlen (part n s.buffer_ p) < (part n s.buffer_ p).length) := by
  have hend : ∀ p : Nat, n ≤ p →
      ¬ cstrlen (part n s.buffer_ p) < (part n s.buffer_ p).length := by
    intro p hp
    rw [length_part hn]
    omega
  induction fuel with
  | zero =>
      intro p hfuel
      refine ⟨fun h => ?_, fun h => absurd h (hend p (by omega))⟩
      have := lt_of_load h
      omega
  | succ fuel ih =>
      intro p hfuel
      by_cases hp : p < n
      swap
      · refine ⟨fun h => ?_, fun h => absurd h (hend p (by omega))⟩
        have := lt_of_load h
        omega
      obtain ⟨c, l, hpart, hnext, hread⟩ := part_cons s.buffer_ hn hp
      have hload : (s.load p 1).Yields [.load p 1] [c] :=
        ⟨log_load _ _ _, by rw [value_load, hread]⟩
      rw [skipLabels, hload.log_bind, hpart, List.forall_mem_append, List.forall_mem_singleton,
        and_iff_right (load_inside hp)]
      by_cases hc : c = 0
      · subst hc
        exact ⟨fun _ => Nat.succ_pos _, fun _ _ he => absurd he List.not_mem_nil⟩
      · have hrest := ih (p + 1) (by omega)
        rw [hnext] at hrest
        have hmove : Inside n (.move p (p + 1)) := Int.le_add_one (Int.le_refl _)
        rw [if_neg (by simpa using hc), Traced.log_tell_bind, List.forall_mem_append,
          List.forall_mem_singleton, and_iff_right hmove, cstrlen_cons hc, List.length_cons,
          Nat.succ_lt_succ_iff]
        exact hrest

/-- The walk over a name stays inside when the code finds its end in the datagram. -/
theorem skipName_inside_iff (hn : n ≤ BUFFER_SIZE) (p : Nat) :
    (∀ e ∈ (s.skipName p).log, Inside n e) ↔ ∃ k, skip (part n s.buffer_ p) = some k := by
  by_cases hp : p < n
  swap
  · constructor
    · intro h
      have := lt_of_load h
      omega
    · rintro ⟨k, hskip⟩
      have hnil : part n s.buffer_ p = [] :=
        List.eq_nil_of_length_eq_zero ((length_part hn _ _).trans (by omega))
      rw [hnil] at hskip
      exact absurd hskip.symm (Option.some_ne_none k)
  obtain ⟨c, l, hpart, -, hread⟩ := part_cons s.buffer_ hn hp
  have hload : (s.load p 1).Yields [.load p 1] [c] := ⟨log_load _ _ _, by rw [value_load, hread]⟩
  rw [skipName, hload.log_bind, hpart, List.forall_mem_append, List.forall_mem_singleton,
    and_iff_right (load_inside hp), List.headD_cons]
  by_cases hc : c &&& 0xc0 = 0
  · have hlabels := skipLabels_inside_iff s hn BUFFER_SIZE p (Nat.le_add_left _ _)
    rw [hpart] at hlabels
    rw [if_neg (not_not_intro hc), Traced.forall_log_bind, hlabels, skip_labels hc]
    constructor
    · exact fun h => ⟨_, if_pos h.1⟩
    · rintro ⟨k, hk⟩
      split at hk
      · next hlt =>
        refine ⟨hlt, fun es q _ => List.forall_mem_singleton.mpr ?_⟩
        exact Int.le_add_one (Int.le_refl q)
      · exact absurd hk.symm (Option.some_ne_none k)
  · rw [if_pos hc, skip_pointer hc]
    refine ⟨fun _ => ⟨2, rfl⟩, fun _ => ?_⟩
    have hmove : (p : Int) ≤ p + 2 := Int.le_add_of_nonneg_right (by decide)
    rw [Traced.log_tell_bind, List.forall_mem_append]
    refine ⟨?_, fun _ he => absurd he List.not_mem_nil⟩
    rw [List.forall_mem_cons, List.forall_mem_cons, List.forall_mem_singleton]
    exact ⟨load_inside hp, ⟨Int.natCast_nonneg p, Int.ofNat_lt.mpr hp⟩, hmove⟩

/-- A name whose end is found in the datagram. -/
theorem skipName_yields {p k : Nat} (hskip : skip (part n s.buffer_ p) = some k) :
    (s.skipName p).Yields (s.skipName p).log
      (((p + k : Nat) : Int), { s with buffer_ := passed s.buffer_ p }) := by
  refine ⟨rfl, ?_⟩
  rw [value_skipName, skip_of_part hskip]
  rfl

/-- The walk over the questions. -/
theorem skipQuestions_inside_iff (hn : n ≤ BUFFER_SIZE) (quests : Nat) : ∀ {s : Dns} (p : Nat),
    (∀ e ∈ (s.skipQuestions quests p).log, Inside n e) ↔
      ∃ l, behind quests (part n s.buffer_ p) = some l := by
  induction quests with
  | zero => exact fun p => ⟨fun _ => ⟨_, rfl⟩, fun _ _ he => absurd he List.not_mem_nil⟩
  | succ quests ih =>
      intro s p
      rw [skipQuestions, Traced.forall_log_bind, skipName_inside_iff hn]
      constructor
      · rintro ⟨⟨k, hskip⟩, hrest⟩
        have hk := skip_pos hskip
        have htail := hrest _ _ (skipName_yields hskip)
        rw [Traced.log_tell_bind, List.forall_mem_append] at htail
        obtain ⟨l, hl⟩ := (ih (p + k + 4)).mp htail.2
        rw [part_passed n _ (by omega)] at hl
        refine ⟨l, ?_⟩
        rw [behind, hskip, Option.bind_some, drop_part]
        exact hl
      · rintro ⟨l, hl⟩
        obtain ⟨k, hskip, hrest⟩ := Option.bind_eq_some_iff.mp hl
        have hk := skip_pos hskip
        refine ⟨⟨k, hskip⟩, fun es x hx => ?_⟩
        obtain ⟨-, rfl⟩ := hx.unique (skipName_yields hskip)
        rw [Traced.log_tell_bind, List.forall_mem_append, List.forall_mem_singleton]
        refine ⟨Int.le_add_of_nonneg_right (by decide), (ih (p + k + 4)).mpr ⟨l, ?_⟩⟩
        rw [part_passed n _ (by omega), ← hrest, drop_part]
        rfl

/-- Behind the questions the cursor stands where the datagram goes on. -/
theorem part_behindQuestions {quests : Nat} : ∀ {buf : Buffer} {p : Nat} {l : List UInt8},
    behind quests (part n buf p) = some l →
      ∃ buf' q, behindQuestions quests buf p = some (buf', q) ∧ part n buf' q = l := by
  induction quests with
  | zero => exact fun {buf p l} h => ⟨buf, p, rfl, Option.some.inj h⟩
  | succ quests ih =>
      intro buf p l h
      obtain ⟨k, hskip, hrest⟩ := Option.bind_eq_some_iff.mp h
      have hk := skip_pos hskip
      have hsame : part n (passed buf p) (p + k + 4) = part n buf (p + k + 4) :=
        part_passed n buf (by omega)
      rw [drop_part, ← Nat.add_assoc, ← hsame] at hrest
      obtain ⟨buf', q, hbehind, hpart⟩ := ih hrest
      exact ⟨buf', q, Option.bind_eq_some_iff.mpr ⟨k, skip_of_part hskip, hbehind⟩, hpart⟩

end Names

/-! ### Answers -/

section Answers
variable {n : Nat} {s : Dns} {id : UInt16} {answers : Nat}

theorem shortIn_part {p k : Nat} (buf : Buffer) (hin : p + k + 2 ≤ n) :
    shortIn (part n buf p) k = shortAt buf (p + k) := by
  rw [shortIn, take_part buf hin, shortAt]

/-- A request that nobody has sent is not found. -/
theorem findQuery_of_pendings_eq_zero (h : ¬ 0 < pendings id s) : s.findQuery id = (none, s) := by
  rcases findQuery_cases id s with ⟨hnone, -⟩ | ⟨pre, be, post, hsplit, hid, -⟩
  · exact hnone
  · refine absurd (List.countP_pos_iff.mpr ⟨be, ?_, decide_eq_true hid⟩) h
    rw [hsplit]
    exact List.mem_append_right pre List.mem_cons_self

/-- Without one of its entries, an id has one request less, and each other id as many as before. -/
theorem countP_removed {f : UInt16 → BucketEntry → Bool} {be : BucketEntry}
    {pre post : List BucketEntry} (hf : ∀ i, f i be = true ↔ i = id) (i : UInt16) :
    (pre ++ post).countP (f i) = (pre ++ be :: post).countP (f i) - if i = id then 1 else 0 := by
  rw [List.countP_append, List.countP_append, List.countP_cons]
  by_cases hi : i = id
  · rw [if_pos hi, if_pos ((hf i).mpr hi)]
    omega
  · rw [if_neg hi, if_neg fun h => hi ((hf i).mp h)]
    rfl

/-- A request that is pending is found, and is not pending any more. The others still are. -/
theorem findQuery_of_pendings_pos (h : 0 < pendings id s) :
    ∃ dtask u, s.findQuery id = (some dtask, u) ∧ u.buffer_ = s.buffer_ ∧
      ∀ addr i, pendings i (u.pushBack dtask addr) = pendings i s - if i = id then 1 else 0 := by
  rcases findQuery_cases id s with ⟨-, hnone⟩ | ⟨pre, be, post, hsplit, hid, hfound⟩
  · obtain ⟨be, hbe, hid⟩ := List.countP_pos_iff.mp h
    exact absurd (of_decide_eq_true hid) (hnone be hbe)
  · refine ⟨be.task, _, hfound, rfl, fun addr i => ?_⟩
    simp only [pendings, query_id_pushBack]
    show (Function.update s.bucket_ _ (pre ++ post) _).countP _ = _
    by_cases hbucket : i.toNat % DNS_BUCKET_SIZE = id.toNat % DNS_BUCKET_SIZE
    · rw [hbucket, Function.update_self, hsplit]
      refine countP_removed (f := fun i be => decide ((s.tasks be.task).query_id = i))
        (fun i => ?_) i
      rw [hid]
      exact decide_eq_true_iff.trans eq_comm
    · have hi : i ≠ id := fun heq => hbucket (by rw [heq])
      rw [Function.update_of_ne hbucket, if_neg hi]
      rfl

/-- What the walk does behind an answer that it passes over. -/
theorem move_inside_iff (hwalk : ∀ {s : Dns} (p : Nat),
      (∀ e ∈ (s.walkAnswers id answers p).log, Inside n e) ↔
        Complete answers (pendings id s) (part n s.buffer_ p)) (s : Dns) (data : Nat) (dlen : Int) :
    (∀ e ∈ .move data (data + dlen) :: (s.walkAnswers id answers (data + dlen)).log, Inside n e) ↔
      0 ≤ dlen ∧
        Complete answers (pendings id s) (part n s.buffer_ (data + dlen.toNat)) := by
  have hmove : Inside n (.move data (data + dlen)) ↔ 0 ≤ dlen :=
    ⟨fun h => by
      have hle : (data : Int) ≤ data + dlen := h
      omega, fun h => Int.le_add_of_nonneg_right h⟩
  rw [List.forall_mem_cons, hmove]
  refine and_congr_right fun hpos => ?_
  have hcast : (data : Int) + dlen = ((data + dlen.toNat : Nat) : Int) := by omega
  rw [hcast]
  exact hwalk _

/-- The walk behind the fields of an answer. -/
theorem withFields_inside_iff (hn : n ≤ BUFFER_SIZE) (hwalk : ∀ {s : Dns} (p : Nat),
      (∀ e ∈ (s.walkAnswers id answers p).log, Inside n e) ↔
        Complete answers (pendings id s) (part n s.buffer_ p))
    (s : Dns) (type dlen : Int) (data : Nat) :
    (∀ e ∈ (withFields id answers type dlen data s).log, Inside n e) ↔
      if type = DEFAULT_QUERY_TYPE ∧ 0 < pendings id s then
        data + 4 ≤ n ∧ (answers = 0 ∨ 0 ≤ dlen ∧
          Complete answers (pendings id s - 1) (part n s.buffer_ (data + dlen.toNat)))
      else 0 ≤ dlen ∧
        Complete answers (pendings id s) (part n s.buffer_ (data + dlen.toNat)) := by
  split
  swap
  · next hnot =>
    rw [withFields_of_none fun htype =>
      findQuery_of_pendings_eq_zero fun hpos => hnot ⟨htype, hpos⟩, Traced.log_tell_bind]
    exact move_inside_iff hwalk s data dlen
  next htaken =>
  obtain ⟨rfl, hpos⟩ := htaken
  obtain ⟨dtask, u, hfound, hbuffer, hless⟩ := findQuery_of_pendings_pos hpos
  -- the address is loaded before the code looks whether another answer follows
  have hload : Inside n (.load data 4) ↔ data + 4 ≤ n :=
    ⟨fun h => Int.ofNat_le.mp h.2, load_inside⟩
  cases hread : u.buffer_.read data 4 with
  | none =>
      have hout : BUFFER_SIZE < data + 4 := by
        by_contra hle
        rw [read_of_le (Nat.le_of_not_lt hle)] at hread
        exact Option.some_ne_none _ hread
      -- an address behind the buffer is behind the datagram as well
      rw [withFields_of_outside hfound hread, List.forall_mem_singleton, hload]
      exact ⟨fun h => by omega, And.left⟩
  | some addr =>
      cases answers with
      | zero =>
          have hwork : Inside n (.addWork dtask) := trivial
          rw [withFields_last hfound hread, Traced.log_tell_bind, Traced.log_pure,
            List.append_nil, List.forall_mem_cons, List.forall_mem_singleton, hload]
          exact ⟨fun h => ⟨h.1, .inl rfl⟩, fun h => ⟨h.1, hwork⟩⟩
      | succ k =>
          have hrest := move_inside_iff hwalk (u.pushBack dtask addr) data dlen
          rw [hless addr id, if_pos rfl,
            show (u.pushBack dtask addr).buffer_ = s.buffer_ from hbuffer] at hrest
          rw [withFields_succ hfound hread, Traced.log_tell_bind, List.cons_append,
            List.forall_mem_cons, hload, List.singleton_append, hrest]
          refine and_congr_right fun _ => ⟨.inr, fun h => h.resolve_left (Nat.succ_ne_zero k)⟩

theorem load_mem_ntohs (pos : Int) (s : Dns) : Event.load pos 2 ∈ (s.ntohs pos).log := by
  rw [log_ntohs]
  exact List.mem_singleton_self _

/-- A number that is inside is read. -/
theorem ntohs_yields (hn : n ≤ BUFFER_SIZE) {q : Int} (h : Inside n (.load q 2)) :
    ∃ v, (s.ntohs q).Yields [.load q 2] v := by
  have hle : q + 2 ≤ (n : Int) := h.2
  have hread : s.buffer_.read q 2 = some ((s.buffer_.bytes.drop q.toNat).take 2) :=
    if_pos ⟨h.1, Int.le_trans hle (Int.ofNat_le.mpr hn)⟩
  refine ⟨ofBE ((s.buffer_.bytes.drop q.toNat).take 2), log_ntohs _ _, ?_⟩
  rw [value_ntohs, hread, Option.map_some]

/-- The fields of an answer are in the datagram when reading them stays inside. -/
theorem le_of_fields (hn : n ≤ BUFFER_SIZE) {q : Int} {es : List Event} {α : Type}
    {f : Nat → Nat → Traced Event α}
    (h : ∀ e ∈ (s.ntohs q >>= fun type => .tell es >>= fun _ => s.ntohs (q + 8) >>= f type).log,
      Inside n e) : q + 10 ≤ n := by
  have htype : Inside n (.load q 2) := h _ (Traced.mem_log_bind _ (load_mem_ntohs q s))
  obtain ⟨v, hvalue⟩ := @ntohs_yields n s hn q htype
  have hrest := (Traced.forall_log_bind.mp h).2 _ _ hvalue
  rw [Traced.log_tell_bind, List.forall_mem_append] at hrest
  have hdlen : Inside n (.load (q + 8) 2) :=
    hrest.2 _ (Traced.mem_log_bind _ (load_mem_ntohs _ s))
  have hle : q + 8 + 2 ≤ n := hdlen.2
  omega

/-- When the walk over an answer stays inside, its fields are in the datagram. -/
theorem fields_of_inside (hn : n ≤ BUFFER_SIZE) {p : Nat}
    (h : ∀ e ∈ (s.walkAnswers id (answers + 1) p).log, Inside n e) :
    ∃ k, skip (part n s.buffer_ p) = some k ∧ p + k + 10 ≤ n := by
  rw [walkAnswers_succ, Traced.forall_log_bind, skipName_inside_iff hn] at h
  obtain ⟨⟨k, hskip⟩, hrest⟩ := h
  obtain ⟨x, hx, hat⟩ : ∃ x, (s.skipName p).Yields (s.skipName p).log x ∧ x.1 = (p + k : Nat) :=
    ⟨_, skipName_yields hskip, rfl⟩
  have hle := le_of_fields hn (hrest _ x hx)
  rw [hat] at hle
  exact ⟨k, hskip, Int.ofNat_le.mp hle⟩

/-- The events up to the fields of an answer are inside when its fields are. -/
theorem fieldEvents_inside (hn : n ≤ BUFFER_SIZE) {p k : Nat}
    (hskip : skip (part n s.buffer_ p) = some k) (hle : p + k + 10 ≤ n) :
    ∀ e ∈ fieldEvents s p (p + k), Inside n e := by
  have htype : Inside n (.load ((p + k : Nat) : Int) 2) := load_inside (by omega)
  have hdlen : Inside n (.load ((p + k + 8 : Nat) : Int) 2) := load_inside (by omega)
  have hmove : ∀ a b : Int, 0 ≤ b - a → Inside n (.move a b) := fun a b h => by
    show a ≤ b
    omega
  rw [fieldEvents, List.forall_mem_append]
  refine ⟨(skipName_inside_iff hn p).mpr ⟨k, hskip⟩, ?_⟩
  simp only [List.forall_mem_cons]
  exact ⟨htype, hmove _ _ (by omega), hmove _ _ (by omega), hmove _ _ (by omega), hdlen,
    hmove _ _ (by omega), trivial, fun _ he => absurd he List.not_mem_nil⟩

/-- The walk over the answers. -/
theorem walkAnswers_inside_iff (hn : n ≤ BUFFER_SIZE) (id : UInt16) (answers : Nat) :
    ∀ {s : Dns} (p : Nat), (∀ e ∈ (s.walkAnswers id answers p).log, Inside n e) ↔
      Complete answers (pendings id s) (part n s.buffer_ p) := by
  induction answers with
  | zero => exact fun p => ⟨fun _ => trivial, fun _ _ he => absurd he List.not_mem_nil⟩
  | succ answers ih =>
      intro s p
      have hgo : ∀ k, skip (part n s.buffer_ p) = some k → p + k + 10 ≤ n →
          ((∀ e ∈ (s.walkAnswers id (answers + 1) p).log, Inside n e) ↔
            if shortIn (part n s.buffer_ p) k = DEFAULT_QUERY_TYPE ∧ 0 < pendings id s then
              k + 14 ≤ (part n s.buffer_ p).length ∧
                (answers = 0 ∨ 0 ≤ shortIn (part n s.buffer_ p) (k + 8) ∧
                  Complete answers (pendings id s - 1) ((part n s.buffer_ p).drop
                    (k + 10 + (shortIn (part n s.buffer_ p) (k + 8)).toNat)))
            else 0 ≤ shortIn (part n s.buffer_ p) (k + 8) ∧
              Complete answers (pendings id s) ((part n s.buffer_ p).drop
                (k + 10 + (shortIn (part n s.buffer_ p) (k + 8)).toNat))) := by
        intro k hskip hle
        have hk := skip_pos hskip
        have hroom : k + 14 ≤ n - p ↔ p + k + 10 + 4 ≤ n := by omega
        have hsame : ∀ m, part n (passed s.buffer_ p) (p + k + 10 + m) =
            part n s.buffer_ (p + (k + 10 + m)) := by
          intro m
          rw [part_passed n _ (by omega)]
          congr 1
          omega
        rw [walkAnswers_of_skip (skip_of_part hskip) (by omega), Traced.log_tell_bind,
          List.forall_mem_append, and_iff_right (fieldEvents_inside hn hskip hle),
          withFields_inside_iff hn ih, shortIn_part _ (by omega), shortIn_part _ (by omega),
          length_part hn, hroom, drop_part, ← Nat.add_assoc p k 8, hsame]
        exact Iff.rfl
      constructor
      · intro h
        obtain ⟨k, hskip, hle⟩ := fields_of_inside hn h
        refine ⟨k, hskip, ?_, (hgo k hskip hle).mp h⟩
        rw [length_part hn]
        omega
      · rintro ⟨k, hskip, hle, h⟩
        rw [length_part hn] at hle
        exact (hgo k hskip (by omega)).mpr h

end Answers

/-! ### A datagram -/

section Datagram
variable {s : Dns} {datagram : List UInt8}

/-- A field of the header that is in the datagram. -/
theorem headAt_recv (buf : Buffer) (hle : datagram.length ≤ BUFFER_SIZE) {p : Nat}
    (hin : p + 2 ≤ datagram.length) : headAt (buf.recv datagram) p = fieldOf datagram p := by
  have hpart := take_part (n := datagram.length) (p := 0) (k := p) (buf.recv datagram) (by omega)
  rw [part_recv buf hle, List.drop_zero, Nat.zero_add] at hpart
  rw [headAt, fieldOf, hpart]

theorem idOf_recv (buf : Buffer) (hle : datagram.length ≤ BUFFER_SIZE)
    (hin : 2 ≤ datagram.length) :
    idOf (buf.recv datagram) = UInt16.ofNat (ofBE (datagram.take 2).reverse) := by
  have hpart := take_part (n := datagram.length) (p := 0) (k := 0) (buf.recv datagram) (by omega)
  rw [part_recv buf hle, List.drop_zero, List.drop_zero, Nat.zero_add, List.drop_zero] at hpart
  rw [idOf, hpart]

/-- The walk over a datagram stays inside exactly when it is counted well. -/
theorem response_inside_iff (hle : datagram.length ≤ BUFFER_SIZE) (s : Dns) :
    (∀ e ∈ (response { s with buffer_ := s.buffer_.recv datagram }).log,
      Inside datagram.length e) ↔ WellCounted datagram s := by
  let t : Dns := { s with buffer_ := s.buffer_.recv datagram }
  show (∀ e ∈ t.response.log, Inside datagram.length e) ↔ _
  by_cases hflags : 4 ≤ datagram.length
  swap
  · refine ⟨fun h => ?_, fun h => absurd h.1 hflags⟩
    have hin : Inside datagram.length (.load 2 2) :=
      h _ (Traced.mem_log_bind _ (load_mem_ntohs 2 t))
    exact absurd (Int.ofNat_le.mp hin.2) hflags
  rw [WellCounted, and_iff_right hflags, ← headAt_recv s.buffer_ hle hflags]
  by_cases hquery : headAt t.buffer_ 2 &&& QUERY_RESPONSE_FLAGS = 0
  · -- of a query nothing but the flags is read
    rw [response_of_query hquery, Traced.log_tell_bind, Traced.log_pure, List.append_nil,
      List.forall_mem_singleton]
    exact ⟨fun _ h => absurd hquery h, fun _ => load_inside hflags⟩
  rw [response_eq hquery, Traced.log_tell_bind, List.forall_mem_append]
  refine Iff.trans ?_ (imp_iff_right hquery).symm
  by_cases hcounts : 8 ≤ datagram.length
  swap
  · refine ⟨fun h => ?_, fun h => absurd h.1 hcounts⟩
    have hin : Inside datagram.length (.load 6 2) := h.1 _ (by simp)
    exact absurd (Int.ofNat_le.mp hin.2) hcounts
  have hheader : ∀ e ∈ [.load 2 2, .load 6 2, .load 4 2, .load 0 2],
      Inside datagram.length e := by
    simp only [List.forall_mem_cons]
    exact ⟨load_inside (p := 2) (by omega), load_inside (p := 6) (by omega),
      load_inside (p := 4) (by omega), load_inside (p := 0) (by omega),
      fun _ he => absurd he List.not_mem_nil⟩
  rw [and_iff_right hheader, and_iff_right hcounts, headAt_recv s.buffer_ hle (by omega),
    headAt_recv s.buffer_ hle (by omega), idOf_recv s.buffer_ hle (by omega),
    Traced.forall_log_bind, show (12 : Int) = ((12 : Nat) : Int) from rfl,
    skipQuestions_inside_iff hle, part_recv s.buffer_ hle]
  -- behind the questions the walk goes on with the same requests
  have hanswers : ∀ l, behind (fieldOf datagram 4) (datagram.drop 12) = some l →
      ∃ x : Int × Dns, (t.skipQuestions (fieldOf datagram 4) (12 : Nat)).Yields
          (t.skipQuestions (fieldOf datagram 4) (12 : Nat)).log x ∧
        ∀ id answers, (∀ e ∈ (x.2.walkAnswers id answers x.1).log, Inside datagram.length e) ↔
          Complete answers (pendings id s) l := by
    intro l hl
    rw [← part_recv s.buffer_ hle] at hl
    obtain ⟨buf', q, hbehind, hpart⟩ := part_behindQuestions hl
    refine ⟨((q : Int), { t with buffer_ := buf' }), ⟨rfl, ?_⟩, fun id answers => ?_⟩
    · rw [value_skipQuestions, hbehind]
      rfl
    · rw [← hpart]
      exact walkAnswers_inside_iff hle id answers q
  constructor
  · rintro ⟨⟨l, hl⟩, hrest⟩
    obtain ⟨x, hx, hwalk⟩ := hanswers l hl
    exact ⟨l, hl, (hwalk _ _).mp (hrest _ x hx)⟩
  · rintro ⟨l, hl, hcomplete⟩
    obtain ⟨x, hx, hwalk⟩ := hanswers l hl
    refine ⟨⟨l, hl⟩, fun es y hy => ?_⟩
    obtain ⟨-, rfl⟩ := hy.unique hx
    exact (hwalk _ _).mpr hcomplete

end Datagram

/-! ### The datagrams of a call -/

/-- An event that begins another datagram. -/
def IsRecv : Event → Prop
  | .recv _ => True
  | _ => False

/-- What is done for a datagram does not begin another one. -/
theorem response_quiet (s : Dns) : ∀ e ∈ s.response.log, ¬ IsRecv e := by
  intro e he
  have hanswer := (response_keeps s).acts e he
  cases e with
  | recv datagram => exact absurd hanswer id
  | _ => exact id

section Call
variable {s t : Dns} {datagram : List UInt8} {datagrams : List (List UInt8)} {n : Nat}

/-- The events up to the next datagram are for this one. -/
theorem examines_append {es fs : List Event} (hes : ∀ e ∈ es, ¬ IsRecv e) :
    Examines n (es ++ fs) ↔ (∀ e ∈ es, Inside n e) ∧ Examines n fs := by
  induction es with
  | nil => exact ⟨fun h => ⟨fun _ he => absurd he List.not_mem_nil, h⟩, And.right⟩
  | cons e es ih =>
      rw [List.forall_mem_cons] at hes
      rw [List.forall_mem_cons, and_assoc, ← ih hes.2, List.cons_append]
      cases e with
      | recv datagram => exact absurd trivial hes.1
      | _ => exact Iff.rfl

/-- A call begins with a datagram of its own. -/
theorem examines_handleRead (n : Nat) (datagrams : List (List UInt8)) (s : Dns) :
    Examines n (s.handleRead datagrams).log ↔ Examines 0 (s.handleRead datagrams).log := by
  cases datagrams with
  | nil => exact Iff.rfl
  | cons datagram datagrams => exact Iff.rfl

theorem examines_cons_iff (datagram : List UInt8) (datagrams : List (List UInt8)) (s : Dns) :
    Examines 0 (s.handleRead (datagram :: datagrams)).log ↔
      (∀ e ∈ (response { s with buffer_ := s.buffer_.recv datagram }).log,
        Inside datagram.length e) ∧
      ∀ es t, (response { s with buffer_ := s.buffer_.recv datagram }).Yields es (true, t) →
        Examines 0 (t.handleRead datagrams).log := by
  -- a response loads and moves, and receives nothing, so its events are for its datagram
  have hquiet := response_quiet { s with buffer_ := s.buffer_.recv datagram }
  rw [handleRead, Traced.log_tell_bind]
  generalize response { s with buffer_ := s.buffer_.recv datagram } = x at hquiet
  show Examines datagram.length (x >>= _).log ↔ _
  cases hvalue : x.value with
  | none =>
      rw [Traced.bind_of_none _ hvalue, ← List.append_nil x.log, examines_append hquiet]
      refine and_congr (by rw [List.append_nil]) ⟨fun _ es t h => ?_, fun _ => trivial⟩
      exact absurd (hvalue.symm.trans h.2) (Option.some_ne_none _).symm
  | some a =>
      obtain ⟨retry, u⟩ := a
      rw [Traced.bind_of_some _ hvalue, examines_append hquiet]
      refine and_congr_right fun _ => ?_
      cases retry with
      | false =>
          refine ⟨fun _ es t h => ?_, fun _ => trivial⟩
          exact absurd (Option.some.inj (hvalue.symm.trans h.2)) (by simp)
      | true =>
          -- the loop goes on with the next datagram
          refine (examines_handleRead datagram.length datagrams u).trans ?_
          constructor
          · intro h es t ht
            obtain ⟨-, rfl⟩ := Prod.mk.inj (Option.some.inj (hvalue.symm.trans ht.2))
            exact h
          · exact fun h => h x.log u ⟨rfl, hvalue⟩

/-- A call whose events are for the datagrams that it takes does the same whatever was in the buffer
before. -/
theorem same_of_examines (datagrams : List (List UInt8)) : ∀ {s t : Dns},
    (∀ datagram ∈ datagrams, datagram.length ≤ BUFFER_SIZE) → SameRequests s t →
      Examines 0 (s.handleRead datagrams).log →
      (t.handleRead datagrams).log = (s.handleRead datagrams).log ∧
      Option.Rel (fun x y => y.1 = x.1 ∧ SameRequests x.2 y.2) (s.handleRead datagrams).value
        (t.handleRead datagrams).value := by
  induction datagrams with
  | nil => exact fun _ hsame _ => ⟨rfl, .some ⟨rfl, hsame⟩⟩
  | cons datagram datagrams ih =>
      intro s t hle hsame hexamines
      rw [List.forall_mem_cons] at hle
      obtain ⟨hinside, hnext⟩ := (examines_cons_iff datagram datagrams s).mp hexamines
      -- behind `recv` both buffers begin with the datagram
      have htake : ∀ buf : Buffer,
          (buf.recv datagram).bytes.take datagram.length = datagram := by
        intro buf
        have hpart := part_recv buf hle.1 0
        rwa [part, Nat.sub_zero, List.drop_zero] at hpart
      have hnear : Near datagram.length { s with buffer_ := s.buffer_.recv datagram }
          { t with buffer_ := t.buffer_.recv datagram } := by
        refine ⟨?_, (htake t.buffer_).trans (htake s.buffer_).symm⟩
        rw [SameRequests, hsame]
      obtain ⟨hlog, hrel⟩ := response_together hnear hinside
      rw [handleRead, handleRead, Traced.log_tell_bind, Traced.log_tell_bind,
        Traced.value_tell_bind, Traced.value_tell_bind]
      -- what a response does is the same in both, so the loop goes on in both or in none
      generalize response { s with buffer_ := s.buffer_.recv datagram } = x at *
      generalize response { t with buffer_ := t.buffer_.recv datagram } = y at *
      cases hx : x.value with
      | none =>
          rw [hx] at hrel
          cases hy : y.value with
          | some b => rw [hy] at hrel; cases hrel
          | none =>
              rw [Traced.bind_of_none _ hx, Traced.bind_of_none _ hy, hlog]
              exact ⟨rfl, .none⟩
      | some a =>
          rw [hx] at hrel
          cases hy : y.value with
          | none => rw [hy] at hrel; cases hrel
          | some b =>
              rw [hy] at hrel
              obtain ⟨retry, u⟩ := a
              obtain ⟨retry', v⟩ := b
              cases hrel with
              | some hab =>
                  obtain rfl : retry' = retry := hab.1
                  rw [Traced.bind_of_some _ hx, Traced.bind_of_some _ hy, hlog]
                  cases retry' with
                  | false => exact ⟨rfl, .some ⟨rfl, hab.2.same⟩⟩
                  | true =>
                      have hrest := ih hle.2 hab.2.same (hnext x.log u ⟨rfl, hx⟩)
                      refine ⟨?_, hrest.2⟩
                      exact congrArg ([Event.recv (some datagram)] ++ ·)
                        (congrArg (x.log ++ ·) hrest.1)

theorem examines_iff (datagrams : List (List UInt8)) : ∀ {s : Dns},
    (∀ datagram ∈ datagrams, datagram.length ≤ BUFFER_SIZE) →
      (Examines 0 (s.handleRead datagrams).log ↔ AllCounted datagrams s) := by
  induction datagrams with
  | nil => exact fun _ => ⟨fun _ => trivial, fun _ => trivial⟩
  | cons datagram datagrams ih =>
      intro s hle
      rw [List.forall_mem_cons] at hle
      rw [examines_cons_iff, response_inside_iff hle.1, AllCounted]
      exact and_congr_right fun _ => forall₃_congr fun es t _ => ih hle.2

end Call

/-- A call looks at nothing but the datagrams that it takes, and does not depend on anything else,
exactly when each of them is counted well. -/
theorem safe_iff {datagrams : List (List UInt8)} {s : Dns}
    (hle : ∀ datagram ∈ datagrams, datagram.length ≤ BUFFER_SIZE) :
    Safe datagrams s ↔ AllCounted datagrams s := by
  rw [← examines_iff datagrams hle]
  refine ⟨Safe.inside, fun h => ⟨h, fun buf => ?_⟩⟩
  exact same_of_examines datagrams hle rfl h

/-- A response to the query for the name `a`, with one address. -/
def answered : List UInt8 :=
  [1, 0, 0x81, 0x80, 0, 1, 0, 1, 0, 0, 0, 0] ++ [1, 97, 0, 0, 1, 0, 1] ++
    [0xc0, 12, 0, 1, 0, 1, 0, 0, 0, 60, 0, 4, 10, 0, 0, 1]

/-- The walk over it stays inside. -/
theorem safe_iff_answered : Safe [answered] idle := by
  refine (safe_iff (List.forall_mem_singleton.mpr (by decide))).mpr ⟨⟨by decide, fun _ => ?_⟩, ?_⟩
  · exact ⟨by decide, _, rfl, 2, rfl, by decide, by decide, trivial⟩
  · exact fun _ _ _ => trivial

/-- The header of a response with one answer, and nothing behind it. -/
def truncated : List UInt8 := [1, 0, 0x81, 0x80, 0, 0, 0, 1, 0, 0, 0, 0]

/-- The walk looks for the answer behind the datagram. -/
theorem answer_outside : ¬ Safe [truncated] idle := by
  intro h
  have hinside := ((examines_cons_iff truncated [] idle).mp h.inside).1
  have hcounted := (response_inside_iff (by decide) idle).mp hinside
  obtain ⟨-, l, hl, hcomplete⟩ := hcounted.2 (by decide)
  -- behind the header there are no bytes left for a name
  have hnil : behind 0 [] = some l := hl
  obtain rfl := Option.some.inj hnil
  obtain ⟨n, hskip, -⟩ := hcomplete
  exact absurd hskip.symm (Option.some_ne_none n)

end Ndsl.Proofs.Dns
