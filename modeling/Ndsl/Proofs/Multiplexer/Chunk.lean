import Ndsl.Proofs.Multiplexer.Run

/-!
# `Ndsl.Proofs.Multiplexer.Chunk`: the chunks that a call of `dispatch` can take

`Fits` is a condition on what a call is given: the header and the payload bytes that
`incompleteBuf` holds, the bytes of the chunk, and the initial `len`. It reads the chunk from its
front, header by header and payload by payload, and takes over none of the loop's variables.
Two questions about `dispatch` differ only in what a payload block and the bytes behind the
header of a direct message may look like, so these are parameters.

`Finds` is the same demand as one iteration makes it, and `fits_iff` connects the two: the
chunk fits exactly when each iteration of the call finds what it needs.
-/

set_option autoImplicit false

namespace Ndsl.Proofs.Multiplexer

open Ndsl.Lib
open Ndsl.Net (MAXLINE toInt)
open Ndsl.Net.Multiplexer

/-! ### The iterations of a call -/

/-- The loop of a call as it begins. -/
def start (icbuf : IncompleteBuf) (c : Call) : Loop :=
  { icbuf := icbuf, len := c.len0, offset := 0 }

/-- The state `s` is one that the loop of the call comes to, with bytes of the chunk left. -/
def Begins (env : Env) (icbuf : IncompleteBuf) (c : Call) (s : Loop) : Prop :=
  (∃ n, Traced.Visits (hasMore c.recv) (body env c.recv) n (start icbuf c) s) ∧
    hasMore c.recv s = true

theorem hasMore_iff {recv : List UInt8} {s : Loop} :
    hasMore recv s = true ↔ s.offset < recv.length := by
  simp [hasMore]

/-- Every iteration of a call finds the invariant. -/
theorem Begins.wf {env : Env} {icbuf : IncompleteBuf} {c : Call} {s : Loop}
    (h : Begins env icbuf c s) (hwf : Wf icbuf) : Wf s.icbuf := by
  obtain ⟨⟨n, hvisits⟩, -⟩ := h
  exact hvisits.invariant (P := fun s => Wf s.icbuf)
    (fun _ _ _ hs _ hbody => (body_turn hs hbody).wf hs) hwf

/-- The iteration after one that a call begins. -/
theorem Begins.next {env : Env} {icbuf : IncompleteBuf} {c : Call} {s s' : Loop}
    {es : List Act} (h : Begins env icbuf c s) (hbody : (body env c.recv s).Yields es s')
    (hmore : hasMore c.recv s' = true) : Begins env icbuf c s' := by
  obtain ⟨⟨n, hvisits⟩, hlt⟩ := h
  exact ⟨⟨n + 1, hvisits.snoc hlt hbody⟩, hmore⟩

/-- A payload that is not complete has something to come. -/
theorem Wf.offset_lt_blockEnd {recv : List UInt8} {s : Loop} {size : Nat} (hwf : Wf s.icbuf)
    (hid : toInt (ofBE ((filled recv s).take 4)) = 0)
    (hsize : toInt (ofBE ((filled recv s).drop 4)) = size) : s.offset < blockEnd s size := by
  by_cases hlen : s.icbuf.head.length < msgSize
  · unfold blockEnd headEnd
    omega
  · generalize hic : s.icbuf = icbuf at *
    cases hwf with
    | short head hlt => exact absurd hlt hlen
    | direct head hfull hid' =>
        rw [filled_of_eq (by rw [hic]; exact hfull), hic] at hid
        exact absurd hid hid'
    | pending head block hfull hid' hsize' hzero =>
        rw [filled_of_eq (by rw [hic]; exact hfull), hic] at hsize
        have hbs : block.length = size := by exact_mod_cast hsize'.symm.trans hsize
        have hlt : cstrlen block < block.length := Nat.lt_of_le_of_ne (cstrlen_le_length block)
          fun h => (cstrlen_eq_length_iff block).mp h hzero
        have hheld : (held s.icbuf).length = cstrlen block := by
          rw [hic, ← (Wf.pending head block hfull hid' hsize' hzero).bufSize_eq]
        unfold blockEnd headEnd
        omega

section Fits
variable (whole behind : List UInt8 → Prop) (env : Env)

/-! ### What the bytes are to be -/

/-- `Arrives head kept len bytes`: the bytes go on, header by header and payload by payload,
where `head` is the part of a header that came before them and `kept` the part of its payload.
A payload block without a zero is to be one that `whole` allows, and what stands behind the
header of a direct message one that `behind` allows. -/
inductive Arrives : List UInt8 → List UInt8 → Int → List UInt8 → Prop
  /-- No byte is left. -/
  | nothing (head kept : List UInt8) (len : Int) : Arrives head kept len []
  /-- The rest `a` of the header of a direct message with a client. -/
  | direct (head kept a rest : List UInt8) (len : Int) (client : DTPClient)
      (hhead : (head ++ a).length = msgSize) (hid : toInt (ofBE ((head ++ a).take 4)) ≠ 0)
      (hclient : lookup env (toInt (ofBE ((head ++ a).take 4))) = some client)
      (hlen : len ≠ 0) (hbehind : behind rest) : Arrives head kept len (a ++ rest)
  /-- The rest `a` of the header of a control message and the rest `b` of a payload block with
  a zero in it. The message keeps its header, and of the block what stands before the zero. -/
  | again (head kept a b rest : List UInt8) (len : Int)
      (hhead : (head ++ a).length = msgSize) (hid : toInt (ofBE ((head ++ a).take 4)) = 0)
      (hsize : toInt (ofBE ((head ++ a).drop 4)) = (kept ++ b).length) (hzero : 0 ∈ kept ++ b)
      (hrest : Arrives (head ++ a) (cstring (kept ++ b)) (kept ++ b).length rest) :
      Arrives head kept len (a ++ (b ++ rest))
  /-- The rest `a` of the header of a control message and the rest `b` of its payload. -/
  | whole (head kept a b rest : List UInt8) (len : Int)
      (hhead : (head ++ a).length = msgSize) (hid : toInt (ofBE ((head ++ a).take 4)) = 0)
      (hsize : toInt (ofBE ((head ++ a).drop 4)) = (kept ++ b).length)
      (hzero : 0 ∉ kept ++ b) (hwhole : whole (kept ++ b))
      (hrest : Arrives [] [] (kept ++ b).length rest) : Arrives head kept len (a ++ (b ++ rest))

/-- The chunk is shorter than what the header lacks, or it goes on from what is held. -/
def Fits (icbuf : IncompleteBuf) (c : Call) : Prop :=
  (c.recv.length < msgSize - icbuf.head.length ∧ c.len0 ≠ 0) ∨
    Arrives whole behind env icbuf.head (held icbuf) c.len0 c.recv

/-- What an iteration needs to find. -/
inductive Finds (recv : List UInt8) (s : Loop) : Prop
  /-- The chunk is shorter than what the header lacks, and all of it is header. -/
  | short (hshort : recv.length < msgSize - s.icbuf.head.length) (hoff : s.offset = 0)
      (hlen : s.len ≠ 0)
  /-- The rest of the header of a direct message with a client. -/
  | direct (client : DTPClient) (hfill : msgSize - s.icbuf.head.length ≤ recv.length)
      (hend : headEnd s ≤ recv.length) (hid : toInt (ofBE ((filled recv s).take 4)) ≠ 0)
      (hclient : lookup env (toInt (ofBE ((filled recv s).take 4))) = some client)
      (hlen : s.len ≠ 0) (hbehind : behind (recv.drop (headEnd s)))
  /-- The rest of the header and of the payload of a control message. -/
  | control (size : Nat) (hfill : msgSize - s.icbuf.head.length ≤ recv.length)
      (hid : toInt (ofBE ((filled recv s).take 4)) = 0)
      (hsize : toInt (ofBE ((filled recv s).drop 4)) = size)
      (hend : blockEnd s size ≤ recv.length)
      (hblock : 0 ∈ filledBlock recv s size ∨ whole (filledBlock recv s size))

variable {whole behind : List UInt8 → Prop} {env : Env}

/-! ### The pieces that an iteration takes -/

section Pieces
variable {recv a b rest : List UInt8} {s : Loop} {size : Nat}

/-- The rest of a chunk, cut behind the header. -/
theorem drop_eq_header (hend : headEnd s ≤ recv.length) :
    recv.drop s.offset
      = window recv s.offset (msgSize - s.icbuf.head.length) ++ recv.drop (headEnd s) := by
  rw [window_of_le hend, headEnd, ← List.drop_drop, List.take_append_drop]

/-- The rest of a chunk behind the header, cut behind the payload. -/
theorem drop_eq_payload (hend : blockEnd s size ≤ recv.length) :
    recv.drop (headEnd s)
      = window recv (headEnd s) (size - (held s.icbuf).length) ++ recv.drop (blockEnd s size) := by
  rw [window_of_le hend, blockEnd, ← List.drop_drop, List.take_append_drop]

/-- The rest of a header at the front of the bytes is what the iteration takes for it. -/
theorem header_of_drop (hhead : (s.icbuf.head ++ a).length = msgSize)
    (hle : s.offset ≤ recv.length) (h : recv.drop s.offset = a ++ rest) :
    filled recv s = s.icbuf.head ++ a ∧ recv.drop (headEnd s) = rest ∧
      headEnd s ≤ recv.length := by
  have ha : msgSize - s.icbuf.head.length = a.length := by
    rw [← hhead, List.length_append, Nat.add_sub_cancel_left]
  have hlen : s.offset + a.length ≤ recv.length := by
    have := congrArg List.length h
    rw [List.length_drop, List.length_append] at this
    omega
  obtain ⟨hwin, hrest⟩ := window_of_append
    ((List.append_nil _).trans h) hlen
  rw [List.append_nil] at hrest
  rw [filled, headEnd, ha, hwin]
  exact ⟨rfl, hrest, hlen⟩

/-- The rest of a payload at the front of the bytes is what the iteration takes for it. -/
theorem payload_of_drop (hsize : (held s.icbuf ++ b).length = size)
    (hle : headEnd s ≤ recv.length) (h : recv.drop (headEnd s) = b ++ rest) :
    filledBlock recv s size = held s.icbuf ++ b ∧ recv.drop (blockEnd s size) = rest ∧
      blockEnd s size ≤ recv.length := by
  have hb : size - (held s.icbuf).length = b.length := by
    rw [← hsize, List.length_append, Nat.add_sub_cancel_left]
  have hlen : headEnd s + b.length ≤ recv.length := by
    have := congrArg List.length h
    rw [List.length_drop, List.length_append] at this
    omega
  obtain ⟨hwin, hrest⟩ := window_of_append
    ((List.append_nil _).trans h) hlen
  rw [List.append_nil] at hrest
  rw [filledBlock, blockEnd, hb, hwin]
  exact ⟨rfl, hrest, hlen⟩

end Pieces

/-! ### One iteration -/

/-- An iteration for a control message that finds what it needs takes the rest of the payload. -/
theorem turn_of_control {recv : List UInt8} {s : Loop} {size : Nat}
    (hwhole : ∀ b, whole b → env.slack b.length = true) (hwf : Wf s.icbuf)
    (hmax : recv.length ≤ MAXLINE) (hfill : msgSize - s.icbuf.head.length ≤ recv.length)
    (hid : toInt (ofBE ((filled recv s).take 4)) = 0)
    (hsize : toInt (ofBE ((filled recv s).drop 4)) = size) (hend : blockEnd s size ≤ recv.length)
    (hblock : 0 ∈ filledBlock recv s size ∨ whole (filledBlock recv s size)) :
    ∃ ds s', Turn env recv s ds s' ∧ s'.offset = blockEnd s size ∧ s'.len = size ∧
      (0 ∈ filledBlock recv s size ∧ s'.icbuf.head = filled recv s ∧
          held s'.icbuf = cstring (filledBlock recv s size) ∨
        0 ∉ filledBlock recv s size ∧ s'.icbuf = {}) := by
  by_cases hzero : 0 ∈ filledBlock recv s size
  · exact ⟨_, _, .pending size hfill hid hsize (Nat.le_trans hend hmax) hzero, rfl, rfl,
      .inl ⟨hzero, rfl, rfl⟩⟩
  · have hslack := hwhole _ (hblock.resolve_left hzero)
    rw [length_filledBlock hwf hsize] at hslack
    exact ⟨_, _, .complete size hfill hid hsize (Nat.le_trans hend hmax) hzero hslack, rfl, rfl,
      .inr ⟨hzero, rfl⟩⟩

/-- An iteration whose bytes go on as they should finds what it needs. -/
theorem Arrives.finds {recv : List UInt8} {s : Loop}
    (h : Arrives whole behind env s.icbuf.head (held s.icbuf) s.len (recv.drop s.offset))
    (hlt : s.offset < recv.length) : Finds whole behind env recv s := by
  have hle := Nat.le_of_lt hlt
  generalize hhd : s.icbuf.head = head at h
  generalize hheld : held s.icbuf = kept at h
  generalize hlen : s.len = len at h
  generalize hbytes : recv.drop s.offset = bytes at h
  cases h with
  | nothing =>
      rw [List.drop_eq_nil_iff] at hbytes
      omega
  | direct _ _ a rest _ client hhead hid hclient hne hbehind =>
      subst hhd hlen
      obtain ⟨hfilled, hrest, hend⟩ := header_of_drop hhead hle hbytes
      rw [← hfilled] at hid hclient
      rw [← hrest] at hbehind
      refine .direct client ?_ hend hid hclient hne hbehind
      unfold headEnd at hend
      omega
  | again _ _ a b rest _ hhead hid hsize hzero =>
      subst hhd hheld
      obtain ⟨hfilled, hrest, hend⟩ := header_of_drop hhead hle hbytes
      obtain ⟨hblock, -, hend'⟩ := payload_of_drop rfl hend hrest
      rw [← hfilled] at hid hsize
      refine .control _ ?_ hid hsize hend' (.inl (by rwa [hblock]))
      unfold headEnd at hend
      omega
  | whole _ _ a b rest _ hhead hid hsize hzero hwhole =>
      subst hhd hheld
      obtain ⟨hfilled, hrest, hend⟩ := header_of_drop hhead hle hbytes
      obtain ⟨hblock, -, hend'⟩ := payload_of_drop rfl hend hrest
      rw [← hfilled] at hid hsize
      refine .control _ ?_ hid hsize hend' (.inr (by rwa [hblock]))
      unfold headEnd at hend
      omega

/-- Behind an iteration whose bytes go on as they should, they still do. -/
theorem Arrives.next {recv : List UInt8} {s s' : Loop} {ds : List Act}
    (h : Arrives whole behind env s.icbuf.head (held s.icbuf) s.len (recv.drop s.offset))
    (hlt : s.offset < recv.length) (hturn : Turn env recv s ds s') :
    Arrives whole behind env s'.icbuf.head (held s'.icbuf) s'.len (recv.drop s'.offset) := by
  have hle := Nat.le_of_lt hlt
  -- bytes that go on complete the header
  have hfill : ∀ {a rest : List UInt8}, (s.icbuf.head ++ a).length = msgSize →
      recv.drop s.offset = a ++ rest → msgSize - s.icbuf.head.length ≤ recv.length := by
    intro a rest hhead h
    have hend := (header_of_drop hhead hle h).2.2
    unfold headEnd at hend
    omega
  generalize hhd : s.icbuf.head = head at h
  generalize hheld : held s.icbuf = kept at h
  generalize hlen : s.len = len at h
  generalize hbytes : recv.drop s.offset = bytes at h
  cases h with
  | nothing =>
      rw [List.drop_eq_nil_iff] at hbytes
      omega
  | direct _ _ a rest _ client hhead hid hclient hne hbehind =>
      subst hhd hlen
      obtain ⟨hfilled, hrest, hend⟩ := header_of_drop hhead hle hbytes
      rw [← hfilled] at hid hclient
      cases hturn with
      | short hshort => exact absurd (hfill hhead hbytes) (Nat.not_le_of_lt hshort)
      | pending _ _ hid' => exact absurd hid' hid
      | complete _ _ hid' => exact absurd hid' hid
      | direct =>
          -- the header is complete, so nothing of what is behind it is taken
          have hfull : (filled recv s ++ []).length = msgSize := by
            rw [List.append_nil, hfilled, hhead]
          rw [← List.append_nil (filled recv s)] at hid hclient
          show Arrives whole behind env (filled recv s) [] s.len (recv.drop (headEnd s))
          rw [hrest]
          exact .direct _ _ [] rest _ client hfull hid hclient hne hbehind
  | again _ _ a b rest _ hhead hid hsize hzero hrest' =>
      subst hhd hheld
      obtain ⟨hfilled, hrest, hend⟩ := header_of_drop hhead hle hbytes
      rw [← hfilled] at hid hsize hrest'
      cases hturn with
      | short hshort => exact absurd (hfill hhead hbytes) (Nat.not_le_of_lt hshort)
      | direct _ _ _ hid' => exact absurd hid hid'
      | pending size _ _ hsize' =>
          have hsize₂ : (held s.icbuf ++ b).length = size := by
            exact_mod_cast hsize.symm.trans hsize'
          obtain ⟨hblock, hrest₂, -⟩ := payload_of_drop hsize₂ hend hrest
          rw [hrest₂]
          show Arrives whole behind env _ (cstring (filledBlock recv s size)) size _
          rwa [hblock, ← hsize₂]
      | complete size _ _ hsize' _ hzero' =>
          have hsize₂ : (held s.icbuf ++ b).length = size := by
            exact_mod_cast hsize.symm.trans hsize'
          obtain ⟨hblock, hrest₂, -⟩ := payload_of_drop hsize₂ hend hrest
          exact absurd (by rwa [hblock]) hzero'
  | whole _ _ a b rest _ hhead hid hsize hzero hwhole hrest' =>
      subst hhd hheld
      obtain ⟨hfilled, hrest, hend⟩ := header_of_drop hhead hle hbytes
      rw [← hfilled] at hid hsize
      cases hturn with
      | short hshort => exact absurd (hfill hhead hbytes) (Nat.not_le_of_lt hshort)
      | direct _ _ _ hid' => exact absurd hid hid'
      | pending size _ _ hsize' _ hzero' =>
          have hsize₂ : (held s.icbuf ++ b).length = size := by
            exact_mod_cast hsize.symm.trans hsize'
          obtain ⟨hblock, hrest₂, -⟩ := payload_of_drop hsize₂ hend hrest
          exact absurd (by rwa [hblock] at hzero') hzero
      | complete size _ _ hsize' =>
          have hsize₂ : (held s.icbuf ++ b).length = size := by
            exact_mod_cast hsize.symm.trans hsize'
          obtain ⟨hblock, hrest₂, -⟩ := payload_of_drop hsize₂ hend hrest
          rwa [hrest₂, ← hsize₂]

/-! ### From the iterations to the bytes -/

/-- A call whose iterations all find what they need has bytes that go on as they should. -/
theorem arrives_of_finds {icbuf : IncompleteBuf} {c : Call}
    (hwhole : ∀ b, whole b → env.slack b.length = true) (hwf : Wf icbuf)
    (hmax : c.recv.length ≤ MAXLINE)
    (hok : ∀ s, Begins env icbuf c s → Finds whole behind env c.recv s) :
    ∀ (n : Nat) (s : Loop), c.recv.length - s.offset = n → Begins env icbuf c s →
      (s.offset = 0 → msgSize - s.icbuf.head.length ≤ c.recv.length) →
      Arrives whole behind env s.icbuf.head (held s.icbuf) s.len (c.recv.drop s.offset) := by
  intro n
  induction n using Nat.strongRecOn with
  | ind n ih =>
      intro s hn hbegins hlong
      have hwfs := hbegins.wf hwf
      have hlt := hasMore_iff.mp hbegins.2
      have hlen : (filled c.recv s).length = msgSize := length_filled hwfs.head_le
      cases hok s hbegins with
      | short hshort hoff => exact absurd (hlong hoff) (Nat.not_le_of_lt hshort)
      | direct client hfill hend hid hclient hne hbehind =>
          rw [drop_eq_header hend]
          exact .direct _ _ _ _ _ client hlen hid hclient hne hbehind
      | control size hfill hid hsize hend hblock =>
          have hpos := hwfs.offset_lt_blockEnd hid hsize
          have hsize' : toInt (ofBE ((filled c.recv s).drop 4))
              = (filledBlock c.recv s size).length := by
            rw [hsize, length_filledBlock hwfs hsize]
          obtain ⟨ds, s', hturn, hoff, hlen', hheld⟩ :=
            turn_of_control hwhole hwfs hmax hfill hid hsize hend hblock
          obtain ⟨es, hbody, -⟩ := hturn.body hwfs
          -- what is left behind the payload is taken by the next iteration
          have hrest : Arrives whole behind env s'.icbuf.head (held s'.icbuf) s'.len
              (c.recv.drop (blockEnd s size)) := by
            rw [← hoff]
            by_cases hmore : hasMore c.recv s' = true
            · exact ih _ (by omega) s' rfl (hbegins.next hbody hmore) (by omega)
            · rw [hasMore_iff, Nat.not_lt] at hmore
              rw [List.drop_eq_nil_of_le hmore]
              exact .nothing _ _ _
          rw [drop_eq_header (Nat.le_trans (Nat.le_add_right _ _) hend), drop_eq_payload hend]
          have hlen₂ : s'.len = (filledBlock c.recv s size).length := by
            rw [hlen', length_filledBlock hwfs hsize]
          rw [hlen₂] at hrest
          rcases hheld with ⟨hzero, hhd, hkept⟩ | ⟨hzero, hempty⟩
          · rw [hhd, hkept] at hrest
            exact .again _ _ _ _ _ _ hlen hid hsize' hzero hrest
          · rw [hempty] at hrest
            exact .whole _ _ _ _ _ _ hlen hid hsize' hzero (hblock.resolve_left hzero) hrest

/-! ### From the bytes to the iterations -/

/-- A state of the loop of a call whose chunk fits. -/
def Fitting (whole behind : List UInt8 → Prop) (env : Env) (recv : List UInt8) (s : Loop) :
    Prop :=
  (recv.length < msgSize - s.icbuf.head.length ∧ s.offset = 0 ∧ s.len ≠ 0) ∨
    Arrives whole behind env s.icbuf.head (held s.icbuf) s.len (recv.drop s.offset)

theorem Fitting.finds {recv : List UInt8} {s : Loop} (h : Fitting whole behind env recv s)
    (hlt : s.offset < recv.length) : Finds whole behind env recv s := by
  rcases h with ⟨hshort, hoff, hlen⟩ | h
  · exact .short hshort hoff hlen
  · exact h.finds hlt

theorem Fitting.next {recv : List UInt8} {s s' : Loop} {ds : List Act}
    (h : Fitting whole behind env recv s) (hlt : s.offset < recv.length)
    (hturn : Turn env recv s ds s') : Fitting whole behind env recv s' := by
  rcases h with ⟨hshort, hoff, hlen⟩ | h
  · -- the chunk is used up
    refine .inr ?_
    cases hturn with
    | direct _ hfill => omega
    | pending _ hfill => omega
    | complete _ hfill => omega
    | short =>
        rw [List.drop_eq_nil_of_le (Nat.le_add_left _ _)]
        exact .nothing _ _ _
  · exact .inr (h.next hlt hturn)

/-- The chunk fits exactly when each iteration of the call finds what it needs. -/
theorem fits_iff {icbuf : IncompleteBuf} {c : Call}
    (hwhole : ∀ b, whole b → env.slack b.length = true) (hwf : Wf icbuf)
    (hmax : c.recv.length ≤ MAXLINE) :
    (∀ s, Begins env icbuf c s → Finds whole behind env c.recv s) ↔
      Fits whole behind env icbuf c := by
  constructor
  · intro hok
    by_cases hmore : hasMore c.recv (start icbuf c) = true
    · have hbegins : Begins env icbuf c (start icbuf c) := ⟨⟨0, .zero⟩, hmore⟩
      by_cases hshort : c.recv.length < msgSize - icbuf.head.length
      · refine .inl ⟨hshort, ?_⟩
        cases hok _ hbegins with
        | short _ _ hlen => exact hlen
        | direct _ hfill => exact absurd hshort (Nat.not_lt_of_le hfill)
        | control _ hfill => exact absurd hshort (Nat.not_lt_of_le hfill)
      · exact .inr (arrives_of_finds hwhole hwf hmax hok _ _ rfl hbegins
          fun _ => Nat.le_of_not_lt hshort)
    · rw [hasMore_iff, Nat.not_lt] at hmore
      refine .inr ?_
      rw [List.eq_nil_of_length_eq_zero (Nat.le_zero.mp hmore)]
      exact .nothing _ _ _
  · rintro hfits s ⟨⟨n, hvisits⟩, hmore⟩
    have hstart : Wf (start icbuf c).icbuf ∧ Fitting whole behind env c.recv (start icbuf c) := by
      refine ⟨hwf, ?_⟩
      rcases hfits with ⟨hshort, hlen⟩ | h
      · exact .inl ⟨hshort, rfl, hlen⟩
      · exact .inr h
    have hinv : Wf s.icbuf ∧ Fitting whole behind env c.recv s := by
      refine hvisits.invariant (P := fun s => Wf s.icbuf ∧ Fitting whole behind env c.recv s)
        ?_ hstart
      intro s es s' hs hcond hbody
      have hturn := body_turn hs.1 hbody
      exact ⟨hturn.wf hs.1, hs.2.next (hasMore_iff.mp hcond) hturn⟩
    exact hinv.2.finds (hasMore_iff.mp hmore)

end Fits

end Ndsl.Proofs.Multiplexer
