import Ndsl.Proofs.Dns.Follows

/-!
# `Ndsl.Proofs.Dns.Completes`: a request and its response

`Completes` is what the response to a pending request should do: its entry is taken from the table,
its task gets all addresses, and the task is scheduled once. `handle_read` takes an entry for each
address, and schedules the task only where the address is in the last answer. `completes_iff` says
when that comes to the same.
-/

set_option autoImplicit false

namespace Ndsl.Proofs.Dns

open Ndsl.Lib
open Ndsl.Lib.DnsMessage
open Ndsl.Net Ndsl.Net.Dns

/-! ### What a response owes to its request -/

/-- The tasks that were scheduled. -/
def works (log : List Event) : List Nat :=
  log.filterMap fun
    | .addWork dtask => some dtask
    | _ => none

/-- The id of a response, as the host reads it. -/
def hostId (r : Response) : UInt16 := UInt16.ofNat (ofBE [r.id.2, r.id.1])

/-- A request with this id is pending. -/
def Pending (id : UInt16) (s : Dns) : Prop :=
  ∃ be ∈ s.bucket_ (bucketOf id), (s.tasks be.task).query_id = id

/-- The task with more addresses. -/
def withAddresses (addrs : List (List UInt8)) (task : DnsTask) : DnsTask :=
  { task with answer_address := task.answer_address ++ addrs.map fun addr => { sin_addr := addr } }

/-- The entry `be` is gone, its task has these addresses, and nothing else has changed. -/
structure Taken (id : UInt16) (addrs : List (List UInt8)) (be : BucketEntry) (s t : Dns) :
    Prop where
  removed : ∃ pre post, s.bucket_ (bucketOf id) = pre ++ be :: post ∧
    t.bucket_ = Function.update s.bucket_ (bucketOf id) (pre ++ post)
  query_id_eq : (s.tasks be.task).query_id = id
  tasks_eq : t.tasks = Function.update s.tasks be.task (withAddresses addrs (s.tasks be.task))
  count_eq : t.count_ = toSize ((s.count_ : Int) - 1)

/-- What the response to a pending request owes: its entry is gone, its task has all addresses, and
is scheduled once. -/
def Completes (r : Response) (s t : Dns) (log : List Event) : Prop :=
  ∃ be, Taken (hostId r) r.addresses be s t ∧ works log = [be.task]

/-! ### The last answer -/

/-- Read from a position on, the last of so many answers and no other is an address, which is
`addr`. -/
inductive ReadsLast : Nat → Buffer → Nat → List UInt8 → Prop
  | last {buf : Buffer} {p n : Nat} {addr : List UInt8} :
      skip (buf.bytes.drop p) = some n → p + n + 10 ≤ BUFFER_SIZE →
      shortAt buf (p + n) = DEFAULT_QUERY_TYPE →
      buf.read ((p + n + 10 : Nat) : Int) 4 = some addr → ReadsLast 1 buf p addr
  | other {answers : Nat} {buf : Buffer} {p q n : Nat} {addr : List UInt8} :
      skip (buf.bytes.drop p) = some n → p + n + 10 ≤ BUFFER_SIZE →
      shortAt buf (p + n) ≠ DEFAULT_QUERY_TYPE →
      ((p + n + 10 : Nat) : Int) + shortAt buf (p + n + 8) = q →
      ReadsLast (answers + 1) (passed buf p) q addr → ReadsLast (answers + 2) buf p addr

/-- The same behind the questions. -/
def LastAddress (quests answers : Nat) (buf : Buffer) (addr : List UInt8) : Prop :=
  ∃ buf' p, behindQuestions quests buf 12 = some (buf', p) ∧ ReadsLast answers buf' p addr

/-! ### The walk over the answers -/

@[simp] theorem works_append (log es : List Event) : works (log ++ es) = works log ++ works es :=
  List.filterMap_append

theorem works_of_isWalk {log : List Event} (h : ∀ e ∈ log, IsWalk e) : works log = [] := by
  refine List.filterMap_eq_nil_iff.mpr fun e he => ?_
  have := h e he
  cases e with
  | addWork dtask => exact absurd this id
  | _ => rfl

theorem works_fieldEvents (s : Dns) (start p : Nat) : works (fieldEvents s start p) = [] := by
  rw [fieldEvents, works_append, works_of_isWalk (skipName_isWalk s start)]
  rfl

section Answers
variable {s t : Dns} {id : UInt16} {answers p : Nat} {addr : List UInt8} {es : List Event}
  {retry : Bool}

/-- The entry of a pending request. -/
theorem findQuery_of_pending (h : Pending id s) (addr : List UInt8) :
    ∃ be u, s.findQuery id = (some be.task, u) ∧ u.buffer_ = s.buffer_ ∧
      Taken id [addr] be s (u.pushBack be.task addr) := by
  rcases findQuery_cases id s with ⟨-, hnone⟩ | ⟨pre, be, post, hsplit, hid, hfound⟩
  · obtain ⟨be, hmem, hid⟩ := h
    exact absurd hid (hnone be hmem)
  · exact ⟨be, _, hfound, rfl, ⟨pre, post, hsplit, rfl⟩, hid, rfl, rfl⟩

/-- An answer that the walk has read, and what it does then. -/
theorem of_walkAnswers_yields {p : Int}
    (h : (s.walkAnswers id (answers + 1) p).Yields es (retry, t)) :
    ∃ (start n : Nat) (gs : List Event), p = start ∧ skip (s.buffer_.bytes.drop start) = some n ∧
      start + n + 10 ≤ BUFFER_SIZE ∧
      (withFields id answers (shortAt s.buffer_ (start + n)) (shortAt s.buffer_ (start + n + 8))
        ((start + n + 10 : Nat) : Int) { s with buffer_ := passed s.buffer_ start }).Yields gs
          (retry, t) ∧ works es = works gs := by
  rcases Int.lt_or_le p 0 with hneg | hpos
  · exact ((walkAnswers_of_neg id answers hneg).value _ h.2).elim
  obtain ⟨start, rfl⟩ := Int.eq_ofNat_of_zero_le hpos
  by_cases hin : ∃ n, skip (s.buffer_.bytes.drop start) = some n ∧ start + n + 10 ≤ BUFFER_SIZE
  · obtain ⟨n, hskip, hle⟩ := hin
    rw [walkAnswers_of_skip hskip hle, Traced.tell_bind_yields] at h
    obtain ⟨gs, hrest, hes⟩ := h
    refine ⟨start, n, gs, rfl, hskip, hle, hrest, ?_⟩
    rw [hes, works_append, works_fieldEvents, List.nil_append]
  · have hout : ∀ n, skip (s.buffer_.bytes.drop start) = some n → BUFFER_SIZE < start + n + 10 :=
      fun n hskip => Nat.lt_of_not_le fun hle => hin ⟨n, hskip, hle⟩
    exact ((walkAnswers_of_outside id answers hout).value _ h.2).elim

/-- What the walk does with an answer that it has read. -/
theorem of_withFields_yields {type dlen : Int} {data : Nat}
    (h : (withFields id answers type dlen data s).Yields es (retry, t)) :
    ((type = DEFAULT_QUERY_TYPE → ¬ Pending id s) ∧ ∃ gs,
      (s.walkAnswers id answers (data + dlen)).Yields gs (retry, t) ∧ works es = works gs) ∨
    ∃ be addr, type = DEFAULT_QUERY_TYPE ∧ s.buffer_.read data 4 = some addr ∧
      ∃ u, Taken id [addr] be s u ∧
        (answers = 0 ∧ t = u ∧ works es = [be.task] ∨
          ∃ k gs, answers = k + 1 ∧ (u.walkAnswers id answers (data + dlen)).Yields gs (retry, t) ∧
            works es = works gs) := by
  by_cases htype : type = DEFAULT_QUERY_TYPE
  swap
  · -- another type: the record is passed over
    left
    rw [withFields_of_none fun heq => absurd heq htype, Traced.tell_bind_yields] at h
    obtain ⟨gs, hrest, hes⟩ := h
    exact ⟨fun heq => absurd heq htype, gs, hrest, by rw [hes]; rfl⟩
  by_cases hpending : Pending id s
  swap
  · -- the request is not pending: the address is for nobody
    left
    rcases findQuery_cases id s with ⟨hnone, -⟩ | ⟨pre, be, post, hsplit, hid, -⟩
    · rw [withFields_of_none fun _ => hnone, Traced.tell_bind_yields] at h
      obtain ⟨gs, hrest, hes⟩ := h
      exact ⟨fun _ => hpending, gs, hrest, by rw [hes]; rfl⟩
    · refine absurd ⟨be, ?_, hid⟩ hpending
      rw [bucketOf, hsplit]
      exact List.mem_append_right pre List.mem_cons_self
  right
  subst htype
  cases hread : s.buffer_.read data 4 with
  | none =>
      -- the address would be read behind the buffer
      obtain ⟨be, u, hfound, hbuffer, -⟩ := findQuery_of_pending hpending []
      rw [withFields_of_outside hfound (hbuffer ▸ hread)] at h
      exact absurd h.2.symm (Option.some_ne_none _)
  | some addr =>
      obtain ⟨be, u, hfound, hbuffer, htaken⟩ := findQuery_of_pending hpending addr
      refine ⟨be, addr, rfl, rfl, _, htaken, ?_⟩
      cases answers with
      | zero =>
          -- the last answer ends the walk, and the task is scheduled
          rw [withFields_last hfound (hbuffer ▸ hread), Traced.tell_bind_yields] at h
          obtain ⟨gs, hrest, hes⟩ := h
          obtain ⟨rfl, heq⟩ := (Traced.pure_yields ..).mp hrest
          exact .inl ⟨rfl, (Prod.mk.inj heq).2.symm, by rw [hes]; rfl⟩
      | succ k =>
          -- another answer follows, with the request taken out already
          rw [withFields_succ hfound (hbuffer ▸ hread), Traced.tell_bind_yields] at h
          obtain ⟨gs, hrest, hes⟩ := h
          exact .inr ⟨k, gs, rfl, hrest, by rw [hes]; rfl⟩

/-- The entry that is taken makes its bucket shorter by one. -/
theorem Taken.length_eq {addrs : List (List UInt8)} {be : BucketEntry} (h : Taken id addrs be s t) :
    (t.bucket_ (bucketOf id)).length + 1 = (s.bucket_ (bucketOf id)).length := by
  obtain ⟨pre, post, hsplit, hbucket⟩ := h.removed
  rw [hbucket, Function.update_self, hsplit, List.length_append, List.length_append,
    List.length_cons, Nat.add_assoc]

/-- For each task that is scheduled an entry is gone. -/
theorem works_length_le : ∀ {answers : Nat} {s : Dns} {p : Int} {es : List Event},
    (s.walkAnswers id answers p).Yields es (retry, t) →
      (t.bucket_ (bucketOf id)).length + (works es).length ≤ (s.bucket_ (bucketOf id)).length := by
  intro answers
  induction answers with
  | zero =>
      intro s p es h
      obtain ⟨rfl, heq⟩ := (Traced.pure_yields ..).mp h
      obtain ⟨-, rfl⟩ := Prod.mk.inj heq
      exact Nat.le_refl _
  | succ answers ih =>
      intro s p es h
      obtain ⟨start, n, gs, -, -, -, hfields, hworks⟩ := of_walkAnswers_yields h
      rw [hworks]
      rcases of_withFields_yields hfields with ⟨-, hs, hrest, heq⟩ |
        ⟨be, addr, -, -, u, htaken, ⟨-, rfl, heq⟩ | ⟨k, hs, -, hrest, heq⟩⟩
      · have hle := ih hrest
        rw [heq]
        exact hle
      · rw [heq, List.length_singleton]
        exact Nat.le_of_eq htaken.length_eq
      · rw [heq]
        exact Nat.le_trans (ih hrest) (Nat.le_of_lt (Nat.lt_of_succ_le (Nat.le_of_eq
          htaken.length_eq)))

/-- When one entry is gone and one task is scheduled, the address was in the last answer. -/
theorem readsLast_of_yields : ∀ {answers : Nat} {s : Dns} {p : Nat} {es : List Event},
    Pending id s → (s.walkAnswers id answers p).Yields es (retry, t) → works es ≠ [] →
      (t.bucket_ (bucketOf id)).length + 1 = (s.bucket_ (bucketOf id)).length →
      ∃ addr dtask, ReadsLast answers s.buffer_ p addr ∧ works es = [dtask] ∧
        t.tasks = Function.update s.tasks dtask (withAddresses [addr] (s.tasks dtask)) := by
  intro answers
  induction answers with
  | zero =>
      intro s p es _ h hworks _
      obtain ⟨rfl, -⟩ := (Traced.pure_yields ..).mp h
      exact absurd rfl hworks
  | succ answers ih =>
      intro s p es hpending h hworks hlen
      obtain ⟨start, n, gs, hstart, hskip, hle, hfields, heq⟩ := of_walkAnswers_yields h
      obtain rfl := Int.ofNat.inj hstart
      have hpos := skip_pos hskip
      rw [heq] at hworks ⊢
      rcases of_withFields_yields hfields with ⟨hnone, hs, hrest, heq'⟩ |
        ⟨be, addr, htype, hread, u, htaken, ⟨rfl, rfl, heq'⟩ | ⟨k, hs, -, hrest, heq'⟩⟩
      · -- the answer is passed over, and it is not the last one
        have htype : shortAt s.buffer_ (p + n) ≠ DEFAULT_QUERY_TYPE := fun h => hnone h hpending
        rw [heq'] at hworks ⊢
        cases answers with
        | zero =>
            obtain ⟨rfl, -⟩ := (Traced.pure_yields ..).mp hrest
            exact absurd rfl hworks
        | succ answers =>
            obtain ⟨q, -, -, hq, -⟩ := of_walkAnswers_yields hrest
            rw [hq] at hrest
            have hstill : Pending id { s with buffer_ := passed s.buffer_ p } := hpending
            obtain ⟨addr, dtask, hreads, hwork, htasks⟩ := ih hstill hrest hworks hlen
            exact ⟨addr, dtask, .other hskip hle htype hq hreads, hwork, htasks⟩
      · rw [read_passed _ (by omega)] at hread
        exact ⟨addr, be.task, .last hskip hle htype hread, heq', htaken.tasks_eq⟩
      · -- a second entry would be gone with the task that is scheduled
        have hgone := works_length_le hrest
        have hone := htaken.length_eq
        have hsome : 0 < (works hs).length := by
          rw [← heq']
          exact List.length_pos_iff.mpr hworks
        dsimp only at hone
        omega

/-- An address in the last answer, and in no other, takes the entry and schedules the task. -/
theorem ReadsLast.yields {buf : Buffer} (h : ReadsLast answers buf p addr) :
    ∀ {s : Dns}, s.buffer_ = buf → Pending id s →
      ∃ es t be, (s.walkAnswers id answers p).Yields es (true, t) ∧ Taken id [addr] be s t ∧
        works es = [be.task] := by
  induction h with
  | @last buf p n addr hskip hle htype hread =>
      rintro s rfl hpending
      have hpos := skip_pos hskip
      have hstill : Pending id { s with buffer_ := passed s.buffer_ p } := hpending
      obtain ⟨be, u, hfound, hbuffer, htaken⟩ := findQuery_of_pending hstill addr
      -- the bytes that the walk changes lie before the address
      have hread' : u.buffer_.read ((p + n + 10 : Nat) : Int) 4 = some addr := by
        rw [hbuffer]
        exact (read_passed _ (by omega)).trans hread
      have hyields : (s.walkAnswers id 1 p).Yields
          (fieldEvents s p (p + n) ++ [.load ((p + n + 10 : Nat) : Int) 4, .addWork be.task])
          (true, u.pushBack be.task addr) := by
        rw [walkAnswers_of_skip hskip hle, htype, withFields_last hfound hread',
          Traced.tell_bind_tell_bind, Traced.tell_bind_yields]
        exact ⟨[], (Traced.pure_yields ..).mpr ⟨rfl, rfl⟩, (List.append_nil _).symm⟩
      refine ⟨_, _, be, hyields, ⟨htaken.removed, htaken.query_id_eq, htaken.tasks_eq,
        htaken.count_eq⟩, ?_⟩
      rw [works_append, works_fieldEvents]
      rfl
  | @other answers buf p q n addr hskip hle htype hq _ ih =>
      rintro s rfl hpending
      have hstill : Pending id { s with buffer_ := passed s.buffer_ p } := hpending
      obtain ⟨es, t, be, hyields, htaken, hworks⟩ := ih rfl hstill
      -- the answer is of another type, and the walk goes on behind it
      have hmore : (s.walkAnswers id (answers + 2) p).Yields
          (fieldEvents s p (p + n) ++ [.move ((p + n + 10 : Nat) : Int) q] ++ es) (true, t) := by
        rw [walkAnswers_of_skip hskip hle, withFields_of_none fun heq => absurd heq htype, hq,
          Traced.tell_bind_tell_bind, Traced.tell_bind_yields]
        exact ⟨es, hyields, rfl⟩
      refine ⟨_, t, be, hmore, ⟨htaken.removed, htaken.query_id_eq, htaken.tasks_eq,
        htaken.count_eq⟩, ?_⟩
      rw [works_append, works_append, works_fieldEvents, hworks]
      rfl

end Answers

/-! ### A response -/

section Response
variable {r : Response} {s t : Dns} {es : List Event} {ret : Int}

/-- The id in the header of a response. -/
theorem idOf_of_holds {buf : Buffer} (hholds : Holds buf 0 r.encode) : idOf buf = hostId r := by
  rw [encode_eq] at hholds
  obtain ⟨rest, hrest⟩ := hholds.front (by decide : 0 + 12 ≤ BUFFER_SIZE)
  rw [List.drop_zero] at hrest
  rw [idOf, hrest]
  rfl

/-- What `handle_read` does with a response that has come in. -/
theorem response_of_response (r : Response) (s : Dns) :
    response { s with buffer_ := s.buffer_.recv r.encode } =
      .tell [.load 2 2, .load 6 2, .load 4 2, .load 0 2] >>= fun _ =>
        skipQuestions r.questions.length 12 { s with buffer_ := s.buffer_.recv r.encode } >>=
          fun x => x.2.walkAnswers (hostId r) r.answers.length x.1 := by
  have hholds := holds_recv s.buffer_ r.encode
  obtain ⟨hflags, hquests, hanswers⟩ :=
    header_of_response (s := { s with buffer_ := s.buffer_.recv r.encode }) hholds
  have hresponse := response_eq (s := { s with buffer_ := s.buffer_.recv r.encode }) hflags
  rw [hquests, hanswers, idOf_of_holds hholds] at hresponse
  exact hresponse

/-- A call of `handle_read` for one response ends where the walk over its answers ends. -/
theorem of_handleRead_yields (h : (s.handleRead [r.encode]).Yields es (ret, t)) :
    ∃ buf' p gs retry, behindQuestions r.questions.length (s.buffer_.recv r.encode) 12 =
        some (buf', p) ∧
      (walkAnswers (hostId r) r.answers.length (p : Nat) { s with buffer_ := buf' }).Yields gs
        (retry, t) ∧ works es = works gs := by
  rw [handleRead, Traced.tell_bind_yields] at h
  obtain ⟨fs, hcall, hes⟩ := h
  rw [response_of_response, Traced.bind_yields] at hcall
  obtain ⟨gs, ⟨retry, u⟩, hs, hresponse, hend, hfs⟩ := hcall
  rw [Traced.tell_bind_yields] at hresponse
  obtain ⟨gs', hwalk, hgs⟩ := hresponse
  obtain ⟨qs, x, as, hquestions, hanswers, hgs'⟩ := Traced.bind_yields.mp hwalk
  have hvalue := hquestions.2
  have hquiet : works qs = [] := by
    rw [← hquestions.1]
    exact works_of_isWalk (skipQuestions_isWalk _ _ _)
  rw [show (12 : Int) = ((12 : Nat) : Int) from rfl, value_skipQuestions] at hvalue
  obtain ⟨⟨buf', p⟩, hbehind, rfl⟩ := Option.map_eq_some_iff.mp hvalue
  -- behind the walk the call returns, and schedules nothing
  have htail : u = t ∧ works hs = [] := by
    dsimp only at hend
    split at hend
    · rw [handleRead, Traced.tell_bind_yields] at hend
      obtain ⟨_, hpure, rfl⟩ := hend
      obtain ⟨rfl, heq⟩ := (Traced.pure_yields ..).mp hpure
      exact ⟨(Prod.mk.inj heq).2, rfl⟩
    · obtain ⟨rfl, heq⟩ := (Traced.pure_yields ..).mp hend
      exact ⟨(Prod.mk.inj heq).2, rfl⟩
  obtain ⟨rfl, hhs⟩ := htail
  refine ⟨buf', p, as, retry, hbehind, hanswers, ?_⟩
  rw [hes, hfs, hgs, hgs', works_append, works_append, works_append, works_append, hquiet, hhs,
    List.append_nil]
  rfl

/-- The walk that goes to `retry` ends in a call that returns. -/
theorem handleRead_yields {buf' : Buffer} {p : Nat} {gs : List Event}
    (hbehind : behindQuestions r.questions.length (s.buffer_.recv r.encode) 12 = some (buf', p))
    (hanswers : (walkAnswers (hostId r) r.answers.length (p : Nat)
      { s with buffer_ := buf' }).Yields gs (true, t)) :
    ∃ es, (s.handleRead [r.encode]).Yields es (-1, t) ∧ works es = works gs := by
  let u : Dns := { s with buffer_ := s.buffer_.recv r.encode }
  have hquestions : (u.skipQuestions r.questions.length 12).Yields
      (u.skipQuestions r.questions.length 12).log ((p : Int), { s with buffer_ := buf' }) := by
    refine ⟨rfl, (value_skipQuestions r.questions.length u 12).trans ?_⟩
    rw [show u.buffer_ = s.buffer_.recv r.encode from rfl, hbehind]
    rfl
  refine ⟨[.recv (some r.encode)] ++ (([.load 2 2, .load 6 2, .load 4 2, .load 0 2] ++
    ((u.skipQuestions r.questions.length 12).log ++ gs)) ++ [.recv none]), ?_, ?_⟩
  · rw [handleRead, Traced.tell_bind_yields]
    refine ⟨_, ?_, rfl⟩
    rw [response_of_response, Traced.bind_yields]
    refine ⟨_, (true, t), [.recv none], ?_, ⟨rfl, rfl⟩, rfl⟩
    rw [Traced.tell_bind_yields]
    exact ⟨_, Traced.bind_yields.mpr ⟨_, _, _, hquestions, hanswers, rfl⟩, rfl⟩
  · rw [works_append, works_append, works_append, works_append,
      works_of_isWalk (skipQuestions_isWalk _ _ _), List.nil_append]
    exact List.append_nil _

/-- A response that completes a pending request has one address, which is read from the last
answer. -/
theorem lastAddress_of_completes (hpending : Pending (hostId r) s)
    (h : (s.handleRead [r.encode]).Yields es (ret, t)) (hcompletes : Completes r s t es) :
    ∃ addr, r.addresses = [addr] ∧
      LastAddress r.questions.length r.answers.length (s.buffer_.recv r.encode) addr := by
  obtain ⟨be, htaken, hworks⟩ := hcompletes
  obtain ⟨buf', p, gs, retry, hbehind, hanswers, hgs⟩ := of_handleRead_yields h
  have hstill : Pending (hostId r) { s with buffer_ := buf' } := hpending
  have hne : works gs ≠ [] := by
    rw [← hgs, hworks]
    exact List.cons_ne_nil _ _
  obtain ⟨addr, dtask, hreads, hwork, htasks⟩ :=
    readsLast_of_yields hstill hanswers hne htaken.length_eq
  -- it is the task of the entry that has got the address
  obtain rfl : be.task = dtask :=
    List.cons.inj (hworks.symm.trans (hgs.trans hwork)) |>.1
  have htask : withAddresses r.addresses (s.tasks be.task) =
      withAddresses [addr] (s.tasks be.task) := by
    have heq := congrFun (htaken.tasks_eq.symm.trans htasks) be.task
    rwa [Function.update_self, Function.update_self] at heq
  have haddrs := List.append_cancel_left (congrArg DnsTask.answer_address htask)
  refine ⟨addr, ?_, buf', p, hbehind, hreads⟩
  refine List.map_injective_iff.mpr (fun x y hxy => ?_) haddrs
  exact (SocketAddress4.mk.inj hxy).2.2

/-- One address in the last answer completes the request. -/
theorem completes_of_lastAddress (hpending : Pending (hostId r) s) {addr : List UInt8}
    (haddr : r.addresses = [addr])
    (hlast : LastAddress r.questions.length r.answers.length (s.buffer_.recv r.encode) addr) :
    ∃ es ret t, (s.handleRead [r.encode]).Yields es (ret, t) ∧ Completes r s t es := by
  obtain ⟨buf', p, hbehind, hreads⟩ := hlast
  have hstill : Pending (hostId r) { s with buffer_ := buf' } := hpending
  obtain ⟨gs, t, be, hyields, htaken, hworks⟩ := hreads.yields rfl hstill
  obtain ⟨es, hcall, hes⟩ := handleRead_yields hbehind hyields
  refine ⟨es, -1, t, hcall, be, ?_, hes.trans hworks⟩
  rw [haddr]
  exact ⟨htaken.removed, htaken.query_id_eq, htaken.tasks_eq, htaken.count_eq⟩

end Response

/-! ### Responses whose names the code understands -/

/-- The last of these answers and no other is an address, which is `addr`. -/
def OnlyLast (as : List Record) (addr : List UInt8) : Prop :=
  ∃ others a, as = others ++ [a] ∧ (∀ b ∈ others, b.type ≠ typeA) ∧ a.type = typeA ∧ a.rdata = addr

section OnlyLast
variable {a b : Record} {as : List Record} {addr y : List UInt8}

theorem onlyLast_singleton : OnlyLast [a] addr ↔ a.type = typeA ∧ a.rdata = addr := by
  constructor
  · rintro ⟨others, c, hsplit, -, hc⟩
    cases others with
    | nil =>
        obtain rfl := (List.cons.inj hsplit).1
        exact hc
    | cons d others =>
        have hnil := (List.cons.inj hsplit).2
        exact absurd hnil.symm (List.append_ne_nil_of_right_ne_nil others (List.cons_ne_nil c []))
  · intro h
    exact ⟨[], a, rfl, fun _ hb => absurd hb List.not_mem_nil, h⟩

theorem onlyLast_cons_cons :
    OnlyLast (a :: b :: as) addr ↔ a.type ≠ typeA ∧ OnlyLast (b :: as) addr := by
  constructor
  · rintro ⟨others, c, hsplit, hothers, hc⟩
    cases others with
    | nil => exact absurd (List.cons.inj hsplit).2 (List.cons_ne_nil b as)
    | cons d others =>
        obtain ⟨rfl, hrest⟩ := List.cons.inj hsplit
        rw [List.forall_mem_cons] at hothers
        exact ⟨hothers.1, others, c, hrest, hothers.2, hc⟩
  · rintro ⟨ha, others, c, hsplit, hothers, hc⟩
    exact ⟨a :: others, c, congrArg (a :: ·) hsplit, List.forall_mem_cons.mpr ⟨ha, hothers⟩, hc⟩

/-- Then it is the only address of the response. -/
theorem OnlyLast.addresses {r : Response} (h : OnlyLast r.answers addr) : r.addresses = [addr] := by
  obtain ⟨others, c, hsplit, hothers, htype, rfl⟩ := h
  have hnone : others.filter (·.type = typeA) = [] :=
    List.filter_eq_nil_iff.mpr fun b hb => by simpa using hothers b hb
  have hlast : [c].filter (·.type = typeA) = [c] :=
    List.filter_eq_self.mpr fun b hb => by simpa [List.mem_singleton.mp hb] using htype
  rw [Response.addresses, hsplit, List.filter_append, hnone, hlast]
  rfl

section First
variable {buf : Buffer} {p n target : Nat}

/-- The type and the length of an answer whose name the code has found. -/
theorem shorts_of_holds (hholds : Holds buf target (a.fields ++ (a.rdata ++ y)))
    (hle : target + 10 ≤ BUFFER_SIZE) (hlt : a.rdata.length < 2 ^ 15) :
    (shortAt buf target = DEFAULT_QUERY_TYPE ↔ a.type = typeA) ∧
      shortAt buf (target + 8) = a.rdata.length := by
  obtain ⟨htype, hdlen⟩ := shortAt_fields hholds hle
  rw [htype, hdlen]
  exact ⟨toShort_eq_typeA_iff, toShort_eq_iff.mpr hlt⟩

/-- The walk over one answer. -/
theorem readsLast_one_iff (hholds : Holds buf target (a.fields ++ (a.rdata ++ y)))
    (hskip : skip (buf.bytes.drop p) = some n) (htarget : p + n = target)
    (hle : target + 10 + a.rdata.length ≤ BUFFER_SIZE) (hlt : a.rdata.length < 2 ^ 15) :
    ReadsLast 1 buf p addr ↔ a.type = typeA ∧ a.rdata = addr := by
  subst htarget
  obtain ⟨htype, -⟩ := shorts_of_holds hholds (by omega) hlt
  -- an address has room for its four bytes
  have hdata : a.type = typeA → buf.read ((p + n + 10 : Nat) : Int) 4 = some a.rdata := by
    intro ha
    have hlen := a.length_of_typeA ha
    obtain ⟨rest, hrest⟩ := hholds.append.front hle
    rw [read_of_le (by omega), show p + n + 10 = p + n + a.fields.length from rfl, hrest,
      List.take_left' hlen]
  constructor
  · intro h
    cases h with
    | last hskip' hle' htype' hread =>
        obtain rfl := Option.some.inj (hskip.symm.trans hskip')
        have ha := htype.mp htype'
        exact ⟨ha, Option.some.inj ((hdata ha).symm.trans hread)⟩
  · rintro ⟨ha, rfl⟩
    exact .last hskip (by omega) (htype.mpr ha) (hdata ha)

/-- The walk over an answer that others follow. -/
theorem readsLast_succ_iff {answers : Nat} (hholds : Holds buf target (a.fields ++ (a.rdata ++ y)))
    (hskip : skip (buf.bytes.drop p) = some n) (htarget : p + n = target)
    (hle : target + 10 ≤ BUFFER_SIZE) (hlt : a.rdata.length < 2 ^ 15) :
    ReadsLast (answers + 2) buf p addr ↔ a.type ≠ typeA ∧
      ReadsLast (answers + 1) (passed buf p) (target + 10 + a.rdata.length) addr := by
  subst htarget
  obtain ⟨htype, hdlen⟩ := shorts_of_holds hholds hle hlt
  constructor
  · intro h
    cases h with
    | other hskip' _ htype' hq hrest =>
        obtain rfl := Option.some.inj (hskip.symm.trans hskip')
        rw [hdlen] at hq
        obtain rfl := Int.ofNat.inj hq
        exact ⟨fun ha => htype' (htype.mpr ha), hrest⟩
  · rintro ⟨ha, hrest⟩
    exact .other hskip hle (fun h => ha (htype.mp h)) (by rw [hdlen]; rfl) hrest

end First

/-- The walk over the answers, when it finds the end of the first name and the others are clear. -/
theorem readsLast_iff (as : List Record) : ∀ {a : Record} {buf : Buffer} {p n target : Nat},
    Holds buf target (a.fields ++ (a.rdata ++ (answerBytes as ++ y))) →
      skip (buf.bytes.drop p) = some n → p + n = target →
      target + 10 + a.rdata.length + (answerBytes as).length ≤ BUFFER_SIZE →
      a.rdata.length < 2 ^ 15 → Clear (target + 10 + a.rdata.length) as →
      (ReadsLast (as.length + 1) buf p addr ↔ OnlyLast (a :: as) addr) := by
  induction as with
  | nil =>
      intro a buf p n target hholds hskip htarget hle hlt _
      rw [onlyLast_singleton]
      exact readsLast_one_iff hholds hskip htarget hle hlt
  | cons b as ih =>
      intro a buf p n target hholds hskip htarget hle hlt hclear
      have hbytes : answerBytes (b :: as) ++ y =
          b.name.encode ++ (b.fields ++ (b.rdata ++ (answerBytes as ++ y))) := by
        simp only [answerBytes, List.flatMap_cons, Record.encode, List.append_assoc]
      have hlength : (answerBytes (b :: as)).length =
          b.name.encode.length + 10 + b.rdata.length + (answerBytes as).length := by
        simp only [answerBytes, List.flatMap_cons, List.length_append, Record.length_encode]
      obtain ⟨hname, -, hblt, hrest⟩ := clear_cons_iff.mp hclear
      have hpos := skip_pos hskip
      rw [hbytes] at hholds
      rw [hlength] at hle
      rw [Record.length_encode, ← Nat.add_assoc, ← Nat.add_assoc] at hrest
      -- the next answer begins behind the data, where the buffer stays as it was
      have hnext : Holds (passed buf p) (target + 10 + a.rdata.length)
          (b.name.encode ++ (b.fields ++ (b.rdata ++ (answerBytes as ++ y)))) :=
        hholds.append.append.congr (drop_passed buf (by rw [Record.length_fields]; omega))
      rw [onlyLast_cons_cons, List.length_cons,
        readsLast_succ_iff hholds hskip htarget (by omega) hlt]
      refine and_congr_right fun _ => ?_
      exact ih hnext.append ((hnext.skip_iff (by omega) (Nat.le_refl _)).mpr hname) rfl
        (by omega) hblt hrest

end OnlyLast

section Understood
variable {r : Response} {addr : List UInt8}

/-- The walk over a response that the code understands, and that has come in as a whole. -/
theorem lastAddress_iff (hunderstood : Understood r) (hle : r.encode.length ≤ BUFFER_SIZE)
    (buf : Buffer) :
    LastAddress r.questions.length r.answers.length (buf.recv r.encode) addr ↔
      OnlyLast r.answers addr := by
  have hholds := holds_recv buf r.encode
  generalize buf.recv r.encode = buf' at hholds
  cases hanswers : r.answers with
  | nil =>
      -- without answers there is no last one
      constructor
      · rintro ⟨_, _, _, hreads⟩
        cases hreads
      · rintro ⟨others, a, hsplit, -⟩
        exact absurd hsplit.symm
          (List.append_ne_nil_of_right_ne_nil others (List.cons_ne_nil a []))
  | cons a as =>
      rw [Understood, hanswers] at hunderstood
      obtain ⟨hcuts, hfits, hlt, hclear⟩ := hunderstood
      -- the response in the order in which the walk goes through it
      have hbytes : r.encode = r.header ++ ((questionBytes r ++ a.name.encode) ++
          (a.fields ++ (a.rdata ++ (answerBytes as ++ r.rest)))) := by
        rw [encode_eq, hanswers]
        simp only [answerBytes, List.flatMap_cons, Record.encode, List.append_assoc]
      have htarget : 12 + (questionBytes r ++ a.name.encode).length =
          answersAt r + a.name.encode.length := by
        rw [List.length_append, ← Nat.add_assoc]
        rfl
      rw [hbytes] at hholds hle
      have hfront := hholds.append
      rw [Response.length_header, Nat.zero_add] at hfront
      have hfields := hfront.append
      rw [htarget] at hfields
      simp only [List.length_append, Response.length_header, Record.length_fields] at hle htarget
      rw [Record.length_encode, ← Nat.add_assoc, ← Nat.add_assoc] at hclear
      obtain ⟨buf'', q, n, hbehind, hskip, hend⟩ :=
        (behindQuestions_iff_cuts r.questions.length hfront
          (by rw [List.length_append]; omega)).mpr hcuts
      rw [List.length_append, htarget] at hend
      have hpos := skip_pos hskip
      -- what the walk over the questions writes lies before the first answer
      have hkept : buf''.bytes.drop (answersAt r + a.name.encode.length) =
          buf'.bytes.drop (answersAt r + a.name.encode.length) := by
        rw [← hend, ← List.drop_drop, (behindQuestions_drop hbehind).2, List.drop_drop]
      have hreads : ReadsLast (as.length + 1) buf'' q addr ↔ OnlyLast (a :: as) addr :=
        readsLast_iff as (hfields.congr hkept) hskip hend (by omega) hlt hclear
      rw [← hreads]
      constructor
      · rintro ⟨_, _, hbehind', h⟩
        -- the walk over the questions ends at one place only
        obtain ⟨rfl, rfl⟩ := Prod.mk.inj (Option.some.inj (hbehind.symm.trans hbehind'))
        exact h
      · exact fun h => ⟨buf'', q, hbehind, h⟩

end Understood

/-! ### The condition -/

/-- The response to a pending request completes it exactly when its last answer and no other is an
address record. The first part says so of the bytes as the code reads them, the second of the
answers in a response that the code understands. -/
theorem completes_iff {r : Response} {s : Dns} (hpending : Pending (hostId r) s) :
    ((∃ es ret t, (s.handleRead [r.encode]).Yields es (ret, t) ∧ Completes r s t es) ↔
      ∃ addr, r.addresses = [addr] ∧
        LastAddress r.questions.length r.answers.length (s.buffer_.recv r.encode) addr) ∧
    (Understood r → r.encode.length ≤ BUFFER_SIZE →
      ((∃ es ret t, (s.handleRead [r.encode]).Yields es (ret, t) ∧ Completes r s t es) ↔
        ∃ others a, r.answers = others ++ [a] ∧ (∀ b ∈ others, b.type ≠ typeA) ∧
          a.type = typeA)) := by
  have hbytes : (∃ es ret t, (s.handleRead [r.encode]).Yields es (ret, t) ∧ Completes r s t es) ↔
      ∃ addr, r.addresses = [addr] ∧
        LastAddress r.questions.length r.answers.length (s.buffer_.recv r.encode) addr := by
    constructor
    · rintro ⟨es, ret, t, hyields, hcompletes⟩
      exact lastAddress_of_completes hpending hyields hcompletes
    · rintro ⟨addr, haddr, hlast⟩
      exact completes_of_lastAddress hpending haddr hlast
  refine ⟨hbytes, fun hunderstood hle => hbytes.trans ?_⟩
  constructor
  · rintro ⟨addr, -, hlast⟩
    obtain ⟨others, a, hsplit, hothers, htype, -⟩ := (lastAddress_iff hunderstood hle _).mp hlast
    exact ⟨others, a, hsplit, hothers, htype⟩
  · rintro ⟨others, a, hsplit, hothers, htype⟩
    have honly : OnlyLast r.answers a.rdata := ⟨others, a, hsplit, hothers, htype, rfl⟩
    exact ⟨a.rdata, honly.addresses, (lastAddress_iff hunderstood hle _).mpr honly⟩

/-- The name at the front of the questions. -/
def firstName : Name := ⟨[], .pointer ⟨12, by decide⟩⟩

/-- An alias record. -/
def aliasOf (name : Name) (rdata : List UInt8) (h : rdata.length < 2 ^ 16) : Record where
  name := name
  type := 5
  rclass := 1
  ttl := 60
  rdata := rdata
  length_lt := h
  length_of_typeA := fun htype => absurd htype (by decide)

/-- A response with these answers to the query for the name `a`. -/
def responseWith (answers : List Record) (h : answers.length < 2 ^ 16) : Response :=
  { compressed with answers := answers, answers_lt := h }

/-- A client whose request `1` is pending. -/
def waiting : Dns := { idle with
  count_ := 1
  bucket_ := Function.update (fun _ => []) 1 [{ task := 0 }]
  tasks := fun _ => { query_id := 1 } }

theorem waiting_pending (answers : List Record) (h : answers.length < 2 ^ 16) :
    Pending (hostId (responseWith answers h)) waiting :=
  ⟨{ task := 0 }, List.mem_singleton_self _, rfl⟩

/-- An alias, and the address behind it. -/
def aliased : Response :=
  responseWith [aliasOf firstName [1, 98, 0] (by decide),
    addressOf ⟨[letter 98], .root⟩ [10, 0, 0, 3] rfl] (by decide)

/-- Two addresses. -/
def twofold : Response :=
  responseWith [addressOf firstName [10, 0, 0, 4] rfl, addressOf firstName [10, 0, 0, 5] rfl]
    (by decide)

theorem aliased_understood : Understood aliased := by
  have hletter : ∀ b : UInt8, b ≠ 0 → Findable ⟨[letter b], .root⟩ := by
    intro b hb label hlabel
    obtain rfl := List.mem_singleton.mp hlabel
    exact fun hzero => hb (List.mem_singleton.mp hzero).symm
  have hquestions : ∀ question ∈ aliased.questions, Findable question.name := by
    intro question hquestion
    obtain rfl := List.mem_singleton.mp hquestion
    exact hletter 97 (by decide)
  refine ⟨cuts_of_findable hquestions (.inl rfl), by decide, by decide, ?_⟩
  refine clear_cons_iff.mpr ⟨?_, by decide, by decide, clear_nil _⟩
  exact (skip_encode_iff _).mpr (hletter 98 (by decide))

/-- The alias and the address complete the request. -/
theorem completes_iff_aliased : ∃ es ret t,
    (waiting.handleRead [aliased.encode]).Yields es (ret, t) ∧ Completes aliased waiting t es := by
  refine ((completes_iff (waiting_pending _ _)).2 aliased_understood ?_).mpr ⟨[_], _, rfl, ?_, rfl⟩
  · decide
  · intro b hb
    obtain rfl := List.mem_singleton.mp hb
    decide

/-- Two addresses do not complete the request. -/
theorem second_address_lost : Pending (hostId twofold) waiting ∧ twofold.addresses.length = 2 ∧
    ¬ ∃ es ret t, (waiting.handleRead [twofold.encode]).Yields es (ret, t) ∧
      Completes twofold waiting t es := by
  have hpending : Pending (hostId twofold) waiting := waiting_pending _ _
  refine ⟨hpending, rfl, ?_⟩
  rintro ⟨es, ret, t, hyields, hcompletes⟩
  obtain ⟨addr, haddr, -⟩ := lastAddress_of_completes hpending hyields hcompletes
  have hone : twofold.addresses.length = 1 := by rw [haddr, List.length_singleton]
  exact absurd hone (by decide)

end Ndsl.Proofs.Dns
