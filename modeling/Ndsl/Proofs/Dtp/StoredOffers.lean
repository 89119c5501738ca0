import Ndsl.Lib.Maps
import Ndsl.Net.StoredOffers
import Ndsl.Proofs.Dtp.Agree

/-!
# `Ndsl.Proofs.Dtp.StoredOffers`: the messages that a client remembers are there

Of the functions that make a message, four delete it, and of their messages `analysisProtobuf`
remembers one kind: the notice of `recvUdpDataCallback` that a datagram has arrived. `live_iff` says
that every pointer of `mp_` leads to a message that was not deleted, in every run in which no
`recvUdpDataCallback` returns while its message is remembered; and the return of one of which the
message is remembered leaves a pointer to a deleted message.

`Inv` is the invariant. Beside the claim for `mp_`, it says of the calls that have begun that their
messages are there, and are not remembered when the call is going to delete them.
-/

set_option autoImplicit false

namespace Ndsl.Proofs.StoredOffers

open Ndsl.Lib
open Ndsl.Net.Dtp
open Ndsl.Net.Dtp.Stored (Func Makes Op)

/-! ### The pointers and the messages -/

/-- What the pointers of `mp_` lead to, whether it was deleted or not. -/
def content (s : Stored) : List UInt8 → Option ControlMsg :=
  fun key => (s.mp_ key).bind fun ptr => s.msgs[ptr]?

/-- Every message that is remembered was not deleted. -/
def Live (s : Stored) : Prop :=
  ∀ key ptr, s.mp_ key = some ptr → ptr ∉ s.deleted

/-- A successful `recvUdpDataCallback` does not return while its message is remembered. -/
def Careful (s : Stored) : Op → Prop
  | .returns => ∀ ptr calls, s.calls = .notice .recvUdpDataCallback ptr :: calls →
      ∀ key, s.mp_ key ≠ some ptr
  | _ => True

/-- A possible step that is careful. -/
def Meets (s : Stored) (op : Op) : Prop := s.Possible op ∧ Careful s op

/-- The messages of the calls that have begun. -/
def running (calls : List Stored.Call) : List MsgPtr :=
  calls.filterMap fun
    | .notice _ ptr => some ptr
    | .agree _ => none

/-- The invariant. -/
structure Inv (s : Stored) : Prop where
  live : Live s
  made : ∀ key ptr, s.mp_ key = some ptr → ptr < s.msgs.length
  dead : ∀ ptr ∈ s.deleted, ptr < s.msgs.length
  there : ∀ ptr ∈ running s.calls, ptr < s.msgs.length ∧ ptr ∉ s.deleted
  nodup : (running s.calls).Nodup
  /-- A call that is going to delete its message, and is not the one in question, has not stored
  it. -/
  apart : ∀ func ptr, .notice func ptr ∈ s.calls → func.deletes = true →
    func ≠ .recvUdpDataCallback → ∀ key, s.mp_ key ≠ some ptr

/-- What a function that deletes its message makes is not remembered, except for one. -/
theorem keyOf_deleted {func : Func} {msg : ControlMsg} (h : Makes func msg)
    (hdeletes : func.deletes = true) (hudp : func ≠ .recvUdpDataCallback) :
    DTPClient.keyOf msg = none := by
  cases h with
  | solve => cases hdeletes
  | analysis => cases hdeletes
  | handleRecvfileFail => cases hdeletes
  | sendFileCallback => rfl
  | recvFileFail => rfl
  | recvFileSucc => rfl
  | sendDataCallback => rfl
  | recvRdmaDataFail => cases hdeletes
  | recvDataFail => cases hdeletes
  | recvDataSucc => cases hdeletes
  | recvUdpDataFail => exact absurd rfl hudp
  | recvUdpDataSucc => exact absurd rfl hudp

section
variable {s s' : Stored} {es : List (Access MsgPtr)}

/-- What `analysisProtobuf` of a new message does. -/
theorem analysisProtobuf_cases {func : Func} {msg : ControlMsg}
    (h : (s.analysisProtobuf func msg).Yields es s') :
    es = [.use s.msgs.length] ∧ ∃ mp_,
      s' = { s with
        mp_ := mp_, msgs := s.msgs ++ [msg], calls := .notice func s.msgs.length :: s.calls } ∧
      (mp_ = s.mp_ ∧ (s.noticeCallback_ = none ∨ DTPClient.keyOf msg = none) ∨
        ∃ key, s.noticeCallback_ ≠ none ∧ DTPClient.keyOf msg = some key ∧
          mp_ = Function.update s.mp_ key ((s.mp_ key).or (some s.msgs.length))) := by
  unfold Stored.analysisProtobuf at h
  rw [Traced.tell_bind_yields] at h
  obtain ⟨fs, h, rfl⟩ := h
  dsimp only at h
  split at h
  case h_1 hcb =>
    obtain ⟨rfl, rfl⟩ := (Traced.pure_yields ..).mp h
    exact ⟨rfl, s.mp_, rfl, .inl ⟨rfl, .inl hcb⟩⟩
  case h_2 cb hcb =>
    split at h
    case h_1 hkey =>
      obtain ⟨rfl, rfl⟩ := (Traced.pure_yields ..).mp h
      exact ⟨rfl, s.mp_, rfl, .inl ⟨rfl, .inr hkey⟩⟩
    case h_2 key hkey =>
      obtain ⟨rfl, rfl⟩ := (Traced.pure_yields ..).mp h
      exact ⟨rfl, _, rfl, .inr ⟨key, hcb ▸ Option.some_ne_none cb, hkey, rfl⟩⟩

/-- What an agreement does. -/
theorem agree_cases {key : List UInt8} (h : (s.agree key).Yields es s') :
    (s.mp_ key = none ∧ es = [] ∧ s' = s) ∨
      ∃ ptr, s.mp_ key = some ptr ∧ es = [.use ptr] ∧
        s' = { s with calls := .agree key :: s.calls } := by
  unfold Stored.agree at h
  split at h
  · next hnone =>
      obtain ⟨rfl, rfl⟩ := (Traced.pure_yields ..).mp h
      exact .inl ⟨hnone, rfl, rfl⟩
  · next ptr hptr =>
      obtain ⟨rfl, rfl⟩ := (Traced.tell_pure_yields ..).mp h
      exact .inr ⟨ptr, hptr, rfl, rfl⟩

/-- What a return does. -/
theorem returns_cases (h : s.returns.Yields es s') :
    (s.calls = [] ∧ es = [] ∧ s' = s) ∨
    (∃ func ptr calls, s.calls = .notice func ptr :: calls ∧
      (func.deletes = true ∧ es = [.delete ptr] ∧
          s' = { s with deleted := ptr :: s.deleted, calls := calls } ∨
        func.deletes = false ∧ es = [] ∧ s' = { s with calls := calls })) ∨
    ∃ key calls, s.calls = .agree key :: calls ∧ es = [] ∧
      s' = { s with mp_ := Function.update s.mp_ key none, calls := calls } := by
  unfold Stored.returns at h
  split at h
  case h_1 hcalls =>
    obtain ⟨rfl, rfl⟩ := (Traced.pure_yields ..).mp h
    exact .inl ⟨hcalls, rfl, rfl⟩
  case h_2 func ptr calls hcalls =>
    refine .inr (.inl ⟨func, ptr, calls, hcalls, ?_⟩)
    split at h
    · next hdeletes =>
        obtain ⟨rfl, rfl⟩ := (Traced.tell_pure_yields ..).mp h
        exact .inl ⟨hdeletes, rfl, rfl⟩
    · next hdeletes =>
        obtain ⟨rfl, rfl⟩ := (Traced.pure_yields ..).mp h
        exact .inr ⟨eq_false_of_ne_true hdeletes, rfl, rfl⟩
  case h_3 key calls hcalls =>
    obtain ⟨rfl, rfl⟩ := (Traced.pure_yields ..).mp h
    exact .inr (.inr ⟨key, calls, hcalls, rfl, rfl⟩)

/-! ### What is remembered -/

/-- A client with the messages in the place of the pointers remembers the same after a message. -/
theorem content_analysisProtobuf {func : Func} {msg : ControlMsg} {cb : Nat}
    {client client' : DTPClient} {acts : List Act} (hcb : s.noticeCallback_ = some cb)
    (hmade : ∀ key ptr, s.mp_ key = some ptr → ptr < s.msgs.length)
    (hclient : client.noticeCallback_ = some cb) (hmp : client.mp_ = content s)
    (hstep : (s.analysisProtobuf func msg).Yields es s')
    (h : (client.analysisProtobuf msg).Yields acts client') : client'.mp_ = content s' := by
  funext x
  rw [(DtpClient.step_mp (e := .message msg) (x := x) hclient h).2, hmp]
  obtain ⟨-, mp_, rfl, hentry⟩ := analysisProtobuf_cases hstep
  -- the old pointers lead where they did
  have hold : ((s.mp_ x).bind fun ptr => (s.msgs ++ [msg])[ptr]?) = content s x := by
    unfold content
    cases hx : s.mp_ x with
    | none => rfl
    | some ptr => exact List.getElem?_append_left (hmade x ptr hx)
  show DtpClient.standingStep x (content s x) (.message msg)
    = (mp_ x).bind fun ptr => (s.msgs ++ [msg])[ptr]?
  obtain ⟨rfl, hnone | hkey⟩ | ⟨key, -, hkey, rfl⟩ := hentry
  · exact absurd (hcb.symm.trans hnone) (Option.some_ne_none cb)
  · rw [hold, DtpClient.standingStep, hkey, if_neg (Option.some_ne_none x).symm]
  · simp only [DtpClient.standingStep, hkey, Option.some.injEq]
    by_cases hx : key = x
    · subst hx
      rw [if_pos rfl, Function.update_self, ← hold]
      cases hkey : s.mp_ key with
      | none => simp
      | some ptr =>
          have hptr := hmade key ptr hkey
          simp [List.getElem?_append_left hptr, List.getElem?_eq_getElem hptr]
    · rw [if_neg hx, Function.update_of_ne (Ne.symm hx), hold]

/-- The same after an agreement. -/
theorem content_agree {key : List UInt8} {calls : List Stored.Call} {client : DTPClient}
    (hmp : client.mp_ = content s) :
    (client.erase key).mp_
      = content { s with mp_ := Function.update s.mp_ key none, calls := calls } := by
  funext x
  rw [DtpClient.erase_mp, hmp]
  unfold content
  by_cases hx : key = x
  · subst hx
    rw [if_pos rfl]
    simp only [Function.update_self, Option.bind_none]
  · rw [if_neg hx]
    simp only [Function.update_of_ne (Ne.symm hx)]

/-! ### What a step preserves -/

@[simp] theorem running_notice (func : Func) (ptr : MsgPtr) (calls : List Stored.Call) :
    running (.notice func ptr :: calls) = ptr :: running calls := rfl

@[simp] theorem running_agree (key : List UInt8) (calls : List Stored.Call) :
    running (.agree key :: calls) = running calls := rfl

/-- Nothing is remembered and nothing runs. -/
theorem inv_new (noticeCallback_ : Option Nat) : Inv { noticeCallback_ := noticeCallback_ } where
  live := fun _ _ h => absurd h.symm (Option.some_ne_none _)
  made := fun _ _ h => absurd h.symm (Option.some_ne_none _)
  dead := fun _ h => absurd h List.not_mem_nil
  there := fun _ h => absurd h List.not_mem_nil
  nodup := List.nodup_nil
  apart := fun _ _ h => absurd h List.not_mem_nil

/-- A message is made and `analysisProtobuf` is called. -/
theorem Inv.enter {func : Func} {msg : ControlMsg} (h : Inv s) (hmakes : Makes func msg)
    (hstep : (s.analysisProtobuf func msg).Yields es s') : Inv s' := by
  obtain ⟨-, mp_, rfl, hmp⟩ := analysisProtobuf_cases hstep
  -- a pointer that is remembered now was remembered, or is the new one
  have hold : ∀ key ptr, mp_ key = some ptr → s.mp_ key = some ptr ∨ ptr = s.msgs.length := by
    intro key ptr hptr
    obtain ⟨rfl, -⟩ | ⟨key', -, -, rfl⟩ := hmp
    · exact .inl hptr
    · exact (Maps.insert_cases hptr).imp_right fun h => h.2.2
  have hgrow : s.msgs.length < (s.msgs ++ [msg]).length := by
    rw [List.length_append]
    exact Nat.lt_succ_self _
  refine ⟨fun key ptr hptr hdead => ?_, fun key ptr hptr => ?_, fun ptr hdead => ?_,
    fun ptr hmem => ?_, ?_, fun func' ptr hmem hdeletes hudp key hptr => ?_⟩
  · obtain hptr | rfl := hold key ptr hptr
    · exact h.live key ptr hptr hdead
    · exact absurd (h.dead _ hdead) (Nat.lt_irrefl _)
  · obtain hptr | rfl := hold key ptr hptr
    · exact (h.made key ptr hptr).trans hgrow
    · exact hgrow
  · exact (h.dead ptr hdead).trans hgrow
  · obtain rfl | hmem := List.mem_cons.mp hmem
    · exact ⟨hgrow, fun hdead => absurd (h.dead _ hdead) (Nat.lt_irrefl _)⟩
    · have := h.there ptr hmem
      exact ⟨this.1.trans hgrow, this.2⟩
  · refine List.nodup_cons.mpr ⟨fun hmem => ?_, h.nodup⟩
    exact absurd (h.there _ hmem).1 (Nat.lt_irrefl _)
  · obtain heq | hmem := List.mem_cons.mp hmem
    · -- the new message itself: a function that is going to delete it made it without a key
      obtain ⟨rfl, rfl⟩ := Stored.Call.notice.inj heq
      have hkey := keyOf_deleted hmakes hdeletes hudp
      obtain ⟨rfl, -⟩ | ⟨key', -, hsome, -⟩ := hmp
      · exact absurd (h.made key _ hptr) (Nat.lt_irrefl _)
      · exact Option.some_ne_none key' (hsome.symm.trans hkey)
    · obtain hptr | rfl := hold key ptr hptr
      · exact h.apart func' ptr hmem hdeletes hudp key hptr
      · -- a call that ran before cannot have the new message
        have hrun : s.msgs.length ∈ running s.calls :=
          List.mem_filterMap.mpr ⟨_, hmem, rfl⟩
        exact absurd (h.there _ hrun).1 (Nat.lt_irrefl _)

/-- A call is over, and perhaps an entry is taken out. -/
theorem Inv.pop {call : Stored.Call} {calls : List Stored.Call}
    {mp_ : List UInt8 → Option MsgPtr} (h : Inv s)
    (hcalls : s.calls = call :: calls)
    (hmp : ∀ key ptr, mp_ key = some ptr → s.mp_ key = some ptr) :
    Inv { s with mp_ := mp_, calls := calls } := by
  have hrunning : (running calls).Sublist (running s.calls) := by
    rw [hcalls]
    exact (List.sublist_cons_self call calls).filterMap _
  exact {
    live := fun key ptr hptr => h.live key ptr (hmp key ptr hptr)
    made := fun key ptr hptr => h.made key ptr (hmp key ptr hptr)
    dead := h.dead
    there := fun ptr hmem => h.there ptr (hrunning.subset hmem)
    nodup := h.nodup.sublist hrunning
    apart := fun func ptr hmem hdeletes hudp key hptr =>
      h.apart func ptr (hcalls ▸ List.mem_cons_of_mem _ hmem) hdeletes hudp key
        (hmp key ptr hptr) }

/-- A call is over that deletes its message, which is not remembered. -/
theorem Inv.delete {func : Func} {ptr : MsgPtr} {calls : List Stored.Call} (h : Inv s)
    (hcalls : s.calls = .notice func ptr :: calls) (hfree : ∀ key, s.mp_ key ≠ some ptr) :
    Inv { s with deleted := ptr :: s.deleted, calls := calls } := by
  have hnodup := h.nodup
  have hthere := h.there
  rw [hcalls, running_notice] at hnodup hthere
  have hpop := h.pop hcalls (fun _ _ hptr => hptr)
  refine ⟨fun key p hp hdead => ?_, hpop.made, fun p hdead => ?_, fun p hmem => ?_, hpop.nodup,
    hpop.apart⟩
  · obtain rfl | hdead := List.mem_cons.mp hdead
    · exact hfree key hp
    · exact h.live key p hp hdead
  · obtain rfl | hdead := List.mem_cons.mp hdead
    · exact (hthere p (List.mem_cons_self ..)).1
    · exact h.dead p hdead
  · refine ⟨(hpop.there p hmem).1, fun hdead => ?_⟩
    obtain rfl | hdead := List.mem_cons.mp hdead
    · exact (List.nodup_cons.mp hnodup).1 hmem
    · exact (hpop.there p hmem).2 hdead

/-- The message of a call that is going to delete it is not remembered when the call is careful. -/
theorem Inv.free {func : Func} {ptr : MsgPtr} {calls : List Stored.Call} (h : Inv s)
    (hcalls : s.calls = .notice func ptr :: calls) (hdeletes : func.deletes = true)
    (hcareful : Careful s .returns) : ∀ key, s.mp_ key ≠ some ptr := by
  -- the other functions made their message without a key
  by_cases hudp : func = .recvUdpDataCallback
  · exact hcareful ptr calls (hudp ▸ hcalls)
  · exact h.apart func ptr (hcalls ▸ List.mem_cons_self ..) hdeletes hudp

/-- A careful step keeps the invariant. -/
theorem Inv.step {op : Op} (h : Inv s) (hmeets : Meets s op) (hstep : (s.step op).Yields es s') :
    Inv s' := by
  have hagree : ∀ key, (s.agree key).Yields es s' → Inv s' := by
    intro key hstep
    obtain ⟨-, -, rfl⟩ | ⟨ptr, -, -, rfl⟩ := agree_cases hstep
    · exact h
    · refine ⟨h.live, h.made, h.dead, h.there, h.nodup, fun func p hmem => ?_⟩
      obtain heq | hmem := List.mem_cons.mp hmem
      · exact Stored.Call.noConfusion heq
      · exact h.apart func p hmem
  cases op with
  | analysisProtobuf func msg => exact h.enter hmeets.1 hstep
  | agreeRecvFile fileName => exact hagree fileName hstep
  | agreeRecvData dataId => exact hagree dataId hstep
  | returns =>
      obtain ⟨-, -, rfl⟩ | ⟨func, ptr, calls, hcalls, hfunc⟩ | ⟨key, calls, hcalls, -, rfl⟩ :=
        returns_cases hstep
      · exact h
      · obtain ⟨hdeletes, -, rfl⟩ | ⟨-, -, rfl⟩ := hfunc
        · exact h.delete hcalls (h.free hcalls hdeletes hmeets.2)
        · exact h.pop hcalls (fun _ _ hptr => hptr)
      · refine h.pop hcalls (fun key' ptr hptr => ?_)
        by_cases hkey : key' = key
        · rw [hkey, Function.update_self] at hptr
          exact absurd hptr.symm (Option.some_ne_none ptr)
        · rwa [Function.update_of_ne hkey] at hptr

/-- What a step does to the messages is done to one that is there. -/
theorem Inv.access {op : Op} (h : Inv s) (hstep : (s.step op).Yields es s') :
    es = [] ∧ s'.deleted = s.deleted ∨
      ∃ x, es = [x] ∧ x.object ∉ s.deleted ∧ s'.deleted = Access.deleted [x] ++ s.deleted := by
  have hagree : ∀ key, (s.agree key).Yields es s' → es = [] ∧ s'.deleted = s.deleted ∨
      ∃ x, es = [x] ∧ x.object ∉ s.deleted ∧ s'.deleted = Access.deleted [x] ++ s.deleted := by
    intro key hstep
    obtain ⟨-, rfl, rfl⟩ | ⟨ptr, hptr, rfl, rfl⟩ := agree_cases hstep
    · exact .inl ⟨rfl, rfl⟩
    · exact .inr ⟨.use ptr, rfl, h.live key ptr hptr, rfl⟩
  cases op with
  | analysisProtobuf func msg =>
      obtain ⟨rfl, mp_, rfl, -⟩ := analysisProtobuf_cases hstep
      exact .inr ⟨.use s.msgs.length, rfl, fun hdead =>
        absurd (h.dead _ hdead) (Nat.lt_irrefl _), rfl⟩
  | agreeRecvFile fileName => exact hagree fileName hstep
  | agreeRecvData dataId => exact hagree dataId hstep
  | returns =>
      obtain ⟨-, rfl, rfl⟩ | ⟨func, ptr, calls, hcalls, hfunc⟩ | ⟨key, calls, -, rfl, rfl⟩ :=
        returns_cases hstep
      · exact .inl ⟨rfl, rfl⟩
      · obtain ⟨-, rfl, rfl⟩ | ⟨-, rfl, rfl⟩ := hfunc
        · have hmem : ptr ∈ running s.calls := by
            rw [hcalls, running_notice]
            exact List.mem_cons_self ..
          exact .inr ⟨.delete ptr, rfl, (h.there ptr hmem).2, rfl⟩
        · exact .inl ⟨rfl, rfl⟩
      · exact .inl ⟨rfl, rfl⟩

/-- A return that is not careful leaves a pointer to a message that it has deleted. -/
theorem not_live_of_not_careful {op : Op} (hcareful : ¬ Careful s op)
    (hstep : (s.step op).Yields es s') : ¬ Live s' := by
  cases op with
  | analysisProtobuf func msg => exact absurd trivial hcareful
  | agreeRecvFile fileName => exact absurd trivial hcareful
  | agreeRecvData dataId => exact absurd trivial hcareful
  | returns =>
      unfold Careful at hcareful
      push Not at hcareful
      obtain ⟨ptr, calls, hcalls, key, hptr⟩ := hcareful
      obtain ⟨hnil, -⟩ | ⟨func, p, calls', hcalls', hfunc⟩ | ⟨key', calls', hcalls', -⟩ :=
        returns_cases hstep
      · exact absurd (hcalls.symm.trans hnil) (List.cons_ne_nil _ _)
      · obtain ⟨heq, rfl⟩ := List.cons.inj (hcalls.symm.trans hcalls')
        obtain ⟨rfl, rfl⟩ := Stored.Call.notice.inj heq
        obtain ⟨-, -, rfl⟩ | ⟨hkeeps, -⟩ := hfunc
        · exact fun hlive => hlive key ptr hptr (List.mem_cons_self ..)
        · exact Bool.noConfusion hkeeps
      · exact Stored.Call.noConfusion (List.cons.inj (hcalls.symm.trans hcalls')).1

end

/-! ### Runs -/

/-- The invariant holds in every state that careful steps lead to. -/
theorem run_inv {noticeCallback_ : Option Nat} {ops : List Op} {log : List (Access MsgPtr)}
    {s : Stored}
    (h : Traced.Run Stored.step Meets { noticeCallback_ := noticeCallback_ } ops log s) :
    Inv s :=
  h.invariant (P := fun _ _ s => Inv s) (inv_new noticeCallback_)
    fun _ _ _ _ _ _ hinv hmeets hstep => hinv.step hmeets hstep

/-- In such a run every agreement works on a message that is there, and none is deleted twice. -/
theorem run_safe {noticeCallback_ : Option Nat} {ops : List Op} {log : List (Access MsgPtr)}
    {s : Stored}
    (h : Traced.Run Stored.step Meets { noticeCallback_ := noticeCallback_ } ops log s) :
    Access.Safe log := by
  refine (h.invariant (P := fun _ log s => Inv s ∧ Access.Safe log ∧
    ∀ ptr ∈ Access.deleted log, ptr ∈ s.deleted) ⟨inv_new noticeCallback_, Access.safe_nil,
      fun _ hmem => absurd hmem List.not_mem_nil⟩ ?_).2.1
  rintro ops log s op es s' ⟨hinv, hsafe, hdead⟩ hmeets hstep
  refine ⟨hinv.step hmeets hstep, ?_⟩
  obtain ⟨rfl, hsame⟩ | ⟨x, rfl, hthere, hafter⟩ := hinv.access hstep
  · rw [List.append_nil, hsame]
    exact ⟨hsafe, hdead⟩
  · rw [Access.deleted_append, hafter]
    refine ⟨Access.safe_append.mpr ⟨hsafe, fun hmem => hthere (hdead _ hmem), trivial⟩,
      fun ptr hmem => ?_⟩
    obtain hmem | hmem := List.mem_append.mp hmem
    · exact List.mem_append_right _ (hdead ptr hmem)
    · exact List.mem_append_left _ hmem

/-- Every message that is remembered is there, in every state of a run in which no
`recvUdpDataCallback` returns while its message is remembered. A return of another kind is the only
step that breaks this. -/
theorem live_iff {noticeCallback_ : Option Nat} {ops : List Op} {log : List (Access MsgPtr)}
    {s : Stored}
    (hrun : Traced.Run Stored.step Meets { noticeCallback_ := noticeCallback_ } ops log s) :
    Live s ∧ ∀ op es s', s.Possible op → (s.step op).Yields es s' → (Live s' ↔ Careful s op) := by
  have hinv := run_inv hrun
  refine ⟨hinv.live, fun op es s' hpossible hstep => ⟨fun hlive => ?_, fun hcareful => ?_⟩⟩
  · by_contra hcareful
    exact not_live_of_not_careful hcareful hstep hlive
  · exact (hinv.step ⟨hpossible, hcareful⟩ hstep).live

/-- The notice that a datagram has arrived. -/
def arrived : ControlMsg := RecvData.makeDataNoticeMsg RECVDATASUCC [0x64]

theorem makes_arrived : Makes .recvUdpDataCallback arrived := .recvUdpDataSucc [0x64]

/-- A client that remembers the notice, while its function has not returned. -/
theorem live_arrived :
    ∃ log s, Traced.Run Stored.step Meets { noticeCallback_ := some 1 }
        ([] ++ [.analysisProtobuf .recvUdpDataCallback arrived]) log s ∧
      s.mp_ [0x64] = some 0 ∧ Live s := by
  obtain ⟨es, s, hstep, hptr⟩ : ∃ es s, (Stored.step { noticeCallback_ := some 1 }
      (.analysisProtobuf .recvUdpDataCallback arrived)).Yields es s ∧ s.mp_ [0x64] = some 0 :=
    ⟨_, _, ⟨rfl, rfl⟩, rfl⟩
  have hmeets : Meets { noticeCallback_ := some 1 }
      (.analysisProtobuf .recvUdpDataCallback arrived) := ⟨makes_arrived, trivial⟩
  have hrun := Traced.Run.snoc .nil hmeets hstep
  exact ⟨_, s, hrun, hptr, (live_iff hrun).1⟩

/-- A datagram has arrived, and the user is told. The message stays in the map when it is
deleted. -/
theorem arrived_not_live :
    ∃ log s, Traced.Run Stored.step Stored.Possible { noticeCallback_ := some 1 }
        ([] ++ [.analysisProtobuf .recvUdpDataCallback arrived] ++ [.returns]) log s ∧
      ¬ Live s := by
  have hbegin : (Stored.step { noticeCallback_ := some 1 }
      (.analysisProtobuf .recvUdpDataCallback arrived)).Yields _ _ := ⟨rfl, rfl⟩
  have hpossible : Stored.Possible { noticeCallback_ := some 1 }
      (.analysisProtobuf .recvUdpDataCallback arrived) := makes_arrived
  have hrun := Traced.Run.snoc .nil hpossible hbegin
  refine ⟨_, _, hrun.snoc (List.cons_ne_nil _ _) ⟨rfl, rfl⟩, fun hlive => ?_⟩
  exact hlive [0x64] 0 (by decide) (by decide)

end Ndsl.Proofs.StoredOffers
