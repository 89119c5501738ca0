import Ndsl.Net.NoticeParam

/-!
# `Ndsl.Proofs.Dtp.NoticeParam`: what the parameter of a notice points to

The user gives a parameter for the notices. For an offer of data it is to be a pointer to the
length of the data instead, for this one notice. `preserves_iff` says that the notices of a run are
as they are to be exactly when no offer of data was processed, or when there is no callback: the
variable that holds the length is gone when the callback is called, and the pointer to it stays for
all later notices.

The proof is one invariant. `Kept` says that every notice came with the parameter of the user, or
with the address of a variable whose block had ended before.
-/

set_option autoImplicit false

namespace Ndsl.Proofs.DtpClient

open Ndsl.Lib
open Ndsl.Net.Dtp

/-! ### The variables change nothing else -/

/-- What a parameter leads to. -/
def resolve : Param → NoticeParam
  | .user p => .user p
  | .length _ value => .length value

/-- The client without its variables. -/
def unscoped (s : Scoped) : DTPClient :=
  { mp_ := s.mp_
    noticeCallback_ := s.noticeCallback_
    noticeParam_ := resolve s.noticeParam_
    udpDataMp_ := s.udpDataMp_ }

/-- What the user and the peer see. -/
def unscopedActs : Scoped.Event → List Act
  | .declare .. => []
  | .leave _ => []
  | .overrun => [.overrun]
  | .notice msg name param => [.notice msg.flag name (resolve param)]
  | .sendDataOnUdp ip port info => [.sendDataOnUdp ip port info]

section
variable {msg : ControlMsg} {s s' : Scoped} {es : List Scoped.Event}

theorem view_notify (msg : ControlMsg) (s : Scoped) :
    (s.notify msg).view unscopedActs unscoped = DTPClient.notify msg (unscoped s) := by
  unfold Scoped.notify DTPClient.notify
  cases hcb : s.noticeCallback_ with
  | none => simp [unscoped, hcb, Traced.view, Traced.ext_iff]
  | some cb =>
      cases hkey : DTPClient.keyOf msg with
      | none => simp [unscoped, hcb, Traced.view, unscopedActs, Traced.ext_iff]
      | some key =>
          have hcopy : (overrun Scoped.Event.overrun FILEPATHSIZE (cstring key)).flatMap
              unscopedActs = overrun .overrun FILEPATHSIZE (cstring key) := by
            unfold overrun
            split <;> rfl
          simp [hcopy, unscoped, hcb, DTPClient.copyName, Traced.view, unscopedActs,
            DTPClient.insert, Traced.ext_iff, Traced.bind_assoc]

/-- Without its variables, a client does what it does with them. -/
theorem view_analysisProtobuf (msg : ControlMsg) (s : Scoped) :
    (s.analysisProtobuf msg).view unscopedActs unscoped
      = (unscoped s).analysisProtobuf msg := by
  unfold Scoped.analysisProtobuf DTPClient.analysisProtobuf
  split
  · exact view_notify msg { s with
      noticeParam_ := .length s.declared msg.length, declared := s.declared + 1 }
  · split
    · cases hinfo : s.udpDataMp_ msg.dataId with
      | none => simp [unscoped, hinfo, Traced.view, Traced.ext_iff]
      | some info => simp [unscoped, hinfo, Traced.view, unscopedActs, Traced.ext_iff]
    · exact view_notify msg s

/-! ### What a step does -/

/-- The client when the block of the variable has ended, and what has happened until then. -/
def entered (msg : ControlMsg) (s : Scoped) : List Scoped.Event × Scoped :=
  if msg.flag = SENDDATAFLAG then
    ([.declare s.declared msg.length, .leave s.declared],
      { s with noticeParam_ := .length s.declared msg.length, declared := s.declared + 1 })
  else ([], s)

/-- What `notify` does. -/
theorem notify_cases (h : (s.notify msg).Yields es s') :
    (∃ mp_, s' = { s with mp_ := mp_ }) ∧
      (s.noticeCallback_ = none ∧ es = [] ∨
        s.noticeCallback_ ≠ none ∧ ∃ size text name,
          es = overrun .overrun size text ++ [.notice msg name s.noticeParam_]) := by
  unfold Scoped.notify at h
  split at h
  case h_1 hcb =>
    obtain ⟨rfl, rfl⟩ := (Traced.pure_yields ..).mp h
    exact ⟨⟨s.mp_, rfl⟩, .inl ⟨hcb, rfl⟩⟩
  case h_2 cb hcb =>
    have hset : s.noticeCallback_ ≠ none := hcb ▸ Option.some_ne_none cb
    split at h
    case h_1 =>
      obtain ⟨rfl, rfl⟩ := (Traced.tell_pure_yields ..).mp h
      exact ⟨⟨s.mp_, rfl⟩, .inr ⟨hset, 1, [], none, rfl⟩⟩
    case h_2 key _ =>
      obtain ⟨fs, hrest, rfl⟩ := (Traced.tell_bind_yields ..).mp h
      obtain ⟨rfl, rfl⟩ := (Traced.tell_pure_yields ..).mp hrest
      exact ⟨⟨_, rfl⟩, .inr ⟨hset, FILEPATHSIZE, cstring key, some (cstring key), rfl⟩⟩

/-- What `analysisProtobuf` does. -/
theorem analysisProtobuf_cases (h : (s.analysisProtobuf msg).Yields es s') :
    (msg.flag = RECVDATAONUDP ∧ s' = s ∧
      ∃ info, es = [.sendDataOnUdp msg.ip msg.dataPort info]) ∨
    (msg.flag ≠ RECVDATAONUDP ∧ ∃ fs, es = (entered msg s).1 ++ fs ∧
      ((entered msg s).2.notify msg).Yields fs s') := by
  unfold Scoped.analysisProtobuf at h
  split at h
  · next hdata =>
      refine .inr ⟨by rw [hdata]; decide, ?_⟩
      rw [entered, if_pos hdata]
      rw [Traced.tell_bind_yields] at h
      obtain ⟨fs, h, rfl⟩ := h
      rw [Traced.tell_bind_yields] at h
      obtain ⟨gs, h, rfl⟩ := h
      exact ⟨gs, rfl, h⟩
  · next hdata =>
      split at h
      · next hudp =>
          split at h
          · exact absurd h (Traced.fault_yields _ _)
          · next info _ =>
              obtain ⟨rfl, rfl⟩ := (Traced.tell_pure_yields ..).mp h
              exact .inl ⟨hudp, rfl, info, rfl⟩
      · next hudp =>
          refine .inr ⟨hudp, es, ?_⟩
          rw [entered, if_neg hdata]
          exact ⟨rfl, h⟩

/-- Where the notices of a client come from. -/
theorem analysisProtobuf_notices (h : (s.analysisProtobuf msg).Yields es s') :
    s'.noticeCallback_ = s.noticeCallback_ ∧
      (msg.flag = SENDDATAFLAG ∨ s'.noticeParam_ = s.noticeParam_) ∧
      ∀ msg' name param, .notice msg' name param ∈ es →
        msg' = msg ∧ param = s'.noticeParam_ ∧ s.noticeCallback_ ≠ none := by
  obtain ⟨-, rfl, info, rfl⟩ | ⟨-, fs, rfl, hnotify⟩ := analysisProtobuf_cases h
  · refine ⟨rfl, .inr rfl, fun msg' name param hmem => ?_⟩
    simp only [List.mem_singleton, reduceCtorEq] at hmem
  · obtain ⟨⟨mp_, rfl⟩, htold⟩ := notify_cases hnotify
    have hentered : (entered msg s).2.noticeCallback_ = s.noticeCallback_ := by
      unfold entered
      split <;> rfl
    refine ⟨hentered, ?_, fun msg' name param hmem => ?_⟩
    · by_cases hdata : msg.flag = SENDDATAFLAG
      · exact .inl hdata
      · rw [entered, if_neg hdata]
        exact .inr rfl
    · have hquiet : .notice msg' name param ∉ (entered msg s).1 := by
        unfold entered
        split <;> simp
      have hfs := (List.mem_append.mp hmem).resolve_left hquiet
      rw [hentered] at htold
      obtain ⟨-, rfl⟩ | ⟨hcb, size, text, name', rfl⟩ := htold
      · exact absurd hfs List.not_mem_nil
      · obtain hcopy | hnotice := List.mem_append.mp hfs
        · exact Scoped.Event.noConfusion (eq_of_mem_overrun hcopy)
        · obtain ⟨rfl, -, rfl⟩ := Scoped.Event.notice.inj (List.mem_singleton.mp hnotice)
          exact ⟨rfl, rfl, hcb⟩

end

/-! ### What a notice is to come with -/

/-- An offer of a data block, over one of the three transports. -/
def DataOffer (msg : ControlMsg) : Prop :=
  msg.flag = SENDDATAFLAG ∨ msg.flag = SENDDATAONRDMA ∨ msg.flag = SENDDATAONUDP

/-- The parameter that a notice is to come with after some events: a variable that lives and holds
the length, for the messages `offer`, and for the others what the user gave. -/
def RightParam (offer : ControlMsg → Prop) (noticeParam : Nat) (pre : List Scoped.Event)
    (msg : ControlMsg) (param : Param) : Prop :=
  (offer msg → ∃ var, param = .length var msg.length ∧ .declare var msg.length ∈ pre ∧
    .leave var ∉ pre) ∧
  (¬ offer msg → param = .user noticeParam)

/-- Every notice of a run comes with the right parameter. -/
def Preserves (offer : ControlMsg → Prop) (noticeParam : Nat) (log : List Scoped.Event) : Prop :=
  ∀ pre msg name param post, log = pre ++ .notice msg name param :: post →
    RightParam offer noticeParam pre msg param

/-! ### Runs -/

/-- What the user gave, or the address of a variable that is gone. -/
def Behind (noticeParam : Nat) (log : List Scoped.Event) (param : Param) : Prop :=
  param = .user noticeParam ∨ ∃ var value, param = .length var value ∧ .leave var ∈ log

/-- A client and every notice that it gave have such a parameter. -/
structure Kept (noticeParam : Nat) (s : Scoped) (log : List Scoped.Event) : Prop where
  client : Behind noticeParam log s.noticeParam_
  notices : ∀ pre msg name param post, log = pre ++ .notice msg name param :: post →
    Behind noticeParam pre param

section
variable {noticeParam : Nat} {s s' : Scoped} {log es : List Scoped.Event}

theorem Behind.append {param : Param} (h : Behind noticeParam log param)
    (es : List Scoped.Event) : Behind noticeParam (log ++ es) param := by
  obtain h | ⟨var, value, hparam, hleave⟩ := h
  · exact .inl h
  · exact .inr ⟨var, value, hparam, List.mem_append_left _ hleave⟩

/-- Events without notices. -/
theorem Kept.append_quiet {s' : Scoped} (h : Kept noticeParam s log)
    (hquiet : ∀ msg name param, .notice msg name param ∉ es)
    (hparam : Behind noticeParam (log ++ es) s'.noticeParam_) :
    Kept noticeParam s' (log ++ es) := by
  refine ⟨hparam, fun pre msg name param post heq => ?_⟩
  -- the notice does not stand in the new part, so it stands before it
  obtain ⟨as, rfl, hes⟩ | ⟨as, rfl, hlog⟩ := List.append_eq_append_iff.mp heq
  · exact absurd (hes ▸ List.mem_append_right _ (List.mem_cons_self ..)) (hquiet msg name param)
  · cases as with
    | nil =>
        rw [List.nil_append] at hlog
        exact absurd (hlog ▸ List.mem_cons_self ..) (hquiet msg name param)
    | cons e as =>
        obtain ⟨rfl, -⟩ := List.cons.inj hlog
        exact h.notices pre msg name param as rfl

/-- A notice that comes with what the client has. -/
theorem Kept.append_notice (h : Kept noticeParam s log) (msg : ControlMsg)
    (name : Option (List UInt8)) (mp_ : List UInt8 → Option ControlMsg) :
    Kept noticeParam { s with mp_ := mp_ } (log ++ [.notice msg name s.noticeParam_]) := by
  refine ⟨h.client.append _, fun pre msg' name' param post heq => ?_⟩
  obtain rfl | ⟨post', e, rfl⟩ := List.eq_nil_or_concat' post
  · obtain ⟨rfl, hlast⟩ := List.append_inj' heq rfl
    obtain ⟨-, -, rfl⟩ := Scoped.Event.notice.inj (List.singleton_inj.mp hlast)
    exact h.client
  · rw [← List.cons_append, ← List.append_assoc] at heq
    exact h.notices pre msg' name' param post' (List.append_inj' heq rfl).1

/-- The block of the variable begins and ends. -/
theorem Kept.enter (h : Kept noticeParam s log) (msg : ControlMsg) :
    Kept noticeParam (entered msg s).2 (log ++ (entered msg s).1) := by
  refine h.append_quiet (fun msg' name param => ?_) ?_
  · unfold entered
    split <;> simp
  · unfold entered
    split
    · -- the block ends before the callback is called
      exact .inr ⟨s.declared, msg.length, rfl, by simp⟩
    · exact h.client.append []

theorem step_kept {op : Scoped.Op} (h : Kept noticeParam s log)
    (hstep : (s.step op).Yields es s') : Kept noticeParam s' (log ++ es) := by
  cases op with
  | message msg =>
      obtain ⟨-, rfl, info, rfl⟩ | ⟨-, fs, rfl, hnotify⟩ := analysisProtobuf_cases hstep
      · exact h.append_quiet (fun msg' name param => by simp) (h.client.append _)
      · rw [← List.append_assoc]
        have henter := h.enter msg
        obtain ⟨⟨mp_, rfl⟩, ⟨-, rfl⟩ | ⟨-, size, text, name, rfl⟩⟩ := notify_cases hnotify
        · rw [List.append_nil]
          exact ⟨henter.client, henter.notices⟩
        · have hcopy : Kept noticeParam (entered msg s).2
              (log ++ (entered msg s).1 ++ overrun .overrun size text) := by
            refine henter.append_quiet (fun msg' name' param hmem => ?_) (henter.client.append _)
            exact Scoped.Event.noConfusion (eq_of_mem_overrun hmem)
          rw [← List.append_assoc]
          exact hcopy.append_notice msg name mp_
  | agree key =>
      obtain ⟨rfl, rfl⟩ := (Traced.pure_yields ..).mp hstep
      rw [List.append_nil]
      exact ⟨h.client, h.notices⟩
  | sendDataOnUdp dataId info =>
      obtain ⟨rfl, rfl⟩ := (Traced.pure_yields ..).mp hstep
      rw [List.append_nil]
      exact ⟨h.client, h.notices⟩

theorem step_noticeCallback_ {op : Scoped.Op} (hstep : (s.step op).Yields es s') :
    s'.noticeCallback_ = s.noticeCallback_ := by
  cases op with
  | message msg => exact (analysisProtobuf_notices hstep).1
  | agree key => exact ((Traced.pure_yields ..).mp hstep).2 ▸ rfl
  | sendDataOnUdp dataId info => exact ((Traced.pure_yields ..).mp hstep).2 ▸ rfl

/-- A step that processes no offer over TCP keeps the parameter, and notices come with it. -/
theorem step_notices {op : Scoped.Op} (hstep : (s.step op).Yields es s')
    (hop : ∀ msg, op = .message msg → msg.flag ≠ SENDDATAFLAG) :
    s'.noticeParam_ = s.noticeParam_ ∧ ∀ msg name param, .notice msg name param ∈ es →
      op = .message msg ∧ param = s.noticeParam_ := by
  cases op with
  | message msg =>
      obtain ⟨-, hparam, hnotices⟩ := analysisProtobuf_notices hstep
      have hsame := hparam.resolve_left (hop msg rfl)
      refine ⟨hsame, fun msg' name param hmem => ?_⟩
      obtain ⟨rfl, rfl, -⟩ := hnotices msg' name param hmem
      exact ⟨rfl, hsame⟩
  | agree key =>
      obtain ⟨rfl, rfl⟩ := (Traced.pure_yields ..).mp hstep
      exact ⟨rfl, fun _ _ _ hmem => absurd hmem List.not_mem_nil⟩
  | sendDataOnUdp dataId info =>
      obtain ⟨rfl, rfl⟩ := (Traced.pure_yields ..).mp hstep
      exact ⟨rfl, fun _ _ _ hmem => absurd hmem List.not_mem_nil⟩

/-- A client with a callback gives a notice of every message but one kind. -/
theorem step_notice {msg : ControlMsg} (hstep : (s.step (.message msg)).Yields es s')
    (hcb : s.noticeCallback_ ≠ none) (hudp : msg.flag ≠ RECVDATAONUDP) :
    ∃ name param, .notice msg name param ∈ es := by
  obtain ⟨hflag, -⟩ | ⟨-, fs, rfl, hnotify⟩ := analysisProtobuf_cases hstep
  · exact absurd hflag hudp
  · have hentered : (entered msg s).2.noticeCallback_ = s.noticeCallback_ := by
      unfold entered
      split <;> rfl
    obtain ⟨-, ⟨hnone, -⟩ | ⟨-, size, text, name, rfl⟩⟩ := notify_cases hnotify
    · exact absurd (hentered ▸ hnone) hcb
    · exact ⟨name, _, List.mem_append_right _ (List.mem_append_right _ (List.mem_singleton_self _))⟩

/-- Without a callback there are no notices. -/
theorem step_silent {op : Scoped.Op} (hstep : (s.step op).Yields es s')
    (hcb : s.noticeCallback_ = none) (msg : ControlMsg) (name : Option (List UInt8))
    (param : Param) : .notice msg name param ∉ es := by
  intro hmem
  cases op with
  | message msg' => exact ((analysisProtobuf_notices hstep).2.2 _ _ _ hmem).2.2 hcb
  | agree key =>
      obtain ⟨rfl, -⟩ := (Traced.pure_yields ..).mp hstep
      exact List.not_mem_nil hmem
  | sendDataOnUdp dataId info =>
      obtain ⟨rfl, -⟩ := (Traced.pure_yields ..).mp hstep
      exact List.not_mem_nil hmem

end

/-- A client without a callback gives no notices. -/
theorem run_silent {ops : List Scoped.Op} {s s' : Scoped} {log : List Scoped.Event}
    (hcb : s.noticeCallback_ = none) (h : (ops.foldlM Scoped.step s).Yields log s')
    (msg : ControlMsg) (name : Option (List UInt8)) (param : Param) :
    .notice msg name param ∉ log := by
  have hinv := Traced.foldlM_yields_of_nil
    (P := fun t log => t.noticeCallback_ = none ∧ .notice msg name param ∉ log)
    (fun t log op t' es hP hstep => ⟨(step_noticeCallback_ hstep).trans hP.1, fun hmem =>
      (List.mem_append.mp hmem).elim hP.2 (step_silent hstep hP.1 msg name param)⟩)
    ⟨hcb, List.not_mem_nil⟩ h
  exact hinv.2

/-- The notices of a run without offers over TCP come with what the client had before it. -/
theorem run_notices {ops : List Scoped.Op} :
    ∀ {s s' : Scoped} {log : List Scoped.Event}, (ops.foldlM Scoped.step s).Yields log s' →
      (∀ msg, .message msg ∈ ops → msg.flag ≠ SENDDATAFLAG) →
      ∀ msg name param, .notice msg name param ∈ log →
        .message msg ∈ ops ∧ param = s.noticeParam_ := by
  induction ops with
  | nil =>
      intro s s' log h _ msg name param hmem
      obtain ⟨rfl, -⟩ := (Traced.pure_yields ..).mp h
      exact absurd hmem List.not_mem_nil
  | cons op ops ih =>
      intro s s' log h hops msg name param hmem
      rw [List.foldlM_cons, Traced.bind_yields] at h
      obtain ⟨es, mid, fs, hstep, hrest, rfl⟩ := h
      obtain ⟨hparam, hnotices⟩ := step_notices hstep fun msg heq =>
        hops msg (heq ▸ List.mem_cons_self ..)
      obtain hes | hfs := List.mem_append.mp hmem
      · obtain ⟨rfl, rfl⟩ := hnotices msg name param hes
        exact ⟨List.mem_cons_self .., rfl⟩
      · obtain ⟨hmsg, rfl⟩ := ih hrest (fun msg hmsg => hops msg (List.mem_cons_of_mem _ hmsg)) msg
          name param hfs
        exact ⟨List.mem_cons_of_mem _ hmsg, hparam⟩

/-- A run of a client with a callback gives a notice of every message but one kind. -/
theorem run_notice {msg : ControlMsg} (hudp : msg.flag ≠ RECVDATAONUDP) {ops : List Scoped.Op} :
    ∀ {s s' : Scoped} {log : List Scoped.Event}, (ops.foldlM Scoped.step s).Yields log s' →
      s.noticeCallback_ ≠ none → .message msg ∈ ops →
      ∃ name param, .notice msg name param ∈ log := by
  induction ops with
  | nil => exact fun _ _ hmsg => absurd hmsg List.not_mem_nil
  | cons op ops ih =>
      intro s s' log h hcb hmsg
      rw [List.foldlM_cons, Traced.bind_yields] at h
      obtain ⟨es, mid, fs, hstep, hrest, rfl⟩ := h
      obtain rfl | hmsg := List.mem_cons.mp hmsg
      · obtain ⟨name, param, hmem⟩ := step_notice hstep hcb hudp
        exact ⟨name, param, List.mem_append_left _ hmem⟩
      · have hmid : mid.noticeCallback_ ≠ none := (step_noticeCallback_ hstep).symm ▸ hcb
        obtain ⟨name, param, hmem⟩ := ih hrest hmid hmsg
        exact ⟨name, param, List.mem_append_right _ hmem⟩

/-- The notices of a run are right exactly when nothing was processed that counts as an offer of
data, or when there is no callback. What counts as an offer is to be given a pointer to its length;
it includes the offers over TCP. -/
theorem preserves_iff_of {offer : ControlMsg → Prop} {noticecb : Option Nat} {noticeParam : Nat}
    {ops : List Scoped.Op} {log : List Scoped.Event} {s : Scoped}
    (htcp : ∀ msg, msg.flag = SENDDATAFLAG → offer msg)
    (hudp : ∀ msg, offer msg → msg.flag ≠ RECVDATAONUDP)
    (hrun : (ops.foldlM Scoped.step (.new noticecb noticeParam)).Yields log s) :
    Preserves offer noticeParam log ↔
      noticecb = none ∨ ∀ msg, .message msg ∈ ops → ¬ offer msg := by
  constructor
  · intro h
    by_contra hcon
    obtain ⟨hcb, hoffer⟩ := not_or.mp hcon
    push Not at hoffer
    obtain ⟨msg, hmsg, hoffer⟩ := hoffer
    -- the notice of the offer comes with a parameter that is wrong
    obtain ⟨name, param, hmem⟩ := run_notice (hudp msg hoffer) hrun hcb hmsg
    obtain ⟨pre, post, rfl⟩ := List.append_of_mem hmem
    obtain ⟨var, hparam, -, halive⟩ := (h pre msg name param post rfl).1 hoffer
    have hkept := Traced.foldlM_yields_of_nil (P := fun t log => Kept noticeParam t log)
      (fun t log op t' es hP hstep => step_kept hP hstep)
      ⟨.inl rfl, fun pre msg name param post heq =>
        absurd heq.symm (List.append_ne_nil_of_right_ne_nil _ (List.cons_ne_nil _ _))⟩ hrun
    obtain huser | ⟨var', value, hvar, hleave⟩ := hkept.notices pre msg name param post rfl
    · exact Param.noConfusion (huser.symm.trans hparam)
    · obtain ⟨rfl, -⟩ := Param.length.inj (hvar.symm.trans hparam)
      exact halive hleave
  · rintro h pre msg name param post rfl
    have hmem : .notice msg name param ∈ pre ++ .notice msg name param :: post :=
      List.mem_append_right _ (List.mem_cons_self ..)
    cases h with
    | inl hnone => exact absurd hmem (run_silent (s := .new noticecb noticeParam) hnone hrun _ _ _)
    | inr hquiet =>
        obtain ⟨hmsg, rfl⟩ := run_notices hrun (fun msg hmsg hflag =>
          hquiet msg hmsg (htcp msg hflag)) msg name param hmem
        exact ⟨fun hoffer => absurd hoffer (hquiet msg hmsg), fun _ => rfl⟩

/-- The parameter of the user is preserved in a run exactly when no offer of a data block was
processed, or when there is no callback. -/
theorem preserves_iff {noticecb : Option Nat} {noticeParam : Nat} {ops : List Scoped.Op}
    {log : List Scoped.Event} {s : Scoped}
    (hrun : (ops.foldlM Scoped.step (.new noticecb noticeParam)).Yields log s) :
    Preserves DataOffer noticeParam log ↔
      noticecb = none ∨ ∀ msg, .message msg ∈ ops → ¬ DataOffer msg := by
  refine preserves_iff_of (fun msg h => .inl h) (fun msg h hudp => ?_) hrun
  rw [DataOffer, hudp] at h
  exact absurd h (by decide)

/-- The same when only the offers over TCP count. -/
theorem preserves_tcp_iff {noticecb : Option Nat} {noticeParam : Nat} {ops : List Scoped.Op}
    {log : List Scoped.Event} {s : Scoped}
    (hrun : (ops.foldlM Scoped.step (.new noticecb noticeParam)).Yields log s) :
    Preserves (fun msg => msg.flag = SENDDATAFLAG) noticeParam log ↔
      noticecb = none ∨ ∀ msg, .message msg ∈ ops → msg.flag ≠ SENDDATAFLAG :=
  preserves_iff_of (fun msg h => h) (fun msg h => by rw [h]; decide) hrun

/-- A client is told of a file that has been received. -/
def fileReceived : ControlMsg := { flag := RECVFILESUCC, fileName := [0x66] }

/-- A notice without an offer before it comes with the parameter of the user. -/
theorem preserves_file :
    ∃ log s, ([Scoped.Op.message fileReceived].foldlM Scoped.step (.new (some 1) 7)).Yields log s ∧
      Preserves DataOffer 7 log := by
  obtain ⟨log, s, hrun⟩ : ∃ log s,
      ([Scoped.Op.message fileReceived].foldlM Scoped.step (.new (some 1) 7)).Yields log s :=
    ⟨_, _, rfl, rfl⟩
  refine ⟨log, s, hrun, (preserves_iff hrun).mpr (.inr fun msg hmsg => ?_)⟩
  obtain rfl := Scoped.Op.message.inj (List.mem_singleton.mp hmsg)
  unfold DataOffer
  decide

/-- An offer of three bytes over TCP. -/
def threeBytes : ControlMsg := { flag := SENDDATAFLAG, length := 3, dataId := [0x64] }

/-- The notice of an offer comes with the address of a variable that is gone, and so does every
notice behind it. -/
theorem offer_not_preserved :
    ∃ log s, ([Scoped.Op.message threeBytes, .message fileReceived].foldlM Scoped.step
        (.new (some 1) 7)).Yields log s ∧
      log = [.declare 0 3, .leave 0, .notice threeBytes (some [0x64]) (.length 0 3),
        .notice fileReceived none (.length 0 3)] ∧
      ¬ Preserves DataOffer 7 log := by
  refine ⟨_, _, ⟨rfl, rfl⟩, by decide, fun h => ?_⟩
  obtain ⟨var, hparam, -, halive⟩ :=
    (h [.declare 0 3, .leave 0] threeBytes (some [0x64]) (.length 0 3)
      [.notice fileReceived none (.length 0 3)] (by decide)).1 (.inl rfl)
  obtain ⟨rfl, -⟩ := Param.length.inj hparam
  exact halive (by simp)

end Ndsl.Proofs.DtpClient
