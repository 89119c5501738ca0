import Ndsl.Net.DtpClient

/-!
# `Ndsl.Proofs.Dtp.Agree`: which message an agreement acts on

`standing` reads off a history of a client which message it remembers under a name: the first
one since the last agreement, for a later one does not replace it. `starts_iff` says that an
agreement starts the receive of the offer it answers exactly when no other message was standing
under the name when the offer came.
-/

set_option autoImplicit false

namespace Ndsl.Proofs.DtpClient

open Ndsl.Lib
open Ndsl.Net.Dtp

/-- One step of a client: a control message or a notice, or a call of its user. -/
inductive Event
  | message (msg : ControlMsg)
  | agreeRecvFile (fileName : List UInt8)
  | agreeRecvData (dataId : List UInt8)
  deriving Repr, DecidableEq

/-- The calls of a history. -/
def step (client : DTPClient) : Event → Traced Act DTPClient
  | .message msg => client.analysisProtobuf msg
  | .agreeRecvFile fileName => client.agreeRecvFile fileName
  | .agreeRecvData dataId => client.agreeRecvData dataId

/-- A message is remembered unless one stands under its name, and an agreement forgets. -/
def standingStep (x : List UInt8) (cur : Option ControlMsg) : Event → Option ControlMsg
  | .message msg => if DTPClient.keyOf msg = some x then cur.or (some msg) else cur
  | .agreeRecvFile y => if y = x then none else cur
  | .agreeRecvData y => if y = x then none else cur

/-- The message that stands under a name after a history. -/
def standing (x : List UInt8) (history : List Event) : Option ControlMsg :=
  history.foldl (standingStep x) none

/-- An event that has nothing to do with a name. -/
def Unrelated (x : List UInt8) : Event → Prop
  | .message msg => DTPClient.keyOf msg ≠ some x
  | .agreeRecvFile y => y ≠ x
  | .agreeRecvData y => y ≠ x

instance (x : List UInt8) : DecidablePred (Unrelated x) := fun e => by
  unfold Unrelated
  cases e <;> infer_instance

/-- The agreement to an offer, and the receive it is to start. The name of an agreement is a C
string, so an offer whose key has a zero in it is one that nobody can agree to. -/
inductive Offer : ControlMsg → List UInt8 → Event → Act → Prop
  | file (msg : ControlMsg) (hflag : msg.flag = SENDFILEFLAG) :
      Offer msg msg.fileName (.agreeRecvFile msg.fileName) (.recvFile msg)
  | data (msg : ControlMsg) (hflag : msg.flag = SENDDATAFLAG) :
      Offer msg msg.dataId (.agreeRecvData msg.dataId) (.recvData msg)
  | udp (msg : ControlMsg) (hflag : msg.flag = SENDDATAONUDP) :
      Offer msg msg.dataId (.agreeRecvData msg.dataId) (.recvUdpData msg)

/-- A client of a user who is notified. -/
def notified (cb : Nat) (dataCallback_ : Option Nat) : DTPClient :=
  { noticeCallback_ := some cb, dataCallback_ := dataCallback_ }

/-! ### What a client remembers -/

section Step
variable {client client' : DTPClient} {es : List Act} {x : List UInt8} {cb : Nat}

theorem insert_mp (key : List UInt8) (msg : ControlMsg) (client : DTPClient) :
    (client.insert key msg).mp_ x
      = if some key = some x then (client.mp_ x).or (some msg) else client.mp_ x := by
  unfold DTPClient.insert
  by_cases hkey : key = x
  · subst hkey
    simp
  · simp [hkey, Function.update_of_ne (Ne.symm hkey)]

/-- A message that the user is notified of is remembered, unless one stands under its name. -/
theorem notify_mp {msg : ControlMsg} (hcb : client.noticeCallback_ = some cb)
    (h : (DTPClient.notify msg client).Yields es client') :
    client'.noticeCallback_ = some cb ∧
      client'.mp_ x = standingStep x (client.mp_ x) (.message msg) := by
  unfold DTPClient.notify at h
  simp only [hcb] at h
  simp only [standingStep]
  cases hkey : DTPClient.keyOf msg with
  | none =>
      simp only [hkey, Traced.tell_bind_yields, Traced.pure_yields] at h
      obtain ⟨_, ⟨-, rfl⟩, -⟩ := h
      exact ⟨hcb, (if_neg (by simp)).symm⟩
  | some key =>
      simp only [hkey, Traced.bind_yields, Traced.pure_yields] at h
      obtain ⟨_, _, _, -, ⟨_, _, _, -, ⟨-, rfl⟩, -⟩, -⟩ := h
      exact ⟨hcb, insert_mp key msg client⟩

theorem erase_mp (key : List UInt8) (client : DTPClient) :
    (client.erase key).mp_ x = if key = x then none else client.mp_ x := by
  unfold DTPClient.erase
  by_cases hkey : key = x
  · simp [hkey]
  · simp [hkey, Function.update_of_ne (Ne.symm hkey)]

/-- One step moves what stands under a name as `standingStep` says. -/
theorem step_mp {e : Event} (hcb : client.noticeCallback_ = some cb)
    (h : (step client e).Yields es client') :
    client'.noticeCallback_ = some cb ∧ client'.mp_ x = standingStep x (client.mp_ x) e := by
  cases e with
  | message msg =>
      simp only [step, DTPClient.analysisProtobuf] at h
      split at h
      · -- an offer of data changes `noticeParam_` first, and goes the way of the others then
        exact @notify_mp { client with noticeParam_ := .length msg.length } _ _ _ _ _ hcb h
      · split at h
        · -- a `RECVDATAONUDP` is not remembered
          rename_i hdata hudp
          have hkey : DTPClient.keyOf msg = none := by
            simp [DTPClient.keyOf, DTPClient.underDataId, hudp, RECVDATAONUDP, SENDFILEFLAG,
              SENDDATAFLAG, RECVDATASUCC, RECVDATAFAIL, OPPENDRECVSUCC, OPPENDRECVFAIL,
              SENDDATAONUDP]
          split at h
          · exact absurd h (Traced.fault_yields _ _)
          · rw [Traced.tell_bind_yields] at h
            obtain ⟨_, hret, -⟩ := h
            obtain ⟨-, rfl⟩ := (Traced.pure_yields ..).mp hret
            exact ⟨hcb, by simp [standingStep, hkey]⟩
        · exact notify_mp hcb h
  | agreeRecvFile fileName =>
      simp only [step, DTPClient.agreeRecvFile] at h
      -- without an offer under the name nothing is taken away
      cases hmp : client.mp_ fileName with
      | none =>
          simp only [hmp, Traced.pure_yields] at h
          obtain ⟨-, rfl⟩ := h
          refine ⟨hcb, ?_⟩
          simp only [standingStep]
          split
          · rename_i heq
            exact heq ▸ hmp
          · rfl
      | some msg =>
          simp only [hmp, Traced.tell_bind_yields, Traced.pure_yields] at h
          obtain ⟨_, ⟨-, rfl⟩, -⟩ := h
          exact ⟨hcb, erase_mp fileName client⟩
  | agreeRecvData dataId =>
      simp only [step, DTPClient.agreeRecvData] at h
      -- the same for data, whose offers stand under their ids
      cases hmp : client.mp_ dataId with
      | none =>
          simp only [hmp, Traced.pure_yields] at h
          obtain ⟨-, rfl⟩ := h
          refine ⟨hcb, ?_⟩
          simp only [standingStep]
          split
          · rename_i heq
            exact heq ▸ hmp
          · rfl
      | some msg =>
          simp only [hmp, Traced.tell_bind_yields, Traced.pure_yields] at h
          obtain ⟨_, ⟨-, rfl⟩, -⟩ := h
          exact ⟨hcb, erase_mp dataId client⟩

end Step

/-- After a history a client remembers what stands under each name. -/
theorem run_mp {x : List UInt8} {cb : Nat} {events : List Event} :
    ∀ {client client' : DTPClient} {log : List Act}, client.noticeCallback_ = some cb →
      (events.foldlM step client).Yields log client' →
      client'.mp_ x = events.foldl (standingStep x) (client.mp_ x) := by
  induction events with
  | nil =>
      intro client client' log _ h
      obtain ⟨-, rfl⟩ := (Traced.pure_yields ..).mp h
      rfl
  | cons e events ih =>
      intro client client' log hcb h
      rw [List.foldlM_cons, Traced.bind_yields] at h
      obtain ⟨_, mid, _, hstep, hrest, -⟩ := h
      obtain ⟨hcb', hmp⟩ := step_mp (x := x) hcb hstep
      rw [ih hcb' hrest, hmp, List.foldl_cons]

/-- Events that have nothing to do with a name leave alone what stands under it. -/
theorem foldl_unrelated {x : List UInt8} {events : List Event}
    (h : ∀ e ∈ events, Unrelated x e) (cur : Option ControlMsg) :
    events.foldl (standingStep x) cur = cur := by
  induction events generalizing cur with
  | nil => rfl
  | cons e events ih =>
      have hhead : standingStep x cur e = cur := by
        have he := h e (List.mem_cons_self ..)
        cases e with
        | message msg => exact if_neg he
        | agreeRecvFile y => exact if_neg he
        | agreeRecvData y => exact if_neg he
      rw [List.foldl_cons, hhead]
      exact ih (fun e he => h e (List.mem_cons_of_mem _ he)) cur

theorem Offer.keyOf_eq {offer : ControlMsg} {x : List UInt8} {agree : Event} {start : Act}
    (h : Offer offer x agree start) : DTPClient.keyOf offer = some x := by
  cases h with
  | file hflag => simp [DTPClient.keyOf, hflag]
  | data hflag =>
      simp [DTPClient.keyOf, hflag, DTPClient.underDataId, SENDFILEFLAG, SENDDATAFLAG]
  | udp hflag =>
      simp [DTPClient.keyOf, hflag, DTPClient.underDataId, SENDFILEFLAG, SENDDATAONUDP]

/-- The agreement acts on the message that the client remembers. -/
theorem Offer.log_agree {offer msg : ControlMsg} {x : List UInt8} {agree : Event} {start : Act}
    (h : Offer offer x agree start) {client : DTPClient} (hmp : client.mp_ x = some msg) :
    (step client agree).log = [start] ↔ msg = offer := by
  cases h with
  | file hflag => simp [step, DTPClient.agreeRecvFile, hmp]
  | data hflag =>
      have hne : SENDDATAFLAG ≠ SENDDATAONUDP := by decide
      simp only [step, DTPClient.agreeRecvData, hmp, Traced.log_tell_bind, Traced.log_pure,
        List.append_nil, List.cons.injEq, and_true]
      constructor
      · intro heq
        split at heq
        · exact Act.noConfusion heq
        · exact Act.recvData.inj heq
      · rintro rfl
        rw [if_neg (by rw [hflag]; exact hne)]
  | udp hflag =>
      simp only [step, DTPClient.agreeRecvData, hmp, Traced.log_tell_bind, Traced.log_pure,
        List.append_nil, List.cons.injEq, and_true]
      constructor
      · intro heq
        split at heq
        · exact Act.recvUdpData.inj heq
        · exact Act.noConfusion heq
      · rintro rfl
        rw [if_pos hflag]

/-- An agreement that answers an offer, with nothing about its name in between, starts the
receive of that offer exactly when no other message was standing under the name when the offer
came. -/
theorem starts_iff {cb : Nat} {dataCallback_ : Option Nat} {history mid : List Event}
    {offer : ControlMsg} {x : List UInt8} {agree : Event} {start : Act} {log : List Act}
    {client : DTPClient} (hoffer : Offer offer x agree start)
    (hmid : ∀ e ∈ mid, Unrelated x e)
    (hrun : ((history ++ .message offer :: mid).foldlM step
      (notified cb dataCallback_)).Yields log client) :
    (step client agree).log = [start] ↔
      standing x history = none ∨ standing x history = some offer := by
  have hcb : (notified cb dataCallback_).noticeCallback_ = some cb := rfl
  have hmp : client.mp_ x = (standing x history).or (some offer) := by
    rw [run_mp hcb hrun, List.foldl_append, List.foldl_cons, foldl_unrelated hmid,
      standingStep, if_pos hoffer.keyOf_eq]
    rfl
  cases hold : standing x history with
  | none =>
      rw [hold] at hmp
      rw [hoffer.log_agree hmp]
      simp
  | some msg =>
      rw [hold] at hmp
      rw [hoffer.log_agree hmp]
      simp

/-- An offer of a data block. -/
def dataOffer (port : Int) : ControlMsg :=
  { flag := SENDDATAFLAG, dataPort := port, length := 3, dataId := [100], crcCheckSum := 7 }

/-- The notice of a receive that failed. -/
def failNotice : ControlMsg := { flag := RECVDATAFAIL, dataId := [100] }

/-- The first offer that a client hears is the one that its agreement starts. -/
theorem starts_iff_first :
    ∃ log client,
      (([] ++ Event.message (dataOffer 2000) :: []).foldlM step (notified 1 none)).Yields
        log client ∧
      (step client (.agreeRecvData [100])).log = [.recvData (dataOffer 2000)] := by
  have hrun : ∃ log client,
      (([] ++ Event.message (dataOffer 2000) :: []).foldlM step (notified 1 none)).Yields
        log client := ⟨_, _, rfl, rfl⟩
  obtain ⟨log, client, hrun⟩ := hrun
  exact ⟨log, client, hrun,
    (starts_iff (.data (dataOffer 2000) rfl) (by simp) hrun).mpr (.inl rfl)⟩

/-- An offer, its agreement, and the notice that the receive failed. -/
def failedOnce : List Event :=
  [.message (dataOffer 1000), .agreeRecvData [100], .message failNotice]

/-- The offer is sent once more with another port, and the agreement starts from the notice of
the failure. -/
theorem stale_notice_started :
    ∃ log client,
      ((failedOnce ++ Event.message (dataOffer 2000) :: []).foldlM step
        (notified 1 none)).Yields log client ∧
      (step client (.agreeRecvData [100])).log ≠ [.recvData (dataOffer 2000)] := by
  refine ⟨_, _, ⟨rfl, rfl⟩, ?_⟩
  decide

end Ndsl.Proofs.DtpClient
