import Ndsl.Proofs.Sending.Cases

/-!
# `Ndsl.Proofs.Sending.FailedSend`: a file send that fails

`DTP::sendFile` can fail in four places: the size of the file, the listener, the port of the
listener, and the content of the file. `sendFile_cases` says that a call which returns has gone all
the way, whatever happened in these places. So no failing call returns an error and leaves
nothing behind (`failed_send_never`).
-/

set_option autoImplicit false

namespace Ndsl.Proofs.Sending

open Ndsl.Lib
open Ndsl.Net
open Ndsl.Net.Dtp
open Ndsl.Net.Registry (Client Conn)
open Ndsl.Net.Sending

/-- One of the calls of the system fails. The size is asked for only when no length is given. -/
def Fails (sys : FileCalls) (length : Int) : Prop :=
  (length = 0 ∧ sys.stat = none) ∨ createAndListen sys.toListenCalls ≠ S_OK ∨
    sys.getsockname = none ∨ sys.file = none

/-- A listener, a connection object or a timer is made. -/
def Made (e : Event) : Prop :=
  e = .newAcceptor ∨ e = .newConnection ∨ e = .runAfter

/-- A send offers nothing: it returns an error, sends no message, makes nothing that it leaves
behind, and keeps the state as it was. -/
def OffersNothing (s : Sender) (x : Traced Event (Int × Sender)) : Prop :=
  ∃ es ret, x.Yields es (ret, s) ∧ ret ≠ S_OK ∧
    (∀ conn id msg, .sendMessage conn id msg ∉ es) ∧ ∀ e ∈ es, ¬ Made e

section
variable {κ : Type} {md5 : Md5 κ} {sys : FileCalls} {conn : Conn} {peerId : Int}
  {filePath : List UInt8} {length : Int} {client : Client} {s s' : Sender} {es : List Event}

/-- A call that returns gives `S_OK`, has sent its offer, and has left everything behind that it
made, whether a call of the system has failed or not. -/
theorem sendFile_leaves {ret : Int}
    (h : (DTP.sendFile md5 sys conn peerId filePath length client s).Yields es (ret, s')) :
    ret = S_OK ∧ (∃ msg, .sendMessage conn 0 msg ∈ es) ∧ .newAcceptor ∈ es ∧
      .newConnection ∈ es ∧ .runAfter ∈ es := by
  obtain ⟨hr, msg, -, rfl⟩ := sendFile_cases h
  refine ⟨(Prod.mk.inj hr).1, ⟨msg, ?_⟩, ?_, ?_, ?_⟩
  · exact List.mem_append_right _ (by simp)
  · exact List.mem_append_left _ (newAcceptor_mem_started _)
  · exact List.mem_append_right _ (by simp)
  · exact List.mem_append_right _ (by simp)

/-- A call in which something fails never offers nothing. -/
theorem failed_send_never (_hfails : Fails sys length) :
    ¬ OffersNothing s (DTP.sendFile md5 sys conn peerId filePath length client s) := by
  rintro ⟨es, ret, hyields, herror, -⟩
  exact herror (sendFile_leaves hyields).1

end

/-- The file is not there: `stat` fails, and it cannot be opened. -/
def noFile : FileCalls :=
  { socket := 5
    bind := true
    listen := true
    getsockname := some 2000
    sin_port := 0
    stat := none
    st_size := 0
    file := none }

/-- It is a call in which something fails. -/
theorem failed_send_noFile :
    Fails noFile 0 ∧
      ¬ OffersNothing {} (DTP.sendFile zeroMd5 noFile 1 3 [0x64, 0x2f, 0x66] 0 7 {}) :=
  have hfails : Fails noFile 0 := .inl ⟨rfl, rfl⟩
  ⟨hfails, failed_send_never hfails⟩

/-- The peer is offered the file that is not there, and the sender listens for it. -/
theorem noFile_offered :
    Fails noFile 0 ∧
      (DTP.sendFile zeroMd5 noFile 1 3 [0x64, 0x2f, 0x66] 0 7 {}).log
        = [.newAcceptor, .enrollIn, .newConnection, .newSession 7, .runAfter,
          .sendMessage 1 0 (makeControlMsg SENDFILEFLAG 3 RDMA_IP 2000 [] [0x66] 0)] ∧
      ¬ OffersNothing {} (DTP.sendFile zeroMd5 noFile 1 3 [0x64, 0x2f, 0x66] 0 7 {}) := by
  have hlog : (DTP.sendFile zeroMd5 noFile 1 3 [0x64, 0x2f, 0x66] 0 7 {}).log
      = [.newAcceptor, .enrollIn, .newConnection, .newSession 7, .runAfter,
        .sendMessage 1 0 (makeControlMsg SENDFILEFLAG 3 RDMA_IP 2000 [] [0x66] 0)] := by decide
  refine ⟨.inl ⟨rfl, rfl⟩, hlog, ?_⟩
  rintro ⟨es, ret, ⟨hes, -⟩, -, hquiet, -⟩
  rw [← hes, hlog] at hquiet
  exact hquiet 1 0 _ (List.mem_of_getLast? rfl)

end Ndsl.Proofs.Sending
