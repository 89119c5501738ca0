import Ndsl.Net.Copies

/-!
# `Ndsl.Proofs.Dtp.Copies`: what a peer can do to the buffers

The buffers for names and paths have `FILEPATHSIZE` bytes and the one for a checksum has `2 *
MD5LENTH + 1`; the strings that are copied into them come with a control message, and no function
looks at their lengths. `copies_inside_iff` says for which messages, and for which ways of
processing them, all stores are inside the buffers.
-/

set_option autoImplicit false

namespace Ndsl.Proofs.Copies

open Ndsl.Lib
open Ndsl.Lib.Store (Inside calloc inside_append inside_alloc_cons inside_write_cons inside_writes
  sizesAfter)
open Ndsl.Net (MAXLINE toSize toInt)
open Ndsl.Net.Dtp
open Ndsl.Net.Dtp.Copies (Buffer Way process stores recvFileCallback receive)

/-- The lengths of a message that the buffers on its way can hold. A zero ends a string. -/
def Fits (msg : ControlMsg) : Way → Prop
  | .analysisProtobuf noticeCallback_ =>
    noticeCallback_ ≠ none → ∀ name, DTPClient.keyOf msg = some name →
      (cstring name).length < FILEPATHSIZE
  | .agreeRecvFile _ arrivals =>
    (cstring msg.checkSum).length ≤ 2 * MD5LENTH ∧
      (arrivals ≠ [] → FILERECVROOT.length + (cstring msg.fileName).length < FILEPATHSIZE)
  | .agreeRecvData => 0 ≤ msg.length

section Functions
variable {sizes : Buffer → Option Int}

/-- The name that the user is told. -/
theorem analysisProtobuf_inside_iff (noticeCallback_ : Option Nat) (msg : ControlMsg) :
    Inside sizes (Copies.analysisProtobuf noticeCallback_ msg).log ↔
      Fits msg (.analysisProtobuf noticeCallback_) := by
  unfold Copies.analysisProtobuf
  cases noticeCallback_ with
  | none => exact ⟨fun _ h => absurd rfl h, fun _ => trivial⟩
  | some cb =>
      cases hkey : DTPClient.keyOf msg with
      | none =>
          refine ⟨fun _ _ name hname => ?_, fun _ => trivial⟩
          rw [hkey] at hname
          exact absurd hname.symm (Option.some_ne_none name)
      | some name =>
          show Inside sizes [.alloc .filename FILEPATHSIZE,
            .write .filename 0 ((cstring name).length + 1)] ↔ _
          rw [inside_alloc_cons, inside_write_cons (Function.update_self ..)]
          constructor
          · rintro ⟨-, hle, -⟩ - name' hname'
            obtain rfl := Option.some.inj (hkey.symm.trans hname')
            omega
          · intro h
            have hlt := h (Option.some_ne_none cb) name hkey
            exact ⟨by decide, by omega, trivial⟩

/-- What building a path writes. -/
def pathWrites (fileName : List UInt8) : List (Store Buffer) :=
  [.write .filePath 0 3, .write .filePath 2 ((cstring fileName).length + 1)]

/-- A path in its block of `FILEPATHSIZE` bytes. -/
theorem path_inside_iff (fileName : List UInt8) (log : List (Store Buffer)) :
    Inside sizes (.alloc .filePath FILEPATHSIZE :: (pathWrites fileName ++ log)) ↔
      FILERECVROOT.length + (cstring fileName).length < FILEPATHSIZE ∧
        Inside (Function.update sizes .filePath (some (FILEPATHSIZE : Int))) log := by
  have hsize : Function.update sizes .filePath (some (FILEPATHSIZE : Int)) .filePath =
      some (FILEPATHSIZE : Int) := Function.update_self ..
  rw [inside_alloc_cons, pathWrites, List.cons_append, List.cons_append, List.nil_append,
    inside_write_cons hsize, inside_write_cons hsize]
  have hroot : FILERECVROOT.length = 2 := rfl
  have hpath : (FILEPATHSIZE : Int) = 64 := rfl
  rw [hroot, hpath]
  constructor
  · rintro ⟨-, -, hle, hlog⟩
    exact ⟨by show _ < 64; omega, hlog⟩
  · rintro ⟨hlt, hlog⟩
    have hlt' : 2 + (cstring fileName).length < 64 := hlt
    exact ⟨by decide, by decide, by omega, hlog⟩

/-- The digits of a checksum fit their block. -/
theorem getMd5_inside (hsize : sizes .newCheckSum = some (MD5LENTH * 2 + 1 : Int)) :
    Inside sizes Copies.getMd5.log := by
  refine (inside_writes hsize _).mpr fun x hx => ?_
  obtain ⟨i, hi, rfl⟩ := List.mem_map.mp hx
  have hlt : i < 16 := List.mem_range.mp hi
  show ((i * 2 : Nat) : Int) + 3 ≤ 16 * 2 + 1
  omega

/-- What `recvFileCallback` writes behind the path. -/
def restWrites (opens : Bool) (len : Nat) (info : RecvFileInfo) : List (Store Buffer) :=
  if opens = false ∨ info.length_ < 0 then []
  else if len = toSize info.length_ then
    .alloc .newCheckSum (MD5LENTH * 2 + 1) :: .alloc .filePath FILEPATHSIZE ::
      (pathWrites info.fileName_ ++ Copies.getMd5.log)
  else [.write .buf 0 MAXLINE]

theorem recvFileCallback_log (opens : Bool) (len : Nat) (info : RecvFileInfo) :
    (recvFileCallback opens len info).log = .alloc .filePath FILEPATHSIZE ::
      (pathWrites info.fileName_ ++ restWrites opens len info) := by
  unfold recvFileCallback restWrites
  split
  · rfl
  · split
    · rfl
    · rfl

/-- Once the path has fit, nothing else can go wrong. -/
theorem restWrites_inside {opens : Bool} {len : Nat} {info : RecvFileInfo}
    (hbuf : sizes .buf = some (MAXLINE : Int))
    (hfits : FILERECVROOT.length + (cstring info.fileName_).length < FILEPATHSIZE) :
    Inside sizes (restWrites opens len info) := by
  unfold restWrites
  split
  · trivial
  · split
    · rw [inside_alloc_cons, path_inside_iff]
      refine ⟨by decide, hfits, getMd5_inside ?_⟩
      rw [Function.update_of_ne (by decide), Function.update_self]
    · rw [inside_write_cons hbuf]
      exact ⟨by decide, trivial⟩

/-- One call of `recvFileCallback`: the path must fit. -/
theorem recvFileCallback_inside_iff (hbuf : sizes .buf = some (MAXLINE : Int)) (opens : Bool)
    (len : Nat) (info : RecvFileInfo) : Inside sizes (recvFileCallback opens len info).log ↔
      FILERECVROOT.length + (cstring info.fileName_).length < FILEPATHSIZE := by
  rw [recvFileCallback_log, path_inside_iff]
  refine ⟨fun h => h.1, fun h => ⟨h, restWrites_inside ?_ h⟩⟩
  rw [Function.update_of_ne (by decide), hbuf]

/-- A call that asks for more keeps the record's name and the buffer. -/
theorem recvFileCallback_more {opens : Bool} {len : Nat} {info info' : RecvFileInfo}
    (hbuf : sizes .buf = some (MAXLINE : Int))
    (hmore : (recvFileCallback opens len info).value = some (some info')) :
    info'.fileName_ = info.fileName_ ∧
      sizesAfter sizes (recvFileCallback opens len info).log .buf = some (MAXLINE : Int) := by
  rw [recvFileCallback_log]
  have hvalue : (recvFileCallback opens len info).value =
      if opens = false ∨ info.length_ < 0 then none
      else if len = toSize info.length_ then some none
      else some (some { info with length_ := info.length_ - toInt len }) := by
    unfold recvFileCallback
    split
    · rfl
    · split
      · rfl
      · rfl
  rw [hvalue] at hmore
  unfold restWrites
  split at hmore
  · exact absurd hmore.symm (Option.some_ne_none _)
  · next hgood =>
    split at hmore
    · -- the file is complete, and nothing more is asked for
      exact absurd (Option.some.inj hmore).symm (Option.some_ne_none _)
    · next hshort =>
      obtain rfl := Option.some.inj (Option.some.inj hmore)
      rw [if_neg hgood, if_neg hshort]
      refine ⟨rfl, ?_⟩
      show Function.update sizes .filePath (some (FILEPATHSIZE : Int)) .buf = _
      rw [Function.update_of_ne (by decide), hbuf]

/-- The receive of a file, however its bytes come in. -/
theorem receive_inside_iff (opens : Bool) (arrivals : List Nat) :
    ∀ {sizes : Buffer → Option Int} (info : RecvFileInfo), sizes .buf = some (MAXLINE : Int) →
      (Inside sizes (receive opens arrivals info).log ↔ (arrivals ≠ [] →
        FILERECVROOT.length + (cstring info.fileName_).length < FILEPATHSIZE)) := by
  induction arrivals with
  | nil => exact fun info _ => ⟨fun _ h => absurd rfl h, fun _ => trivial⟩
  | cons n arrivals ih =>
      intro sizes info hbuf
      have hrecv : ((0 : Nat) : Int) + (min n MAXLINE : Nat) ≤ MAXLINE := by omega
      rw [receive, Traced.log_tell_bind, List.singleton_append, inside_write_cons hbuf]
      -- what the callback returns says whether there is more to receive
      cases hvalue : (recvFileCallback opens (min n MAXLINE) info).value with
      | none =>
          rw [Traced.bind_of_none _ hvalue, recvFileCallback_inside_iff hbuf]
          exact ⟨fun h _ => h.2, fun h => ⟨hrecv, h (List.cons_ne_nil _ _)⟩⟩
      | some more =>
          rw [Traced.bind_of_some _ hvalue, inside_append, recvFileCallback_inside_iff hbuf]
          cases more with
          | none =>
              exact ⟨fun h _ => h.2.1, fun h => ⟨hrecv, h (List.cons_ne_nil _ _), trivial⟩⟩
          | some info' =>
              obtain ⟨hname, hbuf'⟩ := recvFileCallback_more hbuf hvalue
              rw [ih info' hbuf', hname]
              exact ⟨fun h _ => h.2.1, fun h => ⟨hrecv, h (List.cons_ne_nil _ _),
                fun _ => h (List.cons_ne_nil _ _)⟩⟩

/-- The checksum, and then the receive. -/
theorem agreeRecvFile_inside_iff (opens : Bool) (msg : ControlMsg) (arrivals : List Nat) :
    Inside sizes (Copies.agreeRecvFile opens msg arrivals).log ↔
      Fits msg (.agreeRecvFile opens arrivals) := by
  show Inside sizes (.alloc .buf MAXLINE :: .alloc .checkSum_ (MD5LENTH * 2 + 1) ::
    .write .checkSum_ 0 ((cstring msg.checkSum).length + 1) ::
      (receive opens arrivals
        { fileName_ := msg.fileName, length_ := msg.length, checkSum_ := _ }).log) ↔ _
  rw [inside_alloc_cons, inside_alloc_cons, inside_write_cons (Function.update_self ..),
    receive_inside_iff opens arrivals _
      ((Function.update_of_ne (by decide) _ _).trans (Function.update_self ..))]
  constructor
  · rintro ⟨-, -, hle, hpath⟩
    have hle' : ((0 : Nat) : Int) + (((cstring msg.checkSum).length + 1 : Nat) : Int)
        ≤ 16 * 2 + 1 := hle
    refine ⟨?_, hpath⟩
    show _ ≤ 2 * 16
    omega
  · rintro ⟨hle, hpath⟩
    have hle' : (cstring msg.checkSum).length ≤ 2 * 16 := hle
    refine ⟨by decide, by decide, ?_, hpath⟩
    show ((0 : Nat) : Int) + (((cstring msg.checkSum).length + 1 : Nat) : Int) ≤ 16 * 2 + 1
    omega

/-- The block for the data. -/
theorem agreeRecvData_inside_iff (msg : ControlMsg) :
    Inside sizes (Copies.agreeRecvData msg).log ↔ Fits msg .agreeRecvData := by
  rw [Copies.agreeRecvData, Traced.log_tell_bind, List.singleton_append, inside_alloc_cons]
  constructor
  · exact fun h => h.1
  · intro h
    have hnot : ¬ msg.length < 0 := Int.not_lt.mpr h
    refine ⟨h, ?_⟩
    rw [if_neg hnot]
    refine (inside_write_cons (Function.update_self ..) ..).mpr ⟨?_, trivial⟩
    show ((0 : Nat) : Int) + msg.length.toNat ≤ msg.length
    have hnonneg : 0 ≤ msg.length := h
    omega

/-- Every way of processing a message. -/
theorem process_inside_iff (msg : ControlMsg) (way : Way) :
    Inside sizes (process msg way).log ↔ Fits msg way := by
  cases way with
  | analysisProtobuf noticeCallback_ => exact analysisProtobuf_inside_iff noticeCallback_ msg
  | agreeRecvFile opens arrivals => exact agreeRecvFile_inside_iff opens msg arrivals
  | agreeRecvData => exact agreeRecvData_inside_iff msg

end Functions

/-! ### The models of the same functions by their values -/

/-- `DTPClient.notify` tells of no overrun exactly when the name is copied inside its block. -/
theorem notify_inside_iff (sizes : Buffer → Option Int) (msg : ControlMsg) (client : DTPClient) :
    .overrun ∉ (DTPClient.notify msg client).log ↔
      Inside sizes (Copies.analysisProtobuf client.noticeCallback_ msg).log := by
  rw [analysisProtobuf_inside_iff]
  obtain ⟨es, client', h⟩ := DTPClient.exists_notify msg client
  have hcopy := (DTPClient.notify_of_yields h).1
  rw [← h.1] at hcopy
  exact hcopy

/-- `RecvFile.getFileRecvAbsolutePath` tells of no overrun exactly when the path is built inside its
block. -/
theorem getFileRecvAbsolutePath_inside_iff (sizes : Buffer → Option Int) (fileName : List UInt8) :
    .overrun ∉ (RecvFile.getFileRecvAbsolutePath fileName).log ↔
      Inside sizes (.alloc .filePath FILEPATHSIZE ::
        (Copies.getFileRecvAbsolutePath fileName).log) := by
  have hlog : (Copies.getFileRecvAbsolutePath fileName).log = pathWrites fileName ++ [] := rfl
  have hlength : (FILERECVROOT ++ cstring fileName).length =
      FILERECVROOT.length + (cstring fileName).length := List.length_append
  rw [hlog, path_inside_iff, RecvFile.getFileRecvAbsolutePath, Traced.log_tell_bind,
    Traced.log_pure, List.append_nil, not_mem_overrun_iff, hlength]
  exact ⟨fun h => ⟨h, trivial⟩, fun h => h.1⟩

/-! ### Whole programs -/

/-- Whatever messages come, and however they are processed one after the other: all stores are
inside their buffers, and no size is negative, exactly when every message fits the buffers on its
way. -/
theorem copies_inside_iff (steps : List (ControlMsg × Way)) :
    Inside (fun _ => none) (stores steps) ↔ ∀ step ∈ steps, Fits step.1 step.2 := by
  have hall : ∀ sizes : Buffer → Option Int,
      Inside sizes (stores steps) ↔ ∀ step ∈ steps, Fits step.1 step.2 := by
    induction steps with
    | nil => exact fun sizes => ⟨fun _ step h => absurd h List.not_mem_nil, fun _ => trivial⟩
    | cons step steps ih =>
        intro sizes
        rw [stores, List.flatMap_cons, inside_append, process_inside_iff, List.forall_mem_cons]
        exact and_congr_right fun _ => ih _
  exact hall _

/-- An offer of a file whose name has 64 bytes: the zero behind the name is written outside of the
block that `analysisProtobuf` allocates. -/
theorem long_name_overruns : ¬ ∀ steps : List (ControlMsg × Way),
    Inside (fun _ => none) (stores steps) := by
  intro h
  have hfits := (@process_inside_iff (fun _ => none)
    { flag := SENDFILEFLAG, fileName := List.replicate 64 97 } (.analysisProtobuf (some 0))).mp ?_
  · have hlt := hfits (by decide) (List.replicate 64 97) rfl
    revert hlt
    decide
  · have hinside := h [({ flag := SENDFILEFLAG, fileName := List.replicate 64 97 },
      .analysisProtobuf (some 0))]
    rwa [stores, List.flatMap_cons, List.flatMap_nil, List.append_nil] at hinside

end Ndsl.Proofs.Copies
