import Mathlib.Data.Fin.VecNotation
import Ndsl.Net.RecvFile

/-!
# `Ndsl.Proofs.RecvFile.Receives`: a file from its chunks

A file that is offered arrives in chunks on the data connection. `Receives` is what the receive owes
to its user: the file holds the content in the end, the user is notified once, of success, and only
bytes that were received are written.

`recvFileCallback` writes as many bytes as the whole file has left, and not as many as have come
in (`callback_of_yields`). So a file that arrives in several chunks is spoiled by the first of
them, and `receives_iff` says that the receive keeps what it owes exactly when the file arrives as
one chunk, its path fits the block it is put into and can be opened, and there is a user to notify.
-/

set_option autoImplicit false

namespace Ndsl.Proofs.RecvFile

open Ndsl.Lib
open Ndsl.Net Ndsl.Net.Dtp Ndsl.Net.Dtp.RecvFile
open Ndsl.Net.Tcp (EAGAIN RecvResult TcpConnection)

/-! ### What a receive did -/

/-- The path of the file. -/
def destination (msg : ControlMsg) : List UInt8 := FILERECVROOT ++ cstring msg.fileName

/-- The chunks that the data connection gave. -/
def received (log : List Event) : List (List UInt8) :=
  log.filterMap fun
    | .data (.recv _ _ _ (.data bytes)) => some bytes
    | _ => none

/-- The flags of the notices that the user got. -/
def notices (log : List Event) : List Int :=
  log.filterMap fun
    | .client (.notice flag _ _) => some flag
    | _ => none

@[simp] theorem received_append (log es : List Event) :
    received (log ++ es) = received log ++ received es := List.filterMap_append

@[simp] theorem notices_append (log es : List Event) :
    notices (log ++ es) = notices log ++ notices es := List.filterMap_append

/-- What the receive of a file owes to its user. -/
structure Receives (msg : ControlMsg) (content : List UInt8) (log : List Event) (s : RecvFile) :
    Prop where
  inside : .overrun ∉ log
  stored : s.disk.content (destination msg) = some content
  notified : notices log = [RECVFILESUCC]
  within : ∀ pre path n post, log = pre ++ .fwrite path n :: post →
    ∃ chunk, (received pre).getLast? = some chunk ∧ n ≤ chunk.length

/-! ### The chunks of a file -/

/-- The chunks that arrive: what `agreeRecvFile` finds on the data connection, and what each call
of `handleRead` finds. Each of them goes on as long as something is there. -/
def chunks (first : List (List UInt8)) (arrivals : List (List UInt8 × List (List UInt8))) :
    List (List UInt8) :=
  first ++ arrivals.flatMap fun arrival => arrival.1 :: arrival.2

section
variable {κ : Type} (md5 : Md5 κ)

/-- The agreement to an offer, and the arrival of the chunks. -/
def reception (msg : ControlMsg) (client : DTPClient) (fd : Int) (mem : Memory) (disk : Disk)
    (first : List (List UInt8)) (arrivals : List (List UInt8 × List (List UInt8))) :
    Traced Event RecvFile := do
  let s ← agreeRecvFile md5 msg client { pTcpChannel_ := some { fd := fd } } mem disk
    (first.map .data)
  arrivals.foldlM
    (fun s arrival => s.handleRead md5 (.data arrival.1) (arrival.2.map .data)) s

end

/-! ### The first chunk -/

/-- The receive with a chunk at the front of its buffer. -/
def withChunk (chunk : List UInt8) (data : TcpConnection) (s : RecvFile) : RecvFile :=
  { s with data := data, mem := s.mem.write 0 chunk, len := chunk.length }

/-- A call that receives a chunk puts it into memory and calls the callback. -/
theorem onData_delivery {x : Traced Tcp.Act (Int × TcpConnection)} {chunk : List UInt8} {ret : Int}
    {data : TcpConnection} (hx : x.Yields (Tcp.delivery request chunk) (ret, data))
    (cb : RecvFile → Traced Event RecvFile) (s : RecvFile) :
    s.onData x cb = Traced.tell ((Tcp.delivery request chunk).map .data) >>= fun _ =>
      cb (withChunk chunk data s) := by
  obtain ⟨hlog, hvalue⟩ := hx
  have hacts : x.log = [.recv 0 MAXLINE Tcp.MSG_NOSIGNAL (.data chunk), .setLen 0 chunk.length,
      .callback 0 0] := hlog
  simp only [onData, hvalue, hacts, List.foldlM_cons, List.foldlM_nil, perform, Traced.bind_assoc,
    Traced.pure_bind, Traced.bind_pure, Traced.tell_bind_tell_bind, List.cons_append,
    List.nil_append]
  rfl

/-- A call that finds nothing leaves its request with the connection. -/
theorem onData_again {data : TcpConnection} {channel : Tcp.TcpChannel}
    (hchannel : data.pTcpChannel_ = some channel) (cb : RecvFile → Traced Event RecvFile)
    (s : RecvFile) :
    s.onData (Tcp.onRecv request (.fail EAGAIN) data) cb =
      Traced.tell [.data (.recv 0 MAXLINE Tcp.MSG_NOSIGNAL (.fail EAGAIN))] >>= fun _ =>
        pure { s with data := Tcp.onRecv.register request data } := by
  obtain ⟨hlog, hvalue⟩ : (Tcp.onRecv request (.fail EAGAIN) data).Yields _ _ :=
    Tcp.onRecv_again hchannel (.inl rfl)
  simp only [onData, hvalue, hlog, List.foldlM_cons, List.foldlM_nil, perform, Traced.bind_assoc,
    Traced.pure_bind]
  rfl

/-- The receive when `agreeRecvFile` asks the data connection. -/
def asking (msg : ControlMsg) (client : DTPClient) (data : TcpConnection) (mem : Memory)
    (disk : Disk) : RecvFile :=
  { info :=
      { fileName_ := msg.fileName
        length_ := msg.length
        checkSum_ := cstring msg.checkSum }
    client := client
    mem := mem.write 0 (List.replicate MAXLINE 0)
    disk := disk
    data := data }

/-- The trace up to the first call of the callback. -/
def before (acts : List Tcp.Act) (chunk : List UInt8) : List Event :=
  acts.map .data ++ (Tcp.delivery request chunk).map .data

section Reception
variable {κ : Type} {md5 : Md5 κ} {msg : ControlMsg} {client : DTPClient} {fd : Int}
  {data : TcpConnection} {mem : Memory} {disk : Disk} {first : List (List UInt8)}
  {arrivals : List (List UInt8 × List (List UInt8))} {chunk : List UInt8}
  {rest : List (List UInt8)} {results : List RecvResult}

/-- The copy of the checksum. -/
def copySum (msg : ControlMsg) : List Event :=
  overrun .overrun (MD5LENTH * 2 + 1) (cstring msg.checkSum)

theorem copySum_of_lt (hsum : (cstring msg.checkSum).length < MD5LENTH * 2 + 1) :
    copySum msg = [] := overrun_of_lt hsum

theorem agreeRecvFile_eq :
    agreeRecvFile md5 msg client data mem disk results =
      Traced.tell (copySum msg) >>= fun _ => (asking msg client data mem disk).onData
          (Tcp.onRecv request (results.headD (.fail EAGAIN)) data)
          (recvFileCallback md5 results.tail) >>= fun s =>
        pure { s with data := agreeRecvFile.setError s.data } := rfl

/-- Every call brings a chunk. -/
theorem eq_nil_of_chunks_eq_nil
    (h : arrivals.flatMap (fun arrival => arrival.1 :: arrival.2) = []) : arrivals = [] := by
  cases arrivals with
  | nil => rfl
  | cons arrival arrivals => exact absurd h (List.cons_ne_nil _ _)

/-- The data connection when it is made. -/
def connected (fd : Int) : TcpConnection := { pTcpChannel_ := some { fd := fd } }

/-- The data connection with the request of `agreeRecvFile`. -/
def waiting (fd : Int) : TcpConnection :=
  agreeRecvFile.setError (Tcp.onRecv.register request (connected fd))

variable (md5 client fd mem disk) in
/-- A chunk is there when `agreeRecvFile` asks for it. -/
theorem agreeRecvFile_found (hchunk : chunk ≠ []) (more : List (List UInt8)) :
    agreeRecvFile md5 msg client (connected fd) mem disk ((chunk :: more).map .data) =
      Traced.tell (copySum msg ++ (Tcp.delivery request chunk).map .data) >>= fun _ =>
        recvFileCallback md5 (more.map .data)
          (withChunk chunk (connected fd) (asking msg client (connected fd) mem disk)) >>= fun s =>
            pure { s with data := agreeRecvFile.setError s.data } := by
  have hrecv : (Tcp.onRecv request (.data chunk) (connected fd)).Yields
      (Tcp.delivery request chunk) _ := Tcp.onRecv_data rfl hchunk
  rw [agreeRecvFile_eq]
  show (Traced.tell (copySum msg) >>= fun _ => (asking msg client (connected fd) mem disk).onData
    (Tcp.onRecv request (.data chunk) (connected fd)) (recvFileCallback md5 (more.map .data)) >>=
      _) = _
  rw [onData_delivery hrecv, Traced.bind_assoc, Traced.tell_bind_tell_bind]

variable (md5 client fd mem disk) in
/-- Nothing is there yet. -/
theorem agreeRecvFile_again :
    agreeRecvFile md5 msg client (connected fd) mem disk [] =
      Traced.tell (copySum msg ++ [.data (.recv 0 MAXLINE Tcp.MSG_NOSIGNAL (.fail EAGAIN))]) >>=
        fun _ => pure (asking msg client (waiting fd) mem disk) := by
  rw [agreeRecvFile_eq, List.headD_nil, onData_again rfl, Traced.bind_assoc,
    Traced.tell_bind_tell_bind]
  rfl

variable (md5 client mem disk) in
/-- The first chunk is there when `agreeRecvFile` asks for it, or the loop finds it later. The
callback is called with it; when no chunk follows, that is all. -/
theorem reception_eq (hfd : 0 ≤ fd)
    (hchunks : chunks first arrivals = chunk :: rest) (hchunk : chunk ≠ []) :
    ∃ (acts : List Tcp.Act) (data' : TcpConnection) (results' : List RecvResult)
        (k : RecvFile → Traced Event RecvFile),
      reception md5 msg client fd mem disk first arrivals =
        (Traced.tell (copySum msg ++ before acts chunk) >>= fun _ => recvFileCallback md5 results'
          (withChunk chunk data' (asking msg client data' mem disk)) >>= k) ∧
      (rest = [] → ∀ t, ∃ t' : RecvFile, k t = pure t' ∧ t'.disk = t.disk) := by
  cases first with
  | cons found more =>
      obtain ⟨rfl, hrest⟩ := List.cons.inj hchunks
      refine ⟨[], connected fd, more.map .data, fun s => arrivals.foldlM
        (fun s arrival => s.handleRead md5 (.data arrival.1) (arrival.2.map .data))
          { s with data := agreeRecvFile.setError s.data }, ?_, ?_⟩
      · show (agreeRecvFile md5 msg client (connected fd) mem disk _ >>= _) = _
        simp only [agreeRecvFile_found md5 client fd mem disk hchunk, Traced.bind_assoc,
          Traced.pure_bind]
        rfl
      · rintro rfl t
        have hnone : arrivals = [] := eq_nil_of_chunks_eq_nil (List.append_eq_nil_iff.mp hrest).2
        subst hnone
        exact ⟨_, rfl, rfl⟩
  | nil =>
      -- the first chunk is what the first call of `handleRead` finds
      cases arrivals with
      | nil => exact absurd hchunks.symm (List.cons_ne_nil _ _)
      | cons arrival arrivals =>
          obtain ⟨found, more⟩ := arrival
          obtain ⟨rfl, hrest⟩ := List.cons.inj hchunks
          have hrecv : (Tcp.handleRead (.data found) (waiting fd)).Yields
              (Tcp.delivery request found) _ := Tcp.handleRead_data rfl rfl hfd hchunk
          have hread : (asking msg client (waiting fd) mem disk).handleRead md5 (.data found)
              (more.map .data) = Traced.tell ((Tcp.delivery request found).map .data) >>= fun _ =>
                recvFileCallback md5 (more.map .data) (withChunk found
                  (Tcp.handleRead.used (waiting fd)) (asking msg client (waiting fd) mem disk)) :=
            onData_delivery hrecv _ _
          refine ⟨[.recv 0 MAXLINE Tcp.MSG_NOSIGNAL (.fail EAGAIN)],
            Tcp.handleRead.used (waiting fd), more.map .data, fun s => arrivals.foldlM
              (fun s arrival => s.handleRead md5 (.data arrival.1) (arrival.2.map .data)) s, ?_, ?_⟩
          · show (agreeRecvFile md5 msg client (connected fd) mem disk [] >>= _) = _
            simp only [agreeRecvFile_again md5 client fd mem disk, List.foldlM_cons, hread,
              Traced.bind_assoc, Traced.pure_bind, Traced.tell_bind_tell_bind, List.append_assoc]
            rfl
          · rintro rfl t
            have hnone : arrivals = [] :=
              eq_nil_of_chunks_eq_nil (List.append_eq_nil_iff.mp hrest).2
            subst hnone
            exact ⟨_, rfl, rfl⟩

/-! ### The callback -/

/-- The callback builds the path, opens the file, and writes to it what is left of the whole
file. -/
theorem callback_of_yields {s t : RecvFile} {es : List Event} {result : RecvResult}
    {again : RecvFile → Traced Event RecvFile} (h : (s.callback md5 result again).Yields es t) :
    s.disk.opens (FILERECVROOT ++ cstring s.info.fileName_) = true ∧
      ∃ gs, es = overrun .overrun FILEPATHSIZE (FILERECVROOT ++ cstring s.info.fileName_) ++
        .fopen (FILERECVROOT ++ cstring s.info.fileName_) ::
          .fwrite (FILERECVROOT ++ cstring s.info.fileName_) s.info.length_.toNat :: gs := by
  rw [callback, getFileRecvAbsolutePath, Traced.bind_assoc, Traced.tell_bind_yields] at h
  obtain ⟨fs, hrest, rfl⟩ := h
  rw [Traced.pure_bind, Traced.tell_bind_yields] at hrest
  obtain ⟨ks, hthen, rfl⟩ := hrest
  split at hthen
  · exact absurd hthen (Traced.fault_yields _ _)
  · next hopens =>
    obtain ⟨ls, -, rfl⟩ := (Traced.tell_bind_yields ..).mp hthen
    rw [not_or, Bool.not_eq_false] at hopens
    exact ⟨hopens.1, ls, rfl⟩

theorem recvFileCallback_of_yields {s t : RecvFile} {es : List Event}
    (h : (recvFileCallback md5 results s).Yields es t) :
    s.disk.opens (FILERECVROOT ++ cstring s.info.fileName_) = true ∧
      ∃ gs, es = overrun .overrun FILEPATHSIZE (FILERECVROOT ++ cstring s.info.fileName_) ++
        .fopen (FILERECVROOT ++ cstring s.info.fileName_) ::
          .fwrite (FILERECVROOT ++ cstring s.info.fileName_) s.info.length_.toNat :: gs := by
  cases results with
  | nil => exact callback_of_yields h
  | cons result results => exact callback_of_yields h

/-- The chunk that came in last before the callback. -/
theorem received_before (acts : List Tcp.Act) :
    (received (before acts chunk ++ [.fopen (destination msg)])).getLast? = some chunk := by
  have hsplit : received (before acts chunk ++ [.fopen (destination msg)]) =
      received (acts.map .data) ++ [chunk] := by
    rw [before, received_append, received_append, List.append_assoc]
    rfl
  rw [hsplit, List.getLast?_append]
  rfl

/-! ### The checksum -/

/-- A file that fits the buffer of `getMd5` is read in one go. -/
theorem getMd5_of_le {bytes : List UInt8} (hbytes : bytes ≠ []) (hle : bytes.length ≤ MAXLINE) :
    md5.getMd5 bytes = md5.checksum bytes := by
  have hread : bytes.take MAXLINE = bytes := List.take_of_length_le hle
  have hpos : bytes.length ≠ 0 := fun h => hbytes (List.length_eq_zero_iff.mp h)
  have hloop : md5.readLoop (bytes.length + 1) bytes md5.init = md5.update md5.init bytes := by
    simp only [Md5.readLoop, hread, if_pos hpos]
    split
    · rfl
    · -- the file ends where the buffer does, so the next read finds nothing
      obtain ⟨n, hn⟩ : ∃ n, bytes.length = n + 1 := Nat.exists_eq_succ_of_ne_zero hpos
      rw [hn, List.drop_of_length_le hle]
      rfl
  rw [Md5.getMd5, hloop, Md5.checksum]

theorem length_checksum (bytes : List UInt8) : (md5.checksum bytes).length = MD5LENTH * 2 := by
  simp [Md5.checksum, Md5.print, hexByte, List.length_flatMap]

theorem length_cstring_le (block : List UInt8) : (cstring block).length ≤ block.length := by
  rw [cstring, List.length_take]
  exact Nat.min_le_right _ _

/-! ### The whole receive -/

variable (msg client data mem disk) in
/-- The receive when the whole file is on the disk. -/
def written (content : List UInt8) : RecvFile :=
  { withChunk content data (asking msg client data mem disk) with
    disk := disk.append (destination msg) content }

theorem content_written {content : List UInt8} (hfresh : disk.content (destination msg) = none) :
    (written msg client data mem disk content).disk.content (destination msg) = some content := by
  show Function.update disk.content (destination msg)
    (some ((disk.content (destination msg)).getD [] ++ content)) (destination msg) = some content
  rw [Function.update_self, hfresh]
  rfl

theorem getFileRecvAbsolutePath_eq (hshort : (destination msg).length < FILEPATHSIZE) :
    getFileRecvAbsolutePath msg.fileName = pure (destination msg) := by
  rw [getFileRecvAbsolutePath]
  show (Traced.tell (overrun Event.overrun FILEPATHSIZE (destination msg)) >>= _) = _
  rw [overrun_of_lt hshort, Traced.tell_nil_bind]
  rfl

variable (data) in
/-- A file that came in as a whole has the checksum that was offered. -/
theorem complete_written {content : List UInt8} (hcontent : content ≠ [])
    (hle : content.length ≤ MAXLINE) (hsum : msg.checkSum = md5.checksum content)
    (hfresh : disk.content (destination msg) = none)
    (hshort : (destination msg).length < FILEPATHSIZE) :
    (written msg client data mem disk content).complete md5 =
      (written msg client data mem disk content).analysisProtobuf
        (makeNoticeMsg RECVFILESUCC msg.fileName) := by
  have hpath : getFileRecvAbsolutePath (written msg client data mem disk content).info.fileName_ =
      pure (destination msg) := getFileRecvAbsolutePath_eq hshort
  have hsame : cstring (md5.getMd5 content) =
      cstring (written msg client data mem disk content).info.checkSum_ := by
    show _ = cstring (cstring msg.checkSum)
    rw [cstring_cstring, hsum, getMd5_of_le hcontent hle]
  simp only [complete, hpath, Traced.pure_bind, content_written hfresh, Option.map_some,
    Option.getD_some, hsame, ne_eq, not_true_eq_false, if_false]
  rfl

/-- What the callback does with a file that has come in as a whole. -/
theorem recvFileCallback_whole {content : List UInt8} (hcontent : content ≠ [])
    (hle : content.length ≤ MAXLINE) (hoffer : msg.length = content.length)
    (hsum : msg.checkSum = md5.checksum content) (hfresh : disk.content (destination msg) = none)
    (hshort : (destination msg).length < FILEPATHSIZE)
    (hopens : disk.opens (destination msg) = true) :
    recvFileCallback md5 results (withChunk content data (asking msg client data mem disk)) =
      Traced.tell [.fopen (destination msg), .fwrite (destination msg) content.length] >>= fun _ =>
        (written msg client data mem disk content).analysisProtobuf
          (makeNoticeMsg RECVFILESUCC msg.fileName) := by
  let s := withChunk content data (asking msg client data mem disk)
  have hpath : getFileRecvAbsolutePath s.info.fileName_ = pure (destination msg) :=
    getFileRecvAbsolutePath_eq hshort
  have hlength : s.info.length_ = content.length := hoffer
  have hgood : ¬ (s.disk.opens (destination msg) = false ∨ (content.length : Int) < 0) := by
    rintro (hclosed | hneg)
    · exact Bool.noConfusion (hopens.symm.trans hclosed)
    · omega
  have hread : s.mem.read 0 content.length = content := Memory.read_write _ 0 content
  have hwhole : s.len = toSize content.length := by
    show content.length = toSize content.length
    unfold toSize MAXLINE at *
    omega
  have hcallback : ∀ result again, s.callback md5 result again =
      Traced.tell [.fopen (destination msg), .fwrite (destination msg) content.length] >>= fun _ =>
        (written msg client data mem disk content).complete md5 := by
    intro result again
    simp only [callback, hpath, hlength, Traced.pure_bind, if_neg hgood, Int.toNat_natCast, hread,
      if_pos hwhole, Traced.tell_bind_tell_bind]
    rfl
  rw [← complete_written data hcontent hle hsum hfresh hshort]
  cases results with
  | nil => exact hcallback _ _
  | cons result results => exact hcallback _ _

/-- The copy of a name is no notice. -/
theorem notices_overrun (size : Nat) (text : List UInt8) :
    notices ((overrun Act.overrun size text).map .client) = [] := by
  unfold overrun
  split <;> rfl

/-- The notice of the outcome goes to the user. -/
theorem analysisProtobuf_outcome {type : Int} (htype : type = RECVFILESUCC ∨ type = RECVFILEFAIL)
    (client : DTPClient) (fileName : List UInt8) :
    client.analysisProtobuf (makeNoticeMsg type fileName) =
      DTPClient.notify (makeNoticeMsg type fileName) client := by
  refine DTPClient.analysisProtobuf_of_ne client ?_ ?_
  · show type ≠ SENDDATAFLAG
    rcases htype with rfl | rfl <;> decide
  · show type ≠ RECVDATAONUDP
    rcases htype with rfl | rfl <;> decide

/-- The user is notified of the outcome, if there is one. -/
theorem exists_notice {type : Int} (htype : type = RECVFILESUCC ∨ type = RECVFILEFAIL)
    (s : RecvFile) (fileName : List UInt8) :
    ∃ (acts : List Act) (t : RecvFile),
      (s.analysisProtobuf (makeNoticeMsg type fileName)).Yields
        (.analysisProtobuf (makeNoticeMsg type fileName) :: acts.map .client) t ∧
      t.disk = s.disk ∧
      notices (acts.map .client) = if s.client.noticeCallback_ = none then [] else [type] := by
  have hanalysis := analysisProtobuf_outcome htype s.client fileName
  obtain ⟨acts, client', hnotify⟩ :=
    DTPClient.exists_notify (makeNoticeMsg type fileName) s.client
  refine ⟨acts, { s with client := client' }, ?_, rfl, ?_⟩
  · obtain ⟨hlog, hvalue⟩ := hnotify
    refine (Traced.tell_bind_yields ..).mpr ⟨_, (Traced.tell_bind_yields ..).mpr ⟨[], ?_, rfl⟩, ?_⟩
    · simp only [hanalysis, hvalue]
      exact ⟨rfl, rfl⟩
    · rw [hanalysis, hlog, List.append_nil]
      rfl
  · rcases (DTPClient.notify_of_yields hnotify).2 with ⟨hnone, rfl⟩ | ⟨hsome, size, text, name, rfl⟩
    · rw [if_pos hnone]
      rfl
    · rw [if_neg hsome, List.map_append, notices_append, notices_overrun]
      rfl

/-- The trace of a receive that was called back with the whole file. -/
def finished (msg : ControlMsg) (content : List UInt8) (acts : List Tcp.Act)
    (told : List Act) : List Event :=
  (before acts content ++ [.fopen (destination msg)]) ++
    .fwrite (destination msg) content.length ::
      .analysisProtobuf (makeNoticeMsg RECVFILESUCC msg.fileName) :: told.map .client

theorem notices_finished {content : List UInt8} (acts : List Tcp.Act) (told : List Act) :
    notices (finished msg content acts told) = notices (told.map .client) := by
  have hquiet : notices (before acts content ++ [.fopen (destination msg)]) = [] := by
    refine List.filterMap_eq_nil_iff.mpr fun e he => ?_
    simp only [before, List.mem_append, List.mem_map, List.mem_singleton] at he
    rcases he with (⟨act, -, rfl⟩ | ⟨act, -, rfl⟩) | rfl <;> rfl
  rw [finished, notices_append, hquiet, List.nil_append]
  rfl

/-- No copy overruns its block. -/
theorem inside_finished {content : List UInt8} (acts : List Tcp.Act) (told : List Act) :
    .overrun ∉ finished msg content acts told := by
  simp [finished, before]

/-- Only what was received is written. -/
theorem within_finished {content : List UInt8} {acts : List Tcp.Act} {told : List Act}
    {pre post : List Event} {path : List UInt8} {n : Nat}
    (h : finished msg content acts told = pre ++ .fwrite path n :: post) :
    ∃ chunk, (received pre).getLast? = some chunk ∧ n ≤ chunk.length := by
  have hbefore : ∀ path n, .fwrite path n ∉ before acts content ++ [.fopen (destination msg)] := by
    intro path n hmem
    simp [before] at hmem
  have hbehind : ∀ path n, .fwrite path n ∉
      Event.analysisProtobuf (makeNoticeMsg RECVFILESUCC msg.fileName) :: told.map .client := by
    intro path n hmem
    simp at hmem
  have honly : Event.fwrite path n = .fwrite (destination msg) content.length := by
    have hmem : .fwrite path n ∈ finished msg content acts told := by
      rw [h]
      exact List.mem_append_right _ (List.mem_cons_self ..)
    rcases List.mem_append.mp hmem with hmem | hmem
    · exact absurd hmem (hbefore _ _)
    · rcases List.mem_cons.mp hmem with heq | hmem
      · exact heq
      · exact absurd hmem (hbehind _ _)
  rw [honly, finished] at h
  obtain ⟨rfl, -, -⟩ :=
    (List.append_cons_inj_of_notMem (hbefore _ _) (hbehind _ _)).mp h
  exact ⟨content, received_before acts, (Event.fwrite.inj honly).2.le⟩

/-- A file that is received arrives as one chunk, at a path that is short enough and can be
opened: the first call of the callback writes as much as the whole file has. -/
theorem of_receives {content : List UInt8} {log : List Event} {s : RecvFile} (hfd : 0 ≤ fd)
    (hcopy : (cstring msg.checkSum).length < MD5LENTH * 2 + 1)
    (hoffer : msg.length = content.length)
    (hcut : Cutting MAXLINE content (chunk :: rest))
    (hchunks : chunks first arrivals = chunk :: rest)
    (hyields : (reception md5 msg client fd mem disk first arrivals).Yields log s)
    (h : Receives msg content log s) :
    rest = [] ∧ (destination msg).length < FILEPATHSIZE ∧ disk.opens (destination msg) = true := by
  obtain ⟨acts, data', results', k, heq, -⟩ := reception_eq md5 client mem disk hfd hchunks
    (hcut.nonempty chunk (List.mem_cons_self ..))
  rw [heq, copySum_of_lt hcopy, List.nil_append] at hyields
  obtain ⟨fs, hthen, rfl⟩ := (Traced.tell_bind_yields ..).mp hyields
  obtain ⟨gs, t, ls, hcallback, -, rfl⟩ := Traced.bind_yields.mp hthen
  obtain ⟨hopens, ks, rfl⟩ := recvFileCallback_of_yields hcallback
  have hshort : (destination msg).length < FILEPATHSIZE := by
    refine (not_mem_overrun_iff Event.overrun).mp fun hover => h.inside ?_
    exact List.mem_append_right _ (List.mem_append_left _ (List.mem_append_left _ hover))
  have hnone : overrun Event.overrun FILEPATHSIZE (destination msg) = [] := overrun_of_lt hshort
  refine ⟨?_, hshort, hopens⟩
  by_contra hmore
  obtain ⟨last, hreceived, hle⟩ := h.within (before acts chunk ++ [.fopen (destination msg)])
    (destination msg) msg.length.toNat (ks ++ ls)
    (by
      show _ ++ (overrun Event.overrun FILEPATHSIZE (destination msg) ++ _ ++ _) = _
      simp only [hnone, List.append_assoc, List.cons_append, List.nil_append]
      rfl)
  rw [received_before] at hreceived
  obtain rfl := Option.some.inj hreceived
  have hlt := hcut.length_lt hmore
  omega

/-- A file that arrives as one chunk and can be written is stored, and the user is notified. -/
theorem exists_finished {content : List UInt8} (hfd : 0 ≤ fd) (hcontent : content ≠ [])
    (hle : content.length ≤ MAXLINE)
    (hcopy : (cstring msg.checkSum).length < MD5LENTH * 2 + 1)
    (hoffer : msg.length = content.length)
    (hsum : msg.checkSum = md5.checksum content) (hfresh : disk.content (destination msg) = none)
    (hchunks : chunks first arrivals = [content])
    (hshort : (destination msg).length < FILEPATHSIZE)
    (hopens : disk.opens (destination msg) = true) :
    ∃ acts told s,
      (reception md5 msg client fd mem disk first arrivals).Yields
        (finished msg content acts told) s ∧
      s.disk.content (destination msg) = some content ∧
      notices (told.map .client) =
        if client.noticeCallback_ = none then [] else [RECVFILESUCC] := by
  obtain ⟨acts, data', results', k, heq, hone⟩ :=
    reception_eq md5 client mem disk hfd hchunks hcontent
  rw [copySum_of_lt hcopy, List.nil_append] at heq
  obtain ⟨told, t, hnotice, hdisk, hnotices⟩ :=
    exists_notice (.inl rfl) (written msg client data' mem disk content) msg.fileName
  obtain ⟨t', hpure, hdisk'⟩ := hone rfl t
  refine ⟨acts, told, t', ?_, ?_, hnotices⟩
  · rw [heq, recvFileCallback_whole hcontent hle hoffer hsum hfresh hshort hopens]
    refine (Traced.tell_bind_yields ..).mpr ⟨_, Traced.bind_yields.mpr ⟨_, t, [],
      (Traced.tell_bind_yields ..).mpr ⟨_, hnotice, rfl⟩, ?_, rfl⟩, ?_⟩
    · rw [hpure]
      exact ⟨rfl, rfl⟩
    · simp only [finished, List.append_assoc, List.append_nil, List.cons_append, List.nil_append]
  · rw [hdisk', hdisk]
    exact content_written hfresh

/-- A file is received exactly when it arrives as one chunk, its path is short enough and can be
opened, and there is a user to notify. -/
theorem receives_iff {content : List UInt8} (hfd : 0 ≤ fd) (hcontent : content ≠ [])
    (hoffer : msg.length = content.length) (hsum : msg.checkSum = md5.checksum content)
    (hfresh : disk.content (destination msg) = none)
    (hcut : Cutting MAXLINE content (chunks first arrivals)) :
    (∃ log s, (reception md5 msg client fd mem disk first arrivals).Yields log s ∧
      Receives msg content log s) ↔
    (chunks first arrivals).length = 1 ∧ (destination msg).length < FILEPATHSIZE ∧
      disk.opens (destination msg) = true ∧ client.noticeCallback_ ≠ none := by
  have hcopy : (cstring msg.checkSum).length < MD5LENTH * 2 + 1 := by
    refine Nat.lt_succ_of_le ((length_cstring_le _).trans ?_)
    rw [hsum, length_checksum]
  obtain ⟨chunk, rest, hchunks⟩ := List.exists_cons_of_ne_nil (hcut.ne_nil hcontent)
  rw [hchunks] at hcut
  constructor
  · rintro ⟨log, s, hyields, h⟩
    obtain ⟨rfl, hshort, hopens⟩ := of_receives hfd hcopy hoffer hcut hchunks hyields h
    obtain rfl := hcut.eq_of_singleton
    refine ⟨by rw [hchunks]; rfl, hshort, hopens, fun hnone => ?_⟩
    obtain ⟨acts, told, t, hyields', -, hnotices⟩ :=
      exists_finished hfd hcontent (hcut.length_le _ (List.mem_cons_self ..)) hcopy hoffer hsum
        hfresh hchunks hshort hopens
    obtain ⟨rfl, -⟩ := hyields.unique hyields'
    have hnotified := h.notified
    rw [notices_finished, hnotices, if_pos hnone] at hnotified
    exact List.cons_ne_nil _ _ hnotified.symm
  · rintro ⟨hlength, hshort, hopens, hcb⟩
    rw [hchunks] at hlength
    obtain rfl : rest = [] := List.length_eq_zero_iff.mp (Nat.succ.inj hlength)
    obtain rfl := hcut.eq_of_singleton
    obtain ⟨acts, told, s, hyields, hstored, hnotices⟩ :=
      exists_finished hfd hcontent (hcut.length_le _ (List.mem_cons_self ..)) hcopy hoffer hsum
        hfresh hchunks hshort hopens
    refine ⟨_, s, hyields, inside_finished acts told, hstored, ?_,
      fun pre path n post h => within_finished h⟩
    rw [notices_finished, hnotices, if_neg hcb]

end Reception

/-! ### One chunk and two -/

/-- The checksum, on the contents of the examples. A context is what it was fed. -/
def md5Table : Md5 (List UInt8) where
  init := []
  update := List.append
  final ctx :=
    if ctx = [0x61] then
      ![0x0c, 0xc1, 0x75, 0xb9, 0xc0, 0xf1, 0xb6, 0xa8, 0x31, 0xc3, 0x99, 0xe2, 0x69, 0x77, 0x26,
        0x61]
    else if ctx = [0x61, 0x62] then
      ![0x18, 0x7e, 0xf4, 0x43, 0x61, 0x22, 0xd1, 0xcc, 0x2f, 0x40, 0xdc, 0x2b, 0x92, 0xf0, 0xeb,
        0xa0]
    else fun _ => 0

/-- An offer of a file `f`, with its checksum. -/
def offer (content : List UInt8) : ControlMsg :=
  { flag := SENDFILEFLAG
    dataPort := 1000
    checkSum := md5Table.checksum content
    fileName := [0x66]
    length := content.length }

/-- A file of one chunk. -/
theorem receives_iff_one :
    Cutting MAXLINE [0x61] (chunks [] [([0x61], [])]) ∧
      ∃ log s, (reception md5Table (offer [0x61]) { noticeCallback_ := some 0 } 7 (fun _ => 0) {} []
        [([0x61], [])]).Yields log s ∧ Receives (offer [0x61]) [0x61] log s := by
  have hcut : Cutting MAXLINE [0x61] (chunks [] [([0x61], [])]) := ⟨rfl, by decide, by decide⟩
  exact ⟨hcut, (receives_iff (by decide) (by decide) rfl rfl rfl hcut).mpr
    ⟨rfl, by decide, rfl, Option.some_ne_none _⟩⟩

/-- A file of two chunks. The first call of the callback writes two bytes, of which one has come
in. -/
theorem unreceived_written :
    Cutting MAXLINE [0x61, 0x62] (chunks [] [([0x61], []), ([0x62], [])]) ∧
      ¬ ∃ log s, (reception md5Table (offer [0x61, 0x62]) { noticeCallback_ := some 0 } 7
        (fun _ => 0) {} [] [([0x61], []), ([0x62], [])]).Yields log s ∧
          Receives (offer [0x61, 0x62]) [0x61, 0x62] log s := by
  have hcut : Cutting MAXLINE [0x61, 0x62] (chunks [] [([0x61], []), ([0x62], [])]) :=
    ⟨rfl, by decide, by decide⟩
  refine ⟨hcut, ?_⟩
  rintro ⟨log, s, hyields, h⟩
  have hcopy : (cstring (offer [0x61, 0x62]).checkSum).length < MD5LENTH * 2 + 1 := by
    refine Nat.lt_succ_of_le ((length_cstring_le _).trans ?_)
    exact (length_checksum _).le
  exact List.cons_ne_nil _ _ (of_receives (by decide) hcopy rfl hcut rfl hyields h).1

end Ndsl.Proofs.RecvFile
