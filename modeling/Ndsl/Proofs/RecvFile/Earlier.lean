import Ndsl.Proofs.RecvFile.Receives

/-!
# `Ndsl.Proofs.RecvFile.Earlier`: the file that was there before

`recvFileCallback` opens its path for appending, takes the checksum of the whole file, and deletes
the file when the checksum is not the offered one. So what was at the path before goes into the
checksum, and is deleted with the file.

`reception_completes` follows all the calls of the callback, whatever the chunks are: each appends
as many bytes as the file has left (`appended`). `keeps_iff` says when a receive leaves exactly what
was transmitted and reports success, or leaves what was there and reports failure.
-/

set_option autoImplicit false

namespace Ndsl.Proofs.RecvFile

open Ndsl.Lib
open Ndsl.Net Ndsl.Net.Dtp Ndsl.Net.Dtp.RecvFile
open Ndsl.Net.Tcp (EAGAIN RecvResult TcpConnection)

/-! ### The law -/

section
variable {κ : Type} (md5 : Md5 κ)

/-- The bytes have the checksum that was offered. -/
def Matches (msg : ControlMsg) (bytes : List UInt8) : Prop :=
  cstring (md5.getMd5 bytes) = cstring msg.checkSum

instance (msg : ControlMsg) (bytes : List UInt8) : Decidable (Matches md5 msg bytes) :=
  inferInstanceAs (Decidable (_ = _))

/-- What a receive owes to its user and to the file that was at its path. -/
structure Keeps (msg : ControlMsg) (content : List UInt8) (disk : Disk) (log : List Event)
    (s : RecvFile) : Prop where
  inside : .overrun ∉ log
  succeeds : Matches md5 msg content →
    s.disk.content (destination msg) = some content ∧ notices log = [RECVFILESUCC]
  fails : ¬ Matches md5 msg content →
    s.disk.content (destination msg) = disk.content (destination msg) ∧
      notices log = [RECVFILEFAIL]

end

/-! ### What is appended -/

/-- What the calls of the callback append: each as many bytes as the file has left, of a buffer
that begins with the chunk that has come in, and that is zeroed behind it. -/
def appended (mem : Memory) : List (List UInt8) → List UInt8
  | [] => []
  | chunk :: rest =>
    (mem.write 0 chunk).read 0 (chunk :: rest).flatten.length ++
      appended ((mem.write 0 chunk).write 0 (List.replicate MAXLINE 0)) rest

theorem appended_singleton (mem : Memory) (chunk : List UInt8) :
    appended mem [chunk] = chunk := by
  rw [appended, appended, List.append_nil, List.flatten_cons, List.flatten_nil, List.append_nil,
    Memory.read_write]

/-- More bytes are appended than were transmitted, if there is a second chunk. -/
theorem lt_length_appended (mem : Memory) (chunk : List UInt8) {next : List UInt8}
    (rest : List (List UInt8)) (hnext : next ≠ []) : (chunk :: next :: rest).flatten.length <
      (appended mem (chunk :: next :: rest)).length := by
  have hpos : 0 < (next :: rest).flatten.length := by
    rw [List.flatten_cons, List.length_append]
    exact Nat.add_pos_left (List.length_pos_iff.mpr hnext) _
  rw [appended, appended, List.length_append, List.length_append, Memory.length_read,
    Memory.length_read]
  omega

/-! ### The stages of a receive -/

/-- The receive waits for the chunks `left`. `total` is what it appends in the end. -/
structure Awaits (msg : ControlMsg) (client : DTPClient) (disk : Disk) (total : List UInt8)
    (left : List (List UInt8)) (s : RecvFile) : Prop where
  info : s.info =
    { fileName_ := msg.fileName
      length_ := left.flatten.length
      checkSum_ := cstring msg.checkSum }
  client_eq : s.client = client
  opens : s.disk.opens = disk.opens
  fits : left.flatten.length ≤ INT_MAX
  appends : ∃ bytes, (s.disk.content (destination msg)).getD [] =
      (disk.content (destination msg)).getD [] ++ bytes ∧ bytes ++ appended s.mem left = total

/-- The whole file has come in. -/
structure Arrived (msg : ControlMsg) (client : DTPClient) (disk : Disk) (total : List UInt8)
    (s : RecvFile) : Prop where
  fileName_eq : s.info.fileName_ = msg.fileName
  checkSum_eq : s.info.checkSum_ = cstring msg.checkSum
  client_eq : s.client = client
  content_eq : s.disk.content (destination msg) =
    some ((disk.content (destination msg)).getD [] ++ total)

/-- The data connection has its channel. -/
def Live (data : TcpConnection) : Prop :=
  ∃ channel, data.pTcpChannel_ = some channel ∧ 0 ≤ channel.fd

/-- The request of the receive is left with the data connection. -/
structure Waits (data : TcpConnection) : Prop where
  live : Live data
  request_eq : data.RecvInfo_ = (Tcp.onRecv.register request data).RecvInfo_

/-- The receive when the callback has written. -/
def afterWrite (msg : ControlMsg) (chunk : List UInt8) (left : List (List UInt8))
    (data : TcpConnection) (s : RecvFile) : RecvFile :=
  { withChunk chunk data s with
    disk := s.disk.append (destination msg)
      ((s.mem.write 0 chunk).read 0 (chunk :: left).flatten.length) }

/-- The receive when the callback asks for the next chunk. -/
def askingAgain (msg : ControlMsg) (chunk : List UInt8) (left : List (List UInt8))
    (data : TcpConnection) (s : RecvFile) : RecvFile :=
  { afterWrite msg chunk left data s with
    mem := (s.mem.write 0 chunk).write 0 (List.replicate MAXLINE 0)
    info := { s.info with length_ := left.flatten.length } }

section Stages
variable {κ : Type} {md5 : Md5 κ} {msg : ControlMsg} {client : DTPClient} {fd : Int}
  {data : TcpConnection} {mem : Memory} {disk : Disk} {total chunk : List UInt8} {s : RecvFile}
  {left : List (List UInt8)}

variable (data) in
/-- The file behind the `fwrite`. -/
theorem content_afterWrite (h : Awaits msg client disk total (chunk :: left) s) :
    ∃ bytes, (afterWrite msg chunk left data s).disk.content (destination msg) =
        some ((disk.content (destination msg)).getD [] ++ bytes) ∧
      bytes ++ appended ((s.mem.write 0 chunk).write 0 (List.replicate MAXLINE 0)) left =
        total := by
  obtain ⟨bytes, hcontent, htotal⟩ := h.appends
  refine ⟨bytes ++ (s.mem.write 0 chunk).read 0 (chunk :: left).flatten.length, ?_, ?_⟩
  · show Function.update s.disk.content (destination msg) _ (destination msg) = _
    rw [Function.update_self, hcontent, List.append_assoc]
  · rw [List.append_assoc]
    exact htotal

/-- The last chunk completes the file. -/
theorem Awaits.arrived (h : Awaits msg client disk total [chunk] s) :
    Arrived msg client disk total (afterWrite msg chunk [] data s) := by
  obtain ⟨bytes, hcontent, htotal⟩ := content_afterWrite data h
  refine ⟨?_, ?_, h.client_eq, ?_⟩
  · show s.info.fileName_ = _
    rw [h.info]
  · show s.info.checkSum_ = _
    rw [h.info]
  · rw [hcontent, ← htotal, appended, List.append_nil]

/-- Behind another chunk, the receive waits for the others. -/
theorem Awaits.next (h : Awaits msg client disk total (chunk :: left) s) :
    Awaits msg client disk total left (askingAgain msg chunk left data s) := by
  obtain ⟨bytes, hcontent, htotal⟩ := content_afterWrite data h
  refine ⟨?_, h.client_eq, h.opens, ?_, bytes, ?_, htotal⟩
  · show { s.info with length_ := (left.flatten.length : Int) } = _
    rw [h.info]
  · have hfits := h.fits
    rw [List.flatten_cons, List.length_append] at hfits
    omega
  · show ((afterWrite msg chunk left data s).disk.content (destination msg)).getD [] = _
    rw [hcontent, Option.getD_some]

/-- What is awaited does not depend on the state of the connection. -/
theorem Awaits.withData (h : Awaits msg client disk total left s) (data : TcpConnection) :
    Awaits msg client disk total left { s with data := data } :=
  ⟨h.info, h.client_eq, h.opens, h.fits, h.appends⟩

/-- The callback writes, and completes the file or asks for the next chunk. -/
theorem callback_eq (h : Awaits msg client disk total (chunk :: left) s)
    (hshort : (destination msg).length < FILEPATHSIZE)
    (hopens : disk.opens (destination msg) = true) (result : RecvResult)
    (again : RecvFile → Traced Event RecvFile) :
    (withChunk chunk data s).callback md5 result again =
      Traced.tell [.fopen (destination msg),
        .fwrite (destination msg) (chunk :: left).flatten.length] >>= fun _ =>
          if left.flatten.length = 0 then (afterWrite msg chunk left data s).complete md5
          else (askingAgain msg chunk left data s).onData (Tcp.onRecv request result data)
            again := by
  have hpath : getFileRecvAbsolutePath (withChunk chunk data s).info.fileName_ =
      pure (destination msg) := by
    show getFileRecvAbsolutePath s.info.fileName_ = _
    rw [h.info]
    exact getFileRecvAbsolutePath_eq hshort
  have hlength :
      (withChunk chunk data s).info.length_ = ((chunk :: left).flatten.length : Int) := by
    show s.info.length_ = _
    rw [h.info]
  have hsplit : (chunk :: left).flatten.length = chunk.length + left.flatten.length := by
    rw [List.flatten_cons, List.length_append]
  have hfits := h.fits
  have hgood : ¬ ((withChunk chunk data s).disk.opens (destination msg) = false ∨
      ((chunk :: left).flatten.length : Int) < 0) := by
    rintro (hclosed | hneg)
    · rw [show (withChunk chunk data s).disk.opens = disk.opens from h.opens] at hclosed
      exact Bool.noConfusion (hopens.symm.trans hclosed)
    · omega
  have hwhole : chunk.length = toSize ((chunk :: left).flatten.length : Int) ↔
      left.flatten.length = 0 := by
    unfold toSize INT_MAX at *
    omega
  have hleft : ((chunk :: left).flatten.length : Int) - toInt chunk.length =
      left.flatten.length := by
    rw [toInt_of_lt (by unfold INT_MAX at hfits; omega)]
    omega
  have hlen : (withChunk chunk data s).len = chunk.length := rfl
  simp only [callback, hpath, hlength, Traced.pure_bind, if_neg hgood, Int.toNat_natCast, hlen,
    hwhole, hleft, Traced.tell_bind_tell_bind]
  rfl

/-! ### The calls of the callback -/

theorem notices_data (acts : List Tcp.Act) : notices (acts.map .data) = [] := by
  refine List.filterMap_eq_nil_iff.mpr fun e he => ?_
  obtain ⟨act, -, rfl⟩ := List.mem_map.mp he
  rfl

/-- Nothing is noticed, and no copy overruns its block. -/
def Quiet (es : List Event) : Prop := notices es = [] ∧ .overrun ∉ es

theorem Quiet.append {es fs : List Event} (hes : Quiet es) (hfs : Quiet fs) : Quiet (es ++ fs) := by
  refine ⟨?_, fun hover => ?_⟩
  · rw [notices_append, hes.1, hfs.1]
    rfl
  · exact (List.mem_append.mp hover).elim hes.2 hfs.2

theorem quiet_data (acts : List Tcp.Act) : Quiet (acts.map .data) :=
  ⟨notices_data acts, by simp⟩

theorem quiet_written (n : Nat) :
    Quiet [.fopen (destination msg), .fwrite (destination msg) n] := ⟨rfl, by simp⟩

/-- Chunks that are not empty leave something to receive. -/
theorem length_flatten_eq_zero_iff (hnonempty : ∀ c ∈ left, c ≠ []) :
    left.flatten.length = 0 ↔ left = [] := by
  constructor
  · intro hzero
    cases left with
    | nil => rfl
    | cons c left =>
        have hflat := List.append_eq_nil_iff.mp (List.length_eq_zero_iff.mp hzero)
        exact absurd hflat.1 (hnonempty c List.mem_cons_self)
  · rintro rfl
    rfl

variable (md5) in
/-- What a chunk brings about, with those that follow it without the loop in between: the file is
complete when no chunk is left for later, and otherwise the receive waits. -/
theorem recvFileCallback_eq (hshort : (destination msg).length < FILEPATHSIZE)
    (hopens : disk.opens (destination msg) = true) {later : List (List UInt8)} :
    ∀ {more : List (List UInt8)} {chunk : List UInt8} {data : TcpConnection} {s : RecvFile},
      Awaits msg client disk total (chunk :: (more ++ later)) s → Live data →
      (∀ c ∈ more ++ later, c ≠ []) →
      ∃ es t, Quiet es ∧
        ((later = [] ∧ Arrived msg client disk total t ∧
          recvFileCallback md5 (more.map .data) (withChunk chunk data s) =
            Traced.tell es >>= fun _ => t.complete md5) ∨
        (later ≠ [] ∧ Awaits msg client disk total later t ∧ Waits t.data ∧
          recvFileCallback md5 (more.map .data) (withChunk chunk data s) =
            Traced.tell es >>= fun _ => pure t)) := by
  intro more
  induction more with
  | nil =>
      intro chunk data s h hlive hnonempty
      have hcallback : recvFileCallback md5 [] (withChunk chunk data s) = _ :=
        callback_eq h hshort hopens (.fail EAGAIN) pure
      -- the connection has nothing more now: the file is complete, or the receive is registered
      by_cases hlater : later = []
      · subst hlater
        exact ⟨_, _, quiet_written _, .inl ⟨rfl, h.arrived, hcallback⟩⟩
      · rw [if_neg (mt (length_flatten_eq_zero_iff hnonempty).mp hlater)] at hcallback
        obtain ⟨channel, hchannel, hfd⟩ := hlive
        rw [onData_again hchannel, Traced.tell_bind_tell_bind] at hcallback
        exact ⟨_, { askingAgain msg chunk later data s with
          data := Tcp.onRecv.register request data }, (quiet_written _).append ⟨rfl, by simp⟩,
          .inr ⟨hlater, h.next.withData _, ⟨⟨channel, hchannel, hfd⟩, rfl⟩, hcallback⟩⟩
  | cons next more ih =>
      intro chunk data s h hlive hnonempty
      have hcallback :
          recvFileCallback md5 ((next :: more).map .data) (withChunk chunk data s) = _ :=
        callback_eq h hshort hopens (.data next) (recvFileCallback md5 (more.map .data))
      have hnext : Awaits msg client disk total (next :: (more ++ later))
          (askingAgain msg chunk (next :: (more ++ later)) data s) := h.next
      have hleft : (next :: (more ++ later)).flatten.length ≠ 0 :=
        mt (length_flatten_eq_zero_iff hnonempty).mp (List.cons_ne_nil _ _)
      obtain ⟨channel, hchannel, hfd⟩ := hlive
      have hrecv : (Tcp.onRecv request (.data next) data).Yields (Tcp.delivery request next) _ :=
        Tcp.onRecv_data hchannel (hnonempty next List.mem_cons_self)
      -- the next chunk is there when the callback asks for it
      rw [List.cons_append, if_neg hleft, onData_delivery hrecv, Traced.tell_bind_tell_bind]
        at hcallback
      obtain ⟨es, t, hquiet, hend⟩ := ih hnext ⟨channel, hchannel, hfd⟩
        fun c hc => hnonempty c (List.mem_cons_of_mem _ hc)
      refine ⟨[.fopen (destination msg),
        .fwrite (destination msg) (chunk :: next :: (more ++ later)).flatten.length] ++
          (Tcp.delivery request next).map .data ++ es, t,
        ((quiet_written _).append (quiet_data _)).append hquiet, ?_⟩
      refine hend.imp ?_ ?_
      · rintro ⟨hlater, harrived, heq⟩
        refine ⟨hlater, harrived, hcallback.trans ?_⟩
        rw [heq, Traced.tell_bind_tell_bind]
      · rintro ⟨hlater, hawaits, hwaits, heq⟩
        refine ⟨hlater, hawaits, hwaits, hcallback.trans ?_⟩
        rw [heq, Traced.tell_bind_tell_bind]

variable (md5) in
/-- The chunks that the loop finds complete the file. -/
theorem foldlM_handleRead_eq (hshort : (destination msg).length < FILEPATHSIZE)
    (hopens : disk.opens (destination msg) = true)
    {arrivals : List (List UInt8 × List (List UInt8))} :
    ∀ {s : RecvFile}, Awaits msg client disk total (chunks [] arrivals) s → Waits s.data →
      (∀ c ∈ chunks [] arrivals, c ≠ []) → arrivals ≠ [] →
      ∃ es t, Quiet es ∧ Arrived msg client disk total t ∧
        arrivals.foldlM (fun s arrival => s.handleRead md5 (.data arrival.1)
          (arrival.2.map .data)) s = Traced.tell es >>= fun _ => t.complete md5 := by
  induction arrivals with
  | nil => exact fun _ _ _ hne => absurd rfl hne
  | cons arrival arrivals ih =>
      intro s h hwaits hnonempty _
      obtain ⟨chunk, more⟩ := arrival
      have hchunks : chunks [] ((chunk, more) :: arrivals) =
          chunk :: (more ++ chunks [] arrivals) := rfl
      rw [hchunks] at h hnonempty
      obtain ⟨⟨channel, hchannel, hfd⟩, hrequest⟩ := hwaits
      -- the loop reads the first chunk of the arrival, and the callback asks for the others
      have hrecv : (Tcp.handleRead (.data chunk) s.data).Yields (Tcp.delivery request chunk) _ :=
        Tcp.handleRead_data hrequest hchannel hfd (hnonempty chunk List.mem_cons_self)
      have hread : s.handleRead md5 (.data chunk) (more.map .data) =
          Traced.tell ((Tcp.delivery request chunk).map .data) >>= fun _ =>
            recvFileCallback md5 (more.map .data)
              (withChunk chunk (Tcp.handleRead.used s.data) s) := onData_delivery hrecv _ _
      have hlive : Live (Tcp.handleRead.used s.data) := ⟨channel, hchannel, hfd⟩
      obtain ⟨es, t, hquiet, hend⟩ := recvFileCallback_eq md5 hshort hopens h hlive
        fun c hc => hnonempty c (List.mem_cons_of_mem _ hc)
      rw [List.foldlM_cons, hread]
      have hquiet' : Quiet ((Tcp.delivery request chunk).map .data ++ es) :=
        (quiet_data _).append hquiet
      rcases hend with ⟨hlater, harrived, heq⟩ | ⟨hlater, hawaits, hwaits', heq⟩
      · -- it was the last arrival
        obtain rfl : arrivals = [] := eq_nil_of_chunks_eq_nil hlater
        refine ⟨_, t, hquiet', harrived, ?_⟩
        rw [heq, Traced.tell_bind_tell_bind]
        exact Traced.bind_pure _
      · -- the receive waits for the next arrival
        have hmore : arrivals ≠ [] := by
          rintro rfl
          exact hlater rfl
        obtain ⟨gs, u, hquiet'', harrived, hrest⟩ := ih hawaits hwaits'
          (fun c hc => hnonempty c (List.mem_cons_of_mem _ (List.mem_append_right _ hc))) hmore
        refine ⟨(Tcp.delivery request chunk).map .data ++ es ++ gs, u, hquiet'.append hquiet'',
          harrived, ?_⟩
        rw [heq, Traced.tell_bind_tell_bind, Traced.bind_assoc]
        simp only [Traced.pure_bind, hrest]
        rw [Traced.tell_bind_tell_bind]

variable (md5 mem) in
/-- All the chunks of a file complete it. -/
theorem reception_completes {first : List (List UInt8)}
    {arrivals : List (List UInt8 × List (List UInt8))} (hfd : 0 ≤ fd)
    (hsum : (cstring msg.checkSum).length < MD5LENTH * 2 + 1)
    (hshort : (destination msg).length < FILEPATHSIZE)
    (hopens : disk.opens (destination msg) = true)
    (hoffer : msg.length = (chunks first arrivals).flatten.length) (hint : msg.length ≤ INT_MAX)
    (hnonempty : ∀ c ∈ chunks first arrivals, c ≠ []) (hne : chunks first arrivals ≠ []) :
    ∃ es t, ∃ k : RecvFile → Traced Event RecvFile, Quiet es ∧
      Arrived msg client disk
        (appended (mem.write 0 (List.replicate MAXLINE 0)) (chunks first arrivals)) t ∧
      reception md5 msg client fd mem disk first arrivals =
        (Traced.tell es >>= fun _ => t.complete md5 >>= k) ∧
      ∀ u, ∃ u', k u = pure u' ∧ u'.disk = u.disk := by
  -- whatever the connection is like, the record waits for all the chunks
  have hasking : ∀ data, Awaits msg client disk
      (appended (mem.write 0 (List.replicate MAXLINE 0)) (chunks first arrivals))
      (chunks first arrivals) (asking msg client data mem disk) := by
    intro data
    refine ⟨?_, rfl, rfl, hoffer ▸ hint, [], ?_, rfl⟩
    · rw [← hoffer]
      rfl
    · rw [List.append_nil]
      rfl
  cases first with
  | nil =>
      -- nothing is there yet: the first `recv` is to be tried again, and the loop brings the file
      have hmore : arrivals ≠ [] := by
        rintro rfl
        exact hne rfl
      obtain ⟨es, t, hquiet, harrived, heq⟩ := foldlM_handleRead_eq md5 hshort hopens
        (hasking (waiting fd)) ⟨⟨_, rfl, hfd⟩, rfl⟩ hnonempty hmore
      refine ⟨[.data (.recv 0 MAXLINE Tcp.MSG_NOSIGNAL (.fail EAGAIN))] ++ es, t, pure,
        .append ⟨rfl, by simp⟩ hquiet, harrived, ?_, fun u => ⟨u, rfl, rfl⟩⟩
      show (agreeRecvFile md5 msg client (connected fd) mem disk [] >>= _) = _
      rw [agreeRecvFile_again md5 client fd mem disk, copySum_of_lt hsum, Traced.bind_assoc,
        Traced.bind_pure]
      simp only [Traced.pure_bind, heq]
      rw [Traced.tell_bind_tell_bind, List.nil_append]
  | cons found more =>
      -- the first chunk is there when the callback is asked for the first time
      have hagree := @agreeRecvFile_found _ md5 msg client fd mem disk found
        (hnonempty found List.mem_cons_self) more
      rw [copySum_of_lt hsum, List.nil_append] at hagree
      have hfirst : Awaits msg client disk
          (appended (mem.write 0 (List.replicate MAXLINE 0)) (chunks (found :: more) arrivals))
          (found :: (more ++ chunks [] arrivals)) (asking msg client (connected fd) mem disk) :=
        hasking (connected fd)
      obtain ⟨es, t, hquiet, hend⟩ := recvFileCallback_eq md5 hshort hopens hfirst
        (⟨_, rfl, hfd⟩ : Live (connected fd)) fun c hc => hnonempty c (List.mem_cons_of_mem _ hc)
      have hquiet' : Quiet ((Tcp.delivery request found).map .data ++ es) :=
        (quiet_data _).append hquiet
      rcases hend with ⟨hlater, harrived, heq⟩ | ⟨hlater, hawaits, hwaits, heq⟩
      · -- all chunks were there, and no call of the loop is left
        obtain rfl : arrivals = [] := eq_nil_of_chunks_eq_nil hlater
        refine ⟨_, t, fun s => pure { s with data := agreeRecvFile.setError s.data }, hquiet',
          harrived, ?_, fun u => ⟨_, rfl, rfl⟩⟩
        show (agreeRecvFile md5 msg client (connected fd) mem disk ((found :: more).map .data) >>=
          pure) = _
        rw [Traced.bind_pure, hagree, heq]
        simp only [Traced.bind_assoc, Traced.tell_bind_tell_bind]
      · -- the rest comes through the loop, and the error that is noted last changes no byte
        have hmore : arrivals ≠ [] := by
          rintro rfl
          exact hlater rfl
        obtain ⟨⟨channel, hchannel, hfd'⟩, hrequest⟩ := hwaits
        have hwaits' : Waits (agreeRecvFile.setError t.data) := by
          refine ⟨⟨{ channel with errorHandle_ := some 0, errParam_ := 0 }, ?_, hfd'⟩, hrequest⟩
          show t.data.pTcpChannel_.map _ = _
          rw [hchannel]
          rfl
        obtain ⟨gs, u, hquiet'', harrived, hrest⟩ := foldlM_handleRead_eq md5 hshort hopens
          (hawaits.withData (agreeRecvFile.setError t.data)) hwaits'
          (fun c hc => hnonempty c (List.mem_cons_of_mem _ (List.mem_append_right _ hc))) hmore
        refine ⟨(Tcp.delivery request found).map .data ++ es ++ gs, u, pure,
          hquiet'.append hquiet'', harrived, ?_, fun v => ⟨v, rfl, rfl⟩⟩
        show (agreeRecvFile md5 msg client (connected fd) mem disk ((found :: more).map .data) >>=
          _) = _
        rw [hagree, heq, Traced.bind_pure]
        simp only [Traced.bind_assoc, Traced.pure_bind, Traced.tell_bind_tell_bind]
        exact (congrArg _ (funext fun _ => hrest)).trans (Traced.tell_bind_tell_bind ..)

/-! ### The outcome -/

/-- The file has the offered checksum, and stays, or it is deleted. -/
theorem Arrived.outcome {t : RecvFile} {file : List UInt8} (h : Arrived msg client disk total t)
    (hshort : (destination msg).length < FILEPATHSIZE)
    (hfile : file = (disk.content (destination msg)).getD [] ++ total) :
    ∃ es u, (t.complete md5).Yields es u ∧ .overrun ∉ es ∧
      notices es = (if client.noticeCallback_ = none then []
        else [if Matches md5 msg file then RECVFILESUCC else RECVFILEFAIL]) ∧
      u.disk.content (destination msg) = if Matches md5 msg file then some file else none := by
  have hpath : getFileRecvAbsolutePath t.info.fileName_ = pure (destination msg) := by
    rw [h.fileName_eq]
    exact getFileRecvAbsolutePath_eq hshort
  have hcontent : t.disk.content (destination msg) = some file := h.content_eq.trans (by rw [hfile])
  have hsum : cstring t.info.checkSum_ = cstring msg.checkSum := by
    rw [h.checkSum_eq, cstring_cstring]
  by_cases hmatches : Matches md5 msg file
  · have hcomplete : t.complete md5 =
        t.analysisProtobuf (makeNoticeMsg RECVFILESUCC t.info.fileName_) := by
      simp only [complete, hpath, Traced.pure_bind, hcontent, Option.map_some, Option.getD_some,
        hsum, ne_eq]
      exact if_neg (not_not_intro hmatches)
    obtain ⟨told, u, hyields, hdisk, hnotices⟩ := exists_notice (.inl rfl) t t.info.fileName_
    refine ⟨_, u, hcomplete ▸ hyields, by simp, ?_, ?_⟩
    · rw [if_pos hmatches, ← h.client_eq]
      exact hnotices
    · rw [if_pos hmatches, hdisk, hcontent]
  · have hcomplete : t.complete md5 = Traced.tell [.unlink (destination msg)] >>= fun _ =>
        { t with disk := t.disk.unlink (destination msg) }.analysisProtobuf
          (makeNoticeMsg RECVFILEFAIL t.info.fileName_) := by
      simp only [complete, hpath, Traced.pure_bind, hcontent, Option.map_some, Option.getD_some,
        hsum, ne_eq]
      exact if_pos hmatches
    obtain ⟨told, u, hyields, hdisk, hnotices⟩ := exists_notice (.inr rfl)
      { t with disk := t.disk.unlink (destination msg) } t.info.fileName_
    refine ⟨_, u, hcomplete ▸ (Traced.tell_bind_yields ..).mpr ⟨_, hyields, rfl⟩, by simp, ?_, ?_⟩
    · rw [if_neg hmatches, ← h.client_eq]
      exact hnotices
    · rw [if_neg hmatches, hdisk]
      exact Function.update_self ..

end Stages

/-! ### The theorem -/

section Theorem
variable {κ : Type} {md5 : Md5 κ} {msg : ControlMsg} {client : DTPClient} {fd : Int}
  {mem : Memory} {disk : Disk} {content : List UInt8} {first : List (List UInt8)}
  {arrivals : List (List UInt8 × List (List UInt8))}

/-- The bytes that all the calls of the callback append to the file. -/
def appends (mem : Memory) (first : List (List UInt8))
    (arrivals : List (List UInt8 × List (List UInt8))) : List UInt8 :=
  appended (mem.write 0 (List.replicate MAXLINE 0)) (chunks first arrivals)

/-- What is transmitted is what the file holds in the end only if the file was empty and one chunk
was transmitted. -/
theorem eq_content_iff {old : List UInt8} (hcontent : content ≠ [])
    (hcut : Cutting MAXLINE content (chunks first arrivals)) :
    old ++ appends mem first arrivals = content ↔
      old = [] ∧ (chunks first arrivals).length = 1 := by
  obtain ⟨chunk, rest, hchunks⟩ := List.exists_cons_of_ne_nil (hcut.ne_nil hcontent)
  rw [hchunks] at hcut
  unfold appends
  rw [hchunks]
  cases rest with
  | nil =>
      obtain rfl := hcut.eq_of_singleton
      rw [appended_singleton]
      constructor
      · -- one chunk is appended as it is, so nothing stood before it
        intro heq
        exact ⟨List.append_left_eq_self.mp heq, rfl⟩
      · rintro ⟨rfl, -⟩
        rfl
  | cons next rest =>
      -- with a second chunk more bytes are appended than were transmitted
      have hlt := lt_length_appended (mem.write 0 (List.replicate MAXLINE 0)) chunk rest
        (hcut.nonempty next (List.mem_cons_of_mem _ List.mem_cons_self))
      rw [hcut.flatten] at hlt
      constructor
      · intro heq
        have hlength := congrArg List.length heq
        rw [List.length_append] at hlength
        omega
      · rintro ⟨-, hone⟩
        exact absurd hone (by simp)

variable (client) in
/-- The log and the state that a receive comes to. -/
theorem reception_yields (hfd : 0 ≤ fd) (hcontent : content ≠ [])
    (hoffer : msg.length = content.length) (hint : msg.length ≤ INT_MAX)
    (hcut : Cutting MAXLINE content (chunks first arrivals))
    (hsum : (cstring msg.checkSum).length < MD5LENTH * 2 + 1)
    (hshort : (destination msg).length < FILEPATHSIZE)
    (hopens : disk.opens (destination msg) = true) {file : List UInt8}
    (hfile : file = (disk.content (destination msg)).getD [] ++ appends mem first arrivals) :
    ∃ log s, (reception md5 msg client fd mem disk first arrivals).Yields log s ∧
      .overrun ∉ log ∧ notices log = (if client.noticeCallback_ = none then []
        else [if Matches md5 msg file then RECVFILESUCC else RECVFILEFAIL]) ∧
      s.disk.content (destination msg) = if Matches md5 msg file then some file else none := by
  obtain ⟨es, t, k, hquiet, harrived, heq, hk⟩ := reception_completes md5 mem hfd hsum hshort hopens
    (by rw [hcut.flatten, hoffer]) hint hcut.nonempty (hcut.ne_nil hcontent)
  obtain ⟨gs, u, hyields, hinside, hnotices, hstored⟩ := harrived.outcome hshort hfile
  obtain ⟨u', hpure, hdisk⟩ := hk u
  refine ⟨es ++ gs, u', ?_, fun hover => (List.mem_append.mp hover).elim hquiet.2 hinside, ?_, ?_⟩
  · rw [heq]
    refine (Traced.tell_bind_yields ..).mpr ⟨gs, Traced.bind_yields.mpr ⟨gs, u, [], hyields, ?_,
      (List.append_nil gs).symm⟩, rfl⟩
    rw [hpure]
    exact ⟨rfl, rfl⟩
  · rw [notices_append, hquiet.1]
    exact hnotices
  · rw [hdisk]
    exact hstored

/-- A receive that goes to its end without an overrun: its path and its checksum fit their blocks,
and the path can be opened. -/
theorem fits_of_yields {log : List Event} {s : RecvFile} (hfd : 0 ≤ fd) (hcontent : content ≠ [])
    (hcut : Cutting MAXLINE content (chunks first arrivals))
    (h : (reception md5 msg client fd mem disk first arrivals).Yields log s)
    (hinside : .overrun ∉ log) :
    (cstring msg.checkSum).length < MD5LENTH * 2 + 1 ∧
      (destination msg).length < FILEPATHSIZE ∧ disk.opens (destination msg) = true := by
  obtain ⟨chunk, rest, hchunks⟩ := List.exists_cons_of_ne_nil (hcut.ne_nil hcontent)
  have hchunk : chunk ≠ [] := by
    refine hcut.nonempty chunk ?_
    rw [hchunks]
    exact List.mem_cons_self
  obtain ⟨acts, data, results, k, heq, -⟩ :=
    reception_eq md5 client mem disk hfd hchunks hchunk
  rw [heq] at h
  obtain ⟨fs, hthen, rfl⟩ := (Traced.tell_bind_yields ..).mp h
  obtain ⟨gs, t, ls, hcallback, -, rfl⟩ := Traced.bind_yields.mp hthen
  obtain ⟨hopens, ks, rfl⟩ := recvFileCallback_of_yields hcallback
  refine ⟨(not_mem_overrun_iff Event.overrun).mp fun hover => hinside ?_,
    (not_mem_overrun_iff Event.overrun).mp fun hover => hinside ?_, hopens⟩
  · exact List.mem_append_left _ (List.mem_append_left _ hover)
  · exact List.mem_append_right _ (List.mem_append_left _ (List.mem_append_left _ hover))

/-- What a receive needs that keeps what it owes. -/
theorem Keeps.needs {log : List Event} {s : RecvFile} (h : Keeps md5 msg content disk log s)
    (hyields : (reception md5 msg client fd mem disk first arrivals).Yields log s) (hfd : 0 ≤ fd)
    (hcontent : content ≠ []) (hoffer : msg.length = content.length) (hint : msg.length ≤ INT_MAX)
    (hcut : Cutting MAXLINE content (chunks first arrivals)) :
    client.noticeCallback_ ≠ none ∧
      if Matches md5 msg content then
        (disk.content (destination msg)).getD [] = [] ∧ (chunks first arrivals).length = 1
      else
        disk.content (destination msg) = none ∧ ¬ Matches md5 msg (appends mem first arrivals) := by
  obtain ⟨hsum, hshort, hopens⟩ := fits_of_yields hfd hcontent hcut hyields h.inside
  obtain ⟨log', s', hyields', -, hnotices, hstored⟩ := reception_yields client hfd hcontent hoffer
    hint hcut hsum hshort hopens rfl
  obtain ⟨rfl, rfl⟩ := hyields.unique hyields'
  have hcb : client.noticeCallback_ ≠ none := by
    intro hnone
    rw [if_pos hnone] at hnotices
    by_cases hmatches : Matches md5 msg content
    · exact List.cons_ne_nil _ _ ((h.succeeds hmatches).2.symm.trans hnotices)
    · exact List.cons_ne_nil _ _ ((h.fails hmatches).2.symm.trans hnotices)
  refine ⟨hcb, ?_⟩
  rw [if_neg hcb] at hnotices
  split
  · next hmatches =>
    -- the file is not deleted, and holds the content
    have hkept := hstored.symm.trans (h.succeeds hmatches).1
    split at hkept
    · exact (eq_content_iff hcontent hcut).mp (Option.some.inj hkept)
    · exact absurd hkept.symm (Option.some_ne_none _)
  · next hmatches =>
    obtain ⟨hkept, hnotified⟩ := h.fails hmatches
    rw [hnotices] at hnotified
    split at hnotified
    · exact absurd (List.cons.inj hnotified).1 (by decide)
    · next hfile =>
      -- the file is deleted, so there was none
      rw [if_neg hfile] at hstored
      have hnone : disk.content (destination msg) = none := hkept.symm.trans hstored
      rw [hnone] at hfile
      exact ⟨hnone, hfile⟩

/-- A receive keeps what it owes exactly when its path and its checksum fit their blocks, the path
can be opened, there is a user to notify, and: when the content has the offered checksum, there was
no content before and one chunk arrives; when it has not, there was no file before, and what the
callback appends has not the offered checksum either. -/
theorem keeps_iff (hfd : 0 ≤ fd) (hcontent : content ≠ []) (hoffer : msg.length = content.length)
    (hint : msg.length ≤ INT_MAX) (hcut : Cutting MAXLINE content (chunks first arrivals)) :
    (∃ log s, (reception md5 msg client fd mem disk first arrivals).Yields log s ∧
      Keeps md5 msg content disk log s) ↔
    ((cstring msg.checkSum).length < MD5LENTH * 2 + 1 ∧
      (destination msg).length < FILEPATHSIZE ∧ disk.opens (destination msg) = true) ∧
    client.noticeCallback_ ≠ none ∧
    if Matches md5 msg content then
      (disk.content (destination msg)).getD [] = [] ∧ (chunks first arrivals).length = 1
    else
      disk.content (destination msg) = none ∧ ¬ Matches md5 msg (appends mem first arrivals) := by
  constructor
  · rintro ⟨log, s, hyields, h⟩
    exact ⟨fits_of_yields hfd hcontent hcut hyields h.inside,
      h.needs hyields hfd hcontent hoffer hint hcut⟩
  · rintro ⟨⟨hsum, hshort, hopens⟩, hcb, hcase⟩
    -- such a receive comes to its end; what is left is whether the end is right
    obtain ⟨log, s, hyields, hinside, hnotices, hstored⟩ := reception_yields client hfd hcontent
      hoffer hint hcut hsum hshort hopens rfl
    rw [if_neg hcb] at hnotices
    refine ⟨log, s, hyields, hinside, fun hmatches => ?_, fun hmatches => ?_⟩
    · rw [if_pos hmatches] at hcase
      rw [(eq_content_iff hcontent hcut).mpr hcase] at hnotices hstored
      rw [if_pos hmatches] at hnotices hstored
      exact ⟨hstored, hnotices⟩
    · rw [if_neg hmatches] at hcase
      -- the file is removed, so it must not have been there
      obtain ⟨hnone, happends⟩ := hcase
      rw [hnone, Option.getD_none, List.nil_append, if_neg happends] at hnotices hstored
      exact ⟨hstored.trans hnone.symm, hnotices⟩

end Theorem

/-! ### A file that is there -/

/-- A transfer of one chunk, over an empty file. -/
theorem keeps_iff_empty :
    Cutting MAXLINE [0x61] (chunks [] [([0x61], [])]) ∧
      ∃ log s, (reception md5Table (offer [0x61]) { noticeCallback_ := some 0 } 7 (fun _ => 0)
        { content := fun _ => some [] } [] [([0x61], [])]).Yields log s ∧
          Keeps md5Table (offer [0x61]) [0x61] { content := fun _ => some [] } log s := by
  have hcut : Cutting MAXLINE [0x61] (chunks [] [([0x61], [])]) := ⟨rfl, by decide, by decide⟩
  refine ⟨hcut, (keeps_iff (by decide) (by decide) rfl (by decide) hcut).mpr
    ⟨⟨by decide, by decide, rfl⟩, Option.some_ne_none _, ?_⟩⟩
  rw [if_pos (by decide)]
  exact ⟨rfl, rfl⟩

/-- The same transfer, over a file with another byte: it goes into the checksum, and the file is
deleted. -/
theorem earlier_file_deleted :
    Cutting MAXLINE [0x61] (chunks [] [([0x61], [])]) ∧
      Matches md5Table (offer [0x61]) [0x61] ∧
      ¬ ∃ log s, (reception md5Table (offer [0x61]) { noticeCallback_ := some 0 } 7 (fun _ => 0)
        { content := fun _ => some [0x62] } [] [([0x61], [])]).Yields log s ∧
          Keeps md5Table (offer [0x61]) [0x61] { content := fun _ => some [0x62] } log s := by
  have hcut : Cutting MAXLINE [0x61] (chunks [] [([0x61], [])]) := ⟨rfl, by decide, by decide⟩
  have hmatches : Matches md5Table (offer [0x61]) [0x61] := by decide
  refine ⟨hcut, hmatches, ?_⟩
  rintro ⟨log, s, hyields, h⟩
  obtain ⟨-, hneeds⟩ := h.needs hyields (by decide) (by decide) rfl (by decide) hcut
  rw [if_pos hmatches] at hneeds
  exact absurd hneeds.1 (List.cons_ne_nil _ _)

end Ndsl.Proofs.RecvFile
