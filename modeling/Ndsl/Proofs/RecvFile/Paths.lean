import Ndsl.Proofs.RecvFile.Receives

/-!
# `Ndsl.Proofs.RecvFile.Paths`: where a received file is put

The name of a file comes with the offer, and `getFileRecvAbsolutePath` puts `FILERECVROOT` in front
of it. The sender cuts its directories off with `getFileName`; the receiver takes any name. So the
path leads out of `FILERECVROOT` when the name does, and `paths_inRoot_iff` says when it does not.
A name, path or checksum that is too long for its block makes no difference: nothing stops there.
-/

set_option autoImplicit false

namespace Ndsl.Proofs.RecvFile

open Ndsl.Lib
open Ndsl.Net
open Ndsl.Net.Dtp
open Ndsl.Net.Dtp.RecvFile (Event agreeRecvFile recvFileCallback getFileRecvAbsolutePath request
  onData perform)
open Ndsl.Net.Tcp (EAGAIN RecvResult TcpConnection)

/-- The paths that are opened, written to, or unlinked. -/
def paths (log : List Event) : List (List UInt8) :=
  log.filterMap fun
    | .fopen path => some path
    | .fwrite path _ => some path
    | .unlink path => some path
    | _ => none

/-- The name of an entry of a directory. -/
def EntryName (name : List UInt8) : Prop :=
  name ≠ [] ∧ 0x2f ∉ name ∧ name ≠ [0x2e] ∧ name ≠ [0x2e, 0x2e]

/-- The path of an entry directly inside `FILERECVROOT`. -/
def InRoot (path : List UInt8) : Prop := ∃ name, path = FILERECVROOT ++ name ∧ EntryName name

/-- The message that `agreeRecvFile` of the client finds under the name that the user was told of
the offer `msg`: the offer, unless there was another one under this name. -/
def accepted (msg : ControlMsg) (client : DTPClient) : Option ControlMsg :=
  if client.noticeCallback_ = none then client.mp_ (cstring msg.fileName)
  else (client.insert msg.fileName msg).mp_ (cstring msg.fileName)

section
variable {κ : Type} (md5 : Md5 κ)

/-- What `agreeRecvFile` of the client leads to. -/
def follow (client : DTPClient) (fd : Int) (mem : Memory) (disk : Disk) (first : List (List UInt8))
    (arrivals : List (List UInt8 × List (List UInt8))) : Act → Traced Event Unit
  | .recvFile msg => do
    let _ ← reception md5 msg client fd mem disk first arrivals
    return ()
  | _ => pure ()

/-- An offer comes in, the user accepts it by the name that he was told, and the file arrives. -/
def offerReception (msg : ControlMsg) (client : DTPClient) (fd : Int) (mem : Memory) (disk : Disk)
    (first : List (List UInt8)) (arrivals : List (List UInt8 × List (List UInt8))) :
    Traced Event Unit := do
  .tell ((client.analysisProtobuf msg).log.map .client)
  match (client.analysisProtobuf msg).value with
  | none => .fault
  | some client =>
    let acts := (client.agreeRecvFile (cstring msg.fileName)).log
    .tell (acts.map .client)
    acts.forM (follow md5 client fd mem disk first arrivals)

end

/-! ### All paths are those of the name -/

section Only
variable {κ : Type} {md5 : Md5 κ} {name : List UInt8} {s : RecvFile}

@[simp] theorem paths_append (log es : List Event) : paths (log ++ es) = paths log ++ paths es :=
  List.filterMap_append

/-- A part of the receive of the file `name`: the paths in it are the one of this name. -/
abbrev Only (name : List UInt8) (x : Traced Event RecvFile) : Prop :=
  x.Ensures (fun e => ∀ path ∈ paths [e], path = FILERECVROOT ++ cstring name)
    fun s => s.info.fileName_ = name

/-- An event without a path. -/
theorem only_of_nil {e : Event} (h : paths [e] = []) :
    ∀ path ∈ paths [e], path = FILERECVROOT ++ cstring name := by
  intro path hmem
  rw [h] at hmem
  exact absurd hmem List.not_mem_nil

theorem analysisProtobuf_only (msg : ControlMsg) (h : s.info.fileName_ = name) :
    Only name (s.analysisProtobuf msg) := by
  refine .tell_bind (List.forall_mem_singleton.mpr (only_of_nil rfl)) (.tell_bind ?_ ?_)
  · intro e he
    obtain ⟨act, -, rfl⟩ := List.mem_map.mp he
    exact only_of_nil rfl
  · split
    · exact .fault
    · exact .pure h

theorem handleErro_only (h : s.info.fileName_ = name) : Only name s.handleErro :=
  .tell_bind (List.forall_mem_singleton.mpr (only_of_nil rfl)) (.pure h)

/-- A callback that only deals with the name does so wherever it is called. -/
theorem onData_only {cb : RecvFile → Traced Event RecvFile}
    (hcb : ∀ s : RecvFile, s.info.fileName_ = name → Only name (cb s))
    (x : Traced Tcp.Act (Int × TcpConnection)) (h : s.info.fileName_ = name) :
    Only name (s.onData x cb) := by
  unfold onData
  split
  · exact .fault
  · refine .foldlM (fun t act ht => ?_) _ h
    refine .tell_bind (List.forall_mem_singleton.mpr (only_of_nil rfl)) ?_
    split
    · exact .pure ht
    · exact .pure ht
    · exact hcb t ht
    · exact handleErro_only ht
    · exact .pure ht

/-- A copy opens no file, whatever it overruns. -/
theorem only_overrun (size : Nat) (text : List UInt8) : ∀ e ∈ overrun Event.overrun size text,
    ∀ path ∈ paths [e], path = FILERECVROOT ++ cstring name := by
  intro e he
  obtain rfl := eq_of_mem_overrun he
  exact only_of_nil rfl

/-- The path that is built. -/
theorem path_bind_only {f : List UInt8 → Traced Event RecvFile}
    (hf : Only name (f (FILERECVROOT ++ cstring name))) :
    Only name (getFileRecvAbsolutePath name >>= f) := by
  rw [getFileRecvAbsolutePath, Traced.bind_assoc]
  exact .tell_bind (only_overrun _ _) hf

theorem complete_only (h : s.info.fileName_ = name) : Only name (s.complete md5) := by
  unfold RecvFile.complete
  rw [h]
  refine path_bind_only ?_
  dsimp only
  split
  · refine .tell_bind (List.forall_mem_singleton.mpr ?_) (analysisProtobuf_only _ h)
    exact List.forall_mem_singleton.mpr rfl
  · exact analysisProtobuf_only _ h

theorem callback_only {again : RecvFile → Traced Event RecvFile}
    (hagain : ∀ s : RecvFile, s.info.fileName_ = name → Only name (again s)) (result : RecvResult)
    (h : s.info.fileName_ = name) : Only name (s.callback md5 result again) := by
  unfold RecvFile.callback
  dsimp only
  rw [h]
  refine path_bind_only ?_
  have hone : ∀ e : Event, paths [e] = [FILERECVROOT ++ cstring name] →
      ∀ e' ∈ [e], ∀ path ∈ paths [e'], path = FILERECVROOT ++ cstring name := by
    intro e he
    refine List.forall_mem_singleton.mpr fun path hmem => ?_
    rw [he] at hmem
    exact List.mem_singleton.mp hmem
  refine .tell_bind (hone _ rfl) ?_
  split
  · exact .fault
  · refine .tell_bind (hone _ rfl) ?_
    split
    · exact complete_only h
    · exact onData_only hagain _ rfl

theorem recvFileCallback_only (results : List RecvResult) :
    ∀ s : RecvFile, s.info.fileName_ = name → Only name (recvFileCallback md5 results s) := by
  induction results with
  | nil => exact fun s h => callback_only (fun t ht => .pure ht) _ h
  | cons result results ih => exact fun s h => callback_only ih result h

/-- The whole receive deals with the path of the accepted message only. -/
theorem reception_only (msg : ControlMsg) (client : DTPClient) (fd : Int) (mem : Memory)
    (disk : Disk) (first : List (List UInt8)) (arrivals : List (List UInt8 × List (List UInt8))) :
    Only msg.fileName (reception md5 msg client fd mem disk first arrivals) := by
  have hagree : Only msg.fileName (agreeRecvFile md5 msg client
      { pTcpChannel_ := some { fd := fd } } mem disk (first.map .data)) := by
    have herror : ∀ t : RecvFile, t.info.fileName_ = msg.fileName →
        Only msg.fileName (pure { t with data := agreeRecvFile.setError t.data }) :=
      fun t ht => .pure ht
    refine .tell_bind (only_overrun _ _) (Traced.Ensures.bind ?_ herror)
    exact onData_only (recvFileCallback_only _) _ rfl
  refine hagree.bind fun s hs => .foldlM (fun t arrival ht => ?_) _ hs
  exact onData_only (recvFileCallback_only _) _ ht

end Only

/-! ### Which paths there are -/

section Offer
variable {κ : Type} {md5 : Md5 κ} {msg : ControlMsg} {client : DTPClient} {fd : Int} {mem : Memory}
  {disk : Disk} {first : List (List UInt8)} {arrivals : List (List UInt8 × List (List UInt8))}

theorem mem_paths_of_only {name : List UInt8} {x : Traced Event RecvFile} (h : Only name x)
    {path : List UInt8} (hmem : path ∈ paths x.log) : path = FILERECVROOT ++ cstring name := by
  obtain ⟨e, he, hpath⟩ := List.mem_filterMap.mp hmem
  refine h.acts e he path ?_
  exact List.mem_filterMap.mpr ⟨e, List.mem_singleton_self e, hpath⟩

/-- Nothing comes in, and the disk is left alone. -/
theorem paths_of_chunks_eq_nil (hchunks : chunks first arrivals = []) :
    paths (reception md5 msg client fd mem disk first arrivals).log = [] := by
  obtain ⟨rfl, hrest⟩ := List.append_eq_nil_iff.mp hchunks
  obtain rfl := eq_nil_of_chunks_eq_nil hrest
  have hsum : paths (copySum msg) = [] := by
    refine List.filterMap_eq_nil_iff.mpr fun e he => ?_
    obtain rfl := eq_of_mem_overrun he
    rfl
  have hreception : reception md5 msg client fd mem disk [] [] =
      agreeRecvFile md5 msg client (connected fd) mem disk [] := Traced.bind_pure _
  rw [hreception, agreeRecvFile_again md5 client fd mem disk, Traced.log_tell_bind,
    Traced.log_pure, List.append_nil, paths_append, hsum]
  rfl

/-- A file of which a chunk comes in is opened. -/
theorem mem_paths_of_chunks (hfd : 0 ≤ fd) (hfull : ∀ chunk ∈ chunks first arrivals, chunk ≠ [])
    (hsome : chunks first arrivals ≠ []) :
    destination msg ∈ paths (reception md5 msg client fd mem disk first arrivals).log := by
  obtain ⟨chunk, rest, hchunks⟩ := List.exists_cons_of_ne_nil hsome
  have hchunk : chunk ≠ [] := hfull chunk (by rw [hchunks]; exact List.mem_cons_self ..)
  obtain ⟨acts, data, results, k, heq, -⟩ :=
    reception_eq md5 client mem disk hfd hchunks hchunk
  -- the callback opens the file before it looks at the length
  have hopened : ∀ results, .fopen (destination msg) ∈ (recvFileCallback md5 results
      (withChunk chunk data (asking msg client data mem disk))).log := by
    have hcallback : ∀ result again, .fopen (destination msg) ∈ (RecvFile.callback md5 result again
        (withChunk chunk data (asking msg client data mem disk))).log := by
      intro result again
      rw [RecvFile.callback, getFileRecvAbsolutePath, Traced.bind_assoc, Traced.log_tell_bind]
      refine List.mem_append_right _ ?_
      rw [Traced.pure_bind]
      exact Traced.mem_log_tell_bind _ (List.mem_singleton_self _)
    intro results
    cases results with
    | nil => exact hcallback _ _
    | cons result results => exact hcallback _ _
  rw [heq]
  refine List.mem_filterMap.mpr ⟨.fopen (destination msg), ?_, rfl⟩
  rw [Traced.log_tell_bind]
  exact List.mem_append_right _ (Traced.mem_log_bind _ (hopened results))

/-- The receive of an accepted message stays in the root exactly when its name does, unless nothing
comes in. -/
theorem reception_inRoot_iff (hfd : 0 ≤ fd) (hfull : ∀ chunk ∈ chunks first arrivals, chunk ≠ []) :
    (∀ path ∈ paths (reception md5 msg client fd mem disk first arrivals).log, InRoot path) ↔
      (chunks first arrivals ≠ [] → EntryName (cstring msg.fileName)) := by
  constructor
  · intro h hsome
    obtain ⟨name, heq, hname⟩ := h _ (mem_paths_of_chunks hfd hfull hsome)
    rwa [List.append_cancel_left heq]
  · intro h path hmem
    obtain rfl := mem_paths_of_only (reception_only ..) hmem
    refine ⟨cstring msg.fileName, rfl, h fun hchunks => ?_⟩
    rw [paths_of_chunks_eq_nil hchunks] at hmem
    exact absurd hmem List.not_mem_nil

/-- What the client does touches no file. -/
theorem paths_client (acts : List Act) : paths (acts.map .client) = [] := by
  refine List.filterMap_eq_nil_iff.mpr fun e he => ?_
  obtain ⟨act, -, rfl⟩ := List.mem_map.mp he
  rfl

/-- The client finds a message under a name, or nothing. -/
theorem paths_follow (client : DTPClient) (name : List UInt8) :
    paths (((client.agreeRecvFile name).log.forM
      (follow md5 client fd mem disk first arrivals)).log) =
    match client.mp_ name with
    | none => []
    | some found => paths (reception md5 found client fd mem disk first arrivals).log := by
  unfold DTPClient.agreeRecvFile
  cases client.mp_ name with
  | none => rfl
  | some found =>
      show paths ((reception md5 found client fd mem disk first arrivals >>= fun _ => pure ()) >>=
        fun _ => pure PUnit.unit).log =
          paths (reception md5 found client fd mem disk first arrivals).log
      cases hvalue : (reception md5 found client fd mem disk first arrivals).value with
      | none =>
          rw [Traced.bind_of_none _ hvalue]
          rfl
      | some s =>
          rw [Traced.bind_of_some _ hvalue]
          show paths (_ ++ [] ++ []) = _
          rw [List.append_nil, List.append_nil]

variable (md5) in
/-- The files that an offer leads to are those of the message that is accepted. -/
theorem paths_offerReception (hflag : msg.flag = SENDFILEFLAG) :
    (accepted msg client = none →
      paths (offerReception md5 msg client fd mem disk first arrivals).log = []) ∧
    ∀ found, accepted msg client = some found → ∃ client',
      paths (offerReception md5 msg client fd mem disk first arrivals).log =
        paths (reception md5 found client' fd mem disk first arrivals).log := by
  have hnotify : client.analysisProtobuf msg = DTPClient.notify msg client := by
    refine DTPClient.analysisProtobuf_of_ne client ?_ ?_
    · rw [hflag]
      decide
    · rw [hflag]
      decide
  have hkey : DTPClient.keyOf msg = some msg.fileName := by
    rw [DTPClient.keyOf, if_pos hflag]
  -- what remains to be done once the client knows what it knows
  have hknown : ∀ client' : DTPClient, (client.analysisProtobuf msg).value = some client' →
      paths (offerReception md5 msg client fd mem disk first arrivals).log =
        match client'.mp_ (cstring msg.fileName) with
        | none => []
        | some found => paths (reception md5 found client' fd mem disk first arrivals).log := by
    intro client' hvalue
    rw [offerReception, Traced.log_tell_bind, paths_append, paths_client, List.nil_append]
    simp only [hvalue]
    rw [Traced.log_tell_bind, paths_append, paths_client, List.nil_append, paths_follow]
  unfold accepted
  cases hcb : client.noticeCallback_ with
  | none =>
      have hvalue : (client.analysisProtobuf msg).value = some client := by
        rw [hnotify, DTPClient.notify, hcb]
        rfl
      rw [if_pos rfl, hknown client hvalue]
      refine ⟨fun hnone => by rw [hnone], fun found hfound => ⟨client, by rw [hfound]⟩⟩
  | some cb =>
      have hvalue : (client.analysisProtobuf msg).value =
          some (client.insert msg.fileName msg) := by
        rw [hnotify, DTPClient.notify, hcb]
        simp only [hkey]
        rfl
      rw [if_neg (Option.some_ne_none cb), hknown _ hvalue]
      refine ⟨fun hnone => by rw [hnone], fun found hfound => ⟨_, by rw [hfound]⟩⟩

/-- All files that an offer leads to are directly inside `FILERECVROOT` exactly when the message
that the user accepts names an entry, or nothing of its file comes in. -/
theorem paths_inRoot_iff (hflag : msg.flag = SENDFILEFLAG) (hfd : 0 ≤ fd)
    (hfull : ∀ chunk ∈ chunks first arrivals, chunk ≠ []) :
    (∀ path ∈ paths (offerReception md5 msg client fd mem disk first arrivals).log, InRoot path) ↔
      ∀ found, accepted msg client = some found → chunks first arrivals ≠ [] →
        EntryName (cstring found.fileName) := by
  obtain ⟨hnone, hsome⟩ := paths_offerReception md5 hflag
  cases haccepted : accepted msg client with
  | none =>
      rw [hnone haccepted]
      refine ⟨fun _ found hfound => ?_, fun _ path h => absurd h List.not_mem_nil⟩
      exact absurd hfound.symm (Option.some_ne_none found)
  | some found =>
      obtain ⟨client', hpaths⟩ := hsome found haccepted
      rw [hpaths, reception_inRoot_iff hfd hfull]
      constructor
      · intro h found' hfound'
        rwa [← Option.some.inj hfound']
      · exact fun h => h found rfl

/-- An offer of the file `f`, which arrives as one chunk, is written inside of the root. -/
theorem paths_inRoot_iff_one : destination (offer [0x61]) ∈ paths (offerReception md5Table
      (offer [0x61]) { noticeCallback_ := some 0 } 7 (fun _ => 0) {} [] [([0x61], [])]).log ∧
    InRoot (destination (offer [0x61])) := by
  have hopened : destination (offer [0x61]) ∈ paths (offerReception md5Table (offer [0x61])
      { noticeCallback_ := some 0 } 7 (fun _ => 0) {} [] [([0x61], [])]).log := by
    decide
  refine ⟨hopened, (paths_inRoot_iff rfl (by decide) (by decide)).mpr ?_ _ hopened⟩
  intro found hfound _
  have heq : accepted (offer [0x61]) { noticeCallback_ := some 0 } = some (offer [0x61]) := rfl
  obtain rfl := Option.some.inj (heq.symm.trans hfound)
  exact ⟨by decide, by decide, by decide, by decide⟩

/-- An offer of the file `../f`. -/
def climbing : ControlMsg := { offer [0x61] with fileName := [0x2e, 0x2e, 0x2f, 0x66] }

/-- The user accepts `../f`, and the file is written outside of the root. -/
theorem parent_written : ¬ ∀ (msg : ControlMsg) (client : DTPClient), msg.flag = SENDFILEFLAG →
    ∀ path ∈ paths (offerReception md5Table msg client 7 (fun _ => 0) {} [] [([0x61], [])]).log,
      InRoot path := by
  intro h
  have hopened : destination climbing ∈ paths (offerReception md5Table climbing
      { noticeCallback_ := some 0 } 7 (fun _ => 0) {} [] [([0x61], [])]).log := by
    decide
  obtain ⟨name, heq, -, hslash, -⟩ := h climbing { noticeCallback_ := some 0 } rfl _ hopened
  obtain rfl : [0x2e, 0x2e, 0x2f, 0x66] = name := List.append_cancel_left heq
  exact hslash (by decide)

end Offer

end Ndsl.Proofs.RecvFile
