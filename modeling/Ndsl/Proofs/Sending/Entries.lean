import Ndsl.Proofs.Sending.Cases

/-!
# `Ndsl.Proofs.Sending.Entries`: the copies of the blocks

`Entry` says that a client has a copy under an id, and which node holds it. A step leaves an entry
as it is, unless it erases the entry or deletes the client (`Entry.kept`); then the node is freed
(`Entry.freed`), and stays so (`Gone.kept`).
-/

set_option autoImplicit false

namespace Ndsl.Proofs.Sending

open Ndsl.Lib
open Ndsl.Net
open Ndsl.Net.Dtp
open Ndsl.Net.Registry (Client Conn)
open Ndsl.Net.Sending

/-- A client has a copy under an id, in the node `n`. -/
structure Entry (s : Sender) (client : Client) (dataId : List UInt8) (n : Nat)
    (value : List UInt8) : Prop where
  found : s.find client dataId = some n
  node : s.nodes[n]? = some { client := client, dataId := dataId, value := value, freed := false }

/-- A node was freed. -/
def Gone (s : Sender) (n : Nat) : Prop :=
  ∃ node, s.nodes[n]? = some node ∧ node.freed = true

/-- A step takes the entry of a client under an id away. -/
def Erases (client : Client) (dataId : List UInt8) : Op → Prop
  | .erase c id => c = client ∧ id = dataId
  | .delete c => c = client
  | _ => False

instance (client : Client) (dataId : List UInt8) : DecidablePred (Erases client dataId) :=
  fun op => by
    unfold Erases
    cases op <;> infer_instance

section
variable {κ : Type} {md5 : Md5 κ} {s s' : Sender} {es : List Event} {client : Client}
  {dataId value : List UInt8} {n : Nat}

/-! ### Entries -/

/-- What is found is an entry. -/
theorem exists_entry (h : s.find client dataId = some n) :
    ∃ value, Entry s client dataId n value := by
  obtain ⟨hn, hnode, -⟩ := List.findIdx?_eq_some_iff_getElem.mp h
  simp only [Bool.and_eq_true, Bool.not_eq_true', decide_eq_true_eq] at hnode
  obtain ⟨⟨hfreed, hclient⟩, hid⟩ := hnode
  refine ⟨s.nodes[n].value, h, ?_⟩
  rw [List.getElem?_eq_getElem hn, ← hclient, ← hid, ← hfreed]

/-- A string and its zero can be read. -/
theorem Entry.data (h : Entry s client dataId n value) :
    s.data (.node n) = some (value ++ [0]) := by
  simp [Sender.data, h.node]

/-- Of a node that was freed nothing can be read. -/
theorem Gone.data (h : Gone s n) : s.data (.node n) = none := by
  obtain ⟨node, hnode, hfreed⟩ := h
  simp [Sender.data, hnode, hfreed]

/-- More nodes change nothing. -/
theorem Entry.of_append (h : Entry s client dataId n value) {extra : List DataNode}
    (hnodes : s'.nodes = s.nodes ++ extra) : Entry s' client dataId n value := by
  have hfound : s.nodes.findIdx? (fun node => !node.freed && node.client = client &&
    node.dataId = dataId) = some n := h.found
  have hlt : n < s.nodes.length := (List.findIdx?_eq_some_iff_getElem.mp hfound).1
  constructor
  · -- the search stops at the old node
    rw [Sender.find, hnodes, List.findIdx?_append, hfound]
    rfl
  · rw [hnodes, List.getElem?_append_left hlt]
    exact h.node

/-- Nodes of other keys may be freed. -/
theorem Entry.of_free (h : Entry s client dataId n value) {q : DataNode → Prop}
    [DecidablePred q] (hq : ∀ node, q node → ¬ (node.client = client ∧ node.dataId = dataId))
    (hnodes : s'.nodes = s.nodes.map fun node =>
      if q node then { node with freed := true } else node) :
    Entry s' client dataId n value := by
  constructor
  · rw [Sender.find, hnodes, List.findIdx?_map, ← h.found]
    refine congrFun (congrArg _ (funext fun node => ?_)) _
    simp only [Function.comp_apply]
    split
    · next hfree =>
        -- the node is not the one that is looked for, freed or not
        by_cases hclient : node.client = client
        · have hid : node.dataId ≠ dataId := fun hid => hq node hfree ⟨hclient, hid⟩
          simp [hid]
        · simp [hclient]
    · rfl
  · rw [hnodes, List.getElem?_map, h.node, Option.map_some, if_neg]
    exact fun hfree => hq _ hfree ⟨rfl, rfl⟩

/-- The node of an entry is freed. -/
theorem Entry.gone (h : Entry s client dataId n value) {q : DataNode → Prop} [DecidablePred q]
    (hq : q { client := client, dataId := dataId, value := value, freed := false })
    (hnodes : s'.nodes = s.nodes.map fun node =>
      if q node then { node with freed := true } else node) : Gone s' n := by
  refine ⟨{ client := client, dataId := dataId, value := value, freed := true }, ?_, rfl⟩
  rw [hnodes, List.getElem?_map, h.node, Option.map_some, if_pos hq]

/-- A node that was freed stays so when others are. -/
theorem Gone.of_free (h : Gone s n) {q : DataNode → Prop} [DecidablePred q]
    (hnodes : s'.nodes = s.nodes.map fun node =>
      if q node then { node with freed := true } else node) : Gone s' n := by
  obtain ⟨node, hnode, hfreed⟩ := h
  refine ⟨_, by rw [hnodes, List.getElem?_map, hnode, Option.map_some], ?_⟩
  split
  · rfl
  · exact hfreed

theorem Gone.of_append (h : Gone s n) {extra : List DataNode}
    (hnodes : s'.nodes = s.nodes ++ extra) : Gone s' n := by
  obtain ⟨node, hnode, hfreed⟩ := h
  have hlt : n < s.nodes.length := (List.getElem?_eq_some_iff.mp hnode).1
  exact ⟨node, by rw [hnodes, List.getElem?_append_left hlt, hnode], hfreed⟩

/-- The copy that a client has under an id, or gets. -/
def copyOf (client : Client) (dataId value : List UInt8) (s : Sender) : List UInt8 :=
  match (s.find client dataId).bind fun n => s.nodes[n]? with
  | some node => node.value
  | none => value

/-- After an `insert` there is an entry: the old one, or a new one. -/
theorem inserted_entry (client : Client) (dataId value : List UInt8) (s : Sender) :
    ∃ n, Entry (inserted client dataId value s) client dataId n
      (copyOf client dataId value s) := by
  cases hfind : s.find client dataId with
  | some n =>
      obtain ⟨old, hold⟩ := exists_entry hfind
      have hcopy : copyOf client dataId value s = old := by
        simp only [copyOf, hfind, Option.bind_some, hold.node]
      have hsame : inserted client dataId value s = s := by
        simp only [inserted, hfind]
      rw [hcopy, hsame]
      exact ⟨n, hold⟩
  | none =>
      have hcopy : copyOf client dataId value s = value := by
        simp only [copyOf, hfind, Option.bind_none]
      have hnew : (inserted client dataId value s).nodes
          = s.nodes ++ [{ client := client, dataId := dataId, value := value }] := by
        simp only [inserted, hfind]
      rw [hcopy]
      refine ⟨s.nodes.length, ?_, ?_⟩
      · have hnone : s.nodes.findIdx? (fun node => !node.freed && node.client = client &&
          node.dataId = dataId) = none := hfind
        rw [Sender.find, hnew, List.findIdx?_append, hnone]
        simp
      · rw [hnew]
        exact List.getElem?_concat_length

/-! ### Steps -/

theorem inserted_nodes (client : Client) (dataId value : List UInt8) (s : Sender) :
    ∃ extra, (inserted client dataId value s).nodes = s.nodes ++ extra := by
  unfold inserted
  split
  · exact ⟨[], (List.append_nil _).symm⟩
  · exact ⟨_, rfl⟩

theorem inserted_alive (client : Client) (dataId value : List UInt8) (s : Sender) :
    (inserted client dataId value s).alive = s.alive := by
  unfold inserted
  split <;> rfl

theorem inserted_dataListenMgrs (client : Client) (dataId value : List UInt8) (s : Sender) :
    (inserted client dataId value s).dataListenMgrs = s.dataListenMgrs := by
  unfold inserted
  split <;> rfl

theorem inserted_record (client : Client) (dataId value : List UInt8) (s : Sender)
    (m : DataListenMgr) : ∃ mgrs,
      (inserted client dataId value s).dataListenMgrs ++ [m] = s.dataListenMgrs ++ mgrs :=
  ⟨[m], by rw [inserted_dataListenMgrs]⟩

/-- What a step does to the copies and the records: it erases, it deletes, or it adds to them. -/
theorem step_effect {op : Op} (h : (step md5 s op).Yields es s') :
    (∃ c id, op = .erase c id ∧ s' = s.erase c id) ∨
    (∃ c, op = .delete c ∧ s' = s.delete c) ∨
    ((∀ client id, ¬ Erases client id op) ∧ s'.alive = s.alive ∧
      (∃ extra, s'.nodes = s.nodes ++ extra) ∧
      ((∃ mgrs, s'.dataListenMgrs = s.dataListenMgrs ++ mgrs) ∨
        ∃ k stage, movesData op = some k ∧ s' = s.setDataStage k stage)) := by
  have hnodes : ∃ extra, s.nodes = s.nodes ++ extra := ⟨[], (List.append_nil _).symm⟩
  have hmgrs : ∃ mgrs, s.dataListenMgrs = s.dataListenMgrs ++ mgrs := ⟨[], (List.append_nil _).symm⟩
  cases op with
  | sendFile uninit sys conn peerId filePath length =>
      obtain ⟨listenMgrs, rfl⟩ := mulSendFile_cases h
      exact .inr (.inr ⟨fun _ _ => not_false, rfl, hnodes, .inl hmgrs⟩)
  | recvFile uninit conn peerId filename =>
      obtain ⟨requests, timeMp_, rfl⟩ := mulRecvFile_cases h
      exact .inr (.inr ⟨fun _ _ => not_false, rfl, hnodes, .inl hmgrs⟩)
  | sendData uninit guid sys conn peerId sendBuf length dataId flag =>
      obtain ⟨-, -, all, bytes, -, -, -, rfl⟩ | ⟨-, rfl⟩ := mulSendData_cases h
      · -- the call may add a copy, and adds a record
        refine .inr (.inr ⟨fun _ _ => not_false, inserted_alive .., inserted_nodes .., ?_⟩)
        exact .inl (inserted_record _ _ _ s _)
      · exact .inr (.inr ⟨fun _ _ => not_false, rfl, hnodes, .inl hmgrs⟩)
  | sendDataOnUdp conn peerId sendBuf length client dataId =>
      obtain ⟨fs, r, gs, hsend, hrest, -⟩ := Traced.bind_yields.mp h
      have hr := sendDataOnUdp_cases hsend
      obtain ⟨-, rfl⟩ := (Traced.pure_yields ..).mp hrest
      rw [hr]
      exact .inr (.inr ⟨fun _ _ => not_false, rfl, hnodes, .inl hmgrs⟩)
  | analysisProtobuf uninit n msg =>
      obtain ⟨rfl, -⟩ := analysisProtobuf_yields.mp h
      exact .inr (.inr ⟨fun _ _ => not_false, rfl, hnodes, .inl hmgrs⟩)
  | stopListen | acceptorCallback | sendFileCallback | senfFileClearMemory =>
      obtain rfl | ⟨stage, rfl⟩ := movesFile_cases rfl h
      · exact .inr (.inr ⟨fun _ _ => not_false, rfl, hnodes, .inl hmgrs⟩)
      · exact .inr (.inr ⟨fun _ _ => not_false, rfl, hnodes, .inl hmgrs⟩)
  | stopListenOfData | sendDataCallback =>
      obtain rfl | ⟨stage, rfl⟩ := movesData_cases rfl h
      · exact .inr (.inr ⟨fun _ _ => not_false, rfl, hnodes, .inl hmgrs⟩)
      · exact .inr (.inr ⟨fun _ _ => not_false, rfl, hnodes, .inr ⟨_, stage, rfl, rfl⟩⟩)
  | acceptorCallbackOfSendData mgr =>
      obtain ⟨rfl, -⟩ := acceptorCallbackOfSendData_yields.mp h
      exact .inr (.inr ⟨fun _ _ => not_false, rfl, hnodes, .inl hmgrs⟩)
  | erase c id => exact .inl ⟨c, id, rfl, ((Traced.pure_yields ..).mp h).2.symm⟩
  | delete c => exact .inr (.inl ⟨c, rfl, ((Traced.pure_yields ..).mp h).2.symm⟩)
  | deleteEntity c =>
      obtain ⟨-, rfl⟩ := (Traced.pure_yields ..).mp h
      exact .inr (.inr ⟨fun _ _ => not_false, rfl, hnodes, .inl hmgrs⟩)
  | registry mul =>
      obtain ⟨-, rfl⟩ := (Traced.pure_yields ..).mp h
      exact .inr (.inr ⟨fun _ _ => not_false, rfl, hnodes, .inl hmgrs⟩)

/-- A step that does not erase an entry leaves it, and the client, as they are. -/
theorem Entry.kept {op : Op} (h : Entry s client dataId n value)
    (herases : ¬ Erases client dataId op) (hstep : (step md5 s op).Yields es s') :
    Entry s' client dataId n value ∧ s'.alive client = s.alive client := by
  obtain ⟨c, id, rfl, rfl⟩ | ⟨c, rfl, rfl⟩ | ⟨-, halive, ⟨extra, hnodes⟩, -⟩ := step_effect hstep
  · refine ⟨h.of_free (q := fun node => node.client = c ∧ node.dataId = id) ?_ rfl, rfl⟩
    rintro node ⟨hc, hid⟩ ⟨hclient, hdataId⟩
    exact herases ⟨hc.symm.trans hclient, hid.symm.trans hdataId⟩
  · refine ⟨h.of_free (q := fun node => node.client = c) ?_ rfl, ?_⟩
    · rintro node hc ⟨hclient, -⟩
      exact herases (hc.symm.trans hclient)
    · exact Function.update_of_ne (fun hc => herases hc.symm) ..
  · exact ⟨h.of_append hnodes, congrFun halive client⟩

/-- A step that erases an entry frees its node. -/
theorem Entry.freed {op : Op} (h : Entry s client dataId n value)
    (herases : Erases client dataId op) (hstep : (step md5 s op).Yields es s') : Gone s' n := by
  obtain ⟨c, id, rfl, rfl⟩ | ⟨c, rfl, rfl⟩ | ⟨hkeeps, -⟩ := step_effect hstep
  · exact h.gone (q := fun node => node.client = c ∧ node.dataId = id)
      ⟨herases.1.symm, herases.2.symm⟩ rfl
  · exact h.gone (q := fun node => node.client = c) (Eq.symm herases) rfl
  · exact absurd herases (hkeeps client dataId)

/-- A node that was freed stays so. -/
theorem Gone.kept {op : Op} (h : Gone s n) (hstep : (step md5 s op).Yields es s') : Gone s' n := by
  obtain ⟨c, id, rfl, rfl⟩ | ⟨c, rfl, rfl⟩ | ⟨-, -, ⟨extra, hnodes⟩, -⟩ := step_effect hstep
  · exact h.of_free (q := fun node => node.client = c ∧ node.dataId = id) rfl
  · exact h.of_free (q := fun node => node.client = c) rfl
  · exact h.of_append hnodes

/-- The record at a position is this one, in whatever stage its transfer is. -/
def Recorded (s : Sender) (k : Nat) (m : DataListenMgr) : Prop :=
  ∃ stage, s.dataListenMgrs[k]? = some { m with stage := stage }

/-- The listener of the record at a position is there. -/
def Listens (s : Sender) (k : Nat) : Prop :=
  (s.dataListenMgrs[k]?).map DataListenMgr.stage = some .listens

/-- A record stays at its position. -/
theorem step_record {op : Op} {k : Nat} {m : DataListenMgr} (h : Recorded s k m)
    (hstep : (step md5 s op).Yields es s') : Recorded s' k m := by
  obtain ⟨old, hold⟩ := h
  obtain ⟨c, id, -, rfl⟩ | ⟨c, -, rfl⟩ | ⟨-, -, -, ⟨mgrs, hmgrs⟩ | ⟨j, stage, -, rfl⟩⟩ :=
    step_effect hstep
  · exact ⟨old, hold⟩
  · exact ⟨old, hold⟩
  · have hlt : k < s.dataListenMgrs.length := (List.getElem?_eq_some_iff.mp hold).1
    exact ⟨old, by rw [hmgrs, List.getElem?_append_left hlt, hold]⟩
  · -- one record goes to another stage
    refine ⟨if j = k then stage else old, ?_⟩
    show (s.dataListenMgrs.modify j _)[k]? = _
    rw [List.getElem?_modify, hold, Option.map_eq_map, Option.map_some]
    split <;> rfl

/-- A listener is there until its own transfer moves on. -/
theorem step_listens {op : Op} {k : Nat} (h : Listens s k) (hop : movesData op ≠ some k)
    (hstep : (step md5 s op).Yields es s') : Listens s' k := by
  obtain ⟨c, id, -, rfl⟩ | ⟨c, -, rfl⟩ | ⟨-, -, -, ⟨mgrs, hmgrs⟩ | ⟨j, stage, hmoves, rfl⟩⟩ :=
    step_effect hstep
  · exact h
  · exact h
  · obtain ⟨m, hm, hstage⟩ := Option.map_eq_some_iff.mp h
    have hlt : k < s.dataListenMgrs.length := (List.getElem?_eq_some_iff.mp hm).1
    rw [Listens, hmgrs, List.getElem?_append_left hlt, hm, Option.map_some, hstage]
  · have hj : j ≠ k := fun hj => hop (hj ▸ hmoves)
    show ((s.dataListenMgrs.modify j _)[k]?).map _ = _
    rw [List.getElem?_modify_ne _ _ hj]
    exact h

/-- The record of a listener that is there. -/
theorem Recorded.of_listens {k : Nat} {m : DataListenMgr} (h : Recorded s k m)
    (hlistens : Listens s k) : s.dataListenMgrs[k]? = some { m with stage := .listens } := by
  obtain ⟨stage, hstage⟩ := h
  rw [Listens, hstage] at hlistens
  obtain rfl := Option.some.inj hlistens
  exact hstage

end

/-! ### Runs -/

section
variable {κ : Type} {md5 : Md5 κ} {client : Client} {dataId value : List UInt8} {n : Nat}

/-- A run that does not erase an entry leaves it, and the client, as they are. -/
theorem Entry.kept_run {ops : List Op} (hops : ∀ op ∈ ops, ¬ Erases client dataId op) :
    ∀ {s s' : Sender} {log : List Event}, Entry s client dataId n value →
      (ops.foldlM (step md5) s).Yields log s' →
      Entry s' client dataId n value ∧ s'.alive client = s.alive client := by
  induction ops with
  | nil =>
      intro s s' log h hrun
      obtain ⟨-, rfl⟩ := (Traced.pure_yields ..).mp hrun
      exact ⟨h, rfl⟩
  | cons op ops ih =>
      intro s s' log h hrun
      rw [List.foldlM_cons, Traced.bind_yields] at hrun
      obtain ⟨es, mid, fs, hstep, hrest, -⟩ := hrun
      obtain ⟨hmid, halive⟩ := h.kept (hops op (List.mem_cons_self ..)) hstep
      obtain ⟨hend, halive'⟩ := ih (fun op hop => hops op (List.mem_cons_of_mem _ hop)) hmid hrest
      exact ⟨hend, halive'.trans halive⟩

theorem Gone.kept_run {ops : List Op} {s s' : Sender} {log : List Event} (h : Gone s n)
    (hrun : (ops.foldlM (step md5) s).Yields log s') : Gone s' n :=
  Traced.foldlM_yields_of_nil (P := fun s _ => Gone s n)
    (fun _ _ _ _ _ h hstep => h.kept hstep) h hrun

/-- A run that erases an entry frees its node. -/
theorem Entry.gone_run {ops : List Op} (hops : ∃ op ∈ ops, Erases client dataId op) :
    ∀ {s s' : Sender} {log : List Event}, Entry s client dataId n value →
      (ops.foldlM (step md5) s).Yields log s' → Gone s' n := by
  induction ops with
  | nil =>
      obtain ⟨op, hop, -⟩ := hops
      exact absurd hop List.not_mem_nil
  | cons op ops ih =>
      intro s s' log h hrun
      rw [List.foldlM_cons, Traced.bind_yields] at hrun
      obtain ⟨es, mid, fs, hstep, hrest, -⟩ := hrun
      -- the first step that erases the entry frees its node
      by_cases herases : Erases client dataId op
      · exact (h.freed herases hstep).kept_run hrest
      · have hlater : ∃ op ∈ ops, Erases client dataId op := by
          obtain ⟨op', hop', herases'⟩ := hops
          obtain rfl | hop' := List.mem_cons.mp hop'
          · exact absurd herases' herases
          · exact ⟨op', hop', herases'⟩
        exact ih hlater (h.kept herases hstep).1 hrest

theorem run_record {ops : List Op} {s s' : Sender} {log : List Event} {k : Nat}
    {m : DataListenMgr} (h : Recorded s k m)
    (hrun : (ops.foldlM (step md5) s).Yields log s') : Recorded s' k m :=
  Traced.foldlM_yields_of_nil (P := fun s _ => Recorded s k m)
    (fun _ _ _ _ _ h hstep => step_record h hstep) h hrun

theorem run_listens {ops : List Op} {k : Nat} (hops : ∀ op ∈ ops, movesData op ≠ some k) :
    ∀ {s s' : Sender} {log : List Event}, Listens s k →
      (ops.foldlM (step md5) s).Yields log s' → Listens s' k := by
  induction ops with
  | nil =>
      intro s s' log h hrun
      obtain ⟨-, rfl⟩ := (Traced.pure_yields ..).mp hrun
      exact h
  | cons op ops ih =>
      intro s s' log h hrun
      rw [List.foldlM_cons, Traced.bind_yields] at hrun
      obtain ⟨es, mid, fs, hstep, hrest, -⟩ := hrun
      exact ih (fun op hop => hops op (List.mem_cons_of_mem _ hop))
        (step_listens h (hops op List.mem_cons_self) hstep) hrest

end

end Ndsl.Proofs.Sending
