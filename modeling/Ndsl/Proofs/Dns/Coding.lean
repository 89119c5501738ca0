import Ndsl.Net.DnsRequest

/-!
# `Ndsl.Proofs.Dns.Coding`: what `request` does

`coding` returns true when no label of the name has more than 64 bytes (`coding_yields`), and leaves
the front of the packet alone. So the packet that `request` sends begins with the id of the task.
`request_cases` says what can become of a request: its name is too long, it is refused by `coding`,
or its entry stands in the table and its packet was sent.
-/

set_option autoImplicit false

namespace Ndsl.Proofs.Dns

open Ndsl.Lib
open Ndsl.Net Ndsl.Net.Dns

/-! ### Statements -/

/-- The labels of the name of a task. -/
def labels (t : DnsTask) : List (List UInt8) :=
  (t.domain_name.take t.domain_size.toNat).splitOn dot

/-- No label has more than 64 bytes. -/
def Fits (t : DnsTask) : Prop := ∀ label ∈ labels t, label.length ≤ 64

/-- The bytes of the packet are written. -/
def IsPut : Event → Prop
  | .put _ _ => True
  | _ => False

/-- The id that the next request gets. -/
def nextId (s : Dns) : UInt16 := s.current_.toUInt16

/-- `head->id` of a packet, on a host that is little endian. -/
def sentId (packet : List UInt8) : UInt16 := UInt16.ofNat (ofBE (packet.take 2).reverse)

/-! ### The packet -/

section Packet
variable {packet packet' : Packet} {pos n p k : Nat} {src l rest : List UInt8} {es : List Event}
  {coded : Bool}

theorem put_yields (h : (packet.put pos src).Yields es packet') :
    es = [.put pos src.length] ∧ pos + src.length ≤ 512 ∧
      packet'.bytes = overwrite packet.bytes pos src := by
  obtain ⟨gs, hrest, rfl⟩ := (Traced.tell_bind_yields ..).mp h
  split at hrest
  · next hle =>
    obtain ⟨rfl, rfl⟩ := (Traced.pure_yields ..).mp hrest
    exact ⟨rfl, hle, rfl⟩
  · exact absurd hrest (Traced.fault_yields _ _)

/-- What lies before the position stays. -/
theorem take_put (h : (packet.put pos src).Yields es packet') (hk : k ≤ pos) :
    packet'.bytes.take k = packet.bytes.take k := by
  obtain ⟨-, hle, hbytes⟩ := put_yields h
  rw [hbytes, take_overwrite hk (by rw [packet.length_eq]; omega)]

/-- What lies behind the bytes that are written stays. -/
theorem drop_put (h : (packet.put pos src).Yields es packet') (hk : pos + src.length ≤ k) :
    packet'.bytes.drop k = packet.bytes.drop k := by
  obtain ⟨-, hle, hbytes⟩ := put_yields h
  rw [hbytes, drop_overwrite hk (by rw [packet.length_eq]; omega)]

theorem take_drop_put (h : (packet.put pos src).Yields es packet') :
    (packet'.bytes.drop pos).take src.length = src := by
  obtain ⟨-, hle, hbytes⟩ := put_yields h
  rw [hbytes, take_drop_overwrite (by rw [packet.length_eq]; omega)]

theorem get_yields {c : UInt8} (h : (packet.get p).Yields es c) :
    es = [] ∧ packet.bytes[p]? = some c := by
  unfold Packet.get at h
  split at h
  · exact absurd h (Traced.fault_yields _ _)
  · next heq =>
    obtain ⟨rfl, rfl⟩ := (Traced.pure_yields ..).mp h
    exact ⟨rfl, heq⟩

/-- The byte at the cursor is the first one that is left. -/
theorem rest_of_get {c : UInt8} (hget : packet.bytes[p]? = some c)
    (hrest : (packet.bytes.drop p).take (n + 1) = rest) :
    rest = c :: (packet.bytes.drop (p + 1)).take n := by
  obtain ⟨hp, hc⟩ := List.getElem?_eq_some_iff.mp hget
  rw [← hrest, List.drop_eq_getElem_cons hp, hc, List.take_succ_cons]

/-! ### The labels -/

/-- The end of a label: its length is written in front of it. -/
theorem label_put (hlabel : l.length < p)
    (h : (packet.put (p - l.length - 1) [UInt8.ofNat l.length]).Yields es packet') :
    packet'.bytes.drop p = packet.bytes.drop p :=
  drop_put h (by rw [List.length_singleton]; omega)

/-- The loop of `coding` returns true when the label that it is in and those behind it fit. -/
theorem codeLabels_yields : ∀ {n p : Nat} {l rest : List UInt8} {packet packet' : Packet}
    {es : List Event} {coded : Bool},
    (codeLabels n p l.length packet).Yields es (coded, packet') →
    (packet.bytes.drop p).take n = rest → rest.length = n → dot ∉ l → l.length < p →
    (coded = true ↔ ∀ label ∈ (l ++ rest).splitOn dot, label.length ≤ 64) := by
  intro n
  induction n with
  | zero =>
      intro p l rest packet packet' es coded h hrest hlength hdot hlabel
      obtain rfl := List.length_eq_zero_iff.mp hlength
      rw [List.append_nil, List.splitOn_eq_singleton hdot, List.forall_mem_singleton]
      unfold codeLabels at h
      by_cases hlong : l.length > 64
      · rw [if_pos hlong] at h
        obtain ⟨-, hpair⟩ := (Traced.pure_yields ..).mp h
        obtain ⟨rfl, -⟩ := Prod.mk.inj hpair
        exact ⟨fun hfalse => absurd hfalse (by decide), fun hle => absurd hle (by omega)⟩
      · rw [if_neg hlong] at h
        obtain ⟨_, _, _, -, hpure, -⟩ := Traced.bind_yields.mp h
        obtain ⟨-, hpair⟩ := (Traced.pure_yields ..).mp hpure
        obtain ⟨rfl, -⟩ := Prod.mk.inj hpair
        exact ⟨fun _ => by omega, fun _ => rfl⟩
  | succ n ih =>
      intro p l rest packet packet' es coded h hrest hlength hdot hlabel
      obtain ⟨_, c, _, hget, hbody, -⟩ := Traced.bind_yields.mp h
      have hcons := rest_of_get (get_yields hget).2 hrest
      have hbehind : ((packet.bytes.drop (p + 1)).take n).length = n := by
        rw [hcons, List.length_cons] at hlength
        omega
      rw [hcons]
      by_cases hc : c = dot
      · rw [if_pos hc] at hbody
        subst hc
        rw [List.splitOn_append_cons_self_of_not_mem hdot, List.forall_mem_cons]
        by_cases hlong : l.length > 64
        · rw [if_pos hlong] at hbody
          obtain ⟨-, hpair⟩ := (Traced.pure_yields ..).mp hbody
          obtain ⟨rfl, -⟩ := Prod.mk.inj hpair
          exact ⟨fun hfalse => absurd hfalse (by decide), fun hle => absurd hle.1 (by omega)⟩
        · rw [if_neg hlong] at hbody
          obtain ⟨_, packet₁, _, hput, hloop, -⟩ := Traced.bind_yields.mp hbody
          -- the bytes that are left lie behind the length that was written
          have hsame : (packet₁.bytes.drop (p + 1)).take n =
              (packet.bytes.drop (p + 1)).take n := by
            rw [← List.drop_drop, label_put hlabel hput, List.drop_drop]
          have hrec := ih (l := []) hloop hsame hbehind List.not_mem_nil (Nat.succ_pos p)
          rw [List.nil_append] at hrec
          rw [hrec]
          exact ⟨fun hle => ⟨by omega, hle⟩, And.right⟩
      · rw [if_neg hc] at hbody
        have hmore : dot ∉ l ++ [c] := by
          rw [List.mem_append, List.mem_singleton]
          rintro (hmem | heq)
          · exact hdot hmem
          · exact hc heq.symm
        have hrec := ih (l := l ++ [c]) (p := p + 1) (by rwa [List.length_append]) rfl
          hbehind hmore (by rw [List.length_append]; exact Nat.succ_lt_succ hlabel)
        rwa [List.append_assoc] at hrec

/-- The loop writes from the front of its label on. -/
theorem codeLabels_front (k : Nat) : ∀ {n p i : Nat} {packet packet' : Packet} {es : List Event}
    {coded : Bool}, (codeLabels n p i packet).Yields es (coded, packet') → i + k < p →
    packet'.bytes.take k = packet.bytes.take k ∧ ∀ e ∈ es, IsPut e := by
  have hputs : ∀ {packet packet' : Packet} {pos : Nat} {src : List UInt8} {es : List Event},
      (packet.put pos src).Yields es packet' → ∀ e ∈ es, IsPut e := by
    intro packet packet' pos src es h
    rw [(put_yields h).1]
    exact List.forall_mem_singleton.mpr trivial
  intro n
  induction n with
  | zero =>
      intro p i packet packet' es coded h hk
      unfold codeLabels at h
      split at h
      · obtain ⟨rfl, hpair⟩ := (Traced.pure_yields ..).mp h
        obtain ⟨-, rfl⟩ := Prod.mk.inj hpair
        exact ⟨rfl, fun _ he => absurd he List.not_mem_nil⟩
      · obtain ⟨fs, packet₁, gs, hput, hpure, rfl⟩ := Traced.bind_yields.mp h
        obtain ⟨rfl, hpair⟩ := (Traced.pure_yields ..).mp hpure
        obtain ⟨-, rfl⟩ := Prod.mk.inj hpair
        rw [List.append_nil]
        exact ⟨take_put hput (by omega), hputs hput⟩
  | succ n ih =>
      intro p i packet packet' es coded h hk
      obtain ⟨fs, c, gs, hget, hbody, rfl⟩ := Traced.bind_yields.mp h
      obtain ⟨rfl, -⟩ := get_yields hget
      rw [List.nil_append]
      split at hbody
      · split at hbody
        · obtain ⟨rfl, hpair⟩ := (Traced.pure_yields ..).mp hbody
          obtain ⟨-, rfl⟩ := Prod.mk.inj hpair
          exact ⟨rfl, fun _ he => absurd he List.not_mem_nil⟩
        · obtain ⟨hs, packet₁, ks, hput, hloop, rfl⟩ := Traced.bind_yields.mp hbody
          obtain ⟨hfront, hrest⟩ := ih hloop (by omega)
          refine ⟨hfront.trans (take_put hput (by omega)), ?_⟩
          exact List.forall_mem_append.mpr ⟨hputs hput, hrest⟩
      · exact ih hbody (by omega)

/-- `coding` returns true when all labels fit, and leaves what lies before the name alone. -/
theorem coding_yields {t : DnsTask} {buffer : Nat}
    (h : (coding t buffer packet).Yields es (coded, packet')) :
    (coded = true ↔ Fits t) ∧ packet'.bytes.take buffer = packet.bytes.take buffer ∧
      ∀ e ∈ es, IsPut e := by
  unfold coding at h
  split at h
  · exact absurd h (Traced.fault_yields _ _)
  · next hsize =>
    have hlength : (t.domain_name.take t.domain_size.toNat).length = t.domain_size.toNat := by
      rw [List.length_take]
      omega
    obtain ⟨fs, named, gs, hname, hrest, rfl⟩ := Traced.bind_yields.mp h
    obtain ⟨hs, ended, ks, hend, hloop, rfl⟩ := Traced.bind_yields.mp hrest
    obtain ⟨rfl, -, -⟩ := put_yields hname
    obtain ⟨rfl, -, -⟩ := put_yields hend
    -- the name lies where it was copied to
    have hbytes : (ended.bytes.drop (buffer + 1)).take t.domain_size.toNat =
        t.domain_name.take t.domain_size.toNat := by
      have hcopied := take_drop_put hname
      have hbefore := take_put (k := buffer + 1 + t.domain_size.toNat) hend (by omega)
      rw [List.take_drop, hbefore, ← List.take_drop]
      rwa [hlength] at hcopied
    refine ⟨?_, ?_, ?_⟩
    · exact codeLabels_yields (l := []) hloop hbytes hlength List.not_mem_nil (Nat.succ_pos _)
    · rw [(codeLabels_front buffer hloop (by omega)).1, take_put hend (by omega),
        take_put hname (by omega)]
    · rw [List.forall_mem_append, List.forall_mem_append, List.forall_mem_singleton,
        List.forall_mem_singleton]
      exact ⟨trivial, trivial, (codeLabels_front buffer hloop (by omega)).2⟩

end Packet

/-! ### Requests -/

/-- The id in the packet is the one in its head. -/
theorem sentId_packetHead {id : UInt16} {l : List UInt8} (h : l.take 2 = (packetHead id).take 2) :
    sentId l = id := by
  have hfront : (packetHead id).take 2 = (be16 id.toNat).reverse := rfl
  have hlt : id.toNat < 2 ^ 16 := id.toNat_lt
  rw [sentId, h, hfront, List.reverse_reverse, ofBE_be16, Nat.mod_eq_of_lt hlt]
  exact UInt16.ofNat_toNat

section Request
variable {s s' : Dns} {task : Nat} {packet : Packet} {errors : List Int} {es : List Event}
  {ret : Int}

/-- The packet is sent, once or more often. -/
theorem sendPacket_yields {sent : List UInt8} : ∀ {errors : List Int} {es : List Event} {ret : Int},
    (sendPacket task sent errors).Yields es ret →
    es ≠ [] ∧ ∀ e ∈ es, ∃ error, e = .send task sent error := by
  intro errors
  induction errors with
  | nil =>
      intro es ret h
      obtain ⟨rfl, -⟩ := (Traced.tell_pure_yields ..).mp h
      exact ⟨List.cons_ne_nil _ _, List.forall_mem_singleton.mpr ⟨none, rfl⟩⟩
  | cons error errors ih =>
      intro es ret h
      obtain ⟨gs, hrest, rfl⟩ := (Traced.tell_bind_yields ..).mp h
      refine ⟨List.cons_ne_nil _ _, List.forall_mem_cons.mpr ⟨⟨some error, rfl⟩, ?_⟩⟩
      split at hrest
      · exact (ih hrest).2
      · obtain ⟨rfl, -⟩ := (Traced.pure_yields ..).mp hrest
        exact fun _ he => absurd he List.not_mem_nil

/-- A request has a name that is too long, or a label that is too long, or its entry stands in the
table and its packet was sent. -/
theorem request_cases (h : (s.request task packet errors).Yields es (ret, s')) :
    (255 ≤ (s.tasks task).domain_size ∧ es = [] ∧ s' = s) ∨
    ((s.tasks task).domain_size < 255 ∧ ¬ Fits (s.tasks task) ∧
      (∀ e ∈ es, IsPut e) ∧ s' = (s.enqueue task).dequeue task) ∨
    ((s.tasks task).domain_size < 255 ∧ Fits (s.tasks task) ∧
      (∃ puts sends sent, es = puts ++ sends ∧ (∀ e ∈ puts, IsPut e) ∧ sends ≠ [] ∧
        (∀ e ∈ sends, ∃ error, e = .send task sent error) ∧ sentId sent = nextId s) ∧
      s' = s.enqueue task) := by
  unfold request at h
  split at h
  · next hlong =>
    obtain ⟨rfl, hpair⟩ := (Traced.pure_yields ..).mp h
    obtain ⟨-, rfl⟩ := Prod.mk.inj hpair
    exact .inl ⟨hlong, rfl, rfl⟩
  · next hshort =>
    have hsize : (s.tasks task).domain_size < 255 := by omega
    -- the task has its id, and its name is what it was
    obtain ⟨t, ht⟩ : ∃ t, (s.enqueue task).tasks task = t := ⟨_, rfl⟩
    have htask : t = { s.tasks task with query_id := nextId s } :=
      ht.symm.trans (Function.update_self ..)
    have hid : t.query_id = nextId s := by rw [htask]
    have hfits : Fits t ↔ Fits (s.tasks task) := by rw [htask]; exact Iff.rfl
    right
    dsimp only at h
    rw [ht] at h
    obtain ⟨fs, headed, gs, hhead, hbody, rfl⟩ := Traced.bind_yields.mp h
    obtain ⟨hs, ⟨coded, named⟩, ks, hcoding, hrest, rfl⟩ := Traced.bind_yields.mp hbody
    obtain ⟨rfl, -, -⟩ := put_yields hhead
    obtain ⟨hcoded, hfront, hputs⟩ := coding_yields hcoding
    rw [hfits] at hcoded
    have hfirst : ∀ e ∈ [Event.put 0 (packetHead t.query_id).length] ++ hs, IsPut e :=
      List.forall_mem_cons.mpr ⟨trivial, hputs⟩
    dsimp only at hrest
    generalize hlen : sizeofPacketHead + t.domain_size.toNat + 2 = len at hrest
    split at hrest
    · next hnot =>
      obtain ⟨rfl, hpair⟩ := (Traced.pure_yields ..).mp hrest
      obtain ⟨-, rfl⟩ := Prod.mk.inj hpair
      rw [List.append_nil]
      exact .inl ⟨hsize, fun hfit => hnot (hcoded.mpr hfit), hfirst, rfl⟩
    · next hdone =>
      obtain ⟨ls, whole, ms, htail, hlast, rfl⟩ := Traced.bind_yields.mp hrest
      obtain ⟨sends, r, ns, hsend, hpure, rfl⟩ := Traced.bind_yields.mp hlast
      obtain ⟨rfl, hpair⟩ := (Traced.pure_yields ..).mp hpure
      obtain ⟨-, rfl⟩ := Prod.mk.inj hpair
      obtain ⟨rfl, -, -⟩ := put_yields htail
      obtain ⟨hsome, hsends⟩ := sendPacket_yields hsend
      refine .inr ⟨hsize, hcoded.mp (not_not.mp hdone), ⟨([.put 0 (packetHead t.query_id).length] ++
        hs) ++ [.put len packetTail.length], sends, _, ?_, ?_, hsome, hsends, ?_⟩, rfl⟩
      · simp only [List.append_assoc, List.append_nil]
      · exact List.forall_mem_append.mpr ⟨hfirst, List.forall_mem_singleton.mpr trivial⟩
      · -- the head is still there
        rw [← hid]
        apply sentId_packetHead
        have hwhole := take_put (k := 2) htail (by omega)
        have hnamed := congrArg (List.take 2) hfront
        have hhalf := congrArg (List.take 2) (take_drop_put hhead)
        rw [List.take_take, List.take_take] at hnamed
        rw [List.drop_zero, List.take_take] at hhalf
        rw [List.take_take, min_eq_left (by omega), hwhole]
        exact hnamed.trans hhalf

end Request

/-! ### Requests return -/

section Returns

theorem put_returns (packet : Packet) (pos : Nat) (src : List UInt8)
    (h : pos + src.length ≤ 512) : ∃ es packet', (packet.put pos src).Yields es packet' := by
  unfold Packet.put
  rw [dif_pos h]
  exact ⟨_, _, (Traced.tell_pure_yields ..).mpr ⟨rfl, rfl⟩⟩

/-- The loop of `coding` stays inside of the packet. -/
theorem codeLabels_returns (n : Nat) : ∀ {p i : Nat} (packet : Packet), i < p → p + n ≤ 512 →
    ∃ es x, (codeLabels n p i packet).Yields es x := by
  induction n with
  | zero =>
      intro p i packet hi hp
      unfold codeLabels
      split
      · exact ⟨_, _, (Traced.pure_yields ..).mpr ⟨rfl, rfl⟩⟩
      · obtain ⟨es, packet', hput⟩ := put_returns packet (p - i - 1) [UInt8.ofNat i]
          (by rw [List.length_singleton]; omega)
        exact ⟨_, _, Traced.bind_yields.mpr
          ⟨es, packet', [], hput, (Traced.pure_yields ..).mpr ⟨rfl, rfl⟩, rfl⟩⟩
  | succ n ih =>
      intro p i packet hi hp
      have hin : p < packet.bytes.length := by
        rw [packet.length_eq]
        omega
      have hget : (packet.get p).Yields [] packet.bytes[p] := by
        unfold Packet.get
        rw [List.getElem?_eq_getElem hin]
        exact (Traced.pure_yields ..).mpr ⟨rfl, rfl⟩
      suffices hbody : ∃ es x, Traced.Yields (if packet.bytes[p] = dot then do
          if i > 64 then return (false, packet)
          let packet ← packet.put (p - i - 1) [UInt8.ofNat i]
          codeLabels n (p + 1) 0 packet
        else codeLabels n (p + 1) (i + 1) packet) es x by
        obtain ⟨es, x, hx⟩ := hbody
        exact ⟨_, _, Traced.bind_yields.mpr ⟨[], _, es, hget, hx, rfl⟩⟩
      split
      · split
        · exact ⟨_, _, (Traced.pure_yields ..).mpr ⟨rfl, rfl⟩⟩
        · obtain ⟨es, packet', hput⟩ := put_returns packet (p - i - 1) [UInt8.ofNat i]
            (by rw [List.length_singleton]; omega)
          obtain ⟨fs, x, hloop⟩ := ih (p := p + 1) (i := 0) packet' (Nat.succ_pos p) (by omega)
          exact ⟨_, _, Traced.bind_yields.mpr ⟨es, packet', fs, hput, hloop, rfl⟩⟩
      · exact ih packet (by omega) (by omega)

/-- `coding` of a name that is there. -/
theorem coding_returns {t : DnsTask} (buffer : Nat) (packet : Packet) (hnonneg : 0 ≤ t.domain_size)
    (hlength : t.domain_size ≤ t.domain_name.length)
    (hin : (buffer : Int) + t.domain_size + 2 ≤ 512) :
    ∃ es x, (coding t buffer packet).Yields es x := by
  have htake : (t.domain_name.take t.domain_size.toNat).length = t.domain_size.toNat := by
    rw [List.length_take]
    omega
  obtain ⟨es, named, hname⟩ := put_returns packet (buffer + 1)
    (t.domain_name.take t.domain_size.toNat) (by rw [htake]; omega)
  obtain ⟨fs, ended, hend⟩ := put_returns named (buffer + t.domain_size.toNat + 1) [0]
    (by rw [List.length_singleton]; omega)
  obtain ⟨gs, x, hloop⟩ := codeLabels_returns t.domain_size.toNat (p := buffer + 1) (i := 0) ended
    (Nat.succ_pos buffer) (by omega)
  unfold coding
  rw [if_neg (by omega)]
  exact ⟨_, x, Traced.bind_yields.mpr ⟨es, named, _, hname,
    Traced.bind_yields.mpr ⟨fs, ended, gs, hend, hloop, rfl⟩, rfl⟩⟩

theorem sendPacket_returns (task : Nat) (sent : List UInt8) (errors : List Int) :
    ∃ es ret, (sendPacket task sent errors).Yields es ret := by
  induction errors with
  | nil => exact ⟨_, _, (Traced.tell_pure_yields ..).mpr ⟨rfl, rfl⟩⟩
  | cons error errors ih =>
      unfold sendPacket
      split
      · obtain ⟨es, ret, hsend⟩ := ih
        exact ⟨_, ret, (Traced.tell_bind_yields ..).mpr ⟨es, hsend, rfl⟩⟩
      · exact ⟨_, _, (Traced.tell_pure_yields ..).mpr ⟨rfl, rfl⟩⟩

/-- A request whose name is there returns. -/
theorem request_returns {s : Dns} (task : Nat) (errors : List Int) (packet : Packet)
    (hnonneg : 0 ≤ (s.tasks task).domain_size)
    (hlength : (s.tasks task).domain_size ≤ (s.tasks task).domain_name.length) :
    ∃ es x, (s.request task packet errors).Yields es x := by
  unfold request
  split
  · exact ⟨_, _, (Traced.pure_yields ..).mpr ⟨rfl, rfl⟩⟩
  · next hshort =>
    -- the entry changes the id of the task, and not its name
    have htask : (s.enqueue task).tasks task = { s.tasks task with query_id := nextId s } :=
      Function.update_self ..
    obtain ⟨t, ht⟩ : ∃ t, (s.enqueue task).tasks task = t := ⟨_, rfl⟩
    have hsize : t.domain_size = (s.tasks task).domain_size := by rw [← ht, htask]
    have hname : t.domain_name = (s.tasks task).domain_name := by rw [← ht, htask]
    dsimp only
    rw [ht]
    obtain ⟨es, headed, hhead⟩ := put_returns packet 0 (packetHead t.query_id) (by
      show 0 + 12 ≤ 512
      decide)
    obtain ⟨fs, x, hcoding⟩ := coding_returns (t := t) sizeofPacketHead headed
      (by rw [hsize]; exact hnonneg) (by rw [hsize, hname]; exact hlength)
      (by rw [hsize]; unfold sizeofPacketHead; omega)
    -- what is left behind the coding of the name
    suffices hrest : ∃ gs r, Traced.Yields (if ¬ x.1 = true then
        pure (EINVAL, (s.enqueue task).dequeue task) else do
        let packet ← x.2.put (sizeofPacketHead + t.domain_size.toNat + 2) packetTail
        let ret ← sendPacket task (packet.bytes.take
          (sizeofPacketHead + t.domain_size.toNat + 2 + sizeofPacketTail)) errors
        pure (ret, s.enqueue task)) gs r by
      obtain ⟨gs, r, hr⟩ := hrest
      exact ⟨_, r, Traced.bind_yields.mpr ⟨es, headed, _, hhead,
        Traced.bind_yields.mpr ⟨fs, x, gs, hcoding, hr, rfl⟩, rfl⟩⟩
    split
    · exact ⟨_, _, (Traced.pure_yields ..).mpr ⟨rfl, rfl⟩⟩
    · obtain ⟨gs, whole, htail⟩ := put_returns x.2
        (sizeofPacketHead + t.domain_size.toNat + 2) packetTail (by
          show sizeofPacketHead + t.domain_size.toNat + 2 + 4 ≤ 512
          rw [hsize]
          unfold sizeofPacketHead
          omega)
      obtain ⟨hs, ret, hsend⟩ := sendPacket_returns task (whole.bytes.take
        (sizeofPacketHead + t.domain_size.toNat + 2 + sizeofPacketTail)) errors
      exact ⟨_, _, Traced.bind_yields.mpr ⟨gs, whole, _, htail, Traced.bind_yields.mpr
        ⟨hs, ret, [], hsend, (Traced.pure_yields ..).mpr ⟨rfl, rfl⟩, rfl⟩, rfl⟩⟩

end Returns

end Ndsl.Proofs.Dns
