import Ndsl.Lib.DnsMessage
import Ndsl.Proofs.Dns.Coding

/-!
# `Ndsl.Proofs.Dns.Names`: the name in a query

`coding` copies the name behind a free byte and puts the length of each label into the byte in front
of it, which is the free byte or a dot. It refuses labels of more than 64 bytes and no others. So an
empty label gets the length zero, with which a name ends, and a label of 64 bytes gets a length with
one of the bits that `handle_read` takes for a pointer.

`codes_iff` says for which names `coding` does what it should: those whose labels all have 1 to 63
bytes, and those that have a label of more than 64. `codeLabels_writes` is the induction, and
`Ndsl.Lib.DnsMessage` has the reading of a name.
-/

set_option autoImplicit false

namespace Ndsl.Proofs.Dns

open Ndsl.Lib Ndsl.Lib.DnsMessage
open Ndsl.Net Ndsl.Net.Dns

/-! ### Statements -/

/-- What is written lies in `n` bytes from `pos` on. -/
def WritesIn (pos n : Nat) : Event → Prop
  | .put q k => pos ≤ q ∧ q + k ≤ pos + n
  | _ => True

/-- The bytes that are written and those that are sent are in the packet. -/
def InPacket : Event → Prop
  | .put pos n => pos + n ≤ 512
  | .send _ packet _ => packet.length ≤ 512
  | _ => True

/-- The `n` bytes from `pos` on are a name that is read as these labels. -/
def HasName (packet : Packet) (pos n : Nat) (labels : List (List UInt8)) : Prop :=
  decode ((packet.bytes.drop pos).take n) = some labels ∧
    ∃ name : Name, name.ending = .root ∧ (packet.bytes.drop pos).take n = name.encode

/-- What `coding` and `request` owe to a task: a name is coded if its labels have the right sizes,
and then its bytes are a name with these labels. Nothing else is written, and the packet is not
left. -/
structure Codes (s : Dns) (task buffer : Nat) (packet : Packet) (errors : List Int) : Prop where
  coded : ∃ es coded packet', (coding (s.tasks task) buffer packet).Yields es (coded, packet') ∧
    (coded = true ↔ ∀ label ∈ labels (s.tasks task), Sized label) ∧
    (coded = true → HasName packet' buffer ((s.tasks task).domain_size.toNat + 2)
      (labels (s.tasks task))) ∧
    ∀ e ∈ es, WritesIn buffer ((s.tasks task).domain_size.toNat + 2) e
  inPacket : ∀ e ∈ (s.request task packet errors).log, InPacket e

/-- A label behind its length, as `coding` writes it. -/
def prefixed (label : List UInt8) : List UInt8 := UInt8.ofNat label.length :: label

/-! ### What is written -/

section Writes
variable {packet packet' : Packet} {pos n p : Nat} {src more : List UInt8} {es : List Event}
  {coded : Bool}

/-- The bytes that were written, and those behind them. -/
theorem drop_put_self (h : (packet.put pos src).Yields es packet') :
    packet'.bytes.drop pos = src ++ packet.bytes.drop (pos + src.length) := by
  rw [← List.take_append_drop src.length (packet'.bytes.drop pos), take_drop_put h,
    List.drop_drop, drop_put h (Nat.le_refl _)]

/-- The length is put in front of its label. -/
theorem put_length {q : Nat} {l : List UInt8}
    (h : (packet.put q [UInt8.ofNat l.length]).Yields es packet')
    (hbytes : packet.bytes.drop (q + 1) = l ++ more) :
    packet'.bytes.drop q = prefixed l ++ more := by
  rw [drop_put_self h, List.length_singleton, hbytes]
  rfl

/-- The loop of `coding` leaves its label and those behind it with their lengths in front. The slot
of the length of its label is at `q`. -/
theorem codeLabels_writes (more : List UInt8) : ∀ {n q : Nat} {l rest : List UInt8}
    {packet packet' : Packet} {es : List Event},
    (codeLabels n (q + 1 + l.length) l.length packet).Yields es (true, packet') →
    dot ∉ l → rest.length = n → packet.bytes.drop (q + 1) = l ++ rest ++ 0 :: more →
    packet'.bytes.drop q = ((l ++ rest).splitOn dot).flatMap prefixed ++ 0 :: more := by
  intro n
  induction n with
  | zero =>
      intro q l rest packet packet' es h hdot hlength hbytes
      obtain rfl := List.length_eq_zero_iff.mp hlength
      rw [List.append_nil] at hbytes ⊢
      rw [List.splitOn_eq_singleton hdot, List.flatMap_singleton]
      unfold codeLabels at h
      by_cases hlong : l.length > 64
      · rw [if_pos hlong] at h
        obtain ⟨-, hpair⟩ := (Traced.pure_yields ..).mp h
        exact absurd (Prod.mk.inj hpair).1 (by decide)
      · rw [if_neg hlong] at h
        obtain ⟨fs, packet₁, gs, hput, hpure, -⟩ := Traced.bind_yields.mp h
        obtain ⟨-, hpair⟩ := (Traced.pure_yields ..).mp hpure
        obtain ⟨-, rfl⟩ := Prod.mk.inj hpair
        rw [show q + 1 + l.length - l.length - 1 = q by omega] at hput
        exact put_length hput hbytes
  | succ n ih =>
      intro q l rest packet packet' es h hdot hlength hbytes
      obtain ⟨c, rest, rfl⟩ := List.exists_cons_of_length_eq_add_one hlength
      rw [List.length_cons, Nat.add_right_cancel_iff] at hlength
      obtain ⟨fs, c', gs, hget, hbody, -⟩ := Traced.bind_yields.mp h
      -- the byte at the cursor is the first of the rest
      have hc : c' = c := by
        have hat := (get_yields hget).2
        rw [← List.getElem?_drop, hbytes, List.append_assoc, List.getElem?_append_right (by simp),
          Nat.sub_self] at hat
        simpa using hat.symm
      subst hc
      by_cases hdotc : c' = dot
      · rw [if_pos hdotc] at hbody
        subst hdotc
        rw [List.splitOn_append_cons_self_of_not_mem hdot, List.flatMap_cons]
        by_cases hlong : l.length > 64
        · rw [if_pos hlong] at hbody
          obtain ⟨-, hpair⟩ := (Traced.pure_yields ..).mp hbody
          exact absurd (Prod.mk.inj hpair).1 (by decide)
        · rw [if_neg hlong] at hbody
          obtain ⟨hs, packet₁, ks, hput, hloop, -⟩ := Traced.bind_yields.mp hbody
          rw [show q + 1 + l.length - l.length - 1 = q by omega] at hput
          rw [List.append_assoc, List.cons_append] at hbytes
          have hlabel := put_length hput hbytes
          have hslot : q + (prefixed l).length = q + 1 + l.length := by
            rw [prefixed, List.length_cons]
            omega
          -- the slot of the next label is the dot
          have hbehind : packet₁.bytes.drop (q + 1 + l.length + 1) = [] ++ rest ++ 0 :: more := by
            rw [← List.drop_drop, ← hslot, ← List.drop_drop, hlabel, List.drop_left]
            rfl
          have hrec := ih (l := []) hloop List.not_mem_nil hlength hbehind
          have hfront := (codeLabels_front (q + 1 + l.length) hloop (by
            rw [Nat.zero_add]
            exact Nat.lt_succ_self _)).1
          -- and the label in front of it stays
          rw [← hslot] at hfront hrec
          rw [drop_of_front hlabel hfront, hrec, List.nil_append, List.append_assoc]
      · rw [if_neg hdotc] at hbody
        have hmore : dot ∉ l ++ [c'] := by
          rw [List.mem_append, List.mem_singleton]
          rintro (hmem | heq)
          · exact hdot hmem
          · exact hdotc heq.symm
        have hnext : packet.bytes.drop (q + 1) = l ++ [c'] ++ rest ++ 0 :: more := by
          rw [hbytes]
          simp
        have hrec := ih (by rw [List.length_append]; exact hbody) hmore hlength hnext
        rwa [List.append_assoc] at hrec

/-- The loop writes the slots of the lengths, which lie in front of the bytes that are left. -/
theorem codeLabels_writesIn : ∀ {n p i : Nat} {packet packet' : Packet} {es : List Event}
    {coded : Bool}, (codeLabels n p i packet).Yields es (coded, packet') → i < p →
    ∀ e ∈ es, ∃ q, e = .put q 1 ∧ p - i - 1 ≤ q ∧ q < p + n := by
  intro n
  induction n with
  | zero =>
      intro p i packet packet' es coded h hi
      unfold codeLabels at h
      split at h
      · obtain ⟨rfl, -⟩ := (Traced.pure_yields ..).mp h
        exact fun _ he => absurd he List.not_mem_nil
      · obtain ⟨fs, packet₁, gs, hput, hpure, rfl⟩ := Traced.bind_yields.mp h
        obtain ⟨rfl, -⟩ := (Traced.pure_yields ..).mp hpure
        rw [List.append_nil, (put_yields hput).1]
        exact List.forall_mem_singleton.mpr ⟨_, rfl, Nat.le_refl _, by omega⟩
  | succ n ih =>
      intro p i packet packet' es coded h hi
      obtain ⟨fs, c, gs, hget, hbody, rfl⟩ := Traced.bind_yields.mp h
      obtain ⟨rfl, -⟩ := get_yields hget
      rw [List.nil_append]
      split at hbody
      · split at hbody
        · obtain ⟨rfl, -⟩ := (Traced.pure_yields ..).mp hbody
          exact fun _ he => absurd he List.not_mem_nil
        · obtain ⟨hs, packet₁, ks, hput, hloop, rfl⟩ := Traced.bind_yields.mp hbody
          rw [(put_yields hput).1]
          refine List.forall_mem_append.mpr ⟨List.forall_mem_singleton.mpr
            ⟨_, rfl, Nat.le_refl _, by omega⟩, fun e he => ?_⟩
          obtain ⟨q, rfl, hle, hlt⟩ := ih hloop (Nat.succ_pos p) e he
          exact ⟨q, rfl, by omega, by omega⟩
      · intro e he
        obtain ⟨q, rfl, hle, hlt⟩ := ih hbody (by omega) e he
        exact ⟨q, rfl, by omega, by omega⟩

/-- What `coding` writes is the name behind the free byte, with the lengths put in. -/
theorem coding_writes {t : DnsTask} {buffer : Nat}
    (h : (coding t buffer packet).Yields es (coded, packet')) :
    (coded = true → packet'.bytes.drop buffer = (labels t).flatMap prefixed ++
      0 :: packet.bytes.drop (buffer + t.domain_size.toNat + 2)) ∧
    ∀ e ∈ es, WritesIn buffer (t.domain_size.toNat + 2) e := by
  unfold coding at h
  split at h
  · exact absurd h (Traced.fault_yields _ _)
  next hsize =>
  have hlength : (t.domain_name.take t.domain_size.toNat).length = t.domain_size.toNat := by
    rw [List.length_take]
    omega
  obtain ⟨fs, named, gs, hname, hrest, rfl⟩ := Traced.bind_yields.mp h
  obtain ⟨hs, ended, ks, hend, hloop, rfl⟩ := Traced.bind_yields.mp hrest
  have hnamed := drop_put_self hname
  have hended := drop_put_self hend
  obtain ⟨rfl, -, -⟩ := put_yields hname
  obtain ⟨rfl, hin, -⟩ := put_yields hend
  constructor
  · rintro rfl
    -- the name, the zero byte, and what was behind them
    have hbehind := drop_put (k := buffer + t.domain_size.toNat + 2) hname (by
      rw [hlength]
      omega)
    have hfront := take_put (k := buffer + 1 + (t.domain_name.take t.domain_size.toNat).length)
      hend (by
        rw [hlength]
        omega)
    have hbytes : ended.bytes.drop (buffer + 1) = [] ++ t.domain_name.take t.domain_size.toNat ++
        0 :: packet.bytes.drop (buffer + t.domain_size.toNat + 2) := by
      rw [drop_of_front hnamed hfront, hlength, show buffer + 1 + t.domain_size.toNat =
        buffer + t.domain_size.toNat + 1 by omega, hended, List.length_singleton, hbehind]
      rfl
    exact codeLabels_writes _ (l := []) hloop List.not_mem_nil hlength hbytes
  · refine List.forall_mem_append.mpr ⟨List.forall_mem_singleton.mpr ⟨by omega, ?_⟩,
      List.forall_mem_append.mpr ⟨List.forall_mem_singleton.mpr ⟨by omega, ?_⟩, fun e he => ?_⟩⟩
    · rw [hlength]
      omega
    · rw [List.length_singleton]
      omega
    · obtain ⟨q, rfl, hle, hlt⟩ := codeLabels_writesIn hloop (Nat.succ_pos buffer) e he
      exact ⟨by omega, by omega⟩

/-- A name whose labels have the right sizes is coded as such. -/
theorem hasName_of_coding {t : DnsTask} {buffer : Nat}
    (h : (coding t buffer packet).Yields es (true, packet'))
    (hin : buffer + t.domain_size.toNat + 2 ≤ 512) (hsized : ∀ label ∈ labels t, Sized label) :
    HasName packet' buffer (t.domain_size.toNat + 2) (labels t) := by
  obtain ⟨ls, hls⟩ := exists_labels hsized
  have hencode : (Name.mk ls .root).encode = (labels t).flatMap prefixed ++ [0] := by
    rw [← hls, List.flatMap_map]
    rfl
  have hdrop := (coding_writes h).1 rfl
  -- the name takes all bytes but those that were behind it
  have hlength : ((labels t).flatMap prefixed ++ [0]).length = t.domain_size.toNat + 2 := by
    have hlengths := congrArg List.length hdrop
    simp only [List.length_drop, List.length_append, List.length_cons, packet'.length_eq,
      packet.length_eq] at hlengths
    rw [List.length_append, List.length_singleton]
    omega
  have hregion : (packet'.bytes.drop buffer).take (t.domain_size.toNat + 2) =
      (Name.mk ls .root).encode := by
    rw [hdrop, hencode, List.append_cons, List.take_left' hlength]
  refine ⟨?_, ⟨ls, .root⟩, rfl, hregion⟩
  rw [hregion, decode_encode, hls]

/-- `request` stays inside of its packet. -/
theorem request_inPacket {s : Dns} {task : Nat} {errors : List Int}
    (hnonneg : 0 ≤ (s.tasks task).domain_size)
    (hlength : (s.tasks task).domain_size ≤ (s.tasks task).domain_name.length) :
    ∀ e ∈ (s.request task packet errors).log, InPacket e := by
  have hput : ∀ {packet packet' : Packet} {pos : Nat} {src : List UInt8} {es : List Event},
      (packet.put pos src).Yields es packet' → ∀ e ∈ es, InPacket e := by
    intro packet packet' pos src es h
    obtain ⟨rfl, hle, -⟩ := put_yields h
    exact List.forall_mem_singleton.mpr hle
  obtain ⟨es, ⟨ret, t⟩, h⟩ := request_returns task errors packet hnonneg hlength
  rw [h.1]
  unfold request at h
  split at h
  · obtain ⟨rfl, -⟩ := (Traced.pure_yields ..).mp h
    exact fun _ he => absurd he List.not_mem_nil
  next hshort =>
  have htask : (s.enqueue task).tasks task = { s.tasks task with query_id := nextId s } :=
    Function.update_self ..
  dsimp only at h
  rw [htask] at h
  obtain ⟨fs, headed, gs, hhead, hbody, rfl⟩ := Traced.bind_yields.mp h
  obtain ⟨hs, ⟨coded, named⟩, ks, hcoding, hrest, rfl⟩ := Traced.bind_yields.mp hbody
  refine List.forall_mem_append.mpr ⟨hput hhead, List.forall_mem_append.mpr ⟨fun e he => ?_, ?_⟩⟩
  · -- the name and the two bytes around it lie behind the head
    have hin := (coding_writes hcoding).2 e he
    cases e with
    | put pos n =>
        have hle : sizeofPacketHead + ((s.tasks task).domain_size.toNat + 2) ≤ 512 := by
          unfold sizeofPacketHead
          omega
        exact Nat.le_trans hin.2 hle
    | send x sent error =>
        exact absurd ((coding_yields hcoding).2.2 _ he) id
    | _ => trivial
  · dsimp only at hrest
    split at hrest
    · obtain ⟨rfl, -⟩ := (Traced.pure_yields ..).mp hrest
      exact fun _ he => absurd he List.not_mem_nil
    · obtain ⟨ls, whole, ms, htail, hlast, rfl⟩ := Traced.bind_yields.mp hrest
      obtain ⟨sends, r, ns, hsend, hpure, rfl⟩ := Traced.bind_yields.mp hlast
      obtain ⟨rfl, -⟩ := (Traced.pure_yields ..).mp hpure
      rw [List.append_nil]
      refine List.forall_mem_append.mpr ⟨hput htail, fun e he => ?_⟩
      obtain ⟨error, rfl⟩ := (sendPacket_yields hsend).2 e he
      show (whole.bytes.take _).length ≤ 512
      rw [List.length_take, whole.length_eq]
      exact Nat.min_le_right _ _

end Writes

/-! ### Which names are coded rightly -/

section Codes
variable {s : Dns} {task buffer : Nat} {packet : Packet} {errors : List Int}

/-- `coding` refuses a label of more than 64 bytes and nothing else, so it is right only about names
without empty labels and without labels of 64 bytes, and about names with a longer one. -/
theorem sized_of_codes (h : Codes s task buffer packet errors) :
    (∀ label ∈ labels (s.tasks task), Sized label) ∨
      ∃ label ∈ labels (s.tasks task), 64 < label.length := by
  obtain ⟨es, coded, packet', hcoding, hiff, -⟩ := h.coded
  by_cases hfits : Fits (s.tasks task)
  · exact .inl (hiff.mp ((coding_yields hcoding).1.mpr hfits))
  · unfold Fits at hfits
    push Not at hfits
    exact .inr hfits

/-- A name of at most 254 bytes is coded as it should be exactly when each of its labels has 1 to 63
bytes, or one has more than 64. -/
theorem codes_iff (hnonneg : 0 ≤ (s.tasks task).domain_size)
    (hsize : (s.tasks task).domain_size ≤ 254)
    (hname : (s.tasks task).domain_size ≤ (s.tasks task).domain_name.length)
    (hbuffer : (buffer : Int) + (s.tasks task).domain_size + 2 ≤ 512) :
    Codes s task buffer packet errors ↔
      (∀ label ∈ labels (s.tasks task), Sized label) ∨
        ∃ label ∈ labels (s.tasks task), 64 < label.length := by
  refine ⟨sized_of_codes, fun h => ⟨?_, request_inPacket hnonneg hname⟩⟩
  obtain ⟨es, ⟨coded, packet'⟩, hcoding⟩ := coding_returns buffer packet hnonneg hname hbuffer
  have hfits := (coding_yields hcoding).1
  refine ⟨es, coded, packet', hcoding, ?_, ?_, (coding_writes hcoding).2⟩
  · rw [hfits]
    refine ⟨fun hle => ?_, fun hsized label hlabel => Nat.le_succ_of_le (hsized label hlabel).2⟩
    rcases h with hsized | ⟨label, hlabel, hlong⟩
    · exact hsized
    · exact absurd (hle label hlabel) (Nat.not_le.mpr hlong)
  · rintro rfl
    rcases h with hsized | ⟨label, hlabel, hlong⟩
    · exact hasName_of_coding hcoding (by omega) hsized
    · exact absurd (hfits.mp rfl label hlabel) (Nat.not_le.mpr hlong)

theorem length_zeros : (List.replicate 512 (0 : UInt8)).length = 512 :=
  List.length_replicate

/-- A packet. -/
def zeros : Packet := ⟨List.replicate 512 0, length_zeros⟩

theorem length_unread : (List.replicate BUFFER_SIZE (0 : UInt8)).length = BUFFER_SIZE :=
  List.length_replicate

/-- The names of one task. -/
def withName (domain_name : List UInt8) : Dns :=
  fresh (fun _ => { domain_name := domain_name, domain_size := domain_name.length, query_id := 0 })
    ⟨List.replicate BUFFER_SIZE 0, length_unread⟩

/-- The name "a.b" is coded behind the head. -/
theorem codes_iff_two : Codes (withName [0x61, 0x2e, 0x62]) 0 sizeofPacketHead zeros [] := by
  refine (codes_iff (by decide) (by decide) (by decide) (by decide)).mpr (.inl ?_)
  have hlabels : labels ((withName [0x61, 0x2e, 0x62]).tasks 0) = [[0x61], [0x62]] := by rfl
  rw [hlabels]
  unfold Sized
  decide

/-- The name "a." has an empty label, and a name of 64 bytes without a dot a label that is too long.
Both are coded. -/
theorem codes_wrong_labels :
    ¬ Codes (withName [0x61, 0x2e]) 0 sizeofPacketHead zeros [] ∧
    ¬ Codes (withName (List.replicate 64 0x61)) 0 sizeofPacketHead zeros [] := by
  constructor
  · intro h
    have hlabels : labels ((withName [0x61, 0x2e]).tasks 0) = [[0x61], []] := by rfl
    have hsized := sized_of_codes h
    rw [hlabels] at hsized
    unfold Sized at hsized
    exact absurd hsized (by decide)
  · intro h
    have hlabels : labels ((withName (List.replicate 64 0x61)).tasks 0) =
        [List.replicate 64 0x61] := by
      refine List.splitOn_eq_singleton ?_
      decide
    have hsized := sized_of_codes h
    rw [hlabels] at hsized
    unfold Sized at hsized
    exact absurd hsized (by decide)

end Codes

end Ndsl.Proofs.Dns
