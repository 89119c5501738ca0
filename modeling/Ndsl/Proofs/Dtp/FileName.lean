import Ndsl.Proofs.Sending.Cases

/-!
# `Ndsl.Proofs.Dtp.FileName`: the name of a file

`getFileName` goes behind the last slash of a path. When there is none it goes behind the first
character, which is too far: the name has lost a character, and behind an empty path the pointer is
past the end. `file_name_iff` says so for the function and for the two messages that are made with
it.
-/

set_option autoImplicit false

namespace Ndsl.Proofs.FileName

open Ndsl.Lib
open Ndsl.Net Ndsl.Net.Dtp

/-! ### Statements -/

/-- The longest end of a path that has no slash. -/
structure LastComponent (path name : List UInt8) : Prop where
  suffix : name <:+ path
  noSlash : 0x2f ∉ name
  longest : ∀ s, s <:+ path → 0x2f ∉ s → s.length ≤ name.length

/-! ### The loop -/

/-- The loop of `getFileName` over the first `n` characters. -/
def scan (path : List UInt8) (n : Nat) : Nat :=
  (List.range n).foldl (fun st i => if path.getD i 0 = 0x2f then i else st) 0

theorem scan_succ (path : List UInt8) (n : Nat) :
    scan path (n + 1) = if path.getD n 0 = 0x2f then n else scan path n := by
  rw [scan, List.range_succ, List.foldl_append, List.foldl_cons, List.foldl_nil, scan]

/-- It finds the last slash among them, and it stays at 0 when there is none. -/
theorem scan_spec (path : List UInt8) (n : Nat) :
    (∀ j < n, path.getD j 0 = 0x2f → j ≤ scan path n) ∧
      ((∃ j < n, path.getD j 0 = 0x2f) → path.getD (scan path n) 0 = 0x2f) ∧
      ((∀ j < n, path.getD j 0 ≠ 0x2f) → scan path n = 0) := by
  induction n with
  | zero => exact ⟨nofun, nofun, fun _ => rfl⟩
  | succ n ih =>
      obtain ⟨hbound, hslash, hnone⟩ := ih
      rw [scan_succ]
      by_cases hn : path.getD n 0 = 0x2f
      · rw [if_pos hn]
        exact ⟨fun j hj _ => Nat.le_of_lt_succ hj, fun _ => hn,
          fun h => absurd hn (h n (Nat.lt_succ_self n))⟩
      · rw [if_neg hn]
        -- the last character that was read is no slash
        have hbefore : ∀ j < n + 1, path.getD j 0 = 0x2f → j < n := by
          intro j hj hsl
          refine Nat.lt_of_le_of_ne (Nat.le_of_lt_succ hj) ?_
          rintro rfl
          exact hn hsl
        refine ⟨fun j hj hsl => hbound j (hbefore j hj hsl) hsl, ?_, ?_⟩
        · rintro ⟨j, hj, hsl⟩
          exact hslash ⟨j, hbefore j hj hsl, hsl⟩
        · exact fun h => hnone fun j hj => h j (Nat.lt_succ_of_lt hj)

/-- `lastSlash` of a path that has a slash. -/
theorem lastSlash_of_mem {path : List UInt8} (h : 0x2f ∈ path) :
    ∃ front name, path = front ++ 0x2f :: name ∧ 0x2f ∉ name ∧ lastSlash path = front.length := by
  have hscan : scan path path.length = lastSlash path := rfl
  obtain ⟨hbound, hslash, -⟩ := scan_spec path path.length
  rw [hscan] at hbound hslash
  have hget : ∀ j (hj : j < path.length), path.getD j 0 = path[j] := fun j hj =>
    List.getD_eq_getElem path 0 hj
  obtain ⟨j, hj, hsl⟩ := List.mem_iff_getElem.mp h
  have hat := hslash ⟨j, hj, (hget j hj).trans hsl⟩
  have hlt : lastSlash path < path.length := by
    by_contra hout
    rw [List.getD_eq_default _ _ (Nat.le_of_not_lt hout)] at hat
    exact absurd hat (by decide)
  refine ⟨path.take (lastSlash path), path.drop (lastSlash path + 1), ?_, ?_, ?_⟩
  · rw [← hat, hget _ hlt, ← List.drop_eq_getElem_cons hlt, List.take_append_drop]
  · -- a slash behind it would be at most as far
    intro hmem
    obtain ⟨i, hi, hsl⟩ := List.mem_iff_getElem.mp hmem
    rw [List.length_drop] at hi
    rw [List.getElem_drop] at hsl
    have hle := hbound (lastSlash path + 1 + i) (by omega) ((hget _ (by omega)).trans hsl)
    omega
  · rw [List.length_take_of_le (Nat.le_of_lt hlt)]

theorem lastSlash_of_not_mem {path : List UInt8} (h : 0x2f ∉ path) : lastSlash path = 0 := by
  refine (scan_spec path path.length).2.2 ?_
  intro j hj hsl
  rw [List.getD_eq_getElem path 0 hj] at hsl
  exact h (hsl ▸ List.getElem_mem hj)

/-! ### The name -/

/-- What follows the last slash is the last component. -/
theorem lastComponent_append {front name : List UInt8} (h : 0x2f ∉ name) :
    LastComponent (front ++ 0x2f :: name) name := by
  refine { suffix := ?_, noSlash := h, longest := ?_ }
  · exact ⟨front ++ [0x2f], by rw [List.append_assoc, List.singleton_append]⟩
  · intro s hs hslash
    by_contra hlong
    -- a longer end reaches back to the slash
    have hend : 0x2f :: name <:+ s :=
      List.suffix_of_suffix_length_le ⟨front, rfl⟩ hs (Nat.lt_of_not_le hlong)
    exact hslash (hend.subset (List.mem_cons_self ..))

/-- The last slash, or the first character, lies inside a path that is not empty. -/
theorem lastSlash_lt {path : List UInt8} (h : path ≠ []) : lastSlash path < path.length := by
  by_cases hslash : 0x2f ∈ path
  · obtain ⟨front, name, hpath, -, hlast⟩ := lastSlash_of_mem hslash
    rw [hlast, hpath, List.length_append, List.length_cons]
    omega
  · rw [lastSlash_of_not_mem hslash]
    exact List.length_pos_iff.mpr h

/-- `getFileName` points behind the end of an empty path only. -/
theorem getFileName_eq_none_iff (filePath : List UInt8) :
    getFileName filePath = none ↔
      (cstring filePath).length < lastSlash (cstring filePath) + 1 := by
  unfold getFileName
  dsimp only
  by_cases hempty : cstring filePath = []
  · rw [if_pos hempty, hempty]
    exact iff_of_true rfl (by decide)
  · rw [if_neg hempty]
    have hlt := lastSlash_lt hempty
    exact iff_of_false nofun (by omega)

/-- The name of a path without a slash lacks a character. -/
theorem not_lastComponent_drop {path : List UInt8} (h : 0x2f ∉ path) (hne : path ≠ []) :
    ¬ LastComponent path (path.drop (lastSlash path + 1)) := by
  intro hlast
  have hwhole := hlast.longest path List.suffix_rfl h
  have hpos : 0 < path.length := List.length_pos_iff.mpr hne
  rw [lastSlash_of_not_mem h, List.length_drop] at hwhole
  omega

/-- `getFileName` finds the last component exactly when the path has a slash. -/
theorem getFileName_iff (filePath : List UInt8) :
    (∃ name, getFileName filePath = some name ∧ LastComponent (cstring filePath) name) ↔
      0x2f ∈ cstring filePath := by
  unfold getFileName
  dsimp only
  constructor
  · rintro ⟨name, hname, hlast⟩
    by_contra hslash
    split at hname
    next => nomatch hname
    next hne =>
      rw [← Option.some.inj hname] at hlast
      exact not_lastComponent_drop hslash hne hlast
  · intro hslash
    obtain ⟨front, name, hpath, hname, hlast⟩ := lastSlash_of_mem hslash
    refine ⟨name, ?_, hpath ▸ lastComponent_append hname⟩
    rw [if_neg (List.ne_nil_of_mem hslash), hlast, hpath, ← List.drop_drop, List.drop_left,
      List.drop_succ_cons, List.drop_zero]

/-! ### The messages -/

/-- A name is a string. -/
theorem zero_not_mem_getFileName {filePath fileName : List UInt8}
    (h : getFileName filePath = some fileName) : 0 ∉ fileName := by
  unfold getFileName at h
  dsimp only at h
  split at h
  next => nomatch h
  next =>
    rw [← Option.some.inj h]
    exact fun hmem => zero_not_mem_cstring filePath (List.mem_of_mem_drop hmem)

/-- A message that is made of what `getFileName` gives holds that name. -/
theorem exists_map_iff {filePath : List UInt8} {make : List UInt8 → ControlMsg}
    (h : ∀ fileName, 0 ∉ fileName → (make fileName).fileName = fileName) :
    (∃ msg, (getFileName filePath).map make = some msg ∧
        LastComponent (cstring filePath) msg.fileName) ↔ 0x2f ∈ cstring filePath := by
  rw [← getFileName_iff]
  constructor
  · rintro ⟨msg, hmsg, hlast⟩
    obtain ⟨name, hname, rfl⟩ := Option.map_eq_some_iff.mp hmsg
    rw [h name (zero_not_mem_getFileName hname)] at hlast
    exact ⟨name, hname, hlast⟩
  · rintro ⟨name, hname, hlast⟩
    refine ⟨make name, by rw [hname, Option.map_some], ?_⟩
    rwa [h name (zero_not_mem_getFileName hname)]

/-- The offer of `sendFile` is the one of `makeControlMsg`, and its record keeps the path for the
notice. -/
theorem sendFile_offers {κ : Type} {md5 : Md5 κ} {sys : Sending.FileCalls} {conn : Registry.Conn}
    {peerId : Int} {filePath : List UInt8} {length : Int} {client : Registry.Client}
    {s : Sending.Sender} {es : List Sending.Event} {r : Int × Sending.Sender}
    (h : (Sending.DTP.sendFile md5 sys conn peerId filePath length client s).Yields es r) :
    (∃ sum size msg, makeControlMsgOfPath SENDFILEFLAG peerId RDMA_IP
        (Sending.port sys.toListenCalls) sum filePath size = some msg ∧
        .sendMessage conn 0 msg ∈ es) ∧
      r.2.listenMgrs =
        s.listenMgrs ++ [{ filePath_ := cstring filePath, client_ := client }] := by
  obtain ⟨rfl, msg, ⟨sum, fileName, size, hname, hmsg⟩, rfl⟩ := Sending.sendFile_cases h
  refine ⟨⟨sum, size, msg, ?_, by simp⟩, rfl⟩
  rw [makeControlMsgOfPath, hname, Option.map_some, hmsg]

/-! ### The result -/

/-- `getFileName` finds the last component of a path exactly when the path has a slash, and so do
the offer and the notice that are made with it. Only for an empty path its pointer lies behind the
end. -/
theorem file_name_iff (filePath : List UInt8) :
    ((∃ name, getFileName filePath = some name ∧ LastComponent (cstring filePath) name) ↔
        0x2f ∈ cstring filePath) ∧
      (∀ type id ip dataport md5 length,
        (∃ msg, makeControlMsgOfPath type id ip dataport md5 filePath length = some msg ∧
          LastComponent (cstring filePath) msg.fileName) ↔ 0x2f ∈ cstring filePath) ∧
      (∀ client,
        (∃ msg, Sending.DTP.sendFileNotice
              { filePath_ := cstring filePath, client_ := client } = some msg ∧
            LastComponent (cstring filePath) msg.fileName) ↔ 0x2f ∈ cstring filePath) ∧
      (lastSlash (cstring filePath) + 1 ≤ (cstring filePath).length ↔ cstring filePath ≠ []) := by
  refine ⟨getFileName_iff filePath, ?_, ?_, ?_⟩
  · intro type id ip dataport md5 length
    exact exists_map_iff fun _ _ => rfl
  · intro client
    have hnotice := @exists_map_iff (cstring filePath) (RecvFile.makeNoticeMsg SENDFILESUCC)
      fun fileName hzero => (cstring_eq_self_iff fileName).mpr hzero
    rwa [cstring_cstring] at hnotice
  · constructor
    · intro hinside hempty
      rw [hempty] at hinside
      exact absurd hinside (Nat.not_succ_le_zero _)
    · exact lastSlash_lt

/-- The path `ab` becomes the name `b`, and behind the empty path there is nothing to read. -/
theorem name_without_slash :
    getFileName [0x61, 0x62, 0x00] = some [0x62] ∧
      ¬ LastComponent (cstring [0x61, 0x62, 0x00]) [0x62] ∧
      getFileName [0x00] = none := by
  refine ⟨by decide, ?_, by decide⟩
  intro hlast
  have hwhole := hlast.longest [0x61, 0x62] List.suffix_rfl (by decide)
  exact absurd hwhole (by decide)

end Ndsl.Proofs.FileName
