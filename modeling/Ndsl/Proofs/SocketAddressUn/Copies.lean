import Ndsl.Net.SocketAddressUn

/-!
# `Ndsl.Proofs.SocketAddressUn.Copies`: copies of unix addresses

The copy constructor and `operator=` copy the bytes that `strlen` counts, without the zero behind
them. So the copy is read on into what its storage held before, unless that has a zero just there.

`faithful_iff_zeroBehind` says that this is all: a program reads back what it set and copied, after
each of its calls, exactly when every such copy finds that zero. The other functions fill
`sun_path` with zeros first, or write all of it.
-/

set_option autoImplicit false

namespace Ndsl.Proofs.UnixAddress

open Ndsl.Lib
open Ndsl.Net Ndsl.Net.SocketAddressUn

/-! ### Statements -/

/-- `getStrPath` of each object is the path it was given last. -/
def Faithful (P : Paths) (m : Store) : Prop :=
  ∀ x path, P x = some path → (m x).getStrPath = some path.bytes

/-- Where the copied bytes will end, the storage of a copy holds a zero. -/
def ZeroBehind (m : Store) : Call → Prop
  | .constructAddress x y | .assign x y =>
      (m x).sun_path[cstrlen (m y).sun_path]? = some 0
  | _ => True

/-! ### The functions -/

/-- `memcpy` that stays inside `sun_path`. -/
theorem memcpy_of_le {a : SocketAddressUn} {pos : Nat} {src : List UInt8}
    (h : pos + src.length ≤ 108) :
    ∃ b, a.memcpy pos src = some b ∧ b.sun_path = overwrite a.sun_path pos src :=
  ⟨_, dif_pos h, rfl⟩

/-- `memcpy` to the front of `sun_path`. -/
theorem memcpy_zero {a : SocketAddressUn} {src : List UInt8} (h : src.length ≤ 108) :
    ∃ b, a.memcpy 0 src = some b ∧ b.sun_path = src ++ a.sun_path.drop src.length := by
  obtain ⟨b, hb, hpath⟩ : ∃ b, a.memcpy 0 src = some b ∧
      b.sun_path = overwrite a.sun_path 0 src := memcpy_of_le (by rwa [Nat.zero_add])
  refine ⟨b, hb, ?_⟩
  rw [hpath, overwrite, List.take_zero, List.nil_append, Nat.zero_add]

/-- A path that is copied with its zero is read back, whatever the object held. -/
theorem memcpy_path (a : SocketAddressUn) (path : Path) :
    ∃ b, a.memcpy 0 (path.bytes ++ [0]) = some b ∧ b.getStrPath = some path.bytes := by
  have hfits : (path.bytes ++ [0]).length ≤ 108 := by
    rw [List.length_append, List.length_singleton]
    exact Nat.succ_le_succ (path.short.trans (Nat.le_succ 106))
  obtain ⟨b, hb, hpath⟩ := memcpy_zero (a := a) hfits
  refine ⟨b, hb, ?_⟩
  rw [getStrPath, hpath, List.append_assoc]
  exact (terminated_append_iff path.nonzero _).mpr rfl

/-- A default-constructed object has the empty path. -/
theorem getStrPath_default : default.getStrPath = some [] :=
  (terminated_append_iff (s := []) List.not_mem_nil _).mpr rfl

/-- The copy of a string is read back exactly where a zero was left behind it. -/
theorem copyString_iff {a addr : SocketAddressUn} {path : List UInt8}
    (h : addr.getStrPath = some path) :
    (∃ b, a.copyString addr = some b ∧ b.getStrPath = some path) ↔
      a.sun_path[cstrlen addr.sun_path]? = some 0 := by
  obtain ⟨hnonzero, hlength, htake⟩ := of_terminated h
  have hfits : path.length ≤ 108 := by
    rw [← hlength, ← addr.size]
    exact cstrlen_le_length addr.sun_path
  obtain ⟨b, hb, hpath⟩ := memcpy_zero (a := { a with sun_family := addr.sun_family }) hfits
  have hcopy : a.copyString addr = some b := by
    rw [copyString, show terminated addr.sun_path = some path from h, Option.bind_eq_bind,
      Option.bind_some, htake, hb]
  have hread : b.getStrPath = some path ↔ a.sun_path[cstrlen addr.sun_path]? = some 0 := by
    rw [getStrPath, hpath, terminated_append_iff hnonzero, List.head?_drop, hlength]
  rw [← hread, hcopy]
  constructor
  · rintro ⟨b', hb', h'⟩
    rwa [Option.some.inj hb']
  · intro h'
    exact ⟨b, rfl, h'⟩

/-- A copy of all bytes is read like the object they come from. -/
theorem setAddressUn_getStrPath (a addr : SocketAddressUn) :
    ∃ b, a.setAddressUn addr = some b ∧ b.getStrPath = addr.getStrPath := by
  obtain ⟨b, hb, hpath⟩ :=
    memcpy_zero (a := { a with sun_family := addr.sun_family }) addr.size.le
  refine ⟨b, hb, ?_⟩
  rw [getStrPath, hpath, addr.size, List.drop_eq_nil_of_le a.size.le, List.append_nil, getStrPath]

/-! ### One call -/

/-- The object of a call is read back exactly where the call finds its zero. -/
theorem value_iff {P : Paths} {m : Store} {c : Call} {path : Path} (h : Faithful P m)
    (hpath : P.path c = some path) :
    (∃ a, m.value c = some a ∧ a.getStrPath = some path.bytes) ↔ ZeroBehind m c := by
  cases c with
  | construct x =>
      obtain rfl : Path.empty = path := Option.some.inj hpath
      exact iff_of_true ⟨default, rfl, getStrPath_default⟩ trivial
  | constructPath x p =>
      obtain rfl : p = path := Option.some.inj hpath
      exact iff_of_true (memcpy_path default p) trivial
  | constructAddress x y =>
      have hy : P y = some path := by
        by_cases hxy : x = y
        · rw [Paths.path, if_pos hxy] at hpath
          exact absurd hpath nofun
        · rwa [Paths.path, if_neg hxy] at hpath
      exact copyString_iff (h y path hy)
  | assign x y =>
      obtain ⟨-, -, hy⟩ := Option.bind_eq_some_iff.mp hpath
      exact copyString_iff (h y path hy)
  | setAddress x p =>
      obtain ⟨-, -, rfl⟩ := Option.map_eq_some_iff.mp hpath
      exact iff_of_true (memcpy_path (m x).clear p) trivial
  | setAddressUn x y =>
      obtain ⟨-, -, hy⟩ := Option.bind_eq_some_iff.mp hpath
      obtain ⟨a, ha, hread⟩ := setAddressUn_getStrPath (m x) (m y)
      exact iff_of_true ⟨a, ha, hread.trans (h y path hy)⟩ trivial

/-- A call keeps the objects readable exactly where it finds its zero. -/
theorem call_iff {P P' : Paths} {m : Store} {c : Call} (h : Faithful P m)
    (hcall : P.call c = some P') :
    (∃ m', m.call c = some m' ∧ Faithful P' m') ↔ ZeroBehind m c := by
  obtain ⟨path, hpath, rfl⟩ := Option.map_eq_some_iff.mp hcall
  rw [← value_iff h hpath]
  constructor
  · rintro ⟨m', hm', hfaithful⟩
    obtain ⟨a, ha, rfl⟩ := Option.map_eq_some_iff.mp hm'
    have hread := hfaithful c.target path (Function.update_self ..)
    rw [Function.update_self] at hread
    exact ⟨a, ha, hread⟩
  · rintro ⟨a, ha, hread⟩
    refine ⟨_, by rw [Store.call, ha, Option.map_some], ?_⟩
    intro x p hx
    by_cases hxc : x = c.target
    · subst hxc
      rw [Function.update_self] at hx ⊢
      rwa [← Option.some.inj hx]
    · rw [Function.update_of_ne hxc] at hx ⊢
      exact h x p hx

/-! ### Programs -/

/-- A program of one call. -/
theorem foldlM_singleton {σ κ : Type} (f : σ → κ → Option σ) (s : σ) (c : κ) :
    [c].foldlM f s = f s c :=
  Option.bind_fun_some _

/-- A program goes on where its first call has left it. -/
theorem foldlM_cons_of_eq {σ κ : Type} {f : σ → κ → Option σ} {s s' : σ} {c : κ}
    (h : f s c = some s') (calls : List κ) : (c :: calls).foldlM f s = calls.foldlM f s' := by
  rw [List.foldlM_cons, h, Option.bind_eq_bind, Option.bind_some]

section Prefixes
variable {κ : Type} {c : κ} {calls : List κ}

/-- What holds before the first call, and of every part of the program that begins with it. -/
theorem forall_prefix_cons {p : List κ → Prop} :
    (∀ done, done <+: c :: calls → p done) ↔ p [] ∧ ∀ done, done <+: calls → p (c :: done) := by
  constructor
  · intro h
    exact ⟨h [] List.nil_prefix, fun done hdone => h _ (List.cons_prefix_cons.mpr ⟨rfl, hdone⟩)⟩
  · rintro ⟨hnil, hcons⟩ done hdone
    cases done with
    | nil => exact hnil
    | cons d done =>
        obtain ⟨rfl, htail⟩ := List.cons_prefix_cons.mp hdone
        exact hcons done htail

/-- What holds at the first call, and at every later one. -/
theorem forall_call_cons {p : List κ → κ → Prop} :
    (∀ done d, done ++ [d] <+: c :: calls → p done d) ↔
      p [] c ∧ ∀ done d, done ++ [d] <+: calls → p (c :: done) d := by
  constructor
  · intro h
    refine ⟨h [] c (List.cons_prefix_cons.mpr ⟨rfl, List.nil_prefix⟩), ?_⟩
    exact fun done d hdone => h (c :: done) d (List.cons_prefix_cons.mpr ⟨rfl, hdone⟩)
  · rintro ⟨hfirst, hlater⟩ done d hdone
    cases done with
    | nil =>
        obtain ⟨rfl, -⟩ := List.cons_prefix_cons.mp hdone
        exact hfirst
    | cons e done =>
        obtain ⟨rfl, htail⟩ := List.cons_prefix_cons.mp hdone
        exact hlater done d htail

end Prefixes

/-- The same from any state of a program that is still readable. -/
theorem run_iff {P : Paths} {m : Store} {calls : List Call} (h : Faithful P m)
    (hruns : (calls.foldlM Paths.call P).isSome) :
    (∀ done, done <+: calls → ∀ P', done.foldlM Paths.call P = some P' →
        ∃ m', m.run done = some m' ∧ Faithful P' m') ↔
      ∀ done c, done ++ [c] <+: calls → ∀ m', m.run done = some m' → ZeroBehind m' c := by
  induction calls generalizing P m with
  | nil =>
      refine iff_of_true ?_ ?_
      · intro done hdone P' hP'
        obtain rfl := List.prefix_nil.mp hdone
        exact ⟨m, rfl, Option.some.inj hP' ▸ h⟩
      · intro done c hdone
        exact absurd (List.prefix_nil.mp hdone) (List.append_ne_nil_of_right_ne_nil _ nofun)
  | cons c calls ih =>
      obtain ⟨P₁, hP₁, hrest⟩ : ∃ P₁, P.call c = some P₁ ∧
          (calls.foldlM Paths.call P₁).isSome := by
        rw [List.foldlM_cons, Option.bind_eq_bind] at hruns
        obtain ⟨P', hP'⟩ := Option.isSome_iff_exists.mp hruns
        obtain ⟨P₁, hP₁, hrest⟩ := Option.bind_eq_some_iff.mp hP'
        exact ⟨P₁, hP₁, Option.isSome_of_mem hrest⟩
      have hstart : ∀ P', [].foldlM Paths.call P = some P' →
          ∃ m', m.run [] = some m' ∧ Faithful P' m' :=
        fun P' hP' => ⟨m, rfl, Option.some.inj hP' ▸ h⟩
      have hfirst : (∀ m', m.run [] = some m' → ZeroBehind m' c) ↔ ZeroBehind m c :=
        ⟨fun hall => hall m rfl, fun hzero m' hm' => Option.some.inj hm' ▸ hzero⟩
      rw [forall_prefix_cons, forall_call_cons, and_iff_right hstart, hfirst]
      by_cases hzero : ZeroBehind m c
      · obtain ⟨m₁, hm₁, h₁⟩ := (call_iff h hP₁).mpr hzero
        have hrun : ∀ done, m.run (c :: done) = m₁.run done := foldlM_cons_of_eq hm₁
        simp only [foldlM_cons_of_eq hP₁, hrun]
        rw [ih h₁ hrest, and_iff_right hzero]
      · -- the first call already leaves an object that is not read back
        refine iff_of_false ?_ fun hall => hzero hall.1
        intro hall
        obtain ⟨m', hm', h'⟩ := hall [] List.nil_prefix P₁ ((foldlM_singleton _ P c).trans hP₁)
        exact hzero ((call_iff h hP₁).mp ⟨m', (foldlM_singleton _ m c).symm.trans hm', h'⟩)

/-- A program reads back each path that it has set or copied, after each of its calls, exactly when
every copy construction and assignment finds a zero behind the bytes that it copies. -/
theorem faithful_iff_zeroBehind (m : Store) (calls : List Call)
    (h : (Paths.run calls).isSome) :
    (∀ done, done <+: calls → ∀ P, Paths.run done = some P →
        ∃ m', m.run done = some m' ∧ Faithful P m') ↔
      ∀ done c, done ++ [c] <+: calls → ∀ m', m.run done = some m' → ZeroBehind m' c :=
  run_iff (fun _ _ hx => absurd hx nofun) h

/-- Assignment into an object that was made without a path: `/a` goes from 1 to 0. -/
def intoDefault : List Call :=
  [.construct 0,
    .constructPath 1 { bytes := [0x2f, 0x61], nonzero := by decide, short := by decide },
    .assign 0 1]

theorem faithful_iff_zeroBehind_intoDefault :
    (∀ done, done <+: intoDefault → ∀ P, Paths.run done = some P →
        ∃ m', Store.run (fun _ => default) done = some m' ∧ Faithful P m') ↔
      ∀ done c, done ++ [c] <+: intoDefault →
        ∀ m', Store.run (fun _ => default) done = some m' → ZeroBehind m' c :=
  faithful_iff_zeroBehind _ intoDefault rfl

/-- Assignment over a longer path: `/a` goes from 1 to 0, which has held `/bcd`. -/
def overLonger : List Call :=
  [.constructPath 0
      { bytes := [0x2f, 0x62, 0x63, 0x64], nonzero := by decide, short := by decide },
    .constructPath 1 { bytes := [0x2f, 0x61], nonzero := by decide, short := by decide },
    .assign 0 1]

/-- The object reads `/acd`, and not the path `/a` that was copied into it. -/
theorem overLonger_unfaithful :
    ((Store.run (fun _ => default) overLonger).map fun m => (m 0).getStrPath) =
        some (some [0x2f, 0x61, 0x63, 0x64]) ∧
      ¬ ∀ done, done <+: overLonger → ∀ P, Paths.run done = some P →
        ∃ m, Store.run (fun _ => default) done = some m ∧ Faithful P m := by
  have hread : ((Store.run (fun _ => default) overLonger).map fun m => (m 0).getStrPath) =
      some (some [0x2f, 0x61, 0x63, 0x64]) := by decide +kernel
  refine ⟨hread, ?_⟩
  intro hall
  obtain ⟨P, hP⟩ : ∃ P, Paths.run overLonger = some P := ⟨_, rfl⟩
  obtain ⟨m, hm, hfaithful⟩ := hall overLonger List.prefix_rfl P hP
  have hzero : (P 0).map Path.bytes = some [0x2f, 0x61] := by
    rw [← Option.some.inj (show some ((P 0).map Path.bytes) = some (some [0x2f, 0x61]) from
      congrArg (Option.map fun P : Paths => (P 0).map Path.bytes) hP.symm)]
  obtain ⟨path, hpath, hbytes⟩ := Option.map_eq_some_iff.mp hzero
  have hgood := hfaithful 0 path hpath
  rw [hm, Option.map_some, hgood, hbytes] at hread
  exact absurd hread (by decide)

end Ndsl.Proofs.UnixAddress
