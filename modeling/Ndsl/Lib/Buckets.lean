import Mathlib.Data.List.Nodup
import Mathlib.Data.List.Flatten
import Mathlib.Logic.Function.Basic

/-!
# `Ndsl.Lib.Buckets`: a table of buckets

The elements of a table lie in `n` buckets, each in the one that its key says (`Placed`). As long as
no two of them have the same key, a search through one bucket finds the element with a key
(`find?_eq_some_iff`).
-/

set_option autoImplicit false

namespace Ndsl.Lib.Buckets

variable {α κ : Type} {n i : Nat} {bucket bucket' : Nat → List α} {a : α}

/-- The elements of the table. -/
def contents (n : Nat) (bucket : Nat → List α) : List α := (List.range n).flatMap bucket

/-- Each element lies in the bucket of its key. -/
def Placed (key : α → κ) (index : κ → Nat) (bucket : Nat → List α) : Prop :=
  ∀ i, ∀ a ∈ bucket i, index (key a) = i

theorem mem_contents : a ∈ contents n bucket ↔ ∃ i < n, a ∈ bucket i := by
  simp [contents]

@[simp] theorem contents_nil : contents n (fun _ => ([] : List α)) = [] := by
  simp [contents]

/-- One bucket in front of the others. -/
theorem contents_perm (hi : i < n) (bucket : Nat → List α) :
    (contents n bucket).Perm (bucket i ++ ((List.range n).erase i).flatMap bucket) := by
  have hrange : (List.range n).Perm (i :: (List.range n).erase i) :=
    List.perm_cons_erase (List.mem_range.mpr hi)
  exact hrange.flatMap_right _

/-- The others are what they were when one bucket has changed. -/
theorem contents_update (hi : i < n) (l : List α) :
    (contents n (Function.update bucket i l)).Perm
      (l ++ ((List.range n).erase i).flatMap bucket) := by
  have hothers : ((List.range n).erase i).flatMap (Function.update bucket i l) =
      ((List.range n).erase i).flatMap bucket := by
    refine List.flatMap_congr fun j hj => ?_
    exact Function.update_of_ne (List.nodup_range.mem_erase_iff.mp hj).1 _ _
  have hperm := contents_perm hi (Function.update bucket i l)
  rwa [Function.update_self, hothers] at hperm

/-- Another element in front of a bucket. -/
theorem contents_cons (hi : i < n) (a : α) :
    (contents n (Function.update bucket i (a :: bucket i))).Perm (a :: contents n bucket) :=
  (contents_update hi _).trans ((contents_perm hi bucket).symm.cons a)

/-- An element less. -/
theorem contents_remove (hi : i < n) {pre post : List α} (hbucket : bucket i = pre ++ a :: post) :
    (contents n bucket).Perm (a :: contents n (Function.update bucket i (pre ++ post))) := by
  have hperm := contents_perm hi bucket
  rw [hbucket, List.append_assoc, List.cons_append] at hperm
  refine hperm.trans (List.perm_middle.trans (List.Perm.cons a ?_))
  rw [← List.append_assoc]
  exact (contents_update hi _).symm

/-- A bucket is a part of the table. -/
theorem bucket_sublist (hi : i < n) (bucket : Nat → List α) :
    (bucket i).Sublist (contents n bucket) := by
  have hmem := List.mem_range.mpr hi
  obtain ⟨pre, post, hrange⟩ := List.append_of_mem hmem
  rw [contents, hrange, List.flatMap_append, List.flatMap_cons]
  exact (List.sublist_append_left ..).trans (List.sublist_append_right ..)

/-- An element that occurs once lies in one bucket. -/
theorem index_eq_of_nodup (h : (contents n bucket).Nodup) {j : Nat} (hi : i < n) (hj : j < n)
    (hai : a ∈ bucket i) (haj : a ∈ bucket j) : i = j := by
  by_contra hne
  rw [(contents_perm hi bucket).nodup_iff, List.nodup_append] at h
  have hmem : a ∈ ((List.range n).erase i).flatMap bucket :=
    List.mem_flatMap.mpr ⟨j, (List.mem_erase_of_ne (Ne.symm hne)).mpr (List.mem_range.mpr hj), haj⟩
  exact h.2.2 a hai a hmem rfl

/-- Fewer elements. -/
theorem contents_sublist (h : ∀ i, (bucket' i).Sublist (bucket i)) :
    (contents n bucket').Sublist (contents n bucket) :=
  List.Sublist.flatMap_right _ fun i _ => h i

section Placed
variable {key : α → κ} {index : κ → Nat} {k : κ}

theorem Placed.sublist (h : Placed key index bucket) (hsub : ∀ i, (bucket' i).Sublist (bucket i)) :
    Placed key index bucket' :=
  fun i a ha => h i a ((hsub i).mem ha)

/-- An element lies in the bucket of its key. -/
theorem Placed.mem_iff (h : Placed key index bucket) (hk : index (key a) < n) :
    a ∈ contents n bucket ↔ a ∈ bucket (index (key a)) := by
  rw [mem_contents]
  constructor
  · rintro ⟨i, -, ha⟩
    rw [h i a ha]
    exact ha
  · exact fun ha => ⟨_, hk, ha⟩

/-- The search finds the element with the key. -/
theorem Placed.find?_eq_some_iff [DecidableEq κ] (h : Placed key index bucket)
    (hdistinct : ((contents n bucket).map key).Nodup) (hk : index k < n) :
    (bucket (index k)).find? (fun a => key a = k) = some a ↔ a ∈ contents n bucket ∧ key a = k := by
  have hmem : ∀ b ∈ bucket (index k), b ∈ contents n bucket := fun b hb =>
    mem_contents.mpr ⟨_, hk, hb⟩
  constructor
  · intro hfind
    exact ⟨hmem a (List.mem_of_find?_eq_some hfind), by simpa using List.find?_some hfind⟩
  · rintro ⟨ha, rfl⟩
    have hin := (h.mem_iff hk).mp ha
    cases hfind : (bucket (index (key a))).find? (fun b => key b = key a) with
    | none => exact absurd (List.find?_eq_none.mp hfind a hin) (by simp)
    | some b =>
        have hb : key b = key a := by simpa using List.find?_some hfind
        have hbin := hmem b (List.mem_of_find?_eq_some hfind)
        rw [List.inj_on_of_nodup_map hdistinct hbin ha hb]

end Placed

end Ndsl.Lib.Buckets
