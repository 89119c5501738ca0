import Mathlib.Tactic.Common
import Ndsl.Lib.Wire

/-!
# `Ndsl.Lib.WireReader`: reading a serialised message

The reader of the wire format. A message is read field by field: a tag, and then what the field
holds. What a field does to the message is up to the message (`Reader`); the fields it does not
know are skipped by their wire type, and so are groups.

* `readVarint_varint`, `readBytes_append`: what was written is read again, whatever follows.
* `Reads`: the fields that one after the other turn a message into another one. `Reads.number` and
  `Reads.bytes` are for a field that was written, which may be left out for a default value.
* `Reads.readFields`: the loop reads them.
-/

set_option autoImplicit false

namespace Ndsl.Lib.Wire

/-! ### Definitions -/

/-- A varint of at most so many bytes. -/
def readVarintLoop : Nat → List UInt8 → Option (Nat × List UInt8)
  | 0, _ => none
  | _ + 1, [] => none
  | fuel + 1, b :: bs =>
    if b.toNat < 128 then some (b.toNat, bs)
    else (readVarintLoop fuel bs).map (Prod.map (fun n => b.toNat - 128 + 128 * n) id)

/-- `ReadVarint64`: ten bytes at most, of whose bits the lowest 64 count. -/
def readVarint (bs : List UInt8) : Option (Nat × List UInt8) :=
  (readVarintLoop 10 bs).map (Prod.map (· % 2 ^ 64) id)

/-- `ReadVarint32`: the lowest 32 bits count. -/
def readVarint32 (bs : List UInt8) : Option (Nat × List UInt8) :=
  (readVarint bs).map (Prod.map (· % 2 ^ 32) id)

/-- The next `n` bytes. -/
def readExactly (n : Nat) (bs : List UInt8) : Option (List UInt8 × List UInt8) :=
  if n ≤ bs.length then some (bs.take n, bs.drop n) else none

/-- `ReadBytes`: a size, which is an `int`, and so many bytes. -/
def readBytes (bs : List UInt8) : Option (List UInt8 × List UInt8) :=
  match readVarint32 bs with
  | none => none
  | some (n, bs) => if 2 ^ 31 ≤ n then none else readExactly n bs

/-- `VerifyUtf8String`. -/
def utf8 (bs : List UInt8) : Bool := bs.toByteArray.validateUTF8

/-- `ReadString`, with the check of its bytes. -/
def readString (bs : List UInt8) : Option (List UInt8 × List UInt8) :=
  match readBytes bs with
  | none => none
  | some (value, bs) => if utf8 value then some (value, bs) else none

/-- What a field of a wire type holds that is no group. -/
def skipValue (wireType : Nat) (bs : List UInt8) : Option (List UInt8) :=
  match wireType with
  | 0 => (readVarint bs).map Prod.snd
  | 1 => (readExactly 8 bs).map Prod.snd
  | 2 => (readBytes bs).map Prod.snd
  | 5 => (readExactly 4 bs).map Prod.snd
  | _ => none

/-- How deep groups can be nested. -/
def recursionLimit : Nat := 100

/-- `SkipMessage`: up to the ends of the groups that are open, the innermost one first. -/
def skipGroups : Nat → List Nat → List UInt8 → Option (List UInt8)
  | _, [], bs => some bs
  | 0, _ :: _, _ => none
  | fuel + 1, field :: fields, bs =>
    match readVarint32 bs with
    | none => none
    | some (tag, bs) =>
      if tag / 8 = 0 then none
      else if tag % 8 = 3 then
        if recursionLimit ≤ (field :: fields).length then none
        else skipGroups fuel (tag / 8 :: field :: fields) bs
      else if tag % 8 = 4 then
        if tag / 8 = field then skipGroups fuel fields bs else none
      else
        match skipValue (tag % 8) bs with
        | none => none
        | some bs => skipGroups fuel (field :: fields) bs

/-- `SkipField`. -/
def skipField (tag : Nat) (bs : List UInt8) : Option (List UInt8) :=
  if tag / 8 = 0 then none
  else if tag % 8 = 3 then skipGroups bs.length [tag / 8] bs
  else skipValue (tag % 8) bs

section Fields
variable {α : Type}

/-- What a message does with a field: its tag, and the bytes from its value on. It gives the
message with the field, and the bytes behind it. -/
abbrev Reader (α : Type) := Nat → List UInt8 → α → Option (α × List UInt8)

/-- A field that is known. -/
def readAs {β : Type} (read : List UInt8 → Option (β × List UInt8)) (set : α → β → α)
    (bs : List UInt8) (a : α) : Option (α × List UInt8) :=
  (read bs).map (Prod.map (set a) id)

/-- A field that is not known. -/
def readUnknown : Reader α := fun tag bs a => (skipField tag bs).map (Prod.mk a)

/-- `MergePartialFromCodedStream`, for at most so many fields. A tag of zero ends a message inside
its bytes, which is an error. -/
def readLoop (reader : Reader α) : Nat → List UInt8 → α → Option α
  | _, [], a => some a
  | 0, _ :: _, _ => none
  | fuel + 1, b :: bs, a =>
    match readVarint32 (b :: bs) with
    | none => none
    | some (tag, rest) =>
      if tag = 0 then none
      else
        match reader tag rest a with
        | none => none
        | some (a, rest) => readLoop reader fuel rest a

/-- `MergeFromString`. Each field takes a byte at least. -/
def readFields (reader : Reader α) (bs : List UInt8) (a : α) : Option α :=
  readLoop reader bs.length bs a

end Fields

/-- The value of an `int32` that is read from a varint. -/
def toInt32 (n : Nat) : Int := (BitVec.ofNat 32 n).toInt

/-- `ReadPrimitive<int32>`. -/
def readInt32 (bs : List UInt8) : Option (Int × List UInt8) :=
  (readVarint32 bs).map (Prod.map toInt32 id)

/-- A field number. -/
def IsField (field : Nat) : Prop := 0 < field ∧ field < 2 ^ 29

instance (field : Nat) : Decidable (IsField field) := inferInstanceAs (Decidable (_ ∧ _))

/-! ### What was written is read -/

theorem readVarintLoop_varint {fuel n : Nat} (rest : List UInt8) (hpos : 0 < fuel)
    (hn : n < 128 ^ fuel) : readVarintLoop fuel (varint n ++ rest) = some (n, rest) := by
  induction fuel generalizing n with
  | zero => exact absurd hpos (Nat.lt_irrefl 0)
  | succ fuel ih =>
      rw [varint]
      split
      next hlt =>
        have hbyte : (UInt8.ofNat n).toNat = n := by
          rw [UInt8.toNat_ofNat', Nat.mod_eq_of_lt (by omega)]
        rw [List.singleton_append, readVarintLoop, hbyte, if_pos hlt]
      next hge =>
        have hbyte : (UInt8.ofNat (n % 128 + 128)).toNat = n % 128 + 128 := by
          rw [UInt8.toNat_ofNat', Nat.mod_eq_of_lt (by omega)]
        have hdiv : n / 128 < 128 ^ fuel := by
          rw [Nat.div_lt_iff_lt_mul (by decide)]
          exact hn
        have hfuel : 0 < fuel := by
          refine Nat.pos_of_ne_zero fun h => hge ?_
          rwa [h, Nat.pow_one] at hn
        -- the seven bits of this byte come below those of the others
        have hvalue : n % 128 + 128 - 128 + 128 * (n / 128) = n := by omega
        rw [List.cons_append, readVarintLoop, hbyte, if_neg (by omega), ih hfuel hdiv,
          Option.map_some, Prod.map_apply, hvalue, id_eq]

theorem readVarint_varint {n : Nat} (rest : List UInt8) (hn : n < 2 ^ 64) :
    readVarint (varint n ++ rest) = some (n, rest) := by
  have hten : n < 128 ^ 10 := Nat.lt_trans hn (by decide)
  rw [readVarint, readVarintLoop_varint rest (by decide) hten, Option.map_some, Prod.map_apply,
    Nat.mod_eq_of_lt hn, id_eq]

theorem readVarint32_varint {n : Nat} (rest : List UInt8) (hn : n < 2 ^ 64) :
    readVarint32 (varint n ++ rest) = some (n % 2 ^ 32, rest) := by
  rw [readVarint32, readVarint_varint rest hn, Option.map_some, Prod.map_apply, id_eq]

theorem readExactly_append (value rest : List UInt8) :
    readExactly value.length (value ++ rest) = some (value, rest) := by
  rw [readExactly, if_pos (by rw [List.length_append]; omega), List.take_left, List.drop_left]

theorem readBytes_append {value : List UInt8} (rest : List UInt8) (hlen : value.length < 2 ^ 31) :
    readBytes (varint value.length ++ (value ++ rest)) = some (value, rest) := by
  have hmod : value.length % 2 ^ 32 = value.length := Nat.mod_eq_of_lt (by omega)
  rw [readBytes, readVarint32_varint _ (by omega), hmod]
  show (if 2 ^ 31 ≤ value.length then none else _) = _
  rw [if_neg (by omega), readExactly_append]

theorem readString_append {value : List UInt8} (rest : List UInt8)
    (hlen : value.length < 2 ^ 31) : readString (varint value.length ++ (value ++ rest)) =
      if utf8 value then some (value, rest) else none := by
  rw [readString, readBytes_append rest hlen]

/-- An `int32` comes back from its 64 bits. -/
theorem toInt32_signExtend {value : Int} (h : IsInt32 value) :
    toInt32 (((BitVec.ofInt 32 value).signExtend 64).toNat % 2 ^ 32) = value := by
  have hbits : BitVec.ofNat 32 (((BitVec.ofInt 32 value).signExtend 64).toNat % 2 ^ 32) =
      BitVec.ofInt 32 value := by
    apply BitVec.eq_of_toNat_eq
    rw [BitVec.toNat_ofNat, Nat.mod_mod, ← BitVec.toNat_setWidth]
    congr 1
    ext i hi
    rw [BitVec.getElem_setWidth, BitVec.getLsbD_signExtend]
    simp [hi, Nat.lt_of_lt_of_le hi (by decide : 32 ≤ 64)]
  unfold IsInt32 at h
  rw [toInt32, hbits, BitVec.toInt_ofInt, Int.bmod_eq_of_le (by omega) (by omega)]

theorem readInt32_varint {value : Int} (rest : List UInt8) (h : IsInt32 value) :
    readInt32 (varint ((BitVec.ofInt 32 value).signExtend 64).toNat ++ rest) =
      some (value, rest) := by
  rw [readInt32, readVarint32_varint rest (BitVec.isLt _), Option.map_some, Prod.map_apply,
    toInt32_signExtend h, id_eq]

/-! ### Text -/

/-- A seven-bit character is written as its own byte. -/
theorem utf8EncodeChar_of_lt {b : UInt8} (h : b.toNat < 128) :
    String.utf8EncodeChar (Char.ofNat b.toNat) = [b] := by
  have hvalid : b.toNat.isValidChar := .inl (by omega)
  have hval : (Char.ofNat b.toNat).val.toNat = b.toNat := by
    rw [Char.ofNat, dif_pos hvalid]
    rfl
  rw [String.utf8EncodeChar, hval, if_pos (show b.toNat ≤ 127 by omega), UInt8.ofNat_toNat]

/-- Seven-bit characters are text. -/
theorem utf8_of_ascii {bs : List UInt8} (h : ∀ b ∈ bs, b.toNat < 128) : utf8 bs = true := by
  rw [utf8, ByteArray.validateUTF8_eq_true_iff]
  refine ⟨bs.map fun b => Char.ofNat b.toNat, congrArg List.toByteArray ?_⟩
  induction bs with
  | nil => rfl
  | cons b bs ih =>
      rw [List.map_cons, List.flatMap_cons, utf8EncodeChar_of_lt (h b List.mem_cons_self),
        ← ih fun c hc => h c (List.mem_cons_of_mem b hc)]
      rfl

/-! ### Fields one after the other -/

section Reads
variable {α : Type} {reader : Reader α} {field : Nat} {rest : List UInt8} {a : α} {o : Option α}

/-- What the fields in the bytes make of a message, or that one of them cannot be read. -/
inductive Reads (reader : Reader α) : List UInt8 → α → Option α → Prop
  | nil (a : α) : Reads reader [] a (some a)
  | stop {bs rest : List UInt8} {tag : Nat} {a : α} (htag : readVarint32 bs = some (tag, rest))
      (hne : tag ≠ 0) (hfield : reader tag rest a = none) : Reads reader bs a none
  | cons {bs rest rest' : List UInt8} {tag : Nat} {a a' : α} {o : Option α}
      (htag : readVarint32 bs = some (tag, rest)) (hne : tag ≠ 0)
      (hfield : reader tag rest a = some (a', rest')) (hlt : rest'.length < bs.length)
      (hrest : Reads reader rest' a' o) : Reads reader bs a o

theorem readVarint32_nil : readVarint32 [] = none := rfl

/-- The loop reads the fields. -/
theorem Reads.readLoop {bs : List UInt8} (h : Reads reader bs a o) {fuel : Nat}
    (hfuel : bs.length ≤ fuel) : readLoop reader fuel bs a = o := by
  induction h generalizing fuel with
  | nil a =>
      rw [Wire.readLoop]
  | @stop bs rest tag a htag hne hfield =>
      cases bs with
      | nil => exact absurd (htag.symm.trans readVarint32_nil) (Option.some_ne_none _)
      | cons b bs =>
          cases fuel with
          | zero => exact absurd hfuel (by simp)
          | succ fuel =>
              simp only [Wire.readLoop, htag, if_neg hne, hfield]
  | @cons bs rest rest' tag a a' o htag hne hfield hlt hrest ih =>
      cases bs with
      | nil => exact absurd (htag.symm.trans readVarint32_nil) (Option.some_ne_none _)
      | cons b bs =>
          cases fuel with
          | zero => exact absurd hfuel (by simp)
          | succ fuel =>
              have hfuel' : rest'.length ≤ fuel := by
                rw [List.length_cons] at hfuel hlt
                omega
              simp only [Wire.readLoop, htag, if_neg hne, hfield]
              exact ih hfuel'

theorem Reads.readFields {bs : List UInt8} (h : Reads reader bs a o) :
    readFields reader bs a = o :=
  h.readLoop (Nat.le_refl _)

/-- A tag that was written. -/
theorem readVarint32_tag {wireType : Nat} (rest : List UInt8) (hfield : IsField field)
    (htype : wireType < 8) :
    readVarint32 (tag field wireType ++ rest) = some (8 * field + wireType, rest) := by
  unfold IsField at hfield
  rw [tag, readVarint32_varint rest (by omega), Nat.mod_eq_of_lt (by omega)]

theorem length_varint_pos (n : Nat) : 0 < (varint n).length :=
  List.length_pos_iff.mpr (varint_ne_nil n)

/-- A field that was written, with its tag. -/
theorem Reads.written {wireType : Nat} {value : List UInt8} {a' : α} (hfield : IsField field)
    (htype : wireType < 8)
    (hread : reader (8 * field + wireType) (value ++ rest) a = some (a', rest))
    (hrest : Reads reader rest a' o) :
    Reads reader (tag field wireType ++ (value ++ rest)) a o := by
  have hpos := hfield.1
  refine .cons (readVarint32_tag _ hfield htype) (by omega) hread ?_ hrest
  have htag : 0 < (tag field wireType).length := length_varint_pos _
  simp only [List.length_append]
  omega

/-- A field that is a number. A zero is not written. -/
theorem Reads.number {value : Nat} {a' : α} (hfield : IsField field)
    (hread : reader (8 * field) (varint value ++ rest) a = some (a', rest))
    (hdefault : value = 0 → a' = a) (hrest : Reads reader rest a' o) :
    Reads reader (Wire.number field value ++ rest) a o := by
  unfold Wire.number
  split
  next hzero =>
    rw [List.nil_append, ← hdefault hzero]
    exact hrest
  next =>
    rw [List.append_assoc]
    exact .written hfield (by decide) hread hrest

/-- A field that is an `int32`. -/
theorem Reads.int32 {value : Int} {set : α → Int → α} (hfield : IsField field)
    (hreader : ∀ bs, reader (8 * field) bs a = readAs readInt32 set bs a)
    (h : IsInt32 value) (hdefault : set a 0 = a)
    (hrest : Reads reader rest (set a value) o) :
    Reads reader (Wire.int32 field value ++ rest) a o := by
  refine .number hfield ?_ (fun hzero => ?_) hrest
  · rw [hreader, readAs, readInt32_varint rest h]
    rfl
  · have hvalue := toInt32_signExtend h
    rw [hzero] at hvalue
    rw [← hvalue]
    exact hdefault

/-- A field that is an `uint32`. -/
theorem Reads.uint32 {value : Nat} {set : α → Nat → α} (hfield : IsField field)
    (hreader : ∀ bs, reader (8 * field) bs a = readAs readVarint32 set bs a)
    (hvalue : value < 2 ^ 32) (hdefault : set a 0 = a)
    (hrest : Reads reader rest (set a value) o) :
    Reads reader (Wire.uint32 field value ++ rest) a o := by
  have hmod : value % 2 ^ 32 = value := Nat.mod_eq_of_lt hvalue
  rw [Wire.uint32, hmod]
  refine .number hfield ?_ (fun hzero => hzero ▸ hdefault) hrest
  rw [hreader, readAs, readVarint32_varint rest (by omega), hmod]
  rfl

section Bytes
variable {value : List UInt8} {set : α → List UInt8 → α}

/-- A field that holds bytes. -/
theorem Reads.bytes (hfield : IsField field)
    (hreader : ∀ bs, reader (8 * field + 2) bs a = readAs readBytes set bs a)
    (hlen : value.length < 2 ^ 31) (hdefault : set a [] = a)
    (hrest : Reads reader rest (set a value) o) :
    Reads reader (Wire.bytes field value ++ rest) a o := by
  unfold Wire.bytes
  split
  next hnil =>
    rw [List.nil_append, ← hdefault, ← hnil]
    exact hrest
  next =>
    rw [List.append_assoc]
    refine .written hfield (by decide) ?_ hrest
    rw [hreader, readAs, List.append_assoc, readBytes_append rest hlen]
    rfl

/-- A field that is declared as text. Other bytes cannot be read. -/
theorem Reads.string (hfield : IsField field)
    (hreader : ∀ bs, reader (8 * field + 2) bs a = readAs readString set bs a)
    (hlen : value.length < 2 ^ 31) (hdefault : set a [] = a)
    (hother : utf8 value = false → o = none)
    (hrest : utf8 value = true → Reads reader rest (set a value) o) :
    Reads reader (Wire.bytes field value ++ rest) a o := by
  unfold Wire.bytes
  split
  next hnil =>
    rw [List.nil_append, ← hdefault, ← hnil]
    exact hrest (hnil ▸ utf8_of_ascii (by simp))
  next =>
    rw [List.append_assoc]
    cases htext : utf8 value with
    | true =>
        refine .written hfield (by decide) ?_ (hrest htext)
        rw [hreader, readAs, List.append_assoc, readString_append rest hlen, if_pos htext]
        rfl
    | false =>
        have hpos := hfield.1
        rw [hother htext]
        refine .stop (readVarint32_tag _ hfield (by decide)) (by omega) ?_
        rw [hreader, readAs, List.append_assoc, readString_append rest hlen, htext]
        rfl

end Bytes

end Reads

end Ndsl.Lib.Wire
