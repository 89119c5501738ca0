import Ndsl.Lib.Bytes

/-!
# `Ndsl.Lib.DnsMessage`: the format of a DNS message

A name is a sequence of labels, each behind its length, up to a zero byte or to a pointer. A message
has a header with the counts, then the questions, the answers, and the two other sections.
`encode` gives the bytes of each part.

A value of one of these types is well formed: a label has 1 to 63 bytes, the data of a record is not
longer than its length field can say, the data of an address record is an address, and a message has
no more questions and answers than its header can count.

`decode` reads a name that ends with a zero byte.
-/

set_option autoImplicit false

namespace Ndsl.Lib.DnsMessage

/-- A label. -/
structure Label where
  bytes : List UInt8
  ne_nil : bytes ≠ []
  length_le : bytes.length ≤ 63

/-- The label behind its length. -/
def Label.encode (label : Label) : List UInt8 := UInt8.ofNat label.bytes.length :: label.bytes

/-- What a name ends with. -/
inductive NameEnd
  /-- A zero byte. -/
  | root
  /-- A pointer to a position in the message. -/
  | pointer (offset : Fin (2 ^ 14))
  deriving Repr, DecidableEq

/-- The two top bits of a pointer are set. -/
def NameEnd.encode : NameEnd → List UInt8
  | root => [0]
  | pointer offset => [UInt8.ofNat (0xc0 + offset / 2 ^ 8), UInt8.ofNat offset]

/-- A name. -/
structure Name where
  labels : List Label
  ending : NameEnd

def Name.encode (name : Name) : List UInt8 :=
  name.labels.flatMap Label.encode ++ name.ending.encode

/-- A question. -/
structure Question where
  name : Name
  qtype : UInt16
  qclass : UInt16

def Question.encode (question : Question) : List UInt8 :=
  question.name.encode ++ (be16 question.qtype.toNat ++ be16 question.qclass.toNat)

/-- A query: a header that announces one question, and the question. -/
structure Query where
  id : UInt8 × UInt8
  flags : UInt16
  question : Question

def Query.encode (q : Query) : List UInt8 :=
  [q.id.1, q.id.2] ++ be16 q.flags.toNat ++ be16 1 ++ be16 0 ++ be16 0 ++ be16 0 ++
    q.question.encode

/-- The type of a record that holds an IPv4 address. -/
def typeA : UInt16 := 1

/-- A resource record. -/
structure Record where
  name : Name
  type : UInt16
  rclass : UInt16
  ttl : UInt32
  rdata : List UInt8
  length_lt : rdata.length < 2 ^ 16
  length_of_typeA : type = typeA → rdata.length = 4

/-- The part of a record between its name and its data. -/
def Record.fields (record : Record) : List UInt8 :=
  be16 record.type.toNat ++ be16 record.rclass.toNat ++ be32 record.ttl.toNat ++
    be16 record.rdata.length

def Record.encode (record : Record) : List UInt8 :=
  record.name.encode ++ record.fields ++ record.rdata

/-- A response. What stands behind the answers is `rest`. -/
structure Response where
  /-- The two bytes that the responder copies from the query. -/
  id : UInt8 × UInt8
  flags : UInt16
  questions : List Question
  answers : List Record
  authorities : UInt16
  additionals : UInt16
  rest : List UInt8
  is_response : 2 ^ 15 ≤ flags.toNat
  questions_lt : questions.length < 2 ^ 16
  answers_lt : answers.length < 2 ^ 16

namespace Response

/-- The header. -/
def header (r : Response) : List UInt8 :=
  [r.id.1, r.id.2] ++ be16 r.flags.toNat ++ be16 r.questions.length ++ be16 r.answers.length ++
    be16 r.authorities.toNat ++ be16 r.additionals.toNat

def encode (r : Response) : List UInt8 :=
  r.header ++ r.questions.flatMap Question.encode ++ r.answers.flatMap Record.encode ++ r.rest

/-- The addresses of all address records, in order. -/
def addresses (r : Response) : List (List UInt8) :=
  (r.answers.filter (·.type = typeA)).map Record.rdata

end Response

/-! ### Lengths -/

@[simp] theorem Record.length_fields (record : Record) : record.fields.length = 10 := rfl

@[simp] theorem Response.length_header (r : Response) : r.header.length = 12 := rfl

theorem Record.length_encode (record : Record) :
    record.encode.length = record.name.encode.length + 10 + record.rdata.length := by
  rw [Record.encode, List.length_append, List.length_append, Record.length_fields]

/-! ### Reading a name -/

/-- Reads labels up to a zero byte, which is the last one. The fuel is for their lengths. -/
def readLabels : Nat → List UInt8 → Option (List (List UInt8))
  | 0, _ => none
  | _ + 1, [] => none
  | fuel + 1, n :: bytes =>
    if n = 0 then if bytes = [] then some [] else none
    else if 63 < n.toNat ∨ bytes.length < n.toNat then none
    else (readLabels fuel (bytes.drop n.toNat)).map (bytes.take n.toNat :: ·)

/-- The labels of a name, when the bytes are one that ends with a zero byte. -/
def decode (bytes : List UInt8) : Option (List (List UInt8)) := readLabels bytes.length bytes

/-- A length that a label can have. -/
def Sized (label : List UInt8) : Prop := 1 ≤ label.length ∧ label.length ≤ 63

/-- Labels of the right sizes make a name. -/
theorem exists_labels {l : List (List UInt8)} (h : ∀ label ∈ l, Sized label) :
    ∃ labels : List Label, labels.map Label.bytes = l := by
  induction l with
  | nil => exact ⟨[], rfl⟩
  | cons label l ih =>
      obtain ⟨⟨hpos, hle⟩, hrest⟩ := List.forall_mem_cons.mp h
      obtain ⟨labels, hlabels⟩ := ih hrest
      refine ⟨⟨label, List.ne_nil_of_length_pos hpos, hle⟩ :: labels, ?_⟩
      rw [List.map_cons, hlabels]

theorem Label.sized (label : Label) : Sized label.bytes :=
  ⟨List.length_pos_iff.mpr label.ne_nil, label.length_le⟩

theorem Label.toNat_length (label : Label) :
    (UInt8.ofNat label.bytes.length).toNat = label.bytes.length :=
  UInt8.toNat_ofNat_of_lt (Nat.lt_of_le_of_lt label.length_le (by decide))

/-- A name is read as its labels, with fuel for each of them. -/
theorem readLabels_encode (labels : List Label) : ∀ {fuel : Nat}, labels.length < fuel →
    readLabels fuel (Name.encode ⟨labels, .root⟩) = some (labels.map Label.bytes) := by
  induction labels with
  | nil =>
      intro fuel hfuel
      obtain ⟨fuel, rfl⟩ := Nat.exists_eq_succ_of_ne_zero (Nat.ne_of_gt hfuel)
      rfl
  | cons label labels ih =>
      intro fuel hfuel
      obtain ⟨fuel, rfl⟩ := Nat.exists_eq_succ_of_ne_zero (Nat.ne_of_gt (Nat.zero_lt_of_lt hfuel))
      obtain ⟨hpos, hle⟩ := label.sized
      have hlength := label.toNat_length
      have hzero : UInt8.ofNat label.bytes.length ≠ 0 := fun heq => by
        rw [heq] at hlength
        exact Nat.ne_of_gt hpos hlength.symm
      have hencode : Name.encode ⟨label :: labels, .root⟩ =
          UInt8.ofNat label.bytes.length :: (label.bytes ++ Name.encode ⟨labels, .root⟩) := by
        simp only [Name.encode, List.flatMap_cons, Label.encode, List.cons_append,
          List.append_assoc]
      have hfits : ¬ (63 < (UInt8.ofNat label.bytes.length).toNat ∨
          (label.bytes ++ Name.encode ⟨labels, .root⟩).length <
            (UInt8.ofNat label.bytes.length).toNat) := by
        rw [hlength, List.length_append]
        omega
      rw [hencode, readLabels, if_neg hzero, if_neg hfits, hlength, List.drop_left,
        List.take_left, ih (Nat.lt_of_succ_lt_succ hfuel)]
      rfl

theorem decode_encode (labels : List Label) :
    decode (Name.encode ⟨labels, .root⟩) = some (labels.map Label.bytes) := by
  refine readLabels_encode labels ?_
  -- each label takes one byte at least
  have hle : labels.length ≤ (labels.flatMap Label.encode).length := by
    induction labels with
    | nil => exact Nat.le_refl _
    | cons label labels ih =>
        rw [List.flatMap_cons, List.length_append, Label.encode, List.length_cons,
          List.length_cons]
        omega
  rw [Name.encode, List.length_append]
  exact Nat.lt_succ_of_le hle

end Ndsl.Lib.DnsMessage
