import Ndsl.Net.TcpConnection

/-!
# `Ndsl.Proofs.TcpConnection.Progress`: a stream of messages, of which the last may be unfinished

`SendStream` is what a sender of messages is to guarantee in every state of every run: the kernel
has accepted a prefix of the buffers in the order of their calls, it was never offered a byte
outside of them, and exactly the messages that it has accepted as a whole have had their callback
called, in order.

`Progress` says how far a stream has come, without a word about the class that feeds it: all
messages have been accepted as a whole, or all but the last one, of which the first bytes were. Its
rules are the ways in which a stream goes on: a message is accepted at once (`whole`) or begun
(`begin`), the unfinished one goes on (`more`) or comes to its end (`finish`), or nothing is
accepted (`quiet`).

The classes of this library that send messages differ in what they queue and in what they make of
the result of `send`. Each is to show that its steps are steps of `Progress`.
-/

set_option autoImplicit false

namespace Ndsl.Proofs.Tcp

open Ndsl.Lib
open Ndsl.Net.Tcp

/-! ### The stream -/

/-- `k` bytes of memory from position `pos` of a buffer on; outside of it there is no telling
what they are. -/
def taken (buf : List UInt8) (pos k : Nat) : List (Option UInt8) :=
  (List.range k).map fun i => buf[(pos + i) % 2 ^ 64]?

/-- The bytes the kernel has accepted. -/
def accepted (log : List Act) : List (Option UInt8) :=
  log.flatMap fun
    | .send buf pos _ _ (.count k) => taken buf pos k
    | _ => []

/-- The callbacks that were called. -/
def callbacks (log : List Act) : List (Nat × Nat) :=
  log.filterMap fun
    | .callback cb param => some (cb, param)
    | _ => none

/-- What a message is to call. -/
def callbackOf (m : Message) : Option (Nat × Nat) := m.cb.map fun cb => (cb, m.param)

/-- A `send` is offered bytes of the buffer only. -/
def InBuffer : Act → Prop
  | .send buf pos n _ _ => ∀ i < n, (pos + i) % 2 ^ 64 < buf.length
  | _ => True

/-- The bytes of messages. -/
def bytes (ms : List Message) : List UInt8 := ms.flatMap (·.buf)

/-- The messages whose last byte is among the first `n` bytes of the stream. -/
def done : List Message → Nat → List Message
  | [], _ => []
  | m :: ms, n => if m.buf.length ≤ n then m :: done ms (n - m.buf.length) else []

/-- What the send side is to guarantee. -/
structure SendStream (ms : List Message) (log : List Act) : Prop where
  prefix_bytes : accepted log <+: (bytes ms).map some
  inBuffer : ∀ a ∈ log, InBuffer a
  callbacks_eq : callbacks log = (done ms (accepted log).length).filterMap callbackOf

@[simp] theorem bytes_append (ms ns : List Message) : bytes (ms ++ ns) = bytes ms ++ bytes ns :=
  List.flatMap_append

@[simp] theorem bytes_singleton (m : Message) : bytes [m] = m.buf := by
  simp [bytes]

@[simp] theorem accepted_append (log es : List Act) :
    accepted (log ++ es) = accepted log ++ accepted es := List.flatMap_append

@[simp] theorem callbacks_append (log es : List Act) :
    callbacks (log ++ es) = callbacks log ++ callbacks es := List.filterMap_append

@[simp] theorem accepted_nil : accepted [] = [] := rfl

@[simp] theorem callbacks_nil : callbacks [] = [] := rfl

@[simp] theorem accepted_send (buf : List UInt8) (pos n flags k : Nat) (es : List Act) :
    accepted (.send buf pos n flags (.count k) :: es) = taken buf pos k ++ accepted es :=
  List.flatMap_cons ..

@[simp] theorem callbacks_send (buf : List UInt8) (pos n flags : Nat) (r : IoResult)
    (es : List Act) : callbacks (.send buf pos n flags r :: es) = callbacks es := rfl

@[simp] theorem length_taken (buf : List UInt8) (pos k : Nat) : (taken buf pos k).length = k := by
  simp [taken]

/-- Bytes inside the buffer are known. -/
theorem taken_of_le {buf : List UInt8} {pos k : Nat} (hle : pos + k ≤ buf.length)
    (hsize : buf.length < 2 ^ 64) : taken buf pos k = ((buf.drop pos).take k).map some := by
  refine List.ext_getElem (by simp; omega) ?_
  intro i h₁ h₂
  have hi : i < k := by simpa using h₁
  simp only [taken, List.getElem_map, List.getElem_range, List.getElem_take, List.getElem_drop]
  rw [Nat.mod_eq_of_lt (by omega), List.getElem?_eq_getElem]

/-- Messages that were accepted as a whole are done. -/
theorem done_append (ms : List Message) (m : Message) {k : Nat} (hk : k < m.buf.length) :
    done (ms ++ [m]) ((bytes ms).length + k) = ms := by
  induction ms with
  | nil => simp [done, bytes, hk]
  | cons m' ms ih =>
      have hlen : (bytes (m' :: ms)).length = m'.buf.length + (bytes ms).length := by
        simp [bytes]
      rw [List.cons_append, done, if_pos (by omega),
        show (bytes (m' :: ms)).length + k - m'.buf.length = (bytes ms).length + k by omega, ih]

theorem done_all (ms : List Message) : done ms (bytes ms).length = ms := by
  induction ms with
  | nil => rfl
  | cons m ms ih =>
      have hlen : (bytes (m :: ms)).length = m.buf.length + (bytes ms).length := by
        simp [bytes]
      rw [done, if_pos (by omega),
        show (bytes (m :: ms)).length - m.buf.length = (bytes ms).length by omega, ih]

/-- The trace of a message's callback. -/
def callbackActs (m : Message) : List Act := (m.cb.map fun cb => Act.callback cb m.param).toList

@[simp] theorem callbacks_callbackActs (m : Message) :
    callbacks (callbackActs m) = [m].filterMap callbackOf := by
  cases hcb : m.cb with
  | none => simp [callbackActs, callbackOf, callbacks, hcb]
  | some cb => simp [callbackActs, callbackOf, callbacks, hcb]

@[simp] theorem accepted_callbackActs (m : Message) : accepted (callbackActs m) = [] := by
  cases hcb : m.cb with
  | none => simp [callbackActs, accepted, hcb]
  | some cb => simp [callbackActs, accepted, hcb]

theorem inBuffer_callbackActs {m : Message} {a : Act} (ha : a ∈ callbackActs m) :
    InBuffer a := by
  cases hcb : m.cb with
  | none => simp [callbackActs, hcb] at ha
  | some cb =>
      obtain rfl : a = .callback cb m.param := by simpa [callbackActs, hcb] using ha
      trivial

/-- An offer inside the buffer. -/
theorem inBuffer_send {buf : List UInt8} {pos n flags : Nat} {r : IoResult}
    (hle : pos + n ≤ buf.length) (hsize : buf.length < 2 ^ 64) :
    InBuffer (.send buf pos n flags r) := by
  intro i hi
  rw [Nat.mod_eq_of_lt (by omega)]
  omega

/-- Offers stay inside their buffers when one more does. -/
theorem forall_inBuffer {log es : List Act} {a : Act} (hin : ∀ b ∈ log, InBuffer b)
    (ha : InBuffer a) (hes : ∀ b ∈ es, InBuffer b) : ∀ b ∈ log ++ a :: es, InBuffer b := by
  intro b hb
  rcases List.mem_append.mp hb with hb | hb
  · exact hin b hb
  · rcases List.mem_cons.mp hb with rfl | hb
    · exact ha
    · exact hes b hb

/-! ### How far a stream has come -/

/-- How far the stream of these messages has come: all are done, or all but the last one, of which
`k` bytes have been accepted. -/
inductive Reached (ms : List Message) (log : List Act) : Option (Message × Nat) → Prop
  | all (hbytes : accepted log = (bytes ms).map some)
      (hcalls : callbacks log = ms.filterMap callbackOf) : Reached ms log none
  | upTo (sent : List Message) (m : Message) (k : Nat) (hms : ms = sent ++ [m])
      (hk : k < m.buf.length) (hsize : m.buf.length < 2 ^ 64)
      (hbytes : accepted log = (bytes sent ++ m.buf.take k).map some)
      (hcalls : callbacks log = sent.filterMap callbackOf) : Reached ms log (some (m, k))

/-- The same, and no byte outside of a message was offered on the way. -/
structure Progress (ms : List Message) (log : List Act) (unfinished : Option (Message × Nat)) :
    Prop where
  reached : Reached ms log unfinished
  inBuffer : ∀ a ∈ log, InBuffer a

namespace Progress

variable {ms : List Message} {log es : List Act} {unfinished : Option (Message × Nat)}
  {m : Message} {k j flags : Nat}

/-- A stream that comes on like this keeps the guarantee. -/
theorem sendStream (h : Progress ms log unfinished) : SendStream ms log := by
  obtain ⟨hreached, hin⟩ := h
  cases hreached with
  | all hbytes hcalls =>
      refine ⟨hbytes ▸ List.prefix_refl _, hin, ?_⟩
      rw [hcalls, hbytes, List.length_map, done_all]
  | upTo sent m k hms hk hsize hbytes hcalls =>
      subst hms
      refine ⟨?_, hin, ?_⟩
      · rw [hbytes, bytes_append, bytes_singleton]
        exact ((List.prefix_append_right_inj _).mpr (List.take_prefix _ _)).map _
      · have hlength : (accepted log).length = (bytes sent).length + k := by
          rw [hbytes, List.length_map, List.length_append, List.length_take,
            Nat.min_eq_left (Nat.le_of_lt hk)]
        rw [hcalls, hlength, done_append sent m hk]

/-- Nothing has happened yet. -/
theorem nil : Progress [] [] none := ⟨.all rfl rfl, fun _ ha => absurd ha List.not_mem_nil⟩

/-- Nothing is accepted and nobody is called. -/
theorem quiet (h : Progress ms log unfinished) (hbytes : accepted es = [])
    (hcalls : callbacks es = []) (hes : ∀ a ∈ es, InBuffer a) :
    Progress ms (log ++ es) unfinished := by
  have hsame : accepted (log ++ es) = accepted log ∧ callbacks (log ++ es) = callbacks log := by
    rw [accepted_append, callbacks_append, hbytes, hcalls, List.append_nil, List.append_nil]
    exact ⟨rfl, rfl⟩
  refine ⟨?_, List.forall_mem_append.mpr ⟨h.inBuffer, hes⟩⟩
  cases h.reached with
  | all hall hdone => exact .all (hsame.1.trans hall) (hsame.2.trans hdone)
  | upTo sent m k hms hk hsize hall hdone =>
      exact .upTo sent m k hms hk hsize (hsame.1.trans hall) (hsame.2.trans hdone)

/-- A message whose bytes are accepted at once. -/
theorem whole (h : Progress ms log none) (hsize : m.buf.length < 2 ^ 64) :
    Progress (ms ++ [m]) (log ++ .send m.buf 0 m.buf.length flags (.count m.buf.length) ::
      callbackActs m) none := by
  cases h.reached with
  | all hbytes hcalls =>
      have hbound : 0 + m.buf.length ≤ m.buf.length := by omega
      have htaken := taken_of_le hbound hsize
      rw [List.drop_zero, List.take_length] at htaken
      refine ⟨.all ?_ ?_, ?_⟩
      · simp [hbytes, htaken]
      · simp [hcalls]
      · exact forall_inBuffer h.inBuffer (inBuffer_send (by omega) hsize)
          fun _ => inBuffer_callbackActs

/-- A message of which `k` bytes are accepted at once. -/
theorem begin (h : Progress ms log none) (hsize : m.buf.length < 2 ^ 64)
    (hk : k < m.buf.length) :
    Progress (ms ++ [m]) (log ++ [.send m.buf 0 m.buf.length flags (.count k)])
      (some (m, k)) := by
  cases h.reached with
  | all hbytes hcalls =>
      have hbound : 0 + k ≤ m.buf.length := by omega
      have htaken := taken_of_le hbound hsize
      rw [List.drop_zero] at htaken
      refine ⟨.upTo ms m k rfl hk hsize ?_ ?_, ?_⟩
      · simp [hbytes, htaken]
      · simp [hcalls]
      · exact forall_inBuffer h.inBuffer (inBuffer_send (by omega) hsize) (by simp)

/-- More bytes of the unfinished message, but not the last one. -/
theorem more (h : Progress ms log (some (m, k))) (hj : k + j < m.buf.length) :
    Progress ms (log ++ [.send m.buf k (m.buf.length - k) flags (.count j)])
      (some (m, k + j)) := by
  cases h.reached with
  | upTo sent m k hms hk hsize hbytes hcalls =>
      have htaken := taken_of_le (Nat.le_of_lt hj) hsize
      have htake : m.buf.take k ++ (m.buf.drop k).take j = m.buf.take (k + j) :=
        List.take_add.symm
      refine ⟨.upTo sent m (k + j) hms hj hsize ?_ ?_, ?_⟩
      · rw [accepted_append, hbytes, accepted_send, htaken, accepted_nil, List.append_nil,
          ← List.map_append, List.append_assoc, htake]
      · simp [hcalls]
      · exact forall_inBuffer h.inBuffer (inBuffer_send (by omega) hsize) (by simp)

/-- The rest of the unfinished message. -/
theorem finish (h : Progress ms log (some (m, k))) (hj : k + j = m.buf.length) :
    Progress ms (log ++ .send m.buf k (m.buf.length - k) flags (.count j) :: callbackActs m)
      none := by
  cases h.reached with
  | upTo sent m k hms hk hsize hbytes hcalls =>
      have htaken := taken_of_le (Nat.le_of_eq hj) hsize
      have htake : m.buf.take k ++ (m.buf.drop k).take j = m.buf := by
        rw [← List.take_add, hj, List.take_length]
      refine ⟨.all ?_ ?_, ?_⟩
      · rw [accepted_append, hbytes, accepted_send, htaken, accepted_callbackActs,
          List.append_nil, ← List.map_append, List.append_assoc, htake, hms, bytes_append,
          bytes_singleton]
      · simp [hms, hcalls]
      · exact forall_inBuffer h.inBuffer (inBuffer_send (by omega) hsize)
          fun _ => inBuffer_callbackActs

end Progress

end Ndsl.Proofs.Tcp
