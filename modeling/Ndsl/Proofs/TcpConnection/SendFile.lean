import Mathlib.Data.List.Chain
import Ndsl.Proofs.TcpConnection.SendStream

/-!
# `Ndsl.Proofs.TcpConnection.SendFile`: what a file transfer puts on the socket

One transfer: `sendFile`, and then `sendInLoop` as often as you like, each with any result of
`sendfile(2)`. `Correct` is what the transfer is to guarantee, `transmits_iff` says for which
results it does: the first call takes the whole range, or it takes a part and whatever is taken
later comes at the right moment. The kernel has moved the offset when the code moves it again,
and a result of `-1` moves it back by one, so the moment is when there have been as many
results of `-1` as bytes taken. Such a transfer never completes.
-/

set_option autoImplicit false

namespace Ndsl.Proofs.Tcp

open Ndsl.Lib
open Ndsl.Net (S_OK toSize toSize_of_nonneg)
open Ndsl.Net.Tcp

/-! ### A transfer -/

/-- The arguments of `sendFile`. -/
structure Transfer where
  inFd : Int
  offset : Nat
  length : Nat
  cb : Nat
  param : Nat
  deriving Repr, DecidableEq

/-- A connection, before or after the first call. -/
structure Session where
  conn : TcpConnection
  started : Bool := false
  deriving Repr, DecidableEq

/-- The first call of a transfer, or one of those of the loop. -/
def Transfer.step (t : Transfer) (s : Session) (r : IoResult) : Traced Act Session :=
  if s.started then do
    let ret ← sendInLoop r s.conn
    return { conn := ret.2, started := true }
  else do
    let ret ← sendFile t.inFd t.offset t.length (some t.cb) t.param r s.conn
    return { conn := ret.2, started := true }

/-- How many bytes the next call asks for, if it makes a system call. -/
def Transfer.request (t : Transfer) (s : Session) : Option Nat :=
  if s.started then s.conn.qSendfileInfo_.head?.map (·.length_) else some t.length

/-- The results are such as `sendfile` can have. -/
def Transfer.Legal (t : Transfer) : Session → List IoResult → Prop
  | _, [] => True
  | s, r :: rs => (∀ n ∈ t.request s, Possible n r) ∧
      ∀ es s', (t.step s r).Yields es s' → Legal t s' rs

theorem Transfer.legal_cons {t : Transfer} {s s' : Session} {r : IoResult} {rs : List IoResult}
    {es : List Act} (hstep : (t.step s r).Yields es s') :
    t.Legal s (r :: rs) ↔ (∀ n ∈ t.request s, Possible n r) ∧ t.Legal s' rs := by
  refine and_congr_right fun _ => ⟨fun h => h es s' hstep, fun h fs u hstep' => ?_⟩
  obtain ⟨-, rfl⟩ := hstep.unique hstep'
  exact h

/-- A connection without a transfer. -/
def idle (channel : TcpChannel) : Session := { conn := connected channel }

/-! ### What a transfer is to guarantee -/

/-- The bytes that a call took are among the first `size` of the file. -/
def InFile (size : Nat) : Act → Prop
  | .sendfile _ pos _ (.count k) => pos + k ≤ size
  | _ => True

instance (size : Nat) : DecidablePred (InFile size) := fun a => by
  unfold InFile
  split <;> infer_instance

/-- Every byte that was taken is one of the file. -/
def Readable (file : List UInt8) (log : List Act) : Prop := ∀ a ∈ log, InFile file.length a

instance (file : List UInt8) (log : List Act) : Decidable (Readable file log) :=
  inferInstanceAs (Decidable (∀ a ∈ log, InFile file.length a))

/-- The bytes on the socket. -/
def onSocket (file : List UInt8) (log : List Act) : List UInt8 :=
  log.flatMap fun
    | .sendfile _ pos _ (.count k) => (file.drop pos).take k
    | _ => []

/-- How many bytes were taken. -/
def amount (log : List Act) : Nat :=
  (log.map fun
    | .sendfile _ _ _ (.count k) => k
    | _ => 0).sum

/-- A call that failed, and nothing but a callback can follow it. -/
def failed : Act → Bool
  | .sendfile _ _ _ (.fail _) => true
  | _ => false

/-- A call of a user's callback. -/
def isCallback : Act → Bool
  | .callback _ _ => true
  | _ => false

/-- What the transfer is to guarantee at any moment. -/
structure Correct (t : Transfer) (log : List Act) : Prop where
  /-- Whatever is in the file, the bytes on the socket are the front of the range. -/
  bytes : ∀ file : List UInt8, t.offset + t.length ≤ file.length → Readable file log →
    onSocket file log <+: (file.drop t.offset).take t.length
  /-- Once the transfer has begun, the callback has been called once if the whole range was
  taken, and not otherwise. -/
  callback : log ≠ [] →
    callbacks log = if t.length ≤ amount log then [(t.cb, t.param)] else []
  /-- No result of `-1` is taken for completion. -/
  afterFail : log.IsChain fun a b => failed a = true → isCallback b = false

/-- The transfer is correct after every one of its calls. -/
def Transmits (t : Transfer) (channel : TcpChannel) (rs : List IoResult) : Prop :=
  Traced.Always (Correct t) t.step (idle channel) [] rs

/-- The later results of a transfer that has put `acc` bytes on the socket and seen `fails`
results of `-1`: each count comes when these are equal and leaves something to send, and there
are not so many results of `-1` that the length is no longer a `size_t`. -/
def InStep (length : Nat) : Nat → Nat → List IoResult → Prop
  | _, _, [] => True
  | acc, fails, .count n :: rs =>
    fails = acc ∧ acc + n < length ∧ InStep length (acc + n) fails rs
  | acc, fails, .fail _ :: rs =>
    length - acc + fails + 1 < 2 ^ 64 ∧ InStep length acc (fails + 1) rs

/-- The results of a transfer: the first takes the whole range, or the later ones are in
step. -/
def Fits (length : Nat) : List IoResult → Prop
  | [] => True
  | .count k :: rs => k = length ∨ InStep length k 0 rs
  | .fail _ :: _ => False

/-! ### A transfer on its way -/

/-- The queue entry of a transfer that has put `acc` bytes on the socket and seen `fails`
results of `-1`. -/
def Transfer.entry (t : Transfer) (acc fails : Nat) : SendfileInfo :=
  { inFd_ := t.inFd
    offset_ := toSize ((t.offset : Int) + 2 * acc - fails)
    length_ := t.length - acc + fails
    cb_ := some t.cb
    param_ := t.param }

/-- The state of such a transfer. -/
structure Going (t : Transfer) (channel : TcpChannel) (s : Session) (acc fails : Nat)
    (log : List Act) : Prop where
  started : s.started = true
  channel_eq : s.conn.pTcpChannel_ = some channel
  queue : s.conn.qSendfileInfo_ = [t.entry acc fails]
  pos : 0 < acc
  lt : acc < t.length
  size : t.length - acc + fails < 2 ^ 64
  bytes : ∀ file : List UInt8, t.offset + t.length ≤ file.length → Readable file log →
    onSocket file log = (file.drop t.offset).take acc
  amount_eq : amount log = acc
  callbacks_eq : callbacks log = []
  afterFail : log.IsChain fun a b => failed a = true → isCallback b = false

section Going
variable {t : Transfer} {channel : TcpChannel} {s : Session} {acc fails : Nat} {log : List Act}

theorem Going.correct (h : Going t channel s acc fails log) : Correct t log := by
  refine ⟨fun file hlen hread => ?_, ?_, h.afterFail⟩
  · rw [h.bytes file hlen hread]
    exact List.take_prefix_take_left (Nat.le_of_lt h.lt)
  · intro _
    rw [h.callbacks_eq, h.amount_eq, if_neg (Nat.not_le_of_lt h.lt)]

/-- A result of `-1`: the entry's offset goes back by one, and its length up by one. -/
theorem Going.step_fail (h : Going t channel s acc fails log) (errno : Int)
    (hsize : t.length - acc + fails + 1 < 2 ^ 64) :
    (t.step s (.fail errno)).Yields
      [.sendfile t.inFd (t.entry acc fails).offset_ (t.entry acc fails).length_ (.fail errno)]
      { conn := { s.conn with qSendfileInfo_ := [t.entry acc (fails + 1)] }, started := true } := by
  have hn : toSize (IoResult.fail errno).value = 2 ^ 64 - 1 := rfl
  have hoff : ((t.entry acc fails).offset_ + (2 ^ 64 - 1)) % 2 ^ 64
      = (t.entry acc (fails + 1)).offset_ := by
    simp only [Transfer.entry, toSize]
    omega
  have hlen : toSize (((t.entry acc fails).length_ : Int) - (2 ^ 64 - 1 : Nat))
      = (t.entry acc (fails + 1)).length_ := by
    simp only [Transfer.entry, toSize]
    omega
  have hne : (2 ^ 64 - 1 : Nat) ≠ (t.entry acc fails).length_ := by
    simp only [Transfer.entry]
    omega
  simp only [Transfer.step, h.started, if_pos, sendInLoop, h.channel_eq, h.queue, hn,
    sendFile.moved, hoff, hlen, if_neg hne]
  rw [if_neg (by decide), if_neg (by decide)]
  exact ⟨rfl, rfl⟩

/-- At the greatest length, a result of `-1` completes the transfer. -/
theorem Going.step_fail_last (h : Going t channel s acc fails log) (errno : Int)
    (hsize : ¬ t.length - acc + fails + 1 < 2 ^ 64) :
    (t.step s (.fail errno)).Yields
      [.sendfile t.inFd (t.entry acc fails).offset_ (t.entry acc fails).length_ (.fail errno),
        .callback t.cb t.param]
      { conn := { s.conn with qSendfileInfo_ := [] }, started := true } := by
  have hn : toSize (IoResult.fail errno).value = 2 ^ 64 - 1 := rfl
  have heq : (2 ^ 64 - 1 : Nat) = (t.entry acc fails).length_ := by
    have := h.size
    simp only [Transfer.entry]
    omega
  simp only [Transfer.step, h.started, if_pos, sendInLoop, h.channel_eq, h.queue, hn,
    sendFile.moved]
  rw [if_neg (by decide), if_neg (by decide), if_pos heq]
  exact ⟨rfl, rfl⟩

/-- A count that does not complete the transfer: the code moves the offset once more. -/
theorem Going.step_count (h : Going t channel s acc fails log) {n : Nat} (hpos : 0 < n)
    (hn : n < t.length - acc + fails) :
    (t.step s (.count n)).Yields
      [.sendfile t.inFd (t.entry acc fails).offset_ (t.entry acc fails).length_ (.count n)]
      { conn :=
          { s.conn with
            qSendfileInfo_ := [
              { t.entry acc fails with
                offset_ := ((t.entry acc fails).offset_ + n + n) % 2 ^ 64
                length_ := t.length - acc + fails - n }] }
        started := true } := by
  have hsize := h.size
  have hvalue : toSize (IoResult.count n).value = n := by
    show toSize (n : Int) = n
    unfold toSize
    omega
  have hlen : toSize (((t.entry acc fails).length_ : Int) - n) = t.length - acc + fails - n := by
    simp only [Transfer.entry, toSize]
    omega
  have hne : n ≠ (t.entry acc fails).length_ := Nat.ne_of_lt hn
  simp only [Transfer.step, h.started, if_pos, sendInLoop, h.channel_eq, h.queue, hvalue,
    sendFile.moved, hlen, if_neg hne, if_neg (Nat.not_lt_zero n), if_neg (Nat.ne_of_gt hpos)]
  exact ⟨rfl, rfl⟩

/-- A count that completes the transfer. -/
theorem Going.step_count_last (h : Going t channel s acc fails log) {n : Nat} (hpos : 0 < n)
    (hn : n = t.length - acc + fails) :
    (t.step s (.count n)).Yields
      [.sendfile t.inFd (t.entry acc fails).offset_ (t.entry acc fails).length_ (.count n),
        .callback t.cb t.param]
      { conn := { s.conn with qSendfileInfo_ := [] }, started := true } := by
  have hsize := h.size
  have hvalue : toSize (IoResult.count n).value = n := by
    show toSize (n : Int) = n
    unfold toSize
    omega
  have heq : n = (t.entry acc fails).length_ := hn
  simp only [Transfer.step, h.started, if_pos, sendInLoop, h.channel_eq, h.queue, hvalue,
    sendFile.moved, if_pos heq, if_neg (Nat.not_lt_zero n), if_neg (Nat.ne_of_gt hpos)]
  exact ⟨rfl, rfl⟩

end Going

/-! ### Traces of a transfer -/

theorem Readable.of_append {file : List UInt8} {log es : List Act}
    (h : Readable file (log ++ es)) : Readable file log :=
  fun a ha => h a (List.mem_append_left _ ha)

theorem onSocket_append (file : List UInt8) (log es : List Act) :
    onSocket file (log ++ es) = onSocket file log ++ onSocket file es := List.flatMap_append

theorem amount_append (log es : List Act) : amount (log ++ es) = amount log + amount es := by
  simp [amount]

/-- One more call of `sendfile` is no completion. -/
theorem afterFail_snoc {log : List Act} {fd : Int} {pos n : Nat} {r : IoResult}
    (h : log.IsChain fun a b => failed a = true → isCallback b = false) :
    (log ++ [Act.sendfile fd pos n r]).IsChain
      fun a b => failed a = true → isCallback b = false := by
  refine h.append (List.isChain_singleton _) fun a _ b hb _ => ?_
  obtain rfl := Option.some.inj hb
  rfl

section Going
variable {t : Transfer} {channel : TcpChannel} {s : Session} {acc fails : Nat} {log : List Act}

/-- The position of the entry is right exactly when there have been as many results of `-1` as
bytes put on the socket. -/
theorem Going.offset_eq_iff (h : Going t channel s acc fails log)
    (hbound : t.offset + t.length < 2 ^ 63) :
    (t.entry acc fails).offset_ = t.offset + acc ↔ fails = acc := by
  have hlt := h.lt
  have hsize := h.size
  simp only [Transfer.entry, toSize]
  omega

/-- A transfer is still on its way after a result of `-1`. -/
theorem Going.after_fail (h : Going t channel s acc fails log) (errno : Int)
    (hsize : t.length - acc + fails + 1 < 2 ^ 64) :
    Going t channel
      { conn := { s.conn with qSendfileInfo_ := [t.entry acc (fails + 1)] }, started := true }
      acc (fails + 1)
      (log ++ [.sendfile t.inFd (t.entry acc fails).offset_ (t.entry acc fails).length_
        (.fail errno)]) where
  started := rfl
  channel_eq := h.channel_eq
  queue := rfl
  pos := h.pos
  lt := h.lt
  size := by omega
  bytes file hlen hread := by
    rw [onSocket_append, h.bytes file hlen hread.of_append]
    exact List.append_nil _
  amount_eq := by
    rw [amount_append, h.amount_eq]
    rfl
  callbacks_eq := by
    rw [callbacks_append, h.callbacks_eq]
    rfl
  afterFail := afterFail_snoc h.afterFail

/-- A transfer is still on its way after a count that came at the right moment. -/
theorem Going.after_count (h : Going t channel s acc fails log)
    (hbound : t.offset + t.length < 2 ^ 63) {n : Nat} (hfails : fails = acc)
    (hn : acc + n < t.length) :
    Going t channel
      { conn :=
          { s.conn with
            qSendfileInfo_ := [
              { t.entry acc fails with
                offset_ := ((t.entry acc fails).offset_ + n + n) % 2 ^ 64
                length_ := t.length - acc + fails - n }] }
        started := true } (acc + n) fails
      (log ++ [.sendfile t.inFd (t.entry acc fails).offset_ (t.entry acc fails).length_
        (.count n)]) where
  started := rfl
  channel_eq := h.channel_eq
  queue := by
    -- the count is added twice: by `sendfile` itself, and by the code
    have hpos : ((t.entry acc fails).offset_ + n + n) % 2 ^ 64
        = (t.entry (acc + n) fails).offset_ := by
      rw [(h.offset_eq_iff hbound).mpr hfails]
      simp only [Transfer.entry, toSize]
      omega
    have hlen : t.length - acc + fails - n = (t.entry (acc + n) fails).length_ := by
      simp only [Transfer.entry]
      omega
    rw [hpos, hlen]
    rfl
  pos := Nat.lt_of_lt_of_le h.pos (Nat.le_add_right _ _)
  lt := hn
  size := by
    have := h.size
    omega
  bytes file hlen hread := by
    rw [onSocket_append, h.bytes file hlen hread.of_append, (h.offset_eq_iff hbound).mpr hfails]
    show _ ++ ((file.drop (t.offset + acc)).take n ++ []) = _
    rw [List.append_nil, ← List.drop_drop, List.take_add]
  amount_eq := by
    rw [amount_append, h.amount_eq]
    rfl
  callbacks_eq := by
    rw [callbacks_append, h.callbacks_eq]
    rfl
  afterFail := afterFail_snoc h.afterFail

/-- A callback behind a result of `-1` is not correct. -/
theorem not_correct_of_fail {errno : Int} {fd : Int} {pos n cb param : Nat} :
    ¬ Correct t (log ++ [.sendfile fd pos n (.fail errno), .callback cb param]) := by
  intro h
  have hlast := (List.isChain_append.mp h.afterFail).2.1
  rw [List.isChain_cons_cons] at hlast
  exact Bool.noConfusion (hlast.1 rfl)

/-- A large file has every byte that a trace has read. -/
theorem exists_readable (log : List Act) :
    ∃ size, ∀ file : List UInt8, size ≤ file.length → Readable file log := by
  induction log with
  | nil => exact ⟨0, fun _ _ a ha => absurd ha List.not_mem_nil⟩
  | cons b log ih =>
      obtain ⟨size, hsize⟩ := ih
      have hhead : ∃ size', ∀ file : List UInt8, size' ≤ file.length → Readable file [b] := by
        by_cases hb : ∃ fd pos n k, b = .sendfile fd pos n (.count k)
        · obtain ⟨fd, pos, n, k, rfl⟩ := hb
          refine ⟨pos + k, fun file hlen a ha => ?_⟩
          obtain rfl := List.mem_singleton.mp ha
          exact hlen
        · refine ⟨0, fun file _ a ha => ?_⟩
          obtain rfl := List.mem_singleton.mp ha
          unfold InFile
          split
          · exact absurd ⟨_, _, _, _, rfl⟩ hb
          · trivial
      obtain ⟨size', hsize'⟩ := hhead
      refine ⟨max size size', fun file hlen a ha => ?_⟩
      rcases List.mem_cons.mp ha with rfl | ha
      · exact hsize' file (by omega) a (List.mem_singleton.mpr rfl)
      · exact hsize file (by omega) a ha

/-- What one more count puts on the socket. -/
theorem Going.onSocket_count (h : Going t channel s acc fails log) {pos l n : Nat}
    {es : List Act} (hes : ∀ a ∈ es, isCallback a = true) {file : List UInt8}
    (hlen : t.offset + t.length ≤ file.length)
    (hread : Readable file (log ++ .sendfile t.inFd pos l (.count n) :: es)) :
    onSocket file (log ++ .sendfile t.inFd pos l (.count n) :: es)
      = (file.drop t.offset).take acc ++ (file.drop pos).take n := by
  have hnone : onSocket file es = [] := by
    refine List.flatMap_eq_nil_iff.mpr fun a ha => ?_
    have hcb := hes a ha
    cases a <;> first | rfl | exact Bool.noConfusion hcb
  rw [onSocket_append, h.bytes file hlen hread.of_append]
  show _ ++ ((file.drop pos).take n ++ onSocket file es) = _
  rw [hnone, List.append_nil]

/-- A count that comes at the wrong moment is read from the wrong place. -/
theorem Going.not_correct_of_offset (h : Going t channel s acc fails log) {pos l n : Nat}
    (hpos : 0 < n) (hne : pos ≠ t.offset + acc) {es : List Act}
    (hes : ∀ a ∈ es, isCallback a = true) :
    ¬ Correct t (log ++ .sendfile t.inFd pos l (.count n) :: es) := by
  intro hcorrect
  obtain ⟨size, hsize⟩ := exists_readable (log ++ .sendfile t.inFd pos l (.count n) :: es)
  -- a file with a one where the count was read, and zeros elsewhere
  let file : List UInt8 :=
    (List.replicate (size + (t.offset + t.length) + (pos + n)) 0).set pos 1
  have hlength : file.length = size + (t.offset + t.length) + (pos + n) := by
    simp [file]
  have hread := hsize file (by omega)
  have hprefix := hcorrect.bytes file (by omega) hread
  rw [h.onSocket_count hes (by omega) hread] at hprefix
  have hlt := h.lt
  have htake : ((file.drop t.offset).take acc).length = acc := by
    rw [List.length_take, List.length_drop]
    omega
  have hone : ((file.drop t.offset).take acc ++ (file.drop pos).take n)[acc]? = some 1 := by
    rw [List.getElem?_append_right (by omega), htake, Nat.sub_self, List.getElem?_take_of_lt hpos,
      List.getElem?_drop, Nat.add_zero]
    exact List.getElem?_set_self (by simp; omega)
  have hzero : ((file.drop t.offset).take t.length)[acc]? = some 0 := by
    rw [List.getElem?_take_of_lt hlt, List.getElem?_drop, List.getElem?_set_ne hne,
      List.getElem?_replicate, if_pos (by omega)]
  obtain ⟨rest, hrest⟩ := hprefix
  rw [← hrest, List.getElem?_append_left (List.getElem?_eq_some_iff.mp hone).1, hone] at hzero
  exact absurd (Option.some.inj hzero) (by decide)

/-- A count that takes more than the rest puts too much on the socket. -/
theorem Going.not_correct_of_long (h : Going t channel s acc fails log) {pos l n : Nat}
    (hn : t.length < acc + n) {es : List Act} (hes : ∀ a ∈ es, isCallback a = true) :
    ¬ Correct t (log ++ .sendfile t.inFd pos l (.count n) :: es) := by
  intro hcorrect
  obtain ⟨size, hsize⟩ := exists_readable (log ++ .sendfile t.inFd pos l (.count n) :: es)
  let file : List UInt8 := List.replicate (size + (t.offset + t.length) + (pos + n)) 0
  have hlength : file.length = size + (t.offset + t.length) + (pos + n) := by
    simp [file]
  have hread := hsize file (by omega)
  have hle := (hcorrect.bytes file (by omega) hread).length_le
  rw [h.onSocket_count hes (by omega) hread] at hle
  have hlt := h.lt
  simp only [List.length_append, List.length_take, List.length_drop] at hle
  omega

/-- A transfer whose last byte is taken without a callback is not correct. -/
theorem Going.not_correct_of_all (h : Going t channel s acc fails log) {pos l n : Nat}
    (hn : t.length = acc + n) :
    ¬ Correct t (log ++ [.sendfile t.inFd pos l (.count n)]) := by
  intro hcorrect
  have hcall := hcorrect.callback (by simp)
  rw [callbacks_append, h.callbacks_eq, amount_append, h.amount_eq] at hcall
  have hamount : amount [Act.sendfile t.inFd pos l (.count n)] = n := rfl
  rw [hamount, if_pos (Nat.le_of_eq hn)] at hcall
  exact absurd hcall (List.cons_ne_nil _ _).symm

/-! ### All the results -/

/-- A transfer on its way stays correct exactly when the later results are in step. -/
theorem Going.always_iff (hbound : t.offset + t.length < 2 ^ 63) {rs : List IoResult} :
    ∀ {s : Session} {acc fails : Nat} {log : List Act}, Going t channel s acc fails log →
      t.Legal s rs →
      (Traced.Always (Correct t) t.step s log rs ↔ InStep t.length acc fails rs) := by
  induction rs with
  | nil =>
      intro s acc fails log h _
      rw [Traced.always_nil]
      exact iff_of_true h.correct trivial
  | cons r rs ih =>
      intro s acc fails log h hlegal
      cases r with
      | fail errno =>
          -- a failure adds one to the length, which is still right unless it overflows
          by_cases hsize : t.length - acc + fails + 1 < 2 ^ 64
          · have hstep := h.step_fail errno hsize
            rw [Traced.always_cons hstep, InStep,
              ih (h.after_fail errno hsize) (hlegal.2 _ _ hstep)]
            exact ⟨fun hall => ⟨hsize, hall.2⟩, fun hall => ⟨h.correct, hall.2⟩⟩
          · have hstep := h.step_fail_last errno hsize
            rw [Traced.always_cons hstep, InStep]
            exact iff_of_false (fun hall => not_correct_of_fail hall.2.now)
              fun hall => hsize hall.1
      | count n =>
          have hlt := h.lt
          have hpossible := hlegal.1 (t.length - acc + fails) (by
            rw [Transfer.request, if_pos h.started, h.queue]
            rfl)
          -- the file has bytes from the offset on, so `sendfile` sends some
          have hpos : 0 < n := hpossible.2.resolve_left (by omega)
          rcases Nat.lt_or_eq_of_le hpossible.1 with hn | hn
          · have hstep := h.step_count hpos hn
            rw [Traced.always_cons hstep, InStep]
            -- the offset is right when there were as many failures as bytes
            by_cases hfails : fails = acc
            · -- what is sent ends before the end of the range, at it, or behind it
              rcases Nat.lt_trichotomy (acc + n) t.length with hfit | hall | hlong
              · rw [ih (h.after_count hbound hfails hfit) (hlegal.2 _ _ hstep)]
                exact ⟨fun hall => ⟨hfails, hfit, hall.2⟩, fun hall => ⟨h.correct, hall.2.2⟩⟩
              · exact iff_of_false (fun h' => h.not_correct_of_all hall.symm h'.2.now)
                  fun h' => by omega
              · exact iff_of_false
                  (fun h' => h.not_correct_of_long hlong (by simp) h'.2.now) fun h' => by omega
            · have hoff := mt (h.offset_eq_iff hbound).mp hfails
              exact iff_of_false (fun h' => h.not_correct_of_offset hpos hoff (by simp) h'.2.now)
                fun h' => hfails h'.1
          · have hstep := h.step_count_last hpos hn
            -- the entry is done, and its callback follows
            have hes : ∀ a ∈ [Act.callback t.cb t.param], isCallback a = true := by
              simp [isCallback]
            have haccPos := h.pos
            rw [Traced.always_cons hstep, InStep]
            by_cases hfails : fails = acc
            · exact iff_of_false
                (fun h' => h.not_correct_of_long (by omega) hes h'.2.now) fun h' => by omega
            · have hoff := mt (h.offset_eq_iff hbound).mp hfails
              exact iff_of_false (fun h' => h.not_correct_of_offset hpos hoff hes h'.2.now)
                fun h' => hfails h'.1

end Going

/-- With nothing queued, the calls of the loop do nothing. -/
theorem always_of_done {t : Transfer} {s : Session} {log : List Act} (hstarted : s.started = true)
    (hqueue : s.conn.qSendfileInfo_ = []) (hcorrect : Correct t log) (rs : List IoResult) :
    Traced.Always (Correct t) t.step s log rs := by
  induction rs with
  | nil => exact Traced.always_nil.mpr hcorrect
  | cons r rs ih =>
      have hstep : (t.step s r).Yields [] s := by
        have hret : sendInLoop r s.conn = pure (S_OK, s.conn) := by
          unfold sendInLoop
          rw [hqueue]
        simp only [Transfer.step, hstarted, if_pos, hret, Traced.pure_bind]
        rw [← hstarted]
        exact ⟨rfl, rfl⟩
      rw [Traced.always_cons hstep, List.append_nil]
      exact ⟨hcorrect, ih⟩

section First
variable {t : Transfer} {channel : TcpChannel}

/-- The value of a count as a `size_t`. -/
theorem toSize_count {k : Nat} (hk : k < 2 ^ 64) : toSize (IoResult.count k).value = k := by
  show toSize (k : Int) = k
  unfold toSize
  omega

/-- A first call that takes a part of the range. -/
theorem first_step_part (hbound : t.offset + t.length < 2 ^ 63) {k : Nat} (hk : k < t.length) :
    (t.step (idle channel) (.count k)).Yields [.sendfile t.inFd t.offset t.length (.count k)]
      { conn := { connected channel with qSendfileInfo_ := [t.entry k 0] }, started := true } := by
  have hoff : (t.offset + k + k) % 2 ^ 64 = (t.entry k 0).offset_ := by
    simp only [Transfer.entry, toSize]
    omega
  simp only [Transfer.step, idle, connected, sendFile, toSize_count (show k < 2 ^ 64 by omega),
    sendFile.moved, if_neg (Nat.not_lt_zero k), if_pos hk, hoff]
  exact ⟨rfl, rfl⟩

/-- A first call that takes the whole range. -/
theorem first_step_all (hbound : t.offset + t.length < 2 ^ 63) :
    (t.step (idle channel) (.count t.length)).Yields
      [.sendfile t.inFd t.offset t.length (.count t.length), .callback t.cb t.param]
      { conn := connected channel, started := true } := by
  simp only [Transfer.step, idle, connected, sendFile,
    toSize_count (show t.length < 2 ^ 64 by omega), if_neg (Nat.not_lt_zero t.length),
    if_neg (Nat.lt_irrefl t.length)]
  exact ⟨rfl, rfl⟩

/-- A first call that fails is taken for completion. -/
theorem first_step_fail (hbound : t.offset + t.length < 2 ^ 63) (errno : Int) :
    (t.step (idle channel) (.fail errno)).Yields
      [.sendfile t.inFd t.offset t.length (.fail errno), .callback t.cb t.param]
      { conn := connected channel, started := true } := by
  have hn : toSize (IoResult.fail errno).value = 2 ^ 64 - 1 := rfl
  have hlt : ¬ (2 ^ 64 - 1 < t.length) := by omega
  simp only [Transfer.step, idle, connected, sendFile, hn, if_neg hlt]
  rw [if_neg (by decide), if_neg (by decide)]
  exact ⟨rfl, rfl⟩

/-- After a first call that took a part of the range the transfer is on its way. -/
theorem going_of_first (hbound : t.offset + t.length < 2 ^ 63) {k : Nat} (hpos : 0 < k)
    (hk : k < t.length) :
    Going t channel
      { conn := { connected channel with qSendfileInfo_ := [t.entry k 0] }, started := true } k 0
      [.sendfile t.inFd t.offset t.length (.count k)] where
  started := rfl
  channel_eq := rfl
  queue := rfl
  pos := hpos
  lt := hk
  size := by omega
  bytes file _ _ := List.append_nil _
  amount_eq := rfl
  callbacks_eq := rfl
  afterFail := List.isChain_singleton _

/-- A transfer whose first call took the whole range is correct. -/
theorem correct_of_all :
    Correct t [.sendfile t.inFd t.offset t.length (.count t.length), .callback t.cb t.param] := by
  refine ⟨fun file _ _ => ?_, fun _ => ?_, ?_⟩
  · exact ⟨[], (List.append_nil _).trans (List.append_nil _)⟩
  · have hamount : amount [Act.sendfile t.inFd t.offset t.length (.count t.length),
        .callback t.cb t.param] = t.length := rfl
    exact (if_pos (Nat.le_of_eq hamount.symm)).symm
  · rw [List.isChain_cons_cons]
    exact ⟨fun h => Bool.noConfusion h, List.isChain_singleton _⟩

/-- Nothing is wrong with a transfer that has not begun. -/
theorem correct_nil : Correct t [] :=
  ⟨fun _ _ _ => List.nil_prefix, fun h => absurd rfl h, .nil⟩

/-- A transfer is correct after each of its calls exactly when its results fit. -/
theorem transmits_iff {rs : List IoResult} (hbound : t.offset + t.length < 2 ^ 63)
    (hlegal : t.Legal (idle channel) rs) : Transmits t channel rs ↔ Fits t.length rs := by
  unfold Transmits
  cases rs with
  | nil => exact iff_of_true (Traced.always_nil.mpr correct_nil) trivial
  | cons r rs =>
      cases r with
      | fail errno =>
          rw [Traced.always_cons (first_step_fail hbound errno)]
          exact iff_of_false (fun h => not_correct_of_fail h.2.now) id
      | count k =>
          have hpossible := hlegal.1 t.length rfl
          rcases Nat.lt_or_eq_of_le hpossible.1 with hk | rfl
          · have hpos : 0 < k := hpossible.2.resolve_left (by omega)
            have hstep := @first_step_part t channel hbound k hk
            rw [Traced.always_cons hstep, List.nil_append,
              (going_of_first hbound hpos hk).always_iff hbound (hlegal.2 _ _ hstep)]
            exact ⟨fun h => .inr h.2, fun h => ⟨correct_nil, h.resolve_left (Nat.ne_of_lt hk)⟩⟩
          · rw [Traced.always_cons (first_step_all hbound), List.nil_append]
            exact iff_of_true ⟨correct_nil, always_of_done rfl rfl correct_of_all rs⟩ (.inl rfl)

end First

/-- Five bytes from the front of a file. -/
def fiveBytes : Transfer := { inFd := 3, offset := 0, length := 5, cb := 9, param := 1 }

/-- Two bytes, two results of `-1`, and two more bytes, which come from the right place. -/
theorem transmits_iff_five :
    Transmits fiveBytes plainChannel [.count 2, .again, .again, .count 2] := by
  have hlegal : fiveBytes.Legal (idle plainChannel) [.count 2, .again, .again, .count 2] := by
    refine (Transfer.legal_cons ⟨rfl, rfl⟩).mpr ⟨by decide, ?_⟩
    refine (Transfer.legal_cons ⟨rfl, rfl⟩).mpr ⟨by decide, ?_⟩
    refine (Transfer.legal_cons ⟨rfl, rfl⟩).mpr ⟨by decide, ?_⟩
    exact (Transfer.legal_cons ⟨rfl, rfl⟩).mpr ⟨by decide, trivial⟩
  refine (transmits_iff (by decide) hlegal).mpr (.inr ?_)
  exact ⟨by decide, by decide, rfl, by decide, trivial⟩

/-- Two bytes and three more, which come from the fifth byte on. -/
theorem five_not_transmitted :
    fiveBytes.Legal (idle plainChannel) [.count 2, .count 3] ∧
    ¬ Transmits fiveBytes plainChannel [.count 2, .count 3] := by
  refine ⟨?_, fun h => ?_⟩
  · refine (Transfer.legal_cons ⟨rfl, rfl⟩).mpr ⟨by decide, ?_⟩
    exact (Transfer.legal_cons ⟨rfl, rfl⟩).mpr ⟨by decide, trivial⟩
  · have hend := h [.count 2, .count 3] _ _ (List.prefix_refl _) ⟨rfl, rfl⟩
    have hbytes := hend.bytes [0, 1, 2, 3, 4, 5, 6, 7, 8, 9] (by decide) (by decide)
    exact absurd hbytes (by decide)

end Ndsl.Proofs.Tcp
