import Ndsl.Utils.Log

/-!
# `Ndsl.Proofs.Log.Records`: how a record of the log is put together

`ndsl_log_into_sink` has a buffer of 4096 bytes and lets `vsnprintf` write up to its byte 512. The
head of the line is written without a limit, and the newline is put where `vsnprintf` says that the
message ends, also where it has stored less. And a file name without a slash is read through
`NULL + 1`.

`assembled_iff_fits` says that the record is right exactly when the file name has a slash, the head
leaves room below 512, and a message that goes to the file has room there too.
-/

set_option autoImplicit false

namespace Ndsl.Proofs.Log

open Ndsl.Lib Ndsl.Lib.Numerals
open Ndsl.Net (toSize)
open Ndsl.Utils Ndsl.Utils.Log

/-! ### Statements -/

/-- The line before the message: the time in brackets, and what `sprintf` prints. -/
def lineHead (process : Process) (args : Arguments) (ptr : List UInt8) : List UInt8 :=
  0x5B :: (stampText process ++ 0x5D :: headText process args (ptr.drop 1))

/-- The record is put together as it should. -/
structure Assembled (process : Process) (args : Arguments) (x : Traced Event Unit) : Prop where
  returns : ∃ es, x.Yields es ()
  writes : ∀ pos bytes, .write pos bytes ∈ x.log → pos + bytes.length ≤ bufferSize
  size : ∀ pos size, .vsnprintf pos size ∈ x.log → 0 < size ∧ pos + size ≤ bufferSize
  /-- The range that is logged is the head, what was stored of the message, and a newline. -/
  logged : ∀ data size, .log data size ∈ x.log → size ≤ bufferSize ∧
    ∃ ptr pos room, strrchr 0x2F args.file_name = some ptr ∧ .vsnprintf pos room ∈ x.log ∧
      data.take size = lineHead process args ptr ++ args.message.take (room - 1) ++ [0x0A]

/-- The file name has a slash, the head leaves room for the message, and the message has room if it
is written into the file. -/
def Fits (sinks : Sinks) (process : Process) (args : Arguments) : Prop :=
  args.source &&& sinks._sinks ≠ 0 → ∃ ptr, strrchr 0x2F args.file_name = some ptr ∧
    (lineHead process args ptr).length < 512 ∧
    (sinks.tag = 1 → 0 ≤ reported args →
      (lineHead process args ptr).length + args.message.length < 512)

/-! ### The buffer -/

section Buffer
variable {buffer buffer' content bytes tail : List UInt8} {pos : Nat} {es : List Event}

/-- The buffer begins with these bytes. -/
structure Holds (buffer content : List UInt8) : Prop where
  length : buffer.length = bufferSize
  take : buffer.take content.length = content

theorem Holds.length_le (h : Holds buffer content) : content.length ≤ bufferSize := by
  have hlength := congrArg List.length h.take
  rw [List.length_take, h.length] at hlength
  omega

/-- A part of what it begins with. -/
theorem Holds.front (h : Holds buffer (content ++ tail)) : Holds buffer content := by
  refine ⟨h.length, ?_⟩
  have htake := congrArg (List.take content.length) h.take
  rwa [List.take_take, List.length_append, Nat.min_eq_left (Nat.le_add_right _ _),
    List.take_left] at htake

/-- What is written behind it. -/
theorem Holds.overwrite (h : Holds buffer content)
    (hfit : content.length + bytes.length ≤ bufferSize) :
    Holds (overwrite buffer content.length bytes) (content ++ bytes) := by
  have hlength : (Lib.overwrite buffer content.length bytes).length = bufferSize := by
    rw [length_overwrite (by rw [h.length]; exact hfit), h.length]
  refine ⟨hlength, ?_⟩
  have hfront : (content ++ bytes).length ≤ (content ++ bytes).length := Nat.le_refl _
  rw [Lib.overwrite, h.take, List.take_append_of_le_length hfront, List.take_length]

/-- `strlen` of a string that it begins with. -/
theorem Holds.cstrlen (h : Holds buffer (content ++ [0])) (hzero : 0 ∉ content) :
    cstrlen buffer = content.length := by
  have hbuffer := List.take_append_drop (content ++ [0]).length buffer
  rw [h.take, List.append_assoc] at hbuffer
  rw [← hbuffer, cstrlen_append hzero]
  rfl

theorem store_yields : (store buffer pos bytes).Yields es buffer' ↔
    pos + bytes.length ≤ bufferSize ∧ es = [.write pos bytes] ∧
      buffer' = overwrite buffer pos bytes := by
  unfold store
  rw [Traced.tell_bind_yields]
  split
  next hfit =>
    constructor
    · intro ⟨gs, hpure, hes⟩
      obtain ⟨rfl, rfl⟩ := (Traced.pure_yields ..).mp hpure
      exact ⟨hfit, hes, rfl⟩
    · intro ⟨_, hes, heq⟩
      exact ⟨[], (Traced.pure_yields ..).mpr ⟨rfl, heq.symm⟩, hes⟩
  next hfit =>
    constructor
    · intro ⟨gs, hfault, _⟩
      exact absurd hfault (Traced.fault_yields _ _)
    · intro ⟨h, _⟩
      exact absurd h hfit

/-- A write behind what the buffer begins with. -/
theorem Holds.store (h : Holds buffer content) (hpos : pos = content.length) (bytes : List UInt8)
    (hfit : pos + bytes.length ≤ bufferSize) :
    ∃ buffer', (store buffer pos bytes).Yields [.write pos bytes] buffer' ∧
      Holds buffer' (content ++ bytes) := by
  subst hpos
  exact ⟨_, store_yields.mpr ⟨hfit, rfl, rfl⟩, h.overwrite hfit⟩

end Buffer

/-! ### The head of the line -/

section Head
variable {process : Process} {args : Arguments} {ptr buffer : List UInt8} {ret1 ret2 : Nat}
  {es : List Event}

/-- The time is a string. -/
theorem zero_not_mem_stampText (process : Process) : 0 ∉ stampText process := by
  have hformat : ∀ tm ms, 0 ∉ TimeStamp.format tm ms := by
    intro tm ms
    simp [TimeStamp.format, zero_not_mem_zeroPadded, zero_not_mem_spacePadded]
  exact fun hmem => hformat _ _ (List.mem_of_mem_take hmem)

/-- The events are writes into the buffer. -/
def Inside (es : List Event) : Prop :=
  ∀ e ∈ es, ∃ pos bytes, e = .write pos bytes ∧ pos + bytes.length ≤ bufferSize

theorem length_lineHead (process : Process) (args : Arguments) (ptr : List UInt8) :
    (lineHead process args ptr).length =
      (stampText process).length + 1 + (headText process args (ptr.drop 1)).length + 1 := by
  simp only [lineHead, List.length_cons, List.length_append]
  omega

/-- The name of the function is a part of the head. -/
theorem length_func_name_le (process : Process) (args : Arguments) (ptr : List UInt8) :
    args.func_name.length ≤ (headText process args ptr).length := by
  unfold headText
  simp only [List.length_append]
  omega

/-- The head is written, where it has room in the buffer. -/
theorem assemble_yields (hptr : strrchr 0x2F args.file_name = some ptr)
    (hfit : (lineHead process args ptr).length < bufferSize) :
    ∃ es buffer, (assemble process args).Yields es (buffer, (stampText process).length + 1,
        (headText process args (ptr.drop 1)).length) ∧
      Holds buffer (lineHead process args ptr) ∧ Inside es := by
  have hlength := length_lineHead process args ptr
  generalize htext : headText process args (ptr.drop 1) = text at hlength
  have hempty : Holds (List.replicate bufferSize 0) [] := ⟨List.length_replicate, rfl⟩
  -- `[`, the time, `]` and the text of `sprintf`, one behind the other
  obtain ⟨b₁, hb₁, hholds₁⟩ := hempty.store (show 0 = _ from rfl) [0x5B] (by decide)
  have hfit₂ : 1 + (stampText process ++ [0]).length ≤ bufferSize := by
    rw [List.length_append, List.length_singleton]
    omega
  obtain ⟨b₂, hb₂, hholds₂⟩ := hholds₁.store (show 1 = _ from rfl) _ hfit₂
  rw [← List.append_assoc] at hholds₂
  have hret1 : cstrlen b₂ = (stampText process).length + 1 :=
    hholds₂.cstrlen (by simp [zero_not_mem_stampText process])
  have hfit₃ : (stampText process).length + 1 + [(0x5D : UInt8)].length ≤ bufferSize := by
    rw [List.length_singleton]
    omega
  obtain ⟨b₃, hb₃, hholds₃⟩ := hholds₂.front.store rfl _ hfit₃
  have hfit₄ : (stampText process).length + 1 + 1 + (text ++ [0]).length ≤ bufferSize := by
    rw [List.length_append, List.length_singleton]
    omega
  obtain ⟨b₄, hb₄, hholds₄⟩ := hholds₃.store (by simp) _ hfit₄
  rw [← List.append_assoc] at hholds₄
  have hline : [] ++ [0x5B] ++ stampText process ++ [0x5D] ++ text = lineHead process args ptr := by
    rw [lineHead, htext]
    simp
  have hyields : (assemble process args).Yields ([.write 0 [0x5B]] ++
      ([.write 1 (stampText process ++ [0])] ++
        ([.write ((stampText process).length + 1) [0x5D]] ++
          ([.write ((stampText process).length + 1 + 1) (text ++ [0])] ++ []))))
      (b₄, (stampText process).length + 1, text.length) := by
    unfold assemble
    refine Traced.bind_yields.mpr ⟨_, b₁, _, hb₁, Traced.bind_yields.mpr ⟨_, b₂, _, hb₂, ?_, rfl⟩,
      rfl⟩
    dsimp only
    rw [hptr, hret1]
    dsimp only
    rw [htext]
    exact Traced.bind_yields.mpr ⟨_, b₃, _, hb₃, Traced.bind_yields.mpr ⟨_, b₄, _, hb₄,
      ⟨rfl, rfl⟩, rfl⟩, rfl⟩
  refine ⟨_, b₄, hyields, hline ▸ hholds₄.front, ?_⟩
  intro e he
  simp only [List.cons_append, List.nil_append, List.mem_cons, List.not_mem_nil, or_false] at he
  rcases he with rfl | rfl | rfl | rfl
  · exact ⟨_, _, rfl, by decide⟩
  · exact ⟨_, _, rfl, hfit₂⟩
  · exact ⟨_, _, rfl, hfit₃⟩
  · exact ⟨_, _, rfl, hfit₄⟩

/-- Only where it has room. -/
theorem fits_of_assemble (h : (assemble process args).Yields es (buffer, ret1, ret2)) :
    ∃ ptr, strrchr 0x2F args.file_name = some ptr ∧
      (lineHead process args ptr).length < bufferSize := by
  unfold assemble at h
  obtain ⟨_, b₁, _, hb₁, h, -⟩ := Traced.bind_yields.mp h
  obtain ⟨_, b₂, _, hb₂, h, -⟩ := Traced.bind_yields.mp h
  obtain ⟨-, -, rfl⟩ := store_yields.mp hb₁
  obtain ⟨hfit₂, -, rfl⟩ := store_yields.mp hb₂
  have hempty : Holds (List.replicate bufferSize 0) [] := ⟨List.length_replicate, rfl⟩
  have hholds₁ := hempty.overwrite (show [].length + [0x5B].length ≤ bufferSize by decide)
  have hholds₂ := hholds₁.overwrite hfit₂
  rw [← List.append_assoc] at hholds₂
  have hret1 : cstrlen (overwrite (overwrite (List.replicate bufferSize 0) 0 [0x5B]) 1
      (stampText process ++ [0])) = (stampText process).length + 1 :=
    hholds₂.cstrlen (by simp [zero_not_mem_stampText process])
  obtain ⟨_, b₃, _, -, h, -⟩ := Traced.bind_yields.mp h
  cases hptr : strrchr 0x2F args.file_name with
  | none =>
      rw [hptr] at h
      exact absurd h (Traced.fault_yields _ _)
  | some ptr =>
      rw [hptr] at h
      obtain ⟨_, b₄, _, hb₄, -, -⟩ := Traced.bind_yields.mp h
      obtain ⟨hfit₄, -, -⟩ := store_yields.mp hb₄
      rw [hret1, List.length_append, List.length_singleton] at hfit₄
      refine ⟨ptr, rfl, ?_⟩
      rw [length_lineHead]
      omega

end Head

/-! ### The message -/

section Message
variable {sinks : Sinks} {process : Process} {args : Arguments} {ptr buffer content : List UInt8}
  {es : List Event}

/-- The size that `vsnprintf` is given is positive and fits exactly when there is room below 512. -/
theorem size_fits_iff {n : Nat} (hn : n < bufferSize) :
    0 < toSize (512 - n) ∧ n + toSize (512 - n) ≤ bufferSize ↔ n < 512 := by
  unfold toSize bufferSize at *
  omega

theorem toSize_of_lt {n : Nat} (hn : n < 512) : toSize (512 - n) = 512 - n := by
  unfold toSize
  omega

/-- Without an error `vsnprintf` returns the length of the message. -/
theorem reported_of_nonneg (h : 0 ≤ reported args) : reported args = args.message.length := by
  unfold reported at h ⊢
  split
  · rfl
  next hfailed =>
    rw [if_neg hfailed] at h
    exact absurd h (by decide)

/-- A message that goes to the file is ended by a newline. -/
theorem deliver_yields {ret1 ret2 : Nat} (hholds : Holds buffer (content ++ args.message.take
      (512 - content.length - 1))) (hlength : content.length = ret1 + ret2 + 1)
    (hfile : sinks.tag = 1 → 0 ≤ reported args → content.length + args.message.length < 512) :
    ∃ es, (deliver sinks buffer ret1 ret2 (reported args)).Yields es () ∧
      (∀ pos bytes, .write pos bytes ∈ es → pos + bytes.length ≤ bufferSize) ∧
      (∀ pos size, .vsnprintf pos size ∉ es) ∧
      ∀ data size, .log data size ∈ es → size ≤ bufferSize ∧
        data.take size = content ++ args.message.take (512 - content.length - 1) ++ [0x0A] := by
  unfold deliver
  by_cases hneg : reported args < 0
  · rw [if_pos hneg]
    exact ⟨[], ⟨rfl, rfl⟩, nofun, nofun, nofun⟩
  rw [if_neg hneg]
  by_cases hterminal : sinks.tag = 0
  · rw [if_pos hterminal]
    exact ⟨_, ⟨rfl, rfl⟩, by simp, by simp, by simp⟩
  rw [if_neg hterminal]
  by_cases htag : sinks.tag = 1
  · rw [if_pos htag]
    have hreported := reported_of_nonneg (Int.not_lt.mp hneg)
    have hroom := hfile htag (Int.not_lt.mp hneg)
    -- all of the message is stored
    have hall : args.message.take (512 - content.length - 1) = args.message :=
      List.take_of_length_le (by omega)
    rw [hall] at hholds ⊢
    have hend : ret1 + ret2 + (reported args).toNat + 1 = (content ++ args.message).length := by
      rw [hreported, Int.toNat_natCast, List.length_append]
      omega
    have hfit : ret1 + ret2 + (reported args).toNat + 1 + [(0x0A : UInt8)].length ≤ bufferSize := by
      rw [hend, List.length_append, List.length_singleton]
      unfold bufferSize
      omega
    obtain ⟨b, hb, hholds'⟩ := hholds.store hend [0x0A] hfit
    refine ⟨[.write _ [0x0A], .log b _], Traced.bind_yields.mpr ⟨_, b, _, hb, ⟨rfl, rfl⟩, rfl⟩,
      ?_, ?_, ?_⟩
    · intro pos bytes hmem
      simp only [List.mem_cons, List.not_mem_nil, or_false, Event.write.injEq, reduceCtorEq] at hmem
      obtain ⟨rfl, rfl⟩ := hmem
      exact hfit
    · simp
    · intro data size hmem
      simp only [List.mem_cons, List.not_mem_nil, or_false, Event.log.injEq, reduceCtorEq,
        false_or] at hmem
      obtain ⟨rfl, rfl⟩ := hmem
      refine ⟨hfit, ?_⟩
      have hlength' : ret1 + ret2 + (reported args).toNat + 2 =
          (content ++ args.message ++ [0x0A]).length := by
        rw [List.length_append, ← hend, List.length_singleton]
      rw [hlength']
      exact hholds'.take
  · rw [if_neg htag]
    exact ⟨[], ⟨rfl, rfl⟩, nofun, nofun, nofun⟩

/-- What is logged has the length that `vsnprintf` has returned. -/
theorem deliver_file {ret1 ret2 : Nat} (htag : sinks.tag = 1) (hreported : 0 ≤ reported args)
    (hbuffer : buffer.length = bufferSize)
    (h : (deliver sinks buffer ret1 ret2 (reported args)).Yields es ()) :
    ∃ data, data.length = bufferSize ∧ ret1 + ret2 + args.message.length + 2 ≤ bufferSize ∧
      es = [.write (ret1 + ret2 + args.message.length + 1) [0x0A],
        .log data (ret1 + ret2 + args.message.length + 2)] := by
  have hterminal : sinks.tag ≠ 0 := by
    rw [htag]
    decide
  unfold deliver at h
  rw [if_neg (Int.not_lt.mpr hreported), if_neg hterminal, if_pos htag,
    reported_of_nonneg hreported, Int.toNat_natCast] at h
  obtain ⟨_, data, _, hb, hlog, rfl⟩ := Traced.bind_yields.mp h
  obtain ⟨hfit, rfl, rfl⟩ := store_yields.mp hb
  obtain rfl := (Traced.tell_yields ..).mp hlog
  refine ⟨_, ?_, hfit, rfl⟩
  rw [length_overwrite (by rw [hbuffer]; exact hfit), hbuffer]

/-- The events of a whole call that has a head. -/
theorem log_into_sink_log (hsource : args.source &&& sinks._sinks ≠ 0)
    (hptr : strrchr 0x2F args.file_name = some ptr)
    (hhead : (lineHead process args ptr).length < bufferSize) :
    ∃ es buffer ret1 ret2, Holds buffer (lineHead process args ptr) ∧ Inside es ∧
      (lineHead process args ptr).length = ret1 + ret2 + 1 ∧
      ndsl_log_into_sink sinks process args =
        Traced.tell es >>= fun _ => finish sinks args buffer ret1 ret2 := by
  obtain ⟨es, buffer, hyields, hholds, hinside⟩ := assemble_yields hptr hhead
  refine ⟨es, buffer, _, _, hholds, hinside, length_lineHead process args ptr, ?_⟩
  unfold ndsl_log_into_sink
  rw [if_pos hsource, hyields.eq_tell_bind, Traced.bind_assoc]
  simp only [Traced.pure_bind]

/-- What `vsnprintf` is given, where the head ends below 512. -/
theorem finish_eq {ret1 ret2 : Nat} (hlength : content.length = ret1 + ret2 + 1) :
    finish sinks args buffer ret1 ret2 =
      Traced.tell [.vsnprintf content.length (toSize (512 - content.length))] >>= fun _ =>
        store buffer content.length (stored args.message (toSize (512 - content.length))) >>=
          fun buffer => deliver sinks buffer ret1 ret2 (reported args) := by
  have hsize : (512 - ret1 - ret2 - 1 : Int) = 512 - (content.length : Int) := by omega
  unfold finish
  simp only [hsize, hlength]

/-- Where everything has room the record is right. -/
theorem assembled_of_fits (h : Fits sinks process args) :
    Assembled process args (ndsl_log_into_sink sinks process args) := by
  by_cases hsource : args.source &&& sinks._sinks ≠ 0
  case neg =>
    -- nobody wants the record
    have hnothing : ndsl_log_into_sink sinks process args = pure () := if_neg hsource
    rw [hnothing]
    exact ⟨⟨[], rfl, rfl⟩, nofun, nofun, nofun⟩
  obtain ⟨ptr, hptr, hroom, hfile⟩ := h hsource
  obtain ⟨es, buffer, ret1, ret2, hholds, hinside, hlength, heq⟩ := log_into_sink_log hsource hptr
    (Nat.lt_trans hroom (by decide))
  generalize hcontent : lineHead process args ptr = content at hroom hfile hholds hlength
  -- what is stored, and the zero behind it
  have hstored : stored args.message (512 - content.length) =
      args.message.take (512 - content.length - 1) ++ [0] := if_neg (by omega)
  have hfit : content.length + (stored args.message (512 - content.length)).length ≤
      bufferSize := by
    rw [hstored, List.length_append, List.length_take, List.length_singleton]
    unfold bufferSize
    omega
  obtain ⟨b, hb, hholds'⟩ := hholds.store rfl _ hfit
  rw [hstored, ← List.append_assoc] at hholds'
  obtain ⟨fs, hdeliver, hwrites, hnone, hlogged⟩ :=
    deliver_yields hholds'.front hlength hfile
  rw [finish_eq hlength, toSize_of_lt hroom] at heq
  have hyields : (ndsl_log_into_sink sinks process args).Yields
      (es ++ ([.vsnprintf content.length (512 - content.length)] ++
        ([.write content.length (stored args.message (512 - content.length))] ++ fs))) () := by
    rw [heq]
    exact (Traced.tell_bind_yields ..).mpr ⟨_, (Traced.tell_bind_yields ..).mpr ⟨_,
      Traced.bind_yields.mpr ⟨_, b, _, hb, hdeliver, rfl⟩, rfl⟩, rfl⟩
  have hlog := hyields.1
  refine ⟨⟨_, hyields⟩, fun pos bytes hmem => ?_, fun pos size hmem => ?_, fun data size hmem => ?_⟩
  all_goals rw [hlog] at hmem
  all_goals simp only [List.mem_append, List.mem_singleton, reduceCtorEq, false_or,
    Event.write.injEq, Event.vsnprintf.injEq] at hmem
  · rcases hmem with hmem | ⟨rfl, rfl⟩ | hmem
    · obtain ⟨_, _, heq, hle⟩ := hinside _ hmem
      obtain ⟨rfl, rfl⟩ := Event.write.inj heq
      exact hle
    · exact hfit
    · exact hwrites pos bytes hmem
  · rcases hmem with hmem | ⟨rfl, rfl⟩ | hmem
    · obtain ⟨_, _, heq, -⟩ := hinside _ hmem
      exact absurd heq nofun
    · unfold bufferSize
      omega
    · exact absurd hmem (hnone pos size)
  · rcases hmem with hmem | hmem
    · obtain ⟨_, _, heq, -⟩ := hinside _ hmem
      exact absurd heq nofun
    · obtain ⟨hle, hdata⟩ := hlogged data size hmem
      refine ⟨hle, ptr, content.length, 512 - content.length, hptr, ?_, ?_⟩
      · rw [hlog]
        simp
      · rw [hcontent]
        exact hdata

/-- A record that is right has had room. -/
theorem fits_of_assembled (h : Assembled process args (ndsl_log_into_sink sinks process args)) :
    Fits sinks process args := by
  intro hsource
  -- the head was written, so it has room in the buffer
  obtain ⟨es, hyields⟩ := h.returns
  have hcall := hyields
  unfold ndsl_log_into_sink at hcall
  rw [if_pos hsource] at hcall
  obtain ⟨_, ⟨buffer, ret1, ret2⟩, _, hassemble, -, -⟩ := Traced.bind_yields.mp hcall
  obtain ⟨ptr, hptr, hhead⟩ := fits_of_assemble hassemble
  obtain ⟨es', buffer, ret1, ret2, hholds, hinside, hlength, heq⟩ :=
    log_into_sink_log hsource hptr hhead
  rw [finish_eq hlength] at heq
  have hvsnprintf : .vsnprintf (lineHead process args ptr).length
      (toSize (512 - (lineHead process args ptr).length)) ∈
        (ndsl_log_into_sink sinks process args).log := by
    rw [heq, Traced.log_tell_bind, Traced.log_tell_bind]
    simp
  have hroom := (size_fits_iff hhead).mp (h.size _ _ hvsnprintf)
  refine ⟨ptr, hptr, hroom, fun htag hreported => ?_⟩
  rw [toSize_of_lt hroom] at heq
  have hfinish := hyields
  rw [heq] at hfinish
  obtain ⟨_, hfinish', rfl⟩ := (Traced.tell_bind_yields ..).mp hfinish
  obtain ⟨_, hstore, rfl⟩ := (Traced.tell_bind_yields ..).mp hfinish'
  obtain ⟨_, b, _, hb, hdeliver, rfl⟩ := Traced.bind_yields.mp hstore
  obtain ⟨hfit, rfl, rfl⟩ := store_yields.mp hb
  have hbuffer : (overwrite buffer (lineHead process args ptr).length
      (stored args.message (512 - (lineHead process args ptr).length))).length = bufferSize := by
    rw [length_overwrite (by rw [hholds.length]; exact hfit), hholds.length]
  obtain ⟨data, hdata, hend, rfl⟩ := deliver_file htag hreported hbuffer hdeliver
  have hmem : .log data (ret1 + ret2 + args.message.length + 2) ∈
      (ndsl_log_into_sink sinks process args).log := by
    rw [hyields.1]
    simp only [List.mem_append, List.mem_cons, true_or, or_true]
  obtain ⟨hle, ptr', pos, room, hptr', hgiven, htake⟩ := h.logged data _ hmem
  obtain rfl := Option.some.inj (hptr.symm.trans hptr')
  -- `vsnprintf` was called once
  have hrooms : room = 512 - (lineHead process args ptr).length := by
    rw [hyields.1] at hgiven
    simp only [List.mem_append, List.mem_cons, List.not_mem_nil, Event.vsnprintf.injEq,
      reduceCtorEq, or_false] at hgiven
    rcases hgiven with hmem | ⟨-, hroom⟩
    · obtain ⟨_, _, heq, -⟩ := hinside _ hmem
      exact absurd heq nofun
    · exact hroom
  -- a message that was cut is shorter than the range
  have hcount := congrArg List.length htake
  rw [List.length_take, hdata, Nat.min_eq_left hle, List.length_append, List.length_append,
    List.length_take, List.length_singleton, hrooms] at hcount
  have hmin := Nat.min_le_left (512 - (lineHead process args ptr).length - 1) args.message.length
  omega

end Message

/-- A record is put together as it should exactly when the file name has a slash, the head leaves
room for the message, and a message for the file has room. -/
theorem assembled_iff_fits (sinks : Sinks) (process : Process) (args : Arguments) :
    Assembled process args (ndsl_log_into_sink sinks process args) ↔ Fits sinks process args :=
  ⟨fits_of_assembled, assembled_of_fits⟩

/-- A process in Greenwich at the epoch. -/
def atEpoch : Process where
  zone := { offset := 0, dst := fun _ => false, bounded := by decide }
  now := { stamp_ := 0 }
  pid := 1
  tid := 1

/-- A record of the first source. -/
def entry (file_name func_name message : List UInt8) : Arguments where
  level := 1
  source := 1
  file_name := file_name
  func_name := func_name
  message := message

/-- A file name without a slash, a message of 600 characters for the file, and a function name of
600 characters for the terminal. -/
theorem records_fail :
    ¬ Assembled atEpoch (entry [0x61] [0x66] [0x6D])
      (ndsl_log_into_sink (set_ndsl_log_sinks 1 1) atEpoch (entry [0x61] [0x66] [0x6D])) ∧
    ¬ Assembled atEpoch (entry [0x2F, 0x61] [0x66] (List.replicate 600 0x6D))
      (ndsl_log_into_sink (set_ndsl_log_sinks 1 1) atEpoch
        (entry [0x2F, 0x61] [0x66] (List.replicate 600 0x6D))) ∧
    ¬ Assembled atEpoch (entry [0x2F, 0x61] (List.replicate 600 0x66) [0x6D])
      (ndsl_log_into_sink (set_ndsl_log_sinks 1 0) atEpoch
        (entry [0x2F, 0x61] (List.replicate 600 0x66) [0x6D])) := by
  -- the source of the entry is wanted
  have hsource : ∀ file_name func_name message tag,
      (entry file_name func_name message).source &&& (set_ndsl_log_sinks 1 tag)._sinks ≠ 0 :=
    fun _ _ _ _ => show (1 : UInt64) &&& 1 ≠ 0 by decide
  refine ⟨fun h => ?slash, fun h => ?message, fun h => ?head⟩
  case slash =>
    obtain ⟨ptr, hptr, -⟩ := fits_of_assembled h (hsource _ _ _ _)
    exact absurd hptr.symm (Option.some_ne_none ptr)
  case message =>
    obtain ⟨ptr, -, -, hfile⟩ := fits_of_assembled h (hsource _ _ _ _)
    have hlong : (entry [0x2F, 0x61] [0x66] (List.replicate 600 0x6D)).message.length = 600 :=
      List.length_replicate
    have hreported : 0 ≤ reported (entry [0x2F, 0x61] [0x66] (List.replicate 600 0x6D)) := by
      unfold reported
      rw [hlong, if_pos ⟨rfl, by decide⟩]
      decide
    have hroom := hfile rfl hreported
    omega
  case head =>
    obtain ⟨ptr, -, hroom, -⟩ := fits_of_assembled h (hsource _ _ _ _)
    rw [length_lineHead] at hroom
    have hle := length_func_name_le atEpoch
      (entry [0x2F, 0x61] (List.replicate 600 0x66) [0x6D]) (ptr.drop 1)
    have hlong : (entry [0x2F, 0x61] (List.replicate 600 0x66) [0x6D]).func_name.length = 600 :=
      List.length_replicate
    omega

end Ndsl.Proofs.Log
