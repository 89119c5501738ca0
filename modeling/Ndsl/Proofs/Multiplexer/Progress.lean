import Ndsl.Proofs.Multiplexer.Chunk
import Ndsl.Proofs.Multiplexer.Routing

/-!
# `Ndsl.Proofs.Multiplexer.Progress`: when a call of `dispatch` ends

`Reachable` is the set of `incompleteBuf`s that any calls lead to, with any bytes in them, and
`Ends` is what a call is to do: return with the offset at the end of the chunk, having advanced
in every iteration before the last and having called a client only from the iteration that
completed its header. `ends_iff` says that a call does so exactly when its chunk `Fits`: whole
headers and payloads from what `incompleteBuf` holds on, and nothing behind the header of a
direct message.
-/

set_option autoImplicit false

namespace Ndsl.Proofs.Multiplexer

open Ndsl.Lib
open Ndsl.Net (MAXLINE toInt)
open Ndsl.Net.Multiplexer

/-- The states of `incompleteBuf` between two calls, whatever was received. -/
inductive Reachable : IncompleteBuf → Prop
  | init : Reachable {}
  | dispatch (env : Env) (fuel : Nat) (icbuf icbuf' : IncompleteBuf) (c : Call) (log : List Act)
      (hreach : Reachable icbuf) (h : (dispatch env fuel icbuf c).Yields log icbuf') :
      Reachable icbuf'

theorem Reachable.wf {icbuf : IncompleteBuf} (h : Reachable icbuf) : Wf icbuf := by
  induction h with
  | init => exact wf_empty
  | dispatch env fuel icbuf icbuf' c log _ h ih =>
      obtain ⟨s, hwhile, rfl⟩ := dispatch_yields h
      exact ((turns_iff (s := ⟨icbuf, c.len0, 0⟩) ih).mpr ⟨log, hwhile, rfl⟩).wf ih

/-- A call of a client. -/
def isCallback : Act → Bool
  | .dataCallback .. => true
  | _ => false

/-- The call ends as it should. -/
structure Ends (env : Env) (icbuf : IncompleteBuf) (c : Call) : Prop where
  /-- It returns, with exactly the received bytes consumed. -/
  returns : ∃ es s, Traced.While (hasMore c.recv) (body env c.recv) (start icbuf c) es s ∧
    s.offset = c.recv.length
  /-- Every iteration before the last moves the offset. -/
  progress : ∀ s es s', Begins env icbuf c s → (body env c.recv s).Yields es s' →
    hasMore c.recv s' = true → s.offset < s'.offset
  /-- A client is called from the iteration that completes the header of its message, so only
  once for a message. -/
  once : ∀ s, Begins env icbuf c s → (∃ a ∈ (body env c.recv s).log, isCallback a = true) →
    s.icbuf.head.length < msgSize

/-- The block happens to have a zero right behind it. -/
def Slack (env : Env) (block : List UInt8) : Prop := env.slack block.length = true

/-- What an iteration needs to find for the call to end. -/
abbrev IterationOk (env : Env) (recv : List UInt8) (s : Loop) : Prop :=
  Finds (Slack env) (· = []) env recv s

/-- An iteration that finds what it needs moves the offset, and not past the chunk. -/
theorem IterationOk.turn {env : Env} {recv : List UInt8} {s : Loop} (hwf : Wf s.icbuf)
    (hmax : recv.length ≤ MAXLINE) (hlt : s.offset < recv.length)
    (hok : IterationOk env recv s) :
    ∃ ds s', Turn env recv s ds s' ∧ s.offset < s'.offset ∧ s'.offset ≤ recv.length := by
  cases hok with
  | short hshort hoff hlen =>
      exact ⟨_, _, .short hshort hlen (by omega), by dsimp only; omega, by dsimp only; omega⟩
  | direct client hfill hend hid hclient hlen hbehind =>
      -- the header ends where the chunk ends
      rw [List.drop_eq_nil_iff] at hbehind
      exact ⟨_, _, .direct client hfill (Nat.le_trans hend hmax) hid hclient hlen,
        Nat.lt_of_lt_of_le hlt hbehind, hend⟩
  | control size hfill hid hsize hend hblock =>
      have hpos := hwf.offset_lt_blockEnd hid hsize
      obtain ⟨ds, s', hturn, hoff, -⟩ :=
        turn_of_control (fun _ h => h) hwf hmax hfill hid hsize hend hblock
      exact ⟨ds, s', hturn, by rwa [hoff], by rwa [hoff]⟩

/-- The offset never goes back. -/
theorem Turn.offset_le {env : Env} {recv : List UInt8} {s s' : Loop} {ds : List Act}
    (h : Turn env recv s ds s') : s.offset ≤ s'.offset := by
  cases h with
  | short => exact Nat.le_add_right _ _
  | direct => exact Nat.le_add_right _ _
  | pending => exact Nat.le_trans (Nat.le_add_right _ _) (Nat.le_add_right _ _)
  | complete => exact Nat.le_trans (Nat.le_add_right _ _) (Nat.le_add_right _ _)

theorem Turns.offset_le {env : Env} {recv : List UInt8} {s s' : Loop} {ds : List Act}
    (h : Turns env recv s ds s') : s.offset ≤ s'.offset := by
  induction h with
  | stop _ => exact Nat.le_refl _
  | step _ hturn _ ih => exact Nat.le_trans hturn.offset_le ih

/-- An iteration of a call that ends at the end of the chunk has found what it needs. -/
theorem IterationOk.of_turn {env : Env} {recv : List UInt8} {s s' s'' : Loop}
    {ds ds' : List Act} (hwf : Wf s.icbuf)
    (hturn : Turn env recv s ds s') (hturns : Turns env recv s' ds' s'')
    (hend : s''.offset = recv.length) : IterationOk env recv s := by
  have hle := hturns.offset_le
  rw [hend] at hle
  cases hturn with
  | short hshort hlen _ =>
      dsimp only at hle
      exact .short hshort (by omega) hlen
  | direct client hfill _ hid hclient hlen =>
      have hge := hturns.not_of_direct (length_filled hwf.head_le) hid
      exact .direct client hfill hle hid hclient hlen (List.drop_eq_nil_of_le hge)
  | pending size hfill hid hsize _ hzero =>
      exact .control size hfill hid hsize hle (.inl hzero)
  | complete size hfill hid hsize _ hzero hslack =>
      refine .control size hfill hid hsize hle (.inr ?_)
      rwa [Slack, length_filledBlock hwf hsize]

/-- A call whose iterations all find what they need returns at the end of the chunk. -/
theorem while_of_ok {env : Env} {icbuf : IncompleteBuf} {c : Call} (hwf : Wf icbuf)
    (hmax : c.recv.length ≤ MAXLINE)
    (hok : ∀ s, Begins env icbuf c s → IterationOk env c.recv s) :
    ∀ (n : Nat) (s : Loop), c.recv.length - s.offset = n → Begins env icbuf c s →
      ∃ es s', Traced.While (hasMore c.recv) (body env c.recv) s es s' ∧
        s'.offset = c.recv.length := by
  intro n
  induction n using Nat.strongRecOn with
  | ind n ih =>
      intro s hn hbegins
      have hlt := hasMore_iff.mp hbegins.2
      obtain ⟨ds, s', hturn, hpos, hle⟩ :=
        (hok s hbegins).turn (hbegins.wf hwf) hmax hlt
      obtain ⟨es, hbody, -⟩ := hturn.body (hbegins.wf hwf)
      by_cases hmore : hasMore c.recv s' = true
      · obtain ⟨es', s'', hwhile, hend⟩ :=
          ih (c.recv.length - s'.offset) (by omega) s' rfl (hbegins.next hbody hmore)
        exact ⟨_, s'', .step hbegins.2 hbody hwhile, hend⟩
      · refine ⟨_, s', .step hbegins.2 hbody (.stop (by simpa using hmore)), ?_⟩
        rw [hasMore_iff, Nat.not_lt] at hmore
        exact Nat.le_antisymm hle hmore

/-- The iteration of a control message calls no client. -/
theorem IterationOk.head_lt {env : Env} {recv : List UInt8} {s s' : Loop} {es : List Act}
    (hok : IterationOk env recv s) (hwf : Wf s.icbuf) (hlt : s.offset < recv.length)
    (hbody : (body env recv s).Yields es s') {a : Act} (ha : a ∈ es)
    (hcb : isCallback a = true) : s.icbuf.head.length < msgSize := by
  have hmem : a ∈ deliveries es := by
    refine List.mem_filter.mpr ⟨ha, ?_⟩
    cases a with
    | dataCallback => rfl
    | readRecv => simp [isCallback] at hcb
    | writeHead => simp [isCallback] at hcb
    | writeBuf => simp [isCallback] at hcb
    | readString => simp [isCallback] at hcb
    | readNull => simp [isCallback] at hcb
    | readEnd => simp [isCallback] at hcb
    | solve => simp [isCallback] at hcb
  have hturn := body_turn hwf hbody
  generalize deliveries es = ds at hmem hturn
  cases hturn with
  | short => simp at hmem
  | pending => simp at hmem
  | complete =>
      obtain rfl := List.mem_singleton.mp hmem
      simp [isCallback] at hcb
  | direct client hfill _ hid _ _ =>
      cases hok with
      | short hshort => exact absurd hshort (Nat.not_lt_of_le hfill)
      | control _ _ hid' => exact absurd hid' hid
      | direct _ _ _ _ _ _ hbehind =>
          rw [List.drop_eq_nil_iff] at hbehind
          unfold headEnd at hbehind
          omega

/-- A call of `dispatch` ends as it should exactly when every iteration it begins finds what it
needs. -/
theorem ends_iff_iterations {env : Env} {icbuf : IncompleteBuf} {c : Call} (hwf : Wf icbuf)
    (hmax : c.recv.length ≤ MAXLINE) :
    Ends env icbuf c ↔ ∀ s, Begins env icbuf c s → IterationOk env c.recv s := by
  constructor
  · intro hends s hbegins
    obtain ⟨es, s', hwhile, hend⟩ := hends.returns
    obtain ⟨⟨n, hvisits⟩, hmore⟩ := hbegins
    have hwf' := Begins.wf ⟨⟨n, hvisits⟩, hmore⟩ hwf
    obtain ⟨fs, hwhile'⟩ := hvisits.while_of hwhile
    have hturns := (turns_iff hwf').mpr ⟨fs, hwhile', rfl⟩
    generalize deliveries fs = ds at hturns
    cases hturns with
    | stop hstop => exact absurd (hasMore_iff.mp hmore) (Nat.not_lt_of_le hstop)
    | step _ hturn hrest => exact .of_turn hwf' hturn hrest hend
  · intro hok
    have hbody : ∀ s es s', Begins env icbuf c s → (body env c.recv s).Yields es s' →
        s.offset < s'.offset := by
      intro s es s' hbegins hbody
      obtain ⟨ds, s₁, hturn, hpos, -⟩ :=
        (hok s hbegins).turn (hbegins.wf hwf) hmax (hasMore_iff.mp hbegins.2)
      obtain ⟨es₁, hbody₁, -⟩ := hturn.body (hbegins.wf hwf)
      obtain ⟨-, rfl⟩ := hbody.unique hbody₁
      exact hpos
    refine ⟨?_, fun s es s' hbegins h _ => hbody s es s' hbegins h, ?_⟩
    · by_cases hmore : hasMore c.recv (start icbuf c) = true
      · exact while_of_ok hwf hmax hok _ _ rfl ⟨⟨0, .zero⟩, hmore⟩
      · refine ⟨[], _, .stop (by simpa using hmore), ?_⟩
        rw [hasMore_iff, Nat.not_lt] at hmore
        exact Nat.le_antisymm (Nat.zero_le _) hmore
    · rintro s hbegins ⟨a, ha, hcb⟩
      obtain ⟨ds, s₁, hturn, -, -⟩ :=
        (hok s hbegins).turn (hbegins.wf hwf) hmax (hasMore_iff.mp hbegins.2)
      obtain ⟨es₁, hbody₁, -⟩ := hturn.body (hbegins.wf hwf)
      exact (hok s hbegins).head_lt (hbegins.wf hwf) (hasMore_iff.mp hbegins.2) hbody₁
        (hbody₁.1 ▸ ha) hcb

/-- A call of `dispatch` on a state that can be reached ends as it should exactly when its chunk
fits: it is a piece of a header, or whole headers and payloads follow each other in it, each
payload block with a zero in it or behind it, up to its end or to the header of a direct message
that ends the chunk. -/
theorem ends_iff {env : Env} {icbuf : IncompleteBuf} {c : Call} (hreach : Reachable icbuf)
    (hmax : c.recv.length ≤ MAXLINE) :
    Ends env icbuf c ↔ Fits (Slack env) (· = []) env icbuf c :=
  (ends_iff_iterations hreach.wf hmax).trans (fits_iff (fun _ h => h) hreach.wf hmax)

theorem ends_iff_ping : Ends pingEnv {} { recv := frame 1 [], len0 := 5 } :=
  (ends_iff .init (by decide)).mpr (.inr (.direct [] [] (frame 1 []) [] 5 ⟨some 9, 3⟩ rfl
    (by decide) (by decide) (by decide) rfl))

/-- A direct message with the payload `"hi"`, in one chunk: the call does not end. -/
theorem ping_never_ends :
    Reachable {} ∧ ¬ Ends pingEnv {} { recv := frame 1 [104, 105], len0 := 5 } := by
  refine ⟨.init, fun hends => ?_⟩
  obtain ⟨es, s, hwhile, -⟩ := hends.returns
  have hturns := (turns_iff wf_empty).mpr ⟨es, hwhile, rfl⟩
  have htail := @Received.direct pingEnv _ _ _ _ (headerOf 1 [104, 105]) [104, 105]
    (Received.cons hturns .nil) (by decide) (by decide) 0 rfl (by decide) (by decide) (by decide)
  exact absurd htail.1 (by decide)

end Ndsl.Proofs.Multiplexer
