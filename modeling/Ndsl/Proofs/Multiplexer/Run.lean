import Ndsl.Proofs.Multiplexer.Turn

/-!
# `Ndsl.Proofs.Multiplexer.Run`: one call, and the calls of a connection

`Turns` is the loop of one `dispatch` as a sequence of `Turn`s, and `Received` a sequence of
calls. `received_iff` connects them to `dispatchAll`: what a connection delivers with enough
fuel is what `Received` says.
-/

set_option autoImplicit false

namespace Ndsl.Proofs.Multiplexer

open Ndsl.Lib
open Ndsl.Net (toInt)
open Ndsl.Net.Multiplexer

/-- The loop of one call, from its state `s` on. -/
inductive Turns (env : Env) (recv : List UInt8) : Loop → List Act → Loop → Prop
  | stop {s : Loop} (hend : recv.length ≤ s.offset) : Turns env recv s [] s
  | step {s s' s'' : Loop} {ds ds' : List Act} (hlt : s.offset < recv.length)
      (hturn : Turn env recv s ds s') (hrest : Turns env recv s' ds' s'') :
      Turns env recv s (ds ++ ds') s''

/-- The calls of a connection, from its state `icbuf` on. -/
inductive Received (env : Env) : IncompleteBuf → List Call → List Act → IncompleteBuf → Prop
  | nil {icbuf : IncompleteBuf} : Received env icbuf [] [] icbuf
  | cons {icbuf icbuf' : IncompleteBuf} {c : Call} {cs : List Call} {ds ds' : List Act}
      {s : Loop} (hcall : Turns env c.recv { icbuf := icbuf, len := c.len0, offset := 0 } ds s)
      (hrest : Received env s.icbuf cs ds' icbuf') : Received env icbuf (c :: cs) (ds ++ ds') icbuf'

/-- A loop keeps the invariant. -/
theorem Turns.wf {env : Env} {recv : List UInt8} {s s' : Loop} {ds : List Act}
    (h : Turns env recv s ds s') (hwf : Wf s.icbuf) : Wf s'.icbuf := by
  induction h with
  | stop _ => exact hwf
  | step _ hturn _ ih => exact ih (hturn.wf hwf)

/-- The loop as a sequence of turns. -/
theorem turns_iff {env : Env} {recv : List UInt8} {s s' : Loop} {ds : List Act}
    (hwf : Wf s.icbuf) :
    Turns env recv s ds s' ↔
      ∃ es, Traced.While (hasMore recv) (body env recv) s es s' ∧ deliveries es = ds := by
  constructor
  · intro h
    induction h with
    | stop hend => exact ⟨[], .stop (by simpa [hasMore] using hend), rfl⟩
    | step hlt hturn _ ih =>
        obtain ⟨es₁, hbody, hds⟩ := hturn.body hwf
        obtain ⟨es₂, hwhile, hds'⟩ := ih (hturn.wf hwf)
        exact ⟨_, .step (by simpa [hasMore] using hlt) hbody hwhile,
          by rw [deliveries_append, hds, hds']⟩
  · rintro ⟨es, h, rfl⟩
    induction h with
    | stop hc => exact .stop (by simpa [hasMore] using hc)
    | step hc hbody _ ih =>
        have hturn := body_turn hwf hbody
        rw [deliveries_append]
        exact .step (by simpa [hasMore] using hc) hturn (ih (hturn.wf hwf))

/-- One call, given enough fuel. -/
theorem dispatch_yields {env : Env} {fuel : Nat} {icbuf icbuf' : IncompleteBuf} {c : Call}
    {es : List Act} (h : (dispatch env fuel icbuf c).Yields es icbuf') :
    ∃ s, Traced.While (hasMore c.recv) (body env c.recv)
      { icbuf := icbuf, len := c.len0, offset := 0 } es s ∧ s.icbuf = icbuf' := by
  unfold dispatch at h
  rw [Traced.bind_yields] at h
  obtain ⟨es₁, s, es₂, hwhile, h, rfl⟩ := h
  split at h
  · simp at h
  · rename_i hc
    rw [Traced.pure_yields] at h
    obtain ⟨rfl, hic⟩ := h
    rw [List.append_nil]
    exact ⟨s, .of_fuel hwhile (by simpa using hc), hic⟩

/-- A call whose loop ends returns, whatever fuel is left over. -/
theorem yields_dispatch {env : Env} {icbuf : IncompleteBuf} {c : Call} {es : List Act} {s : Loop}
    (h : Traced.While (hasMore c.recv) (body env c.recv)
      { icbuf := icbuf, len := c.len0, offset := 0 } es s) :
    ∃ fuel₀, ∀ fuel, fuel₀ ≤ fuel → (dispatch env fuel icbuf c).Yields es s.icbuf := by
  obtain ⟨fuel₀, hfuel⟩ := h.fuel_mono
  refine ⟨fuel₀, fun fuel hle => ?_⟩
  unfold dispatch
  rw [Traced.bind_yields]
  refine ⟨es, s, [], hfuel fuel hle, ?_, by simp⟩
  rw [if_neg (by simp [h.cond_eq_false])]
  exact ⟨rfl, rfl⟩

/-- What a connection delivers is what `Received` says. -/
theorem received_iff {env : Env} {icbuf icbuf' : IncompleteBuf} {calls : List Call}
    {ds : List Act} (hwf : Wf icbuf) :
    Received env icbuf calls ds icbuf' ↔
      ∃ fuel log, (dispatchAll env fuel calls icbuf).Yields log icbuf' ∧ deliveries log = ds := by
  constructor
  · intro h
    -- enough fuel for every call is enough for all of them
    suffices ∃ log fuel₀, (∀ fuel, fuel₀ ≤ fuel →
        (dispatchAll env fuel calls icbuf).Yields log icbuf') ∧ deliveries log = ds by
      obtain ⟨log, fuel₀, hfuel, hds⟩ := this
      exact ⟨fuel₀, log, hfuel fuel₀ (Nat.le_refl _), hds⟩
    induction h with
    | nil => exact ⟨[], 0, fun _ _ => ⟨rfl, rfl⟩, rfl⟩
    | cons hcall _ ih =>
        obtain ⟨es₁, hwhile, hds₁⟩ := (turns_iff hwf).mp hcall
        obtain ⟨fuel₁, hfuel₁⟩ := yields_dispatch hwhile
        obtain ⟨es₂, fuel₂, hfuel₂, hds₂⟩ := ih (hcall.wf hwf)
        refine ⟨es₁ ++ es₂, max fuel₁ fuel₂, fun fuel hle => ?_,
          by rw [deliveries_append, hds₁, hds₂]⟩
        rw [dispatchAll, List.foldlM_cons, Traced.bind_yields]
        exact ⟨es₁, _, es₂, hfuel₁ fuel (by omega), hfuel₂ fuel (by omega), rfl⟩
  · rintro ⟨fuel, log, h, rfl⟩
    induction calls generalizing icbuf log with
    | nil =>
        rw [dispatchAll, List.foldlM_nil, Traced.pure_yields] at h
        obtain ⟨rfl, rfl⟩ := h
        exact .nil
    | cons c cs ih =>
        rw [dispatchAll, List.foldlM_cons, Traced.bind_yields] at h
        obtain ⟨es₁, icbuf₁, es₂, hc, hrest, rfl⟩ := h
        obtain ⟨s, hwhile, rfl⟩ := dispatch_yields hc
        have hturns := (turns_iff hwf).mpr ⟨es₁, hwhile, rfl⟩
        rw [deliveries_append]
        exact .cons hturns (ih (hturns.wf hwf) es₂ hrest)

/-- Calls that bring nothing are no calls. -/
theorem eq_nil_of_flatMap {calls : List Call} (hcalls : ∀ c ∈ calls, c.recv ≠ [])
    (h : calls.flatMap (·.recv) = []) : calls = [] := by
  cases calls with
  | nil => rfl
  | cons c cs =>
      rw [List.flatMap_cons, List.append_eq_nil_iff] at h
      exact absurd h.1 (hcalls c (List.mem_cons_self ..))

/-- Behind the end of the chunk the loop is over. -/
theorem Turns.of_ge {env : Env} {recv : List UInt8} {s s' : Loop} {ds : List Act}
    (h : Turns env recv s ds s') (hge : recv.length ≤ s.offset) : ds = [] ∧ s' = s := by
  cases h with
  | stop _ => exact ⟨rfl, rfl⟩
  | step hlt => omega

/-- A complete header of a direct message, with bytes of the chunk left: every further turn
finds the same state again, so the call never returns. -/
theorem Turns.not_of_direct {env : Env} {recv : List UInt8} {s s' : Loop} {ds : List Act}
    (h : Turns env recv s ds s') (hlen : s.icbuf.head.length = msgSize)
    (hid : toInt (ofBE (s.icbuf.head.take 4)) ≠ 0) : recv.length ≤ s.offset := by
  induction h with
  | stop hend => exact hend
  | @step s s₁ s₂ ds ds' hlt hturn _ ih =>
      have hfilled : filled recv s = s.icbuf.head := filled_of_eq hlen
      have hend : headEnd s = s.offset := by rw [headEnd, hlen, Nat.sub_self, Nat.add_zero]
      cases hturn with
      | short hshort => omega
      | direct client _ _ _ _ _ =>
          have := ih (hfilled ▸ hlen) (hfilled.symm ▸ hid)
          rwa [hend] at this
      | pending _ _ hid' => exact absurd (hfilled ▸ hid') hid
      | complete _ _ hid' => exact absurd (hfilled ▸ hid') hid

end Ndsl.Proofs.Multiplexer
