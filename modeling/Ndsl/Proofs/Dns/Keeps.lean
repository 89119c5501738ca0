import Ndsl.Proofs.Dns.Walk

/-!
# `Ndsl.Proofs.Dns.Keeps`: what `handle_read` leaves alone

`handle_read` takes entries out of the table and gives addresses to their tasks. It puts nothing
into the table, it changes no id, and it sends nothing (`handleRead_keeps`).
-/

set_option autoImplicit false

namespace Ndsl.Proofs.Dns

open Ndsl.Lib
open Ndsl.Net Ndsl.Net.Dns

/-- The table of `t` is a part of that of `s`, and the ids are the same. -/
structure Keeps (s t : Dns) : Prop where
  bucket : ∀ i, (t.bucket_ i).Sublist (s.bucket_ i)
  query_id : ∀ task, (t.tasks task).query_id = (s.tasks task).query_id
  current : t.current_ = s.current_

/-- An event of `handle_read` behind a `recv`. -/
def IsAnswer : Event → Prop
  | .recv _ => False
  | .put _ _ => False
  | .send _ _ _ => False
  | _ => True

section Keeps
variable {s t u : Dns}

theorem Keeps.refl (s : Dns) : Keeps s s := ⟨fun _ => List.Sublist.refl _, fun _ => rfl, rfl⟩

theorem Keeps.trans (h : Keeps s t) (h' : Keeps t u) : Keeps s u where
  bucket i := (h'.bucket i).trans (h.bucket i)
  query_id task := (h'.query_id task).trans (h.query_id task)
  current := h'.current.trans h.current

/-- Another buffer. -/
theorem Keeps.buffer (h : Keeps s t) (buf : Buffer) : Keeps s { t with buffer_ := buf } :=
  ⟨h.bucket, h.query_id, h.current⟩

theorem isAnswer_of_isWalk {e : Event} (h : IsWalk e) : IsAnswer e := by
  cases e with
  | recv datagram => exact h
  | put pos n => exact h
  | send task packet error => exact h
  | _ => trivial

/-- An address does not change whose request it is. -/
theorem query_id_pushBack (s : Dns) (dtask : Nat) (addr : List UInt8) (task : Nat) :
    ((s.pushBack dtask addr).tasks task).query_id = (s.tasks task).query_id := by
  show (Function.update s.tasks dtask _ task).query_id = _
  by_cases heq : task = dtask
  · rw [heq, Function.update_self]
  · rw [Function.update_of_ne heq]

theorem pushBack_keeps (s : Dns) (dtask : Nat) (addr : List UInt8) :
    Keeps s (s.pushBack dtask addr) :=
  ⟨fun _ => List.Sublist.refl _, query_id_pushBack s dtask addr, rfl⟩

/-- `find_query` takes one entry out, or none. -/
theorem findQuery_keeps (id : UInt16) (s : Dns) : Keeps s (s.findQuery id).2 := by
  rcases findQuery_cases id s with ⟨hnone, -⟩ | ⟨pre, be, post, hsplit, -, hfound⟩
  · rw [hnone]
    exact .refl s
  · rw [hfound]
    refine ⟨fun i => ?_, fun _ => rfl, rfl⟩
    show (Function.update s.bucket_ _ (pre ++ post) i).Sublist _
    by_cases hi : i = id.toNat % DNS_BUCKET_SIZE
    · rw [hi, Function.update_self, hsplit]
      exact (List.sublist_cons_self be post).append_left pre
    · rw [Function.update_of_ne hi]

theorem load_keeps (pos : Int) (n : Nat) (s : Dns) :
    (s.load pos n).Ensures IsAnswer fun _ => True :=
  ⟨by rw [log_load]; exact List.forall_mem_singleton.mpr trivial, fun _ _ => trivial⟩

theorem ntohs_keeps (pos : Int) (s : Dns) : (s.ntohs pos).Ensures IsAnswer fun _ => True :=
  (load_keeps pos 2 s).bind fun _ _ => .pure trivial

theorem headId_keeps (s : Dns) : s.headId.Ensures IsAnswer fun _ => True :=
  (load_keeps 0 2 s).bind fun _ _ => .pure trivial

/-- A name may be changed in the buffer. -/
theorem skipName_keeps (p : Int) (s : Dns) :
    (s.skipName p).Ensures IsAnswer fun x => Keeps s x.2 := by
  refine (load_keeps p 1 s).bind fun c _ => ?_
  split
  · exact .tell_bind (by simp [IsAnswer]) (.pure ((Keeps.refl s).buffer _))
  · have hlabels : (s.skipLabels BUFFER_SIZE p).Ensures IsAnswer fun _ => True :=
      ⟨fun e he => isAnswer_of_isWalk (skipLabels_isWalk s BUFFER_SIZE p e he), fun _ _ => trivial⟩
    exact hlabels.bind fun q _ => .tell_bind (by simp [IsAnswer]) (.pure (.refl s))

theorem skipQuestions_keeps (quests : Nat) : ∀ (p : Int) (s : Dns),
    (s.skipQuestions quests p).Ensures IsAnswer fun x => Keeps s x.2 := by
  induction quests with
  | zero => exact fun p s => .pure (.refl s)
  | succ quests ih =>
      intro p s
      refine (skipName_keeps p s).bind fun x hx => .tell_bind (by simp [IsAnswer]) ?_
      exact (ih (x.1 + sizeofPacketTail) x.2).mono (fun _ he => he) fun _ ht => hx.trans ht

theorem takeAddress_keeps (id : UInt16) (last : Bool) (data : Int) (s : Dns) :
    (s.takeAddress id last data).Ensures IsAnswer fun x => Keeps s x.2 := by
  have hfind := findQuery_keeps id s
  unfold takeAddress
  split
  · next heq =>
    rw [heq] at hfind
    exact .pure hfind
  · next dtask t heq =>
    rw [heq] at hfind
    refine (load_keeps data 4 t).bind fun addr _ => ?_
    have hpush := hfind.trans (pushBack_keeps t dtask addr)
    split
    · exact .tell_bind (by simp [IsAnswer]) (.pure hpush)
    · exact .pure hpush

/-- The steps of the walk over an answer. -/
theorem walkAnswers_succ (s : Dns) (id : UInt16) (answers : Nat) (p : Int) :
    s.walkAnswers id (answers + 1) p = s.skipName p >>= fun x => x.2.ntohs x.1 >>= fun type =>
      .tell [.move x.1 (x.1 + 2), .move (x.1 + 2) (x.1 + 4), .move (x.1 + 4) (x.1 + 8)] >>=
        fun _ => x.2.ntohs (x.1 + 8) >>= fun dlen =>
          .tell [.move (x.1 + 8) (x.1 + 10), .answer p x.1 (toShort type) (toShort dlen)] >>=
            fun _ => withFields id answers (toShort type) (toShort dlen) (x.1 + 10) x.2 := rfl

theorem withFields_keeps {id : UInt16} {answers : Nat}
    (hwalk : ∀ (p : Int) (s : Dns),
      (s.walkAnswers id answers p).Ensures IsAnswer fun x => Keeps s x.2)
    (type dlen data : Int) (s : Dns) :
    (withFields id answers type dlen data s).Ensures IsAnswer fun x => Keeps s x.2 := by
  have hrest : ∀ x : Bool × Dns, Keeps s x.2 → Traced.Ensures IsAnswer (fun y => Keeps s y.2)
      (if x.1 then pure (true, x.2) else do
        .tell [.move data (data + dlen)]
        x.2.walkAnswers id answers (data + dlen)) := by
    intro x hx
    split
    · exact .pure hx
    · refine .tell_bind (by simp [IsAnswer]) ?_
      exact (hwalk _ x.2).mono (fun _ he => he) fun _ ht => hx.trans ht
  unfold withFields
  split
  · exact (takeAddress_keeps id _ data s).bind hrest
  · exact hrest (false, s) (.refl s)

theorem walkAnswers_keeps (id : UInt16) (answers : Nat) : ∀ (p : Int) (s : Dns),
    (s.walkAnswers id answers p).Ensures IsAnswer fun x => Keeps s x.2 := by
  induction answers with
  | zero => exact fun p s => .pure (.refl s)
  | succ answers ih =>
      intro p s
      rw [walkAnswers_succ]
      refine (skipName_keeps p s).bind fun x hx => (ntohs_keeps x.1 x.2).bind fun type _ => ?_
      refine .tell_bind (by simp [IsAnswer]) ((ntohs_keeps (x.1 + 8) x.2).bind fun dlen _ => ?_)
      refine .tell_bind (by simp [IsAnswer]) ?_
      exact (withFields_keeps ih _ _ _ x.2).mono (fun _ he => he) fun _ ht => hx.trans ht

/-- What is done for a datagram. -/
theorem response_keeps (s : Dns) : s.response.Ensures IsAnswer fun x => Keeps s x.2 := by
  refine (ntohs_keeps 2 s).bind fun flags _ => ?_
  split
  · exact .pure (.refl s)
  · refine (ntohs_keeps 6 s).bind fun answers _ => (ntohs_keeps 4 s).bind fun quests _ => ?_
    refine (headId_keeps s).bind fun id _ => ?_
    refine (skipQuestions_keeps quests _ s).bind fun x hx => ?_
    exact (walkAnswers_keeps id answers x.1 x.2).mono (fun _ he => he) fun _ ht => hx.trans ht

/-- A call of `handle_read`. -/
theorem handleRead_keeps (datagrams : List (List UInt8)) : ∀ s : Dns,
    (s.handleRead datagrams).Ensures (fun e => IsAnswer e ∨ ∃ datagram, e = .recv datagram)
      fun x => Keeps s x.2 := by
  induction datagrams with
  | nil =>
      intro s
      exact .tell_bind (List.forall_mem_singleton.mpr (.inr ⟨none, rfl⟩)) (.pure (.refl s))
  | cons datagram datagrams ih =>
      intro s
      refine .tell_bind (List.forall_mem_singleton.mpr (.inr ⟨some datagram, rfl⟩)) ?_
      have hresponse : (response { s with buffer_ := s.buffer_.recv datagram }).Ensures
          (fun e => IsAnswer e ∨ ∃ datagram, e = .recv datagram) fun x => Keeps s x.2 :=
        (response_keeps _).mono (fun _ he => .inl he) fun _ ht => ((Keeps.refl s).buffer _).trans ht
      refine hresponse.bind fun x hx => ?_
      obtain ⟨retry, t⟩ := x
      cases retry with
      | true => exact (ih t).mono (fun _ he => he) fun _ ht => hx.trans ht
      | false => exact .pure hx

end Keeps

end Ndsl.Proofs.Dns
