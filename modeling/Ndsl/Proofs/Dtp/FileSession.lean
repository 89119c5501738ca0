import Ndsl.Net.Session

/-!
# `Ndsl.Proofs.Dtp.FileSession`: the lifetime of a session that sends a file

`FileLifetimes` is what a session of `sendFile` owes to its objects: none of the record, the
listener and the connection is used or deleted after it was deleted, none is deleted twice, and
the timer does not delete the connection of a peer that has connected.

`acceptorCallback` deletes the listener, and `TcpAcceptor::handleRead`, which has called it, goes on
to read the listener's `cb_`. So no session in which a peer connects keeps this:
`fileLifetimes_iff` says that a run keeps it exactly when `accept` never gives a connection, and the
listener is not called in a batch in which the timer has fired before. `timer_reads_freed` follows
a session to its end, where the timer reads the record that `senfFileClearMemory` has deleted.
-/

set_option autoImplicit false

namespace Ndsl.Proofs.Dtp

open Ndsl.Lib
open Ndsl.Lib.Access
open Ndsl.Net Ndsl.Net.Dtp
open Ndsl.Net.Dtp.Session

/-! ### Accesses in a trace -/

/-- The accesses of a trace. -/
def accesses (log : List Event) : List (Access Object) :=
  log.filterMap fun
    | .access _ a => some a
    | _ => none

@[simp] theorem accesses_append (log es : List Event) :
    accesses (log ++ es) = accesses log ++ accesses es := List.filterMap_append

/-- A trace that ends with the use of an object that was deleted is not safe. -/
theorem not_safe_of_used {log : List Event} {func : Func} {o : Object}
    (hdeleted : o ∈ deleted (accesses log)) : ¬ Safe (accesses (log ++ [use func o])) := by
  intro h
  rw [accesses_append, safe_append] at h
  exact h.2.1 hdeleted

/-- What is safe was safe before. -/
theorem safe_of_append {log es : List Event} (h : Safe (accesses (log ++ es))) :
    Safe (accesses log) := by
  rw [accesses_append, safe_append] at h
  exact h.1

/-! ### The lifetimes -/

/-- What a session of `sendFile` owes to its objects. -/
structure FileLifetimes (log : List Event) : Prop where
  safe : Safe (accesses log)
  once : (deleted (accesses log)).Nodup
  kept : ∀ pre post, log = pre ++ .access .stopListen (.delete .conn) :: post → .accepted ∉ pre

/-- No peer connects, and the listener is not called behind the timer. -/
def Unconnected (s : Session) : FileAction → Prop
  | .handleRead accepted .. => accepted = none ∧ s.timer = true
  | _ => True

/-- The invariant of a session that nobody connects to: all that may happen is the timeout. -/
structure FileInv (log : List Event) (s : Session) : Prop where
  safe : Safe (accesses log)
  unaccepted : .accepted ∉ log
  inUse : s.inUse_ = true
  acceptor : s.acceptor_ = true
  conn : s.conn_ = true
  tasks : s.tasks = 0
  queue : s.conn.qSendfileInfo_ = []
  deleted_eq : deleted (accesses log) = if s.timer then [] else [.acceptor, .conn]

section Steps
variable {log es : List Event} {s s' : Session}

/-- The lifetimes of a session that nobody connects to. -/
theorem FileInv.lifetimes (h : FileInv log s) : FileLifetimes log := by
  refine ⟨h.safe, h.safe.nodup, ?_⟩
  rintro pre post rfl haccepted
  exact h.unaccepted (List.mem_append_left _ haccepted)

theorem FileInv.step (h : FileInv log s) {action : FileAction}
    (hpossible : s.FilePossible action) (hunconnected : Unconnected s action)
    (hstep : (s.fileStep action).Yields es s') : FileInv (log ++ es) s' := by
  cases action with
  | ready =>
      obtain ⟨rfl, rfl⟩ := (Traced.pure_yields ..).mp hstep
      rw [List.append_nil]
      exact ⟨h.safe, h.unaccepted, h.inUse, h.acceptor, h.conn, h.tasks, h.queue, h.deleted_eq⟩
  | handleRead accepted inFd length result =>
      -- no peer is there: the session is used, and waits on
      obtain ⟨rfl, htimer⟩ := hunconnected
      simp only [fileStep, Session.handleRead, h.inUse, if_true] at hstep
      obtain ⟨_, hpure, rfl⟩ := (Traced.tell_bind_yields ..).mp hstep
      obtain ⟨rfl, rfl⟩ := (Traced.pure_yields ..).mp hpure
      have hnone : deleted (accesses log) = [] := by rw [h.deleted_eq, htimer]; rfl
      refine ⟨?_, ?_, rfl, h.acceptor, h.conn, h.tasks, h.queue, ?_⟩
      · rw [accesses_append, safe_append, hnone]
        exact ⟨h.safe, List.not_mem_nil, trivial⟩
      · rw [List.append_nil, List.mem_append, List.mem_singleton, not_or]
        exact ⟨h.unaccepted, Event.noConfusion⟩
      · rw [accesses_append, deleted_append, hnone]
        show [] = if s.timer then _ else _
        rw [htimer]
        rfl
  | sendInLoop result => exact absurd h.queue hpossible
  | senfFileClearMemory =>
      have hpos : 0 < s.tasks := hpossible
      -- without a peer no task was given to the loop
      rw [h.tasks] at hpos
      exact absurd hpos (Nat.lt_irrefl 0)
  | stopListen =>
      have htimer : s.timer = true := hpossible
      -- nothing was deleted as long as the timer was armed
      have hnone : deleted (accesses log) = [] := by rw [h.deleted_eq, htimer]; rfl
      have heq : s.stopListen = ⟨[use .stopListen .mgr, .access .stopListen (.delete .acceptor),
          .access .stopListen (.delete .conn)],
          some { s with acceptorEnrolled := false, connEnrolled := false, timer := false }⟩ := by
        simp only [Session.stopListen, deleteAcceptor, deleteConn, h.acceptor, h.conn, if_true]
        rfl
      obtain ⟨hes, hs'⟩ := hstep
      rw [fileStep, heq] at hes hs'
      obtain rfl := hes
      obtain rfl := Option.some.inj hs'
      refine ⟨?_, ?_, h.inUse, h.acceptor, h.conn, h.tasks, h.queue, ?_⟩
      · rw [accesses_append, safe_append, hnone]
        refine ⟨h.safe, ?_, ?_, ?_, trivial⟩
        · exact List.not_mem_nil
        · exact List.not_mem_nil
        · decide
      · rw [List.mem_append, not_or]
        exact ⟨h.unaccepted, by simp [Session.use]⟩
      · rw [accesses_append, deleted_append, hnone]
        rfl

/-- The callback of the listener deletes the listener. -/
theorem acceptorCallback_deletes {inFd : Int} {length : Option Nat} {result : Tcp.IoResult}
    (hacceptor : s.acceptor_ = true) (h : (s.acceptorCallback inFd length result).Yields es s') :
    .access .acceptorCallback (.delete .acceptor) ∈ es := by
  simp only [acceptorCallback, deleteAcceptor, hacceptor, if_true] at h
  obtain ⟨_, hthen, rfl⟩ := (Traced.tell_bind_yields ..).mp h
  obtain ⟨fs, _, gs, hdelete, -, rfl⟩ := Traced.bind_yields.mp hthen
  obtain ⟨_, -, rfl⟩ := (Traced.tell_bind_yields ..).mp hdelete
  simp

/-- A step that connects the peer, or that calls the listener behind the timer, uses the listener
after it was deleted. -/
theorem FileInv.not_safe (h : FileInv log s) {action : FileAction}
    (hnot : ¬ Unconnected s action) (hstep : (s.fileStep action).Yields es s') :
    ¬ Safe (accesses (log ++ es)) := by
  cases action with
  | handleRead accepted inFd length result =>
      simp only [fileStep, Session.handleRead, h.inUse, if_true] at hstep
      obtain ⟨fs, hrest, rfl⟩ := (Traced.tell_bind_yields ..).mp hstep
      by_cases htimer : s.timer = true
      · cases accepted with
        | none => exact absurd ⟨rfl, htimer⟩ hnot
        | some channel =>
            -- the callback deletes the listener, and then its `cb_` is read
            obtain ⟨gs, hthen, rfl⟩ := (Traced.tell_bind_yields ..).mp hrest
            obtain ⟨ks, t, ls, hcallback, hlast, rfl⟩ := Traced.bind_yields.mp hthen
            obtain ⟨_, hpure, rfl⟩ := (Traced.tell_bind_yields ..).mp hlast
            obtain ⟨rfl, rfl⟩ := (Traced.pure_yields ..).mp hpure
            have hdeleted : Event.access .acceptorCallback (.delete .acceptor) ∈ ks := by
              refine acceptorCallback_deletes ?_ hcallback
              exact h.acceptor
            have hmem : Object.acceptor ∈ deleted (accesses ks) :=
              List.mem_filterMap.mpr ⟨_, List.mem_filterMap.mpr ⟨_, hdeleted, rfl⟩, rfl⟩
            have hsplit : log ++ ([use .handleRead .acceptor] ++
                ([.accepted, use .handleRead .conn, use .handleRead .acceptor] ++
                  (ks ++ ([use .handleRead .acceptor] ++ [])))) =
                (log ++ [use .handleRead .acceptor] ++
                  [.accepted, use .handleRead .conn, use .handleRead .acceptor] ++ ks) ++
                  [use .handleRead .acceptor] := by
              simp only [List.append_assoc, List.append_nil]
            rw [hsplit]
            refine not_safe_of_used ?_
            rw [accesses_append, deleted_append]
            exact List.mem_append_right _ hmem
      · have hdeleted : Object.acceptor ∈ deleted (accesses log) := by
          rw [h.deleted_eq, if_neg htimer]
          exact List.mem_cons_self ..
        intro hsafe
        rw [← List.append_assoc] at hsafe
        exact not_safe_of_used hdeleted (safe_of_append hsafe)
  | ready => exact absurd trivial hnot
  | sendInLoop result => exact absurd trivial hnot
  | senfFileClearMemory => exact absurd trivial hnot
  | stopListen => exact absurd trivial hnot

end Steps

/-! ### Whole runs -/

theorem fileInv_init : FileInv [] {} := by
  refine ⟨safe_nil, List.not_mem_nil, rfl, rfl, rfl, rfl, rfl, rfl⟩

/-- A session that nobody connects to. -/
theorem fileInv_run {actions : List FileAction} {log : List Event} {s : Session}
    (hrun : Traced.Run fileStep (fun s action => s.FilePossible action ∧ Unconnected s action) {}
      actions log s) : FileInv log s := by
  refine hrun.invariant (P := fun _ log s => FileInv log s) fileInv_init ?_
  intro l log s action es s' h hok hstep
  exact h.step hok.1 hok.2 hstep

/-- A session of `sendFile` is good to its objects exactly when every call of the listener finds
no peer, and comes before the timer fires. -/
theorem fileLifetimes_iff {actions : List FileAction} {log : List Event} {s : Session}
    (hrun : Traced.Run fileStep FilePossible {} actions log s) :
    FileLifetimes log ↔ Traced.Run fileStep
      (fun s action => s.FilePossible action ∧ Unconnected s action) {} actions log s := by
  constructor
  · intro h
    suffices hall : Safe (accesses log) → Traced.Run fileStep
        (fun s action => s.FilePossible action ∧ Unconnected s action) {} actions log s by
      exact hall h.safe
    clear h
    induction hrun with
    | nil => exact fun _ => .nil
    | snoc _ hpossible hstep ih =>
        intro hsafe
        have hbefore := ih (safe_of_append hsafe)
        refine .snoc hbefore ⟨hpossible, ?_⟩ hstep
        by_contra hnot
        exact (fileInv_run hbefore).not_safe hnot hstep hsafe
  · intro h
    exact (fileInv_run h).lifetimes

/-- A connection attempt that fails, and then the timeout. -/
theorem fileLifetimes_iff_timeout :
    ∃ log s, Traced.Run fileStep FilePossible {}
      [.ready, .handleRead none 3 (some 5) (.count 5), .stopListen] log s ∧
      FileLifetimes log := by
  have hrun : ∃ log s, Traced.Run fileStep
      (fun s action => s.FilePossible action ∧ Unconnected s action) {}
      [.ready, .handleRead none 3 (some 5) (.count 5), .stopListen] log s := by
    refine ⟨_, _, .snoc (.snoc (.snoc (l := []) .nil ?ready ⟨rfl, rfl⟩) ?read ⟨rfl, rfl⟩) ?stop
      ⟨rfl, rfl⟩⟩
    case ready => exact ⟨rfl, trivial⟩
    case read => exact ⟨⟨rfl, fun _ h => absurd h.symm (Option.some_ne_none _)⟩, rfl, rfl⟩
    case stop => exact ⟨rfl, trivial⟩
  obtain ⟨log, s, hrun⟩ := hrun
  have hpossible : Traced.Run fileStep FilePossible {} _ log s := hrun.mono fun _ _ h => h.1
  exact ⟨log, s, hpossible, (fileLifetimes_iff hpossible).mpr hrun⟩

/-- A file that is sent at once. The listener is read after it was deleted, and the timer then
reads the record, which is gone as well. -/
theorem timer_reads_freed :
    ∃ log s, Traced.Run fileStep FilePossible {}
      [.ready, .handleRead (some { fd := 7 }) 3 (some 5) (.count 5), .senfFileClearMemory,
        .stopListen] log s ∧
      log.getLast? = some (use .stopListen .mgr) ∧ .mgr ∈ deleted (accesses log) ∧
      ¬ FileLifetimes log := by
  refine ⟨_, _, .snoc (.snoc (.snoc (.snoc (l := []) .nil ?ready ⟨rfl, rfl⟩) ?read ⟨rfl, rfl⟩)
    ?clear ⟨rfl, rfl⟩) ?stop ⟨rfl, rfl⟩, ?last, ?deleted, ?lost⟩
  case ready => rfl
  case read =>
    refine ⟨rfl, ?_⟩
    rintro _ ⟨rfl⟩
    decide
  case clear => exact Nat.zero_lt_one
  case stop => rfl
  case last => rfl
  case deleted => decide
  case lost =>
    intro h
    have hlast := h.safe (List.dropLast _) _ [] (List.dropLast_append_getLast (by decide)).symm
    exact absurd hlast (by decide)

end Ndsl.Proofs.Dtp
