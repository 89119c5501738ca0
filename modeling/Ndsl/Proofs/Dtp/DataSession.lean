import Mathlib.Data.List.Basic
import Ndsl.Net.Session
import Ndsl.Proofs.TcpConnection.SendStream

/-!
# `Ndsl.Proofs.Dtp.DataSession`: the lifetime of a session that sends a data block

`DataLifetimes` is what a session of `sendData` owes to its objects and to its user: `onSend`,
`handleWrite`, `sendDataCallback` and `stopListenOfData` leave the connection and the listener
alone once they are deleted, and delete each at most once; the timer deletes nothing of a session
whose peer has connected; and the success is reported once, when the kernel has accepted the last
byte, and not before it has accepted all of them.

The record tells a session that waits from one that sends by a pointer which is cleared only at
the end, and `sendDataCallback` deletes the connection under the `handleWrite` that calls it.
`dataLifetimes_iff` says which steps must not happen for a run to keep its word: a `handleWrite`
that takes the last byte, a timeout between the connection and the last byte, and a connection that
is accepted behind the timeout. `session_torn_down` shows the first two.
-/

set_option autoImplicit false

namespace Ndsl.Proofs.Dtp

open Ndsl.Lib
open Ndsl.Lib.Access
open Ndsl.Net Ndsl.Net.Dtp
open Ndsl.Net.Dtp.Session
open Ndsl.Net.Tcp (IoResult TcpChannel TcpConnection Info)

/-! ### The lifetimes -/

/-- The functions that are to leave deleted objects alone. -/
def watched : Func → Bool
  | .onSend => true
  | .handleWrite => true
  | .sendDataCallback => true
  | .stopListenOfData => true
  | _ => false

/-- The accesses of these functions to the connection and the listener, and all deletions. -/
def watchedAccesses (log : List Event) : List (Access Object) :=
  log.filterMap fun
    | .access func (.use o) =>
      if watched func ∧ (o = .conn ∨ o = .acceptor) then some (.use o) else none
    | .access _ (.delete o) => some (.delete o)
    | _ => none

/-- What the data connection did. -/
def connActs (log : List Event) : List Tcp.Act :=
  log.filterMap fun
    | .conn act => some act
    | _ => none

/-- The notice that the data was sent. -/
def report : Event := .analysisProtobuf SENDDATASUCC

/-- A `send` of which the kernel accepts the last byte of the data. -/
def TakesLast (buffer_ : List UInt8) : Tcp.Act → Prop
  | .send _ pos _ _ (.count k) => (pos + k) % 2 ^ 64 = buffer_.length
  | _ => False

/-- The timer deletes nothing of a session whose peer has connected. -/
def Kept (log : List Event) : Prop :=
  ∀ pre post o, log = pre ++ .access .stopListenOfData (.delete o) :: post → .accepted ∉ pre

/-- What a session of `sendData` owes to its objects and to its user. -/
structure DataLifetimes (buffer_ : List UInt8) (log : List Event) : Prop where
  safe : Safe (watchedAccesses log)
  once : (deleted (watchedAccesses log)).Nodup
  kept : Kept log
  reportOnce : log.count report ≤ 1
  reportAll : ∀ pre post, log = pre ++ report :: post →
    Tcp.accepted (connActs pre) = buffer_.map some
  reportLast : (∃ act ∈ connActs log, TakesLast buffer_ act) → report ∈ log

/-- The steps that keep the word: a listener that is called behind the timeout gives no connection,
no `handleWrite` takes the last byte, and the timer does not fire between the connection and the
last byte. -/
def InTime (s : Session) : DataAction → Prop
  | .handleRead accepted _ => s.inUse_ = true → s.timer = false → accepted = none
  | .handleWrite result => ∀ tsi ∈ s.conn.qSendInfo_.head?, ∀ k, result = .count k → 0 < k →
    (tsi.offset_ + k) % 2 ^ 64 ≠ tsi.len_
  | .stopListenOfData => s.acceptor_ = true → s.inUse_ = true
  | _ => True

@[simp] theorem watchedAccesses_append (log es : List Event) :
    watchedAccesses (log ++ es) = watchedAccesses log ++ watchedAccesses es :=
  List.filterMap_append

@[simp] theorem connActs_append (log es : List Event) :
    connActs (log ++ es) = connActs log ++ connActs es := List.filterMap_append

/-! ### The connection's part -/

/-- An entry of the send queue that still has to send. -/
structure Entry (buffer_ : List UInt8) (tsi : Info) : Prop where
  len : tsi.len_ = buffer_.length
  cb : tsi.cb_ = some 0
  offset : tsi.offset_ < 2 ^ 64
  rest : tsi.offset_ ≠ tsi.len_

section Connection
variable {buffer_ : List UInt8} {n : IoResult} {conn : TcpConnection} {channel : TcpChannel}
  {s : Session}

/-- A call of the connection, by what the connection does. -/
theorem onConn_eq {x : Traced Tcp.Act (Int × TcpConnection)} {acts : List Tcp.Act} {ret : Int}
    {cb : Session → Traced Event Session} (hx : x.Yields acts (ret, conn)) :
    s.onConn x cb = Traced.tell (acts.map .conn) >>= fun _ =>
      if onConn.completes acts then cb { s with conn := conn }
      else pure { s with conn := conn } := by
  unfold onConn
  rw [hx.2, hx.1]

/-- The handler of an error calls no callback and sends nothing. -/
theorem onErrno_quiet (buffer_ : List UInt8) (channel : TcpChannel) (errno : Int) :
    ∃ acts, (channel.onErrno errno).Yields acts () ∧ onConn.completes acts = false ∧
      ∀ act ∈ acts, ¬ TakesLast buffer_ act := by
  unfold TcpChannel.onErrno
  cases channel.errorHandle_ with
  | none => exact ⟨_, ⟨rfl, rfl⟩, rfl, fun _ h => absurd h List.not_mem_nil⟩
  | some handler =>
      refine ⟨_, ⟨rfl, rfl⟩, rfl, fun act hact => ?_⟩
      rw [List.mem_singleton.mp hact]
      exact id

/-- `onSend` sends everything at once, or does not take the last byte and leaves at most an entry
that has to go on. -/
theorem onSend_cases (hchannel : conn.pTcpChannel_ = some channel)
    (hlength : buffer_.length < 2 ^ 31) (hgives : Gives buffer_.length n) :
    (n = .count buffer_.length ∧ (Tcp.onSend (message buffer_) n conn).Yields
      [.send buffer_ 0 buffer_.length (0 ||| Tcp.MSG_NOSIGNAL) n, .callback 0 0] (S_OK, conn)) ∨
    (n ≠ .count buffer_.length ∧ ∃ acts ret conn',
      (Tcp.onSend (message buffer_) n conn).Yields acts (ret, conn') ∧
      onConn.completes acts = false ∧ (∀ act ∈ acts, ¬ TakesLast buffer_ act) ∧
      conn'.pTcpChannel_ = some channel ∧
      (conn'.qSendInfo_ = conn.qSendInfo_ ∨
        ∃ tsi, Entry buffer_ tsi ∧ conn'.qSendInfo_ = conn.qSendInfo_ ++ [tsi])) := by
  cases n with
  | fail errno =>
      -- what is done about an error has no report, and the last byte was not taken
      right
      refine ⟨IoResult.noConfusion, ?_⟩
      by_cases hagain : errno ≠ Tcp.EAGAIN ∧ errno ≠ Tcp.EWOULDBLOCK
      · obtain ⟨es, hes, hcompletes, htakes⟩ := onErrno_quiet buffer_ channel errno
        refine ⟨.send buffer_ 0 buffer_.length (0 ||| Tcp.MSG_NOSIGNAL) (.fail errno) :: es,
          S_FALSE,
          conn, ?_, hcompletes, ?_, hchannel, .inl rfl⟩
        · simp only [Tcp.onSend, hchannel, if_pos hagain]
          refine (Traced.tell_bind_yields ..).mpr ⟨es, ?_, rfl⟩
          exact Traced.bind_yields.mpr ⟨es, (), [], hes, ⟨rfl, rfl⟩, (List.append_nil _).symm⟩
        · intro act hact
          rcases List.mem_cons.mp hact with rfl | hact
          · exact id
          · exact htakes act hact
      · refine ⟨[.send buffer_ 0 buffer_.length (0 ||| Tcp.MSG_NOSIGNAL) (.fail errno)], S_OK,
          Tcp.onSend.queue (message buffer_) (.fail errno) conn, ?_, rfl, ?_, hchannel,
          .inr ⟨_, ?_, rfl⟩⟩
        · simp only [Tcp.onSend, hchannel, if_neg hagain]
          exact ⟨rfl, rfl⟩
        · intro act hact
          rw [List.mem_singleton.mp hact]
          exact id
        · -- `-1` became the greatest `size_t`, which is no length
          have hmax : toSize (-1) = 2 ^ 64 - 1 := by decide
          refine ⟨rfl, rfl, ?_, ?_⟩
          · show toSize (-1) < 2 ^ 64
            omega
          · show toSize (-1) ≠ buffer_.length
            omega
  | count k =>
      by_cases hk : k = buffer_.length
      · -- everything at once, and the callback follows
        subst hk
        refine .inl ⟨rfl, ?_⟩
        simp only [Tcp.onSend, hchannel, message, if_true]
        exact ⟨rfl, rfl⟩
      · -- a part of it: the rest is queued with the count as its offset
        have hle : k ≤ buffer_.length := hgives.1
        refine .inr ⟨fun h => hk (IoResult.count.inj h),
          [.send buffer_ 0 buffer_.length (0 ||| Tcp.MSG_NOSIGNAL) (.count k)], S_OK,
          Tcp.onSend.queue (message buffer_) (.count k) conn, ?_, rfl, ?_, hchannel,
          .inr ⟨_, ?_, rfl⟩⟩
        · have hne : ¬ k = (message buffer_).buf.length := hk
          simp only [Tcp.onSend, hchannel, if_neg hne]
          exact ⟨rfl, rfl⟩
        · intro act hact
          rw [List.mem_singleton.mp hact]
          show (0 + k) % 2 ^ 64 ≠ buffer_.length
          omega
        · have hsize : toSize (k : Int) = k := by
            rw [toSize_of_nonneg (by omega) (by omega), Int.toNat_natCast]
          refine ⟨rfl, rfl, ?_, ?_⟩
          · show toSize (k : Int) < 2 ^ 64
            omega
          · show toSize (k : Int) ≠ buffer_.length
            omega

/-- `handleWrite` with an entry that has to go on: it takes the last byte, or leaves at most such
an entry. -/
theorem handleWrite_cases {tsi : Info} (hchannel : conn.pTcpChannel_ = some channel)
    (hfd : 0 < channel.fd) (hqueue : conn.qSendInfo_ = [tsi]) (hentry : Entry buffer_ tsi) :
    ((∃ k, n = .count k ∧ 0 < k ∧ (tsi.offset_ + k) % 2 ^ 64 = tsi.len_) ∧
      (Tcp.handleWrite n conn).Yields
        [.send tsi.sendBuf_ tsi.offset_ tsi.rest tsi.flags_ n, .callback 0 tsi.param_]
        (S_OK, { conn with qSendInfo_ := [] })) ∨
    ((¬ ∃ k, n = .count k ∧ 0 < k ∧ (tsi.offset_ + k) % 2 ^ 64 = tsi.len_) ∧
      ∃ acts ret conn', (Tcp.handleWrite n conn).Yields acts (ret, conn') ∧
      onConn.completes acts = false ∧ (∀ act ∈ acts, ¬ TakesLast buffer_ act) ∧
      conn'.pTcpChannel_ = some channel ∧
      (conn'.qSendInfo_ = [] ∨ ∃ tsi, Entry buffer_ tsi ∧ conn'.qSendInfo_ = [tsi])) := by
  have hopen : ¬ channel.fd < 0 := by omega
  cases n with
  | fail errno =>
      -- the entry is dropped, without a callback
      right
      obtain ⟨es, hes, hcompletes, htakes⟩ := onErrno_quiet buffer_ channel errno
      have hfail : ¬ ∃ k, IoResult.fail errno = .count k ∧ 0 < k ∧
          (tsi.offset_ + k) % 2 ^ 64 = tsi.len_ := by
        rintro ⟨k, heq, -⟩
        cases heq
      refine ⟨hfail, .send tsi.sendBuf_ tsi.offset_ tsi.rest tsi.flags_ (.fail errno) :: es,
        S_FALSE,
        { conn with qSendInfo_ := [] }, ?_, hcompletes, ?_, hchannel, .inl rfl⟩
      · simp only [Tcp.handleWrite, hchannel, hqueue, if_neg hopen]
        refine (Traced.tell_bind_yields ..).mpr ⟨es, ?_, rfl⟩
        exact Traced.bind_yields.mpr ⟨es, (), [], hes, ⟨rfl, rfl⟩, (List.append_nil _).symm⟩
      · intro act hact
        rcases List.mem_cons.mp hact with rfl | hact
        · exact id
        · exact htakes act hact
  | count k =>
      by_cases hk : 0 < k
      · by_cases hlast : (tsi.offset_ + k) % 2 ^ 64 = tsi.len_
        · -- the last byte: the entry is dropped, and its callback follows
          refine .inl ⟨⟨k, rfl, hk, hlast⟩, ?_⟩
          simp only [Tcp.handleWrite, hchannel, hqueue, if_neg hopen, if_pos hk, if_pos hlast,
            hentry.cb]
          exact ⟨rfl, rfl⟩
        · -- a part of the rest, and the entry stays with its new offset
          right
          have hmore : ¬ ∃ k', IoResult.count k = .count k' ∧ 0 < k' ∧
              (tsi.offset_ + k') % 2 ^ 64 = tsi.len_ := by
            rintro ⟨k', heq, -, hlast'⟩
            cases heq
            exact hlast hlast'
          refine ⟨hmore, [.send tsi.sendBuf_ tsi.offset_ tsi.rest tsi.flags_ (.count k)], S_OK,
            { conn with qSendInfo_ := [{ tsi with offset_ := (tsi.offset_ + k) % 2 ^ 64 }] }, ?_,
            rfl, ?_, hchannel, .inr ⟨_, ?_, rfl⟩⟩
          · simp only [Tcp.handleWrite, hchannel, hqueue, if_neg hopen, if_pos hk, if_neg hlast]
            exact ⟨rfl, rfl⟩
          · intro act hact
            rw [List.mem_singleton.mp hact]
            show (tsi.offset_ + k) % 2 ^ 64 ≠ buffer_.length
            rw [← hentry.len]
            exact hlast
          · exact ⟨hentry.len, hentry.cb, Nat.mod_lt _ (by decide), hlast⟩
      · -- a count of zero is no progress
        right
        obtain rfl : k = 0 := by omega
        have hnone : ¬ ∃ k', IoResult.count 0 = .count k' ∧ 0 < k' ∧
            (tsi.offset_ + k') % 2 ^ 64 = tsi.len_ := by
          rintro ⟨k', heq, hpos, -⟩
          cases heq
          exact hk hpos
        refine ⟨hnone, [.send tsi.sendBuf_ tsi.offset_ tsi.rest tsi.flags_ (.count 0)], S_OK, conn,
          ?_, rfl, ?_,
          hchannel, .inr ⟨tsi, hentry, hqueue⟩⟩
        · simp only [Tcp.handleWrite, hchannel, hqueue, if_neg hopen, if_neg hk]
          exact ⟨rfl, rfl⟩
        · intro act hact
          rw [List.mem_singleton.mp hact]
          show (tsi.offset_ + 0) % 2 ^ 64 ≠ buffer_.length
          have hrest := hentry.rest
          have hoffset := hentry.offset
          rw [hentry.len] at hrest
          omega

/-- `handleWrite` with an empty queue does nothing. -/
theorem handleWrite_nil (hqueue : conn.qSendInfo_ = []) :
    (Tcp.handleWrite n conn).Yields [] (S_OK, conn) := by
  simp only [Tcp.handleWrite, hqueue]
  exact ⟨rfl, rfl⟩

end Connection

/-! ### Traces -/

section Traces
variable {log es : List Event} {e : Event}

/-- What holds before an event in a trace holds when other events follow. -/
theorem before_append {P : List Event → Prop} (h : ∀ pre post, log = pre ++ e :: post → P pre)
    (hes : e ∉ es) : ∀ pre post, log ++ es = pre ++ e :: post → P pre := by
  intro pre post heq
  rcases List.append_eq_append_iff.mp heq with ⟨rest, -, hrest⟩ | ⟨rest, hrest, htail⟩
  · rw [hrest] at hes
    exact absurd (List.mem_append_right _ (List.mem_cons_self ..)) hes
  · cases rest with
    | nil =>
        rw [List.nil_append] at htail
        rw [← htail] at hes
        exact absurd (List.mem_cons_self ..) hes
    | cons e' rest =>
        obtain ⟨rfl, -⟩ := List.cons.inj htail
        exact h pre rest hrest

end Traces

/-! ### The invariant -/

/-- Where a session stands.

- `waiting`: no peer has connected; the timer may have fired;
- `sending`: a peer has connected, and the last byte has not been taken;
- `sent`: `onSend` has sent everything. -/
inductive Phase (buffer_ : List UInt8) (log : List Event) (s : Session) : Prop
  | waiting (haccepted : .accepted ∉ log) (hacts : connActs log = []) (hreport : report ∉ log)
      (hinUse : s.inUse_ = true) (hacceptor : s.acceptor_ = true) (hconn : s.conn_ = true)
      (henrolled : s.connEnrolled = false) (hready : s.connReady = false)
      (hqueue : s.conn.qSendInfo_ = [])
      (hdeleted : deleted (watchedAccesses log) = if s.timer then [] else [.acceptor, .conn])
  | sending (channel : TcpChannel) (haccepted : .accepted ∈ log)
      (hacts : ∀ act ∈ connActs log, ¬ TakesLast buffer_ act) (hreport : report ∉ log)
      (hinUse : s.inUse_ = false) (hacceptor : s.acceptor_ = true) (hconn : s.conn_ = true)
      (hchannel : s.conn.pTcpChannel_ = some channel) (hfd : 0 < channel.fd)
      (hqueue : s.conn.qSendInfo_ = [] ∨ ∃ tsi, Entry buffer_ tsi ∧ s.conn.qSendInfo_ = [tsi])
      (hdeleted : deleted (watchedAccesses log) = [])
  | sent (hinUse : s.inUse_ = false) (hacceptor : s.acceptor_ = false)
      (henrolled : s.connEnrolled = false) (hready : s.connReady = false)
      (hreport : log.count report = 1)
      (hall : ∀ pre post, log = pre ++ report :: post →
        Tcp.accepted (connActs pre) = buffer_.map some)

/-- The invariant of a run that keeps its word. -/
structure DataInv (buffer_ : List UInt8) (log : List Event) (s : Session) : Prop where
  safe : Safe (watchedAccesses log)
  kept : Kept log
  phase : Phase buffer_ log s

section Steps
variable {buffer_ : List UInt8} {log es : List Event} {s s' : Session}

/-- The invariant is the word that was given. -/
theorem DataInv.lifetimes (h : DataInv buffer_ log s) : DataLifetimes buffer_ log := by
  have hnone : report ∉ log → log.count report ≤ 1 ∧ ∀ pre post, log = pre ++ report :: post →
      Tcp.accepted (connActs pre) = buffer_.map some := by
    intro hreport
    refine ⟨by rw [List.count_eq_zero.mpr hreport]; omega, ?_⟩
    rintro pre post rfl
    exact absurd (List.mem_append_right _ (List.mem_cons_self ..)) hreport
  cases h.phase with
  | waiting _ hacts hreport =>
      refine ⟨h.safe, h.safe.nodup, h.kept, (hnone hreport).1, (hnone hreport).2, ?_⟩
      rintro ⟨act, hact, -⟩
      rw [hacts] at hact
      exact absurd hact List.not_mem_nil
  | sending channel _ hacts hreport =>
      refine ⟨h.safe, h.safe.nodup, h.kept, (hnone hreport).1, (hnone hreport).2, ?_⟩
      rintro ⟨act, hact, hlast⟩
      exact absurd hlast (hacts act hact)
  | sent _ _ _ _ hreport hall =>
      refine ⟨h.safe, h.safe.nodup, h.kept, Nat.le_of_eq hreport, hall, fun _ => ?_⟩
      exact List.count_pos_iff.mp (by omega)

/-- What `sendDataCallback` does behind the report. -/
def clearing : List Event :=
  [Session.use .sendDataCallback .mgr, .access .sendDataCallback (.delete .conn),
    .access .sendDataCallback (.delete .acceptor)]

/-- The end of a session, called while nothing has been deleted. -/
theorem sendDataCallback_yields (hacceptor : s.acceptor_ = true) (hconn : s.conn_ = true) :
    s.sendDataCallback.Yields
      ([Session.use .sendDataCallback .mgr, Session.use .sendDataCallback .client] ++
        report :: clearing)
      { s with
        acceptor_ := false
        conn_ := false
        acceptorEnrolled := false
        connEnrolled := false } := by
  simp only [sendDataCallback, deleteConn, deleteAcceptor, hconn, hacceptor, if_true]
  exact ⟨rfl, rfl⟩

/-- `handleWrite` goes on with the connection behind the callback. -/
theorem sendDataCallback_behind (hacceptor : s.acceptor_ = true) (hconn : s.conn_ = true) :
    ∃ t, (s.sendDataCallback >>= fun s =>
      Traced.tell [Session.use .handleWrite .conn] >>= fun _ => pure s).Yields
        ([Session.use .sendDataCallback .mgr, Session.use .sendDataCallback .client] ++
          report :: clearing ++ [Session.use .handleWrite .conn]) t :=
  ⟨_, Traced.bind_yields.mpr ⟨_, _, _, sendDataCallback_yields hacceptor hconn, ⟨rfl, rfl⟩, rfl⟩⟩

/-- What a call of the listener does with a new connection, up to the callback. -/
def accepting : List Event :=
  [Session.use .handleRead .acceptor, .accepted, Session.use .handleRead .conn,
    Session.use .handleRead .acceptor]

/-- A call of the listener whose `accept` gives a connection. -/
theorem handleRead_accepted {cb : Session → Traced Event Session} {channel : TcpChannel}
    {fs : List Event} (hinUse : s.inUse_ = true)
    (hcb : (cb { s with
      conn := { s.conn with pTcpChannel_ := some channel }
      connEnrolled := true
      inUse_ := false }).Yields fs s') :
    (s.handleRead cb (some channel)).Yields
      (accepting ++ fs ++ [Session.use .handleRead .acceptor]) s' := by
  simp only [Session.handleRead, hinUse, if_true]
  refine (Traced.tell_bind_yields ..).mpr
    ⟨[.accepted, Session.use .handleRead .conn, Session.use .handleRead .acceptor] ++
      (fs ++ [Session.use .handleRead .acceptor]), ?_, by simp [accepting]⟩
  refine (Traced.tell_bind_yields ..).mpr ⟨_, ?_, rfl⟩
  exact Traced.bind_yields.mpr ⟨fs, s', _, hcb, ⟨rfl, rfl⟩, rfl⟩

/-- A call of the listener that finds no connection, or whose registration was used. -/
theorem handleRead_none {cb : Session → Traced Event Session} {accepted : Option TcpChannel}
    (h : s.inUse_ = true → accepted = none) :
    (s.handleRead cb accepted).Yields [Session.use .handleRead .acceptor] s := by
  cases hinUse : s.inUse_ with
  | false =>
      simp only [Session.handleRead, hinUse, Bool.false_eq_true, if_false]
      exact ⟨rfl, rfl⟩
  | true =>
      obtain rfl := h hinUse
      simp only [Session.handleRead, hinUse, if_true]
      exact ⟨rfl, rfl⟩

/-- What the callback of the listener does, up to the report, when everything is sent at once. -/
def sending (buffer_ : List UInt8) : List Event :=
  [Session.use .acceptorCallbackOfSendData .mgr, Session.use .onSend .conn,
    .conn (.send buffer_ 0 buffer_.length (0 ||| Tcp.MSG_NOSIGNAL) (.count buffer_.length)),
    .conn (.callback 0 0), Session.use .sendDataCallback .mgr,
    Session.use .sendDataCallback .client]

variable (buffer_) in
/-- What the callback of the listener does with a new connection: everything is sent at once, or
the connection goes on without it. -/
theorem acceptorCallbackOfSendData_cases {channel : TcpChannel} {result : IoResult}
    (hchannel : s.conn.pTcpChannel_ = some channel) (hacceptor : s.acceptor_ = true)
    (hconn : s.conn_ = true) (hlength : buffer_.length < 2 ^ 31)
    (hgives : Gives buffer_.length result) :
    (s.acceptorCallbackOfSendData buffer_ result).Yields (sending buffer_ ++ report :: clearing)
      { s with
        acceptor_ := false
        conn_ := false
        acceptorEnrolled := false
        connEnrolled := false } ∨
    ∃ (acts : List Tcp.Act) (conn' : TcpConnection),
      (s.acceptorCallbackOfSendData buffer_ result).Yields
        ([Session.use .acceptorCallbackOfSendData .mgr, Session.use .onSend .conn] ++
          acts.map .conn) { s with conn := conn' } ∧
      (∀ act ∈ acts, ¬ TakesLast buffer_ act) ∧ conn'.pTcpChannel_ = some channel ∧
      (conn'.qSendInfo_ = s.conn.qSendInfo_ ∨
        ∃ tsi, Entry buffer_ tsi ∧ conn'.qSendInfo_ = s.conn.qSendInfo_ ++ [tsi]) := by
  rcases onSend_cases hchannel hlength hgives with
    ⟨rfl, hsend⟩ | ⟨-, acts, ret, conn', hsend, hcompletes, htakes, hchannel', hqueue⟩
  · -- everything was sent, and the callback of the session tears it down
    left
    simp only [acceptorCallbackOfSendData, onSend, onConn_eq hsend]
    refine (Traced.tell_bind_yields ..).mpr ⟨_, (Traced.tell_bind_yields ..).mpr ⟨_,
      (Traced.tell_bind_yields ..).mpr ⟨_, ?_, rfl⟩, rfl⟩, rfl⟩
    exact sendDataCallback_yields hacceptor hconn
  · refine .inr ⟨acts, conn', ?_, htakes, hchannel', hqueue⟩
    simp only [acceptorCallbackOfSendData, onSend, onConn_eq hsend, hcompletes,
      Bool.false_eq_true, if_false]
    refine (Traced.tell_bind_yields ..).mpr ⟨[Session.use .onSend .conn] ++ acts.map .conn,
      (Traced.tell_bind_yields ..).mpr ⟨acts.map .conn, ?_, rfl⟩, rfl⟩
    exact (Traced.tell_bind_yields ..).mpr ⟨[], ⟨rfl, rfl⟩, (List.append_nil _).symm⟩

/-- What the connection does is no access. -/
@[simp] theorem watchedAccesses_conn (acts : List Tcp.Act) :
    watchedAccesses (acts.map .conn) = [] := by
  rw [watchedAccesses, List.filterMap_map]
  exact List.filterMap_eq_nil_iff.mpr fun _ _ => rfl

@[simp] theorem connActs_conn (acts : List Tcp.Act) : connActs (acts.map .conn) = acts := by
  rw [connActs, List.filterMap_map]
  exact List.filterMap_some

/-- Nothing else is what the connection does. -/
theorem not_mem_conn {acts : List Tcp.Act} {e : Event} (h : ∀ act, e ≠ .conn act) :
    e ∉ acts.map Event.conn := by
  intro he
  obtain ⟨act, -, rfl⟩ := List.mem_map.mp he
  exact h act rfl

/-- The buffer from its front to its end. -/
theorem taken_all (hlength : buffer_.length < 2 ^ 31) :
    Tcp.taken buffer_ 0 buffer_.length = buffer_.map some := by
  rw [Tcp.taken_of_le (by omega) (by omega), List.drop_zero, List.take_length]

/-- The accesses of a call that sends everything. -/
theorem watchedAccesses_sent :
    watchedAccesses (accepting ++ (sending buffer_ ++ report :: clearing) ++
      [Session.use .handleRead .acceptor]) = [.use .conn, .delete .conn, .delete .acceptor] := rfl

/-- The accesses of a call that leaves the connection to go on. -/
theorem watchedAccesses_sending (acts : List Tcp.Act) :
    watchedAccesses (accepting ++
      ([Session.use .acceptorCallbackOfSendData .mgr, Session.use .onSend .conn] ++
        acts.map .conn) ++ [Session.use .handleRead .acceptor]) = [.use .conn] := by
  simp only [watchedAccesses_append, watchedAccesses_conn]
  rfl

/-- A peer connects to a session that waits. -/
theorem DataInv.accept (h : DataInv buffer_ log s) {channel : TcpChannel} {result : IoResult}
    (hlength : buffer_.length < 2 ^ 31) (hgives : Gives buffer_.length result)
    (hfd : 0 < channel.fd) (hinUse : s.inUse_ = true) (htimer : s.timer = true)
    (hstep : (s.handleRead (acceptorCallbackOfSendData buffer_ result) (some channel)).Yields es
      s') : DataInv buffer_ (log ++ es) s' := by
  cases h.phase with
  | sending _ _ _ _ hinUse' => rw [hinUse] at hinUse'; exact Bool.noConfusion hinUse'
  | sent hinUse' => rw [hinUse] at hinUse'; exact Bool.noConfusion hinUse'
  | waiting haccepted hacts hreport _ hacceptor hconn henrolled hready hqueue hdeleted =>
      rw [htimer, if_pos rfl] at hdeleted
      -- the callback of the acceptor ends the session, or leaves it waiting for the rest
      rcases acceptorCallbackOfSendData_cases buffer_ (s := { s with
          conn := { s.conn with pTcpChannel_ := some channel }
          connEnrolled := true
          inUse_ := false }) rfl hacceptor hconn hlength hgives with
        hsent | ⟨acts, conn', hsending, htakes, hchannel', hqueue'⟩
      · obtain ⟨rfl, rfl⟩ := (handleRead_accepted hinUse hsent).unique hstep
        refine ⟨?_, ?_, .sent rfl rfl rfl hready ?_ ?_⟩
        · rw [watchedAccesses_append, safe_append, hdeleted, watchedAccesses_sent]
          exact ⟨h.safe, List.not_mem_nil, List.not_mem_nil, by decide, trivial⟩
        · intro pre post o
          refine before_append (h.kept · · o) ?_ pre post
          simp [accepting, sending, clearing, Session.use, report]
        · rw [List.count_append, List.count_eq_zero.mpr hreport]
          simp [accepting, sending, clearing, Session.use, report]
        · -- the one report stands behind the `send` that took everything
          intro pre post heq
          have hbefore : report ∉ log ++ (accepting ++ sending buffer_) := by
            rw [List.mem_append, not_or]
            exact ⟨hreport, by simp [accepting, sending, Session.use, report]⟩
          have hafter : report ∉ clearing ++ [Session.use .handleRead .acceptor] := by
            simp [clearing, Session.use, report]
          have hsplit : log ++ (accepting ++ (sending buffer_ ++ report :: clearing) ++
              [Session.use .handleRead .acceptor]) = (log ++ (accepting ++ sending buffer_)) ++
              report :: (clearing ++ [Session.use .handleRead .acceptor]) := by
            simp only [List.append_assoc, List.cons_append]
          rw [hsplit] at heq
          obtain ⟨rfl, -, -⟩ := (List.append_cons_inj_of_notMem hbefore hafter).mp heq
          rw [connActs_append, hacts, List.nil_append]
          show Tcp.taken buffer_ 0 buffer_.length ++ [] = _
          rw [List.append_nil, taken_all hlength]
      · obtain ⟨rfl, rfl⟩ := (handleRead_accepted hinUse hsending).unique hstep
        have hquiet : ∀ e : Event, (∀ act, e ≠ .conn act) → e ≠ .accepted →
            (∀ func o, e ≠ Session.use func o) → e ∉ accepting ++
              ([Session.use .acceptorCallbackOfSendData .mgr, Session.use .onSend .conn] ++
                acts.map .conn) ++ [Session.use .handleRead .acceptor] := by
          intro e hconn haccept huse
          simp [accepting, huse, haccept, not_mem_conn hconn]
        refine ⟨?_, ?_, .sending channel ?_ ?_ ?_ rfl hacceptor hconn hchannel' hfd ?_ ?_⟩
        · rw [watchedAccesses_append, safe_append, hdeleted, watchedAccesses_sending]
          exact ⟨h.safe, List.not_mem_nil, trivial⟩
        · intro pre post o
          exact before_append (h.kept · · o)
            (hquiet _ (by simp) (by simp) (by simp [Session.use])) pre post
        · simp [accepting]
        · intro act hact
          rw [connActs_append, hacts, List.nil_append] at hact
          simp only [connActs_append, connActs_conn] at hact
          refine htakes act ?_
          simpa [connActs, accepting, Session.use] using hact
        · rw [List.mem_append, not_or]
          exact ⟨hreport, hquiet _ (by simp [report]) (by simp [report])
            (by simp [report, Session.use])⟩
        · rcases hqueue' with hqueue' | ⟨tsi, hentry, hqueue'⟩
          · exact .inl (hqueue'.trans hqueue)
          · refine .inr ⟨tsi, hentry, ?_⟩
            rw [hqueue']
            show s.conn.qSendInfo_ ++ [tsi] = [tsi]
            rw [hqueue, List.nil_append]
        · rw [watchedAccesses_append, deleted_append, hdeleted, watchedAccesses_sending]
          rfl

/-- A listener that is accepted from behind the timeout lets `onSend` use the connection that the
timer has deleted. -/
theorem DataInv.not_safe_of_accept (h : DataInv buffer_ log s) {channel : TcpChannel}
    {result : IoResult} (hlength : buffer_.length < 2 ^ 31) (hgives : Gives buffer_.length result)
    (hinUse : s.inUse_ = true) (htimer : s.timer = false)
    (hstep : (s.handleRead (acceptorCallbackOfSendData buffer_ result) (some channel)).Yields es
      s') : ¬ Safe (watchedAccesses (log ++ es)) := by
  cases h.phase with
  | sending _ _ _ _ hinUse' => rw [hinUse] at hinUse'; exact Bool.noConfusion hinUse'
  | sent hinUse' => rw [hinUse] at hinUse'; exact Bool.noConfusion hinUse'
  | waiting _ _ _ _ hacceptor hconn _ _ _ hdeleted =>
      rw [htimer, if_neg Bool.false_ne_true] at hdeleted
      have hdead : Object.conn ∈ deleted (watchedAccesses log) := by
        rw [hdeleted]
        exact List.mem_cons_of_mem _ (List.mem_cons_self ..)
      intro hsafe
      rw [watchedAccesses_append, safe_append] at hsafe
      rcases acceptorCallbackOfSendData_cases buffer_ (s := { s with
          conn := { s.conn with pTcpChannel_ := some channel }
          connEnrolled := true
          inUse_ := false }) rfl hacceptor hconn hlength hgives with
        hsent | ⟨acts, conn', hsending, -⟩
      · obtain ⟨rfl, -⟩ := (handleRead_accepted hinUse hsent).unique hstep
        rw [watchedAccesses_sent] at hsafe
        exact hsafe.2.1 hdead
      · obtain ⟨rfl, -⟩ := (handleRead_accepted hinUse hsending).unique hstep
        rw [watchedAccesses_sending] at hsafe
        exact hsafe.2.1 hdead

/-- What the loop finds ready concerns only who is called next. -/
theorem DataInv.frame (h : DataInv buffer_ log s) {ready connReady : Bool}
    (hready : connReady = true → s.connReady = true ∨ s.connEnrolled = true) :
    DataInv buffer_ log { s with acceptorReady := ready, connReady := connReady } := by
  have hfalse : s.connReady = false → s.connEnrolled = false → connReady = false := by
    intro hnot hnot'
    cases connReady with
    | false => rfl
    | true =>
        rcases hready rfl with heq | heq
        · exact absurd (hnot.symm.trans heq) Bool.false_ne_true
        · exact absurd (hnot'.symm.trans heq) Bool.false_ne_true
  refine ⟨h.safe, h.kept, ?_⟩
  cases h.phase with
  | waiting haccepted hacts hreport hinUse hacceptor hconn henrolled hnot hqueue hdeleted =>
      exact .waiting haccepted hacts hreport hinUse hacceptor hconn henrolled
        (hfalse hnot henrolled) hqueue hdeleted
  | sending channel haccepted hacts hreport hinUse hacceptor hconn hchannel hfd hqueue hdeleted =>
      exact .sending channel haccepted hacts hreport hinUse hacceptor hconn hchannel hfd hqueue
        hdeleted
  | sent hinUse hacceptor henrolled hnot hreport hall =>
      exact .sent hinUse hacceptor henrolled (hfalse hnot henrolled) hreport hall

/-- A call of the listener that gives no connection. -/
theorem DataInv.look (h : DataInv buffer_ log s) :
    DataInv buffer_ (log ++ [Session.use .handleRead .acceptor]) s := by
  have hwatched : watchedAccesses [Session.use .handleRead .acceptor] = [] := rfl
  have hreport' : report ∉ [Session.use .handleRead .acceptor] := by simp [report, Session.use]
  refine ⟨?_, ?_, ?_⟩
  · rw [watchedAccesses_append, hwatched, List.append_nil]
    exact h.safe
  · intro pre post o
    exact before_append (h.kept · · o) (by simp [Session.use]) pre post
  · cases h.phase with
    | waiting haccepted hacts hreport hinUse hacceptor hconn henrolled hready hqueue hdeleted =>
        refine .waiting ?_ ?_ ?_ hinUse hacceptor hconn henrolled hready hqueue ?_
        · simpa [Session.use] using haccepted
        · rw [connActs_append, hacts]
          rfl
        · simpa [report, Session.use] using hreport
        · rw [watchedAccesses_append, hwatched, List.append_nil]
          exact hdeleted
    | sending channel haccepted hacts hreport hinUse hacceptor hconn hchannel hfd hqueue
        hdeleted =>
        refine .sending channel (List.mem_append_left _ haccepted) ?_ ?_ hinUse hacceptor hconn
          hchannel hfd hqueue ?_
        · intro act hact
          rw [connActs_append] at hact
          exact hacts act (by simpa [connActs, Session.use] using hact)
        · simpa [report, Session.use] using hreport
        · rw [watchedAccesses_append, hwatched, List.append_nil]
          exact hdeleted
    | sent hinUse hacceptor henrolled hready hreport hall =>
        refine .sent hinUse hacceptor henrolled hready ?_ (before_append hall hreport')
        rw [List.count_append, hreport, List.count_eq_zero.mpr hreport']

/-- What `handleWrite` does in a session that sends: it takes the last byte, and uses the
connection that its callback has deleted, or goes on without it. -/
theorem handleWrite_session_cases {channel : TcpChannel} {result : IoResult}
    (hchannel : s.conn.pTcpChannel_ = some channel) (hfd : 0 < channel.fd)
    (hacceptor : s.acceptor_ = true) (hconn : s.conn_ = true)
    (hqueue : s.conn.qSendInfo_ = [] ∨ ∃ tsi, Entry buffer_ tsi ∧ s.conn.qSendInfo_ = [tsi]) :
    (∃ tsi k t, s.conn.qSendInfo_ = [tsi] ∧ result = .count k ∧ 0 < k ∧
      (tsi.offset_ + k) % 2 ^ 64 = tsi.len_ ∧ ∃ acts : List Tcp.Act, (s.handleWrite result).Yields
        ([Session.use .handleWrite .conn] ++ (acts.map .conn ++
          ([Session.use .sendDataCallback .mgr, Session.use .sendDataCallback .client] ++
            report :: clearing ++ [Session.use .handleWrite .conn]))) t) ∨
    (∀ tsi ∈ s.conn.qSendInfo_.head?, ∀ k, result = .count k → 0 < k →
      (tsi.offset_ + k) % 2 ^ 64 ≠ tsi.len_) ∧ ∃ (acts : List Tcp.Act) (conn' : TcpConnection),
      (s.handleWrite result).Yields ([Session.use .handleWrite .conn] ++ acts.map .conn)
        { s with conn := conn' } ∧
      (∀ act ∈ acts, ¬ TakesLast buffer_ act) ∧ conn'.pTcpChannel_ = some channel ∧
      (conn'.qSendInfo_ = [] ∨ ∃ tsi, Entry buffer_ tsi ∧ conn'.qSendInfo_ = [tsi]) := by
  -- as long as no callback comes out of it, only the connection changes
  have hgoes : ∀ {acts ret conn'}, (Tcp.handleWrite result s.conn).Yields acts (ret, conn') →
      onConn.completes acts = false →
      (s.handleWrite result).Yields ([Session.use .handleWrite .conn] ++ acts.map .conn)
        { s with conn := conn' } := by
    intro acts ret conn' hwrite hcompletes
    simp only [Session.handleWrite, onConn_eq hwrite, hcompletes, Bool.false_eq_true, if_false]
    refine (Traced.tell_bind_yields ..).mpr ⟨acts.map .conn, ?_, rfl⟩
    exact (Traced.tell_bind_yields ..).mpr ⟨[], ⟨rfl, rfl⟩, (List.append_nil _).symm⟩
  rcases hqueue with hqueue | ⟨tsi, hentry, hqueue⟩
  · -- nothing is queued
    refine .inr ⟨?_, [], s.conn, hgoes (handleWrite_nil hqueue) rfl,
      fun _ h => absurd h List.not_mem_nil, hchannel, .inl hqueue⟩
    rw [hqueue]
    exact fun tsi htsi => absurd htsi.symm (Option.some_ne_none tsi)
  · rcases handleWrite_cases (n := result) hchannel hfd hqueue hentry with
      ⟨⟨k, rfl, hk, hlast⟩, hwrite⟩ | ⟨hnot, acts, ret, conn', hwrite, hcompletes, htakes, hrest⟩
    · -- the last byte: the callback deletes the connection, which `handleWrite` still uses
      obtain ⟨t, hbehind⟩ := sendDataCallback_behind (s := { s with
        conn := { s.conn with qSendInfo_ := [] } }) hacceptor hconn
      refine .inl ⟨tsi, k, t, hqueue, rfl, hk, hlast,
        [.send tsi.sendBuf_ tsi.offset_ tsi.rest tsi.flags_ (.count k), .callback 0 tsi.param_], ?_⟩
      simp only [Session.handleWrite, onConn_eq hwrite]
      refine (Traced.tell_bind_yields ..).mpr
        ⟨_, (Traced.tell_bind_yields ..).mpr ⟨_, ?_, rfl⟩, rfl⟩
      exact hbehind
    · refine .inr ⟨?_, acts, conn', hgoes hwrite hcompletes, htakes, hrest⟩
      rw [hqueue]
      rintro _ ⟨rfl⟩ k hresult hk hlast
      exact hnot ⟨k, hresult, hk, hlast⟩

/-- A connection that was found ready is one that sends. -/
theorem DataInv.sending_of_ready (h : DataInv buffer_ log s) (hready : s.connReady = true) :
    s.inUse_ = false ∧ s.acceptor_ = true := by
  cases h.phase with
  | waiting _ _ _ _ _ _ _ hnot => exact absurd (hnot.symm.trans hready) Bool.false_ne_true
  | sent _ _ _ hnot => exact absurd (hnot.symm.trans hready) Bool.false_ne_true
  | sending _ _ _ _ hinUse hacceptor => exact ⟨hinUse, hacceptor⟩

/-- A `handleWrite` that does not take the last byte. -/
theorem DataInv.write (h : DataInv buffer_ log s) {result : IoResult}
    (hinUse : s.inUse_ = false) (hacceptor : s.acceptor_ = true)
    (hintime : ∀ tsi ∈ s.conn.qSendInfo_.head?, ∀ k, result = .count k → 0 < k →
      (tsi.offset_ + k) % 2 ^ 64 ≠ tsi.len_)
    (hstep : (s.handleWrite result).Yields es s') : DataInv buffer_ (log ++ es) s' := by
  cases h.phase with
  | waiting _ _ _ hinUse' => rw [hinUse] at hinUse'; exact Bool.noConfusion hinUse'
  | sent _ hacceptor' => rw [hacceptor] at hacceptor'; exact Bool.noConfusion hacceptor'
  | sending channel haccepted hacts hreport _ _ hconn hchannel hfd hqueue hdeleted =>
      rcases handleWrite_session_cases hchannel hfd hacceptor hconn hqueue with
        ⟨tsi, k, _, hqueue', hk, hpos, hlast, -⟩ |
        ⟨-, acts, conn', hyields, htakes, hchannel', hqueue'⟩
      · -- the last byte is not taken, as the care demands
        exact absurd hlast (hintime tsi (by rw [hqueue']; rfl) k hk hpos)
      · obtain ⟨rfl, rfl⟩ := hyields.unique hstep
        have hwatched : watchedAccesses ([Session.use .handleWrite .conn] ++ acts.map .conn) =
            [.use .conn] := by
          rw [watchedAccesses_append, watchedAccesses_conn]
          rfl
        have hquiet : ∀ e : Event, (∀ act, e ≠ .conn act) → (∀ func o, e ≠ Session.use func o) →
            e ∉ [Session.use .handleWrite .conn] ++ acts.map .conn := by
          intro e hconn huse
          simp [huse, not_mem_conn hconn]
        refine ⟨?_, ?_, .sending channel (List.mem_append_left _ haccepted) ?_ ?_ hinUse hacceptor
          hconn hchannel' hfd hqueue' ?_⟩
        · rw [watchedAccesses_append, safe_append, hdeleted, hwatched]
          exact ⟨h.safe, List.not_mem_nil, trivial⟩
        · intro pre post o
          exact before_append (h.kept · · o) (hquiet _ (by simp) (by simp [Session.use])) pre post
        · intro act hact
          rw [connActs_append, connActs_append, connActs_conn] at hact
          rcases List.mem_append.mp hact with hact | hact
          · exact hacts act hact
          · exact htakes act hact
        · rw [List.mem_append, not_or]
          exact ⟨hreport, hquiet _ (by simp [report]) (by simp [report, Session.use])⟩
        · rw [watchedAccesses_append, deleted_append, hdeleted, hwatched]
          rfl

/-- A `handleWrite` that takes the last byte uses the connection after it was deleted. -/
theorem DataInv.not_safe_of_write (h : DataInv buffer_ log s) {result : IoResult}
    (hinUse : s.inUse_ = false) (hacceptor : s.acceptor_ = true) {tsi : Info}
    (htsi : tsi ∈ s.conn.qSendInfo_.head?) {k : Nat} (hresult : result = .count k) (hk : 0 < k)
    (hlast : (tsi.offset_ + k) % 2 ^ 64 = tsi.len_)
    (hstep : (s.handleWrite result).Yields es s') : ¬ Safe (watchedAccesses (log ++ es)) := by
  cases h.phase with
  | waiting _ _ _ hinUse' => rw [hinUse] at hinUse'; exact Bool.noConfusion hinUse'
  | sent _ hacceptor' => rw [hacceptor] at hacceptor'; exact Bool.noConfusion hacceptor'
  | sending channel haccepted hacts hreport _ _ hconn hchannel hfd hqueue hdeleted =>
      rcases handleWrite_session_cases hchannel hfd hacceptor hconn hqueue with
        ⟨_, _, _, _, _, _, _, acts, hyields⟩ | ⟨hnot, -⟩
      · obtain ⟨rfl, -⟩ := hyields.unique hstep
        have hwatched : watchedAccesses ([Session.use .handleWrite .conn] ++ (acts.map .conn ++
            ([Session.use .sendDataCallback .mgr, Session.use .sendDataCallback .client] ++
              report :: clearing ++ [Session.use .handleWrite .conn]))) =
            [.use .conn] ++ ([] ++ [.delete .conn, .delete .acceptor, .use .conn]) := by
          rw [watchedAccesses_append, watchedAccesses_append, watchedAccesses_conn]
          rfl
        rw [watchedAccesses_append, safe_append, hdeleted, hwatched]
        rintro ⟨-, -, -, -, hlast, -⟩
        exact hlast (by decide)
      · exact absurd hlast (hnot tsi htsi k hresult hk)

/-- The timer fires on a session whose listener is still in the record. -/
theorem stopListenOfData_yields (hacceptor : s.acceptor_ = true) (hconn : s.conn_ = true) :
    s.stopListenOfData.Yields
      [Session.use .stopListenOfData .mgr, .access .stopListenOfData (.delete .acceptor),
        .access .stopListenOfData (.delete .conn)]
      { s with acceptorEnrolled := false, connEnrolled := false, timer := false } := by
  simp only [stopListenOfData, deleteAcceptor, deleteConn, hacceptor, hconn, if_true]
  exact ⟨rfl, rfl⟩

/-- The timer fires on a session that waits, or that is over. -/
theorem DataInv.stop (h : DataInv buffer_ log s) (htimer : s.timer = true)
    (hintime : s.acceptor_ = true → s.inUse_ = true)
    (hstep : s.stopListenOfData.Yields es s') : DataInv buffer_ (log ++ es) s' := by
  cases h.phase with
  | sending _ _ _ _ hinUse hacceptor =>
      -- the timer must not fire while the connection sends
      rw [hinUse] at hintime
      exact Bool.noConfusion (hintime hacceptor)
  | waiting haccepted hacts hreport hinUse hacceptor hconn henrolled hready hqueue hdeleted =>
      -- no peer has connected, so nothing that it would use is deleted
      obtain ⟨rfl, rfl⟩ := (stopListenOfData_yields hacceptor hconn).unique hstep
      rw [htimer, if_pos rfl] at hdeleted
      have haccepted' : Event.accepted ∉ log ++ [Session.use .stopListenOfData .mgr,
          .access .stopListenOfData (.delete .acceptor),
          .access .stopListenOfData (.delete .conn)] := by
        rw [List.mem_append, not_or]
        exact ⟨haccepted, by simp [Session.use]⟩
      refine ⟨?_, ?_, .waiting haccepted' ?_ ?_ hinUse hacceptor hconn rfl hready hqueue ?_⟩
      · rw [watchedAccesses_append, safe_append, hdeleted]
        exact ⟨h.safe, List.not_mem_nil, by decide, trivial⟩
      · intro pre post o heq hmem
        rw [heq] at haccepted'
        exact haccepted' (List.mem_append_left _ hmem)
      · rw [connActs_append, hacts]
        rfl
      · rw [List.mem_append, not_or]
        exact ⟨hreport, by simp [report, Session.use]⟩
      · rw [watchedAccesses_append, deleted_append, hdeleted]
        rfl
  | sent hinUse hacceptor henrolled hready hreport hall =>
      -- the listener is gone, and only the record of the session is used
      simp only [stopListenOfData, hacceptor, Bool.false_eq_true, if_false] at hstep
      obtain ⟨_, hpure, rfl⟩ := (Traced.tell_bind_yields ..).mp hstep
      obtain ⟨rfl, rfl⟩ := (Traced.pure_yields ..).mp hpure
      have hreport' : report ∉ [Session.use .stopListenOfData .mgr] ++ [] := by
        simp [report, Session.use]
      refine ⟨?_, ?_, .sent hinUse rfl henrolled hready ?_ (before_append hall hreport')⟩
      · have hwatched : watchedAccesses ([Session.use .stopListenOfData .mgr] ++ []) = [] := rfl
        rw [watchedAccesses_append, hwatched, List.append_nil]
        exact h.safe
      · intro pre post o
        exact before_append (h.kept · · o) (by simp [Session.use]) pre post
      · rw [List.count_append, hreport, List.count_eq_zero.mpr hreport']

/-- The timer tears down a session whose peer has connected. -/
theorem DataInv.not_kept_of_stop (h : DataInv buffer_ log s) (hacceptor : s.acceptor_ = true)
    (hinUse : s.inUse_ = false) (hstep : s.stopListenOfData.Yields es s') :
    ¬ Kept (log ++ es) := by
  cases h.phase with
  | waiting _ _ _ hinUse' => rw [hinUse] at hinUse'; exact Bool.noConfusion hinUse'
  | sent _ hacceptor' => rw [hacceptor] at hacceptor'; exact Bool.noConfusion hacceptor'
  | sending channel haccepted _ _ _ _ hconn =>
      obtain ⟨rfl, -⟩ := (stopListenOfData_yields hacceptor hconn).unique hstep
      intro hkept
      refine hkept (log ++ [Session.use .stopListenOfData .mgr])
        [.access .stopListenOfData (.delete .conn)] .acceptor ?_ (List.mem_append_left _ haccepted)
      rw [List.append_assoc]
      rfl

/-- One step that keeps the word. -/
theorem DataInv.step (h : DataInv buffer_ log s) (hlength : buffer_.length < 2 ^ 31)
    {action : DataAction} (hpossible : s.DataPossible buffer_ action) (hintime : InTime s action)
    (hstep : (s.dataStep buffer_ action).Yields es s') : DataInv buffer_ (log ++ es) s' := by
  cases action with
  | ready =>
      obtain ⟨rfl, rfl⟩ := (Traced.pure_yields ..).mp hstep
      rw [List.append_nil]
      exact h.frame (fun heq => .inl heq)
  | connReady =>
      obtain ⟨rfl, rfl⟩ := (Traced.pure_yields ..).mp hstep
      rw [List.append_nil]
      exact h.frame (fun _ => .inr hpossible)
  | handleRead accepted result =>
      obtain ⟨-, hfd, hgives⟩ := hpossible
      have hframe : DataInv buffer_ log { s with acceptorReady := false } :=
        h.frame (fun heq => .inl heq)
      -- a peer is accepted only while the session waits for one
      by_cases hnone : s.inUse_ = true → accepted = none
      · obtain ⟨rfl, rfl⟩ := (handleRead_none (s := { s with acceptorReady := false }) hnone).unique
          hstep
        exact hframe.look
      · obtain ⟨hinUse, hsome⟩ := not_forall.mp hnone |>.imp fun hinUse hne => hne
        cases accepted with
        | none => exact absurd rfl hsome
        | some channel =>
            have htimer : s.timer = true := by
              cases ht : s.timer with
              | true => rfl
              | false => exact absurd (hintime hinUse ht) hsome
            exact hframe.accept hlength hgives (hfd channel rfl) hinUse htimer hstep
  | handleWrite result =>
      -- a connection that is ready belongs to a session that sends
      obtain ⟨hinUse, hacceptor⟩ := h.sending_of_ready hpossible.1
      have hframe : DataInv buffer_ log { s with connReady := false } := h.frame Bool.noConfusion
      exact hframe.write hinUse hacceptor hintime hstep
  | stopListenOfData => exact h.stop hpossible hintime hstep

/-- A step that does not keep the word breaks it for good. -/
theorem DataInv.not_kept (h : DataInv buffer_ log s) (hlength : buffer_.length < 2 ^ 31)
    {action : DataAction} (hpossible : s.DataPossible buffer_ action)
    (hnot : ¬ InTime s action) (hstep : (s.dataStep buffer_ action).Yields es s') :
    ¬ (Safe (watchedAccesses (log ++ es)) ∧ Kept (log ++ es)) := by
  cases action with
  | ready => exact absurd trivial hnot
  | connReady => exact absurd trivial hnot
  | handleRead accepted result =>
      -- a peer that comes when the timer has fired finds a listener without its session
      obtain ⟨-, -, hgives⟩ := hpossible
      obtain ⟨hinUse, hrest⟩ := Classical.not_imp.mp hnot
      obtain ⟨htimer, hsome⟩ := Classical.not_imp.mp hrest
      have hframe : DataInv buffer_ log { s with acceptorReady := false } :=
        h.frame (fun heq => .inl heq)
      cases accepted with
      | none => exact absurd rfl hsome
      | some channel =>
          exact fun hboth => hframe.not_safe_of_accept hlength hgives hinUse htimer hstep hboth.1
  | handleWrite result =>
      obtain ⟨hinUse, hacceptor⟩ := h.sending_of_ready hpossible.1
      have hframe : DataInv buffer_ log { s with connReady := false } := h.frame Bool.noConfusion
      -- the last byte is taken here, and the callback deletes the connection
      have htakes : ∃ tsi ∈ s.conn.qSendInfo_.head?, ∃ k, result = .count k ∧ 0 < k ∧
          (tsi.offset_ + k) % 2 ^ 64 = tsi.len_ := by
        by_contra hnone
        refine hnot fun tsi htsi k hresult hk hlast => hnone ⟨tsi, htsi, k, hresult, hk, hlast⟩
      obtain ⟨tsi, htsi, k, hresult, hk, hlast⟩ := htakes
      exact fun hboth =>
        hframe.not_safe_of_write hinUse hacceptor htsi hresult hk hlast hstep hboth.1
  | stopListenOfData =>
      -- the timer fires while a peer is being served
      obtain ⟨hacceptor, hinUse⟩ := Classical.not_imp.mp hnot
      exact fun hboth => h.not_kept_of_stop hacceptor (Bool.not_eq_true _ ▸ hinUse) hstep hboth.2

end Steps

/-! ### Whole runs -/

theorem dataInv_init (buffer_ : List UInt8) : DataInv buffer_ [] {} := by
  refine ⟨safe_nil, ?_, .waiting List.not_mem_nil rfl List.not_mem_nil rfl rfl rfl rfl rfl rfl rfl⟩
  intro pre post o heq
  exact absurd (congrArg List.length heq) (by simp)

/-- A run whose steps are all in time. -/
theorem dataInv_run {buffer_ : List UInt8} {actions : List DataAction} {log : List Event}
    {s : Session} (hlength : buffer_.length < 2 ^ 31)
    (hrun : Traced.Run (dataStep buffer_)
      (fun s action => s.DataPossible buffer_ action ∧ InTime s action) {} actions log s) :
    DataInv buffer_ log s := by
  refine hrun.invariant (P := fun _ log s => DataInv buffer_ log s) (dataInv_init buffer_) ?_
  intro l log s action es s' h hok hstep
  exact h.step hlength hok.1 hok.2 hstep

/-- A session of `sendData` keeps its word exactly when every step is in time. -/
theorem dataLifetimes_iff {buffer_ : List UInt8} {actions : List DataAction} {log : List Event}
    {s : Session} (hlength : buffer_.length < 2 ^ 31)
    (hrun : Traced.Run (dataStep buffer_) (DataPossible buffer_) {} actions log s) :
    DataLifetimes buffer_ log ↔ Traced.Run (dataStep buffer_)
      (fun s action => s.DataPossible buffer_ action ∧ InTime s action) {} actions log s := by
  constructor
  · intro h
    suffices hall : Safe (watchedAccesses log) ∧ Kept log → Traced.Run (dataStep buffer_)
        (fun s action => s.DataPossible buffer_ action ∧ InTime s action) {} actions log s by
      exact hall ⟨h.safe, h.kept⟩
    clear h
    induction hrun with
    | nil => exact fun _ => .nil
    | @snoc l action log es t u _ hpossible hstep ih =>
        rintro ⟨hsafe, hkept⟩
        have hbefore : Safe (watchedAccesses log) ∧ Kept log := by
          refine ⟨?_, fun pre post o heq => ?_⟩
          · rw [watchedAccesses_append, safe_append] at hsafe
            exact hsafe.1
          · refine hkept pre (post ++ es) o ?_
            rw [heq, List.append_assoc, List.cons_append]
        refine .snoc (ih hbefore) ⟨hpossible, ?_⟩ hstep
        by_contra hnot
        exact (dataInv_run hlength (ih hbefore)).not_kept hlength hpossible hnot hstep
          ⟨hsafe, hkept⟩
  · exact fun h => (dataInv_run hlength h).lifetimes

/-- Two bytes that are sent at once, and the timeout behind them. -/
theorem dataLifetimes_iff_at_once :
    ∃ log s, Traced.Run (dataStep [1, 2]) (DataPossible [1, 2]) {}
      [.ready, .handleRead (some { fd := 7 }) (.count 2), .stopListenOfData] log s ∧
      DataLifetimes [1, 2] log ∧ report ∈ log := by
  have hrun : ∃ log s, Traced.Run (dataStep [1, 2])
      (fun s action => s.DataPossible [1, 2] action ∧ InTime s action) {}
      [.ready, .handleRead (some { fd := 7 }) (.count 2), .stopListenOfData] log s ∧
      report ∈ log := by
    refine ⟨_, _, .snoc (.snoc (.snoc (l := []) .nil ?ready ⟨rfl, rfl⟩) ?read ⟨rfl, rfl⟩) ?stop
      ⟨rfl, rfl⟩, ?report⟩
    case ready => exact ⟨rfl, trivial⟩
    case read =>
      refine ⟨⟨rfl, ?_, by decide, .inr (by decide)⟩, fun _ htimer => Bool.noConfusion htimer⟩
      rintro _ ⟨rfl⟩
      decide
    case stop => exact ⟨rfl, fun hacceptor => Bool.noConfusion hacceptor⟩
    case report => decide
  obtain ⟨log, s, hrun, hreport⟩ := hrun
  have hpossible : Traced.Run (dataStep [1, 2]) (DataPossible [1, 2]) {} _ log s :=
    hrun.mono fun _ _ h => h.1
  exact ⟨log, s, hpossible, (dataLifetimes_iff (by decide) hpossible).mpr hrun, hreport⟩

/-- Two bytes of which the kernel takes one at once. When `handleWrite` sends the other one, it
goes on with the connection that its callback has deleted; when the timer comes first, it tears the
session down. -/
theorem session_torn_down :
    (∃ log s, Traced.Run (dataStep [1, 2]) (DataPossible [1, 2]) {}
      [.ready, .handleRead (some { fd := 7 }) (.count 1), .connReady, .handleWrite (.count 1)]
      log s ∧ ¬ DataLifetimes [1, 2] log) ∧
    (∃ log s, Traced.Run (dataStep [1, 2]) (DataPossible [1, 2]) {}
      [.ready, .handleRead (some { fd := 7 }) (.count 1), .stopListenOfData] log s ∧
      ¬ DataLifetimes [1, 2] log) := by
  refine ⟨⟨_, _, .snoc (.snoc (.snoc (.snoc (l := []) .nil ?ready ⟨rfl, rfl⟩) ?read ⟨rfl, rfl⟩)
      ?connReady ⟨rfl, rfl⟩) ?write ⟨rfl, rfl⟩, ?used⟩,
    ⟨_, _, .snoc (.snoc (.snoc (l := []) .nil ?ready' ⟨rfl, rfl⟩) ?read' ⟨rfl, rfl⟩) ?stop
      ⟨rfl, rfl⟩, ?torn⟩⟩
  case ready => rfl
  case read =>
    refine ⟨rfl, ?_, by decide, .inr (by decide)⟩
    rintro _ ⟨rfl⟩
    decide
  case connReady => rfl
  case write =>
    refine ⟨rfl, ?_⟩
    rintro _ ⟨rfl⟩
    exact ⟨by decide, .inr (by decide)⟩
  case used =>
    intro h
    have hlast := h.safe (List.dropLast _) _ [] (List.dropLast_append_getLast (by decide)).symm
    exact absurd hlast (by decide)
  case ready' => rfl
  case read' =>
    refine ⟨rfl, ?_, by decide, .inr (by decide)⟩
    rintro _ ⟨rfl⟩
    decide
  case stop => rfl
  case torn =>
    intro h
    exact h.kept (List.dropLast _) [] .conn (List.dropLast_append_getLast (by decide)).symm
      (by decide)

end Ndsl.Proofs.Dtp
