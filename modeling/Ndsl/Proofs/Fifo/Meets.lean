import Ndsl.Net.Fifo

/-!
# `Ndsl.Proofs.Fifo.Meets`: which processes meet at their fifos

An open waits until the other end of its fifo is open, so whether two processes come to the end of
their calls depends on the order in which both open the two fifos.

* `meets`: `openChildFifo` meets each of the functions for the other process, however the two take
  their turns. Both return 1, and what one writes to its `fd[1]` the other one reads from its
  `fd[0]`.
* `never_meet`: of any number of processes that call `createAndOpenFifo` and `openAndMatchFifo`,
  with the names of any fifos, no open ever returns a descriptor. All of them begin with an end to
  read.
-/

set_option autoImplicit false

namespace Ndsl.Proofs.Fifo

open Ndsl.Lib
open Ndsl.Lib.Rendezvous (Attempt End Finished Orderly Party firsts opposite points run start)
open Ndsl.Net.Fifo

/-! ### Statements -/

/-- No system call of `createAndOpenFifo` fails. -/
structure Succeed (calls : PipeAndFifo.Calls) : Prop where
  mkfifo1 : failed calls.mkfifo1 = false
  mkfifo2 : failed calls.mkfifo2 = false
  readfd : 0 ≤ calls.readfd
  writefd : 0 ≤ calls.writefd
  fcntl : ∀ fd ∈ [calls.readfd, calls.writefd], calls.getfl fd = true ∧ calls.setfl fd = true

/-- A call for the process that reads the first fifo, of which no system call fails. -/
inductive Father (pathname1 pathname2 : Path) : Traced Act (Int × Fds) → Prop
  | openFatherFifo (readfd writefd : Int) (fd : Fds) (hread : 0 ≤ readfd) (hwrite : 0 ≤ writefd) :
      Father pathname1 pathname2 (FifoIpc.openFatherFifo pathname1 pathname2 readfd writefd fd)
  | createAndOpen (result1 result2 : MkfifoResult) (readfd writefd : Int) (fd : Fds)
      (hresult1 : failed result1 = false) (hresult2 : failed result2 = false)
      (hread : 0 ≤ readfd) (hwrite : 0 ≤ writefd) : Father pathname1 pathname2
        (FifoIpc.createAndOpen pathname1 pathname2 result1 result2 readfd writefd fd)
  | createAndOpenFifo (calls : PipeAndFifo.Calls) (fd : Fds) (hcalls : Succeed calls) :
      Father pathname1 pathname2 (PipeAndFifo.createAndOpenFifo pathname1 pathname2 calls fd)

/-- A call of `openChildFifo` of which no system call fails. -/
inductive Child (pathname1 pathname2 : Path) : Traced Act (Int × Fds) → Prop
  | openChildFifo (writefd readfd : Int) (fd : Fds) (hwrite : 0 ≤ writefd) (hread : 0 ≤ readfd) :
      Child pathname1 pathname2 (FifoIpc.openChildFifo pathname1 pathname2 writefd readfd fd)

/-- The opens of two processes. -/
def orders (fifo : Path → Bool) (father child : List Act) : Bool → List (Attempt Path) := fun
  | false => opens fifo father
  | true => opens fifo child

/-- The first process writes to its `fd[1]` what the second one reads from its `fd[0]`: the two are
the descriptors that they got for the two ends of one fifo. -/
def Matched (es : List Act) (fd : Fds) (es' : List Act) (fd' : Fds) : Prop :=
  ∃ pathname, .open_ pathname .write (fd 1) ∈ es ∧ .open_ pathname .read (fd' 0) ∈ es'

/-- However two processes take their turns, their opens return, after eight turns at most. Both
calls return 1, and the descriptors that they have stored belong together. -/
structure Meet (fifo : Path → Bool) (father child : Traced Act (Int × Fds)) : Prop where
  bounded : ∀ schedule s, run schedule (start (orders fifo father.log child.log)) = some s →
    schedule.length ≤ 8
  finishes : ∀ schedule s, run schedule (start (orders fifo father.log child.log)) = some s →
    ∃ later t, run (schedule ++ later) (start (orders fifo father.log child.log)) = some t ∧
      Finished t
  returns : ∃ es es' fd fd', father.Yields es (1, fd) ∧ child.Yields es' (1, fd') ∧
    Matched es fd es' fd' ∧ Matched es' fd' es fd

/-- The trace of a call of a process that goes by `PipeAndFifo`, with whatever results of the system
calls. The first name is that of a fifo. -/
inductive Peer (fifo : Path → Bool) : List Act → Prop
  | createAndOpenFifo (pathname1 pathname2 : Path) (hfifo : fifo pathname1 = true)
      (calls : PipeAndFifo.Calls) (fd : Fds) :
      Peer fifo (PipeAndFifo.createAndOpenFifo pathname1 pathname2 calls fd).log
  | openAndMatchFifo (pathname1 pathname2 : Path) (hfifo : fifo pathname1 = true)
      (writefd readfd : Int) (fd : Fds) :
      Peer fifo (PipeAndFifo.openAndMatchFifo pathname1 pathname2 writefd readfd fd).log

/-! ### Calls of which nothing fails -/

section
variable {fifo : Path → Bool} {pathname1 pathname2 : Path} {x y : Traced Act (Int × Fds)}

theorem openBoth_yields {first second : Open} (fd : Fds) (hfirst : 0 ≤ first.result)
    (hsecond : 0 ≤ second.result) :
    (openBoth first second fd).Yields
      [.open_ first.pathname first.mode first.result,
        .open_ second.pathname second.mode second.result]
      (1, Function.update (Function.update fd first.slot first.result) second.slot
        second.result) := by
  unfold openBoth
  dsimp only
  rw [if_neg (Int.not_lt.mpr hfirst), if_neg (Int.not_lt.mpr hsecond)]
  exact ⟨rfl, rfl⟩

theorem setNonblock_yields {calls : PipeAndFifo.Calls} {fd : Int}
    (h : calls.getfl fd = true ∧ calls.setfl fd = true) :
    (PipeAndFifo.setNonblock calls fd).Yields [.fcntl fd, .fcntl fd] true := by
  unfold PipeAndFifo.setNonblock
  rw [h.1, h.2]
  exact ⟨rfl, rfl⟩

theorem createAndOpenFifo_yields (pathname1 pathname2 : Path) {calls : PipeAndFifo.Calls} (fd : Fds)
    (h : Succeed calls) :
    (PipeAndFifo.createAndOpenFifo pathname1 pathname2 calls fd).Yields
      [.mkfifo pathname1, .mkfifo pathname2, .open_ pathname1 .read calls.readfd,
        .fcntl calls.readfd, .fcntl calls.readfd, .enroll calls.readfd .handleRead,
        .open_ pathname2 .write calls.writefd, .fcntl calls.writefd, .fcntl calls.writefd,
        .enroll calls.writefd .handleWrite]
      (1, Function.update (Function.update fd 0 calls.readfd) 1 calls.writefd) := by
  have hread := setNonblock_yields (h.fcntl calls.readfd List.mem_cons_self)
  have hwrite := setNonblock_yields
    (h.fcntl calls.writefd (List.mem_cons_of_mem _ List.mem_cons_self))
  unfold PipeAndFifo.createAndOpenFifo PipeAndFifo.createAndOpenFifo.behind
  rw [h.mkfifo1, h.mkfifo2, if_neg (Int.not_lt.mpr h.readfd), if_neg (Int.not_lt.mpr h.writefd),
    hread.eq_tell_bind, hwrite.eq_tell_bind]
  exact ⟨rfl, rfl⟩

/-- The slot of `fd` for a descriptor. -/
def slotOf : End → Nat
  | .read => 0
  | .write => 1

/-- A call that returns 1 has got descriptors for two ends, in this order, and stored them. -/
structure Opens (fifo : Path → Bool) (first second : Path × End) (x : Traced Act (Int × Fds)) :
    Prop where
  returns : ∃ es fd, x.Yields es (1, fd) ∧
    ∀ point ∈ [first, second], .open_ point.1 point.2 (fd (slotOf point.2)) ∈ es
  order : opens fifo x.log = [{ point := first }, { point := second }]

/-- An open of a fifo that does not fail. -/
theorem opens_cons_open {pathname : Path} (mode : End) {result : Int} (es : List Act)
    (hfifo : fifo pathname = true) (hresult : 0 ≤ result) :
    opens fifo (.open_ pathname mode result :: es) =
      { point := (pathname, mode) } :: opens fifo es := by
  have hfails : decide (result < 0) = false := decide_eq_false (Int.not_lt.mpr hresult)
  rw [opens, List.filterMap_cons_some (b := { point := (pathname, mode) })]
  · rfl
  · dsimp only
    rw [if_pos hfifo, hfails]

/-- Two opens of two kinds. -/
theorem openBoth_opens (mode : End) {first second : Int} (fd : Fds) (hfirst : 0 ≤ first)
    (hsecond : 0 ≤ second) (h1 : fifo pathname1 = true) (h2 : fifo pathname2 = true) :
    Opens fifo (pathname1, mode) (pathname2, mode.other)
      (openBoth { pathname := pathname1, mode := mode, slot := slotOf mode, result := first }
        { pathname := pathname2, mode := mode.other, slot := slotOf mode.other, result := second }
        fd) := by
  have hslots : slotOf mode ≠ slotOf mode.other := by
    cases mode <;> decide
  refine ⟨⟨_, _, openBoth_yields fd hfirst hsecond, ?_⟩, ?_⟩
  · simp [Function.update_of_ne hslots]
  · rw [(openBoth_yields fd hfirst hsecond).1, opens_cons_open _ _ h1 hfirst,
      opens_cons_open _ _ h2 hsecond]
    rfl

/-- What is done before changes nothing when it opens nothing. -/
theorem Opens.tell {first second : Path × End} (h : Opens fifo first second x) (es : List Act)
    (hes : opens fifo es = []) : Opens fifo first second (.tell es >>= fun _ => x) := by
  obtain ⟨⟨fs, fd, hyields, hmem⟩, horder⟩ := h
  refine ⟨⟨es ++ fs, fd, (Traced.tell_bind_yields ..).mpr ⟨fs, hyields, rfl⟩, fun point hpoint =>
    List.mem_append_right es (hmem point hpoint)⟩, ?_⟩
  rw [Traced.log_tell_bind, opens, List.filterMap_append]
  exact (congrArg (· ++ _) hes).trans horder

theorem Father.opens (h : Father pathname1 pathname2 x) (h1 : fifo pathname1 = true)
    (h2 : fifo pathname2 = true) : Opens fifo (pathname1, .read) (pathname2, .write) x := by
  cases h with
  | openFatherFifo readfd writefd fd hread hwrite =>
      exact openBoth_opens .read fd hread hwrite h1 h2
  | createAndOpen result1 result2 readfd writefd fd hresult1 hresult2 hread hwrite =>
      unfold FifoIpc.createAndOpen
      rw [hresult1, hresult2]
      have hboth := openBoth_opens .read fd hread hwrite h1 h2
      -- the fifos are made first
      exact (hboth.tell [.mkfifo pathname2] rfl).tell [.mkfifo pathname1] rfl
  | createAndOpenFifo calls fd hcalls =>
      have hyields := createAndOpenFifo_yields pathname1 pathname2 fd hcalls
      refine ⟨⟨_, _, hyields, ?_⟩, ?_⟩
      · simp [slotOf]
      · rw [hyields.1]
        simp [Net.Fifo.opens, h1, h2, hcalls.readfd, hcalls.writefd]

theorem Child.opens (h : Child pathname1 pathname2 x) (h1 : fifo pathname1 = true)
    (h2 : fifo pathname2 = true) : Opens fifo (pathname1, .write) (pathname2, .read) x := by
  cases h with
  | openChildFifo writefd readfd fd hwrite hread =>
      exact openBoth_opens .write fd hwrite hread h1 h2

/-- The two fifos are opened in the same order, at their two ends. -/
theorem orderly_orders (hne : pathname1 ≠ pathname2)
    (hx : Opens fifo (pathname1, .read) (pathname2, .write) x)
    (hy : Opens fifo (pathname1, .write) (pathname2, .read) y) :
    Orderly (fun pathname => if pathname = pathname1 then 0 else 1)
      (orders fifo x.log y.log) := by
  have hfather : points (orders fifo x.log y.log false) =
      [(pathname1, .read), (pathname2, .write)] := congrArg points hx.order
  have hchild : points (orders fifo x.log y.log true) =
      [(pathname1, .write), (pathname2, .read)] := congrArg points hy.order
  constructor
  · intro p
    cases p with
    | false => simp [hfather, hne.symm]
    | true => simp [hchild, hne.symm]
  · intro p z hz
    cases p with
    | false =>
        refine ⟨true, ?_⟩
        rw [hfather] at hz
        rw [hchild]
        rcases List.mem_pair.mp hz with rfl | rfl
        · exact List.mem_cons_self
        · exact List.mem_cons_of_mem _ List.mem_cons_self
    | true =>
        refine ⟨false, ?_⟩
        rw [hchild] at hz
        rw [hfather]
        rcases List.mem_pair.mp hz with rfl | rfl
        · exact List.mem_cons_self
        · exact List.mem_cons_of_mem _ List.mem_cons_self

/-- A call that opens the first fifo to write meets one that opens it to read. -/
theorem meets (hne : pathname1 ≠ pathname2) (h1 : fifo pathname1 = true)
    (h2 : fifo pathname2 = true) (hfather : Father pathname1 pathname2 x)
    (hchild : Child pathname1 pathname2 y) : Meet fifo x y := by
  have hx := hfather.opens h1 h2
  have hy := hchild.opens h1 h2
  have horderly := orderly_orders hne hx hy
  obtain ⟨es, fd, hes, hstored⟩ := hx.returns
  obtain ⟨es', fd', hes', hstored'⟩ := hy.returns
  refine ⟨fun schedule s hrun => ?_, fun schedule s hrun =>
    Rendezvous.exists_finished horderly hrun, es, es', fd, fd', hes, hes', ?_, ?_⟩
  · have hlength := Rendezvous.length_run_le hrun
    simpa [orders, hx.order, hy.order] using hlength
  · exact ⟨pathname2, hstored _ (List.mem_cons_of_mem _ List.mem_cons_self),
      hstored' _ (List.mem_cons_of_mem _ List.mem_cons_self)⟩
  · exact ⟨pathname1, hstored' _ List.mem_cons_self, hstored _ List.mem_cons_self⟩

/-! ### Processes that never meet -/

/-- An open of a fifo, and what follows when it has not failed. -/
theorem firsts_opens_cons {pathname : Path} (mode : End) (result : Int) (es : List Act)
    (hfifo : fifo pathname = true) :
    firsts (opens fifo (.open_ pathname mode result :: if result < 0 then [] else es)) =
      [(pathname, mode)] := by
  have hcons : ∀ es, opens fifo (.open_ pathname mode result :: es) =
      { point := (pathname, mode), fails := result < 0 } :: opens fifo es := by
    intro es
    rw [opens, List.filterMap_cons_some (b := { point := (pathname, mode), fails := result < 0 })]
    · rfl
    · exact if_pos hfifo
  rw [hcons, firsts]
  by_cases hfails : result < 0
  · rw [if_pos hfails, if_pos (decide_eq_true hfails)]
    rfl
  · rw [if_neg fun h => hfails (of_decide_eq_true h)]

/-- The second open comes when the first one has not failed. -/
theorem log_openBoth (first second : Open) (fd : Fds) :
    (openBoth first second fd).log = .open_ first.pathname first.mode first.result ::
      if first.result < 0 then []
      else [.open_ second.pathname second.mode second.result] := by
  rw [openBoth, Traced.log_tell_bind, List.singleton_append]
  split
  · rfl
  · dsimp only
    rw [Traced.log_tell_bind]
    split <;> rfl

theorem log_createAndOpenFifo (pathname1 pathname2 : Path) (calls : PipeAndFifo.Calls) (fd : Fds) :
    (PipeAndFifo.createAndOpenFifo pathname1 pathname2 calls fd).log =
      .mkfifo pathname1 :: if failed calls.mkfifo1 then []
        else .mkfifo pathname2 :: if failed calls.mkfifo2 then [.unlink pathname1]
          else .open_ pathname1 .read calls.readfd :: if calls.readfd < 0 then []
            else (PipeAndFifo.createAndOpenFifo.behind pathname2 calls
              (Function.update fd 0 calls.readfd)).log := by
  rw [PipeAndFifo.createAndOpenFifo, Traced.log_tell_bind, List.singleton_append]
  split
  · rfl
  · rw [Traced.log_tell_bind, List.singleton_append]
    split
    · rfl
    · rw [Traced.log_tell_bind, List.singleton_append]
      split <;> rfl

/-- Whatever the system gives a call, the first fifo that it opens it opens to read. When that fails
it opens no other. -/
theorem Peer.firsts_opens {es : List Act} (h : Peer fifo es) :
    ∀ z ∈ firsts (opens fifo es), z.2 = .read := by
  have hread : ∀ {pathname : Path} {result : Int} {es : List Act}, fifo pathname = true →
      ∀ z ∈ firsts (opens fifo (.open_ pathname .read result :: if result < 0 then [] else es)),
        z.2 = .read := by
    intro pathname result es hfifo z hz
    rw [firsts_opens_cons .read result es hfifo] at hz
    obtain rfl := List.mem_singleton.mp hz
    rfl
  cases h with
  | createAndOpenFifo pathname1 pathname2 hfifo calls fd =>
      rw [log_createAndOpenFifo]
      split
      · exact fun z hz => absurd hz List.not_mem_nil
      · split
        · exact fun z hz => absurd hz List.not_mem_nil
        · exact hread hfifo
  | openAndMatchFifo pathname1 pathname2 hfifo writefd readfd fd =>
      rw [PipeAndFifo.openAndMatchFifo, log_openBoth]
      exact hread hfifo

/-- Of any number of processes no open returns a descriptor, with the names of any fifos and
whatever results. What a process waits with is an end to read. -/
theorem never_meet {n : Nat} {logs : Fin n → List Act} (hlogs : ∀ p, Peer fifo (logs p))
    {schedule : List (Fin n)} {s : Fin n → Party Path}
    (hrun : run schedule (start fun p => opens fifo (logs p)) = some s) (p : Fin n) :
    (s p).opened = [] ∧ ∀ z ∈ (s p).ends, z.2 = .read := by
  have hread : ∀ p, ∀ z ∈ firsts (opens fifo (logs p)), z.2 = .read :=
    fun p => (hlogs p).firsts_opens
  obtain ⟨hnone, hsubset⟩ := Rendezvous.opened_eq_nil (fun p q z hz w hw heq => by
    have hw := hread q w hw
    rw [heq, opposite, hread p z hz] at hw
    exact End.noConfusion hw) hrun p
  exact ⟨hnone, fun z hz => hread p z (hsubset (Rendezvous.ends_subset_firsts hnone hz))⟩

end

/-- A child and its father. -/
theorem meets_ab :
    Meet (fun _ => true) (FifoIpc.openFatherFifo [0x61] [0x62] 3 4 fun _ => -1)
      (FifoIpc.openChildFifo [0x61] [0x62] 5 6 fun _ => -1) := by
  have hne : ([0x61] : Path) ≠ [0x62] := by decide
  exact meets hne rfl rfl (.openFatherFifo 3 4 _ (by decide) (by decide))
    (.openChildFifo 5 6 _ (by decide) (by decide))

/-- The two processes that the comments of the header describe, and one whose open is
interrupted. -/
def threeLogs : Fin 3 → List Act := fun p =>
  if p.val = 0 then
    (PipeAndFifo.createAndOpenFifo [0x61] [0x62]
      { mkfifo1 := none, mkfifo2 := none, readfd := 3, writefd := 4, getfl := fun _ => true,
        setfl := fun _ => true } fun _ => -1).log
  else if p.val = 1 then (PipeAndFifo.openAndMatchFifo [0x61] [0x62] 5 6 fun _ => -1).log
  else (PipeAndFifo.openAndMatchFifo [0x62] [0x61] (-1) 7 fun _ => -1).log

/-- The third one returns, and the two others wait. -/
theorem never_meet_three : ∃ s,
    run [0, 2, 1, 2] (start fun p => opens (fun _ => true) (threeLogs p)) = some s ∧
      (s 2).rest = [] ∧ ∀ p, (s p).opened = [] ∧ ∀ z ∈ (s p).ends, z.2 = .read := by
  have hrun : ∃ s, run [0, 2, 1, 2] (start fun p => opens (fun _ => true) (threeLogs p)) = some s ∧
      (s 2).rest = [] := ⟨_, rfl, rfl⟩
  obtain ⟨s, hrun, hrest⟩ := hrun
  refine ⟨s, hrun, hrest, never_meet (fun p => ?_) hrun⟩
  unfold threeLogs
  split
  · exact .createAndOpenFifo _ _ rfl _ _
  · split
    · exact .openAndMatchFifo _ _ rfl _ _ _
    · exact .openAndMatchFifo _ _ rfl _ _ _

end Ndsl.Proofs.Fifo
