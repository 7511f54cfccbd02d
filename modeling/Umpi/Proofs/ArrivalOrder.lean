/-
Module: Umpi.Proofs.ArrivalOrder
Layer: Proofs
Purpose: One point-to-point message in its two arrival orders. When the receive is there first the
  sender writes, when the send is there first the receiver reads. The two runs are computed up to the
  status of the receiver and compared: they deliver the same exactly when the message consists of whole
  elements of the receive type and fits into the receive buffer.
Imports: Umpi.Model.PointToPoint, Umpi.Proofs.Matching
Trusted boundary: none
Main exports: SendCall, RecvCall, Meeting, Delivery, recvFirst, sendFirst, recvFirst_eq,
  sendFirst_status, Delivery.Agree, arrival_order_iff
Open obligations: none
-/
import Umpi.Model.PointToPoint
import Umpi.Proofs.Matching

namespace Umpi

open Foundation

/-- The arguments of a send. -/
structure SendCall where
  rank : Nat
  buf : Loc
  count : Nat
  datatype : Datatype
  tag : Int

/-- The arguments of a receive. -/
structure RecvCall where
  buf : Loc
  count : Nat
  datatype : Datatype
  source : Int
  tag : Int

/-- A send as far as matching is concerned. -/
def SendCall.issue (x : SendCall) : SendIssue := { rank := x.rank, tag := x.tag, request := 0 }

/-- A receive as far as matching is concerned. -/
def RecvCall.issue (r : RecvCall) : RecvIssue := { source := r.source, tag := r.tag, request := 0 }

/-- The number of bytes of the message. -/
def SendCall.bytes (x : SendCall) : Nat := x.count * x.datatype.len

/-- The number of bytes there is room for. -/
def RecvCall.bytes (r : RecvCall) : Nat := r.count * r.datatype.len

/-- The buffer of the receive, in stream order. -/
def RecvCall.view (r : RecvCall) : List Loc := streamLocs r.buf r.datatype.iovec 0 r.count

/-- What the receiver finds when the transfer has been made: memory, the status and the error of its
    wait, and the number of bytes that were moved. -/
structure Delivery where
  mem : Memory
  status : Status
  err : Int
  moved : Int

/-- The transfer by `self` that a paired call has left over. -/
def deliver (vm : ProcessVm) (w : World) (self : Nat) (request : Option Nat) (cont : List Action) :
    Outcome Delivery :=
  match request, cont with
  | some id, [action] => do
      let done ← action.exec vm w self
      let (status, err) := getStatus (done.world.cookies id)
      pure { mem := done.world.mem, status := status, err := err, moved := done.moved }
  | _, _ => .blocked

/-- The receive is posted and then the send arrives. -/
def recvFirst (vm : ProcessVm) (w : World) (dest : Nat) (x : SendCall) (r : RecvCall) :
    Outcome Delivery :=
  let (w, posted) := recvRequest w dest r.buf r.count r.datatype.iovec r.source r.tag
  let (w, frame) := sendRequest w x.rank dest x.buf x.count x.datatype.iovec x.tag
  deliver vm w x.rank posted.request frame.cont

/-- The send is issued and then the receive arrives. -/
def sendFirst (vm : ProcessVm) (w : World) (dest : Nat) (x : SendCall) (r : RecvCall) :
    Outcome Delivery :=
  let (w, _) := sendRequest w x.rank dest x.buf x.count x.datatype.iovec x.tag
  let (w, frame) := recvRequest w dest r.buf r.count r.datatype.iovec r.source r.tag
  deliver vm w dest frame.request frame.cont

/-- The receive accepts the send, neither of them has another partner in the queues, and the arguments
    are what the entry points pass on: valid ranks and tags, `int` counts, buffers that exist. -/
structure Meeting (w : World) (dest : Nat) (x : SendCall) (r : RecvCall) : Prop where
  accepts : r.issue.accepts x.issue = true
  noSend : ∀ id ∈ (w.procs dest).inbox, (w.cookies id).recvMatch r.source r.tag = false
  noRecv : ∀ id ∈ (w.procs dest).outbox, (w.cookies id).sendMatch x.rank x.tag = false
  distinct : ((w.procs dest).inbox ++ (w.procs dest).outbox ++ (w.procs dest).free).Nodup
  allocated : ∀ id ∈ (w.procs dest).inbox ++ (w.procs dest).outbox ++ (w.procs dest).free, id < w.next
  rankBound : x.rank < rankLimit
  sendTagLow : 0 ≤ x.tag
  sendTagHigh : x.tag < tagLimit
  sourceLow : mpiAnySource ≤ r.source
  sourceHigh : r.source < rankLimit
  recvTagLow : mpiAnyTag ≤ r.tag
  recvTagHigh : r.tag < tagLimit
  sendCount : x.count < 2 ^ 31
  recvCount : r.count < 2 ^ 31
  sendBytes : x.bytes < 2 ^ 63
  recvBytes : r.bytes < 2 ^ 63

namespace Meeting

variable {w : World} {dest : Nat} {x : SendCall} {r : RecvCall}

theorem exactRank (meeting : Meeting w dest x r) : int16 (x.rank : Int) = x.rank := by
  have bound := meeting.rankBound
  unfold rankLimit at bound
  exact int16_of_range (by omega) (by omega)

theorem exactSendTag (meeting : Meeting w dest x r) : int16 x.tag = x.tag := by
  have high := meeting.sendTagHigh
  have low := meeting.sendTagLow
  unfold tagLimit at high
  exact int16_of_range (by omega) high

theorem exactSource (meeting : Meeting w dest x r) : int16 r.source = r.source := by
  have high := meeting.sourceHigh
  have low := meeting.sourceLow
  unfold rankLimit at high
  unfold mpiAnySource at low
  exact int16_of_range (by omega) (by omega)

theorem exactRecvTag (meeting : Meeting w dest x r) : int16 r.tag = r.tag := by
  have high := meeting.recvTagHigh
  have low := meeting.recvTagLow
  unfold tagLimit at high
  unfold mpiAnyTag at low
  exact int16_of_range (by omega) high

end Meeting

/-- The cookie of the posted receive once the send has been paired with it. -/
def postedCookie (dest : Nat) (x : SendCall) (r : RecvCall) : Cookie :=
  { Cookie.make dest r.buf r.datatype.iovec r.count r.count x.rank x.tag 1 with used := 2 }

/-- The cookie of the queued send once the receive has been paired with it. -/
def issuedCookie (x : SendCall) : Cookie :=
  { Cookie.make x.rank x.buf x.datatype.iovec x.count x.count x.rank x.tag 1 with used := 2 }

private theorem joinedTwice : int16 (1 + 1) = 2 := by decide

/-- In a queue whose old entries fail a test, the test finds a new entry that passes it. -/
theorem find_appended {queue : List Nat} {new : Nat} {test : Nat → Bool}
    (old : ∀ id ∈ queue, test id = false) (passes : test new = true) :
    (queue ++ [new]).find? test = some new := by
  have none : queue.find? test = none := List.find?_eq_none.mpr fun id member => by
    simp [old id member]
  simp [List.find?_append, none, passes]

/-- With the receive first, the sender writes into the receiver's cookie. -/
theorem recvFirst_paired (vm : ProcessVm) {w : World} {dest : Nat} {x : SendCall} {r : RecvCall}
    (meeting : Meeting w dest x r) :
    ∃ (w' : World) (id : Nat), w'.mem = w.mem ∧ w'.cookies id = postedCookie dest x r ∧
      recvFirst vm w dest x r =
        deliver vm w' x.rank (some id)
          [.writeToOwner id x.buf x.datatype.iovec x.count (.elems 0) (.elems 0)] := by
  let cookie := Cookie.make dest r.buf r.datatype.iovec r.count r.count r.source r.tag 1
  have inbox : ((w.procs dest).inbox.find? fun id => (w.cookies id).recvMatch r.source r.tag) = none :=
    List.find?_eq_none.mpr fun id member => by simp [meeting.noSend id member]
  obtain ⟨distinct, -⟩ := createRequest_fresh cookie meeting.distinct meeting.allocated
  have unused : ∀ id ∈ (w.procs dest).outbox, id ≠ (w.createRequest dest cookie).1 :=
    fun id member => (List.nodup_append.mp distinct).2.2 id (List.mem_append_right _ member) _
      List.mem_cons_self
  have src : cookie.src = r.issue.source := by
    rw [Cookie.make_src, meeting.exactSource, RecvCall.issue]
  have tag : cookie.tag = r.issue.tag := by
    rw [Cookie.make_tag, meeting.exactRecvTag, RecvCall.issue]
  have accepted : cookie.sendMatch x.rank x.tag = true :=
    (sendMatch_eq_accepts src tag x.issue).trans meeting.accepts
  have outbox : ((w.procs dest).outbox ++ [(w.createRequest dest cookie).1]).find? (fun id =>
      (Function.update w.cookies (w.createRequest dest cookie).1 cookie id).sendMatch x.rank x.tag) =
        some (w.createRequest dest cookie).1 := by
    refine find_appended ?_ (by simpa using accepted)
    intro id member
    rw [Function.update_of_ne (unused id member)]
    exact meeting.noRecv id member
  unfold recvFirst
  simp only [recvRequest, inbox, sendRequest, World.setProc_procs, Function.update_self,
    World.setProc_cookies, World.createRequest_cookies]
  rw [World.createRequest_outbox, outbox]
  refine ⟨_, _, ?_, ?_, rfl⟩
  · simp
  · simp only [cookie, World.join_cookies, World.setCookie_cookies, World.setProc_cookies,
      World.createRequest_cookies, Function.update_self]
    simp only [postedCookie, Cookie.make, joinedTwice]

/-- With the send first, the receiver reads from the sender's cookie. -/
theorem sendFirst_paired (vm : ProcessVm) {w : World} {dest : Nat} {x : SendCall} {r : RecvCall}
    (meeting : Meeting w dest x r) :
    ∃ (w' : World) (id : Nat), w'.mem = w.mem ∧ w'.cookies id = issuedCookie x ∧
      sendFirst vm w dest x r =
        deliver vm w' dest (some id)
          [.readFromOwner id r.buf r.datatype.iovec r.count 0 (.elems 0) (.elems 0)] := by
  let cookie := Cookie.make x.rank x.buf x.datatype.iovec x.count x.count x.rank x.tag 1
  have outbox : ((w.procs dest).outbox.find? fun id => (w.cookies id).sendMatch x.rank x.tag) = none :=
    List.find?_eq_none.mpr fun id member => by simp [meeting.noRecv id member]
  obtain ⟨distinct, -⟩ := createRequest_fresh cookie meeting.distinct meeting.allocated
  have unused : ∀ id ∈ (w.procs dest).inbox, id ≠ (w.createRequest dest cookie).1 :=
    fun id member => (List.nodup_append.mp distinct).2.2 id (List.mem_append_left _ member) _
      List.mem_cons_self
  have src : cookie.src = x.issue.rank := by rw [Cookie.make_src, meeting.exactRank, SendCall.issue]
  have tag : cookie.tag = x.issue.tag := by rw [Cookie.make_tag, meeting.exactSendTag, SendCall.issue]
  have accepted : cookie.recvMatch r.source r.tag = true :=
    (recvMatch_eq_accepts src tag meeting.sendTagLow r.issue).trans meeting.accepts
  have inbox : ((w.procs dest).inbox ++ [(w.createRequest dest cookie).1]).find? (fun id =>
      (Function.update w.cookies (w.createRequest dest cookie).1 cookie id).recvMatch
        r.source r.tag) = some (w.createRequest dest cookie).1 := by
    refine find_appended ?_ (by simpa using accepted)
    intro id member
    rw [Function.update_of_ne (unused id member)]
    exact meeting.noSend id member
  unfold sendFirst
  simp only [sendRequest, outbox, recvRequest, World.setProc_procs, Function.update_self,
    World.setProc_cookies, World.createRequest_cookies]
  rw [World.createRequest_inbox, inbox]
  refine ⟨_, _, ?_, ?_, rfl⟩
  · simp
  · simp only [cookie, World.join_cookies, World.setProc_cookies, World.createRequest_cookies,
      Function.update_self]
    simp only [issuedCookie, Cookie.make, joinedTwice]

/-! ### What the two runs deliver -/

/-- The status and the error that a finished transfer leaves in its cookie. -/
theorem getStatus_finishTransfer (w : World) (id : Nat) (err moved : Int) :
    getStatus ((w.finishTransfer id err moved).world.cookies id) =
      ({ source := (w.cookies id).src
         tag := (w.cookies id).tag
         len := sizeT ((w.cookies id).count * (w.cookies id).iovec.len) },
        if (w.cookies id).err ≠ 0 then (w.cookies id).err else int16 err) := by
  simp [getStatus, World.finishTransfer]

variable {vm : ProcessVm} {w : World} {dest : Nat} {x : SendCall} {r : RecvCall}

/-- A message that fits is written as a whole; the status counts whole elements of the receive type. -/
theorem recvFirst_delivers (copies : CopiesAll vm) (meeting : Meeting w dest x r)
    (fits : x.bytes ≤ r.bytes) :
    recvFirst vm w dest x r =
      .ok
        { mem := copyAll w.mem (streamLocs x.buf x.datatype.iovec 0 x.count) (r.view.take x.bytes)
          status :=
            { source := x.rank
              tag := x.tag
              len := x.bytes / r.datatype.len * r.datatype.len }
          err := 0
          moved := x.bytes } := by
  obtain ⟨w', id, mem, cookie, run⟩ := recvFirst_paired vm meeting
  have recvBytes : r.bytes < 2 ^ 63 := meeting.recvBytes
  have roomFor : ¬ r.count * r.datatype.iovec.len < x.count * x.datatype.iovec.len :=
    Nat.not_lt.mpr fits
  have fits' : 0 * r.datatype.iovec.len + x.count * x.datatype.iovec.len ≤
      r.count * r.datatype.iovec.len := by
    rw [Nat.zero_mul, Nat.zero_add]
    exact fits
  have rounded : x.bytes / r.datatype.len * r.datatype.len ≤ x.bytes := Nat.div_mul_le_self _ _
  have written := writeToOwner_eq x.buf copies x.datatype.wellFormed
    r.datatype.wellFormed r.datatype.lenPos (rfl : (0 : Int) = (0 : Nat)) 0
    (by rw [cookie]; rfl : (w'.cookies id).buf = r.buf)
    (by rw [cookie]; rfl) (by rw [cookie]; rfl) (by rw [cookie]; rfl) meeting.recvCount recvBytes
    recvBytes fits'
  rw [if_neg roomFor] at written
  have bytes : sizeT ((x.bytes / r.datatype.len : Nat) * (r.datatype.len : Int)) =
      x.bytes / r.datatype.len * r.datatype.len := sizeT_mul (by omega)
  rw [run]
  simp only [deliver, Action.exec, Offset.eval, Outcome.ok_bind, written, getStatus_finishTransfer]
  simp [cookie, postedCookie, meeting.exactRank, meeting.exactSendTag, mem, World.finishTransfer]
  refine ⟨rfl, ?_, by decide, (Int.natCast_mul _ _).symm⟩
  rw [← bytes]
  simp [SendCall.bytes, Datatype.len]

variable (vm) in
/-- A message that does not fit is refused. -/
theorem recvFirst_refuses (meeting : Meeting w dest x r) (exceeds : r.bytes < x.bytes) :
    recvFirst vm w dest x r =
      .ok
        { mem := w.mem
          status := { source := x.rank, tag := x.tag, len := r.bytes }
          err := mpiFail
          moved := 0 } := by
  obtain ⟨w', id, mem, cookie, run⟩ := recvFirst_paired vm meeting
  have recvBytes : r.count * r.datatype.iovec.len < 2 ^ 63 := meeting.recvBytes
  have exceeds' : r.count * r.datatype.iovec.len <
      0 * r.datatype.iovec.len + x.count * x.datatype.iovec.len := by
    rw [Nat.zero_mul, Nat.zero_add]
    exact exceeds
  have refused := writeToOwner_refused vm x.buf (rfl : (0 : Int) = (0 : Nat)) 0
    (by rw [cookie]; rfl) (by rw [cookie]; rfl) meeting.sendBytes recvBytes (by simp) exceeds'
  have bytes : sizeT ((r.count : Int) * (r.datatype.iovec.len : Int)) = r.bytes :=
    sizeT_mul (by omega)
  rw [run]
  simp only [deliver, Action.exec, Offset.eval, Outcome.ok_bind, refused, getStatus_finishTransfer,
    cookie]
  simp [postedCookie, meeting.exactRank, meeting.exactSendTag, bytes, mem, World.finishTransfer]
  decide

/-- Whatever the receiver reads, its status reports the length of the message. -/
theorem sendFirst_status (vm : ProcessVm) (meeting : Meeting w dest x r) :
    ∃ b, sendFirst vm w dest x r = .ok b ∧
      b.status = { source := x.rank, tag := x.tag, len := x.bytes } := by
  obtain ⟨w', id, mem, cookie, run⟩ := sendFirst_paired vm meeting
  have divisor : ¬ ((0 : Int) = 0 ∧ r.datatype.iovec.len = 0) := fun zero =>
    Nat.ne_of_gt r.datatype.lenPos zero.2
  obtain ⟨done, returned⟩ := readFromOwner_returns vm w' id r.buf divisor r.count 0 0
  obtain ⟨mem', err, moved, rfl⟩ := readFromOwner_form returned
  have bytes : sizeT ((x.count : Int) * (x.datatype.iovec.len : Int)) = x.bytes :=
    sizeT_mul (Nat.lt_trans meeting.sendBytes (by norm_num))
  rw [run]
  simp only [deliver, Action.exec, Offset.eval, Outcome.ok_bind, returned, getStatus_finishTransfer,
    cookie]
  refine ⟨_, rfl, ?_⟩
  simp [issuedCookie, meeting.exactRank, meeting.exactSendTag, bytes]

/-- A message of whole elements that fits is read as a whole. -/
theorem sendFirst_delivers (copies : CopiesAll vm) (meeting : Meeting w dest x r)
    (whole : r.datatype.len ∣ x.bytes) (fits : x.bytes ≤ r.bytes) :
    sendFirst vm w dest x r =
      .ok
        { mem := copyAll w.mem (streamLocs x.buf x.datatype.iovec 0 x.count) (r.view.take x.bytes)
          status := { source := x.rank, tag := x.tag, len := x.bytes }
          err := 0
          moved := x.bytes } := by
  obtain ⟨w', id, mem, cookie, run⟩ := sendFirst_paired vm meeting
  obtain ⟨n, elements⟩ := whole
  have lenPos : 0 < r.datatype.len := r.datatype.lenPos
  have asked : n * r.datatype.iovec.len = x.bytes := by
    rw [elements, Nat.mul_comm]
    rfl
  have few : n ≤ r.count := by
    refine Nat.le_of_mul_le_mul_left ?_ lenPos
    rw [← elements, Nat.mul_comm]
    exact fits
  have quotient : x.bytes / r.datatype.len = n := by rw [elements, Nat.mul_div_cancel_left _ lenPos]
  have amount : requested 0 x.count 0 x.datatype.iovec.len r.datatype.iovec.len = n := quotient
  have read := readFromOwner_eq r.buf copies r.datatype.wellFormed x.datatype.wellFormed
    r.datatype.lenPos x.datatype.lenPos (rfl : (0 : Int) = (0 : Nat)) (rfl : (0 : Int) = (0 : Nat))
    (rfl : (0 : Int) = (0 : Nat)) (by rw [cookie]; rfl : (w'.cookies id).buf = x.buf)
    (by rw [cookie]; rfl) (by rw [cookie]; rfl) meeting.recvCount
    (Nat.lt_trans meeting.sendBytes (by norm_num)) (Nat.lt_trans meeting.recvBytes (by norm_num))
    (by rw [amount, asked]; exact meeting.sendBytes)
    (by rw [amount, asked, Nat.zero_mul, Nat.zero_add]; exact le_rfl)
    (by rw [amount, asked, Nat.zero_mul, Nat.zero_add]; exact fits)
  rw [amount, asked] at read
  have source : (streamLocs x.buf x.datatype.iovec 0 x.count).take x.bytes =
      streamLocs x.buf x.datatype.iovec 0 x.count :=
    take_streamLocs x.datatype.wellFormed 0 le_rfl
  have target : streamLocs r.buf r.datatype.iovec 0 n = r.view.take x.bytes := by
    rw [← asked]
    exact (take_streamLocs r.datatype.wellFormed 0 few).symm
  have bytes : sizeT ((x.count : Int) * (x.datatype.iovec.len : Int)) = x.bytes :=
    sizeT_mul (Nat.lt_trans meeting.sendBytes (by norm_num))
  rw [run]
  simp only [deliver, Action.exec, Offset.eval, Outcome.ok_bind, read, getStatus_finishTransfer,
    cookie]
  simp [issuedCookie, meeting.exactRank, meeting.exactSendTag, mem, World.finishTransfer, bytes,
    source, target]
  decide

/-- Two runs deliver the same: the receive buffer holds the same bytes, the receiver gets the same
    status, whose length is the number of bytes moved, and both runs succeed or both are refused. -/
structure Delivery.Agree (view : List Loc) (a b : Delivery) : Prop where
  bytes : readAll a.mem view = readAll b.mem view
  status : a.status = b.status
  delivered : (a.status.len : Int) = a.moved ∧ (b.status.len : Int) = b.moved
  verdict : a.err = mpiSuccess ↔ b.err = mpiSuccess

/-- The two arrival orders deliver the same exactly when the message consists of whole elements of the
    receive type and fits into the receive buffer. -/
theorem arrival_order_iff (copies : CopiesAll vm) (meeting : Meeting w dest x r) :
    ∃ a b, recvFirst vm w dest x r = .ok a ∧ sendFirst vm w dest x r = .ok b ∧
      (a.Agree r.view b ↔ r.datatype.len ∣ x.bytes ∧ x.bytes ≤ r.bytes) := by
  by_cases fits : x.bytes ≤ r.bytes
  · have delivers := recvFirst_delivers copies meeting fits
    by_cases whole : r.datatype.len ∣ x.bytes
    · refine ⟨_, _, delivers, sendFirst_delivers copies meeting whole fits, ?_⟩
      rw [Nat.div_mul_cancel whole]
      exact iff_of_true ⟨rfl, rfl, ⟨rfl, rfl⟩, Iff.rfl⟩ ⟨whole, fits⟩
    · obtain ⟨b, run, status⟩ := sendFirst_status vm meeting
      refine ⟨_, b, delivers, run, iff_of_false ?_ fun condition => whole condition.1⟩
      intro agree
      have lengths := congrArg Status.len (agree.status.trans status)
      exact whole ⟨x.bytes / r.datatype.len, by rw [Nat.mul_comm]; exact lengths.symm⟩
  · have refuses := recvFirst_refuses vm meeting (Nat.lt_of_not_le fits)
    obtain ⟨b, run, status⟩ := sendFirst_status vm meeting
    refine ⟨_, b, refuses, run, iff_of_false ?_ fun condition => fits condition.2⟩
    intro agree
    have lengths : r.bytes = x.bytes := congrArg Status.len (agree.status.trans status)
    omega

/-- A message of `count` bytes of `MPI_CHAR` from rank 1. -/
def charMessage (count : Nat) : SendCall :=
  { rank := 1, buf := { region := .heap 1, addr := 0 }, count := count, datatype := .mpiChar, tag := 0 }

/-- A receive of one `MPI_INT` from anybody. -/
def intReceive : RecvCall :=
  { buf := { region := .heap 0, addr := 0 }
    count := 1
    datatype := .mpiInt
    source := mpiAnySource
    tag := 0 }

theorem charMessage_meeting {count : Nat} (few : count < 2 ^ 31) (mem : Memory) :
    Meeting (World.start 2 mem) 0 (charMessage count) intReceive where
  accepts := rfl
  noSend := by simp [World.start, Process.new]
  noRecv := by simp [World.start, Process.new]
  distinct := by simp [World.start, Process.new]
  allocated := by simp [World.start, Process.new]
  rankBound := (by decide : 1 < rankLimit)
  sendTagLow := (by decide : (0 : Int) ≤ 0)
  sendTagHigh := (by decide : 0 < tagLimit)
  sourceLow := by decide
  sourceHigh := by decide
  recvTagLow := by decide
  recvTagHigh := by decide
  sendCount := few
  recvCount := by decide
  sendBytes := by
    have bytes : (charMessage count).bytes = count := Nat.mul_one count
    omega
  recvBytes := by decide

/-- Four characters fill one integer, in either order. -/
theorem arrival_order_fourChars :
    ∃ a b, recvFirst copyingVm (World.start 2 fun _ => 0) 0 (charMessage 4) intReceive = .ok a ∧
      sendFirst copyingVm (World.start 2 fun _ => 0) 0 (charMessage 4) intReceive = .ok b ∧
      (a.Agree intReceive.view b ↔ 4 ∣ 4 ∧ 4 ≤ 4) :=
  arrival_order_iff copyingVm_copies (charMessage_meeting (by decide) _)

/-- Three characters do not: with the receive first three bytes arrive and the status reports none of
    them, with the send first the status reports three bytes. -/
theorem arrival_order_threeChars :
    ∃ a b, recvFirst copyingVm (World.start 2 fun _ => 0) 0 (charMessage 3) intReceive = .ok a ∧
      sendFirst copyingVm (World.start 2 fun _ => 0) 0 (charMessage 3) intReceive = .ok b ∧
      a.moved = 3 ∧ a.status.len = 0 ∧ b.status.len = 3 ∧ ¬ a.Agree intReceive.view b := by
  have meeting := charMessage_meeting (by decide : 3 < 2 ^ 31) fun _ => 0
  have delivers := recvFirst_delivers copyingVm_copies meeting (by decide)
  obtain ⟨b, run, status⟩ := sendFirst_status copyingVm meeting
  have reported : b.status.len = 3 := congrArg Status.len status
  refine ⟨_, b, delivers, run, by decide, by decide, reported, ?_⟩
  intro agree
  have lengths : 0 = 3 := (congrArg Status.len agree.status).trans reported
  exact absurd lengths (by decide)

end Umpi
