/-
Module: Umpi.Model.State
Layer: Model
Purpose: The state all ranks share: cookies, the lists of every `process`, the slots of collective
  operations, the tickets, and memory. A cookie is named by a number that stands for its address; the
  `std::list` boxes hold these names, so splicing a cookie from one list to another keeps its name.
  The primitive operations on cookies and lists are here: `create_request`, `move_to_pending`,
  `join`, `notify_done` and `finalize`.
Imports: Umpi.Model.Iovec
Trusted boundary: human-reviewed spec
Main exports: Cookie, Process, Collect, World, World.start, World.createRequest, World.moveToPending, World.join,
  World.notifyDone, World.finalize
Open obligations: none
-/
import Umpi.Model.Iovec

namespace Umpi

/-- `MPI_SUCCESS`. -/
def mpiSuccess : Int := 0

/-- `MPI_FAIL`. -/
def mpiFail : Int := 1

theorem mpiFail_ne_mpiSuccess : mpiFail ≠ mpiSuccess := by decide

/-- `MPI_ANY_SOURCE`. -/
def mpiAnySource : Int := -1

/-- `MPI_ANY_TAG`. -/
def mpiAnyTag : Int := -1

/-- `UMPI_TAG_CC`, the tag of cookies made by collective operations. -/
def umpiTagCc : Int := -2

/-- `UMPI_OUTSTANDING_COLLECTIVE_OPERATIONS`, the number of slots. -/
def umpiOutstandingCollectiveOperations : Nat := 16

/-- `UMPI_MAX_IN_PLACE_LEN`, the size of each scratch buffer of a slot. -/
def umpiMaxInPlaceLen : Nat := 64

/-- `struct cookie`. The last two fields are not in the source: they record, for the statements about
    notifications, the `num` the cookie was made with and how often `notify_done` was called on it. -/
structure Cookie where
  owner : Nat
  buf : Loc
  iovec : Iovec
  size : Int
  count : Int
  tag : Int
  src : Int
  err : Int
  used : Int
  busy : Int
  num : Int
  notified : Nat
deriving Repr, DecidableEq

/-- The constructor of `cookie`, and what `reset` makes of a recycled one. -/
def Cookie.make (owner : Nat) (buf : Loc) (iovec : Iovec) (size count source tag : Int)
    (num : Int) : Cookie :=
  { owner := owner
    buf := buf
    iovec := iovec
    size := size
    count := count
    tag := int16 tag
    src := int16 source
    err := 0
    used := 1
    busy := int16 num
    num := num
    notified := 0 }

section CookieFields

variable (owner : Nat) (buf : Loc) (iovec : Iovec) (size count source tag num : Int)

@[simp] theorem Cookie.make_owner :
    (Cookie.make owner buf iovec size count source tag num).owner = owner := rfl
@[simp] theorem Cookie.make_buf :
    (Cookie.make owner buf iovec size count source tag num).buf = buf := rfl
@[simp] theorem Cookie.make_iovec :
    (Cookie.make owner buf iovec size count source tag num).iovec = iovec := rfl
@[simp] theorem Cookie.make_size :
    (Cookie.make owner buf iovec size count source tag num).size = size := rfl
@[simp] theorem Cookie.make_count :
    (Cookie.make owner buf iovec size count source tag num).count = count := rfl
@[simp] theorem Cookie.make_tag :
    (Cookie.make owner buf iovec size count source tag num).tag = int16 tag := rfl
@[simp] theorem Cookie.make_src :
    (Cookie.make owner buf iovec size count source tag num).src = int16 source := rfl
@[simp] theorem Cookie.make_err :
    (Cookie.make owner buf iovec size count source tag num).err = 0 := rfl
@[simp] theorem Cookie.make_used :
    (Cookie.make owner buf iovec size count source tag num).used = 1 := rfl
@[simp] theorem Cookie.make_busy :
    (Cookie.make owner buf iovec size count source tag num).busy = int16 num := rfl
@[simp] theorem Cookie.make_num :
    (Cookie.make owner buf iovec size count source tag num).num = num := rfl
@[simp] theorem Cookie.make_notified :
    (Cookie.make owner buf iovec size count source tag num).notified = 0 := rfl

end CookieFields

/-- `process::waiting_for_type`. -/
inductive WaitingFor where
  | notWaiting
  | incoming
  | anyCookie
  | cookie
deriving Repr, DecidableEq

/-- `class process`, without its mutex: every operation on it below is one critical section.
    `signals` counts the calls of `cond_.notify_one()`. -/
structure Process where
  free : List Nat
  inbox : List Nat
  outbox : List Nat
  pending : List Nat
  waiting : Option Nat
  waitingFor : WaitingFor
  signals : Nat
deriving Repr

/-- The state `process()` starts in. -/
def Process.new : Process :=
  { free := []
    inbox := []
    outbox := []
    pending := []
    waiting := none
    waitingFor := .notWaiting
    signals := 0 }

/-- `class collect`, one slot. The buffers `sendbuf_` and `recvbuf_` are in memory, at the locations
    `sendbuf` and `recvbuf` below; `mutex` is the rank that holds `mutex_`, and `iovec` is `none` as long as
    `iovec_` is null. The last field is not in the source: it records which cookies were created for the slot's
    operation. -/
structure Collect where
  mutex : Option Nat
  displs : Nat → Int
  box : List Nat
  iovec : Option Iovec
  count : Int
  ticket : Nat
  joined : Int
  made : List Nat

/-- The slot's `sendbuf_`. -/
def sendbuf (turn : Nat) : Loc := { region := .scratch turn, addr := 0 }

/-- The slot's `recvbuf_`, which follows `sendbuf_` in the object. -/
def recvbuf (turn : Nat) : Loc := { region := .scratch turn, addr := umpiMaxInPlaceLen }

/-- Everything the processes share, and each process's memory and ticket. `cookies` gives the fields
    of every cookie ever allocated, and `next` is the name of the next new one. -/
structure World where
  size : Nat
  mem : Memory
  cookies : Nat → Cookie
  next : Nat
  procs : Nat → Process
  slots : Nat → Collect
  ticket : Nat → Nat

/-- The state `collect()` starts in: `iovec_` is null. The constructor sets neither `count_` nor the array `displs_`
    points to; `count_` is only used together with `iovec_`. -/
def Collect.new : Collect :=
  { mutex := none
    displs := fun _ => 0
    box := []
    iovec := none
    count := 0
    ticket := 0
    joined := 0
    made := [] }

namespace World

/-- The shared state after `MPI_Init` has returned in every one of `size` processes. -/
def start (size : Nat) (mem : Memory) : World :=
  { size := size
    mem := mem
    cookies := fun _ => Cookie.make 0 { region := .null, addr := 0 } [] 0 0 0 0 0
    next := 0
    procs := fun _ => Process.new
    slots := fun _ => Collect.new
    ticket := fun _ => 0 }

def setCookie (w : World) (id : Nat) (cookie : Cookie) : World :=
  { w with cookies := Function.update w.cookies id cookie }

def setProc (w : World) (rank : Nat) (process : Process) : World :=
  { w with procs := Function.update w.procs rank process }

def setSlot (w : World) (turn : Nat) (slot : Collect) : World :=
  { w with slots := Function.update w.slots turn slot }

/-- The cookie part of `process::create_request`: the first cookie of `free_`, if there is one, is
    reset, otherwise a new cookie is constructed. The caller appends the name to a box. -/
def createRequest (w : World) (process : Nat) (cookie : Cookie) : Nat × World :=
  match (w.procs process).free with
  | [] =>
      (w.next, { w with next := w.next + 1, cookies := Function.update w.cookies w.next cookie })
  | id :: rest =>
      (id, (w.setProc process { w.procs process with free := rest }).setCookie id cookie)

/-- `process::move_to_pending` of the cookie's owner. The caller drops the name from its own list. -/
def moveToPending (w : World) (id : Nat) : World :=
  let owner := (w.cookies id).owner
  w.setProc owner { w.procs owner with pending := id :: (w.procs owner).pending }

/-- `cookie::join`. -/
def join (w : World) (id : Nat) : World :=
  w.setCookie id { w.cookies id with used := int16 ((w.cookies id).used + 1) }

/-- `process::notify_done` of the cookie's owner. -/
def notifyDone (w : World) (id : Nat) (err : Int) : World :=
  let cookie := w.cookies id
  let busy := int16 (cookie.busy - 1)
  let process := w.procs cookie.owner
  let wake := busy = 0 ∧ process.waitingFor = .cookie ∧ process.waiting = some id
  (w.setCookie id
    { cookie with
      err := if cookie.err ≠ 0 then cookie.err else int16 err
      busy := busy
      notified := cookie.notified + 1 }).setProc cookie.owner
    { process with signals := if wake then process.signals + 1 else process.signals }

/-- `process::finalize` of the cookie's owner, called by `cookie::leave`. Every cookie of `pending_`
    that nobody uses any more goes to the front of `free_`, one after the other, and a `free_` list
    that has grown past twice the number of processes is cut to that number. -/
def finalize (w : World) (id : Nat) : World :=
  let owner := (w.cookies id).owner
  let w := w.setCookie id { w.cookies id with used := int16 ((w.cookies id).used - 1) }
  let process := w.procs owner
  let finished := process.pending.filter fun id => (w.cookies id).used = 0
  let free := finished.reverse ++ process.free
  w.setProc owner
    { process with
      pending := process.pending.filter fun id => (w.cookies id).used ≠ 0
      free := if 2 * w.size < free.length then free.take w.size else free }

section Fields

variable (w : World) (id rank turn : Nat) (cookie : Cookie) (process : Process) (slot : Collect)
  (err : Int)

@[simp] theorem setCookie_size : (w.setCookie id cookie).size = w.size := rfl
@[simp] theorem setCookie_mem : (w.setCookie id cookie).mem = w.mem := rfl
@[simp] theorem setCookie_next : (w.setCookie id cookie).next = w.next := rfl
@[simp] theorem setCookie_procs : (w.setCookie id cookie).procs = w.procs := rfl
@[simp] theorem setCookie_slots : (w.setCookie id cookie).slots = w.slots := rfl
@[simp] theorem setCookie_ticket : (w.setCookie id cookie).ticket = w.ticket := rfl
@[simp] theorem setCookie_cookies :
    (w.setCookie id cookie).cookies = Function.update w.cookies id cookie := rfl

@[simp] theorem setProc_size : (w.setProc rank process).size = w.size := rfl
@[simp] theorem setProc_mem : (w.setProc rank process).mem = w.mem := rfl
@[simp] theorem setProc_next : (w.setProc rank process).next = w.next := rfl
@[simp] theorem setProc_cookies : (w.setProc rank process).cookies = w.cookies := rfl
@[simp] theorem setProc_slots : (w.setProc rank process).slots = w.slots := rfl
@[simp] theorem setProc_ticket : (w.setProc rank process).ticket = w.ticket := rfl
@[simp] theorem setProc_procs :
    (w.setProc rank process).procs = Function.update w.procs rank process := rfl

@[simp] theorem setSlot_size : (w.setSlot turn slot).size = w.size := rfl
@[simp] theorem setSlot_mem : (w.setSlot turn slot).mem = w.mem := rfl
@[simp] theorem setSlot_next : (w.setSlot turn slot).next = w.next := rfl
@[simp] theorem setSlot_cookies : (w.setSlot turn slot).cookies = w.cookies := rfl
@[simp] theorem setSlot_procs : (w.setSlot turn slot).procs = w.procs := rfl
@[simp] theorem setSlot_ticket : (w.setSlot turn slot).ticket = w.ticket := rfl
@[simp] theorem setSlot_slots :
    (w.setSlot turn slot).slots = Function.update w.slots turn slot := rfl

@[simp] theorem createRequest_size : (w.createRequest rank cookie).2.size = w.size := by
  unfold createRequest; split <;> rfl

@[simp] theorem createRequest_mem : (w.createRequest rank cookie).2.mem = w.mem := by
  unfold createRequest; split <;> rfl

@[simp] theorem createRequest_slots : (w.createRequest rank cookie).2.slots = w.slots := by
  unfold createRequest; split <;> rfl

@[simp] theorem createRequest_ticket : (w.createRequest rank cookie).2.ticket = w.ticket := by
  unfold createRequest; split <;> rfl

@[simp] theorem createRequest_inbox (process : Nat) :
    ((w.createRequest rank cookie).2.procs process).inbox = (w.procs process).inbox := by
  unfold createRequest
  split
  · rfl
  · by_cases same : process = rank <;> simp [same]

@[simp] theorem createRequest_outbox (process : Nat) :
    ((w.createRequest rank cookie).2.procs process).outbox = (w.procs process).outbox := by
  unfold createRequest
  split
  · rfl
  · by_cases same : process = rank <;> simp [same]

@[simp] theorem createRequest_cookies :
    (w.createRequest rank cookie).2.cookies =
      Function.update w.cookies (w.createRequest rank cookie).1 cookie := by
  unfold createRequest; split <;> rfl

@[simp] theorem moveToPending_size : (w.moveToPending id).size = w.size := rfl
@[simp] theorem moveToPending_mem : (w.moveToPending id).mem = w.mem := rfl
@[simp] theorem moveToPending_next : (w.moveToPending id).next = w.next := rfl
@[simp] theorem moveToPending_cookies : (w.moveToPending id).cookies = w.cookies := rfl
@[simp] theorem moveToPending_slots : (w.moveToPending id).slots = w.slots := rfl
@[simp] theorem moveToPending_ticket : (w.moveToPending id).ticket = w.ticket := rfl

@[simp] theorem join_size : (w.join id).size = w.size := rfl
@[simp] theorem join_mem : (w.join id).mem = w.mem := rfl
@[simp] theorem join_next : (w.join id).next = w.next := rfl
@[simp] theorem join_procs : (w.join id).procs = w.procs := rfl
@[simp] theorem join_slots : (w.join id).slots = w.slots := rfl
@[simp] theorem join_ticket : (w.join id).ticket = w.ticket := rfl
@[simp] theorem join_cookies :
    (w.join id).cookies =
      Function.update w.cookies id
        { w.cookies id with used := int16 ((w.cookies id).used + 1) } := rfl

@[simp] theorem notifyDone_size : (w.notifyDone id err).size = w.size := rfl
@[simp] theorem notifyDone_mem : (w.notifyDone id err).mem = w.mem := rfl
@[simp] theorem notifyDone_next : (w.notifyDone id err).next = w.next := rfl
@[simp] theorem notifyDone_slots : (w.notifyDone id err).slots = w.slots := rfl
@[simp] theorem notifyDone_ticket : (w.notifyDone id err).ticket = w.ticket := rfl
@[simp] theorem notifyDone_cookies :
    (w.notifyDone id err).cookies =
      Function.update w.cookies id
        { w.cookies id with
          err := if (w.cookies id).err ≠ 0 then (w.cookies id).err else int16 err
          busy := int16 ((w.cookies id).busy - 1)
          notified := (w.cookies id).notified + 1 } := rfl

@[simp] theorem finalize_size : (w.finalize id).size = w.size := rfl
@[simp] theorem finalize_mem : (w.finalize id).mem = w.mem := rfl
@[simp] theorem finalize_next : (w.finalize id).next = w.next := rfl
@[simp] theorem finalize_slots : (w.finalize id).slots = w.slots := rfl
@[simp] theorem finalize_ticket : (w.finalize id).ticket = w.ticket := rfl
@[simp] theorem finalize_cookies :
    (w.finalize id).cookies =
      Function.update w.cookies id
        { w.cookies id with used := int16 ((w.cookies id).used - 1) } := rfl

end Fields

end World

end Umpi
