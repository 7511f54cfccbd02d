/-
Module: Umpi.Model.PointToPoint
Layer: Model
Purpose: Point-to-point messages: the matching predicates of cookies, `process::recv_request` and
  `process::send_request`, the entry points `MPI_Irecv` and `MPI_Issend`, and the status a receiver
  gets. A request function is the critical section in which it decides whether the message has a
  partner; the transfer that follows the unlock is the action it leaves in its frame.
Imports: Umpi.Model.Collective
Trusted boundary: human-reviewed spec
Main exports: Cookie.recvMatch, Cookie.sendMatch, recvRequest, sendRequest, mpiIrecv, mpiIssend,
  Status, getStatus
Open obligations: none
-/
import Umpi.Model.Collective

namespace Umpi

/-- `cookie::recv_match`: does a receive for `source` and `tag` accept this queued send? -/
def Cookie.recvMatch (cookie : Cookie) (source tag : Int) : Bool :=
  (cookie.tag == tag || (tag == mpiAnyTag && decide (0 ≤ cookie.tag))) &&
    (cookie.src == source || source == mpiAnySource)

/-- `cookie::send_match`: does this queued receive accept a send from `source` with `tag`? -/
def Cookie.sendMatch (cookie : Cookie) (source tag : Int) : Bool :=
  (cookie.tag == tag || cookie.tag == mpiAnyTag) &&
    (cookie.src == source || cookie.src == mpiAnySource)

/-- `process::recv_request`, called by the process `self` on itself: the oldest matching send in
    `inbox_` is taken, otherwise the receive is queued in `outbox_`. -/
def recvRequest (w : World) (self : Nat) (buf : Loc) (count : Int) (iovec : Iovec)
    (source tag : Int) : World × Frame :=
  let process := w.procs self
  match process.inbox.find? fun id => (w.cookies id).recvMatch source tag with
  | some id =>
      let w := w.setProc self
        { process with inbox := process.inbox.erase id, pending := id :: process.pending }
      (w.join id, Frame.done id [.readFromOwner id buf iovec count 0 (.elems 0) (.elems 0)])
  | none =>
      let (id, w) := w.createRequest self (Cookie.make self buf iovec count count source tag 1)
      (w.setProc self { w.procs self with outbox := (w.procs self).outbox ++ [id] },
        Frame.done id [])

/-- `process::send_request`, called by rank `self` on the process `dest`: the oldest matching receive
    in `outbox_` is taken and gets the sender's rank and tag, otherwise the send is queued in `inbox_`.
    The cookie comes from the destination's `free_` list but belongs to the sender. -/
def sendRequest (w : World) (self dest : Nat) (buf : Loc) (count : Int) (iovec : Iovec) (tag : Int) :
    World × Frame :=
  let process := w.procs dest
  match process.outbox.find? fun id => (w.cookies id).sendMatch self tag with
  | some id =>
      let w := w.setProc dest
        { process with outbox := process.outbox.erase id, pending := id :: process.pending }
      let w := w.setCookie id { w.cookies id with src := int16 self, tag := int16 tag }
      (w.join id, Frame.done id [.writeToOwner id buf iovec count (.elems 0) (.elems 0)])
  | none =>
      let (id, w) := w.createRequest dest (Cookie.make self buf iovec count count self tag 1)
      let process := w.procs dest
      let signals :=
        if process.waitingFor = .incoming then process.signals + 1 else process.signals
      (w.setProc dest { process with inbox := process.inbox ++ [id], signals := signals },
        Frame.done id [])

/-- `MPI_Irecv`. -/
def mpiIrecv (w : World) (self : Nat) (buf : Pointer) (count : Int) (datatype : MpiDatatype)
    (source tag : Int) (comm : MpiComm) : World × Frame :=
  match datatype with
  | none => (w, Frame.failed mpiFail)
  | some iovec =>
      if (buf = .null ∧ count ≠ 0) ∨ source < mpiAnySource ∨ (w.size : Int) ≤ source ∨
          tag < mpiAnyTag ∨ comm ≠ .world then
        (w, Frame.failed mpiFail)
      else recvRequest w self (buf.loc self) count iovec source tag

/-- `MPI_Issend`, which is also `MPI_Isend`. -/
def mpiIssend (w : World) (self : Nat) (buf : Pointer) (count : Int) (datatype : MpiDatatype)
    (dest tag : Int) (comm : MpiComm) : World × Frame :=
  match datatype with
  | none => (w, Frame.failed mpiFail)
  | some iovec =>
      if (buf = .null ∧ count ≠ 0) ∨ dest < 0 ∨ (w.size : Int) ≤ dest ∨ tag < 0 ∨
          comm ≠ .world then
        (w, Frame.failed mpiFail)
      else sendRequest w self dest.toNat (buf.loc self) count iovec tag

/-- The fields of `MPI_Status` that `get_status` sets. -/
structure Status where
  source : Int
  tag : Int
  len : Nat
deriving Repr, DecidableEq

/-- `get_status`: the status and the return value of a wait on the cookie. -/
def getStatus (cookie : Cookie) : Status × Int :=
  ({ source := cookie.src
     tag := cookie.tag
     len := sizeT (cookie.count * cookie.iovec.len) }, cookie.err)

end Umpi
