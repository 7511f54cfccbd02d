/-
Module: Umpi.Model.Collective
Layer: Model
Purpose: The collective operations: `shared::get_current_slot`, the request functions of `collect` and
  the entry points `MPI_Ibcast` to `MPI_Iscan`. Each request function is the part of the call that runs
  while the slot's mutex is held; it returns the `Frame` of what follows after the unlock. The eight
  functions of bcast, gather, gatherv and scatter are two functions with parameters, `memberRequest`
  for a rank other than the root and `rootRequest` for the root, and each keeps its own definition.
Imports: Umpi.Model.Action
Trusted boundary: human-reviewed spec
Main exports: Pointer, MpiComm, World.getCurrentSlot, memberRequest, rootRequest, Call, Operation,
  Call.enter
Open obligations: none
-/
import Umpi.Model.Action

namespace Umpi

/-- A `void *` argument of a rank: null, `MPI_IN_PLACE`, or an address of its own memory. -/
inductive Pointer where
  | null
  | inPlace
  | addr (a : Int)
deriving Repr, DecidableEq

/-- The location an argument of rank `self` points to. -/
def Pointer.loc (self : Nat) : Pointer → Loc
  | null => { region := .null, addr := 0 }
  | inPlace => { region := .inPlace self, addr := 0 }
  | addr a => { region := .heap self, addr := a }

/-- The communicator handles `MPI_COMM_NULL`, `MPI_COMM_WORLD` and `MPI_COMM_SELF`. -/
inductive MpiComm where
  | null
  | world
  | self
deriving Repr, DecidableEq

/-- `MPI_Datatype`: null or a pointer to a datatype array. -/
abbrev MpiDatatype := Option Iovec

/-- Dereferencing a datatype handle. -/
def deref : MpiDatatype → Outcome Iovec
  | some iovec => .ok iovec
  | none => .undefined .nullHandle

namespace World

/-- `shared::get_current_slot`: lock the slot of the caller's ticket, claim it when its box is empty,
    and count the caller in. The result names the slot. -/
def getCurrentSlot (w : World) (self : Nat) : Outcome (Nat × World) :=
  let turn := w.ticket self % umpiOutstandingCollectiveOperations
  let slot := w.slots turn
  if slot.mutex ≠ none then .blocked
  else if slot.box ≠ [] ∧ slot.ticket ≠ w.ticket self then .exited
  else
    let slot :=
      if slot.box = [] then { slot with ticket := w.ticket self, joined := 0, made := [] } else slot
    .ok (turn, { w.setSlot turn { slot with mutex := some self, joined := slot.joined + 1 } with
      ticket := Function.update w.ticket self ((w.ticket self + 1) % 2 ^ 32) })

/-- `mutex_.unlock()` of a slot. -/
def unlock (w : World) (turn : Nat) : World :=
  w.setSlot turn { w.slots turn with mutex := none }

def setBox (w : World) (turn : Nat) (box : List Nat) : World :=
  w.setSlot turn { w.slots turn with box := box }

/-- `collect::joined_last`. -/
def joinedLast (w : World) (turn : Nat) : Bool := (w.slots turn).joined == w.size

/-- `collect::joined_first`. -/
def joinedFirst (w : World) (turn : Nat) : Bool := (w.slots turn).joined == 1

/-- `collect::create_request(box_, ...)` by rank `self`. -/
def createInBox (w : World) (self turn : Nat) (cookie : Cookie) : Nat × World :=
  let (id, w) := w.createRequest self cookie
  let slot := w.slots turn
  (id, w.setSlot turn { slot with box := slot.box ++ [id], made := slot.made ++ [id] })

/-- Copying data without a cookie, as `umpi_copy` does; its return value is not used by the caller. -/
def copy (vm : ProcessVm) (w : World) (readBuf : Loc) (readIovec : Iovec) (readCount readSkip : Int)
    (writeBuf : Loc) (writeIovec : Iovec) (writeCount writeSeek : Int) : World :=
  { w with mem :=
      (umpiCopy vm w.mem readBuf readIovec readCount readSkip writeBuf writeIovec writeCount
        writeSeek).1 }

end World

/-- `cookie != box_.end() && cookie->src_ == root` for the first cookie of the box: the root's cookie if
    the root has left one. -/
def World.rootCookie (w : World) (turn root : Nat) : Option Nat :=
  (w.slots turn).box.head?.filter fun id => (w.cookies id).src == root

/-- The common text of `bcast_request`, `gather_request`, `gatherv_request` and `scatter_request`: a
    rank other than the root. If the root's cookie is in the box the rank joins it and transfers,
    otherwise it leaves a cookie for its own buffer. -/
def memberRequest (w : World) (self turn : Nat) (buf : Loc) (iovec : Iovec) (count : Int) (root : Nat)
    (transfer : Nat → Action) : World × Frame :=
  match w.rootCookie turn root with
  | some id =>
      let w := w.join id
      let w :=
        if w.joinedLast turn then (w.moveToPending id).setBox turn ((w.slots turn).box.erase id)
        else w
      (w.unlock turn, Frame.done id [transfer id])
  | none =>
      let (id, w) := w.createInBox self turn (Cookie.make self buf iovec count count self umpiTagCc 1)
      (w.unlock turn, Frame.done id [])

/-- The common text of `root_bcast_request`, `root_gather_request`, `root_gatherv_request` and
    `root_scatter_request`: the root takes all cookies out of the box, borrows the last one if
    everybody is there and leaves its own otherwise, and then serves the cookies one by one. -/
def rootRequest (w : World) (self turn : Nat) (buf : Loc) (iovec : Iovec) (size count : Int)
    (transfer : Nat → Action) : Outcome (World × Frame) :=
  let todo := (w.slots turn).box
  let w := w.setBox turn []
  let cont := todo.flatMap fun id => [.moveToPending id, transfer id]
  if w.joinedLast turn then
    match todo.getLast? with
    | some borrow =>
        .ok ((w.join borrow).unlock turn,
          { request := some borrow, todo := todo, cont := cont, ret := mpiSuccess })
    | none => .undefined .emptyList
  else
    let (id, w) := w.createInBox self turn
      (Cookie.make self buf iovec size count self umpiTagCc (w.size - (w.slots turn).joined))
    .ok (w.unlock turn, { request := some id, todo := todo, cont := cont, ret := mpiSuccess })

/-- `collect::bcast_request`. -/
def bcastRequest (w : World) (self turn : Nat) (buf : Loc) (count : Int) (iovec : Iovec)
    (root : Nat) : World × Frame :=
  memberRequest w self turn buf iovec count root fun id =>
    .readFromOwner id buf iovec count count (.elems 0) (.elems 0)

/-- `collect::root_bcast_request`. -/
def rootBcastRequest (w : World) (self turn : Nat) (buf : Loc) (count : Int) (iovec : Iovec) :
    Outcome (World × Frame) :=
  rootRequest w self turn buf iovec count count fun id =>
    .writeToOwner id buf iovec count (.elems 0) (.elems 0)

/-- `collect::gather_request`. -/
def gatherRequest (w : World) (self turn : Nat) (sendbuf : Loc) (sendcount : Int) (sendtype : Iovec)
    (root : Nat) : World × Frame :=
  memberRequest w self turn sendbuf sendtype sendcount root fun id =>
    .writeToOwner id sendbuf sendtype sendcount .countTimesRank (.elems 0)

/-- `collect::root_gather_request`. The seek argument of the loop is the other rank's number. -/
def rootGatherRequest (w : World) (self turn : Nat) (recvbuf : Loc) (recvcount : Int)
    (recvtype : Iovec) : Outcome (World × Frame) := do
  let size ← mulInt recvcount w.size
  rootRequest w self turn recvbuf recvtype size recvcount fun id =>
    .readFromOwner id recvbuf recvtype size recvcount (.elems (w.cookies id).src) (.elems 0)

/-- `collect::gatherv_request`. -/
def gathervRequest (w : World) (self turn : Nat) (sendbuf : Loc) (sendcount : Int) (sendtype : Iovec)
    (root : Nat) : World × Frame :=
  memberRequest w self turn sendbuf sendtype sendcount root fun id =>
    .writeToOwner id sendbuf sendtype sendcount (.displs turn) (.elems 0)

/-- `totalcount` of `root_gatherv_request`. -/
def totalcount (recvcounts : Nat → Int) : Nat → Outcome Int
  | 0 => .ok 0
  | i + 1 => do
      let sum ← totalcount recvcounts i
      addInt sum (recvcounts i)

/-- `collect::root_gatherv_request`. -/
def rootGathervRequest (w : World) (self turn : Nat) (recvbuf : Loc) (recvcounts displs : Nat → Int)
    (recvtype : Iovec) : Outcome (World × Frame) := do
  let total ← totalcount recvcounts w.size
  let w := w.setSlot turn { w.slots turn with displs := displs }
  rootRequest w self turn recvbuf recvtype total 0 fun id =>
    let src := (w.cookies id).src.toNat
    .readFromOwner id recvbuf recvtype total (recvcounts src) (.elems (displs src)) (.elems 0)

/-- `collect::scatter_request`. -/
def scatterRequest (w : World) (self turn : Nat) (recvbuf : Loc) (recvcount : Int) (recvtype : Iovec)
    (root : Nat) : World × Frame :=
  memberRequest w self turn recvbuf recvtype recvcount root fun id =>
    .readFromOwner id recvbuf recvtype recvcount recvcount (.elems 0) .countTimesRank

/-- `collect::root_scatter_request`. -/
def rootScatterRequest (w : World) (self turn : Nat) (sendbuf : Loc) (sendcount : Int)
    (sendtype : Iovec) : Outcome (World × Frame) := do
  let size ← mulInt sendcount w.size
  rootRequest w self turn sendbuf sendtype size sendcount fun id =>
    .writeToOwner id sendbuf sendtype sendcount (.elems 0) (.product sendcount (w.cookies id).src)

/-- The first branch of `collect::allgather_request`: the first rank puts its own contribution in place. -/
def allgatherFirst (vm : ProcessVm) (w : World) (self : Nat) (sendbuf : Pointer) (sendcount : Int)
    (sendtype : MpiDatatype) (recvbuf : Loc) (recvcount : Int) (recvtype : Iovec) : Outcome World :=
  if sendbuf = .inPlace then .ok w
  else do
    let sendIovec ← deref sendtype
    let block ← mulInt self recvcount
    pure (w.copy vm (sendbuf.loc self) sendIovec sendcount 0 recvbuf recvtype recvcount block)

/-- The middle part of `collect::allgather_request`: a later rank sends its contribution to the first
    one, from where `MPI_IN_PLACE` has it. -/
def allgatherContribute (vm : ProcessVm) (w : World) (self root : Nat) (sendbuf : Pointer)
    (sendcount : Int) (sendtype : MpiDatatype) (recvbuf : Loc) (recvcount : Int) (recvtype : Iovec) :
    Outcome Transferred := do
  let seek ← mulInt (w.cookies root).count self
  if sendbuf = .inPlace then do
    let skip ← mulInt recvcount self
    w.writeToOwner vm root recvbuf recvtype recvcount seek skip
  else do
    let sendIovec ← deref sendtype
    w.writeToOwner vm root (sendbuf.loc self) sendIovec sendcount seek 0

/-- What the last rank of an allgather does with the cookies it has taken: it fetches the collected data
    from the first and passes it on to the others. -/
def allgatherSpread (recvbuf : Loc) (recvtype : Iovec) (size : Int) : List Nat → List Action
  | [] => []
  | root :: others =>
      .moveToPending root :: .readIgnored root recvbuf recvtype size size ::
        others.flatMap fun id =>
          [.moveToPending id, .writeToOwner id recvbuf recvtype size (.elems 0) (.elems 0)]

/-- `collect::allgather_request`. A failed contribution returns with the mutex held. -/
def allgatherRequest (vm : ProcessVm) (w : World) (self turn : Nat) (sendbuf : Pointer)
    (sendcount : Int) (sendtype : MpiDatatype) (recvbuf : Loc) (recvcount : Int) (recvtype : Iovec) :
    Outcome (World × Frame) :=
  if w.joinedFirst turn then do
    let w ← allgatherFirst vm w self sendbuf sendcount sendtype recvbuf recvcount recvtype
    let size ← mulInt recvcount w.size
    let (id, w) := w.createInBox self turn
      (Cookie.make self recvbuf recvtype size recvcount self umpiTagCc w.size)
    pure (w.unlock turn, Frame.done id [])
  else
    match (w.slots turn).box with
    | [] => .undefined .emptyList
    | root :: _ => do
        let contribution ←
          allgatherContribute vm w self root sendbuf sendcount sendtype recvbuf recvcount recvtype
        let w := contribution.world
        if contribution.ret ≠ mpiSuccess then pure (w, Frame.failed contribution.ret)
        else if ¬ w.joinedLast turn then
          let size ← mulInt recvcount w.size
          let (id, w) := w.createInBox self turn
            (Cookie.make self recvbuf recvtype size recvcount self umpiTagCc 1)
          pure (w.unlock turn, Frame.done id [])
        else
          let todo := (w.slots turn).box
          let size ← mulInt recvcount w.size
          pure (((w.setBox turn []).join root).unlock turn,
            { request := some root
              todo := todo
              cont := allgatherSpread recvbuf recvtype size todo
              ret := mpiSuccess })

/-- The part of `collect::allreduce_request` that adds the caller's input to the running total, and the
    value with which it returns early if it does. With `MPI_IN_PLACE` the total travels through the
    slot's buffers, with the layout that the previous caller has left there, otherwise through the buffer of the
    previous caller. -/
def allreduceAccumulate (vm : ProcessVm) (w : World) (self turn : Nat) (sendbuf : Pointer)
    (recvbuf : Loc) (count : Int) (iovec : Iovec) (op : UmpiOp) : Outcome (World × Int) :=
  let slot := w.slots turn
  if sendbuf = .inPlace then
    if w.joinedFirst turn then
      let w := w.setSlot turn { slot with iovec := some iovec, count := count }
      .ok (w.copy vm recvbuf iovec count 0 (Umpi.sendbuf turn) iovec count 0, mpiSuccess)
    else if ¬ w.joinedLast turn then do
      let layout ← deref slot.iovec
      let w := w.copy vm (Umpi.sendbuf turn) layout slot.count 0 (Umpi.recvbuf turn) iovec count 0
      let w := w.reduce op recvbuf (Umpi.recvbuf turn) count iovec
      let w := w.setSlot turn { slot with iovec := some iovec, count := count }
      pure (w.copy vm (Umpi.recvbuf turn) iovec count 0 (Umpi.sendbuf turn) iovec count 0, mpiSuccess)
    else do
      let layout ← deref slot.iovec
      let w := w.copy vm (Umpi.sendbuf turn) layout slot.count 0 (Umpi.recvbuf turn) iovec count 0
      pure (w.reduce op (Umpi.recvbuf turn) recvbuf count iovec, mpiSuccess)
  else if w.joinedFirst turn then
    .ok (w.copy vm (sendbuf.loc self) iovec count 0 recvbuf iovec count 0, mpiSuccess)
  else
    match slot.box.getLast? with
    | none => .undefined .emptyList
    | some previous => do
        let done ← w.readFromOwner vm previous recvbuf iovec count count 0 0
        if done.ret ≠ mpiSuccess then pure (done.world, done.ret)
        else pure (done.world.reduce op (sendbuf.loc self) recvbuf count iovec, mpiSuccess)

/-- `collect::allreduce_request`. A failed transfer of the first part returns with the mutex held. -/
def allreduceRequest (vm : ProcessVm) (w : World) (self turn : Nat) (sendbuf : Pointer)
    (recvbuf : Loc) (count : Int) (iovec : Iovec) (op : UmpiOp) : Outcome (World × Frame) := do
  let (w, ret) ← allreduceAccumulate vm w self turn sendbuf recvbuf count iovec op
  if ret ≠ mpiSuccess then pure (w, Frame.failed ret)
  else if ¬ w.joinedLast turn then
    let (id, w) := w.createInBox self turn
      (Cookie.make self recvbuf iovec count count self umpiTagCc (if sendbuf = .inPlace then 1 else 2))
    pure (w.unlock turn, Frame.done id [])
  else
    let todo := (w.slots turn).box
    let w := w.setBox turn []
    match todo.getLast? with
    | none => .undefined .emptyList
    | some borrow =>
        pure ((w.join borrow).unlock turn,
          { request := some borrow
            todo := todo
            cont := todo.flatMap fun id =>
              [.moveToPending id, .writeToOwner id recvbuf iovec count (.elems 0) (.elems 0)]
            ret := mpiSuccess })

/-- The loop of `exscan_request`: a rank's input is read before the total of its predecessors is
    written over it, and is added to the total only when another cookie follows. -/
def exscanLoop (turn : Nat) (count : Int) (iovec : Iovec) (op : UmpiOp) : List Nat → List Action
  | [] => []
  | id :: rest =>
      [.moveToPending id,
        .readFromOwner id (recvbuf turn) iovec count 0 (.elems 0) (.elems 0),
        .writeToOwner id (sendbuf turn) iovec count (.elems 0) (.elems 0)] ++
      (if rest = [] then [] else [.reduce op (recvbuf turn) (sendbuf turn) count iovec]) ++
      exscanLoop turn count iovec op rest

/-- The loop of `scan_request`. -/
def scanLoop (turn : Nat) (count : Int) (iovec : Iovec) (op : UmpiOp) (todo : List Nat) :
    List Action :=
  todo.flatMap fun id =>
    [.moveToPending id,
      .readFromOwner id (recvbuf turn) iovec count 0 (.elems 0) (.elems 0),
      .reduce op (recvbuf turn) (sendbuf turn) count iovec,
      .writeToOwner id (sendbuf turn) iovec count (.elems 0) (.elems 0)]

/-- What `exscan_request` and `scan_request` do when everybody has left a cookie: sort the cookies by
    `src_`, start the total from the first one, and run the loop over the others. -/
def ladder (w : World) (turn : Nat) (request : Nat) (count : Int) (iovec : Iovec)
    (loop : List Nat → List Action) : Outcome (World × Frame) :=
  let todo := (w.slots turn).box
  let w := (w.setBox turn []).unlock turn
  match todo.mergeSort fun left right => (w.cookies left).src ≤ (w.cookies right).src with
  | [] => .undefined .emptyList
  | first :: rest =>
      .ok (w,
        { request := some request
          todo := todo
          cont := .moveToPending first ::
            .readFromOwner first (sendbuf turn) iovec count 0 (.elems 0) (.elems 0) :: loop rest
          ret := mpiSuccess })

/-- `collect::exscan_request`. The size check returns with the mutex held. -/
def exscanRequest (vm : ProcessVm) (w : World) (self turn : Nat) (sendbuf : Pointer) (recvbuf : Loc)
    (count : Int) (iovec : Iovec) (op : UmpiOp) : Outcome (World × Frame) :=
  if umpiMaxInPlaceLen < count * iovec.stride then .ok (w, Frame.failed mpiFail)
  else
    let w :=
      if self ≠ 0 ∧ sendbuf ≠ .inPlace then
        w.copy vm (sendbuf.loc self) iovec count 0 recvbuf iovec count 0
      else w
    let (id, w) := w.createInBox self turn
      (Cookie.make self (if self ≠ 0 then recvbuf else sendbuf.loc self) iovec count count self
        umpiTagCc (if self ≠ 0 then 2 else 1))
    if ¬ w.joinedLast turn then .ok (w.unlock turn, Frame.done id [])
    else ladder w turn id count iovec (exscanLoop turn count iovec op)

/-- `collect::scan_request`. The size check returns with the mutex held. -/
def scanRequest (vm : ProcessVm) (w : World) (self turn : Nat) (sendbuf : Pointer) (recvbuf : Loc)
    (count : Int) (iovec : Iovec) (op : UmpiOp) : Outcome (World × Frame) :=
  if umpiMaxInPlaceLen < count * iovec.stride then .ok (w, Frame.failed mpiFail)
  else
    let w :=
      if sendbuf ≠ .inPlace then w.copy vm (sendbuf.loc self) iovec count 0 recvbuf iovec count 0
      else w
    let (id, w) := w.createInBox self turn
      (Cookie.make self recvbuf iovec count count self umpiTagCc (if self ≠ 0 then 2 else 1))
    if ¬ w.joinedLast turn then .ok (w.unlock turn, Frame.done id [])
    else ladder w turn id count iovec (scanLoop turn count iovec op)

/-- A collective call with its arguments. All are nonblocking, except that `MPI_Allreduce` has an entry
    of its own because it treats a single process apart. -/
inductive Call where
  | bcast (buf : Pointer) (count : Int) (datatype : MpiDatatype) (root : Int) (comm : MpiComm)
  | allgather (sendbuf : Pointer) (sendcount : Int) (sendtype : MpiDatatype) (recvbuf : Pointer)
      (recvcount : Int) (recvtype : MpiDatatype) (comm : MpiComm)
  | allreduce (sendbuf recvbuf : Pointer) (count : Int) (datatype : MpiDatatype) (op : Option UmpiOp)
      (comm : MpiComm)
  | blockingAllreduce (sendbuf recvbuf : Pointer) (count : Int) (datatype : MpiDatatype)
      (op : Option UmpiOp) (comm : MpiComm)
  | exscan (sendbuf recvbuf : Pointer) (count : Int) (datatype : MpiDatatype) (op : Option UmpiOp)
      (comm : MpiComm)
  | scan (sendbuf recvbuf : Pointer) (count : Int) (datatype : MpiDatatype) (op : Option UmpiOp)
      (comm : MpiComm)
  | gather (sendbuf : Pointer) (sendcount : Int) (sendtype : MpiDatatype) (recvbuf : Pointer)
      (recvcount : Int) (recvtype : MpiDatatype) (root : Int) (comm : MpiComm)
  | gatherv (sendbuf : Pointer) (sendcount : Int) (sendtype : MpiDatatype) (recvbuf : Pointer)
      (recvcounts displs : Option (Nat → Int)) (recvtype : MpiDatatype) (root : Int) (comm : MpiComm)
  | scatter (sendbuf : Pointer) (sendcount : Int) (sendtype : MpiDatatype) (recvbuf : Pointer)
      (recvcount : Int) (recvtype : MpiDatatype) (root : Int) (comm : MpiComm)

/-- Which collective operation a call takes part in. All ranks have to agree on it. -/
inductive Operation where
  | bcast (root : Int)
  | gather (root : Int)
  | gatherv (root : Int)
  | scatter (root : Int)
  | allgather
  | allreduce
  | exscan
  | scan
deriving Repr, DecidableEq

def Call.operation : Call → Operation
  | bcast _ _ _ root _ => .bcast root
  | allgather _ _ _ _ _ _ _ => .allgather
  | allreduce _ _ _ _ _ _ => .allreduce
  | blockingAllreduce _ _ _ _ _ _ => .allreduce
  | exscan _ _ _ _ _ _ => .exscan
  | scan _ _ _ _ _ _ => .scan
  | gather _ _ _ _ _ _ root _ => .gather root
  | gatherv _ _ _ _ _ _ _ root _ => .gatherv root
  | scatter _ _ _ _ _ _ root _ => .scatter root

/-- Does the byte count of one side differ from that of the other, as `size_t` values? -/
def bytesDiffer (sendcount : Int) (sendtype : Iovec) (recvcount : Int) (recvtype : Iovec) : Bool :=
  sizeT (sendcount * sendtype.len) != sizeT (recvcount * recvtype.len)

/-- The check `sendbuf != MPI_IN_PLACE && sendcount * sendtype->len() != recvcount * recvtype->len()`,
    whose operand order guards the dereference of `sendtype`. -/
def mismatch (sendbuf : Pointer) (sendcount : Int) (sendtype : MpiDatatype) (recvcount : Int)
    (recvtype : Iovec) : Outcome Bool :=
  if sendbuf = .inPlace then .ok false
  else do
    let sendIovec ← deref sendtype
    pure (bytesDiffer sendcount sendIovec recvcount recvtype)

section EntryPoints

variable (vm : ProcessVm) (w : World) (self : Nat)

/-- `MPI_Ibcast`. -/
def mpiIbcast (buf : Pointer) (count : Int) (datatype : MpiDatatype) (root : Int) (comm : MpiComm) :
    Outcome (World × Frame) :=
  if (buf = .null ∧ count ≠ 0) ∨ datatype = none ∨ root < 0 ∨ (w.size : Int) ≤ root ∨
      comm ≠ .world then
    .ok (w, Frame.failed mpiFail)
  else do
    let iovec ← deref datatype
    let (turn, w) ← w.getCurrentSlot self
    if (self : Int) = root then rootBcastRequest w self turn (buf.loc self) count iovec
    else pure (bcastRequest w self turn (buf.loc self) count iovec root.toNat)

/-- `MPI_Iallgather`. -/
def mpiIallgather (sendbuf : Pointer) (sendcount : Int) (sendtype : MpiDatatype) (recvbuf : Pointer)
    (recvcount : Int) (recvtype : MpiDatatype) (comm : MpiComm) : Outcome (World × Frame) :=
  if (sendbuf = .null ∧ sendcount ≠ 0) ∨ (sendbuf ≠ .inPlace ∧ sendtype = none) ∨
      (recvbuf = .null ∧ recvcount ≠ 0) ∨ recvtype = none then
    .ok (w, Frame.failed mpiFail)
  else do
    let recvIovec ← deref recvtype
    let differ ← mismatch sendbuf sendcount sendtype recvcount recvIovec
    if differ ∨ comm ≠ .world then pure (w, Frame.failed mpiFail)
    else
      let (turn, w) ← w.getCurrentSlot self
      allgatherRequest vm w self turn sendbuf sendcount sendtype (recvbuf.loc self) recvcount recvIovec

/-- The check of `MPI_Iallreduce`, `MPI_Iexscan` and `MPI_Iscan` that a scratch buffer is large enough
    for an operation in place. -/
def tooLongInPlace (sendbuf : Pointer) (count : Int) (iovec : Iovec) : Bool :=
  sendbuf = .inPlace ∧ umpiMaxInPlaceLen < count * iovec.stride

/-- `MPI_Iallreduce`. -/
def mpiIallreduce (sendbuf recvbuf : Pointer) (count : Int) (datatype : MpiDatatype)
    (op : Option UmpiOp) (comm : MpiComm) : Outcome (World × Frame) :=
  match datatype, op with
  | some iovec, some op =>
      if ((sendbuf = .null ∨ recvbuf = .null) ∧ count ≠ 0) ∨ comm ≠ .world then
        .ok (w, Frame.failed mpiFail)
      else if tooLongInPlace sendbuf count iovec then .ok (w, Frame.failed mpiFail)
      else do
        let (turn, w) ← w.getCurrentSlot self
        allreduceRequest vm w self turn sendbuf (recvbuf.loc self) count iovec op
  | _, _ => .ok (w, Frame.failed mpiFail)

/-- `MPI_Allreduce` up to its `MPI_Wait`. A single process only copies its input, and has nothing to wait
    for. -/
def mpiAllreduce (sendbuf recvbuf : Pointer) (count : Int) (datatype : MpiDatatype)
    (op : Option UmpiOp) (comm : MpiComm) : Outcome (World × Frame) :=
  match datatype, op with
  | some iovec, some op =>
      if ((sendbuf = .null ∨ recvbuf = .null) ∧ count ≠ 0) ∨ comm ≠ .world then
        .ok (w, Frame.failed mpiFail)
      else if w.size = 1 then
        let w :=
          if sendbuf ≠ .inPlace then
            w.copy vm (sendbuf.loc self) iovec count 0 (recvbuf.loc self) iovec count 0
          else w
        .ok (w, { request := none, todo := [], cont := [], ret := mpiSuccess })
      else mpiIallreduce vm w self sendbuf recvbuf count iovec op comm
  | _, _ => .ok (w, Frame.failed mpiFail)

/-- `MPI_Iexscan`. -/
def mpiIexscan (sendbuf recvbuf : Pointer) (count : Int) (datatype : MpiDatatype)
    (op : Option UmpiOp) (comm : MpiComm) : Outcome (World × Frame) :=
  match datatype, op with
  | some iovec, some op =>
      if ((sendbuf = .null ∨ (self ≠ 0 ∧ recvbuf = .null)) ∧ count ≠ 0) ∨ comm ≠ .world then
        .ok (w, Frame.failed mpiFail)
      else if tooLongInPlace sendbuf count iovec then .ok (w, Frame.failed mpiFail)
      else do
        let (turn, w) ← w.getCurrentSlot self
        exscanRequest vm w self turn sendbuf (recvbuf.loc self) count iovec op
  | _, _ => .ok (w, Frame.failed mpiFail)

/-- `MPI_Iscan`. -/
def mpiIscan (sendbuf recvbuf : Pointer) (count : Int) (datatype : MpiDatatype)
    (op : Option UmpiOp) (comm : MpiComm) : Outcome (World × Frame) :=
  match datatype, op with
  | some iovec, some op =>
      if ((sendbuf = .null ∨ recvbuf = .null) ∧ count ≠ 0) ∨ comm ≠ .world then
        .ok (w, Frame.failed mpiFail)
      else if tooLongInPlace sendbuf count iovec then .ok (w, Frame.failed mpiFail)
      else do
        let (turn, w) ← w.getCurrentSlot self
        scanRequest vm w self turn sendbuf (recvbuf.loc self) count iovec op
  | _, _ => .ok (w, Frame.failed mpiFail)

/-- `MPI_Igather`. The root's own checks come after it has entered the slot. -/
def mpiIgather (sendbuf : Pointer) (sendcount : Int) (sendtype : MpiDatatype) (recvbuf : Pointer)
    (recvcount : Int) (recvtype : MpiDatatype) (root : Int) (comm : MpiComm) :
    Outcome (World × Frame) :=
  if (sendbuf = .null ∧ sendcount ≠ 0) ∨ (sendbuf ≠ .inPlace ∧ sendtype = none) ∨ root < 0 ∨
      (w.size : Int) ≤ root ∨ comm ≠ .world then
    .ok (w, Frame.failed mpiFail)
  else do
    let (turn, w) ← w.getCurrentSlot self
    if (self : Int) = root then
      match recvtype with
      | none => pure (w, Frame.failed mpiFail)
      | some recvIovec =>
          let differ ← mismatch sendbuf sendcount sendtype recvcount recvIovec
          if (recvbuf = .null ∧ recvcount ≠ 0) ∨ differ then pure (w, Frame.failed mpiFail)
          else if sendbuf = .inPlace then
            rootGatherRequest w self turn (recvbuf.loc self) recvcount recvIovec
          else
            let sendIovec ← deref sendtype
            let block ← mulInt self recvcount
            let w := w.copy vm (sendbuf.loc self) sendIovec sendcount 0 (recvbuf.loc self) recvIovec
              recvcount block
            rootGatherRequest w self turn (recvbuf.loc self) recvcount recvIovec
    else
      let sendIovec ← deref sendtype
      pure (gatherRequest w self turn (sendbuf.loc self) sendcount sendIovec root.toNat)

/-- `MPI_Igatherv`. -/
def mpiIgatherv (sendbuf : Pointer) (sendcount : Int) (sendtype : MpiDatatype) (recvbuf : Pointer)
    (recvcounts displs : Option (Nat → Int)) (recvtype : MpiDatatype) (root : Int) (comm : MpiComm) :
    Outcome (World × Frame) :=
  if (sendbuf = .null ∧ sendcount ≠ 0) ∨ (sendbuf ≠ .inPlace ∧ sendtype = none) ∨ root < 0 ∨
      (w.size : Int) ≤ root ∨ comm ≠ .world then
    .ok (w, Frame.failed mpiFail)
  else do
    let (turn, w) ← w.getCurrentSlot self
    if (self : Int) = root then
      match recvcounts, displs, recvtype with
      | some recvcounts, some displs, some recvIovec =>
          let differ ← mismatch sendbuf sendcount sendtype (recvcounts self) recvIovec
          if recvbuf = .null ∨ differ then pure (w, Frame.failed mpiFail)
          else if sendbuf = .inPlace then
            rootGathervRequest w self turn (recvbuf.loc self) recvcounts displs recvIovec
          else
            let sendIovec ← deref sendtype
            let w := w.copy vm (sendbuf.loc self) sendIovec sendcount 0 (recvbuf.loc self) recvIovec
              (recvcounts self) (displs self)
            rootGathervRequest w self turn (recvbuf.loc self) recvcounts displs recvIovec
      | _, _, _ => pure (w, Frame.failed mpiFail)
    else
      let sendIovec ← deref sendtype
      pure (gathervRequest w self turn (sendbuf.loc self) sendcount sendIovec root.toNat)

/-- `MPI_Iscatter`. -/
def mpiIscatter (sendbuf : Pointer) (sendcount : Int) (sendtype : MpiDatatype) (recvbuf : Pointer)
    (recvcount : Int) (recvtype : MpiDatatype) (root : Int) (comm : MpiComm) :
    Outcome (World × Frame) :=
  if (recvbuf = .null ∧ recvcount ≠ 0) ∨ (recvbuf ≠ .inPlace ∧ recvtype = none) ∨ root < 0 ∨
      (w.size : Int) ≤ root ∨ comm ≠ .world then
    .ok (w, Frame.failed mpiFail)
  else do
    let (turn, w) ← w.getCurrentSlot self
    if (self : Int) = root then
      match sendtype with
      | none => pure (w, Frame.failed mpiFail)
      | some sendIovec =>
          let differ ← mismatch recvbuf recvcount recvtype sendcount sendIovec
          if (sendbuf = .null ∧ sendcount ≠ 0) ∨ differ then pure (w, Frame.failed mpiFail)
          else if recvbuf = .inPlace then
            rootScatterRequest w self turn (sendbuf.loc self) sendcount sendIovec
          else
            let recvIovec ← deref recvtype
            let block ← mulInt self sendcount
            let w := w.copy vm (sendbuf.loc self) sendIovec sendcount block (recvbuf.loc self)
              recvIovec recvcount 0
            rootScatterRequest w self turn (sendbuf.loc self) sendcount sendIovec
    else
      let recvIovec ← deref recvtype
      pure (scatterRequest w self turn (recvbuf.loc self) recvcount recvIovec root.toNat)

/-- A collective call by rank `self` up to the release of the slot's mutex. -/
def Call.enter : Call → Outcome (World × Frame)
  | bcast buf count datatype root comm => mpiIbcast w self buf count datatype root comm
  | allgather sendbuf sendcount sendtype recvbuf recvcount recvtype comm =>
      mpiIallgather vm w self sendbuf sendcount sendtype recvbuf recvcount recvtype comm
  | allreduce sendbuf recvbuf count datatype op comm =>
      mpiIallreduce vm w self sendbuf recvbuf count datatype op comm
  | blockingAllreduce sendbuf recvbuf count datatype op comm =>
      mpiAllreduce vm w self sendbuf recvbuf count datatype op comm
  | exscan sendbuf recvbuf count datatype op comm =>
      mpiIexscan vm w self sendbuf recvbuf count datatype op comm
  | scan sendbuf recvbuf count datatype op comm =>
      mpiIscan vm w self sendbuf recvbuf count datatype op comm
  | gather sendbuf sendcount sendtype recvbuf recvcount recvtype root comm =>
      mpiIgather vm w self sendbuf sendcount sendtype recvbuf recvcount recvtype root comm
  | gatherv sendbuf sendcount sendtype recvbuf recvcounts displs recvtype root comm =>
      mpiIgatherv vm w self sendbuf sendcount sendtype recvbuf recvcounts displs recvtype root comm
  | scatter sendbuf sendcount sendtype recvbuf recvcount recvtype root comm =>
      mpiIscatter vm w self sendbuf sendcount sendtype recvbuf recvcount recvtype root comm

end EntryPoints

end Umpi
