/-
Module: Umpi.Model.SlotData
Layer: Model
Purpose: Who reads and writes the data of a slot. `displs_`, `iovec_` and `count_` and the two scratch buffers
  belong to whatever operation is in the slot, but no member of `collect` says which one that is. Every step of the
  system is traced together with the accesses it makes, in the order of the source, and each access is recorded
  with the operation on whose behalf it is made: the number of slots its rank had entered before.
Imports: Umpi.Model.System
Trusted boundary: human-reviewed spec
Main exports: SlotField, Access, Action.accesses, Call.accesses, Traced, Traced.step, Traced.Exclusive
Open obligations: none
-/
import Umpi.Model.System

namespace Umpi

/-- The data of a slot that operations use. -/
inductive SlotField where
  | displs
  | sendbuf
  | recvbuf
  | iovec
  | count
deriving Repr, DecidableEq

/-- One access to the data of the slot `turn`. -/
structure Access where
  turn : Nat
  field : SlotField
  writes : Bool
deriving Repr, DecidableEq

/-- The scratch buffer that a location is in. -/
def Loc.scratchField (location : Loc) : Option (Nat × SlotField) :=
  match location.region with
  | .scratch turn => some (turn, if location.addr < umpiMaxInPlaceLen then .sendbuf else .recvbuf)
  | _ => none

/-- An access to the buffer at a location, if that is a scratch buffer. -/
def Loc.access (location : Loc) (writes : Bool) : List Access :=
  location.scratchField.toList.map fun place => { turn := place.1, field := place.2, writes := writes }

/-- What an offset reads of a slot. -/
def Offset.accesses : Offset → List Access
  | displs turn => [{ turn := turn, field := .displs, writes := false }]
  | _ => []

/-- What an action accesses after the mutex has been released. A transfer to the owner reads the caller's buffer, one
    from the owner writes it, and a reduction reads both of its buffers before it writes the second. -/
def Action.accesses : Action → List Access
  | moveToPending _ => []
  | writeToOwner _ buf _ _ seek skip => seek.accesses ++ skip.accesses ++ buf.access false
  | readFromOwner _ buf _ _ _ seek skip => seek.accesses ++ skip.accesses ++ buf.access true
  | readIgnored _ buf _ _ _ => buf.access true
  | reduce _ invec inoutvec _ _ => invec.access false ++ inoutvec.access false ++ inoutvec.access true

/-- What `collect::allreduce_request` accesses while it holds the mutex. The first rank leaves its input and its
    layout, each later one reads the total through the layout of the one before, and all but the last leave theirs. -/
def allreduceAccesses (w : World) (turn : Nat) (sendbuf : Pointer) : List Access :=
  let read := fun field => { turn := turn, field := field, writes := false : Access }
  let write := fun field => { turn := turn, field := field, writes := true : Access }
  if sendbuf ≠ .inPlace then []
  else if w.joinedFirst turn then
    [write .iovec, write .count, read .iovec, read .count, write .sendbuf]
  else
    [read .iovec, read .count, read .sendbuf, write .recvbuf, read .recvbuf] ++
      if w.joinedLast turn then []
      else [write .recvbuf, write .iovec, write .count, read .iovec, read .count, read .recvbuf, write .sendbuf]

/-- What a call accesses while it holds the mutex, in the state that `get_current_slot` has left. Only the root of a
    gatherv and an allreduce in place do anything with the slot's data before they release it. -/
def Call.accesses (w : World) (self turn : Nat) : Call → List Access
  | gatherv _ _ _ _ _ _ _ root _ =>
      if (self : Int) = root then [{ turn := turn, field := .displs, writes := true }] else []
  | allreduce sendbuf _ _ _ _ _ => allreduceAccesses w turn sendbuf
  | blockingAllreduce sendbuf _ _ _ _ _ => allreduceAccesses w turn sendbuf
  | _ => []

/-- What a step accesses. A call that has not entered a slot, or that returns with the mutex held, has found its
    arguments wrong before its first access. -/
def Sys.accesses (s : Sys) (program : Program) (s' : Sys) : Label → List Access
  | .call self =>
      match program self (s.ranks self).pos, s.world.getCurrentSlot self with
      | some call, .ok (turn, claimed) =>
          if s'.world.ticket self ≠ s.world.ticket self ∧ (s'.world.slots turn).mutex = none then
            call.accesses claimed self turn
          else []
      | _, _ => []
  | .act self => ((s.ranks self).cont.head?.map Action.accesses).getD []
  | .wait _ _ => []

/-- An access on behalf of an operation. The operations of a slot are told apart by the number of slots that a rank
    has entered before it enters this one, of which the ticket is the remainder modulo `2 ^ 32`. -/
structure SlotEvent extends Access where
  operation : Nat
deriving Repr, DecidableEq

/-- The system, the number of slots every rank has entered, and the accesses so far, the latest first. -/
structure Traced where
  sys : Sys
  entered : Nat → Nat
  log : List SlotEvent

namespace Traced

/-- Nothing has happened yet. -/
def init (n : Nat) (mem : Memory) : Traced := { sys := Sys.init n mem, entered := fun _ => 0, log := [] }

/-- The operation for which a rank acts: the one it enters now, or the one it has entered last. -/
def operation (s : Traced) : Label → Nat
  | .call self => s.entered self
  | .act self => s.entered self - 1
  | .wait self _ => s.entered self - 1

/-- A rank has entered a slot if its ticket has changed. -/
def counted (s : Traced) (s' : Sys) (rank : Nat) : Nat :=
  if s'.world.ticket rank = s.sys.world.ticket rank then s.entered rank else s.entered rank + 1

/-- A step, with its accesses added to the log. -/
def step (vm : ProcessVm) (program : Program) (s : Traced) (label : Label) : Outcome Traced := do
  let next ← s.sys.step vm program label
  let events := (s.sys.accesses program next label).map fun access =>
    { toAccess := access, operation := s.operation label : SlotEvent }
  pure { sys := next, entered := s.counted next, log := events.reverse ++ s.log }

/-- Perform the listed steps. -/
def run (vm : ProcessVm) (program : Program) (s : Traced) : List Label → Outcome Traced
  | [] => .ok s
  | label :: labels => do
      let next ← s.step vm program label
      next.run vm program labels

/-- `s'` follows from `s` by a sequence of steps each of which satisfies a condition on the state before it. -/
inductive ReachesBy (vm : ProcessVm) (program : Program) (meets : Traced → Label → Prop) (s : Traced) :
    Traced → Prop where
  | refl : ReachesBy vm program meets s s
  | tail {s' s'' : Traced} (label : Label) (before : ReachesBy vm program meets s s')
      (condition : meets s' label) (step : s'.step vm program label = .ok s'') :
      ReachesBy vm program meets s s''

/-- The operations that have written a field of a slot, the latest first. -/
def writers (log : List SlotEvent) (turn : Nat) (field : SlotField) : List Nat :=
  (log.filter fun event => event.turn = turn ∧ event.field = field ∧ event.writes).map SlotEvent.operation

/-- A slot's data belongs to one operation at a time: whenever an operation reads a field, nobody else has written it
    since the operation itself has. -/
def Exclusive (s : Traced) : Prop :=
  ∀ (later earlier : List SlotEvent) (event : SlotEvent), s.log = later ++ event :: earlier →
    event.writes = false → event.operation ∈ writers earlier event.turn event.field →
    (writers earlier event.turn event.field).head? = some event.operation

/-- Whoever finds the slot idle finds that nobody has an access to its data left to make. -/
def Vacated (s : Traced) (label : Label) : Prop :=
  ∀ rank, label = .call rank →
    let turn := s.sys.world.ticket rank % umpiOutstandingCollectiveOperations
    (s.sys.world.slots turn).box = [] →
      ∀ other, ∀ action ∈ (s.sys.ranks other).cont, ∀ access ∈ action.accesses, access.turn ≠ turn

end Traced

end Umpi
