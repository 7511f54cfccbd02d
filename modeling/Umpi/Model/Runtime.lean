/-
Module: Umpi.Model.Runtime
Layer: Model
Purpose: Point-to-point and collective operations of the same processes. An event is a step of the
  collective system, an `MPI_Irecv` or `MPI_Issend` by any rank that is in no call, or an `MPI_Test`. The
  transfer of a receive or a send that has found its counterpart is an action of the call like any other.
  The pool of cookies is what `finalize` has erased from a `free_` list: the history of a run says which
  cookies these are.
Imports: Umpi.Model.System, Umpi.Model.PointToPoint
Trusted boundary: human-reviewed spec
Main exports: Event, Event.caller, RankState.post, Sys.perform, World.released, Sys.leaves, Sys.pool, Sys.Runs
Open obligations: none
-/
import Umpi.Model.System
import Umpi.Model.PointToPoint

namespace Umpi

/-- What a rank does next. -/
inductive Event where
  /-- A step of a collective call, an action of any call, or a completed `MPI_Wait`. -/
  | collective (label : Label)
  /-- `MPI_Irecv` up to the unlock. -/
  | recv (rank : Nat) (buf : Pointer) (count : Int) (datatype : MpiDatatype) (source tag : Int)
      (comm : MpiComm)
  /-- `MPI_Issend` up to the unlock. -/
  | send (rank : Nat) (buf : Pointer) (count : Int) (datatype : MpiDatatype) (dest tag : Int)
      (comm : MpiComm)
  /-- `MPI_Test` on a request. -/
  | test (rank : Nat) (id : Nat)

/-- The rank that takes a step. -/
def Label.actor : Label → Nat
  | call self | act self | wait self _ => self

/-- The rank whose event it is. -/
def Event.caller : Event → Nat
  | collective label => label.actor
  | recv self _ _ _ _ _ _ | send self _ _ _ _ _ _ | test self _ => self

/-- The rank after a point-to-point call has left a frame. Its position among its collective calls stays
    the same. -/
def RankState.post (rank : RankState) (frame : Frame) : RankState :=
  { rank.enter frame with pos := rank.pos }

/-- The cookies that `process::finalize` erases from `free_`, when a handle on `id` is left. -/
def World.released (w : World) (id : Nat) : List Nat :=
  let owner := (w.cookies id).owner
  let w := w.setCookie id { w.cookies id with used := int16 ((w.cookies id).used - 1) }
  let process := w.procs owner
  let finished := process.pending.filter fun id => (w.cookies id).used = 0
  let free := finished.reverse ++ process.free
  if 2 * w.size < free.length then free.drop w.size else []

namespace Sys

/-- The rank leaves its handle, as at the end of `MPI_Wait` and of a successful `MPI_Test`. -/
def leave (s : Sys) (self id : Nat) : Sys :=
  { s with
    world := s.world.finalize id
    ranks := Function.update s.ranks self ((s.ranks self).leave id (s.world.cookies id).err) }

/-- A call outside of the collective operations, by a rank that is in no call. -/
def post (s : Sys) (self : Nat) (called : World × Frame) : Outcome Sys :=
  if s.world.size ≤ self ∨ (s.ranks self).cont ≠ [] then .blocked
  else
    .ok
      { s with
        world := called.1
        ranks := Function.update s.ranks self ((s.ranks self).post called.2) }

/-- One event. -/
def perform (vm : ProcessVm) (program : Program) (s : Sys) : Event → Outcome Sys
  | .collective label => s.step vm program label
  | .recv self buf count datatype source tag comm =>
      s.post self (mpiIrecv s.world self buf count datatype source tag comm)
  | .send self buf count datatype dest tag comm =>
      s.post self (mpiIssend s.world self buf count datatype dest tag comm)
  | .test self id =>
      if (s.ranks self).cont = [] ∧ id ∈ (s.ranks self).requests then
        if (s.world.cookies id).busy ≠ 0 then .ok s else .ok (s.leave self id)
      else .blocked

/-- The cookie on which an event leaves a handle, if it does. -/
def leaves (s : Sys) : Event → Option Nat
  | .collective (.wait _ id) => some id
  | .test _ id => if (s.world.cookies id).busy ≠ 0 then none else some id
  | _ => none

/-- The cookies an event returns to the pool. -/
def released (s : Sys) (event : Event) : List Nat :=
  match s.leaves event with
  | some id => s.world.released id
  | none => []

/-- What has been returned to the pool by a sequence of events, given with the states before them, the
    latest first. -/
def pool (history : List (Sys × Event)) : List Nat :=
  history.flatMap fun entry => entry.1.released entry.2

/-- `s'` follows from `s` by the events of `history`, which gives each with the state before it, the latest
    first. -/
inductive Runs (vm : ProcessVm) (program : Program) (s : Sys) : List (Sys × Event) → Sys → Prop where
  | refl : Runs vm program s [] s
  | tail {history : List (Sys × Event)} {s' s'' : Sys} (event : Event)
      (before : Runs vm program s history s') (performed : s'.perform vm program event = .ok s'') :
      Runs vm program s ((s', event) :: history) s''

/-- Perform the listed events. -/
def runEvents (vm : ProcessVm) (program : Program) (s : Sys) : List Event → Outcome Sys
  | [] => .ok s
  | event :: events => do
      let next ← s.perform vm program event
      next.runEvents vm program events

end Sys

end Umpi
