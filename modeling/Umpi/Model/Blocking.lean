/-
Module: Umpi.Model.Blocking
Layer: Model
Purpose: `MPI_Recv`, `MPI_Ssend` and `MPI_Send`, by any process at any time, among nonblocking messages. A
  blocking call has its request in a local variable. When its nonblocking half returns an error the call returns
  it, and the variable is gone: the process still has a handle on the cookie, but nothing names it any more.
Imports: Umpi.Model.Runtime
Trusted boundary: human-reviewed spec
Main exports: BlockingCall, Callers, BlockingMove, Callers.step, Callers.Reaches, Callers.Paired, Callers.NothingLeft
Open obligations: none
-/
import Umpi.Model.Runtime

namespace Umpi

/-- A blocking call: its local `request`, and what it has returned. -/
structure BlockingCall where
  rank : Nat
  request : Option Nat
  ret : Option Int
deriving Repr, DecidableEq

/-- The processes and their blocking calls so far, in the order in which they were made. `inside` is the call a
    process is in. `lost` are the handles of the process that no variable names, each as often as it has it. -/
structure Callers where
  sys : Sys
  calls : List BlockingCall
  inside : Nat → Option Nat
  lost : Nat → List Nat

/-- What a process does next. -/
inductive BlockingMove where
  /-- `MPI_Recv` up to the unlock in `recv_request`. -/
  | recv (rank : Nat) (buf : Pointer) (count : Int) (datatype : MpiDatatype) (source tag : Int) (comm : MpiComm)
  /-- `MPI_Ssend`, which is also `MPI_Send`, up to the unlock in `send_request`. -/
  | ssend (rank : Nat) (buf : Pointer) (count : Int) (datatype : MpiDatatype) (dest tag : Int) (comm : MpiComm)
  /-- The transfer of a call, blocking or not. -/
  | act (rank : Nat)
  /-- The `MPI_Wait` at the end of a blocking call. -/
  | wait (rank : Nat)
  /-- Something else, by a process that is in no blocking call. -/
  | nonblocking (event : Event)

/-- No process makes a collective call. -/
def messagesOnly : Program := fun _ _ => none

namespace Callers

/-- The call returns. -/
def finish (s : Callers) (rank call : Nat) (ret : Int) : Callers :=
  { s with
    calls := s.calls.modify call fun made => { made with ret := some ret }
    inside := Function.update s.inside rank none }

/-- `if (ret) return ret;` behind the nonblocking half. -/
def checked (s : Callers) (rank call : Nat) (request : Option Nat) (ret : Int) : Callers :=
  if ret = mpiSuccess then s
  else
    { s with lost := Function.update s.lost rank (request.toList ++ s.lost rank) }.finish rank call ret

/-- A blocking call up to the unlock. What has set `request` without a transfer has succeeded. -/
def enter (s : Callers) (rank : Nat) (called : World × Frame) : Outcome Callers :=
  if s.inside rank ≠ none then .blocked
  else do
    let sys ← s.sys.post rank called
    let entered : Callers :=
      { s with
        sys := sys
        calls := s.calls ++ [{ rank := rank, request := called.2.request, ret := none }]
        inside := Function.update s.inside rank (some s.calls.length) }
    pure (if called.2.cont = [] then entered.checked rank s.calls.length called.2.request called.2.ret else entered)

/-- The request of the call a process is in. -/
def request (s : Callers) (rank : Nat) : Option Nat :=
  (s.inside rank).bind fun call => s.calls[call]?.bind BlockingCall.request

/-- The process has a variable for the handle. -/
def Named (s : Callers) (rank id : Nat) : Prop := (s.lost rank).count id < ((s.sys.ranks rank).requests).count id

instance (s : Callers) (rank id : Nat) : Decidable (s.Named rank id) := inferInstanceAs (Decidable (_ < _))

/-- What a process can do outside of blocking calls: post messages, and wait for or test the requests it has. -/
def Allows (s : Callers) : Event → Prop
  | .recv rank _ _ _ _ _ _ => s.inside rank = none
  | .send rank _ _ _ _ _ _ => s.inside rank = none
  | .test rank id => s.inside rank = none ∧ s.Named rank id
  | .collective (.wait rank id) => s.inside rank = none ∧ s.Named rank id
  | .collective _ => False

instance (s : Callers) : ∀ event, Decidable (s.Allows event)
  | .recv _ _ _ _ _ _ _ | .send _ _ _ _ _ _ _ | .test _ _ => by
      unfold Allows
      infer_instance
  | .collective (.wait _ _) => by
      unfold Allows
      infer_instance
  | .collective (.call _) => isFalse fun impossible => impossible
  | .collective (.act _) => isFalse fun impossible => impossible

/-- One step. -/
def step (vm : ProcessVm) (s : Callers) : BlockingMove → Outcome Callers
  | .recv rank buf count datatype source tag comm =>
      s.enter rank (mpiIrecv s.sys.world rank buf count datatype source tag comm)
  | .ssend rank buf count datatype dest tag comm =>
      s.enter rank (mpiIssend s.sys.world rank buf count datatype dest tag comm)
  | .act rank =>
      match (s.sys.ranks rank).cont with
      | [] => .blocked
      | action :: rest => do
          let done ← action.exec vm s.sys.world rank
          let acted : Callers :=
            { s with sys :=
                { s.sys with
                  world := done.world
                  ranks := Function.update s.sys.ranks rank ((s.sys.ranks rank).advance action.moved rest done.ret) } }
          match s.inside rank with
          | none => pure acted
          | some call => pure (acted.checked rank call (s.request rank) done.ret)
  | .wait rank =>
      match s.inside rank, s.request rank with
      | some call, some id => do
          let sys ← s.sys.step vm messagesOnly (.wait rank id)
          pure ({ s with sys := sys }.finish rank call (s.sys.world.cookies id).err)
      | _, _ => .blocked
  | .nonblocking event =>
      if s.Allows event then do
        let sys ← s.sys.perform vm messagesOnly event
        pure { s with sys := sys }
      else .blocked

/-- `s'` follows from `s` by steps. -/
inductive Reaches (vm : ProcessVm) (s : Callers) : Callers → Prop where
  | refl : Reaches vm s s
  | tail {s' s'' : Callers} (move : BlockingMove) (before : Reaches vm s s') (step : s'.step vm move = .ok s'') :
      Reaches vm s s''

/-- All `size` processes have returned from `MPI_Init`. -/
def init (size : Nat) (mem : Memory) : Callers :=
  { sys := Sys.init size mem, calls := [], inside := fun _ => none, lost := fun _ => [] }

/-- Two blocking calls have the same cookie, and neither has returned: one is an `MPI_Recv`, and the other an
    `MPI_Send` or `MPI_Ssend` that it is paired with. -/
structure Paired (s : Callers) (first second id : Nat) : Prop where
  apart : first ≠ second
  one : ∃ rank, s.calls[first]? = some { rank := rank, request := some id, ret := none }
  other : ∃ rank, s.calls[second]? = some { rank := rank, request := some id, ret := none }

/-- The call has returned the value. -/
def Returned (s : Callers) (call : Nat) (ret : Int) : Prop :=
  ∃ made, s.calls[call]? = some made ∧ made.ret = some ret

/-- What a failed exchange is to leave behind: a cookie that nobody uses and no handle that nothing names. -/
structure NothingLeft (s : Callers) (id : Nat) : Prop where
  used : (s.sys.world.cookies id).used = 0
  busy : (s.sys.world.cookies id).busy = 0
  lost : ∀ rank, id ∉ s.lost rank

end Callers

end Umpi
