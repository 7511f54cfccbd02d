/-
Module: Umpi.Model.Action
Layer: Model
Purpose: What a call still has to do after it has released the mutex. A request function is a critical
  section followed by a list of actions, each touching shared state once: moving a cookie from the
  call's own list to its owner's `pending_`, a transfer through a cookie, or a reduction between
  scratch buffers. Arguments that the source computes from shared state at the moment of the transfer
  are kept as an `Offset` and evaluated then.
Imports: Umpi.Model.Transfer
Trusted boundary: human-reviewed spec
Main exports: Offset, Action, Action.exec
Open obligations: none
-/
import Umpi.Model.Transfer

namespace Umpi

/-- A `seek` or `skip` argument as the source writes it. -/
inductive Offset where
  /-- A value computed earlier. -/
  | elems (value : Int)
  /-- An `int` product of two values computed earlier. -/
  | product (x y : Int)
  /-- `cookie->count_ * umpi->rank`, read from the cookie of the transfer. -/
  | countTimesRank
  /-- `displs_[umpi->rank]` of the slot. -/
  | displs (turn : Nat)
deriving Repr, DecidableEq

/-- The value of an offset in a transfer by `self` through the cookie `id`. -/
def Offset.eval (w : World) (self id : Nat) : Offset → Outcome Int
  | elems value => .ok value
  | product x y => mulInt x y
  | countTimesRank => mulInt (w.cookies id).count self
  | displs turn => .ok ((w.slots turn).displs self)

/-- One step of a call outside its critical section. -/
inductive Action where
  | moveToPending (id : Nat)
  | writeToOwner (id : Nat) (buf : Loc) (iovec : Iovec) (count : Int) (seek skip : Offset)
  | readFromOwner (id : Nat) (buf : Loc) (iovec : Iovec) (size count : Int) (seek skip : Offset)
  /-- A `read_from_owner` whose return value the caller drops. -/
  | readIgnored (id : Nat) (buf : Loc) (iovec : Iovec) (size count : Int)
  | reduce (op : UmpiOp) (invec inoutvec : Loc) (count : Int) (iovec : Iovec)

/-- Perform one action: the new state, the value on which the call decides to go on, and the number of
    bytes transferred through a cookie. -/
def Action.exec (vm : ProcessVm) (w : World) (self : Nat) : Action → Outcome Transferred
  | moveToPending id => .ok { world := w.moveToPending id, ret := mpiSuccess, moved := 0 }
  | writeToOwner id buf iovec count seek skip => do
      let seek ← seek.eval w self id
      let skip ← skip.eval w self id
      w.writeToOwner vm id buf iovec count seek skip
  | readFromOwner id buf iovec size count seek skip => do
      let seek ← seek.eval w self id
      let skip ← skip.eval w self id
      w.readFromOwner vm id buf iovec size count seek skip
  | readIgnored id buf iovec size count => do
      let done ← w.readFromOwner vm id buf iovec size count 0 0
      pure { done with ret := mpiSuccess }
  | reduce op invec inoutvec count iovec =>
      .ok { world := w.reduce op invec inoutvec count iovec, ret := mpiSuccess, moved := 0 }

/-- What a call leaves to do when it releases the mutex: the `*request` it has set, the cookies of its
    local list `todo`, the remaining actions, and the value it returns once they have succeeded. -/
structure Frame where
  request : Option Nat
  todo : List Nat
  cont : List Action
  ret : Int

/-- A call that returns an error without having set `*request`. -/
def Frame.failed (ret : Int) : Frame := { request := none, todo := [], cont := [], ret := ret }

/-- A call that sets `*request` and has the given actions left, none of them on a local list. -/
def Frame.done (request : Nat) (cont : List Action) : Frame :=
  { request := some request, todo := [], cont := cont, ret := mpiSuccess }

end Umpi
