/-
Module: Umpi.Model.Allgatherv
Layer: Model
Purpose: `MPI_Allgatherv` and the `MPI_Barrier` it uses. The call is a loop over all ranks as roots; in every
  round a rank makes an `MPI_Igatherv`, meets the others at the barrier (the root after its call, everybody
  else before) and waits for its request. A step of a rank is the next thing it does, so a run is given by
  the ranks in the order in which they take their steps.
Imports: Umpi.Foundation.Barrier, Umpi.Model.System
Trusted boundary: human-reviewed spec
Main exports: AllgathervArgs, AllgathervArgs.round, Line, Gathering, Gathering.step, Gathering.Reaches
Open obligations: none
-/
import Umpi.Foundation.Barrier
import Umpi.Model.System

namespace Umpi

open Foundation

/-- `static_cast<uint8_t *>(pointer) + bytes`. Only an address of a buffer can be moved. -/
def Pointer.advance (bytes : Int) : Pointer → Outcome Pointer
  | addr a => .ok (.addr (a + bytes))
  | pointer => if bytes = 0 then .ok pointer else .undefined .nullHandle

/-- The arguments of `MPI_Allgatherv`. -/
structure AllgathervArgs where
  sendbuf : Pointer
  sendcount : Int
  sendtype : MpiDatatype
  recvbuf : Pointer
  recvcounts : Option (Nat → Int)
  displs : Option (Nat → Int)
  recvtype : MpiDatatype
  comm : MpiComm

/-- The call of `MPI_Igatherv` in the round of `root`. With `MPI_IN_PLACE` a rank other than the root sends
    its own block of the receive buffer, and passes nothing to receive with. -/
def AllgathervArgs.round (args : AllgathervArgs) (self root : Nat) : Outcome Call :=
  if args.sendbuf = .inPlace ∧ root ≠ self then
    match args.displs, args.recvtype, args.recvcounts with
    | some displs, some recvIovec, some recvcounts => do
        let sendbuf ← args.recvbuf.advance (displs self * recvIovec.stride)
        pure (.gatherv sendbuf (recvcounts self) (some recvIovec) .null none none none root args.comm)
    | _, _, _ => .undefined .nullHandle
  else
    .ok (.gatherv args.sendbuf args.sendcount args.sendtype args.recvbuf args.recvcounts args.displs
      args.recvtype root args.comm)

/-- Where a rank is in the body of the loop, in the round of the given root. -/
inductive Line where
  /-- At the loop condition. -/
  | begins (root : Nat)
  /-- Before the call of `MPI_Igatherv`. -/
  | calls (root : Nat)
  /-- In `MPI_Igatherv`, after it has released the slot. -/
  | inside (root : Nat)
  /-- After the call of `MPI_Igatherv`. -/
  | called (root : Nat)
  /-- Before `MPI_Wait`. -/
  | waits (root : Nat)
  /-- `MPI_Allgatherv` has returned. -/
  | returned (ret : Int)
deriving Repr, DecidableEq

/-- `n` ranks in `MPI_Allgatherv`. -/
structure Gathering (n : Nat) where
  sys : Sys
  barrier : Barrier n
  line : Nat → Line

namespace Gathering

variable {n : Nat}

/-- All ranks are about to enter the loop. -/
def start (sys : Sys) (several : 0 < n) : Gathering n :=
  { sys := sys, barrier := .opened several, line := fun _ => .begins 0 }

def goto (s : Gathering n) (self : Nat) (line : Line) : Gathering n :=
  { s with line := Function.update s.line self line }

/-- `if (ret) return ret;`. -/
def onSuccess (ret : Int) (next : Line) : Line := if ret = mpiSuccess then next else .returned ret

/-- The value that the rank's latest call or wait has returned. -/
def ret (s : Gathering n) (self : Nat) : Int := ((s.sys.ranks self).rets.head?).getD mpiFail

/-- A rank that has made a step of `MPI_Igatherv`: it has more to do there, or has returned from it. -/
def proceed (s : Gathering n) (self root : Nat) : Gathering n :=
  s.goto self (if (s.sys.ranks self).cont ≠ [] then .inside root else onSuccess (s.ret self) (.called root))

/-- `MPI_Barrier`: with a wrong communicator it returns an error at once. A rank that arrives cannot take a
    step before everybody has arrived. -/
def mpiBarrier (s : Gathering n) (self : Nat) (valid : self < n) (absent : self ∉ s.barrier.waiting)
    (comm : MpiComm) : Gathering n × Int :=
  if comm ≠ .world then (s, mpiFail)
  else ({ s with barrier := s.barrier.arrive self valid absent }, mpiSuccess)

/-- A step of rank `self`. -/
def step (vm : ProcessVm) (args : Nat → AllgathervArgs) (s : Gathering n) (self : Nat) :
    Outcome (Gathering n) :=
  if free : self < n ∧ self ∉ s.barrier.waiting then
    match s.line self with
    | .begins root =>
        if s.sys.world.size ≤ root then .ok (s.goto self (.returned mpiSuccess))
        else if root ≠ self then
          .ok ((s.mpiBarrier self free.1 free.2 (args self).comm).1.goto self (.calls root))
        else .ok (s.goto self (.calls root))
    | .calls root => do
        let call ← (args self).round self root
        let sys ← s.sys.step vm (fun _ _ => some call) (.call self)
        pure ({ s with sys := sys }.proceed self root)
    | .inside root => do
        let sys ← s.sys.step vm (fun _ _ => none) (.act self)
        pure ({ s with sys := sys }.proceed self root)
    | .called root =>
        if root = self then
          let (s, ret) := s.mpiBarrier self free.1 free.2 (args self).comm
          .ok (s.goto self (onSuccess ret (.waits root)))
        else .ok (s.goto self (.waits root))
    | .waits root =>
        match (s.sys.ranks self).requests with
        | [] => .undefined .nullHandle
        | request :: _ => do
            let sys ← s.sys.step vm (fun _ _ => none) (.wait self request)
            let s := { s with sys := sys }
            pure (s.goto self (onSuccess (s.ret self) (.begins (root + 1))))
    | .returned _ => .blocked
  else .blocked

/-- `s'` follows from `s` by steps of the ranks in any order. -/
inductive Reaches (vm : ProcessVm) (args : Nat → AllgathervArgs) (s : Gathering n) : Gathering n → Prop where
  | refl : Reaches vm args s s
  | tail {s' s'' : Gathering n} (self : Nat) (before : Reaches vm args s s')
      (step : s'.step vm args self = .ok s'') : Reaches vm args s s''

/-- Perform the steps of the listed ranks. -/
def run (vm : ProcessVm) (args : Nat → AllgathervArgs) (s : Gathering n) : List Nat → Outcome (Gathering n)
  | [] => .ok s
  | self :: ranks => do
      let next ← s.step vm args self
      next.run vm args ranks

end Gathering

end Umpi
