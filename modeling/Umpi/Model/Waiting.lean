/-
Module: Umpi.Model.Waiting
Layer: Model
Purpose: The calls that complete a request or look at a message: `MPI_Wait`, `MPI_Test`, `MPI_Waitany`, `MPI_Iprobe`
  and `MPI_Get_count`. `MPI_Wait` and `MPI_Test` are given as they run in one state, up to where the caller would
  sleep. `MPI_Waitany` is a machine of its own, because other processes go on between its loops: an own step is the
  first loop, a critical section, the end up to `leave`, or `leave`.
Imports: Umpi.Model.Sleeping
Trusted boundary: human-reviewed spec
Main exports: MpiStatus, emptyStatus, mpiGetCount, mpiWait, mpiTest, mpiIprobe, Waitany, Waitany.own, Waitany.Reaches
Open obligations: none
-/
import Umpi.Model.Sleeping

namespace Umpi

/-- `MPI_UNDEFINED`. -/
def mpiUndefined : Int := -1

/-- `MPI_Status`. -/
structure MpiStatus extends Status where
  error : Int
deriving Repr, DecidableEq

/-- `get_status` on a status variable: `MPI_ERROR` keeps its value. -/
def MpiStatus.get (status : MpiStatus) (cookie : Cookie) : MpiStatus :=
  { status with toStatus := (getStatus cookie).1 }

/-- What `empty_status` leaves in a status variable. -/
def emptyStatus : MpiStatus := { source := mpiAnySource, tag := mpiAnyTag, len := 0, error := mpiSuccess }

/-- `MPI_Get_count`: the value it returns, and `*count`. The quotient of two values of type `size_t` is kept in an
    `int`. -/
def mpiGetCount (umpi : Bool) (status : Option MpiStatus) (datatype : MpiDatatype) (count : Option Int) :
    Outcome (Int × Option Int) :=
  match status, datatype, count with
  | some status, some iovec, some _ =>
      if ¬ umpi then .ok (mpiFail, count)
      else if iovec.len = 0 then .undefined .zeroDivision
      else .ok (mpiSuccess, some (int32 (status.len / iovec.len : Nat)))
  | _, _, _ => .ok (mpiFail, count)

/-- `cookie::leave` by a process that has a handle on the cookie. -/
def Threads.leave (s : Threads) (self id : Nat) : Threads :=
  { s with
    world := s.world.finalize id
    handles := Function.update s.handles self ((s.handles self).erase id) }

/-- What `MPI_Wait` and `MPI_Test` leave: the processes, `*request`, `*flag`, `*status` if it is asked for, and
    the value they return. -/
structure Completed where
  threads : Threads
  request : Option Nat
  flag : Int
  status : Option MpiStatus
  ret : Int

/-- The end of both functions. -/
def Threads.complete (s : Threads) (self id : Nat) (flag : Int) (status : Option MpiStatus) : Completed :=
  { threads := s.leave self id
    request := none
    flag := flag
    status := status.map fun status => status.get (s.world.cookies id)
    ret := (s.world.cookies id).err }

/-- `MPI_Wait`, unless it sleeps. Its flag is the caller's and of no concern. -/
def mpiWait (s : Threads) (self : Nat) (request : Option Nat) (flag : Int) (status : Option MpiStatus) :
    Option Completed :=
  match request with
  | none =>
      some
        { threads := s, request := none, flag := flag, status := status.map fun _ => emptyStatus, ret := mpiSuccess }
  | some id =>
      if (s.world.cookies id).owner = self then
        let waited := (s.setWaiting self .cookie (some id)).waitLoop self id
        if waited.asleep self = none then some (waited.complete self id flag status) else none
      else some (s.complete self id flag status)

/-- `MPI_Test`. For a null request it does not set `*flag`. -/
def mpiTest (s : Threads) (self : Nat) (request : Option Nat) (flag : Int) (status : Option MpiStatus) : Completed :=
  match request with
  | none =>
      { threads := s, request := none, flag := flag, status := status.map fun _ => emptyStatus, ret := mpiSuccess }
  | some id =>
      if (s.world.cookies id).busy ≠ 0 then
        { threads := s, request := request, flag := 0, status := status, ret := mpiSuccess }
      else s.complete self id 1 status

/-- `process::find_any`. -/
def World.findAny (w : World) (self : Nat) (source tag : Int) : Option Nat :=
  (w.procs self).inbox.find? fun id => (w.cookies id).recvMatch source tag

/-- `MPI_Iprobe`: the value it returns, `*flag` and `*status`. -/
def mpiIprobe (w : World) (self : Nat) (source tag : Int) (comm : MpiComm) (flag : Int) (status : MpiStatus) :
    Int × Int × MpiStatus :=
  if source < mpiAnySource ∨ (w.size : Int) ≤ source ∨ tag < mpiAnyTag ∨ comm ≠ .world then (mpiFail, flag, status)
  else
    match w.findAny self source tag with
    | none => (mpiSuccess, 0, status)
    | some id => ((w.cookies id).err, 1, status.get (w.cookies id))

/-- What the first loop of `MPI_Waitany` finds: the index of a request on another rank's cookie, or else `begin` and
    `end`. -/
inductive Scan where
  | foreign (index : Nat)
  | range (first stop : Nat)
deriving Repr, DecidableEq

/-- The first loop of `MPI_Waitany` from `index` on, with the values of `begin` and `end` so far. -/
def World.scanRequests (w : World) (self : Nat) : List (Option Nat) → Nat → Nat → Nat → Scan
  | [], _, first, stop => .range first stop
  | none :: requests, index, first, stop => w.scanRequests self requests (index + 1) first stop
  | some id :: requests, index, first, _ =>
      if (w.cookies id).owner ≠ self then .foreign index
      else w.scanRequests self requests (index + 1) (min first index) (index + 1)

/-- Where `MPI_Waitany` is. -/
inductive WaitanyPhase where
  | scan
  /-- Before `wait_any` on the requests from `first` up to `stop`. -/
  | search (first stop : Nat)
  /-- In `cond_.wait`. -/
  | sleeping
  /-- `*index` is set. -/
  | claim
  /-- Before `cookie->leave()`. -/
  | leave (id : Nat) (err : Int)
  | returned (ret : Int)
deriving Repr, DecidableEq

/-- A process in `MPI_Waitany`. `chosen` is not in the source: it is the request at `*index`, if that is not
    null, with its cookie, as they were when `*index` was set. -/
structure Waitany where
  threads : Threads
  phase : WaitanyPhase
  requests : List (Option Nat)
  index : Int
  status : Option MpiStatus
  chosen : Option (Nat × Cookie)

namespace Waitany

/-- The call has checked its arguments. -/
def start (threads : Threads) (requests : List (Option Nat)) (status : Option MpiStatus) : Waitany :=
  { threads := threads
    phase := .scan
    requests := requests
    index := 0
    status := status
    chosen := none }

/-- `*index` is set for good. -/
def choose (s : Waitany) (threads : Threads) (index : Nat) : Waitany :=
  { s with
    threads := threads
    phase := .claim
    index := index
    chosen := (s.requests.getD index none).map fun id => (id, threads.world.cookies id) }

/-- After `wait_any`, or where it sleeps. What it returns is assigned to `*index` as it is. -/
def searched (s : Waitany) (self : Nat) (threads : Threads) : Waitany :=
  if threads.asleep self = none then s.choose threads ((threads.answer self).getD 0)
  else { s with threads := threads, phase := .sleeping }

/-- The next step of the call itself. -/
def own (s : Waitany) (self : Nat) : Outcome Waitany :=
  match s.phase with
  | .scan =>
      match s.threads.world.scanRequests self s.requests 0 s.requests.length 0 with
      | .foreign index => .ok (s.choose s.threads index)
      | .range first stop =>
          if stop = 0 then
            .ok
              { s with
                phase := .returned mpiSuccess
                index := mpiUndefined
                status := s.status.map fun _ => emptyStatus }
          else .ok { s with phase := .search first stop, index := mpiUndefined }
  | .search first stop =>
      match s.threads.step (.waitAny self ((s.requests.take stop).drop first)) with
      | none => .blocked
      | some threads => .ok (s.searched self threads)
  | .sleeping =>
      match s.threads.step (.resume self) with
      | none => .blocked
      | some threads => .ok (s.searched self threads)
  | .claim =>
      match s.requests.getD s.index.toNat none with
      | none => .undefined .nullHandle
      | some id =>
          let cookie := s.threads.world.cookies id
          .ok
            { s with
              phase := .leave id cookie.err
              requests := s.requests.set s.index.toNat none
              status := s.status.map fun status => status.get cookie }
  | .leave id err =>
      match s.threads.step (.finalize self id) with
      | none => .blocked
      | some threads => .ok { s with threads := threads, phase := .returned err }
  | .returned _ => .blocked

/-- `s'` follows from `s` by steps of the call and critical sections of the other processes. -/
inductive Reaches (self : Nat) (s : Waitany) : Waitany → Prop where
  | refl : Reaches self s s
  | own {s' s'' : Waitany} (before : Reaches self s s') (step : s'.own self = .ok s'') : Reaches self s s''
  | other {s' : Waitany} {threads : Threads} (critical : Critical) (before : Reaches self s s')
      (others : critical.actor ≠ self) (step : s'.threads.step critical = some threads) :
      Reaches self s { s' with threads := threads }

end Waitany

end Umpi
