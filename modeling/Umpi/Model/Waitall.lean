/-
Module: Umpi.Model.Waitall
Layer: Model
Purpose: `MPI_Waitall` as a machine of its own, because other processes go on while it waits. It calls `MPI_Wait` on
  one request after the other. An own step is the head of the loop, the critical section of `process::wait`, a
  wake-up, `get_status`, or `leave` with what follows of the turn.
Imports: Umpi.Model.Waiting
Trusted boundary: human-reviewed spec
Main exports: mpiErrInStatus, WaitallPhase, Waitall, Waitall.own, Waitall.Reaches
Open obligations: none
-/
import Umpi.Model.Waiting

namespace Umpi

/-- `MPI_ERR_IN_STATUS`. -/
def mpiErrInStatus : Int := 2

/-- Where `MPI_Waitall` is. -/
inductive WaitallPhase where
  /-- At the head of the loop. -/
  | head
  /-- Before `cookie->wait()`; the request is null already. -/
  | wait (id : Nat)
  /-- In `cond_.wait`. -/
  | sleeping (id : Nat)
  /-- Before `get_status`. -/
  | report (id : Nat)
  /-- Before `cookie->leave()`. -/
  | leave (id : Nat) (err : Int)
  | returned (ret : Int)
deriving Repr, DecidableEq

/-- A process in `MPI_Waitall`. `reports` is not in the source: it has, for every request that is done with, the
    cookie that `get_status` has read. -/
structure Waitall where
  threads : Threads
  phase : WaitallPhase
  index : Nat
  requests : List (Option Nat)
  statuses : Option (List MpiStatus)
  reports : List (Option Cookie)

namespace Waitall

/-- The call has begun. -/
def start (threads : Threads) (requests : List (Option Nat)) (statuses : Option (List MpiStatus)) : Waitall :=
  { threads := threads
    phase := .head
    index := 0
    requests := requests
    statuses := statuses
    reports := [] }

/-- The status of the request of this turn changes, if there are statuses. -/
def setStatus (s : Waitall) (change : MpiStatus → MpiStatus) : Option (List MpiStatus) :=
  s.statuses.map fun statuses => statuses.modify s.index change

/-- `process::wait` has returned, or sleeps. -/
def waited (s : Waitall) (self : Nat) (threads : Threads) (id : Nat) : Waitall :=
  { s with threads := threads, phase := if threads.asleep self = none then .report id else .sleeping id }

/-- The end of a turn in which `MPI_Wait` has returned `err`. -/
def next (s : Waitall) (err : Int) : Waitall :=
  if err ≠ mpiSuccess then { s with phase := .returned (if s.statuses.isSome then mpiErrInStatus else err) }
  else { s with phase := .head, index := s.index + 1 }

/-- The next step of the call itself. -/
def own (s : Waitall) (self : Nat) : Outcome Waitall :=
  match s.phase with
  | .head =>
      match s.requests[s.index]? with
      | none => .ok { s with phase := .returned mpiSuccess }
      | some none =>
          .ok ({ s with statuses := s.setStatus fun _ => emptyStatus, reports := s.reports ++ [none] }.next mpiSuccess)
      | some (some id) => .ok { s with phase := .wait id, requests := s.requests.set s.index none }
  | .wait id =>
      if (s.threads.world.cookies id).owner = self then
        match s.threads.step (.wait self id) with
        | none => .blocked
        | some threads => .ok (s.waited self threads id)
      else .ok { s with phase := .report id }
  | .sleeping id =>
      match s.threads.step (.resume self) with
      | none => .blocked
      | some threads => .ok (s.waited self threads id)
  | .report id =>
      let cookie := s.threads.world.cookies id
      .ok
        { s with
          phase := .leave id cookie.err
          statuses := s.setStatus fun status => status.get cookie
          reports := s.reports ++ [some cookie] }
  | .leave id err =>
      match s.threads.step (.finalize self id) with
      | none => .blocked
      | some threads =>
          .ok ({ s with threads := threads, statuses := s.setStatus fun status => { status with error := err } }.next
            err)
  | .returned _ => .blocked

/-- `s'` follows from `s` by steps of the call and critical sections of the other processes. -/
inductive Reaches (self : Nat) (s : Waitall) : Waitall → Prop where
  | refl : Reaches self s s
  | own {s' s'' : Waitall} (before : Reaches self s s') (step : s'.own self = .ok s'') : Reaches self s s''
  | other {s' : Waitall} {threads : Threads} (critical : Critical) (before : Reaches self s s')
      (others : critical.actor ≠ self) (step : s'.threads.step critical = some threads) :
      Reaches self s { s' with threads := threads }

end Waitall

end Umpi
