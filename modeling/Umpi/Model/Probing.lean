/-
Module: Umpi.Model.Probing
Layer: Model
Purpose: `MPI_Probe` while messages arrive. The process looks through its `inbox_`, sleeps at the end of it as
  often as nothing matches, and reads the status once it has released the mutex; between these steps anybody may
  send to it and make the transfers that are due. A sleeper may wake up without a signal.
Imports: Umpi.Model.Exchange, Umpi.Model.Waiting
Trusted boundary: human-reviewed spec
Main exports: Exchange.Continues, Probe, mpiProbe, Probe.own, Probe.Reaches, Exchange.Oldest, World.ReadTruncated,
  Exchange.ReceivedNext
Open obligations: none
-/
import Umpi.Model.Exchange
import Umpi.Model.Waiting

namespace Umpi

/-- `s'` follows from `s` by sends and transfers, without a receive by `dest`. -/
inductive Exchange.Continues (dest : Nat) (s : Exchange) : Exchange → Prop where
  | refl : Continues dest s s
  | send {s' : Exchange} (before : Continues dest s s') (self : Nat) (buf : Loc) (count : Int) (iovec : Iovec)
      (tag : Int)
      (rankBound : self < rankLimit) (tagLow : 0 ≤ tag) (tagHigh : tag < tagLimit) :
      Continues dest s (s'.send dest self buf count iovec tag)
  | transfer {s' : Exchange} (before : Continues dest s s') (vm : ProcessVm) (done' due : List (Nat × Action))
      (self : Nat)
      (action : Action) (done : Transferred) (outstanding : s'.transfers = done' ++ (self, action) :: due)
      (performed : action.exec vm s'.world self = .ok done) :
      Continues dest s { s' with world := done.world, transfers := done' ++ due }

/-- Where `MPI_Probe` is. -/
inductive ProbePhase where
  /-- Before `process::wait_any(source, tag)`. -/
  | enter
  /-- In `cond_.wait`, at the end of an `inbox_` of so many cookies. -/
  | sleeping (seen : Nat)
  /-- `wait_any` has returned the cookie. -/
  | found (id : Nat)
  | returned (status : MpiStatus) (ret : Int)

/-- A process in `MPI_Probe`, and the messages for it. -/
structure Probe where
  exchange : Exchange
  phase : ProbePhase

/-- `MPI_Probe` up to its call of `wait_any`. -/
def mpiProbe (s : Exchange) (source tag : Int) (comm : MpiComm) (status : MpiStatus) : Probe :=
  if source < mpiAnySource ∨ (s.world.size : Int) ≤ source ∨ tag < mpiAnyTag ∨ comm ≠ .world then
    { exchange := s, phase := .returned status mpiFail }
  else { exchange := s, phase := .enter }

namespace Probe

/-- `waiting_for_ = ...` -/
def setWaitingFor (s : Exchange) (self : Nat) (waitingFor : WaitingFor) : Exchange :=
  { s with world := s.world.setProc self { s.world.procs self with waitingFor := waitingFor } }

/-- `process::wait_any(source, tag)` from its loops on, behind the cookies it has seen. -/
def loop (s : Exchange) (self seen : Nat) (source tag : Int) : Probe :=
  match s.world.firstMatch self seen source tag with
  | some id => { exchange := setWaitingFor s self .notWaiting, phase := .found id }
  | none => { exchange := s, phase := .sleeping (s.world.procs self).inbox.length }

/-- The next step of the call itself. -/
def own (s : Probe) (self : Nat) (source tag : Int) (status : MpiStatus) : Option Probe :=
  match s.phase with
  | .enter => some (loop (setWaitingFor s.exchange self .incoming) self 0 source tag)
  | .sleeping seen => some (loop s.exchange self seen source tag)
  | .found id =>
      let cookie := s.exchange.world.cookies id
      some { s with phase := .returned (status.get cookie) cookie.err }
  | .returned _ _ => none

/-- `s'` follows from `s` by steps of the call, sends and transfers. -/
inductive Reaches (self : Nat) (source tag : Int) (status : MpiStatus) (s : Probe) : Probe → Prop where
  | refl : Reaches self source tag status s s
  | own {s' s'' : Probe} (before : Reaches self source tag status s s')
      (step : s'.own self source tag status = some s'') :
      Reaches self source tag status s s''
  | others {s' : Probe} {exchange : Exchange} (before : Reaches self source tag status s s')
      (continues : s'.exchange.Continues self exchange) :
      Reaches self source tag status s { s' with exchange := exchange }

end Probe

/-- The oldest message in `inbox_` that matches. -/
def Exchange.Oldest (s : Exchange) (dest : Nat) (source tag : Int) (id : Nat) : Prop :=
  ∃ older younger, (s.world.procs dest).inbox = older ++ id :: younger ∧
    (s.world.cookies id).recvMatch source tag = true ∧
    ∀ other ∈ older, (s.world.cookies other).recvMatch source tag = false

/-- The size checks of `read_from_owner`, as a receive of `count` elements calls it, refuse the transfer as
    truncated. -/
def World.ReadTruncated (w : World) (id : Nat) (iovec : Iovec) (count : Int) : Prop :=
  let cookie := w.cookies id
  let asked := int32 (sizeT ((cookie.size - 0) * cookie.iovec.len) / iovec.len : Nat)
  sizeT (cookie.size * cookie.iovec.len) < sizeT (0 * cookie.iovec.len + sizeT (asked * iovec.len)) ∨
    sizeT (count * iovec.len) < sizeT (0 * iovec.len + sizeT (asked * iovec.len))

/-- However the exchange goes on without a receive, the next one, with the pattern of the probe or with the
    source and tag of the status, takes the message. With room for exactly the bytes that the status reports it
    is not refused when the transfer is made, whatever happens in between. -/
def Exchange.ReceivedNext (s : Exchange) (dest : Nat) (source tag : Int) (id : Nat) (status : MpiStatus) : Prop :=
  ∀ s', s.Continues dest s' → ∀ source' tag',
    (source' = source ∧ tag' = tag) ∨ (source' = status.source ∧ tag' = status.tag) →
    ∀ buf count iovec,
      (recvRequest s'.world dest buf count iovec source' tag').2 =
          Frame.done id [.readFromOwner id buf iovec count 0 (.elems 0) (.elems 0)] ∧
        (0 ≤ count → count < 2 ^ 31 → count * iovec.len = status.len →
          ∀ s'', (s'.recv dest buf count iovec source' tag').Continues dest s'' →
            ¬ s''.world.ReadTruncated id iovec count)

end Umpi
