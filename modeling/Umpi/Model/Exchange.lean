/-
Module: Umpi.Model.Exchange
Layer: Model
Purpose: One process receiving point-to-point messages. The steps are the critical section of a
  `send_request` on the process by any rank, the critical section of a `recv_request` by the process
  itself, and a transfer left over by either of them, which runs outside the mutex and may end in any
  way. `sends` and `recvs` record what was issued, with the request each call returned (none of them
  returns without one); a send and a receive that returned the same request are paired.
Imports: Umpi.Model.PointToPoint
Trusted boundary: human-reviewed spec
Main exports: SendIssue, RecvIssue, RecvIssue.accepts, Exchange, Exchange.Step, Exchange.Reaches
Open obligations: none
-/
import Umpi.Model.PointToPoint

namespace Umpi

/-- The ranks `mpiexec` can start are below this number. -/
def rankLimit : Nat := 10000

/-- The tags are below this number, so that `int16_t` holds them. -/
def tagLimit : Int := 2 ^ 15

/-- A `send_request` by `rank` and the request it returned. -/
structure SendIssue where
  rank : Nat
  tag : Int
  request : Nat
deriving Repr, DecidableEq

/-- A `recv_request` for `source` and `tag` and the request it returned. -/
structure RecvIssue where
  source : Int
  tag : Int
  request : Nat
deriving Repr, DecidableEq

/-- Does a receive accept a send, by source and tag or by a wildcard? -/
def RecvIssue.accepts (r : RecvIssue) (x : SendIssue) : Bool :=
  (r.source == mpiAnySource || r.source == x.rank) && (r.tag == mpiAnyTag || r.tag == x.tag)

/-- The world, what was issued so far in order, and the transfers still to be made, each with the rank
    that makes it. -/
structure Exchange where
  world : World
  sends : List SendIssue
  recvs : List RecvIssue
  transfers : List (Nat × Action)

namespace Exchange

/-- Rank `self` sends to `dest`. -/
def send (s : Exchange) (dest self : Nat) (buf : Loc) (count : Int) (iovec : Iovec) (tag : Int) :
    Exchange :=
  let (w, frame) := sendRequest s.world self dest buf count iovec tag
  { s with
    world := w
    sends := s.sends ++ frame.request.toList.map fun id =>
      { rank := self, tag := tag, request := id }
    transfers := s.transfers ++ frame.cont.map fun action => (self, action) }

/-- The process `dest` posts a receive. -/
def recv (s : Exchange) (dest : Nat) (buf : Loc) (count : Int) (iovec : Iovec) (source tag : Int) :
    Exchange :=
  let (w, frame) := recvRequest s.world dest buf count iovec source tag
  { s with
    world := w
    recvs := s.recvs ++ frame.request.toList.map fun id =>
      { source := source, tag := tag, request := id }
    transfers := s.transfers ++ frame.cont.map fun action => (dest, action) }

/-- One step of the exchange. -/
inductive Step (dest : Nat) : Exchange → Exchange → Prop where
  | send (s : Exchange) (self : Nat) (buf : Loc) (count : Int) (iovec : Iovec) (tag : Int)
      (rankBound : self < rankLimit) (tagLow : 0 ≤ tag) (tagHigh : tag < tagLimit) :
      Step dest s (s.send dest self buf count iovec tag)
  | recv (s : Exchange) (buf : Loc) (count : Int) (iovec : Iovec) (source tag : Int)
      (sourceLow : mpiAnySource ≤ source) (sourceHigh : source < rankLimit)
      (tagLow : mpiAnyTag ≤ tag) (tagHigh : tag < tagLimit) :
      Step dest s (s.recv dest buf count iovec source tag)
  | transfer (s : Exchange) (vm : ProcessVm) (before after : List (Nat × Action)) (self : Nat)
      (action : Action) (done : Transferred)
      (outstanding : s.transfers = before ++ (self, action) :: after)
      (performed : action.exec vm s.world self = .ok done) :
      Step dest s { s with world := done.world, transfers := before ++ after }

/-- A sequence of steps. -/
inductive Reaches (dest : Nat) (start : Exchange) : Exchange → Prop where
  | refl : Reaches dest start start
  | tail {s s' : Exchange} (before : Reaches dest start s) (step : Step dest s s') :
      Reaches dest start s'

/-- The process `dest` has nothing queued, nothing has been issued, and its recycled cookies are
    different cookies that exist. -/
structure Initial (dest : Nat) (s : Exchange) : Prop where
  inbox : (s.world.procs dest).inbox = []
  outbox : (s.world.procs dest).outbox = []
  freeNodup : (s.world.procs dest).free.Nodup
  freeBound : ∀ id ∈ (s.world.procs dest).free, id < s.world.next
  sends : s.sends = []
  recvs : s.recvs = []
  transfers : s.transfers = []

/-- Nothing has been sent among `size` processes that have just started. -/
def start (size : Nat) (mem : Memory) : Exchange :=
  { world := World.start size mem, sends := [], recvs := [], transfers := [] }

theorem start_initial (size : Nat) (mem : Memory) (dest : Nat) :
    Initial dest (start size mem) := by
  constructor <;> simp [start, World.start, Process.new]

end Exchange

end Umpi
