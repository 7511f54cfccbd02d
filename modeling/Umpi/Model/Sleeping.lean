/-
Module: Umpi.Model.Sleeping
Layer: Model
Purpose: The processes as threads that meet at their mutexes. A step is one critical section of some
  `process::mutex_`, or `cookie::join`, which needs none. A process that finds nothing to return sleeps in
  `cond_.wait`, which releases the mutex, and goes on from there after a `cond_.notify_one()`. Critical sections
  may follow each other in any order; what a caller has to have before it may call is a condition of the step:
  a handle on the cookie it waits for or leaves, a slot's box or a local list to take a cookie from.
Imports: Umpi.Model.PointToPoint
Trusted boundary: human-reviewed spec
Main exports: Waiter, Asleep, Threads, Critical, Threads.step, Threads.Reaches
Open obligations: none
-/
import Umpi.Model.PointToPoint

namespace Umpi

/-- The functions that sleep: `process::wait(cookie)`, `process::wait_any(count, cookies)` and
    `process::wait_any(source, tag)`. -/
inductive Waiter where
  | wait (id : Nat)
  | waitAny (cookies : List (Option Nat))
  | probe (source tag : Int)
deriving Repr, DecidableEq

/-- A process inside `cond_.wait`: the function it is in, and its `signals` and its `inbox_` when it went to
    sleep. -/
structure Asleep where
  waiter : Waiter
  signals : Nat
  inbox : List Nat
deriving Repr, DecidableEq

/-- What the processes share, and what each of them is about. `loose` are the cookies in the boxes of slots and
    in the local lists of running calls, `handles` the requests a process has, each as often as it has it, and
    `answer` is what the last `wait_any` of a process returned, an index or a cookie. -/
structure Threads where
  world : World
  loose : List Nat
  handles : Nat → List Nat
  asleep : Nat → Option Asleep
  answer : Nat → Option Nat

/-- A critical section, by the process `self`. -/
inductive Critical where
  | recvRequest (self : Nat) (buf : Loc) (count : Int) (iovec : Iovec) (source tag : Int)
  | sendRequest (self dest : Nat) (buf : Loc) (count : Int) (iovec : Iovec) (tag : Int)
  /-- `create_request_locked`, by a collective operation. -/
  | createRequest (self : Nat) (buf : Loc) (iovec : Iovec) (size count num : Int)
  /-- `cookie::join` on a cookie in the box of a slot. -/
  | join (self id : Nat)
  | moveToPending (self id : Nat)
  | notifyDone (self id : Nat) (err : Int)
  /-- `cookie::leave`. -/
  | finalize (self id : Nat)
  /-- `process::wait(cookie)` up to the first sleep or to its end, and so for the next two. -/
  | wait (self id : Nat)
  | waitAny (self : Nat) (cookies : List (Option Nat))
  | probe (self : Nat) (source tag : Int)
  /-- From `cond_.wait` up to the next sleep or to the end of the function. -/
  | resume (self : Nat)

/-- The process that runs a critical section. -/
def Critical.actor : Critical → Nat
  | recvRequest self _ _ _ _ _ => self
  | sendRequest self _ _ _ _ _ => self
  | createRequest self _ _ _ _ _ => self
  | join self _ => self
  | moveToPending self _ => self
  | notifyDone self _ _ => self
  | finalize self _ => self
  | wait self _ => self
  | waitAny self _ => self
  | probe self _ _ => self
  | resume self => self

/-- The loop of `wait_any(count, cookies)`: the index of the first cookie that is done. -/
def World.firstDone (w : World) (cookies : List (Option Nat)) : Option Nat :=
  cookies.findIdx? fun
    | none => false
    | some id => (w.cookies id).busy == 0

/-- The loop of `wait_any(source, tag)` over what follows the first `seen` cookies of `inbox_`. -/
def World.firstMatch (w : World) (self seen : Nat) (source tag : Int) : Option Nat :=
  ((w.procs self).inbox.drop seen).find? fun id => (w.cookies id).recvMatch source tag

namespace Threads

/-- `cond_.wait`, up to where the process sleeps. -/
def sleep (s : Threads) (self : Nat) (waiter : Waiter) : Threads :=
  { s with
    asleep := Function.update s.asleep self
      (some
        { waiter := waiter
          signals := (s.world.procs self).signals
          inbox := (s.world.procs self).inbox }) }

/-- The end of a function that may have slept. -/
def finish (s : Threads) (self : Nat) (process : Process) (answer : Option Nat) : Threads :=
  { s with
    world := s.world.setProc self process
    asleep := Function.update s.asleep self none
    answer := Function.update s.answer self answer }

/-- `process::wait(cookie)` from its loop on. -/
def waitLoop (s : Threads) (self id : Nat) : Threads :=
  if (s.world.cookies id).busy ≠ 0 then s.sleep self (.wait id)
  else s.finish self { s.world.procs self with waiting := none, waitingFor := .notWaiting } (s.answer self)

/-- `process::wait_any(count, cookies)` from its loop on. -/
def waitAnyLoop (s : Threads) (self : Nat) (cookies : List (Option Nat)) : Threads :=
  match s.world.firstDone cookies with
  | some i => s.finish self { s.world.procs self with waitingFor := .notWaiting } (some i)
  | none => s.sleep self (.waitAny cookies)

/-- `process::wait_any(source, tag)` from its loops on: the iterator is behind the cookies it has seen, and at
    the end of `inbox_` the process sleeps. -/
def probeLoop (s : Threads) (self seen : Nat) (source tag : Int) : Threads :=
  match s.world.firstMatch self seen source tag with
  | some id => s.finish self { s.world.procs self with waitingFor := .notWaiting } (some id)
  | none => s.sleep self (.probe source tag)

/-- Set `waiting_for_` and `waiting_`. -/
def setWaiting (s : Threads) (self : Nat) (waitingFor : WaitingFor) (waiting : Option Nat) : Threads :=
  { s with world :=
      s.world.setProc self { s.world.procs self with waitingFor := waitingFor, waiting := waiting } }

/-- A call that sets its request: a process has at most two handles on a cookie, as the sender and as the
    receiver of a message to itself. -/
def acquire (s : Threads) (self id : Nat) (w : World) : Option Threads :=
  if (s.handles self).count id < 2 then
    some { s with world := w, handles := Function.update s.handles self (id :: s.handles self) }
  else none

/-- A critical section of a process that is awake. -/
def perform (s : Threads) : Critical → Option Threads
  | .recvRequest self buf count iovec source tag =>
      let (w, frame) := Umpi.recvRequest s.world self buf count iovec source tag
      frame.request.bind fun id => s.acquire self id w
  | .sendRequest self dest buf count iovec tag =>
      if s.world.size ≤ dest then none
      else
        let (w, frame) := Umpi.sendRequest s.world self dest buf count iovec tag
        frame.request.bind fun id => s.acquire self id w
  | .createRequest self buf iovec size count num =>
      if 0 < num ∧ num < 2 ^ 15 then
        let (id, w) := s.world.createRequest self (Cookie.make self buf iovec size count self umpiTagCc num)
        { s with loose := id :: s.loose }.acquire self id w
      else none
  | .join self id => if id ∈ s.loose then s.acquire self id (s.world.join id) else none
  | .moveToPending _ id =>
      if id ∈ s.loose then some { s with world := s.world.moveToPending id, loose := s.loose.erase id }
      else none
  | .notifyDone _ id err => some { s with world := s.world.notifyDone id err }
  | .finalize self id =>
      if id ∈ s.handles self then
        some
          { s with
            world := s.world.finalize id
            handles := Function.update s.handles self ((s.handles self).erase id) }
      else none
  | .wait self id =>
      if id ∈ s.handles self ∧ (s.world.cookies id).owner = self then
        some ((s.setWaiting self .cookie (some id)).waitLoop self id)
      else none
  | .waitAny self cookies =>
      if ∀ cookie ∈ cookies, ∀ id ∈ cookie, id ∈ s.handles self ∧ (s.world.cookies id).owner = self then
        some ((s.setWaiting self .anyCookie (s.world.procs self).waiting).waitAnyLoop self cookies)
      else none
  | .probe self source tag =>
      some ((s.setWaiting self .incoming (s.world.procs self).waiting).probeLoop self 0 source tag)
  | .resume _ => none

/-- A process that has been notified since it went to sleep goes on in its loop. -/
def wakeUp (s : Threads) (self : Nat) : Option Threads :=
  match s.asleep self with
  | none => none
  | some sleep =>
      if (s.world.procs self).signals ≤ sleep.signals then none
      else
        match sleep.waiter with
        | .wait id => some (s.waitLoop self id)
        | .waitAny cookies => some (s.waitAnyLoop self cookies)
        | .probe source tag => some (s.probeLoop self sleep.inbox.length source tag)

/-- One step: a process that is awake runs a critical section, or a sleeper goes on. -/
def step (s : Threads) (critical : Critical) : Option Threads :=
  match critical with
  | .resume self => s.wakeUp self
  | critical =>
      if critical.actor < s.world.size ∧ s.asleep critical.actor = none then s.perform critical else none

/-- `s'` follows from `s` by steps each of which satisfies a condition on the state before it. -/
inductive Reaches (meets : Threads → Critical → Prop) (s : Threads) : Threads → Prop where
  | refl : Reaches meets s s
  | tail {s' s'' : Threads} (critical : Critical) (before : Reaches meets s s')
      (condition : meets s' critical) (step : s'.step critical = some s'') : Reaches meets s s''

/-- All processes have returned from `MPI_Init`. -/
def init (size : Nat) (mem : Memory) : Threads :=
  { world := World.start size mem
    loose := []
    handles := fun _ => []
    asleep := fun _ => none
    answer := fun _ => none }

end Threads

end Umpi
