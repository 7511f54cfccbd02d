/-
Module: Umpi.Model.Locks
Layer: Model
Purpose: The mutexes around the critical sections. A process is at a point of its program, which is outside of
  every section or inside one of them, and a mutex has at most one holder: the lock of a process is held from the
  beginning to the end of a section, the lock of a slot over several of them. Taking a mutex that is held is not
  possible. `cookie::join` takes no mutex of its own; its caller holds that of the slot whose box the cookie is
  in, or has the cookie in a local list.
Imports: Umpi.Model.Sleeping
Trusted boundary: human-reviewed spec
Main exports: Mutex, Site, Locks, Move, Locks.step, Locks.Reaches, Critical.modified, Locks.modifies
Open obligations: none
-/
import Umpi.Model.Sleeping

namespace Umpi

/-- The mutexes that processes take around changes of cookies: `process::mutex_` and `collect::mutex_`. -/
inductive Mutex where
  | process (rank : Nat)
  | slot (turn : Nat)
deriving Repr, DecidableEq

/-- Where a cookie of a collective operation is before `move_to_pending`: in the `box_` of a slot, or in the list
    `todo` of a running call. -/
inductive Site where
  | box (turn : Nat)
  | todo (rank : Nat)
deriving Repr, DecidableEq

/-- The mutex a critical section takes. `send_request` is called on the process of the receiver, and
    `move_to_pending`, `notify_done` and `finalize` on the owner of the cookie. -/
def Critical.mutex (w : World) : Critical → Option Mutex
  | recvRequest self _ _ _ _ _ => some (.process self)
  | sendRequest _ dest _ _ _ _ => some (.process dest)
  | createRequest self _ _ _ _ _ => some (.process self)
  | join _ _ => none
  | moveToPending _ id => some (.process (w.cookies id).owner)
  | notifyDone _ id _ => some (.process (w.cookies id).owner)
  | finalize _ id => some (.process (w.cookies id).owner)
  | wait self _ => some (.process self)
  | waitAny self _ => some (.process self)
  | probe self _ _ => some (.process self)
  | resume self => some (.process self)

/-- The cookie whose `used_` a critical section changes: the one that `recv_request` or `send_request` finds and
    joins, and that of `cookie::join` and of `finalize`. -/
def Critical.modified (w : World) : Critical → Option Nat
  | recvRequest self _ _ _ source tag =>
      (w.procs self).inbox.find? fun id => (w.cookies id).recvMatch source tag
  | sendRequest self dest _ _ _ tag =>
      (w.procs dest).outbox.find? fun id => (w.cookies id).sendMatch self tag
  | join _ id => some id
  | finalize _ id => some id
  | createRequest _ _ _ _ _ _ | moveToPending _ _ | notifyDone _ _ _ | wait _ _ | waitAny _ _ | probe _ _ _
  | resume _ => none

/-- The cookie is in the `inbox_` or in the `outbox_` of a process. -/
def World.Queued (w : World) (id : Nat) : Prop :=
  ∃ rank < w.size, id ∈ (w.procs rank).inbox ∨ id ∈ (w.procs rank).outbox

instance (w : World) (id : Nat) : Decidable (w.Queued id) :=
  inferInstanceAs (Decidable (∃ rank < w.size, _))

/-- The processes and the holders of the mutexes. `inside` is the section a process is in, with the mutex it has
    taken for it, `slot` the slot whose `mutex_` a process holds, and `place` where a cookie of `loose` is. -/
structure Locks where
  threads : Threads
  holder : Mutex → Option Nat
  slot : Nat → Option Nat
  inside : Nat → Option (Critical × Option Mutex)
  place : Nat → Site

/-- A step of one process: it takes the mutex of a slot or gives it back, it splices the box of the slot it has
    locked into its own list, it enters a critical section, or it leaves the one it is in. -/
inductive Move where
  | lock (self turn : Nat)
  | unlock (self : Nat)
  | splice (self : Nat)
  | enter (critical : Critical)
  | leave (self : Nat)

/-- The process that takes a step. -/
def Move.actor : Move → Nat
  | lock self _ => self
  | unlock self => self
  | splice self => self
  | enter critical => critical.actor
  | leave self => self

namespace Locks

/-- The process `self` can get at the cookie: it is in its own list, or in the box of the slot it has locked. -/
def Within (s : Locks) (self id : Nat) : Prop :=
  s.place id = .todo self ∨ (s.slot self).map Site.box = some (s.place id)

instance (s : Locks) (self id : Nat) : Decidable (s.Within self id) :=
  inferInstanceAs (Decidable (_ ∨ _))

/-- What holds at both ends of a section, the conditions of `Threads.step` apart: only the cookies of slots and
    local lists that the caller can get at are joined and moved, a collective operation creates its cookie in the
    box of the slot it has locked, and `notify_done` is for cookies that have been taken out of their queue. -/
def Admits (s : Locks) : Critical → Prop
  | .join self id => s.Within self id
  | .moveToPending self id => s.Within self id
  | .createRequest self _ _ _ _ _ => (s.slot self).isSome
  | .notifyDone _ id _ => ¬ s.threads.world.Queued id
  | .recvRequest _ _ _ _ _ _ | .sendRequest _ _ _ _ _ _ | .finalize _ _ | .wait _ _ | .waitAny _ _
  | .probe _ _ _ | .resume _ => True

instance (s : Locks) : ∀ critical, Decidable (s.Admits critical)
  | .join self id | .moveToPending self id => inferInstanceAs (Decidable (s.Within self id))
  | .createRequest self _ _ _ _ _ => inferInstanceAs (Decidable ((s.slot self).isSome = true))
  | .notifyDone _ id _ => inferInstanceAs (Decidable (¬ s.threads.world.Queued id))
  | .recvRequest _ _ _ _ _ _ | .sendRequest _ _ _ _ _ _ | .finalize _ _ | .wait _ _ | .waitAny _ _
  | .probe _ _ _ | .resume _ => inferInstanceAs (Decidable True)

/-- A free mutex is taken by `self`; nothing is to be taken where a section needs none. -/
def take (s : Locks) (self : Nat) : Option Mutex → Option (Mutex → Option Nat)
  | none => some s.holder
  | some mutex => if s.holder mutex = none then some (Function.update s.holder mutex (some self)) else none

/-- The mutex of a section is given back. -/
def release (s : Locks) : Option Mutex → Mutex → Option Nat
  | none => s.holder
  | some mutex => Function.update s.holder mutex none

/-- Where the cookies are after a section, which has left `loose`: `create_request_locked` puts a new one into the
    box of the slot its caller has locked. -/
def placed (s : Locks) (critical : Critical) (loose : List Nat) : Nat → Site :=
  match critical, s.slot critical.actor, loose with
  | .createRequest _ _ _ _ _ _, some turn, id :: _ => Function.update s.place id (.box turn)
  | _, _, _ => s.place

/-- A step of a process. What a section does, it has done when it is left. -/
def step (s : Locks) : Move → Option Locks
  | .lock self turn =>
      if self < s.threads.world.size ∧ s.inside self = none ∧ s.slot self = none ∧
          s.holder (.slot turn) = none then
        some
          { s with
            holder := Function.update s.holder (.slot turn) (some self)
            slot := Function.update s.slot self (some turn) }
      else none
  | .unlock self =>
      match s.inside self, s.slot self with
      | none, some turn =>
          some
            { s with
              holder := Function.update s.holder (.slot turn) none
              slot := Function.update s.slot self none }
      | _, _ => none
  | .splice self =>
      match s.inside self, s.slot self with
      | none, some turn =>
          some { s with place := fun id => if s.place id = .box turn then .todo self else s.place id }
      | _, _ => none
  | .enter critical =>
      let mutex := critical.mutex s.threads.world
      if critical.actor < s.threads.world.size ∧ s.inside critical.actor = none ∧ s.Admits critical ∧
          (s.threads.step critical).isSome then
        (s.take critical.actor mutex).map fun holder =>
          { s with
            holder := holder
            inside := Function.update s.inside critical.actor (some (critical, mutex)) }
      else none
  | .leave self =>
      match s.inside self with
      | none => none
      | some (critical, mutex) =>
          if s.Admits critical then
            (s.threads.step critical).map fun threads =>
              { s with
                threads := threads
                holder := s.release mutex
                inside := Function.update s.inside self none
                place := s.placed critical threads.loose }
          else none

/-- The cookie whose `used_` is changed by the section a process is in. -/
def modifies (s : Locks) (rank : Nat) : Option Nat :=
  (s.inside rank).bind fun within => within.1.modified s.threads.world

/-- `s'` follows from `s` by steps each of which satisfies a condition on the state before it. -/
inductive Reaches (meets : Locks → Move → Prop) (s : Locks) : Locks → Prop where
  | refl : Reaches meets s s
  | tail {s' s'' : Locks} (move : Move) (before : Reaches meets s s') (condition : meets s' move)
      (step : s'.step move = some s'') : Reaches meets s s''

/-- All processes have returned from `MPI_Init`, and no mutex is held. -/
def init (size : Nat) (mem : Memory) : Locks :=
  { threads := Threads.init size mem
    holder := fun _ => none
    slot := fun _ => none
    inside := fun _ => none
    place := fun _ => .box 0 }

end Locks

end Umpi
