/-
Module: Umpi.Model.System
Layer: Model
Purpose: All ranks running their programs. The atomic steps are the critical section of a collective
  call, one action of a call after it has released the slot, and a completed `MPI_Wait`. A program gives
  each rank's sequence of nonblocking calls; a blocking call is the nonblocking one followed by its
  wait. Steps of different ranks are interleaved freely.
Imports: Umpi.Model.Collective
Trusted boundary: human-reviewed spec
Main exports: RankState, Join, Sys, Label, Sys.step, Program, Reaches, ReachesBy, Sys.Complete
Open obligations: none
-/
import Umpi.Model.Collective

namespace Umpi

/-- Where a rank is in its program. `pos` is the number of collective calls it has made, `cont` and
    `todo` belong to the call it is in (it is in none when `cont` is empty), `requests` are the handles
    it has not waited for, and `rets` the values its calls and waits have returned, the latest first. -/
structure RankState where
  pos : Nat
  cont : List Action
  todo : List Nat
  requests : List Nat
  rets : List Int

/-- A rank that has not done anything. -/
def RankState.new : RankState :=
  { pos := 0, cont := [], todo := [], requests := [], rets := [] }

/-- A record that a rank entered a slot: with which of its calls, and whether `joined_last()` held for
    it. Joins are not program state, they only serve to state what happened. -/
structure Join where
  rank : Nat
  pos : Nat
  last : Bool
deriving Repr, DecidableEq

/-- All ranks and what they share. `joins` lists, for every slot, who entered it since it was last
    idle, in order. -/
structure Sys where
  world : World
  ranks : Nat → RankState
  joins : Nat → List Join

/-- The collective calls of every rank, in order. -/
abbrev Program := Nat → Nat → Option Call

inductive Label where
  /-- Rank `rank` runs its next call up to the unlock. -/
  | call (rank : Nat)
  /-- Rank `rank` performs the next action of its call. -/
  | act (rank : Nat)
  /-- Rank `rank` returns from `MPI_Wait` on a request. -/
  | wait (rank : Nat) (id : Nat)
deriving Repr, DecidableEq

/-- May `MPI_Wait` by `self` on this cookie return? Only the owner sleeps until `busy_` is 0. -/
def Cookie.Ready (cookie : Cookie) (self : Nat) : Prop := cookie.owner = self → cookie.busy = 0

instance (cookie : Cookie) (self : Nat) : Decidable (cookie.Ready self) :=
  inferInstanceAs (Decidable (_ → _))

namespace RankState

/-- The rank after its call released the mutex and left a frame. -/
def enter (rank : RankState) (frame : Frame) : RankState :=
  { pos := rank.pos + 1
    cont := frame.cont
    todo := frame.todo
    requests := frame.request.toList ++ rank.requests
    rets := if frame.cont = [] then frame.ret :: rank.rets else rank.rets }

/-- The rank after an action returned `ret`: an error ends the call and destroys its local list. -/
def advance (rank : RankState) (moved : List Nat) (rest : List Action) (ret : Int) : RankState :=
  if ret ≠ mpiSuccess then { rank with cont := [], todo := [], rets := ret :: rank.rets }
  else if rest = [] then { rank with cont := [], todo := [], rets := mpiSuccess :: rank.rets }
  else { rank with cont := rest, todo := rank.todo.filter fun id => id ∉ moved }

/-- The rank after a wait that returned `err`. -/
def leave (rank : RankState) (id : Nat) (err : Int) : RankState :=
  { rank with requests := rank.requests.erase id, rets := err :: rank.rets }

end RankState

/-- The cookies an action takes out of the call's local list. -/
def Action.moved : Action → List Nat
  | moveToPending id => [id]
  | _ => []

namespace Sys

/-- The record of a call by `self` that has taken the world from `s.world` to `w`. A call that was
    rejected before it entered a slot leaves no record. -/
def record (s : Sys) (w : World) (self : Nat) : Nat → List Join :=
  let turn := s.world.ticket self % umpiOutstandingCollectiveOperations
  if w.ticket self = s.world.ticket self then s.joins
  else
    let before := if (s.world.slots turn).box = [] then [] else s.joins turn
    Function.update s.joins turn
      (before ++ [{ rank := self, pos := (s.ranks self).pos, last := w.joinedLast turn }])

/-- One step of the system. -/
def step (vm : ProcessVm) (program : Program) (s : Sys) : Label → Outcome Sys
  | .call self =>
      if s.world.size ≤ self ∨ (s.ranks self).cont ≠ [] then .blocked
      else
        match program self (s.ranks self).pos with
        | none => .blocked
        | some call => do
            let (w, frame) ← call.enter vm s.world self
            pure
              { world := w
                ranks := Function.update s.ranks self ((s.ranks self).enter frame)
                joins := s.record w self }
  | .act self =>
      match (s.ranks self).cont with
      | [] => .blocked
      | action :: rest => do
          let done ← action.exec vm s.world self
          pure
            { s with
              world := done.world
              ranks := Function.update s.ranks self
                ((s.ranks self).advance action.moved rest done.ret) }
  | .wait self id =>
      if (s.ranks self).cont = [] ∧ id ∈ (s.ranks self).requests ∧
          (s.world.cookies id).Ready self then
        .ok
          { s with
            world := s.world.finalize id
            ranks := Function.update s.ranks self
              ((s.ranks self).leave id (s.world.cookies id).err) }
      else .blocked

/-- `s'` follows from `s` by a sequence of steps. -/
inductive Reaches (vm : ProcessVm) (program : Program) (s : Sys) : Sys → Prop where
  | refl : Reaches vm program s s
  | tail {s' s'' : Sys} (label : Label) (before : Reaches vm program s s')
      (step : s'.step vm program label = .ok s'') : Reaches vm program s s''

/-- `s'` follows from `s` by a sequence of steps each of which satisfies a condition on the state before
    it. -/
inductive ReachesBy (vm : ProcessVm) (program : Program) (meets : Sys → Label → Prop) (s : Sys) :
    Sys → Prop where
  | refl : ReachesBy vm program meets s s
  | tail {s' s'' : Sys} (label : Label) (before : ReachesBy vm program meets s s')
      (condition : meets s' label) (step : s'.step vm program label = .ok s'') :
      ReachesBy vm program meets s s''

/-- Perform the listed steps. -/
def run (vm : ProcessVm) (program : Program) (s : Sys) : List Label → Outcome Sys
  | [] => .ok s
  | label :: labels => do
      let next ← s.step vm program label
      next.run vm program labels

/-- Every call and every wait so far returned `MPI_SUCCESS`. -/
def Clean (s : Sys) : Prop := ∀ rank, ∀ ret ∈ (s.ranks rank).rets, ret = mpiSuccess

/-- Before a collective operation on the slot of ticket `t`: all `n` ranks have this ticket and nothing
    in flight, the slot is idle, and the free cookies of different processes are different. -/
structure Ready (n t : Nat) (s : Sys) : Prop where
  size : s.world.size = n
  ticket : ∀ rank < n, s.world.ticket rank = t
  mutex : (s.world.slots (t % umpiOutstandingCollectiveOperations)).mutex = none
  box : (s.world.slots (t % umpiOutstandingCollectiveOperations)).box = []
  idle : ∀ rank, s.ranks rank = RankState.new
  free : ∀ rank, ∀ id ∈ (s.world.procs rank).free, id < s.world.next
  apart : ∀ rank other, rank ≠ other →
    (s.world.procs rank).free.Disjoint (s.world.procs other).free

/-- Every rank has made its one call, the call has returned, and `MPI_Wait` on every request still
    held would return at once. -/
structure Complete (s : Sys) : Prop where
  called : ∀ rank < s.world.size, (s.ranks rank).pos = 1
  returned : ∀ rank < s.world.size, (s.ranks rank).cont = []
  ready : ∀ rank < s.world.size, ∀ id ∈ (s.ranks rank).requests,
    (s.world.cookies id).Ready rank

end Sys

/-- The state in which all `size` processes have returned from `MPI_Init`. -/
def Sys.init (size : Nat) (mem : Memory) : Sys :=
  { world := World.start size mem, ranks := fun _ => RankState.new, joins := fun _ => [] }

/-- The program in which every rank makes one collective call. -/
def once (calls : Nat → Call) : Program := fun rank pos =>
  if pos = 0 then some (calls rank) else none

end Umpi
