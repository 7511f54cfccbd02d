/-
Module: Umpi.Proofs.Endings
Layer: Proofs
Purpose: Where a step ends with neither a result nor a fault. A collective call waits for a mutex, or exits, only in
  `get_current_slot`; the remaining actions of a call do neither.
Imports: Umpi.Proofs.EntryPoints
Trusted boundary: none
Main exports: Ending, EndsOnlyIf, World.TooMany, World.Obstructed, Call.enter_ends, Action.exec_goes
Open obligations: none
-/
import Umpi.Proofs.EntryPoints

namespace Umpi

/-- A way to end that is neither a result nor a fault. -/
inductive Ending where
  | blocked
  | exited

def Ending.outcome {α : Type} : Ending → Outcome α
  | blocked => .blocked
  | exited => .exited

/-- The program ends in this way only under this condition. -/
structure EndsOnlyIf {α : Type} (ending : Ending) (condition : Prop) (outcome : Outcome α) : Prop where
  cause : outcome = ending.outcome → condition

namespace EndsOnlyIf

variable {α β : Type} {ending : Ending} {condition : Prop}

theorem ok (value : α) : EndsOnlyIf ending condition (.ok value) where
  cause := by
    intro impossible
    cases ending <;> cases impossible

theorem undefined (fault : Fault) : EndsOnlyIf ending condition (.undefined fault : Outcome α) where
  cause := by
    intro impossible
    cases ending <;> cases impossible

theorem bind {first : Outcome α} {next : α → Outcome β} (before : EndsOnlyIf ending condition first)
    (after : ∀ value, EndsOnlyIf ending condition (next value)) : EndsOnlyIf ending condition (first >>= next) where
  cause := by
    intro ends
    cases first with
    | ok value => exact (after value).cause ends
    | blocked =>
        cases ending with
        | blocked => exact before.cause rfl
        | exited => cases ends
    | exited =>
        cases ending with
        | blocked => cases ends
        | exited => exact before.cause rfl
    | undefined fault => cases ending <;> cases ends

theorem ite {test : Prop} [Decidable test] {yes no : Outcome α} (left : EndsOnlyIf ending condition yes)
    (right : EndsOnlyIf ending condition no) : EndsOnlyIf ending condition (if test then yes else no) := by
  split
  · exact left
  · exact right

theorem mulInt (x y : Int) : EndsOnlyIf ending condition (mulInt x y) := ite (ok _) (undefined _)

theorem addInt (x y : Int) : EndsOnlyIf ending condition (addInt x y) := ite (ok _) (undefined _)

theorem deref (datatype : MpiDatatype) : EndsOnlyIf ending condition (deref datatype) := by
  cases datatype with
  | none => exact undefined _
  | some iovec => exact ok _

theorem mismatch (sendbuf : Pointer) (sendcount : Int) (sendtype : MpiDatatype) (recvcount : Int)
    (recvtype : Iovec) : EndsOnlyIf ending condition (mismatch sendbuf sendcount sendtype recvcount recvtype) :=
  ite (ok _) (bind (deref _) fun _ => ok _)

theorem totalcount (recvcounts : Nat → Int) (size : Nat) :
    EndsOnlyIf ending condition (totalcount recvcounts size) := by
  induction size with
  | zero => exact ok _
  | succ i ih => exact bind ih fun sum => addInt sum _

theorem writeToOwner (vm : ProcessVm) (w : World) (id : Nat) (buf : Loc) (iovec : Iovec)
    (count seek skip : Int) : EndsOnlyIf ending condition (w.writeToOwner vm id buf iovec count seek skip) :=
  ite (ok _) (ite (undefined _) (ok _))

theorem readFromOwner (vm : ProcessVm) (w : World) (id : Nat) (buf : Loc) (iovec : Iovec)
    (size count seek skip : Int) :
    EndsOnlyIf ending condition (w.readFromOwner vm id buf iovec size count seek skip) :=
  ite (undefined _) (ite (ok _) (ok _))

variable (w : World) (self turn : Nat)

theorem rootRequest (buf : Loc) (iovec : Iovec) (size count : Int) (transfer : Nat → Action) :
    EndsOnlyIf ending condition (rootRequest w self turn buf iovec size count transfer) := by
  refine ite ?_ (ok _)
  split
  · exact ok _
  · exact undefined _

theorem rootGatherRequest (recvbuf : Loc) (recvcount : Int) (recvtype : Iovec) :
    EndsOnlyIf ending condition (rootGatherRequest w self turn recvbuf recvcount recvtype) :=
  bind (mulInt _ _) fun _ => rootRequest _ _ _ _ _ _ _ _

theorem rootGathervRequest (recvbuf : Loc) (recvcounts displs : Nat → Int) (recvtype : Iovec) :
    EndsOnlyIf ending condition (rootGathervRequest w self turn recvbuf recvcounts displs recvtype) :=
  bind (totalcount _ _) fun _ => rootRequest _ _ _ _ _ _ _ _

theorem rootScatterRequest (sendbuf : Loc) (sendcount : Int) (sendtype : Iovec) :
    EndsOnlyIf ending condition (rootScatterRequest w self turn sendbuf sendcount sendtype) :=
  bind (mulInt _ _) fun _ => rootRequest _ _ _ _ _ _ _ _

theorem allgatherRequest (vm : ProcessVm) (sendbuf : Pointer) (sendcount : Int) (sendtype : MpiDatatype)
    (recvbuf : Loc) (recvcount : Int) (recvtype : Iovec) :
    EndsOnlyIf ending condition
      (allgatherRequest vm w self turn sendbuf sendcount sendtype recvbuf recvcount recvtype) := by
  refine ite (bind (ite (ok _) (bind (deref _) fun _ => bind (mulInt _ _) fun _ => ok _)) fun _ =>
    bind (mulInt _ _) fun _ => ok _) ?_
  split
  · exact undefined _
  · refine bind (bind (mulInt _ _) fun _ => ite (bind (mulInt _ _) fun _ => writeToOwner _ _ _ _ _ _ _ _)
      (bind (deref _) fun _ => writeToOwner _ _ _ _ _ _ _ _)) fun contribution => ?_
    exact ite (ok _) (ite (bind (mulInt _ _) fun _ => ok _) (bind (mulInt _ _) fun _ => ok _))

theorem allreduceAccumulate (vm : ProcessVm) (sendbuf : Pointer) (recvbuf : Loc) (count : Int)
    (iovec : Iovec) (op : UmpiOp) :
    EndsOnlyIf ending condition (allreduceAccumulate vm w self turn sendbuf recvbuf count iovec op) := by
  refine ite (ite (ok _) (ite (bind (deref _) fun _ => ok _) (bind (deref _) fun _ => ok _))) (ite (ok _) ?_)
  split
  · exact undefined _
  · exact bind (readFromOwner _ _ _ _ _ _ _ _ _) fun done => ite (ok _) (ok _)

theorem allreduceRequest (vm : ProcessVm) (sendbuf : Pointer) (recvbuf : Loc) (count : Int) (iovec : Iovec)
    (op : UmpiOp) :
    EndsOnlyIf ending condition (allreduceRequest vm w self turn sendbuf recvbuf count iovec op) := by
  refine bind (allreduceAccumulate _ _ _ _ _ _ _ _ _) fun accumulated => ?_
  refine ite (ok _) (ite (ok _) ?_)
  dsimp only
  split
  · exact undefined _
  · exact ok _

theorem ladder (request : Nat) (count : Int) (iovec : Iovec) (loop : List Nat → List Action) :
    EndsOnlyIf ending condition (ladder w turn request count iovec loop) := by
  unfold Umpi.ladder
  dsimp only
  split
  · exact undefined _
  · exact ok _

theorem exscanRequest (vm : ProcessVm) (sendbuf : Pointer) (recvbuf : Loc) (count : Int) (iovec : Iovec)
    (op : UmpiOp) :
    EndsOnlyIf ending condition (exscanRequest vm w self turn sendbuf recvbuf count iovec op) :=
  ite (ok _) (ite (ok _) (ladder _ _ _ _ _ _))

theorem scanRequest (vm : ProcessVm) (sendbuf : Pointer) (recvbuf : Loc) (count : Int) (iovec : Iovec)
    (op : UmpiOp) :
    EndsOnlyIf ending condition (scanRequest vm w self turn sendbuf recvbuf count iovec op) :=
  ite (ok _) (ite (ok _) (ladder _ _ _ _ _ _))

end EndsOnlyIf

/-- The slot of the caller's ticket is taken by another ticket. -/
def World.TooMany (w : World) (self : Nat) : Prop :=
  (w.slots (w.turnOf self)).box ≠ [] ∧ (w.slots (w.turnOf self)).ticket ≠ w.ticket self

/-- Why `get_current_slot` does not return. -/
def World.Obstructed (w : World) (self : Nat) : Ending → Prop
  | .blocked => (w.slots (w.turnOf self)).mutex ≠ none
  | .exited => w.TooMany self

variable {ending : Ending}

theorem getCurrentSlot_ends (w : World) (self : Nat) :
    EndsOnlyIf ending (w.Obstructed self ending) (w.getCurrentSlot self) where
  cause := by
    intro ends
    simp only [World.getCurrentSlot] at ends
    split at ends
    case isTrue locked =>
      cases ending with
      | blocked => exact locked
      | exited => cases ends
    case isFalse =>
      split at ends
      case isTrue tooMany =>
        cases ending with
        | blocked => cases ends
        | exited => exact tooMany
      case isFalse => cases ending <;> cases ends

theorem mpiIallreduce_ends (vm : ProcessVm) (w : World) (self : Nat) (sendbuf recvbuf : Pointer)
    (count : Int) (datatype : MpiDatatype) (op : Option UmpiOp) (comm : MpiComm) :
    EndsOnlyIf ending (w.Obstructed self ending)
      (mpiIallreduce vm w self sendbuf recvbuf count datatype op comm) := by
  unfold mpiIallreduce
  split
  · exact .ite (.ok _) (.ite (.ok _) (.bind (getCurrentSlot_ends w self) fun _ => .allreduceRequest ..))
  · exact .ok _

variable (ending) in
/-- A collective call ends so only in `get_current_slot`. -/
theorem Call.enter_ends (vm : ProcessVm) (w : World) (self : Nat) (call : Call) :
    EndsOnlyIf ending (w.Obstructed self ending) (call.enter vm w self) := by
  have claims : EndsOnlyIf ending (w.Obstructed self ending) (w.getCurrentSlot self) :=
    getCurrentSlot_ends w self
  cases call with
  | bcast =>
      exact .ite (.ok _) (.bind (.deref _) fun _ => .bind claims fun _ => .ite (.rootRequest ..) (.ok _))
  | allgather =>
      exact .ite (.ok _) (.bind (.deref _) fun _ => .bind (.mismatch ..) fun _ =>
        .ite (.ok _) (.bind claims fun _ => .allgatherRequest ..))
  | allreduce => exact mpiIallreduce_ends _ _ _ _ _ _ _ _ _
  | blockingAllreduce sendbuf recvbuf count datatype op comm =>
      show EndsOnlyIf ending _ (mpiAllreduce vm w self sendbuf recvbuf count datatype op comm)
      unfold mpiAllreduce
      split
      · exact .ite (.ok _) (.ite (.ok _) (mpiIallreduce_ends _ _ _ _ _ _ _ _ _))
      · exact .ok _
  | exscan sendbuf recvbuf count datatype op comm =>
      show EndsOnlyIf ending _ (mpiIexscan vm w self sendbuf recvbuf count datatype op comm)
      unfold mpiIexscan
      split
      · exact .ite (.ok _) (.ite (.ok _) (.bind claims fun _ => .exscanRequest ..))
      · exact .ok _
  | scan sendbuf recvbuf count datatype op comm =>
      show EndsOnlyIf ending _ (mpiIscan vm w self sendbuf recvbuf count datatype op comm)
      unfold mpiIscan
      split
      · exact .ite (.ok _) (.ite (.ok _) (.bind claims fun _ => .scanRequest ..))
      · exact .ok _
  | gather sendbuf sendcount sendtype recvbuf recvcount recvtype root comm =>
      refine .ite (.ok _) (.bind claims fun _ => .ite ?_ (.bind (.deref _) fun _ => .ok _))
      cases recvtype with
      | none => exact .ok _
      | some iovec =>
          exact .bind (.mismatch ..) fun _ => .ite (.ok _) (.ite (.rootGatherRequest ..)
            (.bind (.deref _) fun _ => .bind (.mulInt _ _) fun _ => .rootGatherRequest ..))
  | gatherv sendbuf sendcount sendtype recvbuf recvcounts displs recvtype root comm =>
      refine .ite (.ok _) (.bind claims fun _ => .ite ?_ (.bind (.deref _) fun _ => .ok _))
      split
      · exact .bind (.mismatch ..) fun _ => .ite (.ok _) (.ite (.rootGathervRequest ..)
          (.bind (.deref _) fun _ => .rootGathervRequest ..))
      · exact .ok _
  | scatter sendbuf sendcount sendtype recvbuf recvcount recvtype root comm =>
      refine .ite (.ok _) (.bind claims fun _ => .ite ?_ (.bind (.deref _) fun _ => .ok _))
      cases sendtype with
      | none => exact .ok _
      | some iovec =>
          exact .bind (.mismatch ..) fun _ => .ite (.ok _) (.ite (.rootScatterRequest ..)
            (.bind (.deref _) fun _ => .bind (.mulInt _ _) fun _ => .rootScatterRequest ..))

variable (ending) in
/-- The remaining actions of a call never wait and never exit. -/
theorem Action.exec_goes {condition : Prop} (vm : ProcessVm) (w : World) (self : Nat) (action : Action) :
    EndsOnlyIf ending condition (action.exec vm w self) := by
  have evaluates : ∀ (offset : Offset) (id : Nat), EndsOnlyIf ending condition (offset.eval w self id) := by
    intro offset id
    cases offset with
    | elems => exact .ok _
    | countTimesRank => exact .mulInt _ _
    | displs => exact .ok _
    | product => exact .mulInt _ _
  cases action with
  | moveToPending => exact .ok _
  | writeToOwner => exact .bind (evaluates _ _) fun _ => .bind (evaluates _ _) fun _ => .writeToOwner ..
  | readFromOwner => exact .bind (evaluates _ _) fun _ => .bind (evaluates _ _) fun _ => .readFromOwner ..
  | readIgnored => exact .bind (.readFromOwner ..) fun _ => .ok _
  | reduce => exact .ok _

end Umpi
