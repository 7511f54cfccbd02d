/-
Module: Umpi.Proofs.Release
Layer: Proofs
Purpose: Which collective calls give their slot back. A call that has entered a slot and then finds its
  arguments wrong, or a message too long, or a transfer failed, returns with the mutex held and the slot
  counted up. `Call.Releases` is the condition under which none of these paths is taken: either the call
  is rejected before it enters, or all later checks and all transfers under the mutex succeed and a layout that
  an allreduce in place needs is there; without one the call does not return at all. All other ranks are blocked
  at the slot otherwise.
Imports: Umpi.Proofs.Ledger
Trusted boundary: none
Main exports: World.HoldsSlot, Call.RejectedBefore, Call.RejectedAfter, Call.TransferFails, Call.LayoutMissing,
  Call.Releases, Call.enter_exits, Call.enter_layoutMissing, collective_call_releases_iff, iscan_keeps_slot
Open obligations: none
-/
import Umpi.Proofs.Ledger

namespace Umpi

open Sys

/-! ### The condition -/

/-- The rank holds the mutex of some slot. -/
def World.HoldsSlot (w : World) (self : Nat) : Prop := ∃ turn, (w.slots turn).mutex = some self

/-- A `write_to_owner` succeeds: the bytes fit into the cookie's buffer, and the system call moves all of
    them. -/
def World.WriteSucceeds (vm : ProcessVm) (w : World) (id : Nat) (buf : Loc) (iovec : Iovec)
    (count seek skip : Int) : Prop :=
  let cookie := w.cookies id
  let totalBytes := sizeT (count * iovec.len)
  ¬ sizeT (cookie.size * cookie.iovec.len) < sizeT (seek * cookie.iovec.len + totalBytes) ∧
    vm (sideIov buf iovec skip (skip + count) totalBytes)
      (sideIov cookie.buf cookie.iovec seek cookie.size totalBytes) = ptrdiff totalBytes

/-- A `read_from_owner` of a whole cookie onto a whole buffer succeeds: the cookie has the bytes, they fit,
    and the system call moves all of them. -/
def World.ReadSucceeds (vm : ProcessVm) (w : World) (id : Nat) (buf : Loc) (iovec : Iovec)
    (size count : Int) : Prop :=
  let cookie := w.cookies id
  let count :=
    if count ≠ 0 then count else int32 (sizeT (cookie.size * cookie.iovec.len) / iovec.len : Nat)
  let totalBytes := sizeT (count * iovec.len)
  ¬ (sizeT (cookie.size * cookie.iovec.len) < sizeT totalBytes ∨
      sizeT (size * iovec.len) < sizeT totalBytes) ∧
    vm (sideIov buf iovec 0 count totalBytes) (sideIov cookie.buf cookie.iovec 0 cookie.size totalBytes) =
      ptrdiff totalBytes

/-- The checks of an entry point before `get_current_slot`. -/
def Call.RejectedBefore (w : World) (self : Nat) : Call → Prop
  | bcast buf count datatype root comm =>
      (buf = .null ∧ count ≠ 0) ∨ datatype = none ∨ root < 0 ∨ (w.size : Int) ≤ root ∨ comm ≠ .world
  | allgather sendbuf sendcount sendtype recvbuf recvcount recvtype comm =>
      (sendbuf = .null ∧ sendcount ≠ 0) ∨ (sendbuf ≠ .inPlace ∧ sendtype = none) ∨
        (recvbuf = .null ∧ recvcount ≠ 0) ∨ recvtype = none ∨
        (∃ recvIovec, recvtype = some recvIovec ∧
          mismatch sendbuf sendcount sendtype recvcount recvIovec = .ok true) ∨ comm ≠ .world
  | allreduce sendbuf recvbuf count datatype op comm =>
      datatype = none ∨ op = none ∨ ((sendbuf = .null ∨ recvbuf = .null) ∧ count ≠ 0) ∨ comm ≠ .world ∨
        ∃ iovec, datatype = some iovec ∧ tooLongInPlace sendbuf count iovec = true
  | blockingAllreduce sendbuf recvbuf count datatype op comm =>
      datatype = none ∨ op = none ∨ ((sendbuf = .null ∨ recvbuf = .null) ∧ count ≠ 0) ∨ comm ≠ .world ∨
        w.size = 1 ∨ ∃ iovec, datatype = some iovec ∧ tooLongInPlace sendbuf count iovec = true
  | exscan sendbuf recvbuf count datatype op comm =>
      datatype = none ∨ op = none ∨ ((sendbuf = .null ∨ (self ≠ 0 ∧ recvbuf = .null)) ∧ count ≠ 0) ∨
        comm ≠ .world ∨ ∃ iovec, datatype = some iovec ∧ tooLongInPlace sendbuf count iovec = true
  | scan sendbuf recvbuf count datatype op comm =>
      datatype = none ∨ op = none ∨ ((sendbuf = .null ∨ recvbuf = .null) ∧ count ≠ 0) ∨ comm ≠ .world ∨
        ∃ iovec, datatype = some iovec ∧ tooLongInPlace sendbuf count iovec = true
  | gather sendbuf sendcount sendtype _ _ _ root comm =>
      (sendbuf = .null ∧ sendcount ≠ 0) ∨ (sendbuf ≠ .inPlace ∧ sendtype = none) ∨ root < 0 ∨
        (w.size : Int) ≤ root ∨ comm ≠ .world
  | gatherv sendbuf sendcount sendtype _ _ _ _ root comm =>
      (sendbuf = .null ∧ sendcount ≠ 0) ∨ (sendbuf ≠ .inPlace ∧ sendtype = none) ∨ root < 0 ∨
        (w.size : Int) ≤ root ∨ comm ≠ .world
  | scatter _ _ _ recvbuf recvcount recvtype root comm =>
      (recvbuf = .null ∧ recvcount ≠ 0) ∨ (recvbuf ≠ .inPlace ∧ recvtype = none) ∨ root < 0 ∨
        (w.size : Int) ≤ root ∨ comm ≠ .world

/-- The checks after `get_current_slot`: those of the root of a gather, gatherv or scatter, and the size
    check of exscan and scan. -/
def Call.RejectedAfter (self : Nat) : Call → Prop
  | gather sendbuf sendcount sendtype recvbuf recvcount recvtype root _ =>
      (self : Int) = root ∧ ((recvbuf = .null ∧ recvcount ≠ 0) ∨ recvtype = none ∨
        ∃ recvIovec, recvtype = some recvIovec ∧
          mismatch sendbuf sendcount sendtype recvcount recvIovec = .ok true)
  | gatherv sendbuf sendcount sendtype recvbuf recvcounts displs recvtype root _ =>
      (self : Int) = root ∧ (recvbuf = .null ∨ recvcounts = none ∨ displs = none ∨ recvtype = none ∨
        ∃ counts recvIovec, recvcounts = some counts ∧ recvtype = some recvIovec ∧
          mismatch sendbuf sendcount sendtype (counts self) recvIovec = .ok true)
  | scatter sendbuf sendcount sendtype recvbuf recvcount recvtype root _ =>
      (self : Int) = root ∧ ((sendbuf = .null ∧ sendcount ≠ 0) ∨ sendtype = none ∨
        ∃ sendIovec, sendtype = some sendIovec ∧
          mismatch recvbuf recvcount recvtype sendcount sendIovec = .ok true)
  | exscan _ _ count datatype _ _ =>
      ∃ iovec, datatype = some iovec ∧ umpiMaxInPlaceLen < count * iovec.stride
  | scan _ _ count datatype _ _ =>
      ∃ iovec, datatype = some iovec ∧ umpiMaxInPlaceLen < count * iovec.stride
  | _ => False

/-- Somebody has joined the slot before. -/
def Collect.Joined (slot : Collect) : Prop := slot.box ≠ [] ∧ slot.joined ≠ 0

/-- The transfer that a later rank of an allgather, or of an allreduce that is not in place, makes while it
    holds the mutex does not succeed. -/
def Call.TransferFails (vm : ProcessVm) (w : World) (self : Nat) : Call → Prop
  | allgather sendbuf sendcount sendtype recvbuf recvcount recvtype _ =>
      let slot := w.slots (w.ticket self % umpiOutstandingCollectiveOperations)
      slot.Joined ∧ ∃ root recvIovec, slot.box.head? = some root ∧ recvtype = some recvIovec ∧
        if sendbuf = .inPlace then
          ¬ w.WriteSucceeds vm root (recvbuf.loc self) recvIovec recvcount
            ((w.cookies root).count * self) (recvcount * self)
        else
          ∃ sendIovec, sendtype = some sendIovec ∧
            ¬ w.WriteSucceeds vm root (sendbuf.loc self) sendIovec sendcount
              ((w.cookies root).count * self) 0
  | allreduce sendbuf recvbuf count datatype _ _ =>
      let slot := w.slots (w.ticket self % umpiOutstandingCollectiveOperations)
      sendbuf ≠ .inPlace ∧ slot.Joined ∧ ∃ previous iovec, slot.box.getLast? = some previous ∧
        datatype = some iovec ∧ ¬ w.ReadSucceeds vm previous (recvbuf.loc self) iovec count count
  | blockingAllreduce sendbuf recvbuf count datatype _ _ =>
      let slot := w.slots (w.ticket self % umpiOutstandingCollectiveOperations)
      sendbuf ≠ .inPlace ∧ slot.Joined ∧ ∃ previous iovec, slot.box.getLast? = some previous ∧
        datatype = some iovec ∧ ¬ w.ReadSucceeds vm previous (recvbuf.loc self) iovec count count
  | _ => False

/-- A later rank of an allreduce in place finds `iovec_` null: the ranks before it were not in place, and nobody has
    used the slot in place since it was constructed. -/
def Call.LayoutMissing (w : World) (self : Nat) : Call → Prop
  | allreduce sendbuf _ _ _ _ _ | blockingAllreduce sendbuf _ _ _ _ _ =>
      let slot := w.slots (w.ticket self % umpiOutstandingCollectiveOperations)
      sendbuf = .inPlace ∧ slot.Joined ∧ slot.iovec = none
  | _ => False

/-- A call by `self` is rejected before it enters its slot, or not at all; and then no transfer it makes under
    the mutex fails, and it dereferences no null `iovec_`. -/
def Call.Releases (vm : ProcessVm) (w : World) (self : Nat) (call : Call) : Prop :=
  call.RejectedBefore w self ∨
    ¬ call.RejectedAfter self ∧ ¬ call.TransferFails vm w self ∧ ¬ call.LayoutMissing w self

/-! ### How a call leaves its slot -/

/-- The slot is released, and the call has been accepted. -/
structure Released (w w' : World) (turn : Nat) (frame : Frame) : Prop where
  mutex : (w'.slots turn).mutex = none
  others : ∀ other ≠ turn, w'.slots other = w.slots other
  ret : frame.ret = mpiSuccess

/-- The call has returned an error with the mutex held, and has left the slot's lists as they were. -/
structure Kept (w w' : World) (caller turn : Nat) (frame : Frame) : Prop where
  size : w'.size = w.size
  mutex : (w'.slots turn).mutex = some caller
  control : (w'.slots turn).control = (w.slots turn).control
  others : ∀ other ≠ turn, w'.slots other = w.slots other
  ticket : w'.ticket = w.ticket
  failed : ∃ ret, ret ≠ mpiSuccess ∧ frame = Frame.failed ret

/-- The call has returned without entering a slot, and with an error unless there is one process. -/
structure Outside (w w' : World) (frame : Frame) : Prop where
  slots : w'.slots = w.slots
  ticket : w'.ticket = w.ticket
  failed : w.size ≠ 1 → w' = w ∧ frame = Frame.failed mpiFail

section Exits

variable {vm : ProcessVm} {w w' : World} {self turn : Nat} {frame : Frame}

theorem unlock_released {mid : World} (others : ∀ other ≠ turn, mid.slots other = w.slots other)
    (ret : frame.ret = mpiSuccess) : Released w (mid.unlock turn) turn frame where
  mutex := by simp [World.unlock]
  others := fun other different => by simp [World.unlock, different, others other different]
  ret := ret

@[simp] theorem setBox_slots_of_ne {box : List Nat} {other : Nat} (different : other ≠ turn) :
    (w.setBox turn box).slots other = w.slots other := by
  simp [World.setBox, different]

@[simp] theorem createInBox_slots_of_ne {cookie : Cookie} {other : Nat} (different : other ≠ turn) :
    (w.createInBox self turn cookie).2.slots other = w.slots other := by
  simp [World.createInBox, different]

theorem memberRequest_released (buf : Loc) (iovec : Iovec) (count : Int) (root : Nat)
    (transfer : Nat → Action) :
    Released w (memberRequest w self turn buf iovec count root transfer).1 turn
      (memberRequest w self turn buf iovec count root transfer).2 := by
  unfold memberRequest
  split
  · apply unlock_released
    · intro other different
      split
      · simp [different]
      · simp
    · rfl
  · apply unlock_released
    · intro other different
      simp [different]
    · rfl

theorem rootRequest_released {buf : Loc} {iovec : Iovec} {size count : Int} {transfer : Nat → Action}
    (requested : rootRequest w self turn buf iovec size count transfer = .ok (w', frame)) :
    Released w w' turn frame := by
  unfold rootRequest at requested
  dsimp only at requested
  split at requested
  · split at requested
    · obtain ⟨rfl, rfl⟩ := Prod.mk.inj (Outcome.ok.inj requested)
      exact unlock_released (fun other different => by simp [different]) rfl
    · cases requested
  · obtain ⟨rfl, rfl⟩ := Prod.mk.inj (Outcome.ok.inj requested)
    exact unlock_released (fun other different => by simp [different]) rfl

theorem ladder_released {request : Nat} {count : Int} {iovec : Iovec} {loop : List Nat → List Action}
    (requested : ladder w turn request count iovec loop = .ok (w', frame)) : Released w w' turn frame := by
  unfold ladder at requested
  dsimp only at requested
  split at requested
  · cases requested
  · obtain ⟨rfl, rfl⟩ := Prod.mk.inj (Outcome.ok.inj requested)
    exact unlock_released (fun other different => by simp [different]) rfl

/-- What was moved before does not matter as long as the other slots stayed the same. -/
theorem Released.of_moved {mid : World} (released : Released mid w' turn frame)
    (moved : ∀ other ≠ turn, mid.slots other = w.slots other) : Released w w' turn frame where
  mutex := released.mutex
  others := fun other different => (released.others other different).trans (moved other different)
  ret := released.ret

theorem claimed_mutex (w : World) (self : Nat) :
    ((w.claimed self).slots (w.ticket self % umpiOutstandingCollectiveOperations)).mutex = some self := by
  simp [World.claimed]

/-- A call that fails its checks right after it has claimed the slot. -/
theorem failed_kept (w : World) (self : Nat) :
    Kept (w.claimed self) (w.claimed self) self (w.ticket self % umpiOutstandingCollectiveOperations)
      (Frame.failed mpiFail) where
  size := rfl
  mutex := claimed_mutex w self
  control := rfl
  others := fun _ _ => rfl
  ticket := rfl
  failed := ⟨mpiFail, mpiFail_ne_mpiSuccess, rfl⟩

/-! ### Transfers under the mutex -/

/-- When a write succeeds. -/
theorem writeToOwner_ret {id : Nat} {buf : Loc} {iovec : Iovec} {count seek skip : Int} {done : Transferred}
    (written : w.writeToOwner vm id buf iovec count seek skip = .ok done) :
    done.ret = mpiSuccess ↔ w.WriteSucceeds vm id buf iovec count seek skip := by
  unfold World.writeToOwner at written
  unfold World.WriteSucceeds
  dsimp only at written ⊢
  split at written
  case isTrue short =>
    obtain rfl := Outcome.ok.inj written
    simp [World.finishTransfer, short, mpiFail, mpiSuccess]
  case isFalse enough =>
    split at written
    · cases written
    · obtain rfl := Outcome.ok.inj written
      simp only [World.finishTransfer, enough, not_false_eq_true, true_and]
      split
      case isTrue partially =>
        simp only [mpiFail, mpiSuccess, one_ne_zero, false_iff]
        exact fun all => partially all.symm
      case isFalse all => simpa using (not_not.mp all).symm

/-- When a read of a whole cookie succeeds. -/
theorem readFromOwner_ret {id : Nat} {buf : Loc} {iovec : Iovec} {size count : Int} {done : Transferred}
    (read : w.readFromOwner vm id buf iovec size count 0 0 = .ok done) :
    done.ret = mpiSuccess ↔ w.ReadSucceeds vm id buf iovec size count := by
  unfold World.readFromOwner at read
  unfold World.ReadSucceeds
  simp only [Int.sub_zero, Int.zero_mul, Int.zero_add] at read ⊢
  generalize (if count ≠ 0 then count
    else int32 (sizeT ((w.cookies id).size * (w.cookies id).iovec.len) / iovec.len : Nat)) = asked
      at read ⊢
  split at read
  · cases read
  · split at read
    case isTrue short =>
      obtain rfl := Outcome.ok.inj read
      simp [World.finishTransfer, short, mpiFail, mpiSuccess]
    case isFalse enough =>
      obtain rfl := Outcome.ok.inj read
      simp only [World.finishTransfer, enough, not_false_eq_true, true_and]
      split
      case isTrue partially =>
        simp only [mpiFail, mpiSuccess, one_ne_zero, false_iff]
        exact fun all => partially all.symm
      case isFalse all => simpa using (not_not.mp all).symm

/-! ### Requests without a root -/

/-- What the first and the last joiner of a claimed slot are. -/
theorem claimed_joinedFirst (w : World) (self : Nat) :
    (w.claimed self).joinedFirst (w.ticket self % umpiOutstandingCollectiveOperations) = true ↔
      ¬ (w.slots (w.ticket self % umpiOutstandingCollectiveOperations)).Joined := by
  unfold World.joinedFirst Collect.Joined
  by_cases empty : (w.slots (w.ticket self % umpiOutstandingCollectiveOperations)).box = []
  · simp [World.claimed, empty]
  · simp [World.claimed, empty]

theorem claimed_box (w : World) (self : Nat) :
    ((w.claimed self).slots (w.ticket self % umpiOutstandingCollectiveOperations)).box =
      (w.slots (w.ticket self % umpiOutstandingCollectiveOperations)).box := by
  simp [World.claimed]

theorem claimed_made (w : World) (self : Nat) :
    ((w.claimed self).slots (w.ticket self % umpiOutstandingCollectiveOperations)).made =
      if (w.slots (w.ticket self % umpiOutstandingCollectiveOperations)).box = [] then []
      else (w.slots (w.ticket self % umpiOutstandingCollectiveOperations)).made := by
  simp [World.claimed]

/-- `allgather_request` keeps the slot when its contribution fails. -/
theorem allgatherRequest_exits {sendbuf : Pointer} {sendcount recvcount : Int} {sendtype : MpiDatatype}
    {recvbuf : Pointer} {recvIovec : Iovec} {comm : MpiComm}
    (turnEq : turn = w.ticket self % umpiOutstandingCollectiveOperations)
    (requested : allgatherRequest vm (w.claimed self) self turn sendbuf sendcount sendtype
      (recvbuf.loc self) recvcount recvIovec = .ok (w', frame)) :
    (¬ (Call.allgather sendbuf sendcount sendtype recvbuf recvcount (some recvIovec) comm).TransferFails vm w
        self ∧ Released (w.claimed self) w' turn frame) ∨
      ((Call.allgather sendbuf sendcount sendtype recvbuf recvcount (some recvIovec) comm).TransferFails vm w
        self ∧ Kept (w.claimed self) w' self turn frame) := by
  subst turnEq
  unfold allgatherRequest at requested
  split at requested
  case isTrue first =>
    obtain ⟨mid, moved, requested⟩ := Outcome.bind_eq_ok.mp requested
    obtain ⟨size, _, requested⟩ := Outcome.bind_eq_ok.mp requested
    dsimp only [Outcome.pure_eq] at requested
    obtain ⟨rfl, rfl⟩ := Prod.mk.inj (Outcome.ok.inj requested)
    have slots : mid.slots = (w.claimed self).slots := by
      unfold allgatherFirst at moved
      split at moved
      · obtain rfl := Outcome.ok.inj moved
        rfl
      · obtain ⟨iovec, _, moved⟩ := Outcome.bind_eq_ok.mp moved
        obtain ⟨block, _, moved⟩ := Outcome.bind_eq_ok.mp moved
        obtain rfl := Outcome.ok.inj moved
        rfl
    refine Or.inl ⟨fun fails => (claimed_joinedFirst w self).mp first fails.1, ?_⟩
    apply unlock_released
    · intro other different
      rw [createInBox_slots_of_ne different, slots]
    · rfl
  case isFalse later =>
    have joined : (w.slots (w.ticket self % umpiOutstandingCollectiveOperations)).Joined :=
      not_not.mp (mt (claimed_joinedFirst w self).mpr later)
    split at requested
    · cases requested
    case h_2 root rest box =>
      obtain ⟨done, contributed, requested⟩ := Outcome.bind_eq_ok.mp requested
      obtain ⟨seek, seekEq, contributed⟩ := Outcome.bind_eq_ok.mp contributed
      obtain ⟨_, rfl⟩ := mulInt_eq_ok.mp seekEq
      -- the contribution is one write, whichever buffer it comes from
      have wrote : (done.ret = mpiSuccess ↔
          ¬ (Call.allgather sendbuf sendcount sendtype recvbuf recvcount (some recvIovec) comm).TransferFails
            vm w self) ∧ done.world.slots = (w.claimed self).slots ∧
          done.world.ticket = (w.claimed self).ticket ∧ done.world.size = (w.claimed self).size := by
        have head : (w.slots (w.ticket self % umpiOutstandingCollectiveOperations)).box.head? =
            some root := by
          rw [← claimed_box, box]
          rfl
        split at contributed
        case isTrue inPlace =>
          obtain ⟨skip, skipEq, contributed⟩ := Outcome.bind_eq_ok.mp contributed
          obtain ⟨_, rfl⟩ := mulInt_eq_ok.mp skipEq
          refine ⟨(writeToOwner_ret contributed).trans ?_, (writeToOwner_touches contributed).slots,
            (writeToOwner_touches contributed).ticket, (writeToOwner_touches contributed).size⟩
          simp only [Call.TransferFails, joined, head, inPlace, if_true, true_and, Option.some.injEq,
            exists_and_left, exists_eq_left', not_not]
          exact Iff.rfl
        case isFalse outOfPlace =>
          obtain ⟨sendIovec, typed, contributed⟩ := Outcome.bind_eq_ok.mp contributed
          refine ⟨(writeToOwner_ret contributed).trans ?_, (writeToOwner_touches contributed).slots,
            (writeToOwner_touches contributed).ticket, (writeToOwner_touches contributed).size⟩
          have given : sendtype = some sendIovec := by
            cases sendtype with
            | none => cases typed
            | some iovec => rw [Outcome.ok.inj typed]
          simp only [Call.TransferFails, joined, head, outOfPlace, if_false, true_and, given,
            Option.some.injEq, exists_and_left, exists_eq_left', not_not]
          exact Iff.rfl
      obtain ⟨succeeds, slots, ticket, size⟩ := wrote
      dsimp only at requested
      split at requested
      case isTrue failed =>
        obtain ⟨rfl, rfl⟩ := Prod.mk.inj (Outcome.ok.inj requested)
        refine Or.inr ⟨not_not.mp (mt succeeds.mpr failed), ?_⟩
        exact
          { size := size
            mutex := by rw [slots]; exact claimed_mutex w self
            control := by rw [slots]
            others := fun _ _ => by rw [slots]
            ticket := ticket
            failed := ⟨done.ret, failed, rfl⟩ }
      case isFalse success =>
        refine Or.inl ⟨succeeds.mp (not_not.mp success), ?_⟩
        split at requested
        · obtain ⟨size, _, requested⟩ := Outcome.bind_eq_ok.mp requested
          dsimp only [Outcome.pure_eq] at requested
          obtain ⟨rfl, rfl⟩ := Prod.mk.inj (Outcome.ok.inj requested)
          apply unlock_released
          · intro other different
            rw [createInBox_slots_of_ne different, slots]
          · rfl
        · obtain ⟨size, _, requested⟩ := Outcome.bind_eq_ok.mp requested
          obtain ⟨rfl, rfl⟩ := Prod.mk.inj (Outcome.ok.inj requested)
          apply unlock_released
          · intro other different
            rw [World.join_slots, setBox_slots_of_ne different, slots]
          · rfl

/-- `allreduce_request` keeps the slot when the total cannot be read. -/
theorem allreduceRequest_exits {sendbuf recvbuf : Pointer} {count : Int} {iovec : Iovec} {op : UmpiOp}
    {comm : MpiComm} (turnEq : turn = w.ticket self % umpiOutstandingCollectiveOperations)
    (requested : allreduceRequest vm (w.claimed self) self turn sendbuf (recvbuf.loc self) count iovec op =
      .ok (w', frame)) :
    (¬ (Call.allreduce sendbuf recvbuf count (some iovec) (some op) comm).TransferFails vm w self ∧
        Released (w.claimed self) w' turn frame) ∨
      ((Call.allreduce sendbuf recvbuf count (some iovec) (some op) comm).TransferFails vm w self ∧
        Kept (w.claimed self) w' self turn frame) := by
  subst turnEq
  unfold allreduceRequest at requested
  obtain ⟨⟨mid, ret⟩, accumulated, requested⟩ := Outcome.bind_eq_ok.mp requested
  have accumulates : (ret = mpiSuccess ↔
      ¬ (Call.allreduce sendbuf recvbuf count (some iovec) (some op) comm).TransferFails vm w self) ∧
      (∀ other ≠ w.ticket self % umpiOutstandingCollectiveOperations,
        mid.slots other = (w.claimed self).slots other) ∧
      (mid.slots (w.ticket self % umpiOutstandingCollectiveOperations)).control =
        ((w.claimed self).slots (w.ticket self % umpiOutstandingCollectiveOperations)).control ∧
      mid.ticket = (w.claimed self).ticket ∧ mid.size = (w.claimed self).size := by
    unfold allreduceAccumulate at accumulated
    dsimp only at accumulated
    split at accumulated
    case isTrue inPlace =>
      have fine : ¬ (Call.allreduce sendbuf recvbuf count (some iovec) (some op) comm).TransferFails vm w
          self := fun fails => fails.1 inPlace
      split at accumulated
      · obtain ⟨rfl, rfl⟩ := Prod.mk.inj (Outcome.ok.inj accumulated)
        refine ⟨by simp [fine], fun other different => ?_, ?_, rfl, rfl⟩
        · simp [World.copy, different]
        · simp [World.copy, Collect.control]
      · split at accumulated
        · obtain ⟨layout, _, accumulated⟩ := Outcome.bind_eq_ok.mp accumulated
          obtain ⟨rfl, rfl⟩ := Prod.mk.inj (Outcome.ok.inj accumulated)
          refine ⟨by simp [fine], fun other different => ?_, ?_, rfl, rfl⟩
          · simp [World.copy, World.reduce, different]
          · simp [World.copy, World.reduce, Collect.control]
        · obtain ⟨layout, _, accumulated⟩ := Outcome.bind_eq_ok.mp accumulated
          obtain ⟨rfl, rfl⟩ := Prod.mk.inj (Outcome.ok.inj accumulated)
          exact ⟨by simp [fine], fun other _ => rfl, rfl, rfl, rfl⟩
    case isFalse outOfPlace =>
      split at accumulated
      case isTrue first =>
        obtain ⟨rfl, rfl⟩ := Prod.mk.inj (Outcome.ok.inj accumulated)
        have fine : ¬ (Call.allreduce sendbuf recvbuf count (some iovec) (some op) comm).TransferFails vm w
            self := fun fails => (claimed_joinedFirst w self).mp first fails.2.1
        exact ⟨by simp [fine], fun other _ => rfl, rfl, rfl, rfl⟩
      case isFalse later =>
        have joined : (w.slots (w.ticket self % umpiOutstandingCollectiveOperations)).Joined :=
          not_not.mp (mt (claimed_joinedFirst w self).mpr later)
        split at accumulated
        · cases accumulated
        case h_2 previous box =>
          obtain ⟨done, read, accumulated⟩ := Outcome.bind_eq_ok.mp accumulated
          have last : (w.slots (w.ticket self % umpiOutstandingCollectiveOperations)).box.getLast? =
              some previous := by
            rw [← claimed_box, box]
          have succeeds : done.ret = mpiSuccess ↔
              ¬ (Call.allreduce sendbuf recvbuf count (some iovec) (some op) comm).TransferFails vm w
                self := by
            refine (readFromOwner_ret read).trans ?_
            simp only [Call.TransferFails, joined, last, outOfPlace, ne_eq, not_false_eq_true, true_and,
              Option.some.injEq, exists_and_left, exists_eq_left', not_not]
            exact Iff.rfl
          have slots : done.world.slots = (w.claimed self).slots := (readFromOwner_touches read).slots
          have ticket : done.world.ticket = (w.claimed self).ticket := (readFromOwner_touches read).ticket
          have size : done.world.size = (w.claimed self).size := (readFromOwner_touches read).size
          split at accumulated
          case isTrue failed =>
            obtain ⟨rfl, rfl⟩ := Prod.mk.inj (Outcome.ok.inj accumulated)
            exact ⟨succeeds, fun other _ => by rw [slots], by rw [slots], ticket, size⟩
          case isFalse success =>
            obtain ⟨rfl, rfl⟩ := Prod.mk.inj (Outcome.ok.inj accumulated)
            refine ⟨by simp [succeeds.mp (not_not.mp success)], fun other _ => ?_, ?_, ticket, size⟩
            · rw [World.reduce_slots, slots]
            · rw [World.reduce_slots, slots]
  obtain ⟨succeeds, others, control, ticket, size⟩ := accumulates
  dsimp only [Outcome.pure_eq] at requested
  split at requested
  case isTrue failed =>
    obtain ⟨rfl, rfl⟩ := Prod.mk.inj (Outcome.ok.inj requested)
    refine Or.inr ⟨not_not.mp (mt succeeds.mpr failed), ?_⟩
    exact
      { size := size
        mutex := ((congrArg Collect.mutex control :)).trans (claimed_mutex w self)
        control := control
        others := others
        ticket := ticket
        failed := ⟨ret, failed, rfl⟩ }
  case isFalse success =>
    refine Or.inl ⟨succeeds.mp (not_not.mp success), ?_⟩
    split at requested
    · obtain ⟨rfl, rfl⟩ := Prod.mk.inj (Outcome.ok.inj requested)
      apply unlock_released
      · intro other different
        rw [createInBox_slots_of_ne different, others other different]
      · rfl
    · split at requested
      · cases requested
      · obtain ⟨rfl, rfl⟩ := Prod.mk.inj (Outcome.ok.inj requested)
        apply unlock_released
        · intro other different
          rw [World.join_slots, setBox_slots_of_ne different, others other different]
        · rfl

/-- `exscan_request` keeps the slot when the message is too long. -/
theorem exscanRequest_exits {sendbuf : Pointer} {recvbuf : Loc} {count : Int} {iovec : Iovec} {op : UmpiOp}
    (turnEq : turn = w.ticket self % umpiOutstandingCollectiveOperations)
    (requested : exscanRequest vm (w.claimed self) self turn sendbuf recvbuf count iovec op =
      .ok (w', frame)) :
    (¬ umpiMaxInPlaceLen < count * iovec.stride ∧ Released (w.claimed self) w' turn frame) ∨
      ((umpiMaxInPlaceLen < count * iovec.stride) ∧ Kept (w.claimed self) w' self turn frame) := by
  subst turnEq
  unfold exscanRequest at requested
  split at requested
  case isTrue long =>
    obtain ⟨rfl, rfl⟩ := Prod.mk.inj (Outcome.ok.inj requested)
    exact Or.inr ⟨long, failed_kept w self⟩
  case isFalse fits =>
    refine Or.inl ⟨fits, ?_⟩
    generalize moved : (if self ≠ 0 ∧ sendbuf ≠ .inPlace then
      (w.claimed self).copy vm (sendbuf.loc self) iovec count 0 recvbuf iovec count 0
      else w.claimed self) = mid at requested
    have slots : mid.slots = (w.claimed self).slots := by
      rw [← moved]
      split <;> rfl
    generalize (if self ≠ 0 then (2 : Int) else 1) = num at requested
    generalize (if self ≠ 0 then recvbuf else sendbuf.loc self) = buf at requested
    dsimp only at requested
    split at requested
    · obtain ⟨rfl, rfl⟩ := Prod.mk.inj (Outcome.ok.inj requested)
      apply unlock_released
      · intro other different
        rw [createInBox_slots_of_ne different, slots]
      · rfl
    · refine (ladder_released requested).of_moved fun other different => ?_
      rw [createInBox_slots_of_ne different, slots]

/-- `scan_request` keeps the slot when the message is too long. -/
theorem scanRequest_exits {sendbuf : Pointer} {recvbuf : Loc} {count : Int} {iovec : Iovec} {op : UmpiOp}
    (turnEq : turn = w.ticket self % umpiOutstandingCollectiveOperations)
    (requested : scanRequest vm (w.claimed self) self turn sendbuf recvbuf count iovec op =
      .ok (w', frame)) :
    (¬ umpiMaxInPlaceLen < count * iovec.stride ∧ Released (w.claimed self) w' turn frame) ∨
      ((umpiMaxInPlaceLen < count * iovec.stride) ∧ Kept (w.claimed self) w' self turn frame) := by
  subst turnEq
  unfold scanRequest at requested
  split at requested
  case isTrue long =>
    obtain ⟨rfl, rfl⟩ := Prod.mk.inj (Outcome.ok.inj requested)
    exact Or.inr ⟨long, failed_kept w self⟩
  case isFalse fits =>
    refine Or.inl ⟨fits, ?_⟩
    generalize moved : (if sendbuf ≠ .inPlace then
      (w.claimed self).copy vm (sendbuf.loc self) iovec count 0 recvbuf iovec count 0
      else w.claimed self) = mid at requested
    have slots : mid.slots = (w.claimed self).slots := by
      rw [← moved]
      split <;> rfl
    generalize (if self ≠ 0 then (2 : Int) else 1) = num at requested
    dsimp only at requested
    split at requested
    · obtain ⟨rfl, rfl⟩ := Prod.mk.inj (Outcome.ok.inj requested)
      apply unlock_released
      · intro other different
        rw [createInBox_slots_of_ne different, slots]
      · rfl
    · refine (ladder_released requested).of_moved fun other different => ?_
      rw [createInBox_slots_of_ne different, slots]

/-! ### Calls -/

/-- The three ways in which a call can leave its slot. -/
inductive Call.Exits (vm : ProcessVm) (w : World) (caller : Nat) (call : Call) (w' : World) (frame : Frame) :
    Prop where
  | outside (rejected : call.RejectedBefore w caller) (left : Outside w w' frame)
  | released (accepted : ¬ call.RejectedBefore w caller) (checked : ¬ call.RejectedAfter caller)
      (succeeded : ¬ call.TransferFails vm w caller)
      (left : Released (w.claimed caller) w' (w.ticket caller % umpiOutstandingCollectiveOperations) frame)
  | kept (accepted : ¬ call.RejectedBefore w caller)
      (wrong : call.RejectedAfter caller ∨ call.TransferFails vm w caller)
      (left : Kept (w.claimed caller) w' caller (w.ticket caller % umpiOutstandingCollectiveOperations) frame)

theorem failed_outside (w : World) : Outside w w (Frame.failed mpiFail) :=
  { slots := rfl, ticket := rfl, failed := fun _ => ⟨rfl, rfl⟩ }

/-- What is left of a call that has claimed its slot. -/
theorem of_claimed {next : Nat × World → Outcome (World × Frame)}
    (entered : (w.getCurrentSlot self >>= next) = .ok (w', frame)) :
    next (w.ticket self % umpiOutstandingCollectiveOperations, w.claimed self) = .ok (w', frame) := by
  obtain ⟨⟨turn, claimed⟩, got, entered⟩ := Outcome.bind_eq_ok.mp entered
  obtain ⟨rfl, rfl, _, _⟩ := getCurrentSlot_eq_ok got
  exact entered

theorem bcast_exits {buf : Pointer} {count root : Int} {datatype : MpiDatatype} {comm : MpiComm}
    (entered : mpiIbcast w self buf count datatype root comm = .ok (w', frame)) :
    (Call.bcast buf count datatype root comm).Exits vm w self w' frame := by
  unfold mpiIbcast at entered
  split at entered
  case isTrue rejected =>
    obtain ⟨rfl, rfl⟩ := Prod.mk.inj (Outcome.ok.inj entered)
    exact .outside rejected (failed_outside w)
  case isFalse accepted =>
    obtain ⟨iovec, _, entered⟩ := Outcome.bind_eq_ok.mp entered
    have entered := of_claimed entered
    refine .released accepted id id ?_
    dsimp only at entered
    split at entered
    · exact rootRequest_released entered
    · obtain ⟨rfl, rfl⟩ := Prod.mk.inj (Outcome.ok.inj entered)
      exact memberRequest_released _ _ _ _ _

theorem allgather_exits {sendbuf recvbuf : Pointer} {sendcount recvcount : Int}
    {sendtype recvtype : MpiDatatype} {comm : MpiComm}
    (entered : mpiIallgather vm w self sendbuf sendcount sendtype recvbuf recvcount recvtype comm =
      .ok (w', frame)) :
    (Call.allgather sendbuf sendcount sendtype recvbuf recvcount recvtype comm).Exits vm w self w' frame := by
  unfold mpiIallgather at entered
  split at entered
  case isTrue rejected =>
    obtain ⟨rfl, rfl⟩ := Prod.mk.inj (Outcome.ok.inj entered)
    refine .outside ?_ (failed_outside w)
    unfold Call.RejectedBefore
    tauto
  case isFalse first =>
    obtain ⟨recvIovec, typed, rest⟩ := Outcome.bind_eq_ok.mp entered
    obtain ⟨differ, compared, rest⟩ := Outcome.bind_eq_ok.mp rest
    have given : recvtype = some recvIovec := by
      cases recvtype with
      | none => cases typed
      | some iovec => rw [Outcome.ok.inj typed]
    clear entered
    subst given
    split at rest
    case isTrue second =>
      obtain ⟨rfl, rfl⟩ := Prod.mk.inj (Outcome.ok.inj rest)
      refine .outside ?_ (failed_outside w)
      unfold Call.RejectedBefore
      rcases second with different | other
      · rw [different] at compared
        exact Or.inr (Or.inr (Or.inr (Or.inr (Or.inl ⟨recvIovec, rfl, compared⟩))))
      · exact Or.inr (Or.inr (Or.inr (Or.inr (Or.inr other))))
    case isFalse second =>
      have accepted : ¬ (Call.allgather sendbuf sendcount sendtype recvbuf recvcount (some recvIovec)
          comm).RejectedBefore w self := by
        unfold Call.RejectedBefore
        rintro (one | two | three | none | ⟨iovec, same, compared'⟩ | other)
        · exact first (Or.inl one)
        · exact first (Or.inr (Or.inl two))
        · exact first (Or.inr (Or.inr (Or.inl three)))
        · cases none
        · obtain rfl := Option.some.inj same
          exact second (Or.inl (Outcome.ok.inj (compared.symm.trans compared')))
        · exact second (Or.inr other)
      rcases allgatherRequest_exits rfl (of_claimed rest) with ⟨succeeded, left⟩ | ⟨fails, left⟩
      · exact .released accepted id succeeded left
      · exact .kept accepted (Or.inr fails) left

theorem allreduce_exits {sendbuf recvbuf : Pointer} {count : Int} {datatype : MpiDatatype}
    {op : Option UmpiOp} {comm : MpiComm}
    (entered : mpiIallreduce vm w self sendbuf recvbuf count datatype op comm = .ok (w', frame)) :
    (Call.allreduce sendbuf recvbuf count datatype op comm).Exits vm w self w' frame := by
  unfold mpiIallreduce at entered
  split at entered
  case h_1 iovec op =>
    split at entered
    case isTrue rejected =>
      obtain ⟨rfl, rfl⟩ := Prod.mk.inj (Outcome.ok.inj entered)
      refine .outside ?_ (failed_outside w)
      unfold Call.RejectedBefore
      tauto
    case isFalse first =>
      split at entered
      case isTrue long =>
        obtain ⟨rfl, rfl⟩ := Prod.mk.inj (Outcome.ok.inj entered)
        exact .outside (Or.inr (Or.inr (Or.inr (Or.inr ⟨iovec, rfl, long⟩)))) (failed_outside w)
      case isFalse short =>
        have accepted : ¬ (Call.allreduce sendbuf recvbuf count (some iovec) (some op)
            comm).RejectedBefore w self := by
          unfold Call.RejectedBefore
          rintro (none | none | missing | other | ⟨iovec', same, long⟩)
          · cases none
          · cases none
          · exact first (Or.inl missing)
          · exact first (Or.inr other)
          · obtain rfl := Option.some.inj same
            exact short long
        rcases allreduceRequest_exits rfl (of_claimed entered) with ⟨succeeded, left⟩ | ⟨fails, left⟩
        · exact .released accepted id succeeded left
        · exact .kept accepted (Or.inr fails) left
  case h_2 missing =>
    obtain ⟨rfl, rfl⟩ := Prod.mk.inj (Outcome.ok.inj entered)
    refine .outside ?_ (failed_outside w)
    cases datatype with
    | none => exact Or.inl rfl
    | some iovec =>
        cases op with
        | none => exact Or.inr (Or.inl rfl)
        | some op => exact absurd rfl (missing iovec op rfl)

/-- The blocking entry differs for a single process only. -/
theorem blockingAllreduce_exits {sendbuf recvbuf : Pointer} {count : Int} {datatype : MpiDatatype}
    {op : Option UmpiOp} {comm : MpiComm}
    (entered : mpiAllreduce vm w self sendbuf recvbuf count datatype op comm = .ok (w', frame)) :
    (Call.blockingAllreduce sendbuf recvbuf count datatype op comm).Exits vm w self w' frame := by
  by_cases single : w.size = 1
  · refine .outside (Or.inr (Or.inr (Or.inr (Or.inr (Or.inl single))))) ?_
    unfold mpiAllreduce at entered
    split at entered
    · split at entered
      · obtain ⟨rfl, rfl⟩ := Prod.mk.inj (Outcome.ok.inj entered)
        exact failed_outside w
      · obtain ⟨rfl, rfl⟩ := Prod.mk.inj (Outcome.ok.inj entered)
        split <;> exact { slots := rfl, ticket := rfl, failed := fun several => absurd single several }
    · obtain ⟨rfl, rfl⟩ := Prod.mk.inj (Outcome.ok.inj entered)
      exact failed_outside w
  · rw [mpiAllreduce_eq single] at entered
    have early : (Call.blockingAllreduce sendbuf recvbuf count datatype op comm).RejectedBefore w self ↔
        (Call.allreduce sendbuf recvbuf count datatype op comm).RejectedBefore w self := by
      unfold Call.RejectedBefore
      simp only [single, false_or]
    cases allreduce_exits entered with
    | outside rejected left => exact .outside (early.mpr rejected) left
    | released accepted checked succeeded left =>
        exact .released (mt early.mp accepted) checked succeeded left
    | kept accepted wrong left => exact .kept (mt early.mp accepted) wrong left

theorem exscan_exits {sendbuf recvbuf : Pointer} {count : Int} {datatype : MpiDatatype}
    {op : Option UmpiOp} {comm : MpiComm}
    (entered : mpiIexscan vm w self sendbuf recvbuf count datatype op comm = .ok (w', frame)) :
    (Call.exscan sendbuf recvbuf count datatype op comm).Exits vm w self w' frame := by
  unfold mpiIexscan at entered
  split at entered
  case h_1 iovec op =>
    split at entered
    case isTrue rejected =>
      obtain ⟨rfl, rfl⟩ := Prod.mk.inj (Outcome.ok.inj entered)
      refine .outside ?_ (failed_outside w)
      unfold Call.RejectedBefore
      tauto
    case isFalse first =>
      split at entered
      case isTrue long =>
        obtain ⟨rfl, rfl⟩ := Prod.mk.inj (Outcome.ok.inj entered)
        exact .outside (Or.inr (Or.inr (Or.inr (Or.inr ⟨iovec, rfl, long⟩)))) (failed_outside w)
      case isFalse short =>
        have accepted : ¬ (Call.exscan sendbuf recvbuf count (some iovec) (some op)
            comm).RejectedBefore w self := by
          unfold Call.RejectedBefore
          rintro (none | none | missing | other | ⟨iovec', same, long⟩)
          · cases none
          · cases none
          · exact first (Or.inl missing)
          · exact first (Or.inr other)
          · obtain rfl := Option.some.inj same
            exact short long
        have late : (Call.exscan sendbuf recvbuf count (some iovec) (some op) comm).RejectedAfter self ↔
            umpiMaxInPlaceLen < count * iovec.stride := by
          simp [Call.RejectedAfter]
        rcases exscanRequest_exits rfl (of_claimed entered) with ⟨fits, left⟩ | ⟨long, left⟩
        · exact .released accepted (mt late.mp fits) id left
        · exact .kept accepted (Or.inl (late.mpr long)) left
  case h_2 missing =>
    obtain ⟨rfl, rfl⟩ := Prod.mk.inj (Outcome.ok.inj entered)
    refine .outside ?_ (failed_outside w)
    cases datatype with
    | none => exact Or.inl rfl
    | some iovec =>
        cases op with
        | none => exact Or.inr (Or.inl rfl)
        | some op => exact absurd rfl (missing iovec op rfl)

theorem scan_exits {sendbuf recvbuf : Pointer} {count : Int} {datatype : MpiDatatype}
    {op : Option UmpiOp} {comm : MpiComm}
    (entered : mpiIscan vm w self sendbuf recvbuf count datatype op comm = .ok (w', frame)) :
    (Call.scan sendbuf recvbuf count datatype op comm).Exits vm w self w' frame := by
  unfold mpiIscan at entered
  split at entered
  case h_1 iovec op =>
    split at entered
    case isTrue rejected =>
      obtain ⟨rfl, rfl⟩ := Prod.mk.inj (Outcome.ok.inj entered)
      refine .outside ?_ (failed_outside w)
      unfold Call.RejectedBefore
      tauto
    case isFalse first =>
      split at entered
      case isTrue long =>
        obtain ⟨rfl, rfl⟩ := Prod.mk.inj (Outcome.ok.inj entered)
        exact .outside (Or.inr (Or.inr (Or.inr (Or.inr ⟨iovec, rfl, long⟩)))) (failed_outside w)
      case isFalse short =>
        have accepted : ¬ (Call.scan sendbuf recvbuf count (some iovec) (some op)
            comm).RejectedBefore w self := by
          unfold Call.RejectedBefore
          rintro (none | none | missing | other | ⟨iovec', same, long⟩)
          · cases none
          · cases none
          · exact first (Or.inl missing)
          · exact first (Or.inr other)
          · obtain rfl := Option.some.inj same
            exact short long
        have late : (Call.scan sendbuf recvbuf count (some iovec) (some op) comm).RejectedAfter self ↔
            umpiMaxInPlaceLen < count * iovec.stride := by
          simp [Call.RejectedAfter]
        rcases scanRequest_exits rfl (of_claimed entered) with ⟨fits, left⟩ | ⟨long, left⟩
        · exact .released accepted (mt late.mp fits) id left
        · exact .kept accepted (Or.inl (late.mpr long)) left
  case h_2 missing =>
    obtain ⟨rfl, rfl⟩ := Prod.mk.inj (Outcome.ok.inj entered)
    refine .outside ?_ (failed_outside w)
    cases datatype with
    | none => exact Or.inl rfl
    | some iovec =>
        cases op with
        | none => exact Or.inr (Or.inl rfl)
        | some op => exact absurd rfl (missing iovec op rfl)

theorem gather_exits {sendbuf recvbuf : Pointer} {sendcount recvcount root : Int}
    {sendtype recvtype : MpiDatatype} {comm : MpiComm}
    (entered : mpiIgather vm w self sendbuf sendcount sendtype recvbuf recvcount recvtype root comm =
      .ok (w', frame)) :
    (Call.gather sendbuf sendcount sendtype recvbuf recvcount recvtype root comm).Exits vm w self w'
      frame := by
  unfold mpiIgather at entered
  split at entered
  case isTrue rejected =>
    obtain ⟨rfl, rfl⟩ := Prod.mk.inj (Outcome.ok.inj entered)
    exact .outside rejected (failed_outside w)
  case isFalse accepted =>
    replace entered := of_claimed entered
    dsimp only at entered
    split at entered
    case isTrue isRoot =>
      split at entered
      · obtain ⟨rfl, rfl⟩ := Prod.mk.inj (Outcome.ok.inj entered)
        exact .kept accepted (Or.inl ⟨isRoot, Or.inr (Or.inl rfl)⟩) (failed_kept w self)
      case h_2 recvIovec =>
        obtain ⟨differ, compared, entered⟩ := Outcome.bind_eq_ok.mp entered
        split at entered
        case isTrue wrong =>
          obtain ⟨rfl, rfl⟩ := Prod.mk.inj (Outcome.ok.inj entered)
          refine .kept accepted (Or.inl ⟨isRoot, ?_⟩) (failed_kept w self)
          rcases wrong with missing | different
          · exact Or.inl missing
          · rw [different] at compared
            exact Or.inr (Or.inr ⟨recvIovec, rfl, compared⟩)
        case isFalse right =>
          have checked : ¬ (Call.gather sendbuf sendcount sendtype recvbuf recvcount (some recvIovec) root
              comm).RejectedAfter self := by
            rintro ⟨_, missing | none | ⟨iovec, same, compared'⟩⟩
            · exact right (Or.inl missing)
            · cases none
            · obtain rfl := Option.some.inj same
              exact right (Or.inr (Outcome.ok.inj (compared.symm.trans compared')))
          refine .released accepted checked id ?_
          split at entered
          · obtain ⟨size, _, entered⟩ := Outcome.bind_eq_ok.mp entered
            exact rootRequest_released entered
          · obtain ⟨sendIovec, _, entered⟩ := Outcome.bind_eq_ok.mp entered
            obtain ⟨block, _, entered⟩ := Outcome.bind_eq_ok.mp entered
            obtain ⟨size, _, entered⟩ := Outcome.bind_eq_ok.mp entered
            exact (rootRequest_released entered).of_moved fun _ _ => rfl
    case isFalse notRoot =>
      obtain ⟨sendIovec, _, entered⟩ := Outcome.bind_eq_ok.mp entered
      obtain ⟨rfl, rfl⟩ := Prod.mk.inj (Outcome.ok.inj entered)
      exact .released accepted (fun wrong => notRoot wrong.1) id (memberRequest_released _ _ _ _ _)

theorem gatherv_exits {sendbuf recvbuf : Pointer} {sendcount root : Int}
    {recvcounts displs : Option (Nat → Int)} {sendtype recvtype : MpiDatatype} {comm : MpiComm}
    (entered : mpiIgatherv vm w self sendbuf sendcount sendtype recvbuf recvcounts displs recvtype root
      comm = .ok (w', frame)) :
    (Call.gatherv sendbuf sendcount sendtype recvbuf recvcounts displs recvtype root comm).Exits vm w self w'
      frame := by
  unfold mpiIgatherv at entered
  split at entered
  case isTrue rejected =>
    obtain ⟨rfl, rfl⟩ := Prod.mk.inj (Outcome.ok.inj entered)
    exact .outside rejected (failed_outside w)
  case isFalse accepted =>
    replace entered := of_claimed entered
    dsimp only at entered
    split at entered
    case isTrue isRoot =>
      split at entered
      case h_1 counts offsets recvIovec =>
        obtain ⟨differ, compared, entered⟩ := Outcome.bind_eq_ok.mp entered
        split at entered
        case isTrue wrong =>
          obtain ⟨rfl, rfl⟩ := Prod.mk.inj (Outcome.ok.inj entered)
          refine .kept accepted (Or.inl ⟨isRoot, ?_⟩) (failed_kept w self)
          rcases wrong with missing | different
          · exact Or.inl missing
          · rw [different] at compared
            exact Or.inr (Or.inr (Or.inr (Or.inr ⟨counts, recvIovec, rfl, rfl, compared⟩)))
        case isFalse right =>
          have checked : ¬ (Call.gatherv sendbuf sendcount sendtype recvbuf (some counts) (some offsets)
              (some recvIovec) root comm).RejectedAfter self := by
            rintro ⟨_, missing | none | none | none | ⟨counts', iovec, same, same', compared'⟩⟩
            · exact right (Or.inl missing)
            · cases none
            · cases none
            · cases none
            · obtain rfl := Option.some.inj same
              obtain rfl := Option.some.inj same'
              exact right (Or.inr (Outcome.ok.inj (compared.symm.trans compared')))
          refine .released accepted checked id ?_
          split at entered
          · obtain ⟨total, _, entered⟩ := Outcome.bind_eq_ok.mp entered
            refine (rootRequest_released entered).of_moved fun other different => ?_
            simp [different]
          · obtain ⟨sendIovec, _, entered⟩ := Outcome.bind_eq_ok.mp entered
            obtain ⟨total, _, entered⟩ := Outcome.bind_eq_ok.mp entered
            refine (rootRequest_released entered).of_moved fun other different => ?_
            simp [World.copy, different]
      case h_2 missing =>
        obtain ⟨rfl, rfl⟩ := Prod.mk.inj (Outcome.ok.inj entered)
        refine .kept accepted (Or.inl ⟨isRoot, ?_⟩) (failed_kept w self)
        cases recvcounts with
        | none => exact Or.inr (Or.inl rfl)
        | some counts =>
            cases displs with
            | none => exact Or.inr (Or.inr (Or.inl rfl))
            | some offsets =>
                cases recvtype with
                | none => exact Or.inr (Or.inr (Or.inr (Or.inl rfl)))
                | some recvIovec => exact absurd rfl (missing counts offsets recvIovec rfl rfl)
    case isFalse notRoot =>
      obtain ⟨sendIovec, _, entered⟩ := Outcome.bind_eq_ok.mp entered
      obtain ⟨rfl, rfl⟩ := Prod.mk.inj (Outcome.ok.inj entered)
      exact .released accepted (fun wrong => notRoot wrong.1) id (memberRequest_released _ _ _ _ _)

theorem scatter_exits {sendbuf recvbuf : Pointer} {sendcount recvcount root : Int}
    {sendtype recvtype : MpiDatatype} {comm : MpiComm}
    (entered : mpiIscatter vm w self sendbuf sendcount sendtype recvbuf recvcount recvtype root comm =
      .ok (w', frame)) :
    (Call.scatter sendbuf sendcount sendtype recvbuf recvcount recvtype root comm).Exits vm w self w'
      frame := by
  unfold mpiIscatter at entered
  split at entered
  case isTrue rejected =>
    obtain ⟨rfl, rfl⟩ := Prod.mk.inj (Outcome.ok.inj entered)
    exact .outside rejected (failed_outside w)
  case isFalse accepted =>
    replace entered := of_claimed entered
    dsimp only at entered
    split at entered
    case isTrue isRoot =>
      split at entered
      · obtain ⟨rfl, rfl⟩ := Prod.mk.inj (Outcome.ok.inj entered)
        exact .kept accepted (Or.inl ⟨isRoot, Or.inr (Or.inl rfl)⟩) (failed_kept w self)
      case h_2 sendIovec =>
        obtain ⟨differ, compared, entered⟩ := Outcome.bind_eq_ok.mp entered
        split at entered
        case isTrue wrong =>
          obtain ⟨rfl, rfl⟩ := Prod.mk.inj (Outcome.ok.inj entered)
          refine .kept accepted (Or.inl ⟨isRoot, ?_⟩) (failed_kept w self)
          rcases wrong with missing | different
          · exact Or.inl missing
          · rw [different] at compared
            exact Or.inr (Or.inr ⟨sendIovec, rfl, compared⟩)
        case isFalse right =>
          have checked : ¬ (Call.scatter sendbuf sendcount (some sendIovec) recvbuf recvcount recvtype root
              comm).RejectedAfter self := by
            rintro ⟨_, missing | none | ⟨iovec, same, compared'⟩⟩
            · exact right (Or.inl missing)
            · cases none
            · obtain rfl := Option.some.inj same
              exact right (Or.inr (Outcome.ok.inj (compared.symm.trans compared')))
          refine .released accepted checked id ?_
          split at entered
          · obtain ⟨size, _, entered⟩ := Outcome.bind_eq_ok.mp entered
            exact rootRequest_released entered
          · obtain ⟨recvIovec, _, entered⟩ := Outcome.bind_eq_ok.mp entered
            obtain ⟨block, _, entered⟩ := Outcome.bind_eq_ok.mp entered
            obtain ⟨size, _, entered⟩ := Outcome.bind_eq_ok.mp entered
            exact (rootRequest_released entered).of_moved fun _ _ => rfl
    case isFalse notRoot =>
      obtain ⟨recvIovec, _, entered⟩ := Outcome.bind_eq_ok.mp entered
      obtain ⟨rfl, rfl⟩ := Prod.mk.inj (Outcome.ok.inj entered)
      exact .released accepted (fun wrong => notRoot wrong.1) id (memberRequest_released _ _ _ _ _)

/-- Every call leaves its slot in one of the three ways. -/
theorem Call.enter_exits {call : Call} (entered : call.enter vm w self = .ok (w', frame)) :
    call.Exits vm w self w' frame := by
  cases call with
  | bcast buf count datatype root comm => exact bcast_exits entered
  | allgather sendbuf sendcount sendtype recvbuf recvcount recvtype comm => exact allgather_exits entered
  | allreduce sendbuf recvbuf count datatype op comm => exact allreduce_exits entered
  | blockingAllreduce sendbuf recvbuf count datatype op comm => exact blockingAllreduce_exits entered
  | exscan sendbuf recvbuf count datatype op comm => exact exscan_exits entered
  | scan sendbuf recvbuf count datatype op comm => exact scan_exits entered
  | gather sendbuf sendcount sendtype recvbuf recvcount recvtype root comm => exact gather_exits entered
  | gatherv sendbuf sendcount sendtype recvbuf recvcounts displs recvtype root comm =>
      exact gatherv_exits entered
  | scatter sendbuf sendcount sendtype recvbuf recvcount recvtype root comm => exact scatter_exits entered

/-- In place, the dereference of a null `iovec_` is the first thing that a rank does in its slot. -/
theorem allreduceRequest_layoutMissing {recvbuf : Loc} {count : Int} {iovec : Iovec} {op : UmpiOp}
    (joined : (w.slots (w.ticket self % umpiOutstandingCollectiveOperations)).Joined)
    (missing : (w.slots (w.ticket self % umpiOutstandingCollectiveOperations)).iovec = none) :
    allreduceRequest vm (w.claimed self) self (w.ticket self % umpiOutstandingCollectiveOperations) .inPlace recvbuf
      count iovec op = .undefined .nullHandle := by
  have later := mt (claimed_joinedFirst w self).mp (not_not.mpr joined)
  have still : ((w.claimed self).slots (w.ticket self % umpiOutstandingCollectiveOperations)).iovec = none := by
    simp only [World.claimed, World.setSlot_slots, Function.update_self]
    exact missing
  unfold allreduceRequest allreduceAccumulate
  simp only [if_true, if_neg later, still]
  split <;> rfl

/-- `MPI_Iallreduce` takes the mutex then, and does not return. -/
theorem mpiIallreduce_layoutMissing {sendbuf recvbuf : Pointer} {count : Int} {datatype : MpiDatatype}
    {op : Option UmpiOp} {comm : MpiComm}
    (accepted : ¬ (Call.allreduce sendbuf recvbuf count datatype op comm).RejectedBefore w self)
    (missing : (Call.allreduce sendbuf recvbuf count datatype op comm).LayoutMissing w self) :
    mpiIallreduce vm w self sendbuf recvbuf count datatype op comm =
      w.getCurrentSlot self >>= fun _ => .undefined .nullHandle := by
  obtain ⟨rfl, joined, missing⟩ := missing
  unfold Call.RejectedBefore at accepted
  simp only [not_or, not_exists, not_and, Bool.not_eq_true] at accepted
  obtain ⟨typed, operated, given, world, short⟩ := accepted
  cases datatype with
  | none => exact absurd rfl typed
  | some iovec =>
      cases op with
      | none => exact absurd rfl operated
      | some op =>
          unfold mpiIallreduce
          simp only [short iovec rfl, Bool.false_eq_true, if_false]
          rw [if_neg (by tauto)]
          cases entered : w.getCurrentSlot self with
          | ok claimed =>
              obtain ⟨turn, claimed⟩ := claimed
              obtain ⟨rfl, rfl, _, _⟩ := getCurrentSlot_eq_ok entered
              exact allreduceRequest_layoutMissing joined missing
          | blocked => rfl
          | exited => rfl
          | undefined fault => rfl

/-- The same for every call that needs a layout. -/
theorem Call.enter_layoutMissing {call : Call} (accepted : ¬ call.RejectedBefore w self)
    (missing : call.LayoutMissing w self) :
    call.enter vm w self = w.getCurrentSlot self >>= fun _ => .undefined .nullHandle := by
  cases call with
  | allreduce sendbuf recvbuf count datatype op comm => exact mpiIallreduce_layoutMissing accepted missing
  | blockingAllreduce sendbuf recvbuf count datatype op comm =>
      have several : w.size ≠ 1 := fun single => accepted (Or.inr (Or.inr (Or.inr (Or.inr (Or.inl single)))))
      have others : ¬ (Call.allreduce sendbuf recvbuf count datatype op comm).RejectedBefore w self := by
        intro rejected
        refine accepted ?_
        unfold Call.RejectedBefore at rejected ⊢
        tauto
      exact (mpiAllreduce_eq several datatype op).trans (mpiIallreduce_layoutMissing others missing)
  | _ => exact missing.elim

/-- A call that has been accepted and returns has found a layout if it needed one. -/
theorem Call.layout_found {call : Call} (accepted : ¬ call.RejectedBefore w self)
    (entered : call.enter vm w self = .ok (w', frame)) : ¬ call.LayoutMissing w self := by
  intro missing
  rw [Call.enter_layoutMissing accepted missing] at entered
  obtain ⟨_, _, impossible⟩ := Outcome.bind_eq_ok.mp entered
  cases impossible

end Exits

/-! ### Runs -/

section Runs

variable {vm : ProcessVm} {program : Program} {s s' : Sys} {self : Nat}

/-- A call gives a mutex to nobody but its caller. -/
theorem Call.Exits.holds {call : Call} {w w' : World} {frame : Frame}
    (exits : call.Exits vm w self w' frame) {rank : Nat} (holds : w'.HoldsSlot rank) :
    w.HoldsSlot rank ∨ rank = self := by
  obtain ⟨turn, mutex⟩ := holds
  cases exits with
  | outside rejected left =>
      rw [left.slots] at mutex
      exact Or.inl ⟨turn, mutex⟩
  | released accepted checked succeeded left =>
      by_cases here : turn = w.ticket self % umpiOutstandingCollectiveOperations
      · rw [here, left.mutex] at mutex
        cases mutex
      · rw [left.others turn here, claimed_slots_of_ne w self here] at mutex
        exact Or.inl ⟨turn, mutex⟩
  | kept accepted wrong left =>
      by_cases here : turn = w.ticket self % umpiOutstandingCollectiveOperations
      · rw [here, left.mutex] at mutex
        exact Or.inr (Option.some.inj mutex).symm
      · rw [left.others turn here, claimed_slots_of_ne w self here] at mutex
        exact Or.inl ⟨turn, mutex⟩

/-- Outside of its own calls a rank takes no mutex. -/
theorem step_holds {label : Label} (stepped : s.step vm program label = .ok s') {rank : Nat}
    (holds : s'.world.HoldsSlot rank) : s.world.HoldsSlot rank ∨ label = .call rank := by
  cases label with
  | call self =>
      obtain ⟨call, w, frame, _, _, _, entered, rfl⟩ := step_call stepped
      exact ((Call.enter_exits entered).holds holds).imp_right fun same => by rw [same]
  | act self =>
      obtain ⟨action, rest, done, _, performed, rfl⟩ := step_act stepped
      obtain ⟨turn, mutex⟩ := holds
      have control : (done.world.slots turn).control = (s.world.slots turn).control := by
        rcases Action.exec_cases performed with ⟨id, _, moved, _⟩ | ⟨_, midway⟩
        · rw [moved]
          rfl
        · exact midway.slots turn
      have same : (done.world.slots turn).mutex = (s.world.slots turn).mutex :=
        (congrArg Collect.mutex control :)
      exact Or.inl ⟨turn, same ▸ mutex⟩
  | wait self id =>
      obtain ⟨_, _, _, rfl⟩ := step_wait stepped
      exact Or.inl holds

/-- A step that, if it is a call, is one that releases its slot. -/
def CallReleases (vm : ProcessVm) (program : Program) (s : Sys) (label : Label) : Prop :=
  ∀ self call, label = .call self → program self (s.ranks self).pos = some call →
    call.Releases vm s.world self

/-- A call that releases its slot does not hold it. -/
theorem Call.Exits.free {call : Call} {w w' : World} {frame : Frame} (exits : call.Exits vm w self w' frame)
    (releases : call.Releases vm w self) (free : ¬ w.HoldsSlot self) : ¬ w'.HoldsSlot self := by
  rintro ⟨turn, mutex⟩
  cases exits with
  | outside rejected left =>
      rw [left.slots] at mutex
      exact free ⟨turn, mutex⟩
  | released accepted checked succeeded left =>
      by_cases here : turn = w.ticket self % umpiOutstandingCollectiveOperations
      · rw [here, left.mutex] at mutex
        cases mutex
      · rw [left.others turn here, claimed_slots_of_ne w self here] at mutex
        exact free ⟨turn, mutex⟩
  | kept accepted wrong left =>
      rcases releases with rejected | ⟨checked, succeeded, _⟩
      · exact accepted rejected
      · exact wrong.elim checked succeeded

/-- As long as all calls release their slots nobody holds one. -/
theorem nobody_holds {origin : Sys} (start : ∀ rank, ¬ origin.world.HoldsSlot rank)
    (run : ReachesBy vm program (CallReleases vm program) origin s) (rank : Nat) :
    ¬ s.world.HoldsSlot rank := by
  induction run with
  | refl => exact start rank
  | tail label before condition stepped ih =>
      intro holds
      rcases step_holds stepped holds with earlier | rfl
      · exact ih earlier
      · obtain ⟨call, w, frame, _, _, listed, entered, rfl⟩ := step_call stepped
        exact (Call.enter_exits entered).free (condition rank call rfl listed) ih holds

/-- What is expected of a call that takes the system from `s` to `s'`: until its next call the rank does
    not hold a slot's mutex; and if the call was rejected, the ticket of the rank and the `ticket_`,
    `joined_` and `box_` of every slot are as they were. -/
structure GivesBack (vm : ProcessVm) (program : Program) (caller : Nat) (s s' : Sys) : Prop where
  free : ∀ s'', ReachesBy vm program (fun _ label => label ≠ .call caller) s' s'' →
    ¬ s''.world.HoldsSlot caller
  ticket : (s'.ranks caller).rets = mpiFail :: (s.ranks caller).rets →
    s'.world.ticket caller = s.world.ticket caller
  slots : (s'.ranks caller).rets = mpiFail :: (s.ranks caller).rets → ∀ turn,
    (s'.world.slots turn).ticket = (s.world.slots turn).ticket ∧
    (s'.world.slots turn).joined = (s.world.slots turn).joined ∧
    (s'.world.slots turn).box = (s.world.slots turn).box

/-- An accepted call does not return `MPI_FAIL` from its critical section. -/
theorem accepted_not_fail {frame : Frame} {rank : RankState} (ret : frame.ret = mpiSuccess) :
    (rank.enter frame).rets ≠ mpiFail :: rank.rets := by
  unfold RankState.enter
  dsimp only
  split
  · rw [ret]
    intro same
    exact absurd (List.cons.inj same).1 (by decide)
  · exact fun same => absurd (congrArg List.length same) (by simp)

end Runs

/-- After calls that all released their slots, a call gives back everything exactly when it releases its
    own, whatever its arguments, the state of the slot and the outcome of the transfers. -/
theorem collective_call_releases_iff {vm : ProcessVm} {program : Program} {n : Nat} {mem : Memory}
    {s s' : Sys} {self : Nat} {call : Call}
    (run : ReachesBy vm program (CallReleases vm program) (Sys.init n mem) s)
    (listed : program self (s.ranks self).pos = some call)
    (stepped : s.step vm program (.call self) = .ok s') :
    GivesBack vm program self s s' ↔ call.Releases vm s.world self := by
  have start : ∀ rank, ¬ (Sys.init n mem).world.HoldsSlot rank := by
    rintro rank ⟨turn, mutex⟩
    cases mutex
  have before := nobody_holds start run self
  obtain ⟨call', w, frame, _, _, listed', entered, rfl⟩ := step_call stepped
  obtain rfl := Option.some.inj (listed'.symm.trans listed)
  have exits := Call.enter_exits entered
  constructor
  · intro gives
    have free := gives.free _ .refl
    cases exits with
    | outside rejected left => exact Or.inl rejected
    | released accepted checked succeeded left =>
        exact Or.inr ⟨checked, succeeded, Call.layout_found accepted entered⟩
    | kept accepted wrong left => exact absurd ⟨_, left.mutex⟩ free
  · intro releases
    have after := exits.free releases before
    have later : ∀ s'', ReachesBy vm program (fun _ label => label ≠ .call self)
        { world := w
          ranks := Function.update s.ranks self ((s.ranks self).enter frame)
          joins := s.record w self } s'' → ¬ s''.world.HoldsSlot self := by
      intro s'' further
      induction further with
      | refl => exact after
      | tail label _ other step ih =>
          intro holds
          exact (step_holds step holds).elim ih other
    cases exits with
    | outside rejected left =>
        refine { free := later, ticket := fun _ => ?_, slots := fun _ turn => ?_ }
        · exact congrFun left.ticket self
        · dsimp only
          rw [left.slots]
          exact ⟨rfl, rfl, rfl⟩
    | released accepted checked succeeded left =>
        have impossible : (Function.update s.ranks self ((s.ranks self).enter frame) self).rets ≠
            mpiFail :: (s.ranks self).rets := by
          rw [Function.update_self]
          exact accepted_not_fail left.ret
        exact
          { free := later
            ticket := fun failed => absurd failed impossible
            slots := fun failed => absurd failed impossible }
    | kept accepted wrong left =>
        rcases releases with rejected | ⟨checked, succeeded, _⟩
        · exact absurd rejected accepted
        · exact (wrong.elim checked succeeded).elim

/-- Every rank scans `count` characters with the operation that keeps the later one. -/
def charScan (count : Int) : Program := once fun _ =>
  .scan (.addr 0) (.addr 100) count (some Datatype.mpiChar.iovec) (some { func := fun _ late => late }) .world

/-- A scan of 64 characters gives its slot back. -/
theorem iscan_releases_slot :
    ∃ s', (Sys.init 2 fun _ => 0).step copyingVm (charScan 64) (.call 0) = .ok s' ∧
      GivesBack copyingVm (charScan 64) 0 (Sys.init 2 fun _ => 0) s' := by
  obtain ⟨s', stepped⟩ : ∃ s', (Sys.init 2 fun _ => 0).step copyingVm (charScan 64) (.call 0) = .ok s' :=
    ⟨_, rfl⟩
  have releases : (Call.scan (.addr 0) (.addr 100) 64 (some Datatype.mpiChar.iovec)
      (some { func := fun _ late => late }) .world).Releases copyingVm (Sys.init 2 fun _ => 0).world 0 := by
    refine Or.inr ⟨?_, id, id⟩
    rintro ⟨iovec, same, long⟩
    obtain rfl := Option.some.inj same
    exact absurd long (by decide)
  exact ⟨s', stepped, (collective_call_releases_iff .refl rfl stepped).mpr releases⟩

/-- A scan of 65 characters fails with the mutex held and the caller counted in; the other rank waits for
    the slot forever. -/
theorem iscan_keeps_slot :
    ∃ s, (Sys.init 2 fun _ => 0).step copyingVm (charScan 65) (.call 0) = .ok s ∧
      (s.ranks 0).rets = [mpiFail] ∧ (s.ranks 0).cont.isEmpty ∧ (s.world.slots 0).mutex = some 0 ∧
      (s.world.slots 0).joined = 1 ∧ s.world.ticket 0 = 1 ∧
      s.step copyingVm (charScan 65) (.call 1) = .blocked :=
  ⟨_, rfl, rfl, rfl, rfl, rfl, rfl, rfl⟩

end Umpi
