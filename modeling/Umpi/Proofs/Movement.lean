/-
Module: Umpi.Proofs.Movement
Layer: Proofs
Purpose: Where the bytes go. `umpi_copy`, `cookie::write_to_owner` and `cookie::read_from_owner` build the
  segment lists of their two sides with different loops; here the result is stated by the type maps alone,
  and `memcpy` is compared with the segments it replaces.
Imports: Umpi.Proofs.Transfers
Trusted boundary: none
Main exports: Streamed, segmentCopy, umpiCopy_moved, writeToOwner_moved, readFromOwner_moved,
  transfers_follow_type_maps
Open obligations: none
-/
import Umpi.Proofs.Transfers

namespace Umpi

open Foundation

/-- The bytes of one view have arrived in another, in stream order, and nothing else has changed. -/
structure Streamed (mem mem' : Memory) (source target : List Loc) : Prop where
  arrives : readAll mem' target = readAll mem source
  kept : readAll mem' source = readAll mem source
  others : ∀ location, location ∉ target → mem' location = mem location

/-- Copying between two views of the same length, of which the second has no repetitions. -/
theorem Streamed.copyAll (mem : Memory) {source target : List Loc} (nodup : target.Nodup)
    (sameLength : target.length = source.length) (disjoint : source.Disjoint target) :
    Streamed mem (copyAll mem source target) source target where
  arrives := readAll_copyAll_self mem nodup sameLength
  kept := readAll_copyAll_of_disjoint mem source disjoint
  others := fun _ outside => copyAll_apply_of_notMem mem source outside

/-- `umpi_copy` without its `memcpy`: the segments of both sides and one system call. -/
def segmentCopy (vm : ProcessVm) (mem : Memory) (readBuf : Loc) (readIovec : Iovec) (readCount readSkip : Int)
    (writeBuf : Loc) (writeIovec : Iovec) (writeCount writeSeek : Int) : Memory × Nat :=
  let totalBytes := sizeT (readCount * readIovec.len)
  let here := sideIov readBuf readIovec readSkip (readSkip + readCount) totalBytes
  let remote := sideIov writeBuf writeIovec writeSeek (writeSeek + writeCount) totalBytes
  let moved := vm here remote
  (moveBytes mem here remote moved, if ptrdiff totalBytes = moved then totalBytes else 0)

section Transfers

variable {vm : ProcessVm} {source target : Datatype} {base base' : Loc} {count skip seek room : Nat}

/-- The part of a view that a number of bytes fills. -/
theorem length_take_streamLocs {bytes : Nat} (first : Int) (fits : bytes ≤ room * target.iovec.len) :
    ((streamLocs base' target.iovec first room).take bytes).length = bytes := by
  rw [List.length_take, length_streamLocs base' target.wellFormed, min_eq_left fits]

/-- `umpi_copy`. -/
theorem umpiCopy_moved (copies : CopiesAll vm) (writable : target.Writable) (mem : Memory)
    (roomBytes : room * target.len < 2 ^ 64) (bytesBound : count * source.len < 2 ^ 63)
    (fits : count * source.len ≤ room * target.len)
    (apart : (streamLocs base source.iovec skip count).Disjoint (streamLocs base' target.iovec seek room)) :
    (umpiCopy vm mem base source.iovec count skip base' target.iovec room seek).2 = count * source.len ∧
      Streamed mem (umpiCopy vm mem base source.iovec count skip base' target.iovec room seek).1
        (streamLocs base source.iovec skip count)
        ((streamLocs base' target.iovec seek room).take (count * source.len)) := by
  have copied : umpiCopy vm mem base source.iovec count skip base' target.iovec room seek = _ :=
    umpiCopy_eq copies source.wellFormed target.wellFormed mem skip seek roomBytes bytesBound fits
  rw [copied]
  refine ⟨rfl, Streamed.copyAll mem ?_ ?_ ?_⟩
  · exact (nodup_streamLocs target.wellFormed writable _ _).sublist (List.take_sublist _ _)
  · rw [length_streamLocs base source.wellFormed]
    exact length_take_streamLocs _ fits
  · exact fun location member other => apart member (List.mem_of_mem_take other)

/-- The `memcpy` of `umpi_copy` does what the segments would do. -/
theorem umpiCopy_eq_segmentCopy (copies : CopiesAll vm) (mem : Memory)
    (roomBytes : room * target.len < 2 ^ 64) (bytesBound : count * source.len < 2 ^ 63)
    (fits : count * source.len ≤ room * target.len) :
    umpiCopy vm mem base source.iovec count skip base' target.iovec room seek =
      segmentCopy vm mem base source.iovec count skip base' target.iovec room seek := by
  have copied : umpiCopy vm mem base source.iovec count skip base' target.iovec room seek = _ :=
    umpiCopy_eq copies source.wellFormed target.wellFormed mem skip seek roomBytes bytesBound fits
  have total : sizeT ((count : Int) * (source.iovec.len : Int)) = count * source.iovec.len :=
    sizeT_mul (Nat.lt_trans bytesBound (by norm_num))
  have elements : ((seek : Int) + room - seek).toNat = room := by omega
  have behind : count * source.iovec.len ≤ ((seek : Int) + room - seek).toNat * target.iovec.len := by
    rw [elements]
    exact fits
  have small : count * source.iovec.len < 2 ^ 63 := bytesBound
  rw [copied]
  unfold segmentCopy
  simp only [total]
  rw [copies.result source.wellFormed target.wellFormed _ _ _ _ behind, ptrdiff_natCast small, if_pos rfl,
    moveBytes_sideIov source.wellFormed target.wellFormed _ _ _ _ _ behind, elements]

variable {w : World} {id : Nat}

/-- `cookie::write_to_owner`. -/
theorem writeToOwner_moved (copies : CopiesAll vm) (writable : target.Writable)
    (buf : (w.cookies id).buf = base') (iovec : (w.cookies id).iovec = target.iovec)
    (size : (w.cookies id).size = room) (roomBytes : room * target.len < 2 ^ 64)
    (bytesBound : count * source.len < 2 ^ 63)
    (fits : seek * target.len + count * source.len ≤ room * target.len)
    (apart : (streamLocs base source.iovec skip count).Disjoint
      (streamLocs base' target.iovec seek (room - seek))) :
    ∃ done, w.writeToOwner vm id base source.iovec count seek skip = .ok done ∧ done.ret = mpiSuccess ∧
      Streamed w.mem done.world.mem (streamLocs base source.iovec skip count)
        ((streamLocs base' target.iovec seek (room - seek)).take (count * source.len)) := by
  have behind : count * source.len ≤ (room - seek) * target.len := by
    rw [Nat.sub_mul]
    omega
  refine ⟨_, writeToOwner_moves base copies source.wellFormed target.wellFormed target.lenPos rfl skip buf iovec
    size roomBytes bytesBound fits, rfl, ?_⟩
  refine Streamed.copyAll w.mem ?_ ?_ ?_
  · exact (nodup_streamLocs target.wellFormed writable _ _).sublist (List.take_sublist _ _)
  · rw [length_streamLocs base source.wellFormed]
    exact length_take_streamLocs _ behind
  · exact fun location member other => apart member (List.mem_of_mem_take other)

/-- `cookie::read_from_owner` of `count` elements. -/
theorem readFromOwner_moved (copies : CopiesAll vm) (writable : target.Writable) {owned : Nat}
    (positive : 0 < count) (buf : (w.cookies id).buf = base) (iovec : (w.cookies id).iovec = source.iovec)
    (size : (w.cookies id).size = owned) (roomInt : room < 2 ^ 31) (ownedBytes : owned * source.len < 2 ^ 64)
    (roomBytes : room * target.len < 2 ^ 64) (bytesBound : count * target.len < 2 ^ 63)
    (has : skip * source.len + count * target.len ≤ owned * source.len)
    (fits : seek * target.len + count * target.len ≤ room * target.len)
    (apart : (streamLocs base source.iovec skip (owned - skip)).Disjoint
      (streamLocs base' target.iovec seek count)) :
    ∃ done, w.readFromOwner vm id base' target.iovec room count seek skip = .ok done ∧ done.ret = mpiSuccess ∧
      Streamed w.mem done.world.mem
        ((streamLocs base source.iovec skip (owned - skip)).take (count * target.len))
        (streamLocs base' target.iovec seek count) := by
  have asked : requested count owned skip source.iovec.len target.iovec.len = count :=
    if_pos (Nat.ne_of_gt positive)
  have behind : count * target.len ≤ (owned - skip) * source.len := by
    rw [Nat.sub_mul]
    omega
  have read := readFromOwner_eq base' copies target.wellFormed source.wellFormed target.lenPos source.lenPos
    (rfl : (count : Int) = count) (rfl : (seek : Int) = seek) (rfl : (skip : Int) = skip) buf iovec size roomInt
    ownedBytes roomBytes (by rw [asked]; exact bytesBound) (by rw [asked]; exact has) (by rw [asked]; exact fits)
  rw [asked] at read
  refine ⟨_, read, rfl, Streamed.copyAll w.mem (nodup_streamLocs target.wellFormed writable _ _) ?_ ?_⟩
  · rw [length_streamLocs base' target.wellFormed]
    exact (length_take_streamLocs _ behind).symm
  · exact fun location member other => apart (List.mem_of_mem_take member) other

end Transfers

/-- The three functions that move data between two datatypes move it from the type map of one to the type map of
    the other, in stream order, and `memcpy` is no different. -/
theorem transfers_follow_type_maps {vm : ProcessVm} (copies : CopiesAll vm) (source target : Datatype)
    (writable : target.Writable) (base base' : Loc) {count : Nat} (positive : 0 < count) (skip seek room : Nat)
    (roomBytes : room * target.len < 2 ^ 64) :
    (∀ mem, count * source.len < 2 ^ 63 → count * source.len ≤ room * target.len →
      (streamLocs base source.iovec skip count).Disjoint (streamLocs base' target.iovec seek room) →
      (umpiCopy vm mem base source.iovec count skip base' target.iovec room seek).2 = count * source.len ∧
        Streamed mem (umpiCopy vm mem base source.iovec count skip base' target.iovec room seek).1
          (streamLocs base source.iovec skip count)
          ((streamLocs base' target.iovec seek room).take (count * source.len)) ∧
        umpiCopy vm mem base source.iovec count skip base' target.iovec room seek =
          segmentCopy vm mem base source.iovec count skip base' target.iovec room seek) ∧
    (∀ (w : World) (id : Nat), (w.cookies id).buf = base' → (w.cookies id).iovec = target.iovec →
      (w.cookies id).size = room → count * source.len < 2 ^ 63 →
      seek * target.len + count * source.len ≤ room * target.len →
      (streamLocs base source.iovec skip count).Disjoint (streamLocs base' target.iovec seek (room - seek)) →
      ∃ done, w.writeToOwner vm id base source.iovec count seek skip = .ok done ∧ done.ret = mpiSuccess ∧
        Streamed w.mem done.world.mem (streamLocs base source.iovec skip count)
          ((streamLocs base' target.iovec seek (room - seek)).take (count * source.len))) ∧
    ∀ (w : World) (id owned : Nat), (w.cookies id).buf = base → (w.cookies id).iovec = source.iovec →
      (w.cookies id).size = owned → room < 2 ^ 31 → owned * source.len < 2 ^ 64 → count * target.len < 2 ^ 63 →
      skip * source.len + count * target.len ≤ owned * source.len →
      seek * target.len + count * target.len ≤ room * target.len →
      (streamLocs base source.iovec skip (owned - skip)).Disjoint (streamLocs base' target.iovec seek count) →
      ∃ done, w.readFromOwner vm id base' target.iovec room count seek skip = .ok done ∧ done.ret = mpiSuccess ∧
        Streamed w.mem done.world.mem
          ((streamLocs base source.iovec skip (owned - skip)).take (count * target.len))
          (streamLocs base' target.iovec seek count) := by
  refine ⟨fun mem bytesBound fits apart => ?_, ?_, ?_⟩
  · obtain ⟨moved, streamed⟩ := umpiCopy_moved copies writable mem roomBytes bytesBound fits apart
    exact ⟨moved, streamed, umpiCopy_eq_segmentCopy copies mem roomBytes bytesBound fits⟩
  · intro w id buf iovec size bytesBound fits apart
    exact writeToOwner_moved copies writable buf iovec size roomBytes bytesBound fits apart
  · intro w id owned buf iovec size roomInt ownedBytes bytesBound has fits apart
    exact readFromOwner_moved copies writable positive buf iovec size roomInt ownedBytes roomBytes bytesBound has
      fits apart

/-- Two shorts, with two bytes behind each of them. -/
private def spacedIovec : Iovec := Iovec.ofSegments 8 [{ dis := 0, len := 2 }, { dis := 4, len := 2 }]

private theorem spacedIovec_wellFormed : spacedIovec.WellFormed :=
  .scattered 8 [{ dis := 0, len := 2 }, { dis := 4, len := 2 }] (by decide) (by decide)

private theorem spacedIovec_lenPos : 0 < spacedIovec.len := by decide

private def spacedShorts : Datatype :=
  { iovec := spacedIovec, wellFormed := spacedIovec_wellFormed, lenPos := spacedIovec_lenPos }

/-- The memory of rank 0 is countedBytes, and that of the others is zero. -/
private def countedBytes : Memory := fun location => if location.region = .heap 0 then UInt8.ofInt location.addr else 0

/-- Rank 1 offers a buffer of two such elements. -/
private def offersShorts : World :=
  (World.start 2 countedBytes).setCookie 0 (Cookie.make 1 { region := .heap 1, addr := 0 } spacedShorts.iovec 2 2 1 5 1)

/-- Rank 0 writes two `MPI_INT` into four spaced shorts of rank 1: the eight bytes arrive in order, and nothing in
    between. -/
theorem transfers_follow_type_maps_ints :
    ∃ done, offersShorts.writeToOwner copyingVm 0 { region := .heap 0, addr := 1 } Datatype.mpiInt.iovec 2 0 0 =
        .ok done ∧ done.ret = mpiSuccess ∧
      readAll done.world.mem ([0, 1, 4, 5, 8, 9, 12, 13].map fun addr => { region := .heap 1, addr := addr }) =
        [1, 2, 3, 4, 5, 6, 7, 8] ∧
      done.world.mem { region := .heap 1, addr := 2 } = 0 := by
  have writable : spacedIovec.NonOverlapping := by decide
  have apart : (streamLocs { region := .heap 0, addr := 1 } Datatype.mpiInt.iovec (0 : Nat) 2).Disjoint
      (streamLocs { region := .heap 1, addr := 0 } spacedShorts.iovec (0 : Nat) (2 - 0)) :=
    disjoint_of_region Datatype.mpiInt.wellFormed spacedShorts.wellFormed (by decide) _ _ _ _
  obtain ⟨done, written, success, streamed⟩ :=
    (transfers_follow_type_maps copyingVm_copies Datatype.mpiInt spacedShorts writable
      { region := .heap 0, addr := 1 } { region := .heap 1, addr := 0 } (by decide : 0 < 2) 0 0 2 (by decide)).2.1
      offersShorts 0 rfl rfl rfl (by decide) (by decide) apart
  refine ⟨done, written, success, ?_, ?_⟩
  · exact streamed.arrives.trans (by decide +kernel)
  · exact (streamed.others _ (by decide)).trans (by decide)

end Umpi
