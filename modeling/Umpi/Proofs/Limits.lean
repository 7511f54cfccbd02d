/-
Module: Umpi.Proofs.Limits
Layer: Proofs
Purpose: Two ways in which a transfer that is in order can still go wrong. The element length by which
  `write_to_owner`, `read_from_owner` and `MPI_Get_count` divide may be 0, for types of no bytes can be made.
  And Linux refuses lists of more than `IOV_MAX` segments, of which a scattered type has some for every element,
  on the owner's side up to the end of the posted buffer.
Imports: Umpi.Proofs.Movement, Umpi.Proofs.Datatypes, Umpi.Model.Waiting
Trusted boundary: none
Main exports: divisions_safe_iff, division_by_zero, linuxVm, Iovec.segmentsOf, MovesAll, transfers_within_iovMax_iff,
  transfer_beyond_iovMax
Open obligations: none
-/
import Umpi.Proofs.Movement
import Umpi.Proofs.Datatypes
import Umpi.Model.Waiting

namespace Umpi

open Foundation

/-! ### Divisions -/

section Divisions

variable {vm : ProcessVm} {w : World} {id : Nat} {buf : Loc} {iovec : Iovec} {count seek skip : Int}

/-- When the owner's elements have no bytes, only a transfer of no bytes passes the size check. -/
theorem writeToOwner_divides_by_zero_iff :
    w.writeToOwner vm id buf iovec count seek skip = .undefined .zeroDivision ↔
      (w.cookies id).iovec.len = 0 ∧ sizeT (count * iovec.len) = 0 := by
  constructor
  · intro divides
    simp only [World.writeToOwner] at divides
    split at divides
    · cases divides
    · next passes =>
      split at divides
      · next zero =>
        refine ⟨zero.2, ?_⟩
        rw [zero.2] at passes
        have total := sizeT_natCast (sizeT_lt (count * iovec.len))
        simp only [Nat.cast_zero, Int.mul_zero, sizeT_zero, Int.zero_add, total] at passes
        omega
      · cases divides
  · rintro ⟨zero, nothing⟩
    unfold World.writeToOwner
    simp [zero, nothing]

theorem readFromOwner_divides_by_zero_iff {size : Int} :
    w.readFromOwner vm id buf iovec size count seek skip = .undefined .zeroDivision ↔ count = 0 ∧ iovec.len = 0 := by
  constructor
  · intro divides
    by_contra divisor
    obtain ⟨done, returns⟩ := readFromOwner_returns vm w id buf divisor size seek skip
    rw [returns] at divides
    cases divides
  · intro zero
    exact if_pos zero

end Divisions

/-- No transfer divides by 0 exactly when the owner's elements have bytes or bytes are sent, or the reader's
    elements have bytes or it asks for a number of them; and `MPI_Get_count` does not exactly when the elements
    have bytes. A receive that finds its message asks for no number. -/
theorem divisions_safe_iff (vm : ProcessVm) :
    (∀ (w : World) (id : Nat) (buf : Loc) (iovec : Iovec) (count seek skip : Int),
      w.writeToOwner vm id buf iovec count seek skip ≠ .undefined .zeroDivision ↔
        (w.cookies id).iovec.len ≠ 0 ∨ sizeT (count * iovec.len) ≠ 0) ∧
    (∀ (w : World) (id : Nat) (buf : Loc) (iovec : Iovec) (size count seek skip : Int),
      w.readFromOwner vm id buf iovec size count seek skip ≠ .undefined .zeroDivision ↔ count ≠ 0 ∨ iovec.len ≠ 0) ∧
    (∀ (w w' : World) (self : Nat) (buf : Loc) (count source tag : Int) (iovec : Iovec),
      ∀ action ∈ (recvRequest w self buf count iovec source tag).2.cont,
        action.exec vm w' self ≠ .undefined .zeroDivision ↔ iovec.len ≠ 0) ∧
    ∀ (status : MpiStatus) (iovec : Iovec) (old : Int),
      mpiGetCount true (some status) (some iovec) (some old) ≠ .undefined .zeroDivision ↔ iovec.len ≠ 0 := by
  refine ⟨?_, ?_, ?_, ?_⟩
  · intro w id buf iovec count seek skip
    rw [Ne, writeToOwner_divides_by_zero_iff, not_and_or]
  · intro w id buf iovec size count seek skip
    rw [Ne, readFromOwner_divides_by_zero_iff, not_and_or]
  · intro w w' self buf count source tag iovec action listed
    unfold recvRequest at listed
    cases found : (w.procs self).inbox.find? fun id => (w.cookies id).recvMatch source tag with
    | none =>
        simp only [found] at listed
        cases listed
    | some id =>
        simp only [found] at listed
        have only : action ∈ [Action.readFromOwner id buf iovec count 0 (.elems 0) (.elems 0)] := listed
        obtain rfl := List.mem_singleton.mp only
        have asks : (Action.readFromOwner id buf iovec count 0 (.elems 0) (.elems 0)).exec vm w' self =
            w'.readFromOwner vm id buf iovec count 0 0 0 := rfl
        rw [asks, Ne, readFromOwner_divides_by_zero_iff]
        simp
  · intro status iovec old
    unfold mpiGetCount
    by_cases zero : iovec.len = 0
    · simp [zero]
    · simp [zero]

/-- `MPI_Type_contiguous` makes a type of no elements, and a receive of such a type divides by its length when
    the message is there already. -/
theorem division_by_zero :
    ∃ iovec, mpiTypeContiguous true true 0 (some Datatype.mpiChar.iovec) = .success iovec ∧
      ∃ sent received frame action,
        mpiIssend (World.start 2 fun _ => 0) 1 (.addr 0) 1 (some Datatype.mpiChar.iovec) 0 5 .world = sent ∧
        mpiIrecv sent.1 0 (.addr 0) 1 (some iovec) 1 5 .world = (received, frame) ∧ frame.cont = [action] ∧
        action.exec copyingVm received 0 = .undefined .zeroDivision :=
  ⟨_, rfl, _, _, _, _, rfl, rfl, rfl, rfl⟩

/-! ### The limit on the number of segments -/

/-- `IOV_MAX` on Linux. -/
def iovMax : Nat := 1024

/-- `process_vm_readv` and `process_vm_writev` as on Linux: an error for too many segments on either side,
    otherwise as many bytes as the shorter side has. -/
def linuxVm : ProcessVm := fun here remote =>
  if iovMax < here.length ∨ iovMax < remote.length then -1 else copyingVm here remote

/-- The number of segments a side of that many elements is cut into. -/
def Iovec.segmentsOf (iovec : Iovec) (elements : Nat) : Nat :=
  if iovec.scattered then elements * iovec.segments.length else 1

theorem length_sideIov (base : Loc) (iovec : Iovec) (lo hi : Int) (total : Nat) :
    (sideIov base iovec lo hi total).length = iovec.segmentsOf (hi - lo).toNat := by
  unfold sideIov Iovec.segmentsOf
  split
  · simp [List.length_flatMap]
  · rfl

/-- Both sides of a transfer stay below the limit. -/
def WithinIovMax (here : Iovec) (elements : Nat) (remote : Iovec) (elements' : Nat) : Prop :=
  here.segmentsOf elements ≤ iovMax ∧ remote.segmentsOf elements' ≤ iovMax

section Linux

variable {base base' : Loc} {here remote : Iovec} {lo hi lo' hi' : Int} {total : Nat}

theorem linuxVm_within (within : WithinIovMax here (hi - lo).toNat remote (hi' - lo').toNat) :
    linuxVm (sideIov base here lo hi total) (sideIov base' remote lo' hi' total) =
      copyingVm (sideIov base here lo hi total) (sideIov base' remote lo' hi' total) := by
  refine if_neg ?_
  rw [length_sideIov, length_sideIov, not_or, Nat.not_lt, Nat.not_lt]
  exact within

theorem linuxVm_beyond (beyond : ¬ WithinIovMax here (hi - lo).toNat remote (hi' - lo').toNat) :
    linuxVm (sideIov base here lo hi total) (sideIov base' remote lo' hi' total) = -1 := by
  refine if_pos ?_
  rw [length_sideIov, length_sideIov]
  by_contra few
  rw [not_or, Nat.not_lt, Nat.not_lt] at few
  exact beyond few

end Linux

/-- The first `bytes` bytes of one view have been moved to the front of another, and the transfer says so. -/
def MovesAll (mem : Memory) (source target : List Loc) (bytes : Nat) (outcome : Outcome Transferred) : Prop :=
  ∃ done, outcome = .ok done ∧ done.ret = mpiSuccess ∧ done.moved = bytes ∧
    done.world.mem = copyAll mem (source.take bytes) (target.take bytes)

section Passed

variable {vm : ProcessVm} {w : World} {id : Nat} {buf : Loc} {iovec : Iovec} {count seek skip size : Int}

theorem ret_eq_mpiSuccess_iff {total moved : Int} [Decidable (total ≠ moved)] :
    (if total ≠ moved then mpiFail else mpiSuccess) = mpiSuccess ↔ total = moved := by
  by_cases whole : total = moved
  · simp [whole]
  · simp [whole, mpiFail_ne_mpiSuccess]

variable (vm buf skip) in
/-- A write that passes its check asks the system call once, and compares what that returns. -/
theorem writeToOwner_passed {total : Nat} (totalEq : sizeT (count * iovec.len) = total)
    (passes : ¬ sizeT ((w.cookies id).size * (w.cookies id).iovec.len) <
      sizeT (seek * (w.cookies id).iovec.len + total)) (divisor : (w.cookies id).iovec.len ≠ 0) :
    ∃ done, w.writeToOwner vm id buf iovec count seek skip = .ok done ∧
      done.moved = vm (sideIov buf iovec skip (skip + count) total)
        (sideIov (w.cookies id).buf (w.cookies id).iovec seek (w.cookies id).size total) ∧
      done.world.mem = moveBytes w.mem (sideIov buf iovec skip (skip + count) total)
        (sideIov (w.cookies id).buf (w.cookies id).iovec seek (w.cookies id).size total) done.moved ∧
      (done.ret = mpiSuccess ↔ ptrdiff total = done.moved) := by
  subst totalEq
  have nonzero : ¬ (¬ sizeT ((w.cookies id).count * ((w.cookies id).iovec.len : Int)) < sizeT (count * iovec.len) ∧
      (w.cookies id).iovec.len = 0) := fun zero => divisor zero.2
  unfold World.writeToOwner
  simp only
  rw [if_neg passes, if_neg nonzero]
  refine ⟨_, rfl, rfl, rfl, ?_⟩
  simp only [World.finishTransfer]
  exact ret_eq_mpiSuccess_iff

/-- The number of elements `read_from_owner` works with. -/
def Cookie.askedFor (cookie : Cookie) (iovec : Iovec) (count skip : Int) : Int :=
  if count ≠ 0 then count else int32 (sizeT ((cookie.size - skip) * cookie.iovec.len) / iovec.len : Nat)

variable (vm buf) in
/-- A read that passes its checks asks the system call once, and compares what that returns. -/
theorem readFromOwner_passed {asked : Int} {total : Nat} (askedEq : (w.cookies id).askedFor iovec count skip = asked)
    (totalEq : sizeT (asked * iovec.len) = total)
    (has : ¬ sizeT ((w.cookies id).size * (w.cookies id).iovec.len) < sizeT (skip * (w.cookies id).iovec.len + total))
    (fits : ¬ sizeT (size * iovec.len) < sizeT (seek * iovec.len + total)) (divisor : ¬ (count = 0 ∧ iovec.len = 0)) :
    ∃ done, w.readFromOwner vm id buf iovec size count seek skip = .ok done ∧
      done.moved = vm (sideIov buf iovec seek (seek + asked) total)
        (sideIov (w.cookies id).buf (w.cookies id).iovec skip (w.cookies id).size total) ∧
      done.world.mem = moveBytes w.mem (sideIov (w.cookies id).buf (w.cookies id).iovec skip (w.cookies id).size total)
        (sideIov buf iovec seek (seek + asked) total) done.moved ∧
      (done.ret = mpiSuccess ↔ ptrdiff total = done.moved) := by
  subst totalEq askedEq
  unfold Cookie.askedFor at has fits ⊢
  unfold World.readFromOwner
  simp only
  rw [if_neg divisor, if_neg (not_or.mpr ⟨has, fits⟩)]
  refine ⟨_, rfl, rfl, rfl, ?_⟩
  simp only [World.finishTransfer]
  exact ret_eq_mpiSuccess_iff

end Passed

section Exactly

variable {vm : ProcessVm} {source target : Iovec} {base base' : Loc} {count skip seek room : Nat}

/-- On Linux a system call between two sides returns what it would without the limit exactly when both are below
    it. -/
theorem linuxVm_moves_iff {total : Nat} {lo hi lo' hi' : Int}
    (all : copyingVm (sideIov base source lo hi total) (sideIov base' target lo' hi' total) = total) :
    linuxVm (sideIov base source lo hi total) (sideIov base' target lo' hi' total) = total ↔
      WithinIovMax source (hi - lo).toNat target (hi' - lo').toNat := by
  by_cases within : WithinIovMax source (hi - lo).toNat target (hi' - lo').toNat
  · rw [linuxVm_within within]
    exact iff_of_true all within
  · rw [linuxVm_beyond within]
    refine iff_of_false ?_ within
    omega

/-- `umpi_copy` of bytes that fit, when it does not end in `memcpy`, asks the system call once. -/
theorem umpiCopy_passed (mem : Memory) {total : Nat} (skip seek : Int)
    (totalEq : sizeT ((count : Int) * source.len) = total)
    (fits : ¬ total > sizeT ((room : Int) * target.len)) (mixed : ¬ (source.contiguous && target.contiguous)) :
    umpiCopy vm mem base source count skip base' target room seek =
      (moveBytes mem (sideIov base source skip (skip + count) total) (sideIov base' target seek (seek + room) total)
          (vm (sideIov base source skip (skip + count) total) (sideIov base' target seek (seek + room) total)),
        if ptrdiff total = vm (sideIov base source skip (skip + count) total)
          (sideIov base' target seek (seek + room) total)
        then total else 0) := by
  subst totalEq
  unfold umpiCopy
  simp only
  rw [if_neg fits, if_neg mixed]

/-- `memcpy` asks nobody. -/
theorem umpiCopy_memcpy (vm vm' : ProcessVm) (mem : Memory) (skip seek : Int)
    (basic : source.contiguous && target.contiguous) :
    umpiCopy vm mem base source count skip base' target room seek =
      umpiCopy vm' mem base source count skip base' target room seek := by
  unfold umpiCopy
  simp only [if_pos basic]

/-- `umpi_copy`. -/
theorem umpiCopy_within_iovMax_iff (wellFormed : source.WellFormed) (wellFormed' : target.WellFormed) (mem : Memory)
    (roomBytes : room * target.len < 2 ^ 64) (bytesBound : count * source.len < 2 ^ 63)
    (fits : count * source.len ≤ room * target.len) (skip seek : Int) :
    umpiCopy linuxVm mem base source count skip base' target room seek =
        (copyAll mem (streamLocs base source skip count)
          ((streamLocs base' target seek room).take (count * source.len)), count * source.len) ↔
      (source.contiguous ∧ target.contiguous) ∨ count * source.len = 0 ∨ WithinIovMax source count target room := by
  have total : sizeT ((count : Int) * (source.len : Int)) = count * source.len := sizeT_mul (by omega)
  have space : ¬ count * source.len > sizeT ((room : Int) * (target.len : Int)) := by
    rw [sizeT_mul roomBytes]
    omega
  have elements : (seek + room - seek).toNat = room := by omega
  have behind : count * source.len ≤ (seek + room - seek).toNat * target.len := by rwa [elements]
  have all : copyingVm (sideIov base source skip (skip + count) (count * source.len))
      (sideIov base' target seek (seek + room) (count * source.len)) = (count * source.len : Nat) :=
    copyingVm_copies.result wellFormed wellFormed' skip count seek _ behind
  have whole := linuxVm_moves_iff all
  rw [elements, add_sub_cancel_left, Int.toNat_natCast] at whole
  have copied : umpiCopy copyingVm mem base source count skip base' target room seek =
      (copyAll mem (streamLocs base source skip count)
        ((streamLocs base' target seek room).take (count * source.len)), count * source.len) :=
    umpiCopy_eq copyingVm_copies wellFormed wellFormed' mem skip seek roomBytes bytesBound fits
  rw [← copied]
  by_cases basic : source.contiguous && target.contiguous
  · exact iff_of_true (umpiCopy_memcpy _ _ mem skip seek basic) (Or.inl (Bool.and_eq_true_iff.mp basic))
  · rw [umpiCopy_passed mem skip seek total space basic, umpiCopy_passed mem skip seek total space basic, all,
      ptrdiff_natCast bytesBound, if_pos rfl]
    by_cases within : WithinIovMax source count target room
    · rw [whole.mpr within, if_pos rfl]
      exact iff_of_true rfl (Or.inr (Or.inr within))
    · -- the call fails, which only a copy of no bytes does not notice
      have beyond : linuxVm (sideIov base source skip (skip + count) (count * source.len))
          (sideIov base' target seek (seek + room) (count * source.len)) = -1 :=
        linuxVm_beyond (by rwa [elements, add_sub_cancel_left, Int.toNat_natCast])
      rw [beyond, if_neg (by omega)]
      constructor
      · intro same
        exact Or.inr (Or.inl (congrArg Prod.snd same).symm)
      · rintro (both | nothing | enough)
        · exact absurd (Bool.and_eq_true_iff.mpr both) basic
        · rw [nothing]
          rfl
        · exact absurd enough within

variable {w : World} {id : Nat}

/-- `cookie::write_to_owner` of bytes that fit moves them all exactly when the system call says so. -/
theorem writeToOwner_movesAll_iff (wellFormed : source.WellFormed) (wellFormed' : target.WellFormed)
    (buf : (w.cookies id).buf = base') (iovec : (w.cookies id).iovec = target) (size : (w.cookies id).size = room)
    (roomBytes : room * target.len < 2 ^ 64) (bytesBound : count * source.len < 2 ^ 63)
    (fits : seek * target.len + count * source.len ≤ room * target.len) (lenPos : 0 < target.len) (skip : Int) :
    MovesAll w.mem (streamLocs base source skip count) (streamLocs base' target seek (room - seek)) (count * source.len)
        (w.writeToOwner vm id base source count seek skip) ↔
      vm (sideIov base source skip (skip + count) (count * source.len))
        (sideIov base' target seek room (count * source.len)) = (count * source.len : Nat) := by
  subst buf iovec
  have total : sizeT ((count : Int) * (source.len : Int)) = count * source.len := sizeT_mul (by omega)
  have passes : ¬ sizeT ((w.cookies id).size * ((w.cookies id).iovec.len : Int)) <
      sizeT ((seek : Int) * ((w.cookies id).iovec.len : Int) + (count * source.len : Nat)) := by
    rw [size, sizeT_mul roomBytes, sizeT_mul_add (by omega)]
    omega
  obtain ⟨done, wrote, moved, mem, ret⟩ := writeToOwner_passed vm base skip total passes (Nat.ne_of_gt lenPos)
  rw [size] at moved mem
  have elements : ((room : Int) - (seek : Int)).toNat = room - seek := by omega
  have behind : count * source.len ≤ ((room : Int) - (seek : Int)).toNat * (w.cookies id).iovec.len := by
    rw [elements, Nat.sub_mul]
    omega
  rw [wrote, ← moved]
  constructor
  · rintro ⟨other, same, _, all, _⟩
    obtain rfl := Outcome.ok.inj same
    exact all
  · intro all
    refine ⟨done, rfl, ret.mpr ?_, all, ?_⟩
    · rw [all, ptrdiff_natCast bytesBound]
    · rw [mem, all, moveBytes_sideIov wellFormed wellFormed' _ _ _ _ _ behind, elements,
        take_streamLocs wellFormed _ le_rfl]

/-- `cookie::write_to_owner`. -/
theorem writeToOwner_within_iovMax_iff (wellFormed : source.WellFormed) (wellFormed' : target.WellFormed)
    (buf : (w.cookies id).buf = base') (iovec : (w.cookies id).iovec = target) (size : (w.cookies id).size = room)
    (roomBytes : room * target.len < 2 ^ 64) (bytesBound : count * source.len < 2 ^ 63)
    (fits : seek * target.len + count * source.len ≤ room * target.len) (skip : Int) :
    MovesAll w.mem (streamLocs base source skip count) (streamLocs base' target seek (room - seek)) (count * source.len)
        (w.writeToOwner linuxVm id base source count seek skip) ↔
      target.len ≠ 0 ∧ WithinIovMax source count target (room - seek) := by
  by_cases zero : target.len = 0
  · -- nothing is sent, and the owner's `count_` is to become 0 / 0
    have nothing : count * source.len = 0 := by
      rw [zero] at fits
      omega
    have divides : w.writeToOwner linuxVm id base source count seek skip = .undefined .zeroDivision := by
      rw [writeToOwner_divides_by_zero_iff, iovec]
      refine ⟨zero, ?_⟩
      rw [sizeT_mul (by omega), nothing]
    rw [divides]
    refine iff_of_false ?_ fun within => within.1 zero
    rintro ⟨done, returned, _⟩
    cases returned
  · have lenPos : 0 < target.len := Nat.pos_of_ne_zero zero
    have elements : ((room : Int) - (seek : Int)).toNat = room - seek := by omega
    have behind : count * source.len ≤ ((room : Int) - (seek : Int)).toNat * target.len := by
      rw [elements, Nat.sub_mul]
      omega
    rw [writeToOwner_movesAll_iff wellFormed wellFormed' buf iovec size roomBytes bytesBound fits lenPos skip,
      linuxVm_moves_iff (copyingVm_copies.result wellFormed wellFormed' _ _ _ _ behind), elements, add_sub_cancel_left,
      Int.toNat_natCast]
    exact (and_iff_right zero).symm

/-- The number of elements a read asks for, when nothing wraps. -/
theorem askedFor_eq {owned : Nat} (iovec : (w.cookies id).iovec = source) (size : (w.cookies id).size = owned)
    (roomInt : room < 2 ^ 31) (ownedBytes : owned * source.len < 2 ^ 64)
    (has : skip * source.len + requested count owned skip source.len target.len * target.len ≤ owned * source.len)
    (fits : seek * target.len + requested count owned skip source.len target.len * target.len ≤ room * target.len) :
    (w.cookies id).askedFor target count skip = requested count owned skip source.len target.len := by
  have remaining : ((owned : Int) - skip) * source.len = (owned - skip : Nat) * source.len := by
    by_cases none : source.len = 0
    · simp [none]
    · have skipLe : skip ≤ owned := Nat.le_of_mul_le_mul_right (by omega) (Nat.pos_of_ne_zero none)
      rw [Int.ofNat_sub skipLe]
  have less : (owned - skip) * source.len ≤ owned * source.len := Nat.mul_le_mul_right _ (Nat.sub_le _ _)
  unfold Cookie.askedFor requested at *
  rw [iovec, size, remaining, sizeT_mul (by omega)]
  by_cases zero : count = 0
  · rw [if_neg (by simpa using zero), if_neg (by simpa using zero)]
    rw [if_neg (by simpa using zero)] at fits
    have few : (owned - skip) * source.len / target.len < 2 ^ 31 := by
      by_cases empty : target.len = 0
      · simp [empty]
      · have within : (owned - skip) * source.len / target.len ≤ room :=
          Nat.le_of_mul_le_mul_right (by omega) (Nat.pos_of_ne_zero empty)
        omega
    exact int32_natCast few
  · rw [if_pos (by simpa using zero), if_pos (by simpa using zero)]

/-- `cookie::read_from_owner` of bytes that are there and fit moves them all exactly when the system call says so. -/
theorem readFromOwner_movesAll_iff {owned asked : Nat} (wellFormed : source.WellFormed)
    (wellFormed' : target.WellFormed) (buf : (w.cookies id).buf = base) (iovec : (w.cookies id).iovec = source)
    (size : (w.cookies id).size = owned) (askedEq : (w.cookies id).askedFor target count skip = asked)
    (ownedBytes : owned * source.len < 2 ^ 64) (roomBytes : room * target.len < 2 ^ 64)
    (bytesBound : asked * target.len < 2 ^ 63)
    (has : skip * source.len + asked * target.len ≤ owned * source.len)
    (fits : seek * target.len + asked * target.len ≤ room * target.len) (divisor : ¬ (count = 0 ∧ target.len = 0)) :
    MovesAll w.mem (streamLocs base source skip (owned - skip)) (streamLocs base' target seek asked)
      (asked * target.len)
        (w.readFromOwner vm id base' target room count seek skip) ↔
      vm (sideIov base' target seek (seek + asked) (asked * target.len))
        (sideIov base source skip owned (asked * target.len)) = (asked * target.len : Nat) := by
  subst buf iovec
  have total : sizeT ((asked : Int) * (target.len : Int)) = asked * target.len := sizeT_mul (by omega)
  have there : ¬ sizeT ((w.cookies id).size * ((w.cookies id).iovec.len : Int)) <
      sizeT ((skip : Int) * ((w.cookies id).iovec.len : Int) + (asked * target.len : Nat)) := by
    rw [size, sizeT_mul ownedBytes, sizeT_mul_add (by omega)]
    omega
  have space : ¬ sizeT ((room : Int) * (target.len : Int)) <
      sizeT ((seek : Int) * (target.len : Int) + (asked * target.len : Nat)) := by
    rw [sizeT_mul roomBytes, sizeT_mul_add (by omega)]
    omega
  obtain ⟨done, read, moved, mem, ret⟩ := readFromOwner_passed vm base' askedEq total there space
    (by simpa using divisor)
  rw [size] at moved mem
  have behind : asked * target.len ≤ ((owned : Int) - (skip : Int)).toNat * (w.cookies id).iovec.len := by
    have elements : ((owned : Int) - (skip : Int)).toNat = owned - skip := by omega
    rw [elements, Nat.sub_mul]
    omega
  rw [read, ← moved]
  constructor
  · rintro ⟨other, same, _, all, _⟩
    obtain rfl := Outcome.ok.inj same
    exact all
  · intro all
    refine ⟨done, rfl, ret.mpr ?_, all, ?_⟩
    · rw [all, ptrdiff_natCast bytesBound]
    · have elements : ((owned : Int) - (skip : Int)).toNat = owned - skip := by omega
      rw [mem, all, moveBytes_sideIov' wellFormed' wellFormed _ _ _ _ _ behind, elements,
        take_streamLocs wellFormed' _ le_rfl]

/-- `cookie::read_from_owner`. -/
theorem readFromOwner_within_iovMax_iff {owned : Nat} (wellFormed : source.WellFormed)
    (wellFormed' : target.WellFormed) (buf : (w.cookies id).buf = base) (iovec : (w.cookies id).iovec = source)
    (size : (w.cookies id).size = owned) (roomInt : room < 2 ^ 31)
    (ownedBytes : owned * source.len < 2 ^ 64) (roomBytes : room * target.len < 2 ^ 64)
    (bytesBound : requested count owned skip source.len target.len * target.len < 2 ^ 63)
    (has : skip * source.len + requested count owned skip source.len target.len * target.len ≤ owned * source.len)
    (fits : seek * target.len + requested count owned skip source.len target.len * target.len ≤ room * target.len) :
    MovesAll w.mem (streamLocs base source skip (owned - skip))
        (streamLocs base' target seek (requested count owned skip source.len target.len))
        (requested count owned skip source.len target.len * target.len)
        (w.readFromOwner linuxVm id base' target room count seek skip) ↔
      ¬ (count = 0 ∧ target.len = 0) ∧
        WithinIovMax target (requested count owned skip source.len target.len) source (owned - skip) := by
  have askedEq := askedFor_eq iovec size roomInt ownedBytes has fits
  generalize requested count owned skip source.len target.len = asked at *
  by_cases divisor : count = 0 ∧ target.len = 0
  · have divides : w.readFromOwner linuxVm id base' target room count seek skip = .undefined .zeroDivision := by
      rw [readFromOwner_divides_by_zero_iff]
      exact ⟨by exact_mod_cast divisor.1, divisor.2⟩
    rw [divides]
    refine iff_of_false ?_ fun within => within.1 divisor
    rintro ⟨done, returned, _⟩
    cases returned
  · have elements : ((owned : Int) - (skip : Int)).toNat = owned - skip := by omega
    have behind : asked * target.len ≤ ((owned : Int) - (skip : Int)).toNat * source.len := by
      rw [elements, Nat.sub_mul]
      omega
    rw [readFromOwner_movesAll_iff wellFormed wellFormed' buf iovec size askedEq ownedBytes roomBytes bytesBound
        has fits divisor,
      linuxVm_moves_iff (copyingVm_copies.result wellFormed' wellFormed _ _ _ _ behind), elements, add_sub_cancel_left,
      Int.toNat_natCast]
    exact (and_iff_right divisor).symm

end Exactly

/-- The three transfers, on Linux, when nothing wraps: one that passes its size checks moves all its bytes and
    says so exactly when neither side has more than `IOV_MAX` segments. The owner's side counts up to the end of
    its buffer. `memcpy` and a copy of no bytes need no system call to succeed, and no transfer may divide by 0.
    -/
theorem transfers_within_iovMax_iff {source target : Iovec} (wellFormed : source.WellFormed)
    (wellFormed' : target.WellFormed) (base base' : Loc) (count seek room : Nat) (roomInt : room < 2 ^ 31)
    (roomBytes : room * target.len < 2 ^ 64) :
    (∀ (mem : Memory) (skip seek : Int), count * source.len < 2 ^ 63 → count * source.len ≤ room * target.len →
      (umpiCopy linuxVm mem base source count skip base' target room seek =
          (copyAll mem (streamLocs base source skip count)
            ((streamLocs base' target seek room).take (count * source.len)), count * source.len) ↔
        (source.contiguous ∧ target.contiguous) ∨ count * source.len = 0 ∨ WithinIovMax source count target room)) ∧
    (∀ (w : World) (id : Nat) (skip : Int), (w.cookies id).buf = base' → (w.cookies id).iovec = target →
      (w.cookies id).size = room → count * source.len < 2 ^ 63 →
      seek * target.len + count * source.len ≤ room * target.len →
      (MovesAll w.mem (streamLocs base source skip count) (streamLocs base' target seek (room - seek))
          (count * source.len) (w.writeToOwner linuxVm id base source count seek skip) ↔
        target.len ≠ 0 ∧ WithinIovMax source count target (room - seek))) ∧
    ∀ (w : World) (id owned skip asked : Nat), (w.cookies id).buf = base → (w.cookies id).iovec = source →
      (w.cookies id).size = owned → owned * source.len < 2 ^ 64 →
      asked = requested count owned skip source.len target.len → asked * target.len < 2 ^ 63 →
      skip * source.len + asked * target.len ≤ owned * source.len →
      seek * target.len + asked * target.len ≤ room * target.len →
      (MovesAll w.mem (streamLocs base source skip (owned - skip)) (streamLocs base' target seek asked)
          (asked * target.len) (w.readFromOwner linuxVm id base' target room count seek skip) ↔
        ¬ (count = 0 ∧ target.len = 0) ∧ WithinIovMax target asked source (owned - skip)) := by
  refine ⟨?_, ?_, ?_⟩
  · intro mem skip seek bytesBound fits
    exact umpiCopy_within_iovMax_iff wellFormed wellFormed' mem roomBytes bytesBound fits skip seek
  · intro w id skip buf iovec size bytesBound fits
    exact writeToOwner_within_iovMax_iff wellFormed wellFormed' buf iovec size roomBytes bytesBound fits skip
  · intro w id owned skip asked buf iovec size ownedBytes askedEq bytesBound has fits
    subst askedEq
    exact readFromOwner_within_iovMax_iff wellFormed wellFormed' buf iovec size roomInt ownedBytes roomBytes
      bytesBound has fits

/-- Four bytes every eight bytes. -/
private def sparseInt : Iovec := Iovec.ofSegments 8 [{ dis := 0, len := 4 }]

private theorem sparseInt_wellFormed : sparseInt.WellFormed :=
  .scattered 8 [{ dis := 0, len := 4 }] (by simp) (by decide)

/-- 1024 such elements are read at once, 1025 are not. -/
theorem transfers_within_iovMax_sparse :
    (∀ mem, umpiCopy linuxVm mem { region := .heap 0, addr := 0 } (Iovec.basic .int 4) 1024 0
        { region := .heap 0, addr := 8192 } sparseInt 1024 0 =
      (copyAll mem (streamLocs { region := .heap 0, addr := 0 } (Iovec.basic .int 4) 0 1024)
        ((streamLocs { region := .heap 0, addr := 8192 } sparseInt 0 1024).take 4096), 4096)) ∧
    ∀ mem, umpiCopy linuxVm mem { region := .heap 0, addr := 0 } (Iovec.basic .int 4) 1025 0
        { region := .heap 0, addr := 8192 } sparseInt 1025 0 ≠
      (copyAll mem (streamLocs { region := .heap 0, addr := 0 } (Iovec.basic .int 4) 0 1025)
        ((streamLocs { region := .heap 0, addr := 8192 } sparseInt 0 1025).take 4100), 4100) := by
  have within := transfers_within_iovMax_iff Datatype.mpiInt.wellFormed sparseInt_wellFormed
    { region := .heap 0, addr := 0 } { region := .heap 0, addr := 8192 } 1024 0 1024 (by decide) (by decide)
  have more := transfers_within_iovMax_iff Datatype.mpiInt.wellFormed sparseInt_wellFormed
    { region := .heap 0, addr := 0 } { region := .heap 0, addr := 8192 } 1025 0 1025 (by decide) (by decide)
  refine ⟨fun mem => (within.1 mem 0 0 (by decide) (by decide)).mpr ?_, fun mem same => ?_⟩
  · exact Or.inr (Or.inr ⟨by decide, by decide⟩)
  · rcases (more.1 mem 0 0 (by decide) (by decide)).mp same with basic | nothing | ⟨_, few⟩
    · exact absurd basic.2 (by decide)
    · exact absurd nothing (by decide)
    · exact absurd few (by decide)

/-- A receive of 1025 spread integers is posted and one integer arrives. It fits, but the posted side has a
    segment too many. -/
theorem transfer_beyond_iovMax :
    ∃ iovec, mpiTypeCreateResized true true (some Datatype.mpiInt.iovec) 0 8 = .success iovec ∧
      ∃ posted frame sent frame' id,
        mpiIrecv (World.start 2 fun _ => 0) 0 (.addr 0) 1025 (some iovec) 1 5 .world = (posted, frame) ∧
        mpiIssend posted 1 (.addr 0) 1 (some Datatype.mpiInt.iovec) 0 5 .world = (sent, frame') ∧
        frame'.cont =
          [.writeToOwner id { region := .heap 1, addr := 0 } Datatype.mpiInt.iovec 1 (.elems 0) (.elems 0)] ∧
        0 * iovec.len + 1 * Datatype.mpiInt.iovec.len ≤ 1025 * iovec.len ∧
        ¬ MovesAll sent.mem (streamLocs { region := .heap 1, addr := 0 } Datatype.mpiInt.iovec 0 1)
          (streamLocs { region := .heap 0, addr := 0 } iovec 0 1025) (1 * Datatype.mpiInt.iovec.len)
          (sent.writeToOwner linuxVm id { region := .heap 1, addr := 0 } Datatype.mpiInt.iovec 1 0 0) := by
  have stops : ∀ (w : World) (id : Nat), (w.cookies id).buf = { region := .heap 0, addr := 0 } →
      (w.cookies id).iovec = sparseInt → (w.cookies id).size = 1025 →
      ¬ MovesAll w.mem (streamLocs { region := .heap 1, addr := 0 } Datatype.mpiInt.iovec 0 1)
        (streamLocs { region := .heap 0, addr := 0 } sparseInt 0 1025) (1 * Datatype.mpiInt.iovec.len)
        (w.writeToOwner linuxVm id { region := .heap 1, addr := 0 } Datatype.mpiInt.iovec 1 0 0) := by
    intro w id buf iovec size moves
    have limit := @writeToOwner_within_iovMax_iff _ _ { region := .heap 1, addr := 0 } _ 1 0 1025 w id
      Datatype.mpiInt.wellFormed sparseInt_wellFormed buf iovec size (by decide) (by decide) (by decide) 0
    rw [Nat.cast_zero, Nat.cast_one, Nat.sub_zero] at limit
    exact absurd (limit.mp moves).2.2 (by decide)
  exact ⟨sparseInt, rfl, _, _, _, _, _, rfl, rfl, rfl, by decide, stops _ _ rfl rfl rfl⟩

end Umpi
