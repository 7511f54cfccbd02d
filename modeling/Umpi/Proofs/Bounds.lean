/-
Module: Umpi.Proofs.Bounds
Layer: Proofs
Purpose: What the size checks of `write_to_owner` and `read_from_owner` protect. Both compare products of counts
  and lengths modulo 2 ^ 64. Here the bytes a successful transfer moves are compared, over the integers, with
  the elements that were declared on each side.
Imports: Umpi.Proofs.Limits
Trusted boundary: none
Main exports: Documented, Inside, WriteSide, CanMove, WithinDeclared, transfers_in_bounds_iff, transfer_out_of_bounds
Open obligations: none
-/
import Umpi.Proofs.Limits

namespace Umpi

open Foundation

/-- What the system calls return by their documentation: -1, or the number of bytes they have moved, which
    neither side may lack. -/
def Documented (vm : ProcessVm) : Prop :=
  ∀ here remote, vm here remote = -1 ∨ 0 ≤ vm here remote ∧ vm here remote ≤ (min (iovLen here) (iovLen remote) : Nat)

/-- A call that moves as much as the two sides have but no more than a given number of bytes. -/
def atMost (total : Nat) : ProcessVm := fun here remote => (min total (min (iovLen here) (iovLen remote)) : Nat)

/-- A size from 2 ^ 63 on is a negative number of type `ssize_t`. -/
theorem ptrdiff_of_large {n : Nat} (low : 2 ^ 63 ≤ n) (high : n < 2 ^ 64) : ptrdiff n = n - 2 ^ 64 := by
  have same : ptrdiff n = ptrdiff ((n : Int) - 2 ^ 64) := by
    unfold ptrdiff
    exact (Int.sub_bmod_right n (2 ^ 64)).symm
  rw [same, ptrdiff_of_range (by omega) (by omega)]

theorem atMost_documented (total : Nat) : Documented (atMost total) := by
  intro here remote
  unfold atMost
  omega

theorem copyingVm_documented : Documented copyingVm := by
  intro here remote
  unfold copyingVm
  omega

theorem atMost_eq {total : Nat} {here remote : List Iov} (enough : total ≤ iovLen here)
    (enough' : total ≤ iovLen remote) :
    atMost total here remote = total := by
  unfold atMost
  omega

/-- The bytes a call has moved on one side lie in elements 0 up to the number declared there. -/
def Inside (base : Loc) (iovec : Iovec) (declared : Int) (side : List Iov) (moved : Int) : Prop :=
  ∀ location ∈ (iovLocs side).take moved.toNat, location ∈ streamLocs base iovec 0 declared.toNat

section Views

variable {base : Loc} {iovec : Iovec}

/-- An element whose view meets the view of the first elements is one of them. -/
theorem index_of_mem_streamLocs (wellFormed : iovec.WellFormed) {index : Int} {count : Nat} {location : Loc}
    (element : location ∈ elementLocs base iovec index) (member : location ∈ streamLocs base iovec 0 count) :
    0 ≤ index ∧ index < count := by
  obtain ⟨j, below, element'⟩ := mem_streamLocs_iff.mp member
  have same : index = 0 + (j : Int) := by
    rcases lt_trichotomy index (0 + (j : Int)) with less | same | more
    · exact absurd element' (disjoint_elementLocs wellFormed less element)
    · exact same
    · exact absurd element (disjoint_elementLocs wellFormed more element')
  omega

/-- A part of a view that is longer than the elements before one meets that one. -/
theorem exists_mem_take_streamLocs (wellFormed : iovec.WellFormed) (lenPos : 0 < iovec.len) (first : Int)
    {count element bytes : Nat} (reaches : element * iovec.len < bytes) (counted : element < count) :
    ∃ location ∈ (streamLocs base iovec first count).take bytes,
      location ∈ elementLocs base iovec (first + element) := by
  obtain ⟨more, rfl⟩ := Nat.exists_eq_add_of_lt counted
  have before := length_streamLocs base wellFormed first element
  have nonempty : elementLocs base iovec (first + element) ≠ [] := by
    intro empty
    have length : (elementLocs base iovec (first + element)).length = iovec.len := length_elementLocs wellFormed _
    rw [empty] at length
    exact Nat.ne_of_gt lenPos length.symm
  obtain ⟨location, rest, listed⟩ := List.exists_cons_of_ne_nil nonempty
  refine ⟨location, ?_, by simp [listed]⟩
  have split : streamLocs base iovec first (element + more + 1) =
      streamLocs base iovec first element ++
        (location :: (rest ++ streamLocs base iovec (first + element + 1) more)) := by
    have behind : streamLocs base iovec (first + element) (1 + more) =
        elementLocs base iovec (first + element) ++ streamLocs base iovec (first + element + 1) more := by
      rw [streamLocs_add, streamLocs_one, Nat.cast_one]
    rw [Nat.add_assoc, Nat.add_comm more, streamLocs_add, behind, listed, List.cons_append]
  obtain ⟨extra, length⟩ := Nat.exists_eq_add_of_lt reaches
  have left : bytes - (streamLocs base iovec first element).length = extra + 1 := by omega
  rw [split, List.take_append, left, List.take_succ_cons]
  exact List.mem_append_right _ List.mem_cons_self

/-- A part of a view lies in the first elements exactly when its ends do. -/
theorem take_streamLocs_inside_iff (wellFormed : iovec.WellFormed) (lenPos : 0 < iovec.len) (lo : Int)
    {bytes count : Nat}
    (positive : 0 < bytes) :
    (∀ location ∈ (streamLocs base iovec lo bytes).take bytes, location ∈ streamLocs base iovec 0 count) ↔
      0 ≤ lo ∧ lo * iovec.len + bytes ≤ count * iovec.len := by
  constructor
  · intro inside
    have bounded : ∀ element : Nat, element * iovec.len < bytes → 0 ≤ lo + element ∧ lo + element < count := by
      intro element reaches
      have counted : element < bytes := Nat.lt_of_le_of_lt (Nat.le_mul_of_pos_right _ lenPos) reaches
      obtain ⟨location, member, own⟩ := exists_mem_take_streamLocs wellFormed lenPos lo reaches counted
      exact index_of_mem_streamLocs wellFormed own (inside location member)
    have start := bounded 0 (by omega)
    have last := bounded ((bytes - 1) / iovec.len)
      (Nat.lt_of_le_of_lt (Nat.div_mul_le_self _ _) (by omega))
    refine ⟨by omega, ?_⟩
    obtain ⟨lo, rfl⟩ := Int.eq_ofNat_of_zero_le (show 0 ≤ lo by omega)
    have quotient : (bytes - 1) / iovec.len < count - lo := by omega
    have covered := (Nat.div_lt_iff_lt_mul lenPos).mp quotient
    rw [Nat.sub_mul] at covered
    have fits : lo * iovec.len + bytes ≤ count * iovec.len := by omega
    exact_mod_cast fits
  · rintro ⟨low, high⟩
    obtain ⟨lo, rfl⟩ := Int.eq_ofNat_of_zero_le low
    have fits : lo * iovec.len + bytes ≤ count * iovec.len := by exact_mod_cast high
    have behind : bytes ≤ (count - lo) * iovec.len := by
      rw [Nat.sub_mul]
      omega
    intro location member
    rw [take_streamLocs_eq wellFormed lo (Nat.le_mul_of_pos_right _ lenPos) behind] at member
    have loLe : lo ≤ count := Nat.le_of_mul_le_mul_right (by omega) lenPos
    exact streamLocs_subset (by omega) (by omega) (List.mem_of_mem_take member)

end Views

/-! ### One system call -/

/-- Does a side of that many elements have the bytes? A single segment always does. -/
def Iovec.Offers (iovec : Iovec) (elements : Int) (bytes : Nat) : Prop :=
  iovec.scattered → bytes ≤ elements.toNat * iovec.len

/-- A system call can move that many bytes between the two sides, and its result can be compared with them. -/
structure CanMove (iovec : Iovec) (elements : Int) (iovec' : Iovec) (elements' : Int) (bytes : Nat) : Prop where
  positive : 0 < bytes
  small : bytes < 2 ^ 63
  here : iovec.Offers elements bytes
  remote : iovec'.Offers elements' bytes

/-- Over the integers, the bytes behind an element lie in the declared ones. -/
structure WithinDeclared (declared offset : Int) (len bytes : Nat) : Prop where
  some : 0 ≤ declared
  start : 0 ≤ offset
  fits : offset * len + bytes ≤ declared * len

section Sides

variable {base base' : Loc} {iovec iovec' : Iovec} {lo hi lo' hi' declared declared' : Int} {total : Nat}

theorem le_iovLen_sideIov_iff (wellFormed : iovec.WellFormed) :
    total ≤ iovLen (sideIov base iovec lo hi total) ↔ iovec.Offers (hi - lo) total := by
  unfold Iovec.Offers
  rw [← length_iovLocs]
  cases wellFormed with
  | basic kind length notScattered bounded =>
      simp [iovLocs_sideIov_basic notScattered, Iovec.scattered_basic notScattered]
  | scattered strideBytes parts inside bounded =>
      rw [iovLocs_sideIov_scattered, length_streamLocs _ (.scattered _ _ inside bounded)]
      simp

/-- The first bytes of a side that has them, whatever number of elements it lists. -/
theorem take_sideIov (wellFormed : iovec.WellFormed) (lenPos : 0 < iovec.len) (offers : iovec.Offers (hi - lo) total) :
    (iovLocs (sideIov base iovec lo hi total)).take total = (streamLocs base iovec lo total).take total := by
  have enough : total ≤ total * iovec.len := Nat.le_mul_of_pos_right _ lenPos
  by_cases scattered : iovec.scattered
  · rw [take_iovLocs_sideIov wellFormed lo hi (offers scattered),
      take_streamLocs_eq wellFormed lo (offers scattered) enough]
  · have elements : (lo + total - lo).toNat = total := by omega
    have single : sideIov base iovec lo hi total = sideIov base iovec lo (lo + total) total := by
      unfold sideIov
      rw [if_neg scattered, if_neg scattered]
    rw [single, take_iovLocs_sideIov wellFormed lo (lo + total) (by rwa [elements]), elements]

theorem inside_sideIov_iff (wellFormed : iovec.WellFormed) (lenPos : 0 < iovec.len) (positive : 0 < total)
    (offers : iovec.Offers (hi - lo) total) :
    Inside base iovec declared (sideIov base iovec lo hi total) total ↔ WithinDeclared declared lo iovec.len total := by
  unfold Inside
  rw [Int.toNat_natCast, take_sideIov wellFormed lenPos offers,
    take_streamLocs_inside_iff wellFormed lenPos lo positive]
  constructor
  · rintro ⟨low, high⟩
    have before : 0 ≤ lo * (iovec.len : Int) := Int.mul_nonneg low (by omega)
    have some : 0 ≤ declared := by
      by_contra none
      have empty : declared.toNat = 0 := by omega
      rw [empty] at high
      omega
    exact ⟨some, low, by rwa [Int.toNat_of_nonneg some] at high⟩
  · intro within
    exact ⟨within.start, by rw [Int.toNat_of_nonneg within.some]; exact within.fits⟩

theorem inside_of_nonpos {side : List Iov} {moved : Int} (nothing : moved ≤ 0) :
    Inside base iovec declared side moved := by
  intro location member
  rw [Int.toNat_of_nonpos nothing] at member
  cases member

variable (base base' lo hi lo' hi' declared declared') in
/-- What a documented call moves when its result is taken for success. -/
theorem calls_inside_iff (wellFormed : iovec.WellFormed) (wellFormed' : iovec'.WellFormed) (lenPos : 0 < iovec.len)
    (lenPos' : 0 < iovec'.len) (sized : total < 2 ^ 64) :
    (∀ vm, Documented vm →
      ptrdiff total = vm (sideIov base iovec lo hi total) (sideIov base' iovec' lo' hi' total) →
      Inside base iovec declared (sideIov base iovec lo hi total) (ptrdiff total) ∧
        Inside base' iovec' declared' (sideIov base' iovec' lo' hi' total) (ptrdiff total)) ↔
    (CanMove iovec (hi - lo) iovec' (hi' - lo') total →
      WithinDeclared declared lo iovec.len total ∧ WithinDeclared declared' lo' iovec'.len total) := by
  constructor
  · intro inside can
    have whole : atMost total (sideIov base iovec lo hi total) (sideIov base' iovec' lo' hi' total) = total :=
      atMost_eq ((le_iovLen_sideIov_iff wellFormed).mpr can.here) ((le_iovLen_sideIov_iff wellFormed').mpr can.remote)
    have exact := ptrdiff_natCast can.small
    have both := inside (atMost total) (atMost_documented total) (by rw [whole, exact])
    rw [exact] at both
    exact ⟨(inside_sideIov_iff wellFormed lenPos can.positive can.here).mp both.1,
      (inside_sideIov_iff wellFormed' lenPos' can.positive can.remote).mp both.2⟩
  · intro within vm documented success
    by_cases nothing : ptrdiff total ≤ 0
    · -- also when the error value equals the size as a signed number
      exact ⟨inside_of_nonpos nothing, inside_of_nonpos nothing⟩
    · have small : total < 2 ^ 63 := by
        by_contra large
        have wrapped := ptrdiff_of_large (by omega) sized
        omega
      have exact := ptrdiff_natCast small
      have bounded : total ≤ iovLen (sideIov base iovec lo hi total) ∧
          total ≤ iovLen (sideIov base' iovec' lo' hi' total) := by
        have answer := documented (sideIov base iovec lo hi total) (sideIov base' iovec' lo' hi' total)
        rw [← success, exact] at answer
        omega
      have can : CanMove iovec (hi - lo) iovec' (hi' - lo') total :=
        { positive := by omega
          small := small
          here := (le_iovLen_sideIov_iff wellFormed).mp bounded.1
          remote := (le_iovLen_sideIov_iff wellFormed').mp bounded.2 }
      rw [exact]
      exact ⟨(inside_sideIov_iff wellFormed lenPos can.positive can.here).mpr (within can).1,
        (inside_sideIov_iff wellFormed' lenPos' can.positive can.remote).mpr (within can).2⟩

end Sides

/-! ### The checks -/

/-- A conversion to `int` or to `size_t` never makes a number that is not negative larger. -/
theorem int32_le {x : Int} (nonneg : 0 ≤ x) : int32 x ≤ x := by
  have low : 0 ≤ x % 2 ^ 32 := Int.emod_nonneg _ (by omega)
  unfold int32
  rw [Int.bmod_def]
  split <;> omega

theorem sizeT_le {x : Int} (nonneg : 0 ≤ x) : (sizeT x : Int) ≤ x := by
  unfold sizeT
  omega

/-- The check of a side compares what it means to compare: nothing wraps, or the bytes fit all the same. -/
structure ChecksDeclared (declared offset : Int) (len bytes : Nat) : Prop where
  some : 0 ≤ declared
  start : 0 ≤ offset
  unwrapped : 0 ≤ int32 declared ∧ offset * len + bytes < 2 ^ 64 ∨ offset * len + bytes ≤ declared * len

section Checks

variable {declared offset : Int} {len bytes : Nat}

/-- Where the check has passed, that decides. -/
theorem checksDeclared_iff (passes : ¬ sizeT (int32 declared * len) < sizeT (offset * len + bytes)) :
    ChecksDeclared declared offset len bytes ↔ WithinDeclared declared offset len bytes := by
  constructor
  · intro checks
    refine ⟨checks.some, checks.start, ?_⟩
    rcases checks.unwrapped with ⟨nonneg, small⟩ | fits
    · have before : 0 ≤ offset * (len : Int) := Int.mul_nonneg checks.start (by omega)
      have needed := sizeT_of_range (x := offset * len + bytes) (by omega) small
      have room := sizeT_le (Int.mul_nonneg nonneg (by omega : (0 : Int) ≤ len))
      have narrowed : int32 declared * (len : Int) ≤ declared * len :=
        Int.mul_le_mul_of_nonneg_right (int32_le checks.some) (by omega)
      omega
    · exact fits
  · intro within
    exact ⟨within.some, within.start, Or.inr within.fits⟩

end Checks

/-- The counts, offsets and declared numbers of elements with which the library writes out of the caller's
    buffer: all of it, or one of several blocks, with `int` products. -/
inductive WriteSide : Int → Int → Int → Prop where
  | block (count : Int) (index blocks : Nat) (inside : index < blocks) :
      WriteSide count (int32 (count * index)) (count * blocks)
  | all (count : Int) (blocks : Nat) : WriteSide (int32 (count * blocks)) 0 (count * blocks)

/-- The caller's side of a write is not checked at all. -/
structure SendsDeclared (declared count skip : Int) (len bytes : Nat) : Prop where
  some : 0 ≤ declared
  start : 0 ≤ skip
  unwrapped : 0 ≤ count ∨ skip * len + bytes ≤ declared * len

section Callers

variable {declared count skip : Int} {len : Nat}

theorem WriteSide.le (side : WriteSide count skip declared) (some : 0 ≤ declared) : skip + count ≤ declared := by
  cases side with
  | block count index blocks inside =>
      have nonneg : 0 ≤ count := by
        by_contra negative
        have less : count * (blocks : Int) < 0 := Int.mul_neg_of_neg_of_pos (by omega) (by omega)
        omega
      have narrowed := int32_le (Int.mul_nonneg nonneg (by omega : (0 : Int) ≤ index))
      have next : count * ((index : Int) + 1) ≤ count * blocks := Int.mul_le_mul_of_nonneg_left (by omega) nonneg
      rw [Int.mul_add, Int.mul_one] at next
      omega
  | all count blocks =>
      have narrowed := int32_le some
      omega

theorem sendsDeclared_iff (side : WriteSide count skip declared) :
    SendsDeclared declared count skip len (sizeT (count * len)) ↔
      WithinDeclared declared skip len (sizeT (count * len)) := by
  constructor
  · intro sends
    refine ⟨sends.some, sends.start, ?_⟩
    rcases sends.unwrapped with nonneg | fits
    · have sent := sizeT_le (Int.mul_nonneg nonneg (by omega : (0 : Int) ≤ len))
      have behind : (skip + count) * (len : Int) ≤ declared * len :=
        Int.mul_le_mul_of_nonneg_right (side.le sends.some) (by omega)
      rw [Int.add_mul] at behind
      omega
    · exact fits
  · intro within
    exact ⟨within.some, within.start, Or.inr within.fits⟩

end Callers

/-! ### The transfers -/

section Transfers

variable {w : World} {id : Nat} {buf : Loc} {iovec iovec' : Iovec} {count skip seek declared declared' : Int}

/-- `cookie::write_to_owner`. -/
theorem writeToOwner_in_bounds_iff (wellFormed : iovec.WellFormed) (wellFormed' : iovec'.WellFormed)
    (lenPos : 0 < iovec.len) (lenPos' : 0 < iovec'.len) (iovecEq : (w.cookies id).iovec = iovec')
    (sizeEq : (w.cookies id).size = int32 declared') (side : WriteSide count skip declared) :
    (∀ vm done, Documented vm → w.writeToOwner vm id buf iovec count seek skip = .ok done → done.ret = mpiSuccess →
      Inside buf iovec declared (sideIov buf iovec skip (skip + count) (sizeT (count * iovec.len))) done.moved ∧
        Inside (w.cookies id).buf iovec' declared'
          (sideIov (w.cookies id).buf iovec' seek (int32 declared') (sizeT (count * iovec.len))) done.moved) ↔
    (¬ sizeT (int32 declared' * iovec'.len) < sizeT (seek * iovec'.len + sizeT (count * iovec.len)) →
      CanMove iovec count iovec' (int32 declared' - seek) (sizeT (count * iovec.len)) →
      SendsDeclared declared count skip iovec.len (sizeT (count * iovec.len)) ∧
        ChecksDeclared declared' seek iovec'.len (sizeT (count * iovec.len))) := by
  subst iovecEq
  have calls := calls_inside_iff buf (w.cookies id).buf skip (skip + count) seek (int32 declared') declared declared'
    wellFormed wellFormed' lenPos lenPos' (sizeT_lt (count * iovec.len))
  rw [add_sub_cancel_left] at calls
  by_cases passes : sizeT (int32 declared' * (w.cookies id).iovec.len) <
      sizeT (seek * (w.cookies id).iovec.len + sizeT (count * iovec.len))
  · refine iff_of_true ?_ (absurd passes)
    intro vm done _ wrote success
    have refused : w.writeToOwner vm id buf iovec count seek skip = .ok (w.finishTransfer id mpiFail 0) := by
      unfold World.writeToOwner
      simp only [sizeEq]
      exact if_pos passes
    rw [refused] at wrote
    obtain rfl := Outcome.ok.inj wrote
    exact absurd success mpiFail_ne_mpiSuccess
  · have checked : ¬ sizeT ((w.cookies id).size * (w.cookies id).iovec.len) <
        sizeT (seek * (w.cookies id).iovec.len + sizeT (count * iovec.len)) := by rwa [sizeEq]
    have once := fun vm => writeToOwner_passed vm buf skip rfl checked (Nat.ne_of_gt lenPos')
    rw [sizeEq] at once
    rw [sendsDeclared_iff side, checksDeclared_iff passes, imp_iff_right passes, ← calls]
    constructor
    · intro inside vm documented success
      obtain ⟨done, wrote, moved, _, ret⟩ := once vm
      rw [← moved] at success
      rw [success]
      exact inside vm done documented wrote (ret.mpr success)
    · intro inside vm done documented wrote success
      obtain ⟨done', wrote', moved, _, ret⟩ := once vm
      obtain rfl := Outcome.ok.inj (wrote.symm.trans wrote')
      have whole := ret.mp success
      rw [← whole]
      exact inside vm documented (whole.trans moved)

/-- `cookie::read_from_owner`. -/
theorem readFromOwner_in_bounds_iff {asked : Int} (wellFormed : iovec.WellFormed) (wellFormed' : iovec'.WellFormed)
    (lenPos : 0 < iovec.len) (lenPos' : 0 < iovec'.len) (iovecEq : (w.cookies id).iovec = iovec')
    (sizeEq : (w.cookies id).size = int32 declared') (askedEq : (w.cookies id).askedFor iovec count skip = asked) :
    (∀ vm done, Documented vm → w.readFromOwner vm id buf iovec (int32 declared) count seek skip = .ok done →
      done.ret = mpiSuccess →
      Inside buf iovec declared (sideIov buf iovec seek (seek + asked) (sizeT (asked * iovec.len))) done.moved ∧
        Inside (w.cookies id).buf iovec' declared'
          (sideIov (w.cookies id).buf iovec' skip (int32 declared') (sizeT (asked * iovec.len))) done.moved) ↔
    (¬ sizeT (int32 declared' * iovec'.len) < sizeT (skip * iovec'.len + sizeT (asked * iovec.len)) →
      ¬ sizeT (int32 declared * iovec.len) < sizeT (seek * iovec.len + sizeT (asked * iovec.len)) →
      CanMove iovec asked iovec' (int32 declared' - skip) (sizeT (asked * iovec.len)) →
      ChecksDeclared declared seek iovec.len (sizeT (asked * iovec.len)) ∧
        ChecksDeclared declared' skip iovec'.len (sizeT (asked * iovec.len))) := by
  subst iovecEq
  have calls := calls_inside_iff buf (w.cookies id).buf seek (seek + asked) skip (int32 declared') declared declared'
    wellFormed wellFormed' lenPos lenPos' (sizeT_lt (asked * iovec.len))
  rw [add_sub_cancel_left] at calls
  have divisor : ¬ (count = 0 ∧ iovec.len = 0) := fun zero => Nat.ne_of_gt lenPos zero.2
  by_cases passes : ¬ sizeT (int32 declared' * (w.cookies id).iovec.len) <
        sizeT (skip * (w.cookies id).iovec.len + sizeT (asked * iovec.len)) ∧
      ¬ sizeT (int32 declared * iovec.len) < sizeT (seek * iovec.len + sizeT (asked * iovec.len))
  · have checked : ¬ sizeT ((w.cookies id).size * (w.cookies id).iovec.len) <
        sizeT (skip * (w.cookies id).iovec.len + sizeT (asked * iovec.len)) := by
      rw [sizeEq]
      exact passes.1
    have once := fun vm => readFromOwner_passed vm buf askedEq rfl checked passes.2 divisor
    rw [sizeEq] at once
    rw [checksDeclared_iff passes.1, checksDeclared_iff passes.2, imp_iff_right passes.1, imp_iff_right passes.2,
      ← calls]
    constructor
    · intro inside vm documented success
      obtain ⟨done, read, moved, _, ret⟩ := once vm
      rw [← moved] at success
      rw [success]
      exact inside vm done documented read (ret.mpr success)
    · intro inside vm done documented read success
      obtain ⟨done', read', moved, _, ret⟩ := once vm
      obtain rfl := Outcome.ok.inj (read.symm.trans read')
      have whole := ret.mp success
      rw [← whole]
      exact inside vm documented (whole.trans moved)
  · refine iff_of_true ?_ (fun there fits => absurd ⟨there, fits⟩ passes)
    intro vm done _ read success
    have refused : w.readFromOwner vm id buf iovec (int32 declared) count seek skip =
        .ok (w.finishTransfer id mpiFail 0) := by
      rw [not_and_or, not_not, not_not, ← sizeEq, ← askedEq] at passes
      unfold World.readFromOwner
      simp only
      rw [if_neg divisor]
      exact if_pos passes
    rw [refused] at read
    obtain rfl := Outcome.ok.inj read
    exact absurd success mpiFail_ne_mpiSuccess

end Transfers

/-- The bytes that a successful transfer moves lie in the declared elements of both sides exactly when the
    checks compare what they mean to: no number of elements or offset is negative and no sum wraps, unless the
    check refuses, there is nothing to move, or the segments have too few bytes for the call to succeed. -/
theorem transfers_in_bounds_iff {iovec iovec' : Iovec} (wellFormed : iovec.WellFormed) (wellFormed' : iovec'.WellFormed)
    (lenPos : 0 < iovec.len) (lenPos' : 0 < iovec'.len) (w : World) (id : Nat) (buf : Loc)
    (iovecEq : (w.cookies id).iovec = iovec') {declared' : Int} (sizeEq : (w.cookies id).size = int32 declared') :
    (∀ count skip declared seek, WriteSide count skip declared →
      ((∀ vm done, Documented vm → w.writeToOwner vm id buf iovec count seek skip = .ok done → done.ret = mpiSuccess →
          Inside buf iovec declared (sideIov buf iovec skip (skip + count) (sizeT (count * iovec.len))) done.moved ∧
            Inside (w.cookies id).buf iovec' declared'
              (sideIov (w.cookies id).buf iovec' seek (int32 declared') (sizeT (count * iovec.len))) done.moved) ↔
        (¬ sizeT (int32 declared' * iovec'.len) < sizeT (seek * iovec'.len + sizeT (count * iovec.len)) →
          CanMove iovec count iovec' (int32 declared' - seek) (sizeT (count * iovec.len)) →
          SendsDeclared declared count skip iovec.len (sizeT (count * iovec.len)) ∧
            ChecksDeclared declared' seek iovec'.len (sizeT (count * iovec.len))))) ∧
    ∀ declared count seek skip asked, (w.cookies id).askedFor iovec count skip = asked →
      ((∀ vm done, Documented vm → w.readFromOwner vm id buf iovec (int32 declared) count seek skip = .ok done →
          done.ret = mpiSuccess →
          Inside buf iovec declared (sideIov buf iovec seek (seek + asked) (sizeT (asked * iovec.len))) done.moved ∧
            Inside (w.cookies id).buf iovec' declared'
              (sideIov (w.cookies id).buf iovec' skip (int32 declared') (sizeT (asked * iovec.len))) done.moved) ↔
        (¬ sizeT (int32 declared' * iovec'.len) < sizeT (skip * iovec'.len + sizeT (asked * iovec.len)) →
          ¬ sizeT (int32 declared * iovec.len) < sizeT (seek * iovec.len + sizeT (asked * iovec.len)) →
          CanMove iovec asked iovec' (int32 declared' - skip) (sizeT (asked * iovec.len)) →
          ChecksDeclared declared seek iovec.len (sizeT (asked * iovec.len)) ∧
            ChecksDeclared declared' skip iovec'.len (sizeT (asked * iovec.len)))) := by
  refine ⟨?_, ?_⟩
  · intro count skip declared seek side
    exact writeToOwner_in_bounds_iff wellFormed wellFormed' lenPos lenPos' iovecEq sizeEq side
  · intro declared count seek skip asked askedEq
    exact readFromOwner_in_bounds_iff wellFormed wellFormed' lenPos lenPos' iovecEq sizeEq askedEq

/-- A receive of three characters is posted, and two characters are sent: they stay inside. -/
theorem transfers_in_bounds_chars :
    ∃ done,
      (mpiIrecv (World.start 2 fun _ => 0) 0 (.addr 0) 3 (some Datatype.mpiChar.iovec) 1 5 .world).1.writeToOwner
        copyingVm 0 { region := .heap 1, addr := 0 } Datatype.mpiChar.iovec 2 0 0 = .ok done ∧
      done.ret = mpiSuccess ∧
      Inside { region := .heap 0, addr := 0 } Datatype.mpiChar.iovec 3
        [{ base := { region := .heap 0, addr := 0 }, len := 2 }] done.moved := by
  have bounds := (transfers_in_bounds_iff Datatype.mpiChar.wellFormed Datatype.mpiChar.wellFormed (by decide)
    (by decide)
    (mpiIrecv (World.start 2 fun _ => 0) 0 (.addr 0) 3 (some Datatype.mpiChar.iovec) 1 5 .world).1 0
    { region := .heap 1, addr := 0 } rfl (rfl : _ = int32 3)).1 2 0 2 0 (.block 2 0 1 (by decide))
  have checks : SendsDeclared 2 2 0 1 2 ∧ ChecksDeclared 3 0 1 2 :=
    ⟨⟨by decide, by decide, Or.inl (by decide)⟩, ⟨by decide, by decide, Or.inr (by decide)⟩⟩
  refine ⟨_, rfl, by decide, ?_⟩
  exact (bounds.mpr (fun _ _ => checks) copyingVm _ copyingVm_documented rfl (by decide)).2

/-- A receive of -1 characters is accepted, and ten characters are then written to its buffer. -/
theorem transfer_out_of_bounds :
    Documented copyingVm ∧ ∃ posted frame sent frame' id done,
      mpiIrecv (World.start 2 fun _ => 0) 0 (.addr 0) (-1) (some Datatype.mpiChar.iovec) 1 5 .world = (posted, frame) ∧
      mpiIssend posted 1 (.addr 0) 10 (some Datatype.mpiChar.iovec) 0 5 .world = (sent, frame') ∧
      frame'.cont =
        [.writeToOwner id { region := .heap 1, addr := 0 } Datatype.mpiChar.iovec 10 (.elems 0) (.elems 0)] ∧
      sent.writeToOwner copyingVm id { region := .heap 1, addr := 0 } Datatype.mpiChar.iovec 10 0 0 = .ok done ∧
      done.ret = mpiSuccess ∧ done.moved = 10 ∧
      ¬ Inside { region := .heap 0, addr := 0 } Datatype.mpiChar.iovec (-1)
        (sideIov { region := .heap 0, addr := 0 } Datatype.mpiChar.iovec 0 (-1) 10) done.moved := by
  refine ⟨copyingVm_documented, _, _, _, _, _, _, rfl, rfl, rfl, rfl, by decide, by decide, ?_⟩
  intro inside
  exact List.not_mem_nil (inside { region := .heap 0, addr := 0 } (by decide))

end Umpi
