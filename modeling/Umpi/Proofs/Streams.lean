/-
Module: Umpi.Proofs.Streams
Layer: Proofs
Purpose: The stream view of a buffer of several elements. Elements of one buffer occupy disjoint
  stretches of memory, so views of different elements are disjoint and a view of a nonoverlapping type
  lists every location once. The segment lists that the transfer functions build describe exactly such
  views: the whole view for a scattered type, and its first bytes for a contiguous one.
Imports: Umpi.Model.Transfer
Trusted boundary: none
Main exports: streamLocs_add, length_streamLocs, mem_streamLocs, nodup_streamLocs,
  disjoint_streamLocs, take_streamLocs, take_iovLocs_sideIov, le_iovLen_sideIov
Open obligations: none
-/
import Umpi.Model.Transfer
import Mathlib.Tactic.Linarith
import Mathlib.Tactic.Ring

namespace Umpi

open Foundation Iovec

section Views

variable {base : Loc} {iovec : Iovec}

@[simp] theorem streamLocs_zero (first : Int) : streamLocs base iovec first 0 = [] := rfl

theorem streamLocs_succ (first : Int) (count : Nat) :
    streamLocs base iovec first (count + 1) =
      streamLocs base iovec first count ++ elementLocs base iovec (first + count) := by
  simp [streamLocs, List.range_succ]

theorem streamLocs_one (first : Int) :
    streamLocs base iovec first 1 = elementLocs base iovec first := by
  simp [streamLocs]

/-- The elements of a view one after the other. -/
theorem streamLocs_eq_flatMap (base : Loc) (iovec : Iovec) (first : Int) (count : Nat) :
    streamLocs base iovec first count =
      (List.range count).flatMap fun j : Nat => elementLocs base iovec (first + j) := by
  induction count with
  | zero => rfl
  | succ count ih => rw [streamLocs_succ, ih, List.range_succ, List.flatMap_append, List.flatMap_singleton]

/-- The view of consecutive elements in two parts. -/
theorem streamLocs_add (first : Int) (count more : Nat) :
    streamLocs base iovec first (count + more) =
      streamLocs base iovec first count ++ streamLocs base iovec (first + count) more := by
  induction more with
  | zero => simp
  | succ more ih =>
      rw [← Nat.add_assoc, streamLocs_succ, ih, streamLocs_succ, List.append_assoc]
      congr 3
      push_cast
      ring

theorem length_elementLocs (wellFormed : iovec.WellFormed) (index : Int) :
    (elementLocs base iovec index).length = iovec.len := by
  rw [elementLocs, List.length_map, wellFormed.length_typeMap]

variable (base) in
theorem length_streamLocs (wellFormed : iovec.WellFormed) (first : Int) (count : Nat) :
    (streamLocs base iovec first count).length = count * iovec.len := by
  induction count with
  | zero => simp
  | succ count ih =>
      rw [streamLocs_succ, List.length_append, ih, length_elementLocs wellFormed, Nat.succ_mul]

/-- The first elements of a longer view. -/
theorem take_streamLocs (wellFormed : iovec.WellFormed) (first : Int) {count all : Nat}
    (fits : count ≤ all) :
    (streamLocs base iovec first all).take (count * iovec.len) =
      streamLocs base iovec first count := by
  obtain ⟨more, rfl⟩ := Nat.exists_eq_add_of_le fits
  rw [streamLocs_add, ← length_streamLocs base wellFormed first count]
  exact List.take_left

/-- Views that start at the same element begin with the same bytes. -/
theorem take_streamLocs_eq (wellFormed : iovec.WellFormed) (first : Int) {count count' bytes : Nat}
    (fits : bytes ≤ count * iovec.len) (fits' : bytes ≤ count' * iovec.len) :
    (streamLocs base iovec first count).take bytes = (streamLocs base iovec first count').take bytes := by
  have longer : ∀ {count all : Nat}, count ≤ all → bytes ≤ count * iovec.len →
      (streamLocs base iovec first count).take bytes = (streamLocs base iovec first all).take bytes := by
    intro count all small enough
    rw [← take_streamLocs wellFormed first small, List.take_take, Nat.min_eq_left enough]
  rcases Nat.le_total count count' with small | small
  · exact longer small fits
  · exact (longer small fits').symm

/-- A byte of an element lies in the stretch of the element. -/
theorem mem_elementLocs (wellFormed : iovec.WellFormed) {index : Int} {location : Loc}
    (member : location ∈ elementLocs base iovec index) :
    location.region = base.region ∧ base.addr + index * iovec.stride ≤ location.addr ∧
      location.addr < base.addr + (index + 1) * iovec.stride := by
  obtain ⟨offset, listed, rfl⟩ := List.mem_map.mp member
  have bounds := wellFormed.mem_typeMap listed
  refine ⟨rfl, ?_, ?_⟩
  · rw [Loc.shift_addr]
    omega
  · rw [Loc.shift_addr, Int.add_mul, Int.one_mul]
    omega

theorem mem_streamLocs_iff {first : Int} {count : Nat} {location : Loc} :
    location ∈ streamLocs base iovec first count ↔
      ∃ j < count, location ∈ elementLocs base iovec (first + j) := by
  simp [streamLocs]

/-- An element's view is part of the view of any range that contains it. -/
theorem elementLocs_subset {first : Int} {count : Nat} {index : Int} (low : first ≤ index)
    (high : index < first + count) :
    elementLocs base iovec index ⊆ streamLocs base iovec first count := by
  intro location member
  refine mem_streamLocs_iff.mpr ⟨(index - first).toNat, by omega, ?_⟩
  rwa [show first + ((index - first).toNat : Int) = index by omega]

/-- The view of a part of the elements is part of the view of all of them. -/
theorem streamLocs_subset {first first' : Int} {count count' : Nat} (low : first' ≤ first)
    (high : first + count ≤ first' + count') :
    streamLocs base iovec first count ⊆ streamLocs base iovec first' count' := by
  intro location member
  obtain ⟨j, below, element⟩ := mem_streamLocs_iff.mp member
  exact elementLocs_subset (by omega) (by omega) element

/-- Views into different stretches of memory are disjoint. -/
theorem disjoint_of_region (wellFormed : iovec.WellFormed) {base' : Loc} {iovec' : Iovec}
    (wellFormed' : iovec'.WellFormed) (apart : base.region ≠ base'.region) (first first' : Int)
    (count count' : Nat) :
    (streamLocs base iovec first count).Disjoint (streamLocs base' iovec' first' count') := by
  intro location member member'
  obtain ⟨j, -, element⟩ := mem_streamLocs_iff.mp member
  obtain ⟨j', -, element'⟩ := mem_streamLocs_iff.mp member'
  exact apart ((mem_elementLocs wellFormed element).1.symm.trans
    (mem_elementLocs wellFormed' element').1)

/-- Different elements of one buffer do not share a byte. -/
theorem disjoint_elementLocs (wellFormed : iovec.WellFormed) {index index' : Int}
    (different : index < index') :
    (elementLocs base iovec index).Disjoint (elementLocs base iovec index') := by
  intro location member member'
  obtain ⟨-, low, high⟩ := mem_elementLocs wellFormed member
  obtain ⟨-, low', -⟩ := mem_elementLocs wellFormed member'
  have strideNonneg : 0 ≤ iovec.stride := by
    have spread : (index + 1) * iovec.stride = index * iovec.stride + iovec.stride := by ring
    omega
  have : (index + 1) * iovec.stride ≤ index' * iovec.stride :=
    Int.mul_le_mul_of_nonneg_right different strideNonneg
  omega

/-- Separate ranges of elements of one buffer do not share a byte. -/
theorem disjoint_streamLocs (wellFormed : iovec.WellFormed) {first first' : Int}
    {count count' : Nat} (before : first + count ≤ first') :
    (streamLocs base iovec first count).Disjoint (streamLocs base iovec first' count') := by
  intro location member member'
  obtain ⟨j, below, element⟩ := mem_streamLocs_iff.mp member
  obtain ⟨j', -, element'⟩ := mem_streamLocs_iff.mp member'
  exact disjoint_elementLocs wellFormed (by omega) element element'

theorem nodup_elementLocs (apart : iovec.NonOverlapping) (index : Int) :
    (elementLocs base iovec index).Nodup := by
  refine List.Nodup.map_on ?_ apart
  intro offset _ offset' _ same
  have := Loc.shift_inj.mp same
  omega

/-- A view of a nonoverlapping type lists every location once. -/
theorem nodup_streamLocs (wellFormed : iovec.WellFormed) (apart : iovec.NonOverlapping)
    (first : Int) (count : Nat) : (streamLocs base iovec first count).Nodup := by
  induction count with
  | zero => simp
  | succ count ih =>
      rw [streamLocs_succ]
      refine List.Nodup.append ih (nodup_elementLocs apart _) ?_
      rw [← streamLocs_one]
      exact disjoint_streamLocs wellFormed (by omega)

end Views

/-! ### The segment lists of a transfer -/

section Segments

variable {base : Loc} {iovec : Iovec}

@[simp] theorem iovLocs_singleton (segment : Iov) :
    iovLocs [segment] = (List.range segment.len).map fun i : Nat => segment.base.shift i := by
  simp [iovLocs]

theorem length_iovLocs (segments : List Iov) : (iovLocs segments).length = iovLen segments := by
  simp [iovLocs, iovLen, List.length_flatMap]

/-- A contiguous type's view is one stretch of bytes. -/
theorem streamLocs_basic {kind : UmpiId} {length : Nat} (notScattered : kind ≠ .scattered)
    (bounded : length < 2 ^ 63) (first : Int) (count : Nat) :
    streamLocs base (basic kind length) first count =
      (List.range (count * length)).map fun i : Nat => base.shift (first * length + i) := by
  induction count with
  | zero => simp
  | succ count ih =>
      rw [streamLocs_succ, ih, Nat.succ_mul, List.range_add, List.map_append, elementLocs,
        typeMap_basic notScattered, stride_basic notScattered bounded, List.map_map, List.map_map]
      congr 1
      apply List.map_congr_left
      intro i _
      simp only [Function.comp_apply]
      congr 1
      push_cast
      ring

/-- The segments of a scattered type list its view. -/
theorem iovLocs_sideIov_scattered {strideBytes : Int} {parts : List UmpiIovec} (lo hi : Int)
    (total : Nat) :
    iovLocs (sideIov base (ofSegments strideBytes parts) lo hi total) =
      streamLocs base (ofSegments strideBytes parts) lo (hi - lo).toNat := by
  rw [sideIov, if_pos scattered_ofSegments, iovLocs, List.flatMap_assoc, streamLocs]
  congr 1
  funext j
  rw [elementLocs, typeMap_ofSegments, List.map_flatMap, segments_ofSegments, List.flatMap_map]
  congr 1
  funext e
  rw [List.map_map]
  apply List.map_congr_left
  intro i _
  simp only [Function.comp_apply, Loc.shift_shift, stride_ofSegments, Int.add_assoc]

theorem iovLocs_sideIov_basic {kind : UmpiId} {length : Nat} (notScattered : kind ≠ .scattered)
    (lo hi : Int) (total : Nat) :
    iovLocs (sideIov base (basic kind length) lo hi total) =
      (List.range total).map fun i : Nat => base.shift (lo * length + i) := by
  have single : sideIov base (basic kind length) lo hi total =
      [{ base := base.shift (lo * length), len := total }] := by
    rw [sideIov, scattered_basic notScattered, len_basic notScattered]
    rfl
  rw [single, iovLocs_singleton]
  simp only [Loc.shift_shift]

/-- However the type is laid out, the first `total` bytes of the segments are the first `total` bytes
    of the view, as long as the elements have that many. -/
theorem take_iovLocs_sideIov (wellFormed : iovec.WellFormed) (lo hi : Int) {total : Nat}
    (fits : total ≤ (hi - lo).toNat * iovec.len) :
    (iovLocs (sideIov base iovec lo hi total)).take total =
      (streamLocs base iovec lo (hi - lo).toNat).take total := by
  cases wellFormed with
  | basic kind length notScattered bounded =>
      rw [len_basic notScattered] at fits
      rw [iovLocs_sideIov_basic notScattered, streamLocs_basic notScattered bounded,
        ← List.map_take, ← List.map_take, List.take_range, List.take_range, min_self,
        min_eq_left fits]
  | scattered strideBytes parts => rw [iovLocs_sideIov_scattered]

/-- The segments hold at least `total` bytes as long as the elements do. -/
theorem le_iovLen_sideIov (wellFormed : iovec.WellFormed) (lo hi : Int) {total : Nat}
    (fits : total ≤ (hi - lo).toNat * iovec.len) :
    total ≤ iovLen (sideIov base iovec lo hi total) := by
  rw [← length_iovLocs]
  cases wellFormed with
  | basic kind length notScattered bounded =>
      simp [iovLocs_sideIov_basic notScattered]
  | scattered strideBytes parts inside bounded =>
      rw [iovLocs_sideIov_scattered, length_streamLocs _ (.scattered _ _ inside bounded)]
      exact fits

/-- The segments of exactly `count` elements hold exactly their bytes. -/
theorem iovLen_sideIov (wellFormed : iovec.WellFormed) (lo : Int) (count : Nat) :
    iovLen (sideIov base iovec lo (lo + count) (count * iovec.len)) = count * iovec.len := by
  rw [← length_iovLocs]
  cases wellFormed with
  | basic kind length notScattered bounded =>
      simp [iovLocs_sideIov_basic notScattered]
  | scattered strideBytes parts inside bounded =>
      rw [iovLocs_sideIov_scattered, length_streamLocs _ (.scattered _ _ inside bounded)]
      simp

/-- The segments of exactly `count` elements list exactly their view. -/
theorem iovLocs_sideIov (wellFormed : iovec.WellFormed) (lo : Int) (count : Nat) :
    (iovLocs (sideIov base iovec lo (lo + count) (count * iovec.len))).take (count * iovec.len) =
      streamLocs base iovec lo count := by
  have elements : (lo + count - lo).toNat = count := by omega
  rw [take_iovLocs_sideIov wellFormed lo (lo + count) (by rw [elements]), elements]
  exact take_streamLocs wellFormed lo le_rfl

end Segments

end Umpi
