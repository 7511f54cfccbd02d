/-
Module: Umpi.Proofs.Repetition
Layer: Proofs
Purpose: `MPI_Type_contiguous` as repetition. Its lengths and strides are those of consecutive elements of the
  old type, nested to any depth, but for a scattered type the copied segments keep their displacements. The
  type maps are compared, and what equal type maps mean for the functions that move data.
Imports: Umpi.Proofs.Datatypes, Umpi.Proofs.Transfers
Trusted boundary: none
Main exports: contiguousNest, NoOverflow, Repeats, streamLocs_of_offsets, contiguous_repeats_iff
Open obligations: none
-/
import Umpi.Proofs.Datatypes
import Umpi.Proofs.Transfers

namespace Umpi

open Foundation

/-- `MPI_Type_contiguous` applied to its own result, once for each count, from the first count on. -/
def contiguousNest (iovec : Iovec) : List Int → Construction
  | [] => .success iovec
  | count :: counts =>
      match mpiTypeContiguous true true count (some iovec) with
      | .success made => contiguousNest made counts
      | .fail => .fail
      | .terminated => .terminated
      | .undefined => .undefined

/-- The products for `times` elements do not overflow: the data length is a `size_t`, the stride a
    `ptrdiff_t`, and an array of all the segments can exist. -/
structure NoOverflow (iovec : Iovec) (times : Nat) : Prop where
  len : times * iovec.len < 2 ^ 64
  stride : IsPtrdiff (times * iovec.stride)
  entries : Allocatable (times * iovec.count + 2)

/-- The byte offsets of `times` consecutive elements in stream order. -/
def repeatedMap (iovec : Iovec) (times : Nat) : List Int :=
  (List.range times).flatMap fun j : Nat => iovec.typeMap.map fun offset => j * iovec.stride + offset

/-- Moving elements of the new type and moving `times` as many of the old one are the same. -/
structure MovesAlike (old new : Iovec) (times : Nat) : Prop where
  bytes : ∀ base (first : Int) count,
    streamLocs base new first count = streamLocs base old (first * times) (count * times)
  sent : ∀ (vm : ProcessVm), CopiesAll vm → ∀ (target : Datatype) mem base base' (count room : Nat)
    (skip seek : Int), room * target.len < 2 ^ 64 → count * new.len < 2 ^ 63 →
    count * new.len ≤ room * target.len →
      umpiCopy vm mem base new count skip base' target.iovec room seek =
        umpiCopy vm mem base old (count * times : Nat) (skip * times) base' target.iovec room seek
  received : ∀ (vm : ProcessVm), CopiesAll vm → ∀ (source : Datatype) mem base base' (count room : Nat)
    (skip seek : Int), room * new.len < 2 ^ 64 → count * source.len < 2 ^ 63 →
    count * source.len ≤ room * new.len →
      umpiCopy vm mem base source.iovec count skip base' new room seek =
        umpiCopy vm mem base source.iovec count skip base' old (room * times : Nat) (seek * times)
  written : ∀ (vm : ProcessVm), CopiesAll vm → ∀ (w : World) id (target : Datatype) base
    (count seek size : Nat) (skip : Int), (w.cookies id).iovec = target.iovec →
    (w.cookies id).size = size → size * target.len < 2 ^ 64 → count * new.len < 2 ^ 63 →
    seek * target.len + count * new.len ≤ size * target.len →
      w.writeToOwner vm id base new count seek skip =
        w.writeToOwner vm id base old (count * times : Nat) seek (skip * times)
  read : ∀ (vm : ProcessVm), CopiesAll vm → ∀ (w : World) id (source : Datatype) base
    (count room seek skip owned : Nat), 0 < count → (w.cookies id).iovec = source.iovec →
    (w.cookies id).size = owned → room * times < 2 ^ 31 → owned * source.len < 2 ^ 64 →
    room * new.len < 2 ^ 64 → count * new.len < 2 ^ 63 →
    skip * source.len + count * new.len ≤ owned * source.len →
    seek * new.len + count * new.len ≤ room * new.len →
      w.readFromOwner vm id base new room count seek skip =
        w.readFromOwner vm id base old (room * times : Nat) (count * times : Nat) (seek * times : Nat) skip

/-- A type is the repetition of another: its type map is that of consecutive elements, and data moves to and
    from it as to and from these. -/
structure Repeats (old new : Iovec) (times : Nat) : Prop where
  offsets : new.typeMap = repeatedMap old times
  moves : MovesAlike old new times

section Views

variable {old new : Iovec} {times : Nat}

/-- One element of the new type covers the bytes of the consecutive elements. -/
theorem elementLocs_of_offsets (stride : new.stride = times * old.stride)
    (offsets : new.typeMap = repeatedMap old times) (base : Loc) (index : Int) :
    elementLocs base new index = streamLocs base old (index * times) times := by
  rw [streamLocs_eq_flatMap, elementLocs, offsets, repeatedMap, List.map_flatMap]
  congr 1
  funext j
  rw [List.map_map, elementLocs]
  congr 1
  funext offset
  have address : index * new.stride + (j * old.stride + offset) =
      (index * times + j) * old.stride + offset := by
    rw [stride]
    ring
  simp only [Function.comp_apply, address]

theorem streamLocs_of_offsets (stride : new.stride = times * old.stride)
    (offsets : new.typeMap = repeatedMap old times) (base : Loc) (first : Int) (count : Nat) :
    streamLocs base new first count = streamLocs base old (first * times) (count * times) := by
  induction count with
  | zero => simp
  | succ count ih =>
      have next : (first + count) * (times : Int) = first * times + (count * times : Nat) := by
        push_cast
        ring
      rw [streamLocs_succ, ih, elementLocs_of_offsets stride offsets, next, Nat.succ_mul, streamLocs_add]

/-- Reading elements without data moves nothing. -/
theorem readFromOwner_empty {vm : ProcessVm} (copies : CopiesAll vm) {w : World} {id : Nat} {iovec : Iovec}
    (wellFormed : iovec.WellFormed) (empty : iovec.len = 0) {base : Loc} {source : Datatype}
    {count room seek skip owned : Nat} (positive : 0 < count) (iovecEq : (w.cookies id).iovec = source.iovec)
    (sizeEq : (w.cookies id).size = owned) (ownedBytes : owned * source.len < 2 ^ 64)
    (has : skip * source.len ≤ owned * source.len) :
    w.readFromOwner vm id base iovec room count seek skip = .ok (w.finishTransfer id mpiSuccess 0) := by
  have asked : (count : Int) ≠ 0 := by omega
  have here : iovLen (sideIov base iovec seek (seek + count) 0) = 0 := by
    have none : iovLen (sideIov base iovec seek (seek + count) (count * iovec.len)) = count * iovec.len :=
      iovLen_sideIov wellFormed seek count
    rw [empty, Nat.mul_zero] at none
    exact none
  have owns : sizeT ((owned : Int) * (source.iovec.len : Int)) = owned * source.len := sizeT_mul ownedBytes
  have skips : sizeT ((skip : Int) * (source.iovec.len : Int)) = skip * source.len :=
    sizeT_mul (lt_of_le_of_lt has ownedBytes)
  have inside : ¬ (owned * source.len < skip * source.len ∨ 0 < 0) := by omega
  unfold World.readFromOwner
  simp only [empty, iovecEq, sizeEq]
  rw [if_neg fun missing => asked missing.1, if_pos asked]
  simp only [Nat.cast_zero, Int.mul_zero, Int.add_zero, sizeT_zero, owns, skips]
  rw [if_neg inside, copies, here, Nat.zero_min]
  rfl

/-- Equal type maps make the transfers equal. -/
theorem Repeats.of_offsets (wellFormed : old.WellFormed) (wellFormed' : new.WellFormed)
    (positive : 0 < times) (len : new.len = times * old.len) (stride : new.stride = times * old.stride)
    (offsets : new.typeMap = repeatedMap old times) : Repeats old new times := by
  have bytes := streamLocs_of_offsets stride offsets
  have total : ∀ count, count * new.len = count * times * old.len := by
    intro count
    rw [len, Nat.mul_assoc]
  refine ⟨offsets, bytes, ?_, ?_, ?_, ?_⟩
  case refine_1 =>
    intro vm copies target mem base base' count room skip seek roomBytes bytesBound fits
    rw [umpiCopy_eq copies wellFormed' target.wellFormed mem skip seek roomBytes bytesBound fits, bytes]
    rw [total] at bytesBound fits ⊢
    rw [umpiCopy_eq copies wellFormed target.wellFormed mem _ seek roomBytes bytesBound fits]
  case refine_2 =>
    intro vm copies source mem base base' count room skip seek roomBytes bytesBound fits
    rw [umpiCopy_eq copies source.wellFormed wellFormed' mem skip seek roomBytes bytesBound fits, bytes]
    rw [total] at roomBytes fits
    rw [umpiCopy_eq copies source.wellFormed wellFormed mem skip _ roomBytes bytesBound fits]
  case refine_3 =>
    intro vm copies w id target base count seek size skip iovec room roomBytes bytesBound fits
    rw [writeToOwner_moves base copies wellFormed' target.wellFormed target.lenPos rfl skip rfl iovec room
      roomBytes bytesBound fits, bytes]
    rw [total] at bytesBound fits ⊢
    rw [writeToOwner_moves base copies wellFormed target.wellFormed target.lenPos rfl _ rfl iovec room
      roomBytes bytesBound fits]
  case refine_4 =>
    intro vm copies w id source base count room seek skip owned some iovec size roomInt ownedBytes roomBytes
      bytesBound has fits
    have asked : requested count owned skip source.iovec.len new.len = count :=
      if_pos (Nat.ne_of_gt some)
    have asked' : requested (count * times) owned skip source.iovec.len old.len = count * times :=
      if_pos (Nat.ne_of_gt (Nat.mul_pos some positive))
    rcases Nat.eq_zero_or_pos new.len with empty | lenPos
    · have empty' : old.len = 0 := by
        rw [len] at empty
        exact (Nat.mul_eq_zero.mp empty).resolve_left (Nat.ne_of_gt positive)
      rw [empty, Nat.mul_zero, Nat.add_zero] at has
      rw [readFromOwner_empty copies wellFormed' empty some iovec size ownedBytes has,
        readFromOwner_empty copies wellFormed empty' (Nat.mul_pos some positive) iovec size ownedBytes has]
    · have lenPos' : 0 < old.len := by
        rw [len] at lenPos
        exact Nat.pos_of_mul_pos_left lenPos
      have roomInt' : room < 2 ^ 31 := lt_of_le_of_lt (Nat.le_mul_of_pos_right room positive) roomInt
      rw [readFromOwner_eq base copies wellFormed' source.wellFormed lenPos source.lenPos rfl rfl rfl rfl iovec
        size roomInt' ownedBytes roomBytes (by rw [asked]; exact bytesBound) (by rw [asked]; exact has)
        (by rw [asked]; exact fits), asked, bytes]
      rw [total] at roomBytes bytesBound has ⊢
      rw [total, total, total] at fits
      rw [readFromOwner_eq base copies wellFormed source.wellFormed lenPos' source.lenPos rfl rfl rfl rfl iovec
        size roomInt ownedBytes roomBytes (by rw [asked']; exact bytesBound) (by rw [asked']; exact has)
        (by rw [asked']; exact fits), asked', Int.natCast_mul seek times]

end Views

/-! ### The arrays -/

/-- The number of elements of the old type in one element of the nested type. -/
def repetitions (counts : List Int) : Nat := (counts.map Int.toNat).prod

theorem repetitions_pos {counts : List Int} (positive : ∀ count ∈ counts, 1 ≤ count) :
    0 < repetitions counts := by
  induction counts with
  | nil => exact Nat.one_pos
  | cons count counts ih =>
      have head := positive count List.mem_cons_self
      have tail := ih fun other member => positive other (List.mem_cons_of_mem _ member)
      have first : 0 < count.toNat := by omega
      exact Nat.mul_pos first tail

theorem repetitions_eq_one_iff {counts : List Int} (positive : ∀ count ∈ counts, 1 ≤ count) :
    repetitions counts = 1 ↔ ∀ count ∈ counts, count = 1 := by
  induction counts with
  | nil => simp [repetitions]
  | cons count counts ih =>
      have head := positive count List.mem_cons_self
      have tail := ih fun other member => positive other (List.mem_cons_of_mem _ member)
      have product : repetitions (count :: counts) = count.toNat * repetitions counts := rfl
      rw [product, List.forall_mem_cons, ← tail]
      constructor
      · intro one
        have first := Nat.eq_one_of_mul_eq_one_right one
        have others := Nat.eq_one_of_mul_eq_one_left one
        exact ⟨by omega, others⟩
      · rintro ⟨rfl, others⟩
        rw [others]
        rfl

section Scattered

variable {strideBytes : Int} {parts : List UmpiIovec} {times : Nat}

theorem replicate_replicate_flatten (parts : List UmpiIovec) (times more : Nat) :
    (List.replicate more (List.replicate times parts).flatten).flatten =
      (List.replicate (times * more) parts).flatten := by
  induction more with
  | zero => simp
  | succ more ih =>
      rw [List.replicate_succ', List.flatten_append, ih, List.flatten_singleton, Nat.mul_succ,
        List.replicate_add, List.flatten_append]

/-- The repetition of a scattered type holds copies of its segments. -/
theorem contiguous_scattered (fits : NoOverflow (Iovec.ofSegments strideBytes parts) times) :
    mpiTypeContiguous true true times (some (Iovec.ofSegments strideBytes parts)) =
      .success (Iovec.ofSegments (times * strideBytes) (List.replicate times parts).flatten) := by
  have entries : Allocatable (times * parts.length + 2) := fits.entries
  have small : times * parts.length < 2 ^ 64 := by
    unfold Allocatable entryBytes at entries
    omega
  have segments : ((times * parts.length : Nat) : Int) = ((times : Int) * parts.length) % 2 ^ 64 := by
    rw [← Int.natCast_mul]
    omega
  have copies : (List.replicate (times * parts.length / parts.length) parts).flatten =
      (List.replicate times parts).flatten := by
    rcases Nat.eq_zero_or_pos parts.length with none | some
    · rw [List.length_eq_zero_iff.mp none]
      simp
    · rw [Nat.mul_div_cancel _ some]
  have len : sizeT ((times : Int) * ((parts.map UmpiIovec.len).sum : Nat)) =
      times * (parts.map UmpiIovec.len).sum := sizeT_mul fits.len
  have made : (Iovec.ofSegments strideBytes parts).repeatScattered times = _ :=
    repeatScattered_success segments entries (Nat.dvd_mul_left _ _) fits.stride
  have length : (List.replicate times parts).flatten.length = times * parts.length := by
    rw [List.length_flatten, List.map_replicate, List.sum_replicate_nat]
  rw [copies, len, ← sum_replicate_flatten, ← length] at made
  exact made

/-- A part of the repetitions does not overflow when all of them do not. -/
theorem NoOverflow.part {iovec : Iovec} {more : Nat} (fits : NoOverflow iovec (times * more))
    (some : 0 < more) : NoOverflow iovec times := by
  have fewer : times ≤ times * more := Nat.le_mul_of_pos_right times some
  obtain ⟨low, high⟩ := fits.stride
  refine ⟨?_, ?_, ?_⟩
  · exact lt_of_le_of_lt (Nat.mul_le_mul_right _ fewer) fits.len
  · have fewer' : (times : Int) ≤ (times * more : Nat) := by exact_mod_cast fewer
    rcases le_total 0 iovec.stride with forward | backward
    · have below := Int.mul_le_mul_of_nonneg_right fewer' forward
      have start := Int.mul_nonneg (Int.natCast_nonneg times) forward
      exact ⟨by omega, by omega⟩
    · have above := Int.mul_le_mul_of_nonpos_right fewer' backward
      have start := Int.mul_nonpos_of_nonneg_of_nonpos (Int.natCast_nonneg times) backward
      exact ⟨by omega, by omega⟩
  · have entries := fits.entries
    have fewerEntries := Nat.mul_le_mul_right iovec.count fewer
    unfold Allocatable entryBytes at entries ⊢
    omega

/-- The new type and the rest of the repetitions do not overflow either. -/
theorem NoOverflow.rest {more : Nat}
    (fits : NoOverflow (Iovec.ofSegments strideBytes parts) (times * more)) :
    NoOverflow (Iovec.ofSegments (times * strideBytes) (List.replicate times parts).flatten) more := by
  obtain ⟨len, stride, entries⟩ := fits
  have length : (List.replicate times parts).flatten.length = times * parts.length := by
    rw [List.length_flatten, List.map_replicate, List.sum_replicate_nat]
  refine ⟨?_, ?_, ?_⟩
  · rw [Iovec.len_ofSegments, sum_replicate_flatten, ← Nat.mul_assoc, Nat.mul_comm more]
    exact len
  · rw [Iovec.stride_ofSegments, ← Int.mul_assoc, Int.mul_comm more, ← Int.natCast_mul]
    exact stride
  · rw [Iovec.count_ofSegments, length, ← Nat.mul_assoc, Nat.mul_comm more]
    exact entries

/-- Nested repetitions of a scattered type. -/
theorem contiguousNest_scattered {counts : List Int} (positive : ∀ count ∈ counts, 1 ≤ count)
    (fits : NoOverflow (Iovec.ofSegments strideBytes parts) (repetitions counts)) :
    contiguousNest (Iovec.ofSegments strideBytes parts) counts =
      .success (Iovec.ofSegments (repetitions counts * strideBytes)
        (List.replicate (repetitions counts) parts).flatten) := by
  induction counts generalizing strideBytes parts with
  | nil => simp [contiguousNest, repetitions]
  | cons count counts ih =>
      have head := positive count List.mem_cons_self
      have tail : ∀ other ∈ counts, 1 ≤ other := fun other member =>
        positive other (List.mem_cons_of_mem _ member)
      have product : repetitions (count :: counts) = count.toNat * repetitions counts := rfl
      rw [product] at fits ⊢
      have made := contiguous_scattered (fits.part (repetitions_pos tail))
      rw [Int.toNat_of_nonneg (by omega)] at made
      unfold contiguousNest
      rw [made]
      simp only
      have rest := fits.rest
      rw [Int.toNat_of_nonneg (by omega)] at rest
      rw [ih tail rest, replicate_replicate_flatten, Int.natCast_mul, Int.toNat_of_nonneg (by omega),
        Int.mul_assoc, Int.mul_left_comm]

end Scattered

section Basic

variable {kind : UmpiId} {length times : Nat}

/-- Nested repetitions of a contiguous type only change its length. -/
theorem contiguousNest_basic (notScattered : kind ≠ .scattered) {counts : List Int}
    (positive : ∀ count ∈ counts, 1 ≤ count) (fits : length * repetitions counts < 2 ^ 63) :
    ∃ made, made ≠ .scattered ∧
      contiguousNest (Iovec.basic kind length) counts =
        .success (Iovec.basic made (repetitions counts * length)) := by
  induction counts generalizing kind length with
  | nil => exact ⟨kind, notScattered, by simp [contiguousNest, repetitions]⟩
  | cons count counts ih =>
      have head := positive count List.mem_cons_self
      have tail : ∀ other ∈ counts, 1 ≤ other := fun other member =>
        positive other (List.mem_cons_of_mem _ member)
      have product : repetitions (count :: counts) = count.toNat * repetitions counts := rfl
      rw [product, ← Nat.mul_assoc, Nat.mul_comm length] at fits
      have part : count.toNat * length < 2 ^ 64 :=
        lt_of_le_of_lt (Nat.le_mul_of_pos_right _ (repetitions_pos tail)) (Nat.lt_trans fits (by norm_num))
      have len : sizeT (count * ((Iovec.basic kind length).len : Int)) = count.toNat * length := by
        have cast : count = (count.toNat : Int) := by omega
        rw [Iovec.len_basic notScattered, cast]
        exact sizeT_mul part
      have contiguous : (Iovec.basic kind length).contiguous = true := by
        rw [Iovec.contiguous_eq_not_scattered, Iovec.scattered_basic notScattered]
        rfl
      have made : mpiTypeContiguous true true count (some (Iovec.basic kind length)) =
          .success (Iovec.basic .contiguous (count.toNat * length)) := by
        simp [mpiTypeContiguous, contiguous, len]
      have made_notScattered : UmpiId.contiguous ≠ .scattered := by decide
      obtain ⟨last, lastKind, nested⟩ := ih made_notScattered tail fits
      refine ⟨last, lastKind, ?_⟩
      unfold contiguousNest
      rw [made]
      simp only
      rw [nested, product, Nat.mul_left_comm, ← Nat.mul_assoc]

/-- The offsets of a longer contiguous type are those of consecutive shorter ones. -/
theorem repeatedMap_basic (notScattered : kind ≠ .scattered) (bounded : length < 2 ^ 63) (times : Nat) :
    repeatedMap (Iovec.basic kind length) times =
      (List.range (times * length)).map fun i : Nat => (i : Int) := by
  induction times with
  | zero => simp [repeatedMap]
  | succ times ih =>
      have more : repeatedMap (Iovec.basic kind length) (times + 1) =
          repeatedMap (Iovec.basic kind length) times ++
            (Iovec.basic kind length).typeMap.map fun offset =>
              times * (Iovec.basic kind length).stride + offset := by
        rw [repeatedMap, List.range_succ, List.flatMap_append, List.flatMap_singleton, repeatedMap]
      rw [more, ih, Nat.succ_mul, List.range_add, List.map_append, List.map_map,
        Iovec.typeMap_basic notScattered, Iovec.stride_basic notScattered bounded, List.map_map]
      congr 1

end Basic

section Offsets

variable {strideBytes : Int} {parts : List UmpiIovec} {times : Nat}

/-- The copies of the segments have the offsets of the first element again and again. -/
theorem typeMap_replicate (strideBytes : Int) (parts : List UmpiIovec) (stride : Int) (times : Nat) :
    (Iovec.ofSegments stride (List.replicate times parts).flatten).typeMap =
      (List.replicate times (Iovec.ofSegments strideBytes parts).typeMap).flatten := by
  rw [Iovec.typeMap_ofSegments, Iovec.typeMap_ofSegments]
  induction times with
  | zero => rfl
  | succ times ih =>
      rw [List.replicate_succ, List.flatten_cons, List.flatMap_append, ih, List.replicate_succ,
        List.flatten_cons]

/-- They are the offsets of consecutive elements only if there is one element, or no offset. -/
theorem copies_eq_repeatedMap_iff (wellFormed : (Iovec.ofSegments strideBytes parts).WellFormed)
    (positive : 0 < times) :
    (List.replicate times (Iovec.ofSegments strideBytes parts).typeMap).flatten =
        repeatedMap (Iovec.ofSegments strideBytes parts) times ↔
      times = 1 ∨ (Iovec.ofSegments strideBytes parts).len = 0 := by
  have lengths := wellFormed.length_typeMap
  have inside : ∀ offset ∈ (Iovec.ofSegments strideBytes parts).typeMap, 0 ≤ offset ∧ offset < strideBytes :=
    fun offset member => wellFormed.mem_typeMap member
  unfold repeatedMap
  rw [Iovec.stride_ofSegments]
  generalize (Iovec.ofSegments strideBytes parts).typeMap = offsets at lengths inside ⊢
  rw [← lengths]
  constructor
  · intro same
    rcases times with - | - | times
    · omega
    · exact Or.inl rfl
    · refine Or.inr (List.length_eq_zero_iff.mpr ?_)
      rw [List.replicate_succ, List.replicate_succ, List.flatten_cons, List.flatten_cons, List.range_succ_eq_map,
        List.flatMap_cons, List.range_succ_eq_map, List.map_cons, List.flatMap_cons] at same
      have rest := (List.append_inj same (by simp)).2
      have second := (List.append_inj rest (by simp)).1
      cases offsets with
      | nil => rfl
      | cons offset offsets =>
          have bounds := inside offset List.mem_cons_self
          have shifted : offset = ((Nat.succ 0 : Nat) : Int) * strideBytes + offset :=
            (List.cons.inj second).1
          push_cast at shifted
          omega
  · rintro (rfl | empty)
    · simp
    · rw [List.length_eq_zero_iff.mp empty]
      simp

end Offsets

/-- A type made by `MPI_Type_contiguous`, nested to any depth, has the length and the stride of consecutive
    elements of the old type. It is their repetition exactly when the old type is contiguous, or every count is
    one, or there are no data. -/
theorem contiguous_repeats_iff {old : Iovec} (wellFormed : old.WellFormed) {counts : List Int}
    (positive : ∀ count ∈ counts, 1 ≤ count) (fits : NoOverflow old (repetitions counts)) :
    ∃ new, contiguousNest old counts = .success new ∧ new.WellFormed ∧
      new.len = repetitions counts * old.len ∧ new.stride = repetitions counts * old.stride ∧
      (Repeats old new (repetitions counts) ↔
        old.contiguous = true ∨ (∀ count ∈ counts, count = 1) ∨ old.len = 0) := by
  have times := repetitions_pos positive
  cases wellFormed with
  | basic kind length notScattered bounded =>
      have stride := fits.stride
      rw [Iovec.stride_basic notScattered bounded, ← Int.natCast_mul] at stride
      have small : repetitions counts * length < 2 ^ 63 := by exact_mod_cast stride.2
      have small' : length * repetitions counts < 2 ^ 63 := by
        rw [Nat.mul_comm]
        exact small
      obtain ⟨made, madeKind, nested⟩ := contiguousNest_basic notScattered positive small'
      have wellFormed' := Iovec.WellFormed.basic made (repetitions counts * length) madeKind small
      have len : (Iovec.basic made (repetitions counts * length)).len =
          repetitions counts * (Iovec.basic kind length).len := by
        rw [Iovec.len_basic madeKind, Iovec.len_basic notScattered]
      have strides : (Iovec.basic made (repetitions counts * length)).stride =
          repetitions counts * (Iovec.basic kind length).stride := by
        rw [Iovec.stride_basic madeKind small, Iovec.stride_basic notScattered bounded, Int.natCast_mul]
      have offsets : (Iovec.basic made (repetitions counts * length)).typeMap =
          repeatedMap (Iovec.basic kind length) (repetitions counts) := by
        rw [Iovec.typeMap_basic madeKind, repeatedMap_basic notScattered bounded]
      have contiguous : (Iovec.basic kind length).contiguous = true := by
        rw [Iovec.contiguous_eq_not_scattered, Iovec.scattered_basic notScattered]
        rfl
      refine ⟨_, nested, wellFormed', len, strides, iff_of_true ?_ (Or.inl contiguous)⟩
      exact Repeats.of_offsets (.basic kind length notScattered bounded) wellFormed' times len strides offsets
  | scattered strideBytes parts inside bounded =>
      have wellFormed := Iovec.WellFormed.scattered strideBytes parts inside bounded
      have nested := contiguousNest_scattered positive fits
      have stride : IsPtrdiff (repetitions counts * strideBytes) := fits.stride
      have reach : ∀ segment ∈ parts, segment.dis + segment.len ≤ repetitions counts * strideBytes := by
        intro segment member
        obtain ⟨start, ends⟩ := inside segment member
        have forward : 0 ≤ strideBytes := by omega
        have one : (1 : Int) ≤ repetitions counts := by exact_mod_cast times
        have grows := Int.mul_le_mul_of_nonneg_right one forward
        omega
      have wellFormed' : (Iovec.ofSegments (repetitions counts * strideBytes)
          (List.replicate (repetitions counts) parts).flatten).WellFormed := by
        refine .scattered _ _ ?_ stride.2
        intro segment member
        have old := (mem_replicate_flatten.mp member).2
        exact ⟨(inside segment old).1, reach segment old⟩
      have len : (Iovec.ofSegments (repetitions counts * strideBytes)
          (List.replicate (repetitions counts) parts).flatten).len =
            repetitions counts * (Iovec.ofSegments strideBytes parts).len := by
        rw [Iovec.len_ofSegments, Iovec.len_ofSegments, sum_replicate_flatten]
      refine ⟨_, nested, wellFormed', len, rfl, ?_⟩
      rw [← repetitions_eq_one_iff positive]
      have scattered : (Iovec.ofSegments strideBytes parts).contiguous ≠ true := by
        simp [Iovec.contiguous_eq_not_scattered]
      have copies := copies_eq_repeatedMap_iff wellFormed times
      have offsets := typeMap_replicate strideBytes parts (repetitions counts * strideBytes)
        (repetitions counts)
      constructor
      · intro repeats
        exact Or.inr (copies.mp (offsets.symm.trans repeats.offsets))
      · rintro (contiguous | condition)
        · exact absurd contiguous scattered
        · exact Repeats.of_offsets wellFormed wellFormed' times len rfl (offsets.trans (copies.mpr condition))

/-- Three elements of two integers each are six integers. -/
theorem contiguous_repeats_ints :
    ∃ new, contiguousNest (Iovec.basic .int 4) [2, 3] = .success new ∧ new.len = 24 ∧ new.stride = 24 ∧
      Repeats (Iovec.basic .int 4) new 6 := by
  have positive : ∀ count ∈ ([2, 3] : List Int), 1 ≤ count := by decide
  have fits : NoOverflow (Iovec.basic .int 4) (repetitions [2, 3]) := ⟨by decide, by decide, by decide⟩
  obtain ⟨new, nested, _, len, stride, repeats⟩ :=
    contiguous_repeats_iff (.basic .int 4 (by decide) (by decide)) positive fits
  exact ⟨new, nested, len.trans (by decide), stride.trans (by decide), repeats.mpr (Or.inl (by decide))⟩

/-- An integer in a stride of 8 bytes, twice: the second copy covers the bytes of the first. -/
theorem contiguous_repeats_resized :
    mpiTypeCreateResized true true (some (Iovec.basic .int 4)) 0 8 =
        .success (Iovec.ofSegments 8 [{ dis := 0, len := 4 }]) ∧
      mpiTypeContiguous true true 2 (some (Iovec.ofSegments 8 [{ dis := 0, len := 4 }])) =
        .success (Iovec.ofSegments 16 [{ dis := 0, len := 4 }, { dis := 0, len := 4 }]) ∧
      ¬ Repeats (Iovec.ofSegments 8 [{ dis := 0, len := 4 }])
        (Iovec.ofSegments 16 [{ dis := 0, len := 4 }, { dis := 0, len := 4 }]) 2 := by
  refine ⟨by decide, by decide, ?_⟩
  intro repeats
  have offsets := repeats.offsets
  have covered : (Iovec.ofSegments 16 [{ dis := 0, len := 4 }, { dis := 0, len := 4 }]).typeMap =
      [0, 1, 2, 3, 0, 1, 2, 3] := by decide
  have wanted : repeatedMap (Iovec.ofSegments 8 [{ dis := 0, len := 4 }]) 2 = [0, 1, 2, 3, 8, 9, 10, 11] := by
    decide
  rw [covered, wanted] at offsets
  exact absurd offsets (by decide)

end Umpi
