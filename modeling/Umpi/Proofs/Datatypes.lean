/-
Module: Umpi.Proofs.Datatypes
Layer: Proofs
Purpose: What the datatype constructors produce. The arithmetic of the constructors is that of `size_t` and
  `ptrdiff_t`; each constructor gets one lemma that says for which arguments its array is a well-formed
  datatype over the exact integers and, for the two that place blocks, holds the blocks asked for.
Imports: Umpi.Model.Datatypes, Umpi.Proofs.Transfers
Trusted boundary: none
Main exports: TypeCall.Correct, TypeCall.Refused, TypeCall.Fits, type_constructors_iff, Built,
  Built.wellFormed
Open obligations: none
-/
import Umpi.Model.Datatypes
import Umpi.Proofs.Transfers
import Mathlib.Algebra.BigOperators.Ring.Finset

namespace Umpi

/-! ### The statement -/

/-- The arguments have the types of the C interface, and the handles of a struct are not null: the source
    dereferences them without a check. -/
def TypeCall.Typed : TypeCall → Prop
  | contiguous count _ => IsInt count
  | hindexed count _ _ _ => IsInt count
  | struct count _ _ types => IsInt count ∧
      ∀ handles, types = some handles → ∀ i < count.toNat, ∃ iovec, handles i = some iovec
  | resized _ _ extent => IsPtrdiff extent

/-- The segments of an array are the blocks asked for, over the integers. -/
def Places (count : Int) (blocklengths displacements : Nat → Int) (oldLen : Nat → Nat)
    (iovec : Iovec) : Prop :=
  iovec.segments.map (fun segment => (segment.dis, (segment.len : Int))) =
    (List.range count.toNat).map fun i => (displacements i, blocklengths i * oldLen i)

/-- What the call asks of the segments. -/
def TypeCall.Asks : TypeCall → Iovec → Prop
  | hindexed count (some blocklengths) (some displacements) (some oldtype), iovec =>
      Places count blocklengths displacements (fun _ => oldtype.len) iovec
  | struct count (some blocklengths) (some displacements) (some types), iovec =>
      Places count blocklengths displacements (fun i => MpiDatatype.len (types i)) iovec
  | _, _ => True

/-- A constructor that succeeds produces a well-formed type with the segments asked for, and otherwise it
    returns `MPI_FAIL`. -/
def Construction.Sound (asks : Iovec → Prop) : Construction → Prop
  | fail => True
  | success iovec => iovec.WellFormed ∧ asks iovec
  | terminated => False
  | undefined => False

/-- The call does so. -/
def TypeCall.Correct (umpi newtype : Bool) (call : TypeCall) : Prop :=
  (call.run umpi newtype).Sound call.Asks

/-- A block that is refused: it has no elements or starts before the element. -/
def RefusedBlock (blocklengths displacements : Nat → Int) (i : Nat) : Prop :=
  blocklengths i = 0 ∨ displacements i < 0

/-- The calls that the checks refuse. -/
def TypeCall.Refused (umpi newtype : Bool) : TypeCall → Prop
  | contiguous _ oldtype => umpi = false ∨ newtype = false ∨ oldtype = none
  | hindexed count (some blocklengths) (some displacements) (some oldtype) =>
      umpi = false ∨ newtype = false ∨ count = 0 ∨ oldtype.scattered = true ∨
        ∃ i < count.toNat, RefusedBlock blocklengths displacements i
  | hindexed _ _ _ _ => True
  | struct count (some blocklengths) (some displacements) (some types) =>
      umpi = false ∨ newtype = false ∨ count = 0 ∨
        ∃ i < count.toNat, RefusedBlock blocklengths displacements i ∨
          ∃ iovec, types i = some iovec ∧ iovec.scattered = true
  | struct _ _ _ _ => True
  | resized oldtype lb extent => umpi = false ∨ newtype = false ∨ lb ≠ 0 ∨
      ∀ iovec, oldtype = some iovec → extent < iovec.stride

/-- Blocks whose sizes and ends fit the machine integers: none of them has a negative size. -/
structure BlocksFit (count : Int) (blocklengths displacements : Nat → Int) (oldLen : Nat → Nat) :
    Prop where
  positive : 0 ≤ count
  entries : IsInt (count + 2)
  sizes : ∀ i < count.toNat, 0 ≤ blocklengths i * oldLen i
  ends : ∀ i < count.toNat, displacements i + blocklengths i * oldLen i < 2 ^ 63
  sum : ((List.range count.toNat).map fun i => blocklengths i * (oldLen i : Int)).sum < 2 ^ 64

/-- Repetitions of a scattered type whose products fit the machine integers. `recorded` is what `size_t` leaves
    of the number of segments. Where that is the number itself, it is a whole number of copies, they end within
    the stride, and the last condition says that the product of the lengths does not wrap either. -/
structure RepeatFits (count : Int) (iovec : Iovec) (recorded : Nat) : Prop where
  segments : recorded = (count * iovec.count) % 2 ^ 64
  entries : Allocatable (recorded + 2)
  whole : iovec.count ∣ recorded
  stride : IsPtrdiff (count * iovec.stride)
  inside : recorded ≠ 0 → ∀ segment ∈ iovec.segments, segment.dis + segment.len ≤ count * iovec.stride
  len : (count * iovec.len) % 2 ^ 64 = (recorded / iovec.count * iovec.len : Nat)

/-- The arguments that the arithmetic of the constructor is right for. -/
def TypeCall.Fits : TypeCall → Prop
  | contiguous count (some iovec) =>
      if iovec.scattered then ∃ recorded, RepeatFits count iovec recorded
      else (count * iovec.len) % 2 ^ 64 < 2 ^ 63
  | hindexed count (some blocklengths) (some displacements) (some oldtype) =>
      BlocksFit count blocklengths displacements fun _ => oldtype.len
  | struct count (some blocklengths) (some displacements) (some types) =>
      BlocksFit count blocklengths displacements fun i => MpiDatatype.len (types i)
  | _ => True

/-! ### Arrays -/

namespace Iovec

theorem wellFormed_basic_iff {len : Nat} : (basic .contiguous len).WellFormed ↔ len < 2 ^ 63 := by
  constructor
  · intro wellFormed
    generalize array : basic .contiguous len = iovec at wellFormed
    cases wellFormed with
    | basic id len' notScattered bounded =>
        simp only [basic, List.cons.injEq, UmpiIovec.mk.injEq] at array
        rw [array.1.2]
        exact bounded
    | scattered stride segments => simp [basic, ofSegments] at array
  · exact WellFormed.basic .contiguous len (by decide)

/-- A header and an extent entry announce their segments exactly when the type is well formed. -/
theorem wellFormed_scattered_iff {recorded len : Nat} {stride : Int} {segments : List UmpiIovec} :
    WellFormed ({ dis := UmpiId.scattered.toDis, len := recorded } :: { dis := stride, len := len } ::
        segments) ↔
      recorded = segments.length ∧ len = (segments.map UmpiIovec.len).sum ∧
        (∀ segment ∈ segments, 0 ≤ segment.dis ∧ segment.dis + segment.len ≤ stride) ∧
        stride < 2 ^ 63 := by
  constructor
  · intro wellFormed
    generalize array : ({ dis := UmpiId.scattered.toDis, len := recorded } ::
      { dis := stride, len := len } :: segments : Iovec) = iovec at wellFormed
    cases wellFormed with
    | basic id len' => simp [basic] at array
    | scattered stride' segments' inside bounded =>
        simp only [ofSegments, List.cons.injEq, UmpiIovec.mk.injEq] at array
        obtain ⟨⟨-, header⟩, ⟨sameStride, sum⟩, rfl⟩ := array
        subst sameStride
        exact ⟨header, sum, inside, bounded⟩
  · rintro ⟨rfl, rfl, inside, bounded⟩
    exact WellFormed.scattered stride segments inside bounded

theorem segments_of_header {recorded len : Nat} {stride : Int} {segments : List UmpiIovec}
    (stored : recorded = segments.length) :
    Iovec.segments ({ dis := UmpiId.scattered.toDis, len := recorded } ::
      { dis := stride, len := len } :: segments) = segments := by
  subst stored
  have array : Iovec.size ({ dis := UmpiId.scattered.toDis, len := segments.length } ::
      { dis := stride, len := len } :: segments) = segments.length + 2 := rfl
  rw [Iovec.segments, array]
  simp [Iovec.scattered, Iovec.id]

end Iovec

/-! ### Blocks -/

/-- One turn of the loop over the blocks. -/
def addBlock (total : Int × Nat) (block : UmpiIovec) : Int × Nat :=
  (max (ptrdiff (sizeT (block.dis + block.len))) total.1, sizeT (total.2 + block.len))

theorem sumBlocks_eq (blocks : List UmpiIovec) : sumBlocks blocks = blocks.foldl addBlock (0, 0) := rfl

/-- The sum is that of the lengths, as a `size_t`. -/
theorem foldl_addBlock_sum (blocks : List UmpiIovec) (total : Int × Nat) (bounded : total.2 < 2 ^ 64) :
    (blocks.foldl addBlock total).2 = (total.2 + (blocks.map UmpiIovec.len).sum) % 2 ^ 64 := by
  induction blocks generalizing total with
  | nil => exact (Nat.mod_eq_of_lt bounded).symm
  | cons block blocks ih =>
      have added : (addBlock total block).2 = (total.2 + block.len) % 2 ^ 64 := by
        simp only [addBlock, sizeT]
        omega
      have small : (addBlock total block).2 < 2 ^ 64 := by
        rw [added]
        exact Nat.mod_lt _ (by norm_num)
      rw [List.foldl_cons, ih _ small, added, List.map_cons, List.sum_cons, Nat.mod_add_mod, Nat.add_assoc]

theorem ptrdiff_lt (x : Int) : ptrdiff x < 2 ^ 63 := by
  have bound := Int.bmod_lt (x := x) (m := 2 ^ 64) (by norm_num)
  unfold ptrdiff
  omega

/-- The stride never shrinks, covers every block and is a `ptrdiff_t`. -/
theorem foldl_addBlock_stride (blocks : List UmpiIovec) (total : Int × Nat) (bounded : total.1 < 2 ^ 63) :
    total.1 ≤ (blocks.foldl addBlock total).1 ∧ (blocks.foldl addBlock total).1 < 2 ^ 63 ∧
      ∀ block ∈ blocks,
        ptrdiff (sizeT (block.dis + block.len)) ≤ (blocks.foldl addBlock total).1 := by
  induction blocks generalizing total with
  | nil => exact ⟨le_refl _, bounded, by simp⟩
  | cons block blocks ih =>
      have small : (addBlock total block).1 < 2 ^ 63 :=
        Int.max_lt.mpr ⟨ptrdiff_lt _, bounded⟩
      obtain ⟨grows, below, covers⟩ := ih _ small
      rw [List.foldl_cons]
      refine ⟨le_trans (Int.le_max_right _ _) grows, below, ?_⟩
      intro other member
      rcases List.mem_cons.mp member with same | later
      · rw [same]
        exact le_trans (Int.le_max_left _ _) grows
      · exact covers other later

theorem sumBlocks_sum (blocks : List UmpiIovec) :
    (sumBlocks blocks).2 = (blocks.map UmpiIovec.len).sum % 2 ^ 64 := by
  rw [sumBlocks_eq, foldl_addBlock_sum blocks (0, 0) (by norm_num), Nat.zero_add]

theorem sumBlocks_stride_lt (blocks : List UmpiIovec) : (sumBlocks blocks).1 < 2 ^ 63 :=
  (foldl_addBlock_stride blocks (0, 0) (by norm_num)).2.1

/-- A block that ends within the range of `ptrdiff_t` ends within the stride. -/
theorem le_sumBlocks_stride {blocks : List UmpiIovec} {block : UmpiIovec} (member : block ∈ blocks)
    (start : 0 ≤ block.dis) (bounded : block.dis + block.len < 2 ^ 63) :
    block.dis + block.len ≤ (sumBlocks blocks).1 := by
  have covered := (foldl_addBlock_stride blocks (0, 0) (by norm_num)).2.2 block member
  have exactEnd : ptrdiff (sizeT (block.dis + block.len)) = block.dis + block.len := by
    rw [sizeT_of_range (by omega) (by omega)]
    exact ptrdiff_of_range (by omega) bounded
  rw [← exactEnd]
  exact covered

section Blocks

variable {count : Int} {blocklengths displacements : Nat → Int} {oldLen : Nat → Nat}

/-- The segments that the loop stores for the blocks. -/
def storedBlocks (count : Int) (blocklengths displacements : Nat → Int) (oldLen : Nat → Nat) :
    List UmpiIovec :=
  (List.range count.toNat).map fun i =>
    { dis := displacements i, len := sizeT (blocklengths i * oldLen i) }

theorem createBlocks_success (positive : 0 ≤ count) (entries : IsInt (count + 2)) :
    createBlocks count blocklengths displacements oldLen =
      .success
        ({ dis := UmpiId.scattered.toDis, len := count.toNat } ::
          { dis := (sumBlocks (storedBlocks count blocklengths displacements oldLen)).1
            len := (sumBlocks (storedBlocks count blocklengths displacements oldLen)).2 } ::
          storedBlocks count blocklengths displacements oldLen) := by
  have large : ¬ count + 2 < 0 := by omega
  unfold createBlocks
  rw [if_neg (not_not.mpr entries), if_neg large, if_neg (not_lt.mpr positive)]
  rfl

/-- An array of blocks is only made of a count that is not negative. -/
theorem createBlocks_entries {asks : Iovec → Prop}
    (sound : (createBlocks count blocklengths displacements oldLen).Sound asks) :
    0 ≤ count ∧ IsInt (count + 2) := by
  unfold createBlocks at sound
  by_cases entries : IsInt (count + 2)
  · rw [if_neg (not_not.mpr entries)] at sound
    by_cases large : count + 2 < 0
    · rw [if_pos large] at sound
      exact absurd sound id
    · rw [if_neg large] at sound
      by_cases negative : count < 0
      · rw [if_pos negative] at sound
        exact absurd sound id
      · exact ⟨not_lt.mp negative, entries⟩
  · rw [if_pos entries] at sound
    exact absurd sound id

theorem length_storedBlocks :
    (storedBlocks count blocklengths displacements oldLen).length = count.toNat := by
  simp [storedBlocks]

theorem mem_storedBlocks {block : UmpiIovec} :
    block ∈ storedBlocks count blocklengths displacements oldLen ↔
      ∃ i < count.toNat,
        block = { dis := displacements i, len := sizeT (blocklengths i * oldLen i) } := by
  simp only [storedBlocks, List.mem_map, List.mem_range]
  constructor
  · rintro ⟨i, below, rfl⟩
    exact ⟨i, below, rfl⟩
  · rintro ⟨i, below, rfl⟩
    exact ⟨i, below, rfl⟩

/-- The stored blocks are the ones asked for exactly when no size is cut. -/
theorem storedBlocks_placed_iff :
    (storedBlocks count blocklengths displacements oldLen).map
        (fun segment => (segment.dis, (segment.len : Int))) =
      (List.range count.toNat).map (fun i => (displacements i, blocklengths i * (oldLen i : Int))) ↔
    ∀ i < count.toNat, (sizeT (blocklengths i * oldLen i) : Int) = blocklengths i * oldLen i := by
  rw [storedBlocks, List.map_map, List.map_inj_left]
  simp only [List.mem_range, Function.comp_apply, Prod.mk.injEq, true_and]

/-- Sizes that are not cut add up to the sum over the integers. -/
theorem sum_storedBlocks
    (exactSizes : ∀ i < count.toNat,
      (sizeT (blocklengths i * oldLen i) : Int) = blocklengths i * oldLen i) :
    ((((storedBlocks count blocklengths displacements oldLen).map UmpiIovec.len).sum : Nat) : Int) =
      ((List.range count.toNat).map fun i => blocklengths i * (oldLen i : Int)).sum := by
  rw [storedBlocks, List.map_map, Nat.cast_list_sum, List.map_map]
  congr 1
  refine List.map_congr_left ?_
  intro i member
  exact exactSizes i (List.mem_range.mp member)

/-- What is left of the loop's arithmetic when the blocks do not start before the element. -/
theorem createBlocks_sound_iff (starts : ∀ i < count.toNat, 0 ≤ displacements i) :
    (createBlocks count blocklengths displacements oldLen).Sound
        (Places count blocklengths displacements oldLen) ↔
      BlocksFit count blocklengths displacements oldLen := by
  constructor
  · intro sound
    obtain ⟨positive, entries⟩ := createBlocks_entries sound
    rw [createBlocks_success positive entries] at sound
    obtain ⟨wellFormed, placed⟩ := sound
    obtain ⟨-, sum, inside, bounded⟩ := Iovec.wellFormed_scattered_iff.mp wellFormed
    rw [Places, Iovec.segments_of_header length_storedBlocks.symm] at placed
    have exactSizes := storedBlocks_placed_iff.mp placed
    have ends : ∀ i < count.toNat, displacements i + blocklengths i * oldLen i < 2 ^ 63 := by
      intro i below
      have covered := (inside _ (mem_storedBlocks.mpr ⟨i, below, rfl⟩)).2
      rw [exactSizes i below] at covered
      exact lt_of_le_of_lt covered bounded
    refine ⟨positive, entries, ?_, ends, ?_⟩
    · intro i below
      rw [← exactSizes i below]
      exact Int.natCast_nonneg _
    · have total : (sumBlocks (storedBlocks count blocklengths displacements oldLen)).2 < 2 ^ 64 := by
        rw [sumBlocks_sum]
        exact Nat.mod_lt _ (by norm_num)
      rw [sum] at total
      rw [← sum_storedBlocks exactSizes]
      exact_mod_cast total
  · intro fit
    have exactSizes : ∀ i < count.toNat,
        (sizeT (blocklengths i * oldLen i) : Int) = blocklengths i * oldLen i := by
      intro i below
      have start := starts i below
      have ends := fit.ends i below
      exact sizeT_of_range (fit.sizes i below) (by omega)
    rw [createBlocks_success fit.positive fit.entries]
    refine ⟨Iovec.wellFormed_scattered_iff.mpr
      ⟨length_storedBlocks.symm, ?_, ?_, sumBlocks_stride_lt _⟩, ?_⟩
    · rw [sumBlocks_sum]
      refine Nat.mod_eq_of_lt ?_
      have total := fit.sum
      rw [← sum_storedBlocks exactSizes] at total
      exact_mod_cast total
    · intro block member
      obtain ⟨i, below, rfl⟩ := mem_storedBlocks.mp member
      have covered := le_sumBlocks_stride member (starts i below)
        (by rw [exactSizes i below]; exact fit.ends i below)
      exact ⟨starts i below, covered⟩
    · rw [Places, Iovec.segments_of_header length_storedBlocks.symm]
      exact storedBlocks_placed_iff.mpr exactSizes

end Blocks

/-! ### Repetitions -/

/-- The copies fill the array exactly when it has room for a whole number of them. -/
theorem copySegments_eq {segments : List UmpiIovec} (nonempty : 0 < segments.length) {fuel left : Nat}
    (enough : left ≤ fuel) :
    copySegments segments fuel left =
      if segments.length ∣ left then some (List.replicate (left / segments.length) segments).flatten
      else none := by
  induction fuel generalizing left with
  | zero =>
      obtain rfl : left = 0 := by omega
      simp [copySegments]
  | succ fuel ih =>
      cases left with
      | zero => simp [copySegments]
      | succ left =>
          unfold copySegments
          by_cases fits : segments.length ≤ left + 1
          · rw [if_pos fits, ih (by omega)]
            have divides : segments.length ∣ left + 1 - segments.length ↔ segments.length ∣ left + 1 :=
              Nat.dvd_sub_iff_left fits (Nat.dvd_refl _)
            by_cases whole : segments.length ∣ left + 1
            · have one : (left + 1) / segments.length = (left + 1 - segments.length) / segments.length + 1 :=
                Nat.div_eq_sub_div nonempty fits
              rw [if_pos (divides.mpr whole), if_pos whole, one, List.replicate_succ, List.flatten_cons]
              rfl
            · rw [if_neg fun still => whole (divides.mp still), if_neg whole]
              rfl
          · rw [if_neg fits, if_neg fun whole => fits (Nat.le_of_dvd (Nat.succ_pos left) whole)]

/-- The same for any segments, when no entries are asked for of none. -/
theorem copySegments_newcount {segments : List UmpiIovec} {recorded : Nat}
    (empty : segments.length = 0 → recorded = 0) :
    copySegments segments recorded recorded =
      if segments.length ∣ recorded then
        some (List.replicate (recorded / segments.length) segments).flatten
      else none := by
  rcases Nat.eq_zero_or_pos segments.length with none | nonempty
  · rw [none, empty none]
    simp [copySegments]
  · exact copySegments_eq nonempty le_rfl

theorem mem_replicate_flatten {segments : List UmpiIovec} {times : Nat} {segment : UmpiIovec} :
    segment ∈ (List.replicate times segments).flatten ↔ times ≠ 0 ∧ segment ∈ segments := by
  simp only [List.mem_flatten, List.mem_replicate]
  constructor
  · rintro ⟨list, ⟨some, rfl⟩, member⟩
    exact ⟨some, member⟩
  · rintro ⟨some, member⟩
    exact ⟨segments, ⟨some, rfl⟩, member⟩

theorem sum_replicate_flatten (segments : List UmpiIovec) (times : Nat) :
    ((List.replicate times segments).flatten.map UmpiIovec.len).sum =
      times * (segments.map UmpiIovec.len).sum := by
  rw [List.map_flatten, List.map_replicate, List.sum_flatten, List.map_replicate, List.sum_replicate_nat]

theorem length_replicate_flatten {segments : List UmpiIovec} {recorded : Nat}
    (whole : segments.length ∣ recorded) :
    (List.replicate (recorded / segments.length) segments).flatten.length = recorded := by
  rw [List.length_flatten, List.map_replicate, List.sum_replicate_nat]
  exact Nat.div_mul_cancel whole

section Repeat

variable {count strideBytes : Int} {parts : List UmpiIovec}

theorem natCast_sizeT (x : Int) : (sizeT x : Int) = x % 2 ^ 64 := by
  unfold sizeT
  omega

/-- An array of copies, when it can be made. -/
theorem repeatScattered_success {recorded : Nat} (segments : recorded = (count * parts.length) % 2 ^ 64)
    (entries : Allocatable (recorded + 2)) (whole : parts.length ∣ recorded)
    (stride : IsPtrdiff (count * strideBytes)) :
    (Iovec.ofSegments strideBytes parts).repeatScattered count =
      .success
        ({ dis := UmpiId.scattered.toDis, len := recorded } ::
          { dis := count * strideBytes
            len := sizeT (count * ((parts.map UmpiIovec.len).sum : Nat)) } ::
          (List.replicate (recorded / parts.length) parts).flatten) := by
  have newcount : sizeT (count * (parts.length : Int)) = recorded := by
    have cast := natCast_sizeT (count * (parts.length : Int))
    rw [← segments] at cast
    exact_mod_cast cast
  have small : recorded + 2 < 2 ^ 64 := by
    unfold Allocatable entryBytes at entries
    omega
  have allocated : sizeT ((recorded : Int) + 2) = recorded + 2 := by
    have cast : ((recorded : Int) + 2) = ((recorded + 2 : Nat) : Int) := by push_cast; rfl
    rw [cast, sizeT_natCast small]
  have empty : parts.length = 0 → recorded = 0 := by
    intro none
    rw [none] at whole
    exact Nat.eq_zero_of_zero_dvd whole
  unfold Iovec.repeatScattered
  simp only [Iovec.count_ofSegments, Iovec.stride_ofSegments, Iovec.len_ofSegments,
    Iovec.segments_ofSegments, newcount, allocated]
  rw [if_neg (not_not.mpr entries), if_neg (by
    rintro (few | overflow)
    · omega
    · exact overflow stride), copySegments_newcount empty, if_pos whole]

/-- Copies are only made when the array can exist, is filled exactly and its stride can be computed. -/
theorem repeatScattered_entries {asks : Iovec → Prop}
    (sound : ((Iovec.ofSegments strideBytes parts).repeatScattered count).Sound asks) :
    ∃ recorded : Nat, recorded = (count * parts.length) % 2 ^ 64 ∧ Allocatable (recorded + 2) ∧
      parts.length ∣ recorded ∧ IsPtrdiff (count * strideBytes) := by
  refine ⟨sizeT (count * parts.length), natCast_sizeT _, ?_⟩
  unfold Iovec.repeatScattered at sound
  simp only [Iovec.count_ofSegments, Iovec.stride_ofSegments, Iovec.segments_ofSegments] at sound
  have empty : parts.length = 0 → sizeT (count * (parts.length : Int)) = 0 := by
    intro none
    rw [none]
    simp
  have below : sizeT (count * (parts.length : Int)) < 2 ^ 64 := by
    unfold sizeT
    omega
  generalize sizeT (count * (parts.length : Int)) = recorded at sound empty below
  by_cases allocatable : Allocatable (sizeT ((recorded : Int) + 2))
  · rw [if_neg (not_not.mpr allocatable)] at sound
    by_cases impossible : sizeT ((recorded : Int) + 2) < 2 ∨ ¬ IsPtrdiff (count * strideBytes)
    · rw [if_pos impossible] at sound
      exact absurd sound id
    · rw [if_neg impossible, copySegments_newcount empty] at sound
      obtain ⟨room, stride⟩ := not_or.mp impossible
      have exactEntries : sizeT ((recorded : Int) + 2) = recorded + 2 := by
        unfold sizeT at room ⊢
        omega
      rw [exactEntries] at allocatable
      by_cases whole : parts.length ∣ recorded
      · exact ⟨allocatable, whole, not_not.mp stride⟩
      · rw [if_neg whole] at sound
        exact absurd sound id
  · rw [if_pos allocatable] at sound
    exact absurd sound id

/-- Which repetitions of a scattered type are well formed. -/
theorem repeatScattered_sound_iff
    (inside : ∀ segment ∈ parts, 0 ≤ segment.dis ∧ segment.dis + segment.len ≤ strideBytes) :
    ((Iovec.ofSegments strideBytes parts).repeatScattered count).Sound (fun _ => True) ↔
      ∃ recorded, RepeatFits count (Iovec.ofSegments strideBytes parts) recorded := by
  constructor
  · intro sound
    obtain ⟨recorded, segments, entries, whole, stride⟩ := repeatScattered_entries sound
    rw [repeatScattered_success segments entries whole stride] at sound
    obtain ⟨-, len, ends, -⟩ := Iovec.wellFormed_scattered_iff.mp sound.1
    refine ⟨recorded, segments, entries, whole, stride, ?_, ?_⟩
    · intro some segment member
      rw [Iovec.segments_ofSegments] at member
      have copied : recorded / parts.length ≠ 0 := by
        intro none
        exact some (by rw [← Nat.div_mul_cancel whole, none, Nat.zero_mul])
      exact (ends segment (mem_replicate_flatten.mpr ⟨copied, member⟩)).2
    · rw [Iovec.len_ofSegments, Iovec.count_ofSegments, ← natCast_sizeT, len, sum_replicate_flatten]
  · rintro ⟨recorded, fit⟩
    have segments : (recorded : Int) = (count * parts.length) % 2 ^ 64 := fit.segments
    have whole : parts.length ∣ recorded := fit.whole
    have stride : IsPtrdiff (count * strideBytes) := fit.stride
    rw [repeatScattered_success segments fit.entries whole stride]
    refine ⟨Iovec.wellFormed_scattered_iff.mpr
      ⟨(length_replicate_flatten whole).symm, ?_, ?_, stride.2⟩, trivial⟩
    · have len := fit.len
      rw [Iovec.len_ofSegments, Iovec.count_ofSegments, ← natCast_sizeT] at len
      rw [sum_replicate_flatten]
      exact_mod_cast len
    · intro segment member
      obtain ⟨copied, member⟩ := mem_replicate_flatten.mp member
      have some : recorded ≠ 0 := by
        intro none
        exact copied (by rw [none, Nat.zero_div])
      have ends := fit.inside some segment (by rw [Iovec.segments_ofSegments]; exact member)
      exact ⟨(inside segment member).1, ends⟩

end Repeat

/-! ### The constructors -/

section Calls

variable {umpi newtype : Bool} {count lb extent : Int} {iovec : Iovec} {oldtype : MpiDatatype}
  {blocklengths displacements : Nat → Int} {types : Nat → MpiDatatype}

/-- `MPI_Type_contiguous` of arguments that are not refused. -/
theorem contiguous_correct_iff (old : iovec.WellFormed)
    (accepted : ¬ (TypeCall.contiguous count (some iovec)).Refused umpi newtype) :
    (TypeCall.contiguous count (some iovec)).Correct umpi newtype ↔
      (TypeCall.contiguous count (some iovec)).Fits := by
  have ready : ¬ (¬ umpi = true ∨ ¬ newtype = true) := by
    rintro (missing | missing)
    · exact accepted (Or.inl (Bool.eq_false_iff.mpr missing))
    · exact accepted (Or.inr (Or.inl (Bool.eq_false_iff.mpr missing)))
  unfold TypeCall.Correct TypeCall.run mpiTypeContiguous TypeCall.Fits
  simp only
  rw [if_neg ready, Iovec.contiguous_eq_not_scattered]
  cases old with
  | basic id len notScattered bounded =>
      rw [Iovec.scattered_basic notScattered, Iovec.len_basic notScattered]
      simp only [Bool.not_false, if_true, Bool.false_eq_true, if_false]
      rw [← natCast_sizeT]
      constructor
      · intro sound
        have small := Iovec.wellFormed_basic_iff.mp sound.1
        exact_mod_cast small
      · intro small
        refine ⟨Iovec.wellFormed_basic_iff.mpr ?_, trivial⟩
        exact_mod_cast small
  | scattered stride segments inside bounded =>
      rw [Iovec.scattered_ofSegments]
      simp only [Bool.not_true, Bool.false_eq_true, if_false, if_true]
      exact repeatScattered_sound_iff inside

/-- `MPI_Type_create_hindexed` of arguments that are not refused. -/
theorem hindexed_correct_iff
    (accepted : ¬ (TypeCall.hindexed count (some blocklengths) (some displacements) (some iovec)).Refused
      umpi newtype) :
    (TypeCall.hindexed count (some blocklengths) (some displacements) (some iovec)).Correct umpi newtype ↔
      (TypeCall.hindexed count (some blocklengths) (some displacements) (some iovec)).Fits := by
  simp only [TypeCall.Refused, not_or, not_exists, not_and, Bool.not_eq_false] at accepted
  obtain ⟨initialized, given, nonzero, contiguous, blocks⟩ := accepted
  have starts : ∀ i < count.toNat, 0 ≤ displacements i := by
    intro i below
    by_contra negative
    exact blocks i below (Or.inr (not_le.mp negative))
  have checked : ¬ ((List.range count.toNat).any fun i =>
      decide (blocklengths i = 0 ∨ displacements i < 0)) = true := by
    intro found
    obtain ⟨i, below, refused⟩ := List.any_eq_true.mp found
    have reason : blocklengths i = 0 ∨ displacements i < 0 := of_decide_eq_true refused
    exact blocks i (List.mem_range.mp below) reason
  have ready : ¬ (¬ umpi = true ∨ count = 0 ∨ iovec.scattered = true ∨ ¬ newtype = true) := by
    rintro (missing | zero | scattered | missing)
    · exact missing initialized
    · exact nonzero zero
    · exact contiguous scattered
    · exact missing given
  unfold TypeCall.Correct TypeCall.run mpiTypeCreateHindexed
  simp only
  rw [if_neg ready, if_neg checked]
  exact createBlocks_sound_iff starts

/-- The check of a struct passes when no block and no type is refused. -/
theorem refuseBlocks_passes {indices : List Nat}
    (handles : ∀ i ∈ indices, ∃ iovec, types i = some iovec)
    (blocks : ∀ i ∈ indices, ¬ RefusedBlock blocklengths displacements i)
    (contiguous : ∀ i ∈ indices, ∀ iovec, types i = some iovec → ¬ iovec.scattered = true) :
    refuseBlocks blocklengths displacements types indices = some false := by
  induction indices with
  | nil => rfl
  | cons i indices ih =>
      obtain ⟨iovec, handle⟩ := handles i List.mem_cons_self
      have block : ¬ (blocklengths i = 0 ∨ displacements i < 0) := blocks i List.mem_cons_self
      unfold refuseBlocks
      rw [if_neg block, handle]
      simp only
      rw [if_neg (contiguous i List.mem_cons_self iovec handle)]
      exact ih (fun j later => handles j (List.mem_cons_of_mem _ later))
        (fun j later => blocks j (List.mem_cons_of_mem _ later))
        fun j later => contiguous j (List.mem_cons_of_mem _ later)

/-- The check of a struct refuses when a block or a type is refused. -/
theorem refuseBlocks_refuses {indices : List Nat}
    (handles : ∀ i ∈ indices, ∃ iovec, types i = some iovec)
    (refused : ∃ i ∈ indices, RefusedBlock blocklengths displacements i ∨
      ∃ iovec, types i = some iovec ∧ iovec.scattered = true) :
    refuseBlocks blocklengths displacements types indices = some true := by
  induction indices with
  | nil => simp at refused
  | cons i indices ih =>
      obtain ⟨iovec, handle⟩ := handles i List.mem_cons_self
      unfold refuseBlocks
      by_cases block : blocklengths i = 0 ∨ displacements i < 0
      · rw [if_pos block]
      · rw [if_neg block, handle]
        simp only
        by_cases scattered : iovec.scattered = true
        · rw [if_pos scattered]
        · rw [if_neg scattered]
          refine ih (fun j later => handles j (List.mem_cons_of_mem _ later)) ?_
          obtain ⟨j, member, reason⟩ := refused
          rcases List.mem_cons.mp member with same | later
          · subst same
            rcases reason with refusedBlock | ⟨other, handle', scattered'⟩
            · exact absurd refusedBlock block
            · rw [handle] at handle'
              rw [← Option.some.inj handle'] at scattered'
              exact absurd scattered' scattered
          · exact ⟨j, later, reason⟩

/-- `MPI_Type_create_struct` of arguments that are not refused. -/
theorem struct_correct_iff
    (typed : (TypeCall.struct count (some blocklengths) (some displacements) (some types)).Typed)
    (accepted : ¬ (TypeCall.struct count (some blocklengths) (some displacements) (some types)).Refused
      umpi newtype) :
    (TypeCall.struct count (some blocklengths) (some displacements) (some types)).Correct umpi newtype ↔
      (TypeCall.struct count (some blocklengths) (some displacements) (some types)).Fits := by
  simp only [TypeCall.Refused, not_or, not_exists, not_and, Bool.not_eq_false] at accepted
  obtain ⟨initialized, given, nonzero, blocks⟩ := accepted
  have starts : ∀ i < count.toNat, 0 ≤ displacements i := by
    intro i below
    by_contra negative
    exact (blocks i below).1 (Or.inr (not_le.mp negative))
  have checked : refuseBlocks blocklengths displacements types (List.range count.toNat) = some false :=
    refuseBlocks_passes (fun i member => typed.2 types rfl i (List.mem_range.mp member))
      (fun i member => (blocks i (List.mem_range.mp member)).1)
      fun i member iovec handle => (blocks i (List.mem_range.mp member)).2 iovec handle
  have ready : ¬ (¬ umpi = true ∨ count = 0 ∨ ¬ newtype = true) := by
    rintro (missing | zero | missing)
    · exact missing initialized
    · exact nonzero zero
    · exact missing given
  unfold TypeCall.Correct TypeCall.run mpiTypeCreateStruct
  simp only
  rw [if_neg ready, checked]
  exact createBlocks_sound_iff starts

/-- `MPI_Type_create_resized` always produces a well-formed type. -/
theorem resized_correct (typed : IsPtrdiff extent)
    (old : ∀ iovec, oldtype = some iovec → iovec.WellFormed) :
    (TypeCall.resized oldtype lb extent).Correct umpi newtype := by
  unfold TypeCall.Correct TypeCall.run mpiTypeCreateResized
  cases oldtype with
  | none => exact trivial
  | some iovec =>
      simp only
      by_cases refused : ¬ umpi = true ∨ lb ≠ 0 ∨ extent < iovec.stride ∨ ¬ newtype = true
      · rw [if_pos refused]
        exact trivial
      · rw [if_neg refused, Iovec.contiguous_eq_not_scattered]
        have covers : iovec.stride ≤ extent := by
          by_contra short
          exact refused (Or.inr (Or.inr (Or.inl (not_le.mp short))))
        cases old iovec rfl with
        | basic id len notScattered bounded =>
            rw [Iovec.stride_basic notScattered bounded] at covers
            rw [Iovec.scattered_basic notScattered, Iovec.len_basic notScattered]
            refine ⟨Iovec.wellFormed_scattered_iff.mpr ⟨rfl, rfl, ?_, typed.2⟩, trivial⟩
            intro segment member
            rw [List.mem_singleton.mp member]
            simpa using covers
        | scattered stride segments inside bounded =>
            rw [Iovec.stride_ofSegments] at covers
            rw [Iovec.scattered_ofSegments]
            have size : (Iovec.ofSegments stride segments).size = segments.length + 2 := rfl
            rw [size]
            have copied : (Iovec.ofSegments stride segments).take (segments.length + 2) =
                Iovec.ofSegments stride segments := List.take_of_length_le le_rfl
            rw [copied]
            refine ⟨Iovec.wellFormed_scattered_iff.mpr ⟨rfl, rfl, ?_, typed.2⟩, trivial⟩
            intro segment member
            obtain ⟨start, ends⟩ := inside segment member
            exact ⟨start, le_trans ends covers⟩

end Calls

/-- A refused call returns `MPI_FAIL`. -/
theorem TypeCall.Refused.run_eq {umpi newtype : Bool} {call : TypeCall} (typed : call.Typed)
    (refused : call.Refused umpi newtype) :
    call.run umpi newtype = .fail := by
  cases call with
  | contiguous count oldtype =>
      unfold TypeCall.run mpiTypeContiguous
      cases oldtype with
      | none => rfl
      | some iovec =>
          rcases refused with missing | missing | null
          · simp [missing]
          · simp [missing]
          · cases null
  | hindexed count blocklengths displacements oldtype =>
      unfold TypeCall.run mpiTypeCreateHindexed
      rcases blocklengths with - | blocklengths
      · rfl
      rcases displacements with - | displacements
      · rfl
      rcases oldtype with - | iovec
      · rfl
      rcases refused with missing | missing | zero | scattered | ⟨i, below, reason⟩
      · simp [missing]
      · simp [missing]
      · simp [zero]
      · simp [scattered]
      · have found : ((List.range count.toNat).any fun i =>
            decide (blocklengths i = 0 ∨ displacements i < 0)) = true :=
          List.any_eq_true.mpr ⟨i, List.mem_range.mpr below, decide_eq_true reason⟩
        simp only
        rw [if_pos found]
        split <;> rfl
  | struct count blocklengths displacements types =>
      unfold TypeCall.run mpiTypeCreateStruct
      rcases blocklengths with - | blocklengths
      · rfl
      rcases displacements with - | displacements
      · rfl
      rcases types with - | types
      · rfl
      rcases refused with missing | missing | zero | ⟨i, below, reason⟩
      · simp [missing]
      · simp [missing]
      · simp [zero]
      · have found : refuseBlocks blocklengths displacements types (List.range count.toNat) = some true :=
          refuseBlocks_refuses (fun j member => typed.2 types rfl j (List.mem_range.mp member))
            ⟨i, List.mem_range.mpr below, reason⟩
        simp only
        rw [found]
        split <;> rfl
  | resized oldtype lb extent =>
      unfold TypeCall.run mpiTypeCreateResized
      cases oldtype with
      | none => rfl
      | some iovec =>
          rcases refused with missing | missing | bound | short
          · simp [missing]
          · simp [missing]
          · simp [bound]
          · simp [short iovec rfl]

/-- A call that is not refused is correct exactly when its arguments fit. -/
theorem TypeCall.correct_iff_of_accepted {umpi newtype : Bool} {call : TypeCall} (typed : call.Typed)
    (old : ∀ iovec, call.Uses iovec → iovec.WellFormed) (accepted : ¬ call.Refused umpi newtype) :
    call.Correct umpi newtype ↔ call.Fits := by
  cases call with
  | contiguous count oldtype =>
      cases oldtype with
      | none => exact absurd (Or.inr (Or.inr rfl)) accepted
      | some iovec => exact contiguous_correct_iff (old iovec rfl) accepted
  | hindexed count blocklengths displacements oldtype =>
      rcases blocklengths with - | blocklengths
      · exact absurd trivial accepted
      rcases displacements with - | displacements
      · exact absurd trivial accepted
      rcases oldtype with - | iovec
      · exact absurd trivial accepted
      exact hindexed_correct_iff accepted
  | struct count blocklengths displacements types =>
      rcases blocklengths with - | blocklengths
      · exact absurd trivial accepted
      rcases displacements with - | displacements
      · exact absurd trivial accepted
      rcases types with - | types
      · exact absurd trivial accepted
      exact struct_correct_iff typed accepted
  | resized oldtype lb extent => exact iff_of_true (resized_correct typed old) trivial

/-! ### Types made by a program -/

/-- The types that calls with fitting arguments make, nested in any order, from predefined types. -/
inductive Built (umpi newtype : Bool) : Iovec → Prop where
  | predefined (id : UmpiId) (len : Nat) (notScattered : id ≠ .scattered) (bounded : len < 2 ^ 63) :
      Built umpi newtype (Iovec.basic id len)
  | call (call : TypeCall) (typed : call.Typed) (old : ∀ iovec, call.Uses iovec → Built umpi newtype iovec)
      (fits : call.Fits) {iovec : Iovec} (made : call.run umpi newtype = .success iovec) :
      Built umpi newtype iovec

/-- All of them are well formed. -/
theorem Built.wellFormed {umpi newtype : Bool} {iovec : Iovec} (built : Built umpi newtype iovec) :
    iovec.WellFormed := by
  induction built with
  | predefined id len notScattered bounded => exact .basic id len notScattered bounded
  | call call typed old fits made ih =>
      have accepted : ¬ call.Refused umpi newtype := by
        intro refused
        rw [refused.run_eq typed] at made
        cases made
      have correct := (TypeCall.correct_iff_of_accepted typed ih accepted).mpr fits
      rw [TypeCall.Correct, made] at correct
      exact correct.1

/-- A constructor produces a well-formed type with the blocks asked for, or refuses with `MPI_FAIL`, exactly
    when its checks refuse the arguments or the products and sums of the arguments fit. -/
theorem type_constructors_iff (umpi newtype : Bool) {call : TypeCall} (typed : call.Typed)
    (old : ∀ iovec, call.Uses iovec → iovec.WellFormed) :
    call.Correct umpi newtype ↔ call.Refused umpi newtype ∨ call.Fits := by
  by_cases refused : call.Refused umpi newtype
  · refine iff_of_true ?_ (Or.inl refused)
    rw [TypeCall.Correct, refused.run_eq typed]
    exact trivial
  · rw [TypeCall.correct_iff_of_accepted typed old refused]
    exact (or_iff_right refused).symm

/-- Two blocks of characters, three at 0 and one at 5, are made as they are asked for. -/
theorem type_constructors_twoBlocks :
    (TypeCall.hindexed 2 (some fun i => if i = 0 then 3 else 1) (some fun i => 5 * i)
        (some (Iovec.basic .char 1))).Correct true true := by
  have typed : (TypeCall.hindexed 2 (some fun i => if i = 0 then 3 else 1) (some fun i => 5 * i)
      (some (Iovec.basic .char 1))).Typed := (by decide : IsInt 2)
  have fits : BlocksFit 2 (fun i => if i = 0 then 3 else 1) (fun i => 5 * i) fun _ => (Iovec.basic .char 1).len :=
    { positive := by decide
      entries := by decide
      sizes := by decide
      ends := by decide
      sum := by decide }
  refine (type_constructors_iff true true typed ?_).mpr (Or.inr fits)
  rintro iovec ⟨⟩
  exact .basic _ _ (by decide) (by decide)

/-- A block of -1 characters is not refused. The type that is made claims to hold `SIZE_MAX` bytes within a
    stride of 0. -/
theorem type_constructors_negative :
    (TypeCall.hindexed 1 (some fun _ => -1) (some fun _ => 0) (some (Iovec.basic .char 1))).run true true =
        .success [{ dis := 1, len := 1 }, { dis := 0, len := 2 ^ 64 - 1 }, { dis := 0, len := 2 ^ 64 - 1 }] ∧
      ¬ (TypeCall.hindexed 1 (some fun _ => -1) (some fun _ => 0)
        (some (Iovec.basic .char 1))).Correct true true := by
  have made : (TypeCall.hindexed 1 (some fun _ => -1) (some fun _ => 0)
      (some (Iovec.basic .char 1))).run true true =
        .success [{ dis := 1, len := 1 }, { dis := 0, len := 2 ^ 64 - 1 }, { dis := 0, len := 2 ^ 64 - 1 }] := by
    decide +kernel
  refine ⟨made, ?_⟩
  intro correct
  rw [TypeCall.Correct, made] at correct
  have inside := (Iovec.wellFormed_scattered_iff.mp correct.1).2.2.1
  exact absurd (inside _ List.mem_cons_self).2 (by decide)

end Umpi
