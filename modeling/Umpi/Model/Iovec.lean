/-
Module: Umpi.Model.Iovec
Layer: Model
Purpose: `struct umpi_iovec` and the datatypes made of it. A datatype is an array of `umpi_iovec`
  entries: a basic or contiguous type has one entry, a scattered type has a header entry (identifier
  and number of segments), an extent entry (stride and data length) and its segments. The accessors are
  the member functions of the header. `WellFormed` is what a datatype constructor is meant to produce,
  and `typeMap` lists the byte offsets of one element in stream order.
Imports: Umpi.Model.Integers
Trusted boundary: human-reviewed spec
Main exports: UmpiId, UmpiIovec, Iovec, Iovec.len, Iovec.stride, Iovec.segments, Iovec.WellFormed,
  Datatype, Region, Loc, Iovec.typeMap, elementLocs, streamLocs
Open obligations: none
-/
import Umpi.Model.Integers
import Mathlib.Algebra.BigOperators.Group.List.Basic
import Mathlib.Data.List.Nodup

namespace Umpi

/-- `enum umpi_id`. -/
inductive UmpiId where
  | contiguous
  | scattered
  | packed
  | byte
  | char
  | unsignedChar
  | short
  | unsignedShort
  | int
  | unsigned
  | long
  | unsignedLong
  | float
  | double
  | longDouble
deriving Repr, DecidableEq

/-- The `ptrdiff_t` value of an enumerator. -/
def UmpiId.toDis : UmpiId → Int
  | contiguous => 0
  | scattered => 1
  | packed => 2
  | byte => 3
  | char => 4
  | unsignedChar => 5
  | short => 6
  | unsignedShort => 7
  | int => 8
  | unsigned => 9
  | long => 10
  | unsignedLong => 11
  | float => 12
  | double => 13
  | longDouble => 14

/-- One entry of a datatype array: the fields `dis_` and `len_`. -/
structure UmpiIovec where
  dis : Int := 0
  len : Nat := 0
deriving Repr, DecidableEq, Inhabited

/-- A `umpi_iovec *`: the entry it points to and the entries stored behind it. -/
abbrev Iovec := List UmpiIovec

namespace Iovec

/-- `id()`: the first entry's `dis_` read as an identifier. -/
def id (iovec : Iovec) : Int := (iovec.getD 0 default).dis

def scattered (iovec : Iovec) : Bool := iovec.id == UmpiId.scattered.toDis

def contiguous (iovec : Iovec) : Bool := iovec.id != UmpiId.scattered.toDis

/-- `size()`: the number of array entries. -/
def size (iovec : Iovec) : Nat :=
  if iovec.scattered then (iovec.getD 0 default).len + 2 else 1

/-- `count()`: the number of segments. -/
def count (iovec : Iovec) : Nat :=
  if iovec.scattered then (iovec.getD 0 default).len else 1

/-- `stride()`: the distance between two elements. -/
def stride (iovec : Iovec) : Int :=
  if iovec.contiguous then ptrdiff (iovec.getD 0 default).len else (iovec.getD 1 default).dis

/-- `len()`: the number of data bytes of one element. -/
def len (iovec : Iovec) : Nat :=
  if iovec.contiguous then (iovec.getD 0 default).len else (iovec.getD 1 default).len

/-- The entries from `begin()` up to `end()`. -/
def segments (iovec : Iovec) : List UmpiIovec :=
  (iovec.take iovec.size).drop (if iovec.scattered then 2 else 0)

/-- The array of a predefined or contiguous type. -/
def basic (id : UmpiId) (len : Nat) : Iovec := [{ dis := id.toDis, len := len }]

/-- A header, an extent entry and the segments they announce. -/
def ofSegments (stride : Int) (segments : List UmpiIovec) : Iovec :=
  { dis := UmpiId.scattered.toDis, len := segments.length } ::
    { dis := stride, len := (segments.map UmpiIovec.len).sum } :: segments

/-- The arrays that describe a datatype consistently: the recorded number of segments and data length
    are those of the stored segments, and every segment lies between the element's start and its
    stride. -/
inductive WellFormed : Iovec → Prop where
  | basic (id : UmpiId) (len : Nat) (notScattered : id ≠ .scattered) (bounded : len < 2 ^ 63) :
      WellFormed (basic id len)
  | scattered (stride : Int) (segments : List UmpiIovec)
      (inside : ∀ segment ∈ segments, 0 ≤ segment.dis ∧ segment.dis + segment.len ≤ stride)
      (bounded : stride < 2 ^ 63) :
      WellFormed (ofSegments stride segments)

/-- The byte offsets of one element in stream order. -/
def typeMap (iovec : Iovec) : List Int :=
  if iovec.scattered then
    iovec.segments.flatMap fun segment => (List.range segment.len).map fun i : Nat => segment.dis + i
  else
    (List.range iovec.len).map fun i : Nat => (i : Int)

/-- No byte of an element is covered by two segments. A buffer can only hold an arbitrary stream of
    bytes when its datatype has this property, so types that are received into must have it. -/
def NonOverlapping (iovec : Iovec) : Prop := iovec.typeMap.Nodup

instance (iovec : Iovec) : Decidable iovec.NonOverlapping :=
  inferInstanceAs (Decidable (List.Nodup _))

section Accessors

variable {kind : UmpiId} {length : Nat} {strideBytes : Int} {parts : List UmpiIovec}

theorem toDis_eq_scattered : kind.toDis = UmpiId.scattered.toDis ↔ kind = .scattered := by
  cases kind <;> simp [UmpiId.toDis]

theorem scattered_basic (notScattered : kind ≠ .scattered) :
    (basic kind length).scattered = false := by
  simpa [basic, scattered, id, toDis_eq_scattered] using notScattered

@[simp] theorem scattered_ofSegments : (ofSegments strideBytes parts).scattered = true := rfl

theorem contiguous_eq_not_scattered (iovec : Iovec) : iovec.contiguous = !iovec.scattered := rfl

theorem len_basic (notScattered : kind ≠ .scattered) : (basic kind length).len = length := by
  rw [len, contiguous_eq_not_scattered, scattered_basic notScattered]
  rfl

@[simp] theorem len_ofSegments :
    (ofSegments strideBytes parts).len = (parts.map UmpiIovec.len).sum := rfl

@[simp] theorem stride_ofSegments : (ofSegments strideBytes parts).stride = strideBytes := rfl

theorem stride_basic (notScattered : kind ≠ .scattered) (bounded : length < 2 ^ 63) :
    (basic kind length).stride = length := by
  have exactLength : ptrdiff (length : Int) = length :=
    ptrdiff_of_range (by omega) (by omega)
  rw [stride, contiguous_eq_not_scattered, scattered_basic notScattered]
  simpa only [Bool.not_false, if_true, basic, List.getD_cons_zero] using exactLength

@[simp] theorem segments_ofSegments : (ofSegments strideBytes parts).segments = parts := by
  have two : (ofSegments strideBytes parts).size = parts.length + 2 := rfl
  rw [segments, two, scattered_ofSegments]
  simp [ofSegments]

@[simp] theorem count_ofSegments : (ofSegments strideBytes parts).count = parts.length := rfl

theorem typeMap_ofSegments :
    (ofSegments strideBytes parts).typeMap =
      parts.flatMap fun segment =>
        (List.range segment.len).map fun i : Nat => (segment.dis + i : Int) := by
  rw [typeMap, scattered_ofSegments, segments_ofSegments]
  rfl

theorem typeMap_basic (notScattered : kind ≠ .scattered) :
    (basic kind length).typeMap = (List.range length).map fun i : Nat => (i : Int) := by
  simp [typeMap, scattered_basic notScattered, len_basic notScattered]

end Accessors

namespace WellFormed

variable {iovec : Iovec}

/-- The type map of a well-formed type has one offset for each data byte. -/
theorem length_typeMap (wellFormed : WellFormed iovec) : iovec.typeMap.length = iovec.len := by
  cases wellFormed with
  | basic id len notScattered =>
      simp [typeMap_basic notScattered, len_basic notScattered]
  | scattered stride segments =>
      rw [typeMap_ofSegments, len_ofSegments, List.length_flatMap]
      simp

/-- Every data byte of an element lies between the element's start and its stride. -/
theorem mem_typeMap (wellFormed : WellFormed iovec) {offset : Int}
    (member : offset ∈ iovec.typeMap) : 0 ≤ offset ∧ offset < iovec.stride := by
  cases wellFormed with
  | basic id len notScattered bounded =>
      rw [typeMap_basic notScattered] at member
      rw [stride_basic notScattered bounded]
      obtain ⟨i, below, rfl⟩ := List.mem_map.mp member
      have := List.mem_range.mp below
      omega
  | scattered stride segments inside =>
      rw [typeMap_ofSegments] at member
      obtain ⟨segment, listed, offsets⟩ := List.mem_flatMap.mp member
      obtain ⟨i, below, rfl⟩ := List.mem_map.mp offsets
      have := List.mem_range.mp below
      have bounds := inside segment listed
      rw [stride_ofSegments]
      omega

end WellFormed

end Iovec

/-- A well-formed datatype with at least one data byte. -/
structure Datatype where
  iovec : Iovec
  wellFormed : iovec.WellFormed
  lenPos : 0 < iovec.len

namespace Datatype

def len (datatype : Datatype) : Nat := datatype.iovec.len

def stride (datatype : Datatype) : Int := datatype.iovec.stride

/-- `MPI_CHAR`. -/
def mpiChar : Datatype :=
  { iovec := Iovec.basic .char 1, wellFormed := .basic _ _ (by decide) (by decide), lenPos := by decide }

/-- `MPI_INT`. -/
def mpiInt : Datatype :=
  { iovec := Iovec.basic .int 4, wellFormed := .basic _ _ (by decide) (by decide), lenPos := by decide }

/-- A datatype that can hold any stream of bytes: it has no overlapping segments. -/
def Writable (datatype : Datatype) : Prop := datatype.iovec.NonOverlapping

end Datatype

/-- The separate stretches of memory: the address space of each rank, the variable `umpi_in_place` in
    each rank, the null address, and the scratch buffers of each slot in the shared mapping. -/
inductive Region where
  | heap (rank : Nat)
  | inPlace (rank : Nat)
  | null
  | scratch (turn : Nat)
deriving Repr, DecidableEq

/-- A memory location, used for `void *` values and for the bytes they point to. -/
structure Loc where
  region : Region
  addr : Int
deriving Repr, DecidableEq

/-- Pointer arithmetic in bytes. -/
def Loc.shift (loc : Loc) (bytes : Int) : Loc := { loc with addr := loc.addr + bytes }

@[simp] theorem Loc.shift_region (loc : Loc) (bytes : Int) :
    (loc.shift bytes).region = loc.region := rfl

@[simp] theorem Loc.shift_addr (loc : Loc) (bytes : Int) :
    (loc.shift bytes).addr = loc.addr + bytes := rfl

@[simp] theorem Loc.shift_shift (loc : Loc) (first second : Int) :
    (loc.shift first).shift second = loc.shift (first + second) := by
  simp [Loc.shift, Int.add_assoc]

theorem Loc.shift_inj {loc : Loc} {first second : Int} :
    loc.shift first = loc.shift second ↔ first = second := by
  simp [Loc.shift]

/-- The memory of all processes and of the shared mapping. -/
abbrev Memory := Loc → UInt8

/-- The bytes of element `index` of a buffer, in stream order. -/
def elementLocs (base : Loc) (iovec : Iovec) (index : Int) : List Loc :=
  iovec.typeMap.map fun offset => base.shift (index * iovec.stride + offset)

/-- The bytes of `count` elements of a buffer from element `first` on, in stream order. -/
def streamLocs (base : Loc) (iovec : Iovec) (first : Int) (count : Nat) : List Loc :=
  (List.range count).flatMap fun j => elementLocs base iovec (first + j)

end Umpi
