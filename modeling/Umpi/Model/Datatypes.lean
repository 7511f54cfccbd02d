/-
Module: Umpi.Model.Datatypes
Layer: Model
Purpose: The datatype constructors `MPI_Type_contiguous`, `MPI_Type_create_hindexed`,
  `MPI_Type_create_struct` and `MPI_Type_create_resized`: the checks of their arguments and the array they
  fill. The arguments are those of C: counts and block lengths are values of type `int`, displacements and
  extents of type `ptrdiff_t`, and array arguments are pointers that may be null. `umpi` and `newtype` say
  whether `MPI_Init` has been called and whether the pointer for the result is not null. A handle of type
  `MpiDatatype` is `none` when it, or the array in it, is null. That the heap has room for an array of a
  possible size is assumed.
Imports: Umpi.Model.Collective
Trusted boundary: human-reviewed spec
Main exports: Construction, mpiTypeContiguous, mpiTypeCreateHindexed, mpiTypeCreateStruct,
  mpiTypeCreateResized, TypeCall, TypeCall.run, TypeCall.Uses
Open obligations: none
-/
import Umpi.Model.Collective

namespace Umpi

/-- How a datatype constructor can end. -/
inductive Construction where
  /-- `MPI_FAIL`; `*newtype` is not set. -/
  | fail
  /-- `MPI_SUCCESS`; `*newtype` is a new datatype with this array. -/
  | success (iovec : Iovec)
  /-- `new` throws and nobody catches the exception. -/
  | terminated
  /-- Undefined behaviour: an access behind the array, a signed overflow or a null handle dereferenced. -/
  | undefined
deriving Repr, DecidableEq

/-- `sizeof(umpi_iovec)`. -/
def entryBytes : Nat := 16

/-- Can `new umpi_iovec[entries]` succeed? Larger arrays than `PTRDIFF_MAX` bytes cannot exist. -/
def Allocatable (entries : Nat) : Prop := entries * entryBytes < 2 ^ 63

instance (entries : Nat) : Decidable (Allocatable entries) := inferInstanceAs (Decidable (_ < _))

/-- The values of type `ptrdiff_t`. -/
def IsPtrdiff (x : Int) : Prop := -(2 ^ 63) ≤ x ∧ x < 2 ^ 63

instance (x : Int) : Decidable (IsPtrdiff x) := inferInstanceAs (Decidable (_ ∧ _))

/-- The loop of `MPI_Type_contiguous` that fills the `left` last entries of the new array with copies of the
    old segments. A copy that does not fit is an access behind the array. Every turn fills an entry, so
    `fuel` turns are enough for `fuel` entries. -/
def copySegments (segments : List UmpiIovec) : Nat → Nat → Option (List UmpiIovec)
  | _, 0 => some []
  | 0, _ + 1 => none
  | fuel + 1, left + 1 =>
      if segments.length ≤ left + 1 then
        (copySegments segments fuel (left + 1 - segments.length)).map fun rest => segments ++ rest
      else none

/-- `MPI_Type_contiguous` of a scattered type: an array of `newcount + 2` entries, the multiplications in
    `size_t` and, for the stride, in `ptrdiff_t`. -/
def Iovec.repeatScattered (count : Int) (iovec : Iovec) : Construction :=
  let oldcount := iovec.count
  let newcount := sizeT (count * oldcount)
  let entries := sizeT (newcount + 2)
  if ¬ Allocatable entries then .terminated
  else if entries < 2 ∨ ¬ IsPtrdiff (count * iovec.stride) then .undefined
  else
    match copySegments iovec.segments newcount newcount with
    | none => .undefined
    | some segments =>
        .success
          ({ dis := UmpiId.scattered.toDis, len := newcount } ::
            { dis := count * iovec.stride, len := sizeT (count * iovec.len) } :: segments)

/-- `MPI_Type_contiguous`. -/
def mpiTypeContiguous (umpi newtype : Bool) (count : Int) (oldtype : MpiDatatype) : Construction :=
  match oldtype with
  | none => .fail
  | some iovec =>
      if ¬ umpi ∨ ¬ newtype then .fail
      else if iovec.contiguous then .success (Iovec.basic .contiguous (sizeT (count * iovec.len)))
      else iovec.repeatScattered count

/-- The loop of `MPI_Type_create_hindexed` and `MPI_Type_create_struct` over the entries, with the stride
    and the sum so far. -/
def sumBlocks (blocks : List UmpiIovec) : Int × Nat :=
  blocks.foldl
    (fun (total : Int × Nat) block =>
      (max (ptrdiff (sizeT (block.dis + block.len))) total.1, sizeT (total.2 + block.len)))
    (0, 0)

/-- The array of `count` blocks, each of a number of elements of its own type. An array of one entry or none,
    which `count + 2` asks for when `count` is negative, has no room for what is written. -/
def createBlocks (count : Int) (blocklengths displacements : Nat → Int) (oldLen : Nat → Nat) :
    Construction :=
  if ¬ IsInt (count + 2) then .undefined
  else if count + 2 < 0 then .terminated
  else if count < 0 then .undefined
  else
    let blocks := (List.range count.toNat).map fun i =>
      ({ dis := displacements i, len := sizeT (blocklengths i * oldLen i) } : UmpiIovec)
    .success
      ({ dis := UmpiId.scattered.toDis, len := count.toNat } ::
        { dis := (sumBlocks blocks).1, len := (sumBlocks blocks).2 } :: blocks)

/-- `MPI_Type_create_hindexed`. -/
def mpiTypeCreateHindexed (umpi newtype : Bool) (count : Int)
    (blocklengths displacements : Option (Nat → Int)) (oldtype : MpiDatatype) : Construction :=
  match blocklengths, displacements, oldtype with
  | some blocklengths, some displacements, some iovec =>
      if ¬ umpi ∨ count = 0 ∨ iovec.scattered ∨ ¬ newtype then .fail
      else if (List.range count.toNat).any fun i => blocklengths i = 0 ∨ displacements i < 0 then .fail
      else createBlocks count blocklengths displacements fun _ => iovec.len
  | _, _, _ => .fail

/-- The check of `MPI_Type_create_struct` on the blocks `indices`, in order: is there a reason to refuse?
    `none` is a null handle dereferenced. -/
def refuseBlocks (blocklengths displacements : Nat → Int) (types : Nat → MpiDatatype) :
    List Nat → Option Bool
  | [] => some false
  | i :: indices =>
      if blocklengths i = 0 ∨ displacements i < 0 then some true
      else
        match types i with
        | none => none
        | some iovec =>
            if iovec.scattered then some true
            else refuseBlocks blocklengths displacements types indices

/-- `(*ptype)->len()` of a handle that has been dereferenced before. -/
def MpiDatatype.len (datatype : MpiDatatype) : Nat := (datatype.getD []).len

/-- `MPI_Type_create_struct`. -/
def mpiTypeCreateStruct (umpi newtype : Bool) (count : Int)
    (blocklengths displacements : Option (Nat → Int)) (types : Option (Nat → MpiDatatype)) :
    Construction :=
  match blocklengths, displacements, types with
  | some blocklengths, some displacements, some types =>
      if ¬ umpi ∨ count = 0 ∨ ¬ newtype then .fail
      else
        match refuseBlocks blocklengths displacements types (List.range count.toNat) with
        | none => .undefined
        | some true => .fail
        | some false =>
            createBlocks count blocklengths displacements fun i => MpiDatatype.len (types i)
  | _, _, _ => .fail

/-- `MPI_Type_create_resized`. -/
def mpiTypeCreateResized (umpi newtype : Bool) (oldtype : MpiDatatype) (lb extent : Int) :
    Construction :=
  match oldtype with
  | none => .fail
  | some iovec =>
      if ¬ umpi ∨ lb ≠ 0 ∨ extent < iovec.stride ∨ ¬ newtype then .fail
      else if iovec.contiguous then
        .success
          [{ dis := UmpiId.scattered.toDis, len := 1 }, { dis := extent, len := iovec.len },
            { dis := 0, len := iovec.len }]
      else
        .success ((iovec.take iovec.size).set 1 { dis := extent, len := (iovec.getD 1 default).len })

/-- A call of one of the constructors. -/
inductive TypeCall where
  | contiguous (count : Int) (oldtype : MpiDatatype)
  | hindexed (count : Int) (blocklengths displacements : Option (Nat → Int)) (oldtype : MpiDatatype)
  | struct (count : Int) (blocklengths displacements : Option (Nat → Int))
      (types : Option (Nat → MpiDatatype))
  | resized (oldtype : MpiDatatype) (lb extent : Int)

/-- What the call does. -/
def TypeCall.run (umpi newtype : Bool) : TypeCall → Construction
  | contiguous count oldtype => mpiTypeContiguous umpi newtype count oldtype
  | hindexed count blocklengths displacements oldtype =>
      mpiTypeCreateHindexed umpi newtype count blocklengths displacements oldtype
  | struct count blocklengths displacements types =>
      mpiTypeCreateStruct umpi newtype count blocklengths displacements types
  | resized oldtype lb extent => mpiTypeCreateResized umpi newtype oldtype lb extent

/-- The old types of a call. -/
def TypeCall.Uses : TypeCall → Iovec → Prop
  | contiguous _ oldtype, iovec => oldtype = some iovec
  | hindexed _ _ _ oldtype, iovec => oldtype = some iovec
  | struct count _ _ types, iovec => ∃ handles, types = some handles ∧
      ∃ i < count.toNat, handles i = some iovec
  | resized oldtype _ _, iovec => oldtype = some iovec

end Umpi
