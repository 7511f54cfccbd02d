/-
Module: Umpi.Model.Packing
Layer: Model
Purpose: `MPI_Pack`, `MPI_Unpack` and `MPI_Pack_size`. The length of an item is computed in `size_t` and kept in an
  `int`; the first two functions compare its sum with `*position`, an `int` sum, with the size of the packed buffer.
  They differ in which of their buffers that is. `umpi` says whether `MPI_Init` has been called, and a null
  `position` or `size` pointer is `none`. Packing and unpacking a list of items stops at the first call that fails.
Imports: Umpi.Foundation.ByteStream, Umpi.Model.Collective
Trusted boundary: human-reviewed spec
Main exports: byteLocs, memcpy, Packing, packedLen, mpiPack, mpiUnpack, mpiPackSize, Item, packItems, unpackItems
Open obligations: none
-/
import Umpi.Foundation.ByteStream
import Umpi.Model.Collective

namespace Umpi

open Foundation

/-- The first `bytes` bytes from a location on. -/
def byteLocs (base : Loc) (bytes : Nat) : List Loc := (List.range bytes).map fun i : Nat => base.shift i

/-- `memcpy`, for buffers that do not overlap. -/
def memcpy (mem : Memory) (target source : Loc) (bytes : Nat) : Memory :=
  copyAll mem (byteLocs source bytes) (byteLocs target bytes)

/-- What a call leaves: the value it returns, memory, and `*position`. -/
structure Packing where
  ret : Int
  mem : Memory
  position : Int

/-- `int len = incount * datatype->len()`. -/
def packedLen (count : Int) (iovec : Iovec) : Int := int32 (sizeT (count * iovec.len))

/-- The end of `MPI_Pack` and `MPI_Unpack`: the check against the size of the packed buffer, the `memcpy`, which takes
    its length as a `size_t`, and `*position += len`. -/
def movePacked (mem : Memory) (target source : Loc) (len packedSize position : Int) : Outcome Packing := do
  let stop ← addInt len position
  if packedSize < stop then pure { ret := mpiFail, mem := mem, position := position }
  else pure { ret := mpiSuccess, mem := memcpy mem target source (sizeT len), position := stop }

/-- `MPI_Pack` by rank `self`. -/
def mpiPack (umpi : Bool) (self : Nat) (mem : Memory) (inbuf : Pointer) (incount : Int) (datatype : MpiDatatype)
    (outbuf : Pointer) (outsize : Int) (position : Option Int) (comm : MpiComm) : Outcome Packing :=
  match datatype, position with
  | some iovec, some position =>
      if ¬ umpi ∨ (inbuf = .null ∧ incount ≠ 0) ∨ iovec.scattered ∨ (outbuf = .null ∧ outsize ≠ 0) ∨
          comm ≠ .world then
        .ok { ret := mpiFail, mem := mem, position := position }
      else
        movePacked mem ((outbuf.loc self).shift position) (inbuf.loc self) (packedLen incount iovec) outsize position
  | _, position => .ok { ret := mpiFail, mem := mem, position := position.getD 0 }

/-- `MPI_Unpack` by rank `self`. -/
def mpiUnpack (umpi : Bool) (self : Nat) (mem : Memory) (inbuf : Pointer) (insize : Int) (position : Option Int)
    (outbuf : Pointer) (outcount : Int) (datatype : MpiDatatype) (comm : MpiComm) : Outcome Packing :=
  match datatype, position with
  | some iovec, some position =>
      if ¬ umpi ∨ (inbuf = .null ∧ insize ≠ 0) ∨ (outbuf = .null ∧ outcount ≠ 0) ∨ iovec.scattered ∨
          comm ≠ .world then
        .ok { ret := mpiFail, mem := mem, position := position }
      else
        movePacked mem (outbuf.loc self) ((inbuf.loc self).shift position) (packedLen outcount iovec) insize position
  | _, position => .ok { ret := mpiFail, mem := mem, position := position.getD 0 }

/-- `MPI_Pack_size`: the value it returns, and `*size`. -/
def mpiPackSize (umpi : Bool) (incount : Int) (datatype : MpiDatatype) (comm : MpiComm) (size : Option Int) :
    Int × Option Int :=
  match datatype, size with
  | some iovec, some _ =>
      if ¬ umpi ∨ iovec.scattered ∨ comm ≠ .world then (mpiFail, size)
      else (mpiSuccess, some (packedLen incount iovec))
  | _, _ => (mpiFail, size)

/-- The buffer, count and datatype of something to pack, or of the place to which it is unpacked. -/
structure Item where
  buf : Pointer
  count : Int
  datatype : MpiDatatype

/-- Pack the items one after the other, up to the first call that fails. -/
def packItems (self : Nat) (outbuf : Pointer) (outsize : Int) : List Item → Packing → Outcome Packing
  | [], done => .ok done
  | item :: items, done => do
      let next ← mpiPack true self done.mem item.buf item.count item.datatype outbuf outsize (some done.position) .world
      if next.ret ≠ mpiSuccess then pure next else packItems self outbuf outsize items next

/-- Unpack the items one after the other, up to the first call that fails. -/
def unpackItems (self : Nat) (inbuf : Pointer) (insize : Int) : List Item → Packing → Outcome Packing
  | [], done => .ok done
  | item :: items, done => do
      let next ← mpiUnpack true self done.mem inbuf insize (some done.position) item.buf item.count item.datatype .world
      if next.ret ≠ mpiSuccess then pure next else unpackItems self inbuf insize items next

end Umpi
