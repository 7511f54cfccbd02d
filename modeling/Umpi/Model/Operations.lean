/-
Module: Umpi.Model.Operations
Layer: Model
Purpose: The predefined operations `MPI_MAX`, `MPI_MIN`, `MPI_SUM` and `MPI_PROD` of `funcs.hh`. `umpi_generic_op`
  picks the element type by the id of the datatype and goes through both vectors. The integer types are those of
  x86-64, where `char` is signed. Arithmetic is done in `int` or in the element type if that is not narrower, where
  a signed result out of range is undefined, and the result is converted back. The arithmetic of the floating types
  is a parameter.
Imports: Umpi.Foundation.MachineInt, Umpi.Model.Transfer
Trusted boundary: human-reviewed spec
Main exports: UmpiId.intFormat, PredefinedOp, PredefinedOp.operate, applyElements, umpiGenericOp
Open obligations: none
-/
import Umpi.Foundation.MachineInt
import Umpi.Model.Transfer

namespace Umpi

open Foundation

/-- The enumerator with this value. -/
def UmpiId.ofDis (dis : Int) : Option UmpiId :=
  [contiguous, scattered, packed, byte, char, unsignedChar, short, unsignedShort, int, unsigned, long, unsignedLong,
    float, double, longDouble].find? fun id => id.toDis = dis

@[simp] theorem UmpiId.ofDis_toDis (id : UmpiId) : ofDis id.toDis = some id := by cases id <;> rfl

/-- The integer type of a predefined datatype. -/
def UmpiId.intFormat : UmpiId → Option IntFormat
  | char => some { bytes := 1, signed := true, positive := by decide }
  | unsignedChar => some { bytes := 1, signed := false, positive := by decide }
  | short => some { bytes := 2, signed := true, positive := by decide }
  | unsignedShort => some { bytes := 2, signed := false, positive := by decide }
  | int => some { bytes := 4, signed := true, positive := by decide }
  | unsigned => some { bytes := 4, signed := false, positive := by decide }
  | long => some { bytes := 8, signed := true, positive := by decide }
  | unsignedLong => some { bytes := 8, signed := false, positive := by decide }
  | contiguous | scattered | packed | byte | float | double | longDouble => none

/-- The type that values of a type are promoted to before arithmetic. -/
def promoted (format : IntFormat) : IntFormat :=
  if format.bytes < 4 then { bytes := 4, signed := true, positive := by decide } else format

/-- The value of an arithmetic expression of this type, given its exact value. -/
def arithmetic (format : IntFormat) (exact : Int) : Outcome Int :=
  if format.signed = true ∧ ¬ format.InRange exact then .undefined .overflow else .ok (format.wrap exact)

/-- The template argument of `umpi_generic_op`: `umpi_max`, `umpi_min`, `std::plus` and `std::multiplies`. -/
inductive PredefinedOp where
  | max
  | min
  | sum
  | prod
deriving Repr, DecidableEq

/-- `Op<T>::operator()` for an integer type. -/
def PredefinedOp.operate (format : IntFormat) (a b : Int) : PredefinedOp → Outcome Int
  | max => .ok (if a < b then b else a)
  | min => .ok (if b < a then b else a)
  | sum => do
      let result ← arithmetic (promoted format) (a + b)
      .ok (format.wrap result)
  | prod => do
      let result ← arithmetic (promoted format) (a * b)
      .ok (format.wrap result)

/-- The bytes of element `i` of an array. -/
def arrayLocs (base : Loc) (bytes i : Nat) : List Loc :=
  (List.range bytes).map fun offset : Nat => base.shift ((i : Int) * bytes + offset)

/-- `umpi_generic_op::apply`, for elements of `bytes` bytes. -/
def applyElements (func : List UInt8 → List UInt8 → Outcome (List UInt8)) (bytes : Nat) (invec inoutvec : Loc) :
    Nat → Memory → Outcome Memory
  | 0, mem => .ok mem
  | i + 1, mem => do
      let mem ← applyElements func bytes invec inoutvec i mem
      let value ← func (readAll mem (arrayLocs invec bytes i)) (readAll mem (arrayLocs inoutvec bytes i))
      .ok (writeAll mem (arrayLocs inoutvec bytes i) value)

/-- `Op<T>::operator()` on the bytes of two integers. -/
def PredefinedOp.onBytes (op : PredefinedOp) (format : IntFormat) (value value' : List UInt8) :
    Outcome (List UInt8) := do
  let result ← op.operate format (format.decode value) (format.decode value')
  .ok (format.encode result)

/-- `umpi_generic_op::function`. `real` is the operation on the bytes of two floating values. An id that is no
    enumerator is no case of the `switch`. -/
def umpiGenericOp (real : UmpiId → List UInt8 → List UInt8 → List UInt8) (op : PredefinedOp) (mem : Memory)
    (invec inoutvec : Loc) (len : Int) (datatype : Iovec) : Outcome Memory :=
  match UmpiId.ofDis datatype.id with
  | none => .ok mem
  | some .contiguous | some .scattered | some .packed | some .byte => .exited
  | some .float => applyElements (fun a b => .ok (real .float a b)) 4 invec inoutvec len.toNat mem
  | some .double => applyElements (fun a b => .ok (real .double a b)) 8 invec inoutvec len.toNat mem
  | some .longDouble => applyElements (fun a b => .ok (real .longDouble a b)) 16 invec inoutvec len.toNat mem
  | some id =>
      match id.intFormat with
      | some format => applyElements (op.onBytes format) format.bytes invec inoutvec len.toNat mem
      | none => .ok mem

end Umpi
