/-
Module: Umpi.Model.Transfer
Layer: Model
Purpose: Moving data between buffers: `umpi_copy`, `cookie::write_to_owner`, `cookie::read_from_owner`
  and the reduction operators. The system calls `process_vm_writev` and `process_vm_readv` are a
  parameter that gives the value they return for their segment lists; a nonnegative value is the number
  of bytes moved, taken from the front of both streams. `CopiesAll` is their documented behaviour when
  no segment is rejected.
Imports: Umpi.Foundation.ByteStream, Umpi.Model.State
Trusted boundary: human-reviewed spec
Main exports: Iov, ProcessVm, CopiesAll, sideIov, umpiCopy, World.writeToOwner, World.readFromOwner,
  UmpiOp, UmpiOp.apply
Open obligations: none
-/
import Umpi.Foundation.ByteStream
import Umpi.Model.State

namespace Umpi

open Foundation

/-- `struct iovec`: one segment of a transfer. -/
structure Iov where
  base : Loc
  len : Nat
deriving Repr, DecidableEq

/-- The bytes of a segment list in stream order. -/
def iovLocs (segments : List Iov) : List Loc :=
  segments.flatMap fun segment => (List.range segment.len).map fun i : Nat => segment.base.shift i

/-- The number of bytes of a segment list. -/
def iovLen (segments : List Iov) : Nat := (segments.map Iov.len).sum

/-- The value `process_vm_writev` or `process_vm_readv` returns for a local and a remote list. -/
abbrev ProcessVm := List Iov → List Iov → Int

/-- The calls move as many bytes as the shorter side has and return that number. That Linux refuses lists of more
    than `IOV_MAX` segments is assumed away here; for that see `Umpi.Proofs.Limits`. -/
def CopiesAll (vm : ProcessVm) : Prop :=
  ∀ here remote, vm here remote = (min (iovLen here) (iovLen remote) : Nat)

/-- System calls that never meet an error. -/
def copyingVm : ProcessVm := fun here remote => (min (iovLen here) (iovLen remote) : Nat)

theorem copyingVm_copies : CopiesAll copyingVm := fun _ _ => rfl

/-- The memory after a call that moved `moved` bytes from one segment list to another. -/
def moveBytes (mem : Memory) (source target : List Iov) (moved : Int) : Memory :=
  copyAll mem ((iovLocs source).take moved.toNat) ((iovLocs target).take moved.toNat)

/-- One side of a transfer over elements `lo` up to `hi`: every segment of every element of a scattered
    type, or a single segment of the whole length for a contiguous type. -/
def sideIov (base : Loc) (iovec : Iovec) (lo hi : Int) (totalBytes : Nat) : List Iov :=
  if iovec.scattered then
    (List.range (hi - lo).toNat).flatMap fun j =>
      iovec.segments.map fun e =>
        { base := base.shift ((lo + j) * iovec.stride + e.dis), len := e.len }
  else
    [{ base := base.shift (lo * iovec.len), len := totalBytes }]

/-- `umpi_copy`. A contiguous pair is copied with `memcpy`, anything else with `process_vm_writev` to
    the calling process itself. -/
def umpiCopy (vm : ProcessVm) (mem : Memory) (readBuf : Loc) (readIovec : Iovec)
    (readCount readSkip : Int) (writeBuf : Loc) (writeIovec : Iovec) (writeCount writeSeek : Int) :
    Memory × Nat :=
  let totalBytes := sizeT (readCount * readIovec.len)
  if totalBytes > sizeT (writeCount * writeIovec.len) then (mem, 0)
  else if readIovec.contiguous && writeIovec.contiguous then
    (moveBytes mem [{ base := readBuf.shift (readSkip * readIovec.len), len := totalBytes }]
      [{ base := writeBuf.shift (writeSeek * writeIovec.len), len := totalBytes }] totalBytes,
      totalBytes)
  else
    let here := sideIov readBuf readIovec readSkip (readSkip + readCount) totalBytes
    let remote := sideIov writeBuf writeIovec writeSeek (writeSeek + writeCount) totalBytes
    let moved := vm here remote
    (moveBytes mem here remote moved, if ptrdiff totalBytes = moved then totalBytes else 0)

/-- How a transfer ended: the state, the value it returns, and the number of bytes the system call
    moved. -/
structure Transferred where
  world : World
  ret : Int
  moved : Int

namespace World

/-- Both transfer functions end in `return owner_->notify_done(this, err)`. -/
def finishTransfer (w : World) (id : Nat) (err moved : Int) : Transferred :=
  { world := w.notifyDone id err, ret := err, moved := moved }

/-- `cookie::write_to_owner`. -/
def writeToOwner (vm : ProcessVm) (w : World) (id : Nat) (buf : Loc) (iovec : Iovec)
    (count seek skip : Int) : Outcome Transferred :=
  let cookie := w.cookies id
  let totalBytes := sizeT (count * iovec.len)
  if sizeT (cookie.size * cookie.iovec.len) < sizeT (seek * cookie.iovec.len + totalBytes) then
    .ok (w.finishTransfer id mpiFail 0)
  else if ¬ sizeT (cookie.count * cookie.iovec.len) < totalBytes ∧ cookie.iovec.len = 0 then
    .undefined .zeroDivision
  else
    let newCount :=
      if sizeT (cookie.count * cookie.iovec.len) < totalBytes then cookie.count
      else int32 (totalBytes / cookie.iovec.len : Nat)
    let w := w.setCookie id { cookie with count := newCount }
    let here := sideIov buf iovec skip (skip + count) totalBytes
    let remote := sideIov cookie.buf cookie.iovec seek cookie.size totalBytes
    let moved := vm here remote
    let w := { w with mem := moveBytes w.mem here remote moved }
    .ok (w.finishTransfer id (if ptrdiff totalBytes ≠ moved then mpiFail else mpiSuccess) moved)

/-- `cookie::read_from_owner`. A `count` of 0 asks for everything the cookie has. -/
def readFromOwner (vm : ProcessVm) (w : World) (id : Nat) (buf : Loc) (iovec : Iovec)
    (size count seek skip : Int) : Outcome Transferred :=
  let cookie := w.cookies id
  if count = 0 ∧ iovec.len = 0 then .undefined .zeroDivision
  else
    let count :=
      if count ≠ 0 then count
      else int32 (sizeT ((cookie.size - skip) * cookie.iovec.len) / iovec.len : Nat)
    let totalBytes := sizeT (count * iovec.len)
    if sizeT (cookie.size * cookie.iovec.len) < sizeT (skip * cookie.iovec.len + totalBytes) ∨
        sizeT (size * iovec.len) < sizeT (seek * iovec.len + totalBytes) then
      .ok (w.finishTransfer id mpiFail 0)
    else
      let here := sideIov buf iovec seek (seek + count) totalBytes
      let remote := sideIov cookie.buf cookie.iovec skip cookie.size totalBytes
      let moved := vm here remote
      let w := { w with mem := moveBytes w.mem remote here moved }
      .ok (w.finishTransfer id (if ptrdiff totalBytes ≠ moved then mpiFail else mpiSuccess) moved)

end World

/-- `struct umpi_op`, as the function it applies to each element: from the bytes of an element of
    `invec` and of `inoutvec` it computes the new bytes of the latter. -/
structure UmpiOp where
  func : List UInt8 → List UInt8 → List UInt8

/-- The loop of `umpi_generic_op::apply`: element `i` of `inoutvec` becomes the operation's result on
    the elements `i` of both vectors, for `i` from 0 up. -/
def UmpiOp.apply (op : UmpiOp) (invec inoutvec : Loc) (iovec : Iovec) : Nat → Memory → Memory
  | 0, mem => mem
  | i + 1, mem =>
      let mem := op.apply invec inoutvec iovec i mem
      writeAll mem (elementLocs inoutvec iovec i)
        (op.func (readAll mem (elementLocs invec iovec i))
          (readAll mem (elementLocs inoutvec iovec i)))

/-- `(*op)(invec, inoutvec, &count, &datatype)` on memory. -/
def World.reduce (w : World) (op : UmpiOp) (invec inoutvec : Loc) (count : Int) (iovec : Iovec) :
    World :=
  { w with mem := op.apply invec inoutvec iovec count.toNat w.mem }

section ReduceFields

variable (w : World) (op : UmpiOp) (invec inoutvec : Loc) (count : Int) (iovec : Iovec)

@[simp] theorem World.reduce_size : (w.reduce op invec inoutvec count iovec).size = w.size := rfl
@[simp] theorem World.reduce_cookies :
    (w.reduce op invec inoutvec count iovec).cookies = w.cookies := rfl
@[simp] theorem World.reduce_next : (w.reduce op invec inoutvec count iovec).next = w.next := rfl
@[simp] theorem World.reduce_procs : (w.reduce op invec inoutvec count iovec).procs = w.procs := rfl
@[simp] theorem World.reduce_slots : (w.reduce op invec inoutvec count iovec).slots = w.slots := rfl
@[simp] theorem World.reduce_ticket :
    (w.reduce op invec inoutvec count iovec).ticket = w.ticket := rfl

end ReduceFields

end Umpi
