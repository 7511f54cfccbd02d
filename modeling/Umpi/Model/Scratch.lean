/-
Module: Umpi.Model.Scratch
Layer: Model
Purpose: Which bytes of a slot's scratch buffers a step hands to `memcpy`, `process_vm_readv` or
  `process_vm_writev`. Two places in the source use `sendbuf_` and `recvbuf_`: the `umpi_copy` calls of
  `allreduce_request` in place, and the transfers that the last rank of an exscan or a scan makes. A step's own
  side of a copy is named here by the buffer it starts in and its list of segments.
Imports: Umpi.Model.System
Trusted boundary: human-reviewed spec
Main exports: CopyCall, ScratchStep, allreduceSteps, Loc.Scratch, Action.Hands, Sys.Hands, StaysInScratch,
  Call.Reduction
Open obligations: none
-/
import Umpi.Model.System

namespace Umpi

/-- The arguments of a call of `umpi_copy`. -/
structure CopyCall where
  readBuf : Loc
  readIovec : Iovec
  readCount : Int
  readSkip : Int
  writeBuf : Loc
  writeIovec : Iovec
  writeCount : Int
  writeSeek : Int

namespace CopyCall

def run (vm : ProcessVm) (copy : CopyCall) (mem : Memory) : Memory :=
  (umpiCopy vm mem copy.readBuf copy.readIovec copy.readCount copy.readSkip copy.writeBuf copy.writeIovec
    copy.writeCount copy.writeSeek).1

/-- `total_bytes`. -/
def total (copy : CopyCall) : Nat := sizeT (copy.readCount * copy.readIovec.len)

/-- The size check does not refuse the copy. -/
def Accepted (copy : CopyCall) : Prop := ¬ copy.total > sizeT (copy.writeCount * copy.writeIovec.len)

instance (copy : CopyCall) : Decidable copy.Accepted := inferInstanceAs (Decidable (¬ _))

/-- The segments that are read. -/
def source (copy : CopyCall) : List Iov :=
  sideIov copy.readBuf copy.readIovec copy.readSkip (copy.readSkip + copy.readCount) copy.total

/-- The segments that are written. -/
def target (copy : CopyCall) : List Iov :=
  sideIov copy.writeBuf copy.writeIovec copy.writeSeek (copy.writeSeek + copy.writeCount) copy.total

end CopyCall

/-- A step of a reduction on the memory of a slot: `umpi_copy`, or the operation applied to `count` elements. -/
inductive ScratchStep where
  | copy (copy : CopyCall)
  | reduce (op : UmpiOp) (invec inoutvec : Loc) (count : Int) (iovec : Iovec)

def ScratchStep.run (vm : ProcessVm) (mem : Memory) : ScratchStep → Memory
  | .copy args => args.run vm mem
  | .reduce op invec inoutvec count iovec => op.apply invec inoutvec iovec count.toNat mem

/-- What `collect::allreduce_request` does to memory in place, in order. A rank that finds `iovec_` null gets no
    further than that. -/
def allreduceSteps (w : World) (turn : Nat) (recvbuf : Loc) (count : Int) (iovec : Iovec) (op : UmpiOp) :
    List ScratchStep :=
  let slot := w.slots turn
  let fetch := fun layout : Iovec =>
    { readBuf := sendbuf turn, readIovec := layout, readCount := slot.count, readSkip := 0
      writeBuf := Umpi.recvbuf turn, writeIovec := iovec, writeCount := count, writeSeek := 0 : CopyCall }
  let leave := fun buf : Loc =>
    { readBuf := buf, readIovec := iovec, readCount := count, readSkip := 0
      writeBuf := sendbuf turn, writeIovec := iovec, writeCount := count, writeSeek := 0 : CopyCall }
  if w.joinedFirst turn then [.copy (leave recvbuf)]
  else
    match slot.iovec with
    | none => []
    | some layout =>
        if ¬ w.joinedLast turn then
          [.copy (fetch layout), .reduce op recvbuf (Umpi.recvbuf turn) count iovec,
            .copy (leave (Umpi.recvbuf turn))]
        else [.copy (fetch layout), .reduce op (Umpi.recvbuf turn) recvbuf count iovec]

/-- `sendbuf_` or `recvbuf_` of a slot. -/
def Loc.Scratch (buf : Loc) : Prop := ∃ turn, buf = sendbuf turn ∨ buf = recvbuf turn

/-- The caller's own side of the transfer that an action makes: `write_to_owner` reads it, `read_from_owner`
    writes it unless its size is refused. -/
inductive Action.Hands (w : World) (self : Nat) : Action → Loc → List Iov → Prop where
  | write {id : Nat} {buf : Loc} {iovec : Iovec} {count first : Int} {seek skip : Offset}
      (evaluated : skip.eval w self id = .ok first) :
      Hands w self (.writeToOwner id buf iovec count seek skip) buf
        (sideIov buf iovec first (first + count) (sizeT (count * iovec.len)))
  | read {id : Nat} {buf : Loc} {iovec : Iovec} {size count first skipped asked : Int} {seek skip : Offset}
      (evaluated : seek.eval w self id = .ok first) (evaluated' : skip.eval w self id = .ok skipped)
      (counted : asked = if count ≠ 0 then count
        else int32 (sizeT (((w.cookies id).size - skipped) * (w.cookies id).iovec.len) / iovec.len : Nat))
      (fits : ¬ sizeT (size * iovec.len) < sizeT (first * iovec.len + sizeT (asked * iovec.len))) :
      Hands w self (.readFromOwner id buf iovec size count seek skip) buf
        (sideIov buf iovec first (first + asked) (sizeT (asked * iovec.len)))
  | readIgnored {id : Nat} {buf : Loc} {iovec : Iovec} {size count asked : Int}
      (counted : asked = if count ≠ 0 then count
        else int32 (sizeT (((w.cookies id).size - 0) * (w.cookies id).iovec.len) / iovec.len : Nat))
      (fits : ¬ sizeT (size * iovec.len) < sizeT (0 * iovec.len + sizeT (asked * iovec.len))) :
      Hands w self (.readIgnored id buf iovec size count) buf
        (sideIov buf iovec 0 (0 + asked) (sizeT (asked * iovec.len)))

/-- The arguments of an allreduce in place, blocking or not. -/
def Call.InPlace (call : Call) (recvbuf : Pointer) (count : Int) (iovec : Iovec) (op : UmpiOp) : Prop :=
  call = .allreduce .inPlace recvbuf count (some iovec) (some op) .world ∨
    call = .blockingAllreduce .inPlace recvbuf count (some iovec) (some op) .world

/-- The sides of copies that a step hands over. Those of an allreduce in place are the two sides of every copy
    it makes. -/
inductive Sys.Hands (program : Program) (s : Sys) : Label → Loc → List Iov → Prop where
  | source {self turn : Nat} {w : World} {call : Call} {recvbuf : Pointer} {count : Int} {iovec : Iovec} {op : UmpiOp}
      {copy : CopyCall} (called : program self (s.ranks self).pos = some call)
      (inPlace : call.InPlace recvbuf count iovec op)
      (short : tooLongInPlace .inPlace count iovec = false) (entered : s.world.getCurrentSlot self = .ok (turn, w))
      (made : .copy copy ∈ allreduceSteps w turn (recvbuf.loc self) count iovec op) (accepted : copy.Accepted) :
      Hands program s (.call self) copy.readBuf copy.source
  | target {self turn : Nat} {w : World} {call : Call} {recvbuf : Pointer} {count : Int} {iovec : Iovec} {op : UmpiOp}
      {copy : CopyCall} (called : program self (s.ranks self).pos = some call)
      (inPlace : call.InPlace recvbuf count iovec op)
      (short : tooLongInPlace .inPlace count iovec = false) (entered : s.world.getCurrentSlot self = .ok (turn, w))
      (made : .copy copy ∈ allreduceSteps w turn (recvbuf.loc self) count iovec op) (accepted : copy.Accepted) :
      Hands program s (.call self) copy.writeBuf copy.target
  | act {self : Nat} {action : Action} {rest : List Action} {buf : Loc} {side : List Iov}
      (next : (s.ranks self).cont = action :: rest) (hands : action.Hands s.world self buf side) :
      Hands program s (.act self) buf side

/-- If the side starts in a scratch buffer, each of its bytes has an offset below `UMPI_MAX_IN_PLACE_LEN` there. -/
def StaysInScratch (buf : Loc) (side : List Iov) : Prop :=
  buf.Scratch → ∀ location ∈ iovLocs side,
    location.region = buf.region ∧ buf.addr ≤ location.addr ∧ location.addr < buf.addr + umpiMaxInPlaceLen

/-- A number of elements of a well-formed type of positive length. -/
structure Elements (iovec : Iovec) (count : Int) : Prop where
  wellFormed : iovec.WellFormed
  lenPos : 0 < iovec.len
  nonneg : 0 ≤ count

/-- A reduction is over a number of elements of a well-formed type of positive length. -/
def Call.Reduction : Call → Prop
  | allreduce _ _ count (some iovec) _ _ => Elements iovec count
  | blockingAllreduce _ _ count (some iovec) _ _ => Elements iovec count
  | exscan _ _ count (some iovec) _ _ => Elements iovec count
  | scan _ _ count (some iovec) _ _ => Elements iovec count
  | _ => True

end Umpi
