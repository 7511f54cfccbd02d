/-
Module: Umpi.Model.TypeTable
Layer: Model
Purpose: Datatype handles and the arrays they point to: the datatype constructors as calls that
  make a handle, `MPI_Type_commit` with `shared::commit`, and `MPI_Type_free` with the destructor of
  `umpi_datatype`. An array is in the shared mapping, where the predefined ones and the committed ones are, or on
  the heap of a process. A handle is an object with a field `iovec_`; handles are not copied, so each is named by
  a number of its own. What `shared::commit` does after it has unlocked its mutex touches only the caller's handle
  and heap, so a call is one step.
Imports: Umpi.Model.Datatypes
Trusted boundary: human-reviewed spec
Main exports: ArrayRef, Handle, TypeTable, TypeTable.start, TypeTable.commit, TypeTable.typeFree, TypeRequest,
  TypeTable.Step, TypeTable.Runs
Open obligations: none
-/
import Umpi.Model.Datatypes
import Mathlib.Logic.Function.Basic

namespace Umpi

/-- Where an array is: one of those in `struct shared`, one allocated from the pool by a commit, or one made with
    `new`. -/
inductive ArrayRef where
  | predefined (kind : UmpiId)
  | pool (n : Nat)
  | heap (n : Nat)
deriving Repr, DecidableEq

/-- `umpi_datatype::committed`: the address is in the shared mapping. -/
def ArrayRef.committed : ArrayRef → Bool
  | predefined _ => true
  | pool _ => true
  | heap _ => false

/-- A `umpi_datatype` object: a predefined one, which every process has, or one made by a constructor. -/
inductive Handle where
  | predefined (kind : UmpiId)
  | made (n : Nat)
deriving Repr, DecidableEq

/-- The length of a predefined type. -/
def predefinedLen : UmpiId → Option Nat
  | .contiguous => none
  | .scattered => none
  | .packed => some 1
  | .byte => some 1
  | .char => some 1
  | .unsignedChar => some 1
  | .short => some 2
  | .unsignedShort => some 2
  | .int => some 4
  | .unsigned => some 4
  | .long => some 8
  | .unsignedLong => some 8
  | .float => some 4
  | .double => some 8
  | .longDouble => some 16

namespace Iovec

/-- `derived()`. -/
def derived (iovec : Iovec) : Bool :=
  iovec.id == UmpiId.contiguous.toDis || iovec.id == UmpiId.scattered.toDis

/-- `operator==`: the sizes are equal, and so are that many entries. -/
def sameAs (iovec other : Iovec) : Bool :=
  iovec.size == other.size && iovec.take iovec.size == other.take iovec.size

end Iovec

/-- The arrays that exist, `commited_`, the handles with their process and their field `iovec_`, and the next
    unused names. The last field is not in the source: it records what has been deleted. -/
structure TypeTable where
  arrays : ArrayRef → Option Iovec
  commited : List Nat
  handles : Nat → Option (Nat × ArrayRef)
  nextHandle : Nat
  nextHeap : Nat
  nextPool : Nat
  deleted : List ArrayRef

/-- The calls on datatypes. -/
inductive TypeRequest where
  | construct (call : TypeCall)
  | commit (handle : Handle)
  | typeFree (handle : Handle)

namespace TypeTable

/-- Only the predefined types exist. -/
def start : TypeTable :=
  { arrays := fun ref =>
      match ref with
      | .predefined kind => (predefinedLen kind).map fun len => Iovec.basic kind len
      | .pool _ => none
      | .heap _ => none
    commited := []
    handles := fun _ => none
    nextHandle := 0
    nextHeap := 0
    nextPool := 0
    deleted := [] }

/-- The field `iovec_` of a handle of the process `rank`. -/
def iovec (s : TypeTable) (rank : Nat) : Handle → Option ArrayRef
  | .predefined kind => (predefinedLen kind).map fun _ => .predefined kind
  | .made n =>
      match s.handles n with
      | some (owner, ref) => if owner = rank then some ref else none
      | none => none

/-- The array a handle denotes. -/
def denotes (s : TypeTable) (rank : Nat) (handle : Handle) : MpiDatatype :=
  (s.iovec rank handle).bind s.arrays

/-- `delete &(*iovec_)`. -/
def delete (s : TypeTable) (ref : ArrayRef) : TypeTable :=
  { s with arrays := Function.update s.arrays ref none, deleted := ref :: s.deleted }

/-- `*newtype = new umpi_datatype(iovec)`, with the array that was made. -/
def construct (s : TypeTable) (rank : Nat) (iovec : Iovec) : TypeTable :=
  { s with
    arrays := Function.update s.arrays (.heap s.nextHeap) (some iovec)
    handles := Function.update s.handles s.nextHandle (some (rank, .heap s.nextHeap))
    nextHandle := s.nextHandle + 1
    nextHeap := s.nextHeap + 1 }

section Fields

variable (s : TypeTable) (rank : Nat) (iovec : Iovec)

@[simp] theorem construct_arrays : (s.construct rank iovec).arrays =
    Function.update s.arrays (.heap s.nextHeap) (some iovec) := rfl
@[simp] theorem construct_handles : (s.construct rank iovec).handles =
    Function.update s.handles s.nextHandle (some (rank, .heap s.nextHeap)) := rfl
@[simp] theorem construct_commited : (s.construct rank iovec).commited = s.commited := rfl
@[simp] theorem construct_nextHandle : (s.construct rank iovec).nextHandle = s.nextHandle + 1 := rfl
@[simp] theorem construct_nextHeap : (s.construct rank iovec).nextHeap = s.nextHeap + 1 := rfl
@[simp] theorem construct_nextPool : (s.construct rank iovec).nextPool = s.nextPool := rfl
@[simp] theorem construct_deleted : (s.construct rank iovec).deleted = s.deleted := rfl

end Fields

/-- The committed array that is equal to this one, the first in the list. -/
def lookup (s : TypeTable) (iovec : Iovec) : Option Nat :=
  s.commited.find? fun e => ((s.arrays (.pool e)).getD []).sameAs iovec

/-- A copy of an array is allocated from the pool and put in front of `commited_`. -/
def publish (s : TypeTable) (iovec : Iovec) : TypeTable :=
  { s with
    arrays := Function.update s.arrays (.pool s.nextPool) (some (iovec.take iovec.size))
    commited := s.nextPool :: s.commited
    nextPool := s.nextPool + 1 }

/-- The handle `n` gets another field `iovec_`, or is no more, and its old array is deleted. -/
def drop (s : TypeTable) (n : Nat) (ref : ArrayRef) (field : Option (Nat × ArrayRef)) : TypeTable :=
  { s.delete ref with handles := Function.update s.handles n field }

section Fields

variable (s : TypeTable) (ref : ArrayRef) (n : Nat) (field : Option (Nat × ArrayRef)) (iovec : Iovec)

@[simp] theorem publish_arrays : (s.publish iovec).arrays =
    Function.update s.arrays (.pool s.nextPool) (some (iovec.take iovec.size)) := rfl
@[simp] theorem publish_commited : (s.publish iovec).commited = s.nextPool :: s.commited := rfl
@[simp] theorem publish_handles : (s.publish iovec).handles = s.handles := rfl
@[simp] theorem publish_nextHandle : (s.publish iovec).nextHandle = s.nextHandle := rfl
@[simp] theorem publish_nextHeap : (s.publish iovec).nextHeap = s.nextHeap := rfl
@[simp] theorem publish_nextPool : (s.publish iovec).nextPool = s.nextPool + 1 := rfl
@[simp] theorem publish_deleted : (s.publish iovec).deleted = s.deleted := rfl

@[simp] theorem drop_arrays : (s.drop n ref field).arrays = Function.update s.arrays ref none := rfl
@[simp] theorem drop_commited : (s.drop n ref field).commited = s.commited := rfl
@[simp] theorem drop_handles : (s.drop n ref field).handles = Function.update s.handles n field := rfl
@[simp] theorem drop_nextHandle : (s.drop n ref field).nextHandle = s.nextHandle := rfl
@[simp] theorem drop_nextHeap : (s.drop n ref field).nextHeap = s.nextHeap := rfl
@[simp] theorem drop_nextPool : (s.drop n ref field).nextPool = s.nextPool := rfl
@[simp] theorem drop_deleted : (s.drop n ref field).deleted = ref :: s.deleted := rfl

end Fields

/-- The handle `n` is no more. -/
def forget (s : TypeTable) (n : Nat) : TypeTable :=
  { s with handles := Function.update s.handles n none }

@[simp] theorem forget_handles (s : TypeTable) (n : Nat) :
    (s.forget n).handles = Function.update s.handles n none := rfl
@[simp] theorem forget_arrays (s : TypeTable) (n : Nat) : (s.forget n).arrays = s.arrays := rfl
@[simp] theorem forget_deleted (s : TypeTable) (n : Nat) : (s.forget n).deleted = s.deleted := rfl

/-- `shared::commit` on the field of handle `n` of `rank`, which points to the heap array `ref`: it is replaced by
    the committed array that is equal to it, or by a copy in the pool. -/
def commitArray (s : TypeTable) (rank n : Nat) (ref : ArrayRef) : TypeTable :=
  let iovec := (s.arrays ref).getD []
  match s.lookup iovec with
  | some e => s.drop n ref (some (rank, .pool e))
  | none => (s.publish iovec).drop n ref (some (rank, .pool s.nextPool))

/-- `MPI_Type_commit` on a handle that exists. -/
def commit (s : TypeTable) (rank : Nat) : Handle → TypeTable
  | .predefined _ => s
  | .made n =>
      match s.handles n with
      | some (_, ref) => if ref.committed then s else s.commitArray rank n ref
      | none => s

/-- `MPI_Type_free` on a handle that exists, and its return value. The destructor deletes the array of a handle
    that has not been committed. -/
def typeFree (s : TypeTable) (rank : Nat) (handle : Handle) : TypeTable × Int :=
  if ((s.denotes rank handle).getD []).derived then
    match handle with
    | .predefined _ => (s, mpiFail)
    | .made n =>
        match s.handles n with
        | some (_, ref) =>
            (if ref.committed then s.forget n else s.drop n ref none, mpiSuccess)
        | none => (s, mpiFail)
  else (s, mpiFail)

/-- A call by the process `rank` on valid handles. The old types of a constructor are denoted by handles of the
    caller. A constructor that does not return makes no step. -/
inductive Step (rank : Nat) : TypeTable → TypeRequest → TypeTable → Prop where
  | construct (s : TypeTable) (call : TypeCall) (iovec : Iovec)
      (old : ∀ iovec, call.Uses iovec → ∃ handle, s.denotes rank handle = some iovec)
      (made : call.run true true = .success iovec) :
      Step rank s (.construct call) (s.construct rank iovec)
  | refuse (s : TypeTable) (call : TypeCall)
      (old : ∀ iovec, call.Uses iovec → ∃ handle, s.denotes rank handle = some iovec)
      (refused : call.run true true = .fail) :
      Step rank s (.construct call) s
  | commit (s : TypeTable) (handle : Handle) (ref : ArrayRef) (valid : s.iovec rank handle = some ref) :
      Step rank s (.commit handle) (s.commit rank handle)
  | typeFree (s : TypeTable) (handle : Handle) (ref : ArrayRef) (valid : s.iovec rank handle = some ref) :
      Step rank s (.typeFree handle) (s.typeFree rank handle).1

/-- Any sequence of calls by any processes. -/
inductive Runs : TypeTable → Prop where
  | start : Runs start
  | tail {s s' : TypeTable} (before : Runs s) (rank : Nat) (request : TypeRequest)
      (step : Step rank s request s') : Runs s'

end TypeTable

end Umpi
