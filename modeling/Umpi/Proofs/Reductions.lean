/-
Module: Umpi.Proofs.Reductions
Layer: Proofs
Purpose: Buffers of one layout, element by element. A copy from one buffer to another moves every element as it
  is, whether or not the type has overlapping segments, and a reduction combines the elements of two buffers
  one by one. `Reduction` are the arguments that the ranks of a reduction, a scan or an exscan agree on.
Imports: Umpi.Foundation.Folding, Umpi.Proofs.Unrooted
Trusted boundary: none
Main exports: Iovec.ElementValue, elementAt, elementAt_copyAll, UmpiOp.elementAt_apply, Reduction,
  Reduction.input, UmpiOp.Combines
Open obligations: none
-/
import Umpi.Foundation.Folding
import Umpi.Proofs.Unrooted

namespace Umpi

open Foundation

/-! ### Elements -/

/-- The bytes that an element in memory can have, in stream order. Segments that overlap show the same byte
    twice. -/
def Iovec.ElementValue (iovec : Iovec) (value : List UInt8) : Prop :=
  ∃ byteAt : Int → UInt8, value = iovec.typeMap.map byteAt

/-- The bytes of element `index` of a buffer. -/
def elementAt (mem : Memory) (base : Loc) (iovec : Iovec) (index : Nat) : List UInt8 :=
  readAll mem (elementLocs base iovec index)

section Elements

variable {base base' : Loc} {iovec : Iovec} {mem mem' : Memory} {index count : Nat}

theorem elementAt_value (mem : Memory) (base : Loc) (iovec : Iovec) (index : Nat) :
    iovec.ElementValue (elementAt mem base iovec index) :=
  ⟨fun offset => mem (base.shift (index * iovec.stride + offset)), List.map_map⟩

/-- An element is found as it has been written. -/
theorem elementAt_writeAll (mem : Memory) (base : Loc) {value : List UInt8} (possible : iovec.ElementValue value)
    (index : Nat) : elementAt (writeAll mem (elementLocs base iovec index) value) base iovec index = value := by
  obtain ⟨byteAt, rfl⟩ := possible
  have injective : Function.Injective fun offset : Int => base.shift (index * iovec.stride + offset) := by
    intro offset offset' same
    have := Loc.shift_inj.mp same
    omega
  unfold elementAt readAll elementLocs
  rw [List.map_map]
  exact List.map_congr_left fun offset listed => writeAll_map_apply mem injective byteAt listed

/-- The views of two buffers of the same layout go through the same offsets. -/
theorem streamLocs_eq_map (base : Loc) (iovec : Iovec) (count : Nat) :
    streamLocs base iovec 0 count =
      ((List.range count).flatMap fun j : Nat => iovec.typeMap.map fun offset =>
        (j : Int) * iovec.stride + offset).map base.shift := by
  rw [streamLocs_eq_flatMap, List.map_flatMap]
  refine List.flatMap_congr fun j _ => ?_
  rw [elementLocs, List.map_map, Int.zero_add]
  rfl

/-- A copy to a buffer of the same layout moves every element as it is. -/
theorem elementAt_copyAll (mem : Memory) (base base' : Loc) (below : index < count) :
    elementAt (copyAll mem (streamLocs base iovec 0 count) (streamLocs base' iovec 0 count)) base' iovec index =
      elementAt mem base iovec index := by
  unfold elementAt readAll elementLocs
  rw [List.map_map, List.map_map, streamLocs_eq_map base, streamLocs_eq_map base']
  refine List.map_congr_left fun offset listed => ?_
  refine copyAll_map_apply mem base.shift (fun _ _ => Loc.shift_inj.mp) ?_
  exact List.mem_flatMap.mpr ⟨index, List.mem_range.mpr below, List.mem_map_of_mem listed⟩

/-- An element whose bytes have not changed. -/
theorem elementAt_congr (same : ∀ location ∈ elementLocs base iovec index, mem location = mem' location) :
    elementAt mem base iovec index = elementAt mem' base iovec index :=
  readAll_congr same

/-- The view of an element is part of the view of the buffer. -/
theorem elementLocs_subset_streamLocs (below : index < count) :
    elementLocs base iovec index ⊆ streamLocs base iovec 0 count :=
  elementLocs_subset (by omega) (by omega)

/-- A copy leaves the elements of other buffers alone. -/
theorem elementAt_copyAll_of_disjoint (mem : Memory) (source : List Loc) {target : List Loc}
    (below : index < count) (disjoint : (streamLocs base iovec 0 count).Disjoint target) :
    elementAt (copyAll mem source target) base iovec index = elementAt mem base iovec index :=
  elementAt_congr fun _ member =>
    copyAll_apply_of_notMem mem source (disjoint (elementLocs_subset_streamLocs below member))

end Elements

/-! ### Combining two buffers -/

/-- The operation combines element values of the type into element values. -/
def UmpiOp.Closed (op : UmpiOp) (iovec : Iovec) : Prop :=
  ∀ value value', iovec.ElementValue value → iovec.ElementValue value' →
    iovec.ElementValue (op.func value value')

/-- The operation is commutative and associative on element values of the type. -/
def UmpiOp.Combines (op : UmpiOp) (iovec : Iovec) : Prop :=
  Foundation.Combines iovec.ElementValue op.func

section Combining

variable {op : UmpiOp} {invec inoutvec : Loc} {iovec : Iovec} {mem : Memory} {count index : Nat}

/-- Only `inoutvec` changes. -/
theorem UmpiOp.apply_of_notMem (op : UmpiOp) (invec : Loc) (mem : Memory) {location : Loc}
    (outside : location ∉ streamLocs inoutvec iovec 0 count) :
    op.apply invec inoutvec iovec count mem location = mem location := by
  induction count with
  | zero => rfl
  | succ count ih =>
      rw [streamLocs_succ, List.mem_append, not_or, Int.zero_add] at outside
      rw [UmpiOp.apply, writeAll_apply_of_notMem _ _ _ outside.2, ih outside.1]

/-- Element `index` of `inoutvec` becomes the result for the two elements `index`. -/
theorem UmpiOp.elementAt_apply (closed : op.Closed iovec) (wellFormed : iovec.WellFormed)
    (apart : (streamLocs invec iovec 0 count).Disjoint (streamLocs inoutvec iovec 0 count))
    (below : index < count) :
    elementAt (op.apply invec inoutvec iovec count mem) inoutvec iovec index =
      op.func (elementAt mem invec iovec index) (elementAt mem inoutvec iovec index) := by
  induction count with
  | zero => cases below
  | succ count ih =>
      have earlier : streamLocs invec iovec 0 count ⊆ streamLocs invec iovec 0 (count + 1) :=
        streamLocs_subset le_rfl (by omega)
      have earlier' : streamLocs inoutvec iovec 0 count ⊆ streamLocs inoutvec iovec 0 (count + 1) :=
        streamLocs_subset le_rfl (by omega)
      have apartBefore : (streamLocs invec iovec 0 count).Disjoint (streamLocs inoutvec iovec 0 count) :=
        fun location member member' => apart (earlier member) (earlier' member')
      rw [UmpiOp.apply]
      rcases Nat.lt_succ_iff_lt_or_eq.mp below with before | rfl
      · -- the last element is another one
        rw [← ih apartBefore before]
        refine elementAt_congr fun location member => writeAll_apply_of_notMem _ _ _ ?_
        exact disjoint_elementLocs wellFormed (by exact_mod_cast before) member
      · -- the two last elements are still as they were
        have same : elementAt (op.apply invec inoutvec iovec index mem) invec iovec index =
            elementAt mem invec iovec index :=
          elementAt_congr fun location member => op.apply_of_notMem invec mem fun member' =>
            apart (elementLocs_subset_streamLocs below member) (earlier' member')
        have same' : elementAt (op.apply invec inoutvec iovec index mem) inoutvec iovec index =
            elementAt mem inoutvec iovec index :=
          elementAt_congr fun location member => op.apply_of_notMem invec mem fun member' => by
            have separate : (streamLocs inoutvec iovec 0 index).Disjoint
                (streamLocs inoutvec iovec index 1) := disjoint_streamLocs wellFormed (by omega)
            exact separate member' (by rwa [streamLocs_one])
        have possible := closed _ _ (elementAt_value (op.apply invec inoutvec iovec index mem) invec iovec index)
          (elementAt_value (op.apply invec inoutvec iovec index mem) inoutvec iovec index)
        rw [← same, ← same']
        exact elementAt_writeAll _ inoutvec possible index

end Combining

/-- Adding characters. -/
def sumOp : UmpiOp where
  func := fun value value' => List.zipWith (· + ·) value value'

theorem sumOp_combines : sumOp.Combines Datatype.mpiChar.iovec where
  closed := by
    rintro _ _ ⟨byteAt, rfl⟩ ⟨byteAt', rfl⟩
    refine ⟨fun offset => byteAt offset + byteAt' offset, ?_⟩
    simp [sumOp, List.zipWith_map, List.zipWith_self]
  comm := by
    rintro _ _ ⟨byteAt, rfl⟩ ⟨byteAt', rfl⟩
    simp [sumOp, List.zipWith_map, List.zipWith_self, UInt8.add_comm]
  assoc := by
    rintro _ _ _ ⟨byteAt, rfl⟩ ⟨byteAt', rfl⟩ ⟨byteAt'', rfl⟩
    simp [sumOp, List.zipWith_map, List.zipWith_self, UInt8.add_assoc]

/-! ### Arguments of a reduction -/

/-- What the ranks of an allreduce, a scan or an exscan pass: buffers of their own, and the same count, datatype
    and operation. -/
structure Reduction where
  send : Nat → Pointer
  recv : Nat → Pointer
  count : Nat
  datatype : Datatype
  op : UmpiOp

namespace Reduction

/-- The view of a whole buffer. -/
def view (reduction : Reduction) (base : Loc) : List Loc :=
  streamLocs base reduction.datatype.iovec 0 reduction.count

/-- Element `index` of a buffer. -/
def value (reduction : Reduction) (mem : Memory) (base : Loc) (index : Nat) : List UInt8 :=
  elementAt mem base reduction.datatype.iovec index

/-- The receive buffer of a rank. -/
def target (reduction : Reduction) (rank : Nat) : Loc := (reduction.recv rank).loc rank

/-- The buffer with the input of a rank, which is the receive buffer for `MPI_IN_PLACE`. -/
def source (reduction : Reduction) (rank : Nat) : Loc :=
  if reduction.send rank = .inPlace then reduction.target rank else (reduction.send rank).loc rank

/-- Element `index` of the input of a rank. -/
def input (reduction : Reduction) (mem : Memory) (index rank : Nat) : List UInt8 :=
  reduction.value mem (reduction.source rank) index

/-- Arguments that a program can pass. -/
structure Valid (reduction : Reduction) (n : Nat) : Prop where
  countRange : reduction.count < 2 ^ 31
  bytesRange : reduction.count * reduction.datatype.len < 2 ^ 63
  given : ∀ rank < n, reduction.send rank = .null → reduction.count = 0
  closed : reduction.op.Closed reduction.datatype.iovec

/-- The inputs of the ranks can be added in any order. -/
def Adds (reduction : Reduction) (n : Nat) (mem : Memory) : Prop :=
  ∀ i < reduction.count, Accumulates reduction.op.func (reduction.input mem i) n

/-- The rank has a receive buffer, or there is nothing to receive. -/
def Receives (reduction : Reduction) (rank : Nat) : Prop :=
  reduction.recv rank = .null → reduction.count = 0

/-- A scratch buffer is large enough for the elements. -/
def Short (reduction : Reduction) : Prop :=
  (reduction.count : Int) * reduction.datatype.stride ≤ umpiMaxInPlaceLen

variable {reduction : Reduction} {mem mem' : Memory} {base base' : Loc} {index : Nat}

theorem value_valid (reduction : Reduction) (mem : Memory) (base : Loc) (index : Nat) :
    reduction.datatype.iovec.ElementValue (reduction.value mem base index) :=
  elementAt_value mem base _ index

/-- Any inputs can be added with an operation that combines all values. -/
theorem adds_of_combines (combines : reduction.op.Combines reduction.datatype.iovec) (n : Nat) (mem : Memory) :
    reduction.Adds n mem :=
  fun i _ => combines.accumulates (fun _ => reduction.value_valid mem _ i) n

/-- A copy from buffer to buffer. -/
theorem value_copyAll (mem : Memory) (base base' : Loc) (below : index < reduction.count) :
    reduction.value (copyAll mem (reduction.view base) (reduction.view base')) base' index =
      reduction.value mem base index :=
  elementAt_copyAll mem base base' below

/-- A buffer that a copy does not write into. -/
theorem value_copyAll_of_disjoint (mem : Memory) (source : List Loc) {target : List Loc}
    (disjoint : (reduction.view base).Disjoint target) (below : index < reduction.count) :
    reduction.value (copyAll mem source target) base index = reduction.value mem base index :=
  elementAt_copyAll_of_disjoint mem source below disjoint

/-- The elements of two buffers combined. -/
theorem value_apply (closed : reduction.op.Closed reduction.datatype.iovec) (mem : Memory)
    (apart : (reduction.view base).Disjoint (reduction.view base')) (below : index < reduction.count) :
    reduction.value (reduction.op.apply base base' reduction.datatype.iovec reduction.count mem) base' index =
      reduction.op.func (reduction.value mem base index) (reduction.value mem base' index) :=
  UmpiOp.elementAt_apply closed reduction.datatype.wellFormed apart below

/-- A buffer that is not the target of the combination. -/
theorem value_apply_of_disjoint {invec inoutvec : Loc} (mem : Memory)
    (apart : (reduction.view base).Disjoint (reduction.view inoutvec)) (below : index < reduction.count) :
    reduction.value (reduction.op.apply invec inoutvec reduction.datatype.iovec reduction.count mem) base index =
      reduction.value mem base index :=
  elementAt_congr fun _ member =>
    reduction.op.apply_of_notMem invec mem (apart (elementLocs_subset_streamLocs below member))

/-- Memory that agrees on a buffer. -/
theorem value_congr (same : ∀ location ∈ reduction.view base, mem location = mem' location)
    (below : index < reduction.count) : reduction.value mem base index = reduction.value mem' base index :=
  elementAt_congr fun location member => same location (elementLocs_subset_streamLocs below member)

/-- `umpi_copy` from buffer to buffer. -/
theorem copy_mem {vm : ProcessVm} (copies : CopiesAll vm)
    (bytesRange : reduction.count * reduction.datatype.len < 2 ^ 63) (w : World) (base base' : Loc) :
    (w.copy vm base reduction.datatype.iovec reduction.count 0 base' reduction.datatype.iovec reduction.count
      0).mem = copyAll w.mem (reduction.view base) (reduction.view base') :=
  copy_block copies rfl rfl 0 0 rfl bytesRange

/-! ### Buffers that do not overlap -/

/-- Buffers in different stretches of memory. -/
theorem view_disjoint_of_region (apart : base.region ≠ base'.region) :
    (reduction.view base).Disjoint (reduction.view base') :=
  disjoint_of_region reduction.datatype.wellFormed reduction.datatype.wellFormed apart _ _ _ _

/-- No buffer of a rank is in the scratch buffers of a slot. -/
theorem view_disjoint_scratch (pointer : Pointer) (rank : Nat) {turn : Nat} (scratch : base.region = .scratch turn) :
    (reduction.view (pointer.loc rank)).Disjoint (reduction.view base) := by
  refine view_disjoint_of_region fun same => ?_
  rw [scratch] at same
  cases pointer <;> cases same

/-- Buffers of different ranks, of which one may be missing when it is empty. -/
theorem view_disjoint_of_rank {pointer pointer' : Pointer} {rank rank' : Nat} (other : rank ≠ rank')
    (given : pointer = .null → reduction.count = 0) :
    (reduction.view (pointer.loc rank)).Disjoint (reduction.view (pointer'.loc rank')) := by
  by_cases null : pointer = .null
  · unfold view
    rw [given null]
    exact List.disjoint_nil_left _
  · exact view_disjoint_of_region (Pointer.region_ne other null)

/-- The input of a rank is in one of its buffers. -/
theorem source_cases (reduction : Reduction) (rank : Nat) :
    ∃ pointer, reduction.source rank = pointer.loc rank ∧
      (pointer = reduction.send rank ∨ pointer = reduction.recv rank) := by
  unfold source
  split
  case isTrue => exact ⟨_, rfl, Or.inr rfl⟩
  case isFalse => exact ⟨_, rfl, Or.inl rfl⟩

theorem source_eq_target {rank : Nat} (inPlace : reduction.send rank = .inPlace) :
    reduction.source rank = reduction.target rank := if_pos inPlace

theorem source_eq_send {rank : Nat} (outOfPlace : reduction.send rank ≠ .inPlace) :
    reduction.source rank = (reduction.send rank).loc rank := if_neg outOfPlace

/-- An input does not overlap the receive buffer of another rank. -/
theorem source_disjoint_target (reduction : Reduction) {rank other : Nat} (different : rank ≠ other)
    (receives : reduction.Receives other) :
    (reduction.view (reduction.source rank)).Disjoint (reduction.view (reduction.target other)) := by
  obtain ⟨pointer, located, -⟩ := reduction.source_cases rank
  rw [located]
  exact (view_disjoint_of_rank (Ne.symm different) receives).symm

/-- The two scratch buffers of a slot do not overlap if they are large enough. -/
theorem view_sendbuf_disjoint (short : reduction.Short) (turn : Nat) :
    (reduction.view (sendbuf turn)).Disjoint (reduction.view (recvbuf turn)) := by
  intro location member member'
  obtain ⟨j, below, element⟩ := mem_streamLocs_iff.mp member
  obtain ⟨j', -, element'⟩ := mem_streamLocs_iff.mp member'
  obtain ⟨-, -, high⟩ := mem_elementLocs reduction.datatype.wellFormed element
  obtain ⟨-, low, high'⟩ := mem_elementLocs reduction.datatype.wellFormed element'
  have stride : 0 ≤ reduction.datatype.iovec.stride := by nlinarith
  have upTo : (0 + (j : Int) + 1) * reduction.datatype.iovec.stride ≤ umpiMaxInPlaceLen := by
    refine le_trans (mul_le_mul_of_nonneg_right ?_ stride) short
    omega
  have from_ : 0 ≤ (0 + (j' : Int)) * reduction.datatype.iovec.stride := by positivity
  simp only [sendbuf, recvbuf] at high low
  omega

/-! ### Errands -/

/-- The buffer of a cookie is read into another one. -/
def fetch (reduction : Reduction) (place : Nat → Loc) (rank : Nat) (base : Loc) : Errand where
  action := fun made => .readFromOwner (made rank) base reduction.datatype.iovec reduction.count 0 (.elems 0)
    (.elems 0)
  effect := fun mem => copyAll mem (reduction.view (place rank)) (reduction.view base)

/-- A buffer is written to that of a cookie. -/
def deliver (reduction : Reduction) (place : Nat → Loc) (rank : Nat) (base : Loc) : Errand where
  action := fun made => .writeToOwner (made rank) base reduction.datatype.iovec reduction.count (.elems 0)
    (.elems 0)
  effect := fun mem => copyAll mem (reduction.view base) (reduction.view (place rank))

section Errands

variable {vm : ProcessVm} {place : Nat → Loc} {made : Nat → Nat} {rank : Nat} {w : World} {amount : Int}

theorem fetch_works (reduction : Reduction) (copies : CopiesAll vm) (countRange : reduction.count < 2 ^ 31)
    (bytesRange : reduction.count * reduction.datatype.len < 2 ^ 63)
    (shows : (w.cookies (made rank)).Shows
      { buf := place rank, iovec := reduction.datatype.iovec, size := reduction.count, count := amount })
    (base : Loc) (self : Nat) :
    ∃ done, ((reduction.fetch place rank base).action made).exec vm w self = .ok done ∧ done.ret = mpiSuccess ∧
      done.world.mem = (reduction.fetch place rank base).effect w.mem :=
  readFromOwner_shown copies rfl (Or.inr rfl) shows rfl bytesRange countRange base

theorem deliver_works (reduction : Reduction) (copies : CopiesAll vm)
    (bytesRange : reduction.count * reduction.datatype.len < 2 ^ 63)
    (shows : (w.cookies (made rank)).Shows
      { buf := place rank, iovec := reduction.datatype.iovec, size := reduction.count, count := amount })
    (base : Loc) (self : Nat) :
    ∃ done, ((reduction.deliver place rank base).action made).exec vm w self = .ok done ∧ done.ret = mpiSuccess ∧
      done.world.mem = (reduction.deliver place rank base).effect w.mem :=
  writeToOwner_shown copies rfl shows rfl bytesRange base

end Errands

end Reduction

end Umpi
