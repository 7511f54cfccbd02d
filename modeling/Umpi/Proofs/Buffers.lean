/-
Module: Umpi.Proofs.Buffers
Layer: Proofs
Purpose: The buffers that ranks pass to collective operations, seen as blocks of elements, and transfers of
  whole blocks. Two blocks may be laid out differently as long as they have the same number of bytes: a
  transfer copies the view of one to the view of the other, and succeeds.
Imports: Umpi.Proofs.Entering
Trusted boundary: none
Main exports: Buffer, Buffer.Valid, Buffer.view, Cookie.Offers, Moved, Performs, writeToOwner_block,
  readFromOwner_block, copy_block
Open obligations: none
-/
import Umpi.Proofs.Entering

namespace Umpi

open Foundation

/-! ### Buffers -/

/-- A buffer argument: where it is, how many elements it has, and of which type. -/
structure Buffer where
  buf : Pointer
  count : Nat
  datatype : Datatype

namespace Buffer

/-- The number of data bytes. -/
def bytes (buffer : Buffer) : Nat := buffer.count * buffer.datatype.len

/-- The view of `count` elements of rank `rank` from element `first` on. -/
def elements (buffer : Buffer) (rank first count : Nat) : List Loc :=
  streamLocs (buffer.buf.loc rank) buffer.datatype.iovec first count

/-- The view of the whole buffer of rank `rank`. -/
def view (buffer : Buffer) (rank : Nat) : List Loc := buffer.elements rank 0 buffer.count

/-- A buffer that a program can pass: `int` counts its elements, it fits into an address space, and it is
    only missing when it is empty. -/
structure Valid (buffer : Buffer) : Prop where
  countRange : buffer.count < 2 ^ 31
  bytesRange : buffer.bytes < 2 ^ 63
  given : buffer.buf = .null → buffer.count = 0

theorem length_elements (buffer : Buffer) (rank first count : Nat) :
    (buffer.elements rank first count).length = count * buffer.datatype.len :=
  length_streamLocs _ buffer.datatype.wellFormed first count

theorem length_view (buffer : Buffer) (rank : Nat) : (buffer.view rank).length = buffer.bytes :=
  buffer.length_elements rank 0 buffer.count

theorem nodup_elements {buffer : Buffer} (writable : buffer.datatype.Writable) (rank first count : Nat) :
    (buffer.elements rank first count).Nodup :=
  nodup_streamLocs buffer.datatype.wellFormed writable first count

/-- Different blocks of one buffer do not overlap. -/
theorem disjoint_elements (buffer : Buffer) (rank : Nat) {first first' count count' : Nat}
    (before : first + count ≤ first') :
    (buffer.elements rank first count).Disjoint (buffer.elements rank first' count') :=
  disjoint_streamLocs buffer.datatype.wellFormed (by exact_mod_cast before)

theorem elements_subset (buffer : Buffer) (rank : Nat) {first first' count count' : Nat}
    (low : first' ≤ first) (high : first + count ≤ first' + count') :
    buffer.elements rank first count ⊆ buffer.elements rank first' count' :=
  streamLocs_subset (by exact_mod_cast low) (by exact_mod_cast high)

/-- The type of a message of no bytes has no elements in it. -/
theorem count_eq_zero (buffer : Buffer) (empty : buffer.bytes = 0) : buffer.count = 0 :=
  (Nat.mul_eq_zero.mp empty).resolve_right buffer.datatype.lenPos.ne'

end Buffer

/-- The block of a rank ends within a buffer of one block for every rank. -/
theorem block_le {n rank count : Nat} (valid : rank < n) : rank * count + count ≤ count * n := by
  rw [← Nat.succ_mul, Nat.mul_comm]
  exact Nat.mul_le_mul_left count valid

/-- Pointers of different ranks point to different memory, unless one of them is null. -/
theorem Pointer.region_ne {pointer pointer' : Pointer} {rank rank' : Nat} (other : rank ≠ rank')
    (given : pointer ≠ .null) : (pointer.loc rank).region ≠ (pointer'.loc rank').region := by
  cases pointer <;> cases pointer' <;> simp_all [Pointer.loc]

/-- Buffers of different ranks do not overlap. -/
theorem Buffer.disjoint_of_rank (buffer buffer' : Buffer) {rank rank' : Nat} (other : rank ≠ rank')
    (first first' count count' : Nat) (given : buffer.buf = .null → count = 0) :
    (buffer.elements rank first count).Disjoint (buffer'.elements rank' first' count') := by
  by_cases null : buffer.buf = .null
  · rw [given null]
    exact List.disjoint_nil_left _
  · exact disjoint_of_region buffer.datatype.wellFormed buffer'.datatype.wellFormed
      (Pointer.region_ne other null) _ _ _ _

/-! ### Transfers of whole blocks -/

/-- The transfer fields of a cookie are those its maker offered. -/
structure Cookie.Offers (cookie : Cookie) (offer : Offer) : Prop where
  buf : cookie.buf = offer.buf
  iovec : cookie.iovec = offer.iovec
  size : cookie.size = offer.size
  count : cookie.count = offer.count

/-- A transfer has made a copy, and succeeded. -/
structure Moved (w : World) (copy : Copy Loc) (done : Transferred) : Prop where
  ret : done.ret = mpiSuccess
  mem : done.world.mem = copyAll w.mem copy.source copy.target
  slots : done.world.slots = w.slots

/-- The action of `caller` makes a copy. -/
structure Performs (vm : ProcessVm) (action : Action) (caller : Nat) (copy : Copy Loc) (w : World)
    (done : Transferred) : Prop extends Moved w copy done where
  exec : action.exec vm w caller = .ok done

section Blocks

variable {vm : ProcessVm} {w : World} {id : Nat} {base base' : Loc} {datatype datatype' : Datatype}

variable (base) in
/-- `write_to_owner` of a block of `count` elements onto `count'` elements of the cookie's buffer. The
    cookie's `count_` becomes `count'` unless it is smaller. -/
theorem writeToOwner_block (copies : CopiesAll vm) {count count' size held seek skip : Nat}
    {amount offset offset' : Int} (amountEq : amount = count) (offsetEq : offset = seek)
    (offsetEq' : offset' = skip)
    (offers : (w.cookies id).Offers { buf := base', iovec := datatype'.iovec, size := size, count := held })
    (agree : count * datatype.len = count' * datatype'.len) (sizeRange : size < 2 ^ 31)
    (bytesRange : size * datatype'.len < 2 ^ 63) (heldLe : held ≤ size) (fits : seek + count' ≤ size) :
    ∃ done, w.writeToOwner vm id base datatype.iovec amount offset offset' = .ok done ∧
      Moved w
        { source := streamLocs base datatype.iovec skip count
          target := streamLocs base' datatype'.iovec seek count' } done ∧
      (done.world.cookies id).count = if held < count' then (held : Int) else (count' : Int) := by
  subst amountEq offsetEq offsetEq'
  have agree' : count * datatype.iovec.len = count' * datatype'.iovec.len := agree
  have lenPos := datatype'.lenPos
  have heldBytes : held * datatype'.iovec.len < 2 ^ 63 :=
    (Nat.mul_le_mul_right _ heldLe).trans_lt bytesRange
  have room : seek * datatype'.iovec.len + count * datatype.iovec.len ≤ size * datatype'.iovec.len := by
    rw [agree', ← Nat.add_mul]
    exact Nat.mul_le_mul_right _ fits
  have written := writeToOwner_eq base copies datatype.wellFormed datatype'.wellFormed lenPos
    (rfl : (seek : Int) = seek) skip offers.buf offers.iovec offers.size offers.count sizeRange bytesRange
    heldBytes room
  refine ⟨_, written, ⟨rfl, ?_, rfl⟩, ?_⟩
  · show copyAll w.mem _ _ = _
    rw [agree', take_streamLocs datatype'.wellFormed _ (by omega)]
  · have quotient : count * datatype.iovec.len / datatype'.iovec.len = count' := by
      rw [agree', Nat.mul_div_cancel _ lenPos]
    have smaller : held * datatype'.iovec.len < count * datatype.iovec.len ↔ held < count' := by
      rw [agree']
      exact Nat.mul_lt_mul_right lenPos
    simp only [World.finishTransfer, World.notifyDone_cookies, Function.update_self,
      World.setCookie_cookies, quotient, smaller]

variable (base) in
/-- `read_from_owner` of `count'` elements of the cookie's buffer onto a block of `count` elements. -/
theorem readFromOwner_block (copies : CopiesAll vm) {count count' size owned amount seek skip : Nat}
    {amount' offset offset' : Int} {held : Int} (amountEq : amount' = amount) (offsetEq : offset = seek)
    (offsetEq' : offset' = skip)
    (offers : (w.cookies id).Offers { buf := base', iovec := datatype'.iovec, size := owned, count := held })
    (asks : requested amount owned skip datatype'.len datatype.len = count)
    (agree : count * datatype.len = count' * datatype'.len) (sizeRange : size < 2 ^ 31)
    (bytesRange : size * datatype.len < 2 ^ 63) (ownedRange : owned * datatype'.len < 2 ^ 63)
    (has : skip + count' ≤ owned) (fits : seek + count ≤ size) :
    ∃ done, w.readFromOwner vm id base datatype.iovec size amount' offset offset' = .ok done ∧
      Moved w
        { source := streamLocs base' datatype'.iovec skip count'
          target := streamLocs base datatype.iovec seek count } done ∧
      (done.world.cookies id).count = held := by
  have agree' : count * datatype.iovec.len = count' * datatype'.iovec.len := agree
  have asks' : requested amount owned skip datatype'.iovec.len datatype.iovec.len = count := asks
  have hasBytes : skip * datatype'.iovec.len + count * datatype.iovec.len ≤
      owned * datatype'.iovec.len := by
    rw [agree', ← Nat.add_mul]
    exact Nat.mul_le_mul_right _ has
  have fitBytes : seek * datatype.iovec.len + count * datatype.iovec.len ≤
      size * datatype.iovec.len := by
    rw [← Nat.add_mul]
    exact Nat.mul_le_mul_right _ fits
  have small : count * datatype.iovec.len < 2 ^ 63 :=
    Nat.lt_of_le_of_lt (Nat.le_trans (Nat.le_add_left _ _) fitBytes) bytesRange
  have read := readFromOwner_eq base copies datatype.wellFormed datatype'.wellFormed datatype.lenPos
    datatype'.lenPos amountEq offsetEq offsetEq' offers.buf offers.iovec offers.size sizeRange
    (Nat.lt_trans ownedRange (by norm_num)) (Nat.lt_trans bytesRange (by norm_num)) (by rwa [asks'])
    (by rwa [asks']) (by rwa [asks'])
  rw [asks'] at read
  refine ⟨_, read, ⟨rfl, ?_, rfl⟩, ?_⟩
  · show copyAll w.mem _ _ = _
    rw [agree', take_streamLocs datatype'.wellFormed _ (by omega)]
  · simpa [World.finishTransfer] using offers.count

/-- `umpi_copy` of a block onto another. -/
theorem copy_block (copies : CopiesAll vm) {count count' : Nat} {amount amount' : Int}
    (amountEq : amount = count) (amountEq' : amount' = count') (skip seek : Int)
    (agree : count * datatype.len = count' * datatype'.len) (bytesRange : count' * datatype'.len < 2 ^ 63) :
    (w.copy vm base datatype.iovec amount skip base' datatype'.iovec amount' seek).mem =
      copyAll w.mem (streamLocs base datatype.iovec skip count)
        (streamLocs base' datatype'.iovec seek count') := by
  subst amountEq amountEq'
  have agree' : count * datatype.iovec.len = count' * datatype'.iovec.len := agree
  unfold World.copy
  rw [umpiCopy_eq copies datatype.wellFormed datatype'.wellFormed w.mem skip seek
    (Nat.lt_trans bytesRange (by norm_num)) (Nat.lt_of_le_of_lt agree.le bytesRange) agree.le]
  show copyAll w.mem _ _ = _
  rw [agree', take_streamLocs datatype'.wellFormed _ le_rfl]

end Blocks

/-- Byte counts that agree pass the check of the entry points. -/
theorem bytesDiffer_eq_false {buffer buffer' : Buffer} (agree : buffer.bytes = buffer'.bytes) :
    bytesDiffer buffer.count buffer.datatype.iovec buffer'.count buffer'.datatype.iovec = false := by
  have agree' : buffer.count * buffer.datatype.iovec.len = buffer'.count * buffer'.datatype.iovec.len := agree
  rw [bytesDiffer, ← Int.natCast_mul, ← Int.natCast_mul, agree']
  exact bne_self_eq_false _

/-- An amount that is not 0 is what is asked for, and so is 0 when the cookie has no data. -/
theorem requested_eq {amount owned skip lenOwner len : Nat}
    (empty : amount = 0 → (owned - skip) * lenOwner = 0) :
    requested amount owned skip lenOwner len = amount := by
  unfold requested
  split
  · rfl
  case isFalse zero =>
    have none : amount = 0 := not_not.mp zero
    rw [empty none, Nat.zero_div, none]

end Umpi
