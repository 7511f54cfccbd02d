/-
Module: Umpi.Proofs.Packing
Layer: Proofs
Purpose: Packing and unpacking. Items that fit are laid down one after the other, and reading them back with the same
  counts and datatypes gives the same bytes; a call for which the buffer is too small changes nothing. The length of
  an item is narrowed to `int` before it is compared, so the bounds are exact only as long as nothing wraps.
Imports: Umpi.Model.Packing, Umpi.Proofs.Transfers
Trusted boundary: none
Main exports: Item.Packable, packItems_fits, unpackItems_fits, unpack_undoes_pack, MovesExactly,
  pack_bounds_exact_iff, pack_accepts_wrapped
Open obligations: none
-/
import Umpi.Model.Packing
import Umpi.Proofs.Transfers

namespace Umpi

open Foundation

/-! ### Stretches of bytes -/

section Bytes

variable {base : Loc} {first second : Nat}

@[simp] theorem length_byteLocs (base : Loc) (bytes : Nat) : (byteLocs base bytes).length = bytes := by
  simp [byteLocs]

@[simp] theorem byteLocs_zero (base : Loc) : byteLocs base 0 = [] := rfl

theorem mem_byteLocs {location : Loc} {bytes : Nat} :
    location ∈ byteLocs base bytes ↔ ∃ i < bytes, location = base.shift i := by
  simp [byteLocs, eq_comm]

/-- A stretch in two parts. -/
theorem byteLocs_add (base : Loc) (first second : Nat) :
    byteLocs base (first + second) = byteLocs base first ++ byteLocs (base.shift first) second := by
  simp only [byteLocs, List.range_add, List.map_append, List.map_map]
  congr 1
  refine List.map_congr_left fun i _ => ?_
  simp [Loc.shift_shift]

theorem nodup_byteLocs (base : Loc) (bytes : Nat) : (byteLocs base bytes).Nodup := by
  refine List.Nodup.map (fun i j same => ?_) List.nodup_range
  have offsets := Loc.shift_inj.mp same
  omega

/-- Stretches of the same memory, one behind the other. -/
theorem disjoint_byteLocs {region : Region} {start start' : Int}
    (behind : start + first ≤ start' ∨ start' + second ≤ start) :
    (byteLocs ⟨region, start⟩ first).Disjoint (byteLocs ⟨region, start'⟩ second) := by
  intro location inFirst inSecond
  obtain ⟨i, below, rfl⟩ := mem_byteLocs.mp inFirst
  obtain ⟨j, below', same⟩ := mem_byteLocs.mp inSecond
  have addresses := congrArg Loc.addr same
  simp only [Loc.shift_addr] at addresses
  omega

/-- `memcpy` writes what it reads. -/
theorem memcpy_eq (mem : Memory) (target source : Loc) (bytes : Nat) :
    memcpy mem target source bytes =
      writeAll mem (byteLocs target bytes) (readAll mem (byteLocs source bytes)) := rfl

end Bytes

/-! ### Arguments that pass the checks -/

section Arguments

variable {self : Nat} {mem : Memory} {buf packed : Pointer} {count packedSize position : Int} {iovec : Iovec}

theorem mpiPack_eq_move (contiguous : iovec.scattered = false) (buffer : buf = .null → count = 0)
    (given : packed = .null → packedSize = 0) :
    mpiPack true self mem buf count (some iovec) packed packedSize (some position) .world =
      movePacked mem ((packed.loc self).shift position) (buf.loc self) (packedLen count iovec) packedSize
        position := by
  rw [mpiPack, if_neg]
  rintro (new | ⟨null, counted⟩ | scattered | ⟨null, sized⟩ | other)
  · exact new rfl
  · exact counted (buffer null)
  · exact Bool.false_ne_true (contiguous.symm.trans scattered)
  · exact sized (given null)
  · exact other rfl

theorem mpiUnpack_eq_move (contiguous : iovec.scattered = false) (buffer : buf = .null → count = 0)
    (given : packed = .null → packedSize = 0) :
    mpiUnpack true self mem packed packedSize (some position) buf count (some iovec) .world =
      movePacked mem (buf.loc self) ((packed.loc self).shift position) (packedLen count iovec) packedSize
        position := by
  rw [mpiUnpack, if_neg]
  rintro (new | ⟨null, sized⟩ | ⟨null, counted⟩ | scattered | other)
  · exact new rfl
  · exact sized (given null)
  · exact counted (buffer null)
  · exact Bool.false_ne_true (contiguous.symm.trans scattered)
  · exact other rfl

theorem mpiPackSize_eq_len (contiguous : iovec.scattered = false) (old : Int) :
    mpiPackSize true count (some iovec) .world (some old) = (mpiSuccess, some (packedLen count iovec)) := by
  rw [mpiPackSize, if_neg]
  rintro (new | scattered | other)
  · exact new rfl
  · exact Bool.false_ne_true (contiguous.symm.trans scattered)
  · exact other rfl

end Arguments

/-! ### One item -/

/-- The number of bytes of an item, over the integers. -/
def Item.size (item : Item) : Nat := item.count.toNat * (item.datatype.getD []).len

/-- The bytes of an item in the memory of a rank. -/
def Item.locs (self : Nat) (item : Item) : List Loc := byteLocs (item.buf.loc self) item.size

/-- A count that is not negative, of a type that is not scattered, and a buffer unless the count is 0. -/
structure Item.Packable (item : Item) : Prop where
  count : 0 ≤ item.count
  datatype : ∃ iovec, item.datatype = some iovec ∧ iovec.scattered = false
  given : item.buf = .null → item.count = 0

section OneItem

variable {item : Item} {self : Nat} {mem : Memory} {packed : Pointer} {packedSize position : Int}

/-- The length of an item that `int` can hold is exact. -/
theorem packedLen_of_lt {count : Int} {iovec : Iovec} (low : 0 ≤ count)
    (high : count.toNat * iovec.len < 2 ^ 31) :
    packedLen count iovec = (count.toNat * iovec.len : Nat) := by
  obtain ⟨n, rfl⟩ := Int.eq_ofNat_of_zero_le low
  rw [Int.toNat_natCast] at high ⊢
  rw [packedLen, sizeT_mul (by omega), int32_natCast high]

theorem movePacked_fits {target source : Loc} {len : Nat} (low : 0 ≤ position)
    (fits : position + len ≤ packedSize) (high : packedSize < 2 ^ 31) :
    movePacked mem target source len packedSize position =
      .ok { ret := mpiSuccess, mem := memcpy mem target source len, position := position + len } := by
  have range : IsInt (len + position) := ⟨by omega, by omega⟩
  have enough : ¬ packedSize < len + position := by omega
  have exactly : sizeT (len : Int) = len := sizeT_natCast (by omega)
  rw [movePacked, addInt_eq_ok.mpr ⟨range, rfl⟩, Outcome.ok_bind, if_neg enough, exactly, Int.add_comm]
  rfl

theorem movePacked_refused {target source : Loc} {len : Nat} (low : 0 ≤ position)
    (small : packedSize < position + len) (high : position + len < 2 ^ 31) :
    movePacked mem target source len packedSize position =
      .ok { ret := mpiFail, mem := mem, position := position } := by
  have range : IsInt (len + position) := ⟨by omega, by omega⟩
  rw [movePacked, addInt_eq_ok.mpr ⟨range, rfl⟩, Outcome.ok_bind, if_pos (by omega)]
  rfl

/-- `MPI_Pack` of an item. -/
theorem mpiPack_eq (packable : item.Packable) (high : item.size < 2 ^ 31) (given : packed = .null → packedSize = 0) :
    mpiPack true self mem item.buf item.count item.datatype packed packedSize (some position) .world =
      movePacked mem ((packed.loc self).shift position) (item.buf.loc self) item.size packedSize position := by
  obtain ⟨iovec, datatype, contiguous⟩ := packable.datatype
  have bytes : item.size = item.count.toNat * iovec.len := by rw [Item.size, datatype, Option.getD_some]
  rw [bytes] at high
  rw [datatype, mpiPack_eq_move contiguous packable.given given, packedLen_of_lt packable.count high, bytes]

/-- `MPI_Unpack` to the place of an item. -/
theorem mpiUnpack_eq (packable : item.Packable) (high : item.size < 2 ^ 31) (given : packed = .null → packedSize = 0) :
    mpiUnpack true self mem packed packedSize (some position) item.buf item.count item.datatype .world =
      movePacked mem (item.buf.loc self) ((packed.loc self).shift position) item.size packedSize position := by
  obtain ⟨iovec, datatype, contiguous⟩ := packable.datatype
  have bytes : item.size = item.count.toNat * iovec.len := by rw [Item.size, datatype, Option.getD_some]
  rw [bytes] at high
  rw [datatype, mpiUnpack_eq_move contiguous packable.given given, packedLen_of_lt packable.count high, bytes]

/-- `MPI_Pack_size` of an item. -/
theorem mpiPackSize_eq (packable : item.Packable) (high : item.size < 2 ^ 31) (old : Int) :
    mpiPackSize true item.count item.datatype .world (some old) = (mpiSuccess, some (item.size : Int)) := by
  obtain ⟨iovec, datatype, contiguous⟩ := packable.datatype
  have bytes : item.size = item.count.toNat * iovec.len := by rw [Item.size, datatype, Option.getD_some]
  rw [bytes] at high
  rw [datatype, mpiPackSize_eq_len contiguous, packedLen_of_lt packable.count high, bytes]

/-- A buffer that is too small for the next item. -/
theorem pack_refused (packable : item.Packable) (low : 0 ≤ position) (small : packedSize < position + item.size)
    (high : position + item.size < 2 ^ 31) :
    mpiPack true self mem item.buf item.count item.datatype packed packedSize (some position) .world =
        .ok { ret := mpiFail, mem := mem, position := position } ∧
      mpiUnpack true self mem packed packedSize (some position) item.buf item.count item.datatype .world =
        .ok { ret := mpiFail, mem := mem, position := position } := by
  by_cases given : packed = .null → packedSize = 0
  · constructor
    · rw [mpiPack_eq packable (by omega) given, movePacked_refused low small high]
    · rw [mpiUnpack_eq packable (by omega) given, movePacked_refused low small high]
  · obtain ⟨null, sized⟩ := Classical.not_imp.mp given
    obtain ⟨iovec, datatype, contiguous⟩ := packable.datatype
    constructor
    · simp only [mpiPack, datatype]
      rw [if_pos (by simp [null, sized])]
    · simp only [mpiUnpack, datatype]
      rw [if_pos (by simp [null, sized])]

end OneItem

/-! ### Lists of items -/

/-- The number of bytes of all items. -/
def packedTotal (items : List Item) : Nat := (items.map Item.size).sum

@[simp] theorem packedTotal_nil : packedTotal [] = 0 := rfl

@[simp] theorem packedTotal_cons (item : Item) (items : List Item) :
    packedTotal (item :: items) = item.size + packedTotal items := by
  simp [packedTotal]

theorem Item.size_le_packedTotal {item : Item} {items : List Item} (listed : item ∈ items) :
    item.size ≤ packedTotal items := by
  induction items with
  | nil => cases listed
  | cons head items ih =>
      rw [packedTotal_cons]
      rcases List.mem_cons.mp listed with rfl | later
      · omega
      · have below := ih later
        omega

/-- The packed bytes are those of the items, one after the other, and nothing else is written. -/
theorem packItems_fits {self : Nat} {packed : Pointer} {packedSize : Int} (given : packed = .null → packedSize = 0)
    (high : packedSize < 2 ^ 31) (items : List Item) (packable : ∀ item ∈ items, item.Packable) (mem : Memory)
    (position : Int) (low : 0 ≤ position) (fits : position + packedTotal items ≤ packedSize)
    (apart : ∀ item ∈ items,
      (item.locs self).Disjoint (byteLocs ((packed.loc self).shift position) (packedTotal items))) :
    packItems self packed packedSize items { ret := mpiSuccess, mem := mem, position := position } =
      .ok
        { ret := mpiSuccess
          mem := writeAll mem (byteLocs ((packed.loc self).shift position) (packedTotal items))
            (items.flatMap fun item => readAll mem (item.locs self))
          position := position + packedTotal items } := by
  induction items generalizing mem position with
  | nil => simp [packItems]
  | cons item items ih =>
      rw [packedTotal_cons] at fits
      simp only [packedTotal_cons, byteLocs_add, Loc.shift_shift] at apart ⊢
      have later : ∀ other ∈ items,
          (other.locs self).Disjoint (byteLocs ((packed.loc self).shift position) item.size) := fun other listed =>
        List.disjoint_of_disjoint_append_right_left (apart other (List.mem_cons_of_mem _ listed))
      have unchanged : (items.flatMap fun other => readAll
          (memcpy mem ((packed.loc self).shift position) (item.buf.loc self) item.size) (other.locs self)) =
          items.flatMap fun other => readAll mem (other.locs self) :=
        List.flatMap_congr fun other listed => readAll_copyAll_of_disjoint mem _ (later other listed)
      have rest := ih (fun other listed => packable other (List.mem_cons_of_mem _ listed))
        (memcpy mem ((packed.loc self).shift position) (item.buf.loc self) item.size) (position + item.size)
        (by omega) (by omega) fun other listed =>
          List.disjoint_of_disjoint_append_right_right (apart other (List.mem_cons_of_mem _ listed))
      rw [packItems, mpiPack_eq (packable item List.mem_cons_self) (by omega) given,
        movePacked_fits low (by omega) high, Outcome.ok_bind, if_neg (by simp), rest, unchanged, memcpy_eq,
        List.flatMap_cons, Int.natCast_add, Int.add_assoc]
      congr 2
      exact (writeAll_append mem _ _ _ _ (by simp)).symm

/-- What is unpacked are the packed bytes, piece by piece, and nothing else is written. -/
theorem unpackItems_fits {self : Nat} {packed : Pointer} {packedSize : Int} (given : packed = .null → packedSize = 0)
    (high : packedSize < 2 ^ 31) (items : List Item) (packable : ∀ item ∈ items, item.Packable) (mem : Memory)
    (position : Int) (low : 0 ≤ position) (fits : position + packedTotal items ≤ packedSize)
    (apart : ∀ item ∈ items,
      (item.locs self).Disjoint (byteLocs ((packed.loc self).shift position) (packedTotal items)))
    (separate : items.Pairwise fun item other => (item.locs self).Disjoint (other.locs self)) :
    ∃ mem', unpackItems self packed packedSize items { ret := mpiSuccess, mem := mem, position := position } =
        .ok { ret := mpiSuccess, mem := mem', position := position + packedTotal items } ∧
      (∀ location, (∀ item ∈ items, location ∉ item.locs self) → mem' location = mem location) ∧
      (items.flatMap fun item => readAll mem' (item.locs self)) =
        readAll mem (byteLocs ((packed.loc self).shift position) (packedTotal items)) := by
  induction items generalizing mem position with
  | nil => exact ⟨mem, by simp [unpackItems]⟩
  | cons item items ih =>
      obtain ⟨others, separate⟩ := List.pairwise_cons.mp separate
      rw [packedTotal_cons] at fits
      simp only [packedTotal_cons, byteLocs_add, Loc.shift_shift] at apart ⊢
      have own := apart item List.mem_cons_self
      have arrived : readAll (memcpy mem (item.buf.loc self) ((packed.loc self).shift position) item.size)
          (item.locs self) = readAll mem (byteLocs ((packed.loc self).shift position) item.size) :=
        readAll_copyAll_self mem (nodup_byteLocs _ _) (by simp)
      obtain ⟨mem', ran, kept, pieces⟩ := ih (fun other listed => packable other (List.mem_cons_of_mem _ listed))
        (memcpy mem (item.buf.loc self) ((packed.loc self).shift position) item.size) (position + item.size)
        (by omega) (by omega) (fun other listed =>
          List.disjoint_of_disjoint_append_right_right (apart other (List.mem_cons_of_mem _ listed))) separate
      refine ⟨mem', ?_, ?_, ?_⟩
      · rw [unpackItems, mpiUnpack_eq (packable item List.mem_cons_self) (by omega) given,
          movePacked_fits low (by omega) high, Outcome.ok_bind, if_neg (by simp), ran, Int.natCast_add, Int.add_assoc]
      · intro location outside
        rw [kept location fun other listed => outside other (List.mem_cons_of_mem _ listed)]
        exact copyAll_apply_of_notMem mem _ (outside item List.mem_cons_self)
      · -- the later pieces are neither in this item nor does this item cover their packed bytes
        have first : readAll mem' (item.locs self) =
            readAll mem (byteLocs ((packed.loc self).shift position) item.size) := by
          rw [← arrived]
          exact readAll_congr fun location inside => kept location fun other listed member =>
            others other listed inside member
        have unread : readAll (memcpy mem (item.buf.loc self) ((packed.loc self).shift position) item.size)
            (byteLocs ((packed.loc self).shift (position + item.size)) (packedTotal items)) =
            readAll mem (byteLocs ((packed.loc self).shift (position + item.size)) (packedTotal items)) :=
          readAll_copyAll_of_disjoint mem _ (List.disjoint_symm (List.disjoint_of_disjoint_append_right_right own))
        rw [List.flatMap_cons, first, pieces, unread, readAll_append]

/-- Equal concatenations of pieces of equal lengths have equal pieces. -/
theorem forall₂_of_flatMap_eq {α : Type} {f g : Item → List α} {items outs : List Item}
    (lengths : List.Forall₂ (fun item out => (f item).length = (g out).length) items outs)
    (same : items.flatMap f = outs.flatMap g) : List.Forall₂ (fun item out => g out = f item) items outs := by
  induction lengths with
  | nil => exact .nil
  | cons length _ ih =>
      rw [List.flatMap_cons, List.flatMap_cons] at same
      obtain ⟨head, tail⟩ := List.append_inj same length
      exact .cons head.symm (ih tail)

/-- Counts and datatypes of the places to which items are unpacked are those of the items. -/
def SameShape (items outs : List Item) : Prop :=
  List.Forall₂ (fun item out => out.count = item.count ∧ out.datatype = item.datatype) items outs

namespace SameShape

variable {items outs : List Item}

theorem forall₂_size (same : SameShape items outs) : List.Forall₂ (fun item out => out.size = item.size) items outs :=
  List.Forall₂.imp (fun item out equal => by rw [Item.size, Item.size, equal.1, equal.2]) same

theorem packedTotal_eq (same : SameShape items outs) : packedTotal outs = packedTotal items := by
  have sizes := same.forall₂_size
  induction sizes with
  | nil => rfl
  | cons head _ ih =>
      obtain ⟨_, tail⟩ := List.forall₂_cons.mp same
      rw [packedTotal_cons, packedTotal_cons, head, ih tail]

theorem packable (same : SameShape items outs) (packable : ∀ item ∈ items, item.Packable)
    (given : ∀ out ∈ outs, out.buf = .null → out.count = 0) : ∀ out ∈ outs, out.Packable := by
  induction same with
  | nil =>
      intro _ listed
      cases listed
  | @cons item out _ _ equal _ ih =>
      intro other listed
      rcases List.mem_cons.mp listed with rfl | later
      · have first := packable item List.mem_cons_self
        exact ⟨equal.1 ▸ first.count, equal.2 ▸ first.datatype, given _ List.mem_cons_self⟩
      · exact ih (fun item listed => packable item (List.mem_cons_of_mem _ listed))
          (fun out listed => given out (List.mem_cons_of_mem _ listed)) other later

end SameShape

/-- Items whose sizes and start position add up to a size that `int` can hold are packed one after the other, and
    whoever has received the packed bytes gets them back by unpacking with the same counts and datatypes. A call for
    which the packed buffer is too small changes nothing. -/
theorem unpack_undoes_pack {self : Nat} {items : List Item} {packed : Pointer} {packedSize position : Int}
    {mem : Memory} (packable : ∀ item ∈ items, item.Packable) (given : packed = .null → packedSize = 0)
    (low : 0 ≤ position) (fits : position + packedTotal items ≤ packedSize) (high : packedSize < 2 ^ 31)
    (apart : ∀ item ∈ items,
      (item.locs self).Disjoint (byteLocs ((packed.loc self).shift position) (packedTotal items))) :
    (∀ item ∈ items, ∀ old, mpiPackSize true item.count item.datatype .world (some old) =
      (mpiSuccess, some (item.size : Int))) ∧
    (∃ mem', packItems self packed packedSize items { ret := mpiSuccess, mem := mem, position := position } =
        .ok { ret := mpiSuccess, mem := mem', position := position + packedTotal items } ∧
      (∀ location ∉ byteLocs ((packed.loc self).shift position) (packedTotal items),
        mem' location = mem location) ∧
      ∀ (other : Nat) (received : Pointer) (outs : List Item) (arrived : Memory), SameShape items outs →
        (received = .null → packedSize = 0) → (∀ out ∈ outs, out.buf = .null → out.count = 0) →
        readAll arrived (byteLocs ((received.loc other).shift position) (packedTotal items)) =
          readAll mem' (byteLocs ((packed.loc self).shift position) (packedTotal items)) →
        (∀ out ∈ outs, (out.locs other).Disjoint
          (byteLocs ((received.loc other).shift position) (packedTotal items))) →
        (outs.Pairwise fun out later => (out.locs other).Disjoint (later.locs other)) →
        ∃ mem'', unpackItems other received packedSize outs
            { ret := mpiSuccess, mem := arrived, position := position } =
            .ok { ret := mpiSuccess, mem := mem'', position := position + packedTotal items } ∧
          List.Forall₂ (fun item out => readAll mem'' (out.locs other) = readAll mem (item.locs self)) items outs) ∧
    ∀ (item : Item) (rank : Nat) (buffer : Pointer) (size start : Int) (before : Memory), item.Packable → 0 ≤ start →
      size < start + item.size → start + item.size < 2 ^ 31 →
      mpiPack true rank before item.buf item.count item.datatype buffer size (some start) .world =
          .ok { ret := mpiFail, mem := before, position := start } ∧
        mpiUnpack true rank before buffer size (some start) item.buf item.count item.datatype .world =
          .ok { ret := mpiFail, mem := before, position := start } := by
  refine ⟨fun item listed old => ?_, ⟨_, packItems_fits given high items packable mem position low fits apart, ?_, ?_⟩,
    fun item rank buffer size start before valid => pack_refused valid⟩
  · have below := Item.size_le_packedTotal listed
    exact mpiPackSize_eq (packable item listed) (by omega) old
  · exact fun location outside => writeAll_apply_of_notMem mem _ _ outside
  · intro other received outs arrived same givenBack buffers bytes separated disjoint
    have total := same.packedTotal_eq
    rw [← total] at fits separated bytes ⊢
    obtain ⟨mem'', ran, _, pieces⟩ := unpackItems_fits givenBack high outs (same.packable packable buffers) arrived
      position low fits separated disjoint
    refine ⟨mem'', ran, forall₂_of_flatMap_eq (f := fun item => readAll mem (item.locs self))
      (g := fun out => readAll mem'' (out.locs other)) ?_ ?_⟩
    · refine List.Forall₂.imp (fun item out equal => ?_) same.forall₂_size
      simp [Item.locs, equal]
    · have lengths : (byteLocs ((packed.loc self).shift position) (packedTotal items)).length =
          (items.flatMap fun item => readAll mem (item.locs self)).length := by
        simp [List.length_flatMap, Item.locs, packedTotal]
      rw [pieces, bytes, total, readAll_writeAll_self mem (nodup_byteLocs _ _) lengths]

/-- Two integers and three characters. -/
def mixedItems (integers characters : Int) : List Item :=
  [{ buf := .addr integers, count := 2, datatype := Datatype.mpiInt.iovec },
    { buf := .addr characters, count := 3, datatype := Datatype.mpiChar.iovec }]

/-- What holds of both items holds of every item. -/
theorem forall_mixedItems {integers characters : Int} {holds : Item → Prop}
    (ints : holds { buf := .addr integers, count := 2, datatype := Datatype.mpiInt.iovec })
    (chars : holds { buf := .addr characters, count := 3, datatype := Datatype.mpiChar.iovec }) :
    ∀ item ∈ mixedItems integers characters, holds item := by
  intro item listed
  simp only [mixedItems, List.mem_cons, List.not_mem_nil, or_false] at listed
  rcases listed with rfl | rfl
  · exact ints
  · exact chars

/-- Integers and characters that lie elsewhere, packed behind two bytes that are in use and unpacked again. -/
theorem unpack_undoes_pack_mixed :
    ∃ mem' mem'',
      packItems 0 (.addr 100) 16 (mixedItems 0 20)
          { ret := mpiSuccess, mem := fun location => if location.addr < 50 then 7 else 0, position := 2 } =
        .ok { ret := mpiSuccess, mem := mem', position := 13 } ∧
      unpackItems 0 (.addr 100) 16 (mixedItems 200 220) { ret := mpiSuccess, mem := mem', position := 2 } =
        .ok { ret := mpiSuccess, mem := mem'', position := 13 } := by
  have valid : ∀ item ∈ mixedItems 0 20, item.Packable :=
    forall_mixedItems ⟨by simp, ⟨_, rfl, rfl⟩, fun null => absurd null (by simp)⟩
      ⟨by simp, ⟨_, rfl, rfl⟩, fun null => absurd null (by simp)⟩
  obtain ⟨_, ⟨mem', packed, _, unpack⟩, _⟩ := @unpack_undoes_pack 0 (mixedItems 0 20) (.addr 100) 16 2
    (fun location => if location.addr < 50 then 7 else 0) valid (by decide) (by decide) (by decide) (by decide)
    (forall_mixedItems (disjoint_byteLocs (Or.inl (by decide))) (disjoint_byteLocs (Or.inl (by decide))))
  obtain ⟨mem'', unpacked, _⟩ := unpack 0 (.addr 100) (mixedItems 200 220) mem'
    (.cons ⟨rfl, rfl⟩ (.cons ⟨rfl, rfl⟩ .nil)) (by decide)
    (forall_mixedItems (fun null => absurd null (by simp)) (fun null => absurd null (by simp))) rfl
    (forall_mixedItems (disjoint_byteLocs (Or.inr (by decide))) (disjoint_byteLocs (Or.inr (by decide))))
    (List.pairwise_pair.mpr (disjoint_byteLocs (Or.inl (by decide))))
  exact ⟨mem', mem'', packed, unpacked⟩

/-! ### Bounds -/

/-- A call on a packed buffer of `size` bytes succeeds exactly when `bytes` more bytes fit behind `position`,
    and then it copies these bytes and adds their number to `*position`. -/
def MovesExactly (mem : Memory) (target source : Loc) (bytes : Nat) (size position : Int)
    (outcome : Outcome Packing) : Prop :=
  ∃ done, outcome = .ok done ∧ (done.ret = mpiSuccess ↔ position + bytes ≤ size) ∧
    (done.ret = mpiSuccess → done.mem = memcpy mem target source bytes ∧ done.position = position + bytes)

/-- The end of the item is a value of type `int`, or what the length leaves modulo `2 ^ 32` does not fit either and
    its end is a value of type `int`. -/
def BoundExact (bytes : Nat) (size position : Int) : Prop :=
  position + bytes < 2 ^ 31 ∨
    (size < position + (bytes % 2 ^ 32 : Nat) ∧ position + (bytes % 2 ^ 32 : Nat) < 2 ^ 31)

/-- Narrowing a `size_t` loses nothing that the first conversion has kept. -/
theorem int32_sizeT (x : Int) : int32 (sizeT x) = int32 x := by
  rw [int32, int32, sizeT, Int.bmod_def, Int.bmod_def]
  omega

theorem packedLen_eq {count : Int} (low : 0 ≤ count) (iovec : Iovec) :
    packedLen count iovec = int32 (count.toNat * iovec.len : Nat) := by
  obtain ⟨n, rfl⟩ := Int.eq_ofNat_of_zero_le low
  rw [packedLen, int32_sizeT, Int.natCast_mul, Int.toNat_natCast]

theorem int32_isInt (x : Int) : IsInt (int32 x) := by
  rw [IsInt, int32, Int.bmod_def]
  omega

/-- A narrowed length that is positive is the remainder. -/
theorem int32_eq_mod {bytes : Nat} (positive : 0 < int32 bytes) : int32 bytes = (bytes % 2 ^ 32 : Nat) := by
  rw [int32, Int.bmod_def] at positive ⊢
  omega

theorem int32_of_mod {bytes : Nat} (small : bytes % 2 ^ 32 < 2 ^ 31) : int32 bytes = (bytes % 2 ^ 32 : Nat) := by
  rw [int32, Int.bmod_def]
  omega

section Bounds

variable {mem : Memory} {target source : Loc} {bytes : Nat} {size position : Int}

theorem movePacked_exact_iff (low : 0 ≤ position) (inside : position ≤ size) (high : size < 2 ^ 31) :
    MovesExactly mem target source bytes size position
        (movePacked mem target source (int32 bytes) size position) ↔ BoundExact bytes size position := by
  have failed : mpiFail ≠ mpiSuccess := mpiFail_ne_mpiSuccess
  constructor
  · rintro ⟨done, moved, exactly, _⟩
    by_cases whole : position + bytes < 2 ^ 31
    · exact Or.inl whole
    · -- the item does not fit, so the call has found the narrowed length too long
      obtain ⟨stop, added, rest⟩ := Outcome.bind_eq_ok.mp moved
      obtain ⟨range, rfl⟩ := addInt_eq_ok.mp added
      by_cases long : size < int32 bytes + position
      · have positive : 0 < int32 bytes := by omega
        rw [int32_eq_mod positive] at long range
        exact Or.inr ⟨by omega, by have below := range.2; omega⟩
      · rw [if_neg long] at rest
        obtain rfl := Outcome.ok.inj rest
        have fits := exactly.mp rfl
        omega
  · rintro (whole | ⟨long, range⟩)
    · have same : int32 bytes = bytes := int32_natCast (by omega)
      rw [same]
      by_cases fits : position + bytes ≤ size
      · exact ⟨_, movePacked_fits low fits high, ⟨fun _ => fits, fun _ => rfl⟩, fun _ => ⟨rfl, rfl⟩⟩
      · exact ⟨_, movePacked_refused low (by omega) whole,
          ⟨fun succeeded => absurd succeeded failed, fun held => absurd held fits⟩,
          fun succeeded => absurd succeeded failed⟩
    · rw [int32_of_mod (by omega)]
      have shorter := Nat.mod_le bytes (2 ^ 32)
      refine ⟨_, movePacked_refused low long range, ⟨fun succeeded => absurd succeeded failed, fun held => ?_⟩,
        fun succeeded => absurd succeeded failed⟩
      omega

end Bounds

/-- `MPI_Pack` and `MPI_Unpack` keep to their bounds exactly when the sums of lengths stay values of type `int`
    or happen to stay too long, and `MPI_Pack_size` reports the size exactly when `int` can hold it. -/
theorem pack_bounds_exact_iff {self : Nat} {mem : Memory} {buf packed : Pointer} {count size position : Int}
    {iovec : Iovec} (counts : 0 ≤ count) (contiguous : iovec.scattered = false) (buffer : buf = .null → count = 0)
    (given : packed = .null → size = 0) (low : 0 ≤ position) (inside : position ≤ size) (high : size < 2 ^ 31) :
    (MovesExactly mem ((packed.loc self).shift position) (buf.loc self) (count.toNat * iovec.len) size position
        (mpiPack true self mem buf count (some iovec) packed size (some position) .world) ↔
      BoundExact (count.toNat * iovec.len) size position) ∧
    (MovesExactly mem (buf.loc self) ((packed.loc self).shift position) (count.toNat * iovec.len) size position
        (mpiUnpack true self mem packed size (some position) buf count (some iovec) .world) ↔
      BoundExact (count.toNat * iovec.len) size position) ∧
    ((∀ old, mpiPackSize true count (some iovec) .world (some old) =
        (mpiSuccess, some ((count.toNat * iovec.len : Nat) : Int))) ↔ count.toNat * iovec.len < 2 ^ 31) := by
  have len := packedLen_eq counts iovec
  refine ⟨?_, ?_, ?_⟩
  · rw [mpiPack_eq_move contiguous buffer given, len]
    exact movePacked_exact_iff low inside high
  · rw [mpiUnpack_eq_move contiguous buffer given, len]
    exact movePacked_exact_iff low inside high
  · simp only [mpiPackSize_eq_len contiguous, len]
    constructor
    · intro reported
      have same := Option.some.inj (Prod.mk.inj (reported 0)).2
      have range := int32_isInt (count.toNat * iovec.len : Nat)
      rw [same] at range
      exact Int.ofNat_lt.mp range.2
    · intro small _
      rw [int32_natCast small]

/-- For three integers and a buffer that ends in the middle of the third, nothing wraps. -/
theorem pack_bounds_exact_three :
    MovesExactly (fun _ => 0) ((Pointer.addr 0).loc 0) (((Pointer.addr 100).loc 0).shift 0) (3 * 4) 10 0
      (mpiUnpack true 0 (fun _ => 0) (.addr 100) 10 (some 0) (.addr 0) 3 Datatype.mpiInt.iovec .world) :=
  (@pack_bounds_exact_iff 0 (fun _ => 0) (.addr 0) (.addr 100) 3 10 0 Datatype.mpiInt.iovec (by decide) rfl
    (by decide) (by decide) (by decide) (by decide) (by decide)).2.1.mpr (Or.inl (by decide))

/-- A buffer of eight bytes takes four gigabytes of integers: the number of bytes is a multiple of `2 ^ 32`. -/
theorem pack_accepts_wrapped :
    ¬ MovesExactly (fun _ => 0) (((Pointer.addr 100).loc 0).shift 0) ((Pointer.addr 0).loc 0) 4294967296 8 0
      (mpiPack true 0 (fun _ => 0) (.addr 0) 1073741824 Datatype.mpiInt.iovec (.addr 100) 8 (some 0) .world) := by
  have bytes : (1073741824 : Int).toNat * Datatype.mpiInt.iovec.len = 4294967296 := rfl
  rw [mpiPack_eq_move rfl (by decide) (by decide), packedLen_eq (by decide), bytes]
  intro exactly
  have bound := (movePacked_exact_iff le_rfl (by decide) (by decide)).mp exactly
  rw [BoundExact] at bound
  omega

end Umpi
