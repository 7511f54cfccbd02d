/-
Module: Umpi.Proofs.Pool
Layer: Proofs
Purpose: The memory pool keeps its blocks apart and wastes nothing. `Tidy` is what every sequence of calls keeps:
  the blocks in use and the free lists are pairwise disjoint ranges of the mapping, and every free list is
  threaded through its blocks.
Imports: Umpi.Foundation.FreeList, Umpi.Model.MemoryPool
Trusted boundary: none
Main exports: Tidy, pool_blocks_apart, pool_wastes_nothing
Open obligations: none
-/
import Umpi.Foundation.FreeList
import Umpi.Model.MemoryPool
import Mathlib.Algebra.BigOperators.Group.Finset.Basic

namespace Umpi

open Foundation

/-! ### Rounding -/

section Rounding

variable {v len : Nat}

/-- The mask `~(align_size - 1)` clears the low bits. -/
theorem and_alignMask (small : v < 2 ^ 64) :
    v &&& (2 ^ 64 - 1 - (alignSize - 1)) = v / alignSize * alignSize := by
  apply Nat.eq_of_testBit_eq
  intro i
  have mask : 2 ^ 64 - 1 - (alignSize - 1) = 2 ^ 64 - ((2 ^ 4 - 1) + 1) := rfl
  have unit : alignSize = 2 ^ 4 := rfl
  rw [Nat.testBit_and, mask, Nat.testBit_two_pow_sub_succ (by decide), Nat.testBit_two_pow_sub_one, unit,
    Nat.testBit_mul_two_pow, Nat.testBit_div_two_pow]
  by_cases low : i < 4
  · have notHigh : ¬ 4 ≤ i := by omega
    simp [low, notHigh]
  · have high : 4 ≤ i := by omega
    by_cases inside : i < 64
    · simp [low, high, inside]
    · have zero : v.testBit i = false :=
        Nat.testBit_lt_two_pow (Nat.lt_of_lt_of_le small (Nat.pow_le_pow_right (by decide) (by omega)))
      simp [low, high, inside, zero]

theorem align_eq (small : v + (alignSize - 1) < 2 ^ 64) :
    MemoryPool.align v = (v + (alignSize - 1)) / alignSize * alignSize := by
  unfold MemoryPool.align
  rw [Nat.mod_eq_of_lt small, and_alignMask small]

theorem list_eq (positive : 0 < v) (small : v < 2 ^ 64) : MemoryPool.list v = (v - 1) / alignSize := by
  unfold MemoryPool.list
  have wrapped : (v + (2 ^ 64 - 1)) % 2 ^ 64 = v - 1 := by omega
  rw [wrapped]

/-- The rounded length fills the blocks of its class. -/
theorem alignedLen_eq (small : max pointerSize len + (alignSize - 1) < 2 ^ 64) :
    MemoryPool.alignedLen len = (MemoryPool.classOf len + 1) * alignSize := by
  unfold MemoryPool.classOf MemoryPool.alignedLen
  rw [align_eq small]
  simp only [alignSize, pointerSize] at small ⊢
  rw [list_eq (by omega) (by omega)]
  simp only [alignSize]
  omega

theorem le_alignedLen (small : max pointerSize len + (alignSize - 1) < 2 ^ 64) :
    max pointerSize len ≤ MemoryPool.alignedLen len := by
  unfold MemoryPool.alignedLen
  rw [align_eq small]
  simp only [alignSize, pointerSize]
  omega

end Rounding

/-! ### Pointers in memory -/

namespace PoolMemory

variable {mem mem' : PoolMemory} {address : Nat}

/-- The bytes of a number, each at its place, make up the number. -/
theorem sum_digits (v digits : Nat) :
    ((List.range digits).map fun k => v / 256 ^ k % 256 * 256 ^ k).sum = v % 256 ^ digits := by
  induction digits with
  | zero => simp [Nat.mod_one]
  | succ digits ih =>
      rw [List.range_succ, List.map_append, List.sum_append, ih, Nat.mod_pow_succ]
      simp [Nat.mul_comm]

/-- A pointer is read back from its bytes. -/
theorem load_store (pointer : Option Nat) (bounded : ∀ a ∈ pointer, a < 2 ^ 63) :
    (mem.store address pointer).load address = pointer := by
  have bits : pointerBits pointer < 2 ^ 64 := by
    cases pointer with
    | none => decide
    | some a => exact Nat.lt_trans (bounded a rfl) (by decide)
  have decoded : pointerOfBits (pointerBits pointer) = pointer := by
    cases pointer with
    | none => rfl
    | some a => exact if_neg (Nat.ne_of_lt (bounded a rfl))
  have byte : ∀ k, k < pointerSize → ((mem.store address pointer) (address + k)).toNat =
      pointerBits pointer / 256 ^ k % 256 := by
    intro k small
    have inside : address ≤ address + k ∧ address + k < address + pointerSize := by omega
    simp [store, inside]
  have sum : ((List.range pointerSize).map fun k =>
      ((mem.store address pointer) (address + k)).toNat * 256 ^ k).sum = pointerBits pointer := by
    have same : ((List.range pointerSize).map fun k =>
        ((mem.store address pointer) (address + k)).toNat * 256 ^ k) =
        (List.range pointerSize).map fun k => pointerBits pointer / 256 ^ k % 256 * 256 ^ k :=
      List.map_congr_left fun k listed => by rw [byte k (List.mem_range.mp listed)]
    rw [same, sum_digits]
    exact Nat.mod_eq_of_lt bits
  unfold load
  rw [sum, decoded]

/-- Reading a pointer depends on its bytes. -/
theorem load_congr (same : ∀ a, address ≤ a → a < address + pointerSize → mem' a = mem a) :
    mem'.load address = mem.load address := by
  unfold load
  refine congrArg (fun bytes : List Nat => pointerOfBits bytes.sum) (List.map_congr_left fun k listed => ?_)
  have small := List.mem_range.mp listed
  rw [same (address + k) (by omega) (by omega)]

/-- Storing a pointer leaves the other bytes alone. -/
theorem store_of_outside {pointer : Option Nat} {a : Nat}
    (outside : a < address ∨ address + pointerSize ≤ a) : mem.store address pointer a = mem a := by
  have notInside : ¬ (address ≤ a ∧ a < address + pointerSize) := by omega
  simp [store, notInside]

end PoolMemory

/-! ### Blocks -/

/-- What a live block takes up. -/
def Block.extent (block : Block) : Extent :=
  { start := block.address, len := MemoryPool.alignedLen block.len }

/-- What a free block of class `i` takes up. -/
def freeExtent (i address : Nat) : Extent := { start := address, len := (i + 1) * alignSize }

/-- What the free blocks of all classes take up. -/
def freeExtents (classes : Nat) (free : Nat → List Nat) : List Extent :=
  (List.range classes).flatMap fun i => (free i).map (freeExtent i)

theorem freeExtents_update {classes i address : Nat} {free : Nat → List Nat} {rest : List Nat}
    (small : i < classes) (grown : free i = address :: rest) :
    (freeExtents classes free).Perm
      (freeExtent i address :: freeExtents classes (Function.update free i rest)) := by
  refine perm_flatMap_cons List.nodup_range (List.mem_range.mpr small) ?_ fun j _ other => ?_
  · simp [grown]
  · simp [other]

theorem mem_freeExtents {classes i address : Nat} {free : Nat → List Nat} (small : i < classes)
    (listed : address ∈ free i) : freeExtent i address ∈ freeExtents classes free :=
  List.mem_flatMap.mpr ⟨i, List.mem_range.mpr small, List.mem_map_of_mem listed⟩

variable {maxDeallocSize : Nat}

/-- What live and free blocks take up. -/
def Pooled.extents (s : Pooled maxDeallocSize) (free : Nat → List Nat) : List Extent :=
  s.live.map Block.extent ++ freeExtents (MemoryPool.listSize maxDeallocSize) free

/-- What `std::align` finds is aligned, and the rest of the space is behind it. -/
theorem stdAlign_eq_some {alignment size address space found left : Nat} (positive : 0 < alignment)
    (aligned : stdAlign alignment size address space = some (found, left)) :
    alignment ∣ found ∧ address ≤ found ∧ found + left = address + space ∧ size ≤ left := by
  simp only [stdAlign] at aligned
  split at aligned
  case isTrue => cases aligned
  case isFalse fits =>
    obtain ⟨rfl, rfl⟩ := Prod.mk.inj (Option.some.inj aligned)
    refine ⟨?_, Nat.le_add_right _ _, by omega, by omega⟩
    have inside := Nat.mod_lt address positive
    have parts := Nat.div_add_mod address alignment
    have next : address + (alignment - address % alignment) = alignment * (address / alignment + 1) := by
      rw [Nat.mul_add]
      omega
    apply Nat.dvd_of_mod_eq_zero
    rw [Nat.add_mod_mod, next, Nat.mul_mod_right]

/-- The state of a pool whose aligned region is the addresses from `low` up to `high`, if `free i` are the
    free blocks of class `i`: every list is threaded through its blocks, and everything below `begin_` belongs
    to exactly one block. -/
structure Tidy (low high : Nat) (s : Pooled maxDeallocSize) (free : Nat → List Nat) : Prop where
  chains : ∀ i < MemoryPool.listSize maxDeallocSize, Chain s.mem.load (s.pool.first i) (free i)
  counts : ∀ i < MemoryPool.listSize maxDeallocSize, s.pool.count i = (free i).length
  packed : Packed low s.pool.begin_ (s.extents free)
  aligned : ∀ extent ∈ s.extents free, alignSize ∣ extent.start
  sized : ∀ block ∈ s.live, 0 < block.len ∧ max pointerSize block.len + (alignSize - 1) < 2 ^ 64
  order : low ≤ s.pool.begin_
  frontier : alignSize ∣ s.pool.begin_
  rest : s.pool.begin_ + s.pool.space = high
  total : low + ((s.extents free).map Extent.len).sum = s.pool.begin_

namespace Tidy

variable {low high : Nat} {s s' : Pooled maxDeallocSize} {free : Nat → List Nat}

/-- A pool that has just been constructed. -/
theorem start {begin_ end_ : Nat} {pool : MemoryPool maxDeallocSize}
    (constructed : MemoryPool.construct begin_ end_ = some pool) (mem : PoolMemory) :
    Tidy pool.begin_ end_ { pool := pool, mem := mem, live := [] } fun _ => [] := by
  have nothing : ({ pool := pool, mem := mem, live := [] } : Pooled maxDeallocSize).extents (fun _ => []) = [] := by
    simp [Pooled.extents, freeExtents]
  unfold MemoryPool.construct at constructed
  obtain ⟨⟨address, space⟩, found, rfl⟩ := Option.map_eq_some_iff.mp constructed
  obtain ⟨aligned, low, whole, fits⟩ := stdAlign_eq_some (by decide) found
  have room : 0 < MemoryPool.align pointerSize := by decide
  exact
    { chains := fun _ _ => .null, counts := fun _ _ => rfl, packed := nothing ▸ .nil
      aligned := fun extent listed => absurd (nothing ▸ listed) List.not_mem_nil
      sized := fun block listed => absurd listed List.not_mem_nil
      order := Nat.le_refl _, frontier := aligned
      rest := by
        dsimp only
        omega
      total := by
        rw [nothing]
        rfl }

/-- An address in a live block is in no free block. -/
theorem outside (tidy : Tidy low high s free) {block : Block} (listed : block ∈ s.live) {a : Nat}
    (low' : block.address ≤ a) (high' : a < block.address + MemoryPool.alignedLen block.len) {i address : Nat}
    (small : i < MemoryPool.listSize maxDeallocSize) (isFree : address ∈ free i) :
    a < address ∨ address + (i + 1) * alignSize ≤ a := by
  have apart := (List.pairwise_append.mp tidy.packed.apart).2.2 block.extent (List.mem_map_of_mem listed)
    (freeExtent i address) (mem_freeExtents small isFree)
  exact apart.notMem low' high'

/-- Only the bytes inside live blocks have changed. -/
theorem written (tidy : Tidy low high s free) {mem : PoolMemory} {block : Block} (listed : block ∈ s.live)
    (inside : ∀ a, a < block.address ∨ block.address + MemoryPool.alignedLen block.len ≤ a → mem a = s.mem a)
    {i : Nat} (small : i < MemoryPool.listSize maxDeallocSize) {address : Nat} (isFree : address ∈ free i) :
    mem.load address = s.mem.load address := by
  refine PoolMemory.load_congr fun a low' high' => inside a ?_
  by_contra within
  have room : pointerSize ≤ (i + 1) * alignSize := by
    simp only [pointerSize, alignSize]
    omega
  have outside := tidy.outside listed (a := a) (by omega) (by omega) small isFree
  omega

/-- A client writes into a live block. -/
theorem write (tidy : Tidy low high s free) {address : Nat} {value : UInt8}
    (allowed : s.Allowed (.write address value)) :
    Tidy low high { s with mem := Function.update s.mem address value } free := by
  obtain ⟨block, listed, first, last⟩ := allowed
  obtain ⟨positive, roundable⟩ := tidy.sized block listed
  have fits := le_alignedLen roundable
  refine { tidy with chains := fun i small => (tidy.chains i small).congr fun other isFree => ?_ }
  refine tidy.written listed (fun a outside => ?_) small isFree
  have different : a ≠ address := by omega
  simp [different]

end Tidy

/-! ### What a call can do -/

/-- What becomes of a pool whose free blocks are `free`, and of the free blocks: a call does nothing, hands out
    the first free block of the class, cuts a new block off the rest, takes a block back, or writes. -/
inductive Effect (s : Pooled maxDeallocSize) (free : Nat → List Nat) :
    PoolCall → Pooled maxDeallocSize → (Nat → List Nat) → Prop where
  | nothing {call : PoolCall} (idle : call = .alloc 0 ∨ ∃ p, call = .dealloc p 0) : Effect s free call s free
  | reused {len address : Nat} {rest : List Nat} (positive : 0 < len)
      (roundable : max pointerSize len + (alignSize - 1) < 2 ^ 64)
      (small : MemoryPool.classOf len < MemoryPool.listSize maxDeallocSize)
      (list : free (MemoryPool.classOf len) = address :: rest) :
      Effect s free (.alloc len)
        { s with
          pool :=
            { s.pool with
              count := Function.update s.pool.count (MemoryPool.classOf len) rest.length
              first := Function.update s.pool.first (MemoryPool.classOf len) (s.mem.load address) }
          live := { address := address, len := len } :: s.live }
        (Function.update free (MemoryPool.classOf len) rest)
  | carved {len : Nat} (positive : 0 < len)
      (roundable : max pointerSize len + (alignSize - 1) < 2 ^ 64)
      (none : MemoryPool.classOf len < MemoryPool.listSize maxDeallocSize → free (MemoryPool.classOf len) = [])
      (fits : MemoryPool.alignedLen len ≤ s.pool.space) :
      Effect s free (.alloc len)
        { s with
          pool :=
            { s.pool with
              begin_ := s.pool.begin_ + MemoryPool.alignedLen len
              space := s.pool.space - MemoryPool.alignedLen len }
          live := { address := s.pool.begin_, len := len } :: s.live }
        free
  | returned {address len : Nat} (listed : { address := address, len := len } ∈ s.live)
      (small : MemoryPool.classOf len < MemoryPool.listSize maxDeallocSize) :
      Effect s free (.dealloc (some address) len)
        { pool :=
            { s.pool with
              count := Function.update s.pool.count (MemoryPool.classOf len)
                ((free (MemoryPool.classOf len)).length + 1)
              first := Function.update s.pool.first (MemoryPool.classOf len) (some address) }
          mem := s.mem.store address (s.pool.first (MemoryPool.classOf len))
          live := s.live.erase { address := address, len := len } }
        (Function.update free (MemoryPool.classOf len) (address :: free (MemoryPool.classOf len)))
  | written {address : Nat} {value : UInt8} (allowed : s.Allowed (.write address value)) :
      Effect s free (.write address value) { s with mem := Function.update s.mem address value } free

namespace Tidy

variable {low high : Nat} {s s' : Pooled maxDeallocSize} {free : Nat → List Nat}

/-- There are not more free blocks than addresses. -/
theorem length_free_le (tidy : Tidy low high s free) {i : Nat}
    (small : i < MemoryPool.listSize maxDeallocSize) : (free i).length ≤ high := by
  have part : (free i).length ≤ (s.extents free).length := by
    have sublist : ((free i).map (freeExtent i)).Sublist
        (freeExtents (MemoryPool.listSize maxDeallocSize) free) := by
      rw [freeExtents, List.flatMap_def]
      exact List.sublist_flatten_of_mem (List.mem_map_of_mem (List.mem_range.mpr small))
    have shorter := sublist.length_le
    rw [List.length_map] at shorter
    exact Nat.le_trans shorter (by simp [Pooled.extents])
  have filled : ∀ len ∈ (s.extents free).map Extent.len, 1 ≤ len := by
    intro len listed
    obtain ⟨extent, member, rfl⟩ := List.mem_map.mp listed
    rcases List.mem_append.mp member with isLive | isFree
    · obtain ⟨block, inLive, rfl⟩ := List.mem_map.mp isLive
      obtain ⟨positive, roundable⟩ := tidy.sized block inLive
      have fits := le_alignedLen roundable
      simp only [Block.extent]
      omega
    · obtain ⟨j, _, inClass⟩ := List.mem_flatMap.mp isFree
      obtain ⟨address, _, rfl⟩ := List.mem_map.mp inClass
      simp only [freeExtent, alignSize]
      omega
  have count := List.length_le_sum_of_one_le _ filled
  rw [List.length_map] at count
  have total := tidy.total
  have rest := tidy.rest
  omega

/-- What a call that ends normally does. -/
theorem effect (tidy : Tidy low high s free) (bounded : high < 2 ^ 63) {call : PoolCall}
    (allowed : s.Allowed call) (stepped : s.step call = .ok s') :
    ∃ free', Effect s free call s' free' := by
  cases call with
  | alloc len =>
      simp only [Pooled.step, MemoryPool.alloc] at stepped
      obtain ⟨⟨p, pool⟩, allocated, rest⟩ := Outcome.bind_eq_ok.mp stepped
      split at allocated
      case isTrue zero =>
        subst zero
        obtain ⟨rfl, rfl⟩ := Prod.mk.inj (Outcome.ok.inj allocated)
        cases rest
        exact ⟨free, .nothing (Or.inl rfl)⟩
      case isFalse notZero =>
        have positive : 0 < len := Nat.pos_of_ne_zero notZero
        split at allocated
        case isTrue able =>
          obtain ⟨small, notEmpty⟩ := able
          have same : MemoryPool.list (MemoryPool.alignedLen len) = MemoryPool.classOf len := rfl
          rw [same] at small notEmpty allocated
          have filled : free (MemoryPool.classOf len) ≠ [] := by
            intro none
            have count := tidy.counts _ small
            rw [none] at count
            simp [MemoryPool.empty, count] at notEmpty
          obtain ⟨address, tail, first, list, _⟩ := (tidy.chains _ small).of_ne_nil filled
          have count := tidy.counts _ small
          have few := tidy.length_free_le small
          rw [list, List.length_cons] at few count
          unfold MemoryPool.pop at allocated
          rw [first] at allocated
          obtain ⟨rfl, rfl⟩ := Prod.mk.inj (Outcome.ok.inj allocated)
          cases rest
          have less : (s.pool.count (MemoryPool.classOf len) + (2 ^ 64 - 1)) % 2 ^ 64 = tail.length := by omega
          rw [less]
          exact ⟨_, .reused positive allowed small list⟩
        case isFalse unable =>
          split at allocated
          case isTrue => cases allocated
          case isFalse fits =>
            obtain ⟨rfl, rfl⟩ := Prod.mk.inj (Outcome.ok.inj allocated)
            cases rest
            refine ⟨free, .carved positive allowed (fun small => ?_) (Nat.le_of_not_lt fits)⟩
            have count := tidy.counts _ small
            have zero : s.pool.count (MemoryPool.classOf len) = 0 := by
              by_contra filled
              have notEmpty : s.pool.empty (MemoryPool.classOf len) = false := by
                simpa [MemoryPool.empty] using filled
              exact unable ⟨small, congrArg not notEmpty⟩
            exact List.eq_nil_of_length_eq_zero (count.symm.trans zero)
  | dealloc p len =>
      simp only [Pooled.step, MemoryPool.dealloc] at stepped
      obtain ⟨⟨pool, mem⟩, freed, rest⟩ := Outcome.bind_eq_ok.mp stepped
      split at freed
      case isTrue zero =>
        subst zero
        obtain ⟨rfl, rfl⟩ := Prod.mk.inj (Outcome.ok.inj freed)
        refine ⟨free, ?_⟩
        have kept : s' = s := by
          cases p with
          | none => exact (Outcome.ok.inj rest).symm
          | some address =>
              have absent : { address := address, len := 0 } ∉ s.live := fun listed =>
                absurd (tidy.sized _ listed).1 (lt_irrefl 0)
              rw [← Outcome.ok.inj rest, List.erase_of_not_mem absent]
        rw [kept]
        exact .nothing (Or.inr ⟨p, rfl⟩)
      case isFalse notZero =>
        obtain ⟨address, rfl, listed⟩ := allowed.resolve_left notZero
        split at freed
        case isTrue => cases freed
        case isFalse within =>
          have small : MemoryPool.classOf len < MemoryPool.listSize maxDeallocSize := Nat.lt_of_not_le within
          have same : MemoryPool.list (MemoryPool.alignedLen len) = MemoryPool.classOf len := rfl
          rw [same] at freed
          unfold MemoryPool.push at freed
          obtain ⟨rfl, rfl⟩ := Prod.mk.inj (Outcome.ok.inj freed)
          cases rest
          have few := tidy.length_free_le small
          have more : (s.pool.count (MemoryPool.classOf len) + 1) % 2 ^ 64 =
              (free (MemoryPool.classOf len)).length + 1 := by
            rw [tidy.counts _ small]
            omega
          rw [more]
          exact ⟨_, .returned listed small⟩
  | write address value =>
      obtain rfl := Outcome.ok.inj stepped
      exact ⟨free, .written allowed⟩

/-- A block that is taken takes up what the free block did. -/
theorem extent_eq {len : Nat} (roundable : max pointerSize len + (alignSize - 1) < 2 ^ 64) (address : Nat) :
    Block.extent { address := address, len := len } = freeExtent (MemoryPool.classOf len) address := by
  simp [Block.extent, freeExtent, alignedLen_eq roundable]

/-- The blocks after a free block has been handed out. -/
theorem extents_reused (s : Pooled maxDeallocSize) (pool : MemoryPool maxDeallocSize) {len address : Nat}
    {rest : List Nat}
    (roundable : max pointerSize len + (alignSize - 1) < 2 ^ 64)
    (small : MemoryPool.classOf len < MemoryPool.listSize maxDeallocSize)
    (list : free (MemoryPool.classOf len) = address :: rest) :
    (Pooled.extents { s with pool := pool, live := { address := address, len := len } :: s.live }
      (Function.update free (MemoryPool.classOf len) rest)).Perm (s.extents free) := by
  have moved := freeExtents_update small list
  rw [← extent_eq roundable] at moved
  exact (List.perm_middle.symm).trans (moved.symm.append_left _)

/-- The blocks after a block has been given back. -/
theorem extents_returned (tidy : Tidy low high s free) (pool : MemoryPool maxDeallocSize) (mem : PoolMemory)
    {address len : Nat} (listed : { address := address, len := len } ∈ s.live)
    (small : MemoryPool.classOf len < MemoryPool.listSize maxDeallocSize) :
    (Pooled.extents { pool := pool, mem := mem, live := s.live.erase { address := address, len := len } }
      (Function.update free (MemoryPool.classOf len) (address :: free (MemoryPool.classOf len)))).Perm
      (s.extents free) := by
  obtain ⟨_, roundable⟩ := tidy.sized _ listed
  let free' := Function.update free (MemoryPool.classOf len) (address :: free (MemoryPool.classOf len))
  have grown : free' (MemoryPool.classOf len) = address :: free (MemoryPool.classOf len) :=
    Function.update_self _ _ _
  have moved := freeExtents_update small grown
  rw [Function.update_idem, Function.update_eq_self, ← extent_eq roundable] at moved
  have taken := (List.perm_cons_erase listed).map Block.extent
  refine (moved.append_left _).trans ?_
  exact List.perm_middle.trans (taken.symm.append_right _)

/-- Every call keeps the pool tidy. -/
theorem step (tidy : Tidy low high s free) (bounded : high < 2 ^ 63) {call : PoolCall}
    {free' : Nat → List Nat} (effect : Effect s free call s' free') : Tidy low high s' free' := by
  cases effect with
  | nothing idle => exact tidy
  | @reused len address rest positive roundable small list =>
      have perm := extents_reused s s.pool roundable small list
      refine
        { chains := fun i within => ?_, counts := fun i within => ?_, packed := tidy.packed.perm perm
          aligned := fun extent listed => tidy.aligned extent (perm.mem_iff.mp listed)
          sized := fun block listed => ?_, order := tidy.order, frontier := tidy.frontier, rest := tidy.rest
          total := (congrArg (low + ·) (perm.map Extent.len).sum_eq).trans tidy.total }
      · by_cases own : i = MemoryPool.classOf len
        · subst own
          have chain := tidy.chains _ small
          rw [list] at chain
          simpa using chain.of_cons.2
        · simpa [own] using tidy.chains i within
      · by_cases own : i = MemoryPool.classOf len
        · subst own
          simp
        · simpa [own] using tidy.counts i within
      · rcases List.mem_cons.mp listed with rfl | before
        · exact ⟨positive, roundable⟩
        · exact tidy.sized block before
  | @carved len positive roundable none fits =>
      have rest := tidy.rest
      refine
        { chains := tidy.chains, counts := tidy.counts, packed := tidy.packed.carve tidy.order _
          aligned := fun extent listed => ?_, sized := fun block listed => ?_, order := ?_, frontier := ?_
          rest := ?_, total := ?_ }
      · rcases List.mem_cons.mp listed with rfl | before
        · exact tidy.frontier
        · exact tidy.aligned extent before
      · rcases List.mem_cons.mp listed with rfl | before
        · exact ⟨positive, roundable⟩
        · exact tidy.sized block before
      · exact Nat.le_trans tidy.order (Nat.le_add_right _ _)
      · dsimp only
        rw [alignedLen_eq roundable]
        exact Nat.dvd_add tidy.frontier (Nat.dvd_mul_left _ _)
      · dsimp only
        omega
      · have total := tidy.total
        simp only [Pooled.extents, List.map_cons, List.cons_append, List.sum_cons, Block.extent] at total ⊢
        omega
  | @returned address len listed small =>
      obtain ⟨positive, roundable⟩ := tidy.sized _ listed
      have perm := tidy.extents_returned s.pool s.mem listed small
      have fits := le_alignedLen roundable
      dsimp only at fits
      refine
        { chains := fun i within => ?_, counts := fun i within => ?_, packed := tidy.packed.perm perm
          aligned := fun extent member => tidy.aligned extent (perm.mem_iff.mp member)
          sized := fun block member => tidy.sized block (List.mem_of_mem_erase member), order := tidy.order
          frontier := tidy.frontier, rest := tidy.rest
          total := (congrArg (low + ·) (perm.map Extent.len).sum_eq).trans tidy.total }
      · have kept : Chain (s.mem.store address (s.pool.first (MemoryPool.classOf len))).load
            (s.pool.first i) (free i) := by
          refine (tidy.chains i within).congr fun other isFree => ?_
          refine tidy.written listed (fun a outside => ?_) within isFree
          refine PoolMemory.store_of_outside ?_
          dsimp only at outside
          omega
        by_cases own : i = MemoryPool.classOf len
        · subst own
          have small' : ∀ first ∈ s.pool.first (MemoryPool.classOf len), first < 2 ^ 63 := by
            intro first isFirst
            have chain := tidy.chains _ small
            rw [isFirst] at chain
            have isFree := List.mem_append_right (s.live.map Block.extent) (mem_freeExtents small chain.head_mem)
            have inside := (tidy.packed.inside _ isFree).2
            have rest := tidy.rest
            simp only [freeExtent] at inside
            omega
          dsimp only
          rw [Function.update_self, Function.update_self]
          constructor
          rw [PoolMemory.load_store _ small']
          exact kept
        · simpa [own] using kept
      · by_cases own : i = MemoryPool.classOf len
        · subst own
          simp
        · simpa [own] using tidy.counts i within
  | written allowed => exact tidy.write allowed

/-- The pool is tidy after every run. -/
theorem of_runs {begin_ end_ : Nat} {pool : MemoryPool maxDeallocSize} (bounded : end_ < 2 ^ 63)
    (constructed : MemoryPool.construct begin_ end_ = some pool) {mem : PoolMemory}
    {past : List (PoolCall × Pooled maxDeallocSize)}
    (run : Pooled.Runs { pool := pool, mem := mem, live := [] } past s) :
    ∃ free, Tidy pool.begin_ end_ s free := by
  induction run with
  | refl => exact ⟨_, start constructed mem⟩
  | tail call before allowed stepped ih =>
      obtain ⟨free, tidy⟩ := ih
      obtain ⟨free', effect⟩ := tidy.effect bounded allowed stepped
      exact ⟨free', tidy.step bounded effect⟩

/-- A free block is not on its list twice. -/
theorem free_nodup (tidy : Tidy low high s free) {i : Nat} (small : i < MemoryPool.listSize maxDeallocSize) :
    (free i).Nodup := by
  have apart := (List.pairwise_append.mp tidy.packed.apart).2.1
  have own := (List.pairwise_flatMap.mp apart).1 i (List.mem_range.mpr small)
  refine (List.pairwise_map.mp own).imp fun distinct equal => ?_
  subst equal
  simp only [Extent.Apart, freeExtent, alignSize] at distinct
  omega

/-- A live block is not free. -/
theorem not_free (tidy : Tidy low high s free) {block : Block} (listed : block ∈ s.live) {i address : Nat}
    (small : i < MemoryPool.listSize maxDeallocSize) (isFree : address ∈ free i) : block.address ≠ address := by
  obtain ⟨positive, roundable⟩ := tidy.sized block listed
  have fits := le_alignedLen roundable
  have outside := tidy.outside listed (Nat.le_refl _) (by omega) small isFree
  simp only [alignSize] at outside
  omega

end Tidy

/-! ### The blocks of a pool -/

/-- What the clients of a pool over the region from `begin_` to `end_` rely on, if `free i` are the free blocks
    of class `i`. -/
structure Pooled.Sound (begin_ end_ : Nat) (s : Pooled maxDeallocSize) (free : Nat → List Nat) : Prop where
  live : ∀ block ∈ s.live,
    alignSize ∣ block.address ∧ begin_ ≤ block.address ∧ block.address + block.len ≤ end_
  spans : ∀ block ∈ s.live, block.len ≤ block.extent.len
  apart : (s.live.map Block.extent ++ freeExtents (MemoryPool.listSize maxDeallocSize) free).Pairwise Extent.Apart
  behind : ∀ extent ∈ s.live.map Block.extent ++ freeExtents (MemoryPool.listSize maxDeallocSize) free,
    begin_ ≤ extent.start ∧ extent.start + extent.len ≤ s.pool.begin_
  rest : s.pool.begin_ + s.pool.space = end_
  chains : ∀ i < MemoryPool.listSize maxDeallocSize, Chain s.mem.load (s.pool.first i) (free i)
  counts : ∀ i < MemoryPool.listSize maxDeallocSize, s.pool.count i = (free i).length
  distinct : ∀ i < MemoryPool.listSize maxDeallocSize, (free i).Nodup
  notLive : ∀ i < MemoryPool.listSize maxDeallocSize, ∀ address ∈ free i, ∀ block ∈ s.live,
    block.address ≠ address
  large : ∀ i < MemoryPool.listSize maxDeallocSize, ∀ address ∈ free i, ∀ len,
    max pointerSize len + (alignSize - 1) < 2 ^ 64 → MemoryPool.classOf len = i →
      len ≤ (freeExtent i address).len

/-- In every state a pool can get into, its blocks are apart, and the lists of free blocks are intact. -/
theorem pool_blocks_apart {begin_ end_ : Nat} {pool : MemoryPool maxDeallocSize} (bounded : end_ < 2 ^ 63)
    (constructed : MemoryPool.construct begin_ end_ = some pool) {mem : PoolMemory}
    {past : List (PoolCall × Pooled maxDeallocSize)} {s : Pooled maxDeallocSize}
    (run : Pooled.Runs { pool := pool, mem := mem, live := [] } past s) :
    ∃ free, s.Sound begin_ end_ free := by
  obtain ⟨free, tidy⟩ := Tidy.of_runs bounded constructed run
  have low : begin_ ≤ pool.begin_ := by
    unfold MemoryPool.construct at constructed
    obtain ⟨⟨address, space⟩, found, rfl⟩ := Option.map_eq_some_iff.mp constructed
    exact (stdAlign_eq_some (by decide) found).2.1
  have rest := tidy.rest
  refine
    ⟨free,
      { live := fun block listed => ?_, spans := fun block listed => ?_, apart := tidy.packed.apart
        behind := fun extent listed => ?_, rest := rest, chains := tidy.chains, counts := tidy.counts
        distinct := fun i small => tidy.free_nodup small
        notLive := fun i small address isFree block listed => tidy.not_free listed small isFree
        large := fun i _ address _ len roundable isClass => ?_ }⟩
  · have member : block.extent ∈ s.extents free := List.mem_append_left _ (List.mem_map_of_mem listed)
    have fits := le_alignedLen (tidy.sized block listed).2
    obtain ⟨first, last⟩ := tidy.packed.inside _ member
    simp only [Block.extent] at first last
    exact ⟨tidy.aligned _ member, by omega, by omega⟩
  · have fits := le_alignedLen (tidy.sized block listed).2
    simp only [Block.extent]
    omega
  · obtain ⟨first, last⟩ := tidy.packed.inside _ listed
    exact ⟨Nat.le_trans low first, last⟩
  · have fits := le_alignedLen roundable
    rw [alignedLen_eq roundable, isClass] at fits
    simp only [freeExtent]
    omega

/-- A pool over an unaligned region: one block is given back, so that it is free, and one beyond the largest
    class stays live. -/
theorem pool_blocks_apart_returned :
    ∃ (pool : MemoryPool 64) (past : List (PoolCall × Pooled 64)) (s : Pooled 64) (free : Nat → List Nat),
      MemoryPool.construct 3 1000 = some pool ∧
        Pooled.Runs { pool := pool, mem := fun _ => 0, live := [] } past s ∧
        s.live = [{ address := 48, len := 100 }] ∧ s.Sound 3 1000 free := by
  have run : ∃ (pool : MemoryPool 64) (past : List (PoolCall × Pooled 64)) (s : Pooled 64),
      MemoryPool.construct 3 1000 = some pool ∧
        Pooled.Runs { pool := pool, mem := fun _ => 0, live := [] } past s ∧
        s.live = [{ address := 48, len := 100 }] := by
    have small : max pointerSize 24 + (alignSize - 1) < 2 ^ 64 := by decide
    have large : max pointerSize 100 + (alignSize - 1) < 2 ^ 64 := by decide
    exact ⟨_, _, _, rfl, .tail (.dealloc (some 16) 24) (.tail (.alloc 100) (.tail (.alloc 24) .refl small rfl)
      large rfl) (Or.inr ⟨16, rfl, List.mem_cons_of_mem _ List.mem_cons_self⟩) rfl, rfl⟩
  obtain ⟨pool, past, s, constructed, run, live⟩ := run
  obtain ⟨free, sound⟩ := pool_blocks_apart (by decide) constructed run
  exact ⟨pool, past, s, free, constructed, run, live, sound⟩

/-! ### What a run takes from the pool -/

/-- The number of live blocks of class `i`. -/
def Pooled.liveOf (s : Pooled maxDeallocSize) (i : Nat) : Nat :=
  s.live.countP fun block => MemoryPool.classOf block.len = i

/-- The largest number of blocks of class `i` that were live at the same time, at the start of a run or after
    one of its calls. -/
def peak (start : Pooled maxDeallocSize) (past : List (PoolCall × Pooled maxDeallocSize)) (i : Nat) : Nat :=
  (past.map fun entry => entry.2.liveOf i).foldr max (start.liveOf i)

/-- What a call asks for beyond the largest class. -/
def PoolCall.beyond (maxDeallocSize : Nat) : PoolCall → Nat
  | .alloc len =>
      if 0 < len ∧ MemoryPool.listSize maxDeallocSize ≤ MemoryPool.classOf len then MemoryPool.alignedLen len
      else 0
  | _ => 0

/-- The rounded sizes of all allocations of a run beyond the largest class. -/
def beyond (past : List (PoolCall × Pooled maxDeallocSize)) : Nat :=
  (past.map fun entry => entry.1.beyond maxDeallocSize).sum

/-- What blocks take up, if there are `blocks i` of class `i`. -/
def classDemand (classes : Nat) (blocks : Nat → Nat) : Nat :=
  ∑ i ∈ Finset.range classes, (i + 1) * alignSize * blocks i

theorem classDemand_update {classes i : Nat} (small : i < classes) (blocks : Nat → Nat) {blocks' : Nat → Nat}
    (more : blocks' i = blocks i + 1) (others : ∀ j < classes, j ≠ i → blocks' j = blocks j) :
    classDemand classes blocks' = classDemand classes blocks + (i + 1) * alignSize := by
  have listed : i ∈ Finset.range classes := Finset.mem_range.mpr small
  have rest : ∑ j ∈ (Finset.range classes).erase i, (j + 1) * alignSize * blocks' j =
      ∑ j ∈ (Finset.range classes).erase i, (j + 1) * alignSize * blocks j :=
    Finset.sum_congr rfl fun j member => by
      rw [others j (Finset.mem_range.mp (Finset.mem_of_mem_erase member)) (Finset.ne_of_mem_erase member)]
  unfold classDemand
  rw [← Finset.add_sum_erase _ _ listed, ← Finset.add_sum_erase _ _ listed, rest, more, Nat.mul_add]
  omega

theorem classDemand_congr {classes : Nat} (blocks : Nat → Nat) {blocks' : Nat → Nat}
    (same : ∀ i < classes, blocks' i = blocks i) : classDemand classes blocks' = classDemand classes blocks :=
  Finset.sum_congr rfl fun i listed => by rw [same i (Finset.mem_range.mp listed)]

/-- Where the space has gone: every class has as many blocks, live or free, as it once had live ones. -/
structure Accounts (start : Pooled maxDeallocSize) (past : List (PoolCall × Pooled maxDeallocSize))
    (s : Pooled maxDeallocSize) (free : Nat → List Nat) : Prop where
  classes : ∀ i < MemoryPool.listSize maxDeallocSize, s.liveOf i + (free i).length = peak start past i
  taken : s.pool.begin_ =
    start.pool.begin_ + classDemand (MemoryPool.listSize maxDeallocSize) (peak start past) + beyond past

section Peaks

variable {start s s' : Pooled maxDeallocSize} {past : List (PoolCall × Pooled maxDeallocSize)} {call : PoolCall}

@[simp] theorem peak_cons (i : Nat) : peak start ((call, s') :: past) i = max (s'.liveOf i) (peak start past i) :=
  rfl

@[simp] theorem beyond_cons : beyond ((call, s') :: past) = call.beyond maxDeallocSize + beyond past := rfl

/-- The live blocks after one has been added. -/
theorem liveOf_cons {pool : MemoryPool maxDeallocSize} {mem : PoolMemory} {block : Block} (i : Nat) :
    Pooled.liveOf { pool := pool, mem := mem, live := block :: s.live } i =
      s.liveOf i + if MemoryPool.classOf block.len = i then 1 else 0 := by
  simp [Pooled.liveOf, List.countP_cons]

/-- The live blocks after one has been given back. -/
theorem liveOf_erase (pool : MemoryPool maxDeallocSize) (mem : PoolMemory) {block : Block}
    (listed : block ∈ s.live) (i : Nat) :
    Pooled.liveOf { pool := pool, mem := mem, live := s.live.erase block } i +
      (if MemoryPool.classOf block.len = i then 1 else 0) = s.liveOf i := by
  have perm := (List.perm_cons_erase listed).countP_eq fun block : Block => MemoryPool.classOf block.len = i
  rw [List.countP_cons] at perm
  simpa [Pooled.liveOf] using perm.symm

end Peaks

namespace Accounts

variable {start s s' : Pooled maxDeallocSize} {past : List (PoolCall × Pooled maxDeallocSize)} {call : PoolCall}
  {free free' : Nat → List Nat}

/-- Blocks change hands, but nothing is cut off the rest. -/
theorem exchange (accounts : Accounts start past s free) (begin_ : s'.pool.begin_ = s.pool.begin_)
    (none : call.beyond maxDeallocSize = 0)
    (same : ∀ i < MemoryPool.listSize maxDeallocSize,
      s'.liveOf i + (free' i).length = s.liveOf i + (free i).length) :
    Accounts start ((call, s') :: past) s' free' := by
  have peaks : ∀ i < MemoryPool.listSize maxDeallocSize,
      peak start ((call, s') :: past) i = peak start past i := by
    intro i small
    have before := accounts.classes i small
    have after := same i small
    rw [peak_cons]
    omega
  refine { classes := fun i small => ?_, taken := ?_ }
  · rw [peaks i small, same i small]
    exact accounts.classes i small
  · rw [classDemand_congr _ peaks, beyond_cons, none, Nat.zero_add, begin_]
    exact accounts.taken

/-- A call keeps the accounts. -/
theorem step (accounts : Accounts start past s free) (effect : Effect s free call s' free') :
    Accounts start ((call, s') :: past) s' free' := by
  cases effect with
  | nothing idle =>
      refine accounts.exchange rfl ?_ fun _ _ => rfl
      rcases idle with rfl | ⟨p, rfl⟩ <;> rfl
  | @reused len address rest positive roundable small list =>
      refine accounts.exchange rfl ?_ fun i within => ?_
      · simp [PoolCall.beyond, Nat.not_le_of_lt small]
      · rw [liveOf_cons]
        by_cases own : i = MemoryPool.classOf len
        · subst own
          simp [list]
          omega
        · simp [own, Ne.symm own]
  | @carved len positive roundable none fits =>
      have taken := accounts.taken
      have peaks : ∀ i < MemoryPool.listSize maxDeallocSize, MemoryPool.classOf len ≠ i →
          max (s.liveOf i) (peak start past i) = peak start past i := by
        intro i within _
        have known := accounts.classes i within
        omega
      refine { classes := fun i within => ?_, taken := ?_ }
      · have known := accounts.classes i within
        rw [peak_cons, liveOf_cons]
        by_cases own : MemoryPool.classOf len = i
        · subst own
          have nothing := none within
          simp only [nothing, List.length_nil, if_true] at known ⊢
          omega
        · simp only [own, if_false, Nat.add_zero, peaks i within own]
          exact known
      · rw [beyond_cons]
        by_cases small : MemoryPool.classOf len < MemoryPool.listSize maxDeallocSize
        · have inside : (PoolCall.alloc len).beyond maxDeallocSize = 0 := by
            simp [PoolCall.beyond, Nat.not_le_of_lt small]
          have known := accounts.classes _ small
          rw [none small, List.length_nil] at known
          rw [inside, classDemand_update small (peak start past) ?_ fun j within other => ?_]
          · dsimp only
            rw [taken, alignedLen_eq roundable]
            omega
          · rw [peak_cons, liveOf_cons, if_pos rfl]
            omega
          · rw [peak_cons, liveOf_cons, if_neg (Ne.symm other), Nat.add_zero, peaks j within (Ne.symm other)]
        · have outside : (PoolCall.alloc len).beyond maxDeallocSize = MemoryPool.alignedLen len :=
            if_pos ⟨positive, Nat.le_of_not_lt small⟩
          rw [outside, classDemand_congr (peak start past) fun i within => ?_]
          · dsimp only
            rw [taken]
            omega
          · have other : MemoryPool.classOf len ≠ i := fun same => small (same ▸ within)
            rw [peak_cons, liveOf_cons, if_neg other, Nat.add_zero, peaks i within other]
  | @returned address len listed small =>
      refine accounts.exchange rfl rfl fun i within => ?_
      have live := liveOf_erase s.pool s.mem listed i
      by_cases own : i = MemoryPool.classOf len
      · subst own
        simp only [Function.update_self, List.length_cons, if_true] at live ⊢
        exact (Nat.add_right_comm _ _ 1).trans (congrArg (· + _) live)
      · simp only [Function.update_of_ne own, if_neg (Ne.symm own), Nat.add_zero] at live ⊢
        exact congrArg (· + _) live
  | written allowed => exact accounts.exchange rfl rfl fun _ _ => rfl

/-- The accounts are right after every run. -/
theorem of_runs {low high : Nat} {pool : MemoryPool maxDeallocSize} {mem : PoolMemory}
    (tidy : Tidy low high { pool := pool, mem := mem, live := [] } fun _ => []) (bounded : high < 2 ^ 63)
    (run : Pooled.Runs { pool := pool, mem := mem, live := [] } past s) :
    ∃ free, Tidy low high s free ∧ Accounts { pool := pool, mem := mem, live := [] } past s free := by
  induction run with
  | refl =>
      refine ⟨fun _ => [], tidy, { classes := fun _ _ => rfl, taken := ?_ }⟩
      have nothing : ∀ i < MemoryPool.listSize maxDeallocSize,
          peak ({ pool := pool, mem := mem, live := [] } : Pooled maxDeallocSize) [] i = 0 := fun _ _ => rfl
      rw [classDemand_congr (fun _ => 0) nothing]
      simp [classDemand, beyond]
  | tail call before allowed stepped ih =>
      obtain ⟨free, tidy, accounts⟩ := ih
      obtain ⟨free', effect⟩ := tidy.effect bounded allowed stepped
      exact ⟨free', tidy.step bounded effect, accounts.step effect⟩

end Accounts

/-- `alloc` ends the program if there is no free block of the class and not enough is left, and else succeeds. -/
theorem Tidy.alloc_cases {low high : Nat} {s : Pooled maxDeallocSize} {free : Nat → List Nat}
    (tidy : Tidy low high s free) {len : Nat} (positive : 0 < len) :
    (s.pool.alloc s.mem len = .exited ∧
        (MemoryPool.classOf len < MemoryPool.listSize maxDeallocSize → free (MemoryPool.classOf len) = []) ∧
        s.pool.space < MemoryPool.alignedLen len) ∨
      (∃ result, s.pool.alloc s.mem len = .ok result) ∧
        (MemoryPool.classOf len < MemoryPool.listSize maxDeallocSize ∧ free (MemoryPool.classOf len) ≠ [] ∨
          MemoryPool.alignedLen len ≤ s.pool.space) := by
  have same : MemoryPool.list (MemoryPool.alignedLen len) = MemoryPool.classOf len := rfl
  have notZero : len ≠ 0 := Nat.ne_of_gt positive
  simp only [MemoryPool.alloc, if_neg notZero, same]
  split
  case isTrue able =>
    obtain ⟨small, notEmpty⟩ := able
    right
    have count := tidy.counts _ small
    have filled : free (MemoryPool.classOf len) ≠ [] := by
      intro none
      rw [none] at count
      simp [MemoryPool.empty, count] at notEmpty
    obtain ⟨address, rest, first, _, _⟩ := (tidy.chains _ small).of_ne_nil filled
    refine ⟨?_, Or.inl ⟨small, filled⟩⟩
    unfold MemoryPool.pop
    rw [first]
    exact ⟨_, rfl⟩
  case isFalse unable =>
    split
    case isTrue little =>
      left
      refine ⟨rfl, fun small => ?_, little⟩
      have count := tidy.counts _ small
      have zero : s.pool.count (MemoryPool.classOf len) = 0 := by
        by_contra filled
        have notEmpty : s.pool.empty (MemoryPool.classOf len) = false := by
          simpa [MemoryPool.empty] using filled
        exact unable ⟨small, congrArg not notEmpty⟩
      exact List.eq_nil_of_length_eq_zero (count.symm.trans zero)
    case isFalse enough => exact Or.inr ⟨⟨_, rfl⟩, Or.inr (Nat.le_of_not_lt enough)⟩

/-- The space taken from a pool is what the blocks of each class take up that were live at the same time, and
    the allocations beyond the largest class. An allocation fails only if its class has no free block and there
    is not enough left, so it does not fail while the peak demand fits into the pool. -/
theorem pool_wastes_nothing {begin_ end_ : Nat} {pool : MemoryPool maxDeallocSize} (bounded : end_ < 2 ^ 63)
    (constructed : MemoryPool.construct begin_ end_ = some pool) {mem : PoolMemory}
    {past : List (PoolCall × Pooled maxDeallocSize)} {s : Pooled maxDeallocSize}
    (run : Pooled.Runs { pool := pool, mem := mem, live := [] } past s) :
    pool.space = s.pool.space +
        (classDemand (MemoryPool.listSize maxDeallocSize) (peak { pool := pool, mem := mem, live := [] } past) +
          beyond past) ∧
      (∀ len, 0 < len → s.Allowed (.alloc len) →
        (s.pool.alloc s.mem len = .exited ↔
          (MemoryPool.classOf len < MemoryPool.listSize maxDeallocSize →
            Chain s.mem.load (s.pool.first (MemoryPool.classOf len)) []) ∧
          s.pool.space < MemoryPool.alignedLen len)) ∧
      ∀ len, 0 < len → s.Allowed (.alloc len) →
        classDemand (MemoryPool.listSize maxDeallocSize)
            (fun i => max (peak { pool := pool, mem := mem, live := [] } past i)
              (s.liveOf i + if MemoryPool.classOf len = i then 1 else 0)) +
          (beyond past + (PoolCall.alloc len).beyond maxDeallocSize) ≤ pool.space →
        ∃ s', s.step (.alloc len) = .ok s' := by
  obtain ⟨free, tidy, accounts⟩ := Accounts.of_runs (Tidy.start constructed mem) bounded run
  have taken := accounts.taken
  have rest := tidy.rest
  have whole := (Tidy.start constructed mem).rest
  dsimp only at taken whole
  refine ⟨by omega, fun len positive _ => ?_, fun len positive roundable fits => ?_⟩
  · have chains := tidy.chains (MemoryPool.classOf len)
    rcases tidy.alloc_cases positive with ⟨exited, nothing, little⟩ | ⟨⟨result, given⟩, room⟩
    · refine ⟨fun _ => ⟨fun small => ?_, little⟩, fun _ => exited⟩
      rw [← nothing small]
      exact chains small
    · refine ⟨fun exited => ?_, fun ⟨empty, little⟩ => ?_⟩
      · rw [given] at exited
        cases exited
      · rcases room with ⟨small, filled⟩ | enough
        · exact absurd ((chains small).unique (empty small)) filled
        · omega
  · rcases tidy.alloc_cases positive with ⟨_, nothing, little⟩ | ⟨⟨⟨p, pool'⟩, given⟩, _⟩
    · -- the block that cannot be had is one more than there ever were
      exfalso
      have others : ∀ i < MemoryPool.listSize maxDeallocSize, MemoryPool.classOf len ≠ i →
          max (peak { pool := pool, mem := mem, live := [] } past i)
            (s.liveOf i + if MemoryPool.classOf len = i then 1 else 0) =
          peak { pool := pool, mem := mem, live := [] } past i := by
        intro i within other
        have known := accounts.classes i within
        rw [if_neg other]
        omega
      by_cases small : MemoryPool.classOf len < MemoryPool.listSize maxDeallocSize
      · have known := accounts.classes _ small
        rw [nothing small, List.length_nil] at known
        have more : max (peak { pool := pool, mem := mem, live := [] } past (MemoryPool.classOf len))
            (s.liveOf (MemoryPool.classOf len) + if MemoryPool.classOf len = MemoryPool.classOf len then 1 else 0) =
            peak { pool := pool, mem := mem, live := [] } past (MemoryPool.classOf len) + 1 := by
          rw [if_pos rfl]
          omega
        rw [classDemand_update small _ more fun j within other => others j within (Ne.symm other),
          ← alignedLen_eq roundable] at fits
        omega
      · have outside : (PoolCall.alloc len).beyond maxDeallocSize = MemoryPool.alignedLen len :=
          if_pos ⟨positive, Nat.le_of_not_lt small⟩
        rw [outside, classDemand_congr _ fun i within => others i within fun same => small (same ▸ within)] at fits
        omega
    · simp only [Pooled.step, given, Outcome.ok_bind]
      cases p with
      | none => exact ⟨_, rfl⟩
      | some address => exact ⟨_, rfl⟩

/-- Two blocks of one class, one after the other, take the space of one. -/
theorem pool_wastes_nothing_reused :
    ∃ (pool : MemoryPool 64) (past : List (PoolCall × Pooled 64)) (s : Pooled 64),
      MemoryPool.construct 3 1000 = some pool ∧
        Pooled.Runs { pool := pool, mem := fun _ => 0, live := [] } past s ∧ past.length = 3 ∧
        pool.space = s.pool.space +
          (classDemand (MemoryPool.listSize 64) (peak { pool := pool, mem := fun _ => 0, live := [] } past) +
            beyond past) ∧
        (s.pool.alloc s.mem 100 = .exited ↔
          (MemoryPool.classOf 100 < MemoryPool.listSize 64 →
            Chain s.mem.load (s.pool.first (MemoryPool.classOf 100)) []) ∧
          s.pool.space < MemoryPool.alignedLen 100) := by
  have small : max pointerSize 24 + (alignSize - 1) < 2 ^ 64 := by decide
  have run : ∃ (pool : MemoryPool 64) (past : List (PoolCall × Pooled 64)) (s : Pooled 64),
      MemoryPool.construct 3 1000 = some pool ∧
        Pooled.Runs { pool := pool, mem := fun _ => 0, live := [] } past s ∧ past.length = 3 :=
    ⟨_, _, _, rfl, .tail (.alloc 24) (.tail (.dealloc (some 16) 24) (.tail (.alloc 24) .refl small rfl)
      (Or.inr ⟨16, rfl, List.mem_cons_self⟩) rfl) small rfl, rfl⟩
  obtain ⟨pool, past, s, constructed, run, three⟩ := run
  have large : max pointerSize 100 + (alignSize - 1) < 2 ^ 64 := by decide
  obtain ⟨taken, fails, _⟩ := pool_wastes_nothing (by decide) constructed run
  exact ⟨pool, past, s, constructed, run, three, taken, fails 100 (by decide) large⟩

end Umpi
