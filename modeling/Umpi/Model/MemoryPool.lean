/-
Module: Umpi.Model.MemoryPool
Layer: Model
Purpose: `class memory_pool`. A pointer is a `based_ptr`: the distance from the start of the mapping, or the
  smallest `ptrdiff_t` for null, and addresses are such distances. Freed blocks of a size class form a list
  that starts in `first_` and goes on in the first bytes of the blocks themselves. The second part is the
  clients: they allocate, they give back what they have, and they write into what they have.
Imports: Umpi.Model.Integers
Trusted boundary: human-reviewed spec
Main exports: MemoryPool, MemoryPool.construct, MemoryPool.alloc, MemoryPool.dealloc, Block, Pooled, PoolCall,
  Pooled.Allowed, Pooled.step, Pooled.Runs
Open obligations: none
-/
import Umpi.Model.Integers
import Mathlib.Algebra.BigOperators.Group.List.Basic
import Mathlib.Logic.Function.Basic

namespace Umpi

/-- `align_size`, which is `alignof(std::max_align_t)`. -/
def alignSize : Nat := 16

/-- `sizeof(pointer_pointer)`. -/
def pointerSize : Nat := 8

/-- The memory of the mapping, from its start on. -/
abbrev PoolMemory := Nat → UInt8

/-- What the bytes of a `based_ptr` mean as an unsigned number. -/
def pointerBits : Option Nat → Nat
  | none => 2 ^ 63
  | some address => address

/-- The pointer with these bits. -/
def pointerOfBits (bits : Nat) : Option Nat :=
  if bits = 2 ^ 63 then none else some bits

/-- `*p = q`: the bytes from `address` on become those of a pointer. -/
def PoolMemory.store (mem : PoolMemory) (address : Nat) (pointer : Option Nat) : PoolMemory := fun a =>
  if address ≤ a ∧ a < address + pointerSize then
    UInt8.ofNat (pointerBits pointer / 256 ^ (a - address))
  else mem a

/-- `*p`: the pointer in the bytes from `address` on. -/
def PoolMemory.load (mem : PoolMemory) (address : Nat) : Option Nat :=
  pointerOfBits ((List.range pointerSize).map fun k => (mem (address + k)).toNat * 256 ^ k).sum

/-- `std::align`: the first aligned address, and the space from there on, if `size` bytes are left. -/
def stdAlign (alignment size address space : Nat) : Option (Nat × Nat) :=
  let padding := (alignment - address % alignment) % alignment
  if space < size + padding then none else some (address + padding, space - padding)

/-- `class memory_pool`, without its mutex: `alloc` and `dealloc` are one critical section each. -/
structure MemoryPool (maxDeallocSize : Nat) where
  first : Nat → Option Nat
  count : Nat → Nat
  space : Nat
  begin_ : Nat

namespace MemoryPool

variable {maxDeallocSize : Nat}

/-- `list_size`. -/
def listSize (maxDeallocSize : Nat) : Nat := (maxDeallocSize + alignSize - 1) / alignSize

/-- `align`. The mask is `~(align_size - 1)`. -/
def align (v : Nat) : Nat := (v + (alignSize - 1)) % 2 ^ 64 &&& (2 ^ 64 - 1 - (alignSize - 1))

/-- `list`. -/
def list (v : Nat) : Nat := (v + (2 ^ 64 - 1)) % 2 ^ 64 / alignSize

/-- `align(std::max(sizeof(pointer_pointer), len))`. -/
def alignedLen (len : Nat) : Nat := align (max pointerSize len)

/-- The size class of a length. -/
def classOf (len : Nat) : Nat := list (alignedLen len)

/-- `memory_pool(begin, end)`, when `std::align` finds an address. -/
def construct (begin_ end_ : Nat) : Option (MemoryPool maxDeallocSize) :=
  (stdAlign alignSize (align pointerSize) begin_ (end_ - begin_)).map fun (address, space) =>
    { first := fun _ => none
      count := fun _ => 0
      space := space
      begin_ := address }

def empty (pool : MemoryPool maxDeallocSize) (i : Nat) : Bool := pool.count i == 0

/-- `push`. -/
def push (pool : MemoryPool maxDeallocSize) (mem : PoolMemory) (i : Nat) (p : Option Nat) :
    Outcome (MemoryPool maxDeallocSize × PoolMemory) :=
  match p with
  | none => .undefined .nullHandle
  | some address =>
      .ok
        ({ pool with
            count := Function.update pool.count i ((pool.count i + 1) % 2 ^ 64)
            first := Function.update pool.first i p },
          mem.store address (pool.first i))

/-- `pop`. -/
def pop (pool : MemoryPool maxDeallocSize) (mem : PoolMemory) (i : Nat) :
    Outcome (Option Nat × MemoryPool maxDeallocSize) :=
  match pool.first i with
  | none => .undefined .nullHandle
  | some address =>
      .ok (some address,
        { pool with
          count := Function.update pool.count i ((pool.count i + (2 ^ 64 - 1)) % 2 ^ 64)
          first := Function.update pool.first i (mem.load address) })

/-- `alloc`. -/
def alloc (pool : MemoryPool maxDeallocSize) (mem : PoolMemory) (len : Nat) :
    Outcome (Option Nat × MemoryPool maxDeallocSize) :=
  if len = 0 then .ok (none, pool)
  else
    let alignedLen := alignedLen len
    let i := list alignedLen
    if i < listSize maxDeallocSize ∧ !pool.empty i then pool.pop mem i
    else if pool.space < alignedLen then .exited
    else
      .ok (some pool.begin_,
        { pool with begin_ := pool.begin_ + alignedLen, space := pool.space - alignedLen })

/-- `dealloc`. -/
def dealloc (pool : MemoryPool maxDeallocSize) (mem : PoolMemory) (p : Option Nat) (len : Nat) :
    Outcome (MemoryPool maxDeallocSize × PoolMemory) :=
  if len = 0 then .ok (pool, mem)
  else
    let alignedLen := alignedLen len
    let i := list alignedLen
    if listSize maxDeallocSize ≤ i then .exited else pool.push mem i p

end MemoryPool

/-! ### The clients -/

/-- A block that `alloc` has returned, with the `len` it was asked for. -/
structure Block where
  address : Nat
  len : Nat
deriving Repr, DecidableEq

/-- A pool, the memory, and the blocks that have been handed out and not been given back. -/
structure Pooled (maxDeallocSize : Nat) where
  pool : MemoryPool maxDeallocSize
  mem : PoolMemory
  live : List Block

/-- What the clients of a pool do. -/
inductive PoolCall where
  | alloc (len : Nat)
  | dealloc (p : Option Nat) (len : Nat)
  /-- A client stores a byte. -/
  | write (address : Nat) (value : UInt8)
deriving Repr, DecidableEq

namespace Pooled

variable {maxDeallocSize : Nat}

/-- What clients may do: ask for a length that can be rounded up, give back a live block with its length, and
    write into a live block. -/
def Allowed (s : Pooled maxDeallocSize) : PoolCall → Prop
  | .alloc len => max pointerSize len + (alignSize - 1) < 2 ^ 64
  | .dealloc p len => len = 0 ∨ ∃ address, p = some address ∧ { address := address, len := len } ∈ s.live
  | .write address _ => ∃ block ∈ s.live, block.address ≤ address ∧ address < block.address + block.len

/-- A call, and what it does to the live blocks. -/
def step (s : Pooled maxDeallocSize) : PoolCall → Outcome (Pooled maxDeallocSize)
  | .alloc len => do
      let (p, pool) ← s.pool.alloc s.mem len
      match p with
      | none => pure { s with pool := pool }
      | some address => pure { s with pool := pool, live := { address := address, len := len } :: s.live }
  | .dealloc p len => do
      let (pool, mem) ← s.pool.dealloc s.mem p len
      match p with
      | none => pure { s with pool := pool, mem := mem }
      | some address =>
          pure { pool := pool, mem := mem, live := s.live.erase { address := address, len := len } }
  | .write address value => pure { s with mem := Function.update s.mem address value }

/-- A run: the calls made, each with the state after it, the last one first, and the state at its end. -/
inductive Runs (start : Pooled maxDeallocSize) :
    List (PoolCall × Pooled maxDeallocSize) → Pooled maxDeallocSize → Prop where
  | refl : Runs start [] start
  | tail {past : List (PoolCall × Pooled maxDeallocSize)} {s s' : Pooled maxDeallocSize} (call : PoolCall)
      (before : Runs start past s) (allowed : s.Allowed call) (step : s.step call = .ok s') :
      Runs start ((call, s') :: past) s'

end Pooled

end Umpi
