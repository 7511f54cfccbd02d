/-
Module: Umpi.Model.Segment
Layer: Model
Purpose: The mapping that `mpiexec` sizes and the processes share: its length, what the constructor of `shared`
  allocates in it, and a run of the processes together with the pool. The node of a list with a cookie is a block
  of the pool: `create_request` allocates one when its `free_` list is empty, and `finalize` gives back what it
  erases. Whatever else is allocated (the processes, the displacements of the slots, committed types) is never
  given back. Clients write into their blocks at any time.
Imports: Umpi.Model.MemoryPool, Umpi.Model.Runtime
Trusted boundary: human-reviewed spec
Main exports: cookieLen, calcMmapLen, Pooled.allocate, Segment, Segment.emplace, Segment.erase, Segment.reserve,
  Segment.shared, Segment.runtime, Segment.calls, Segment.Runs
Open obligations: none
-/
import Umpi.Model.MemoryPool
import Umpi.Model.Runtime

namespace Umpi

/-- `sizeof(cookie) + 2 * sizeof(cookie_pointer)`, which is the node of a list. The members of a cookie take 42
    bytes, and it is aligned to 8. -/
def cookieLen : Nat := 48 + 2 * pointerSize

/-- `UMPI_POOL_RESERVE_LEN`. -/
def umpiPoolReserveLen : Nat := 1024 * 1024

/-- `sizeof(int)`. -/
def intLen : Nat := 4

/-- `calc_mmap_len`, if `sharedLen` and `processLen` are `sizeof(shared)` and `sizeof(process)`. -/
def calcMmapLen (pageSize sharedLen processLen size : Nat) : Nat :=
  -- `UMPI_OUTSTANDING_REQUESTS_PER_PROCESS`, which has been 0 before
  let outstanding := 2 * size
  let headerLen := sharedLen + processLen * size
  let poolLen := umpiPoolReserveLen + cookieLen * outstanding * size
  (headerLen + poolLen + (pageSize - 1)) % 2 ^ 64 &&& (2 ^ 64 - 1 - (pageSize - 1))

/-- `alloc`, with the block among the live ones. -/
def Pooled.allocate {maxDeallocSize : Nat} (s : Pooled maxDeallocSize) (len : Nat) :
    Outcome (Option Nat × Pooled maxDeallocSize) := do
  let (p, pool) ← s.pool.alloc s.mem len
  match p with
  | none => pure (none, { s with pool := pool })
  | some address => pure (some address, { s with pool := pool, live := { address := address, len := len } :: s.live })

/-- The processes and the pool they share. -/
structure Segment where
  sys : Sys
  pooled : Pooled cookieLen
  /-- The address of the node with a cookie. -/
  cell : Nat → Nat
  /-- The blocks that are no cookies. -/
  others : List Block

namespace Segment

/-- The block of a cookie. -/
def block (s : Segment) (id : Nat) : Block := { address := s.cell id, len := cookieLen }

/-- `box.emplace_back` for a new cookie. -/
def emplace (s : Segment) (id : Nat) : Outcome Segment := do
  let (p, pooled) ← s.pooled.allocate cookieLen
  match p with
  | none => .undefined .nullHandle
  | some address => pure { s with pooled := pooled, cell := Function.update s.cell id address }

/-- `free_.erase`, for one cookie. -/
def erase (s : Segment) (id : Nat) : Outcome Segment := do
  let pooled ← s.pooled.step (.dealloc (some (s.cell id)) cookieLen)
  pure { s with pooled := pooled }

/-- `pool_allocator::allocate` for something that is kept. -/
def reserve (s : Segment) (len : Nat) : Outcome Segment := do
  let (p, pooled) ← s.pooled.allocate len
  pure
    { s with
      pooled := pooled
      others := (p.map fun address => { address := address, len := len }).toList ++ s.others }

/-- What the blocks that are no cookies take up. -/
def reserved (s : Segment) : Nat := (s.others.map fun block => MemoryPool.alignedLen block.len).sum

/-- A pool before anything has been allocated. -/
def empty (sys : Sys) (pool : MemoryPool cookieLen) (mem : PoolMemory) : Segment :=
  { sys := sys
    pooled := { pool := pool, mem := mem, live := [] }
    cell := fun _ => 0
    others := [] }

/-- `shared::shared`, at the start of a mapping of `mmapLen` bytes. A pool without room for a pointer would hand
    out null. -/
def shared (size sharedLen processLen mmapLen : Nat) (mem : Memory) (bytes : PoolMemory) : Outcome Segment :=
  match MemoryPool.construct sharedLen mmapLen with
  | none => .undefined .nullHandle
  | some pool => do
      let s ← (empty (Sys.init size mem) pool bytes).reserve (processLen * size)
      (List.range umpiOutstandingCollectiveOperations).foldlM (fun s _ => s.reserve (intLen * size)) s

/-- An event of the processes, with the cookies it allocates and those it gives back. -/
def runtime (vm : ProcessVm) (program : Program) (s : Segment) (event : Event) : Outcome Segment := do
  let sys ← s.sys.perform vm program event
  let grown ← (List.range' s.sys.world.next (sys.world.next - s.sys.world.next)).foldlM emplace s
  let shrunk ← (s.sys.released event).foldlM erase grown
  pure { shrunk with sys := sys }

/-- What an event asks of the pool, the last call first: blocks for the new cookies, and the blocks of those given
    back. -/
def calls (s : Segment) (event : Event) (after : Segment) : List PoolCall :=
  ((s.sys.released event).map fun id => PoolCall.dealloc (some (after.cell id)) cookieLen).reverse ++
    List.replicate (after.sys.world.next - s.sys.world.next) (.alloc cookieLen)

/-- A run: the events of the processes with the states before them, and all calls of the pool, the latest first, and
    the state at its end. -/
inductive Runs (vm : ProcessVm) (program : Program) (start : Segment) :
    List (Sys × Event) → List PoolCall → Segment → Prop where
  | refl : Runs vm program start [] [] start
  | runtime {history : List (Sys × Event)} {past : List PoolCall} {s s' : Segment} (event : Event)
      (before : Runs vm program start history past s) (performed : s.runtime vm program event = .ok s') :
      Runs vm program start ((s.sys, event) :: history) (s.calls event s' ++ past) s'
  | reserve {history : List (Sys × Event)} {past : List PoolCall} {s s' : Segment} (len : Nat)
      (before : Runs vm program start history past s) (allowed : s.pooled.Allowed (.alloc len))
      (performed : s.reserve len = .ok s') : Runs vm program start history (.alloc len :: past) s'
  | write {history : List (Sys × Event)} {past : List PoolCall} {s : Segment} {pooled : Pooled cookieLen}
      (address : Nat) (value : UInt8) (before : Runs vm program start history past s)
      (allowed : s.pooled.Allowed (.write address value))
      (performed : s.pooled.step (.write address value) = .ok pooled) :
      Runs vm program start history (.write address value :: past) { s with pooled := pooled }

end Segment

end Umpi
