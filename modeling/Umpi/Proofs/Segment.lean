/-
Module: Umpi.Proofs.Segment
Layer: Proofs
Purpose: The processes are good clients of the pool. `Housed` says that the blocks in use are those of the cookies
  that exist and those of everything else, and how many there have been at most; every step keeps it. So cookies can
  be told apart by their addresses, although the blocks are used again, and the mapping that `mpiexec` sizes has room
  for all cookies as long as requests and committed types stay within the reserve.
Imports: Umpi.Foundation.MachineInt, Umpi.Proofs.Pool, Umpi.Proofs.Footprint, Umpi.Model.Segment
Trusted boundary: none
Main exports: Housed, Segment.Runs.housed, Sited, cookies_have_blocks, Sparing, segment_has_room
Open obligations: none
-/
import Umpi.Foundation.MachineInt
import Umpi.Proofs.Pool
import Umpi.Proofs.Footprint
import Umpi.Model.Segment

namespace Umpi

open Foundation

/-! ### Blocks of cookies and of others -/

theorem alignedLen_le {len : Nat} (small : max pointerSize len + (alignSize - 1) < 2 ^ 64) :
    MemoryPool.alignedLen len ≤ max pointerSize len + (alignSize - 1) := by
  unfold MemoryPool.alignedLen
  rw [align_eq small]
  exact Nat.div_mul_le_self _ _

theorem cookieLen_roundable : max pointerSize cookieLen + (alignSize - 1) < 2 ^ 64 := by decide

theorem cookieLen_class : MemoryPool.classOf cookieLen < MemoryPool.listSize cookieLen := by decide

theorem cookieLen_aligned : MemoryPool.alignedLen cookieLen = cookieLen := by decide

/-- The blocks of class `i`. -/
def blocksOf (blocks : List Block) (i : Nat) : Nat := blocks.countP fun block => MemoryPool.classOf block.len = i

/-- What blocks ask for beyond the largest class. -/
def beyondOf (maxDeallocSize : Nat) (blocks : List Block) : Nat :=
  (blocks.map fun block => (PoolCall.alloc block.len).beyond maxDeallocSize).sum

section Demand

variable {maxDeallocSize classes : Nat}

theorem classDemand_mono {blocks blocks' : Nat → Nat} (fewer : ∀ i < classes, blocks i ≤ blocks' i) :
    classDemand classes blocks ≤ classDemand classes blocks' :=
  Finset.sum_le_sum fun i listed => Nat.mul_le_mul_left _ (fewer i (Finset.mem_range.mp listed))

/-- More blocks of one class. -/
theorem classDemand_add {c : Nat} (small : c < classes) (more : Nat) (blocks : Nat → Nat) :
    classDemand classes (fun i => (if i = c then more else 0) + blocks i) =
      (c + 1) * alignSize * more + classDemand classes blocks := by
  have single : ∑ i ∈ Finset.range classes, (i + 1) * alignSize * (if i = c then more else 0) =
      (c + 1) * alignSize * more := by
    rw [Finset.sum_eq_single_of_mem c (Finset.mem_range.mpr small) fun i _ other => by simp [other]]
    simp
  unfold classDemand
  simp only [Nat.mul_add]
  rw [Finset.sum_add_distrib]
  exact congrArg (· + _) single

/-- Blocks take up their rounded lengths. -/
theorem classDemand_blocksOf {blocks : List Block}
    (sized : ∀ block ∈ blocks, 0 < block.len ∧ max pointerSize block.len + (alignSize - 1) < 2 ^ 64) :
    classDemand (MemoryPool.listSize maxDeallocSize) (blocksOf blocks) + beyondOf maxDeallocSize blocks =
      (blocks.map fun block => MemoryPool.alignedLen block.len).sum := by
  induction blocks with
  | nil => simp [classDemand, blocksOf, beyondOf]
  | cons block blocks ih =>
      have before := ih fun other listed => sized other (List.mem_cons_of_mem _ listed)
      obtain ⟨positive, roundable⟩ := sized block List.mem_cons_self
      have count : ∀ i, blocksOf (block :: blocks) i =
          blocksOf blocks i + if MemoryPool.classOf block.len = i then 1 else 0 := by
        intro i
        simp [blocksOf, List.countP_cons]
      have further : beyondOf maxDeallocSize (block :: blocks) =
          (PoolCall.alloc block.len).beyond maxDeallocSize + beyondOf maxDeallocSize blocks := by
        simp [beyondOf]
      rw [further, List.map_cons, List.sum_cons]
      by_cases small : MemoryPool.classOf block.len < MemoryPool.listSize maxDeallocSize
      · have inside : (PoolCall.alloc block.len).beyond maxDeallocSize = 0 := by
          simp [PoolCall.beyond, Nat.not_le_of_lt small]
        rw [inside, alignedLen_eq roundable, classDemand_update small (blocksOf blocks) (by rw [count, if_pos rfl])
          fun j _ other => by rw [count, if_neg (Ne.symm other), Nat.add_zero]]
        omega
      · have outside : (PoolCall.alloc block.len).beyond maxDeallocSize = MemoryPool.alignedLen block.len :=
          if_pos ⟨positive, Nat.le_of_not_lt small⟩
        have same : ∀ i < MemoryPool.listSize maxDeallocSize, blocksOf (block :: blocks) i = blocksOf blocks i := by
          intro i within
          have other : MemoryPool.classOf block.len ≠ i := fun own => small (own ▸ within)
          rw [count, if_neg other, Nat.add_zero]
        rw [outside, classDemand_congr (blocksOf blocks) same]
        omega

end Demand

/-! ### Allocations -/

section Allocate

variable {maxDeallocSize len : Nat} {s s' : Pooled maxDeallocSize} {p : Option Nat}

/-- Null is handed out for nothing only. -/
theorem Pooled.allocate_isSome (positive : 0 < len) (given : s.allocate len = .ok (p, s')) : p.isSome := by
  obtain ⟨⟨p', pool⟩, allocated, rest⟩ := Outcome.bind_eq_ok.mp given
  simp only [MemoryPool.alloc, if_neg (Nat.ne_of_gt positive), MemoryPool.pop] at allocated
  split at allocated
  · split at allocated
    · cases allocated
    · obtain ⟨rfl, rfl⟩ := Prod.mk.inj (Outcome.ok.inj allocated)
      obtain ⟨rfl, _⟩ := Prod.mk.inj (Outcome.ok.inj rest)
      rfl
  · split at allocated
    · cases allocated
    · obtain ⟨rfl, rfl⟩ := Prod.mk.inj (Outcome.ok.inj allocated)
      obtain ⟨rfl, _⟩ := Prod.mk.inj (Outcome.ok.inj rest)
      rfl

/-- It is a call of `alloc`, and the block is live from now on. -/
theorem Pooled.allocate_step (given : s.allocate len = .ok (p, s')) :
    s.step (.alloc len) = .ok s' ∧
      s'.live = (p.map fun address => { address := address, len := len }).toList ++ s.live := by
  obtain ⟨⟨p', pool⟩, allocated, rest⟩ := Outcome.bind_eq_ok.mp given
  simp only [Pooled.step, allocated, Outcome.ok_bind]
  cases p' <;> obtain ⟨rfl, rfl⟩ := Prod.mk.inj (Outcome.ok.inj rest) <;> exact ⟨rfl, rfl⟩

theorem Pooled.allocate_of_alloc {result : Option Nat × MemoryPool maxDeallocSize}
    (given : s.pool.alloc s.mem len = .ok result) : ∃ p s', s.allocate len = .ok (p, s') := by
  obtain ⟨p, pool⟩ := result
  simp only [Pooled.allocate, given, Outcome.ok_bind]
  cases p with
  | none => exact ⟨_, _, rfl⟩
  | some address => exact ⟨_, _, rfl⟩

end Allocate

/-! ### Who lives where -/

/-- The blocks in use are those of the cookies `ids` and the others, and there have never been more than `most` of
    the first. -/
structure Housed (start : Pooled cookieLen) (most : Nat) (past : List (PoolCall × Pooled cookieLen))
    (ids : List Nat) (s : Segment) : Prop where
  run : Pooled.Runs start past s.pooled
  live : s.pooled.live.Perm (ids.map s.block ++ s.others)
  peaks : ∀ i, peak start past i ≤ (if i = MemoryPool.classOf cookieLen then most else 0) + blocksOf s.others i
  large : beyond past = beyondOf cookieLen s.others

namespace Housed

variable {start : Pooled cookieLen} {most : Nat} {past : List (PoolCall × Pooled cookieLen)} {ids ids' : List Nat}
  {s s' : Segment}

/-- The blocks in use, by class. -/
theorem liveOf (live : s.pooled.live.Perm (ids.map s.block ++ s.others)) (i : Nat) :
    s.pooled.liveOf i = (if i = MemoryPool.classOf cookieLen then ids.length else 0) + blocksOf s.others i := by
  have cookies : (ids.map s.block).countP (fun block => MemoryPool.classOf block.len = i) =
      if i = MemoryPool.classOf cookieLen then ids.length else 0 := by
    rw [List.countP_map]
    by_cases own : i = MemoryPool.classOf cookieLen
    · subst own
      simp [Segment.block, Function.comp_def]
    · simp [Segment.block, Function.comp_def, own, Ne.symm own]
  rw [Pooled.liveOf, live.countP_eq, List.countP_append, cookies]
  rfl

/-- One call of the pool. -/
theorem call (housed : Housed start most past ids s) {call : PoolCall} (allowed : s.pooled.Allowed call)
    (stepped : s.pooled.step call = .ok s'.pooled) (live : s'.pooled.live.Perm (ids'.map s'.block ++ s'.others))
    (few : ids'.length ≤ most) (kept : ∀ i, blocksOf s.others i ≤ blocksOf s'.others i)
    (further : call.beyond cookieLen + beyondOf cookieLen s.others = beyondOf cookieLen s'.others) :
    Housed start most ((call, s'.pooled) :: past) ids' s' where
  run := .tail call housed.run allowed stepped
  live := live
  peaks := by
    intro i
    have before := housed.peaks i
    have grown := kept i
    rw [peak_cons, liveOf live]
    refine max_le (Nat.add_le_add_right ?_ _) (before.trans (Nat.add_le_add_left grown _))
    split
    · exact few
    · exact le_rfl
  large := by rw [beyond_cons, housed.large, further]

/-- A cookie moves in. -/
theorem emplace (housed : Housed start most past ids s) {id : Nat} (new : id ∉ ids) (few : ids.length < most)
    (emplaced : s.emplace id = .ok s') :
    ∃ past', Housed start most past' (id :: ids) s' ∧
      past'.map Prod.fst = .alloc cookieLen :: past.map Prod.fst := by
  obtain ⟨⟨p, pooled⟩, given, rest⟩ := Outcome.bind_eq_ok.mp emplaced
  obtain ⟨stepped, live⟩ := Pooled.allocate_step given
  cases p with
  | none => cases rest
  | some address =>
      obtain rfl := Outcome.ok.inj rest
      have allowed : s.pooled.Allowed (.alloc cookieLen) := cookieLen_roundable
      refine ⟨_, housed.call allowed stepped ?_ few (fun _ => le_rfl) ?_, rfl⟩
      · have same : ids.map (Segment.block { s with
            pooled := pooled, cell := Function.update s.cell id address }) = ids.map s.block := by
          refine List.map_congr_left fun other listed => ?_
          have different : other ≠ id := fun here => new (here ▸ listed)
          simp [Segment.block, different]
        have own : Segment.block { s with
            pooled := pooled, cell := Function.update s.cell id address } id =
              { address := address, len := cookieLen } := by
          simp [Segment.block]
        rw [List.map_cons, same, own]
        simp only [live]
        exact housed.live.cons _
      · have none : (PoolCall.alloc cookieLen).beyond cookieLen = 0 := by
          simp [PoolCall.beyond, Nat.not_le_of_lt cookieLen_class]
        rw [none, Nat.zero_add]

/-- Several cookies move in. -/
theorem emplaceAll {news : List Nat} (housed : Housed start most past ids s) (distinct : news.Nodup)
    (new : ∀ id ∈ news, id ∉ ids) (few : ids.length + news.length ≤ most)
    (emplaced : news.foldlM Segment.emplace s = .ok s') :
    ∃ past', Housed start most past' (news.reverse ++ ids) s' ∧
      past'.map Prod.fst = List.replicate news.length (.alloc cookieLen) ++ past.map Prod.fst := by
  induction news generalizing past ids s with
  | nil =>
      obtain rfl := Outcome.ok.inj emplaced
      exact ⟨past, housed, rfl⟩
  | cons id news ih =>
      rw [List.foldlM_cons] at emplaced
      obtain ⟨mid, first, rest⟩ := Outcome.bind_eq_ok.mp emplaced
      obtain ⟨notLater, distinct⟩ := List.nodup_cons.mp distinct
      rw [List.length_cons] at few
      obtain ⟨past₁, housed, called⟩ := housed.emplace (new id List.mem_cons_self) (by omega) first
      have room : (id :: ids).length + news.length ≤ most := by
        rw [List.length_cons]
        omega
      have apart : ∀ other ∈ news, other ∉ id :: ids := by
        rintro other later (_ | ⟨_, listed⟩)
        · exact notLater later
        · exact new other (List.mem_cons_of_mem _ later) listed
      obtain ⟨past₂, housed, calledAll⟩ := ih housed distinct apart room rest
      rw [List.reverse_cons, List.append_assoc, List.length_cons, List.replicate_succ', List.append_assoc]
      exact ⟨past₂, housed, calledAll.trans (congrArg _ called)⟩

/-- A cookie moves out. -/
theorem erase (housed : Housed start most past ids s) {id : Nat} (listed : id ∈ ids) (few : ids.length ≤ most)
    (erased : s.erase id = .ok s') :
    s'.cell = s.cell ∧ ∃ past', Housed start most past' (ids.erase id) s' ∧
      past'.map Prod.fst = .dealloc (some (s.cell id)) cookieLen :: past.map Prod.fst := by
  obtain ⟨pooled, stepped, rest⟩ := Outcome.bind_eq_ok.mp erased
  obtain rfl := Outcome.ok.inj rest
  have perm : (ids.map s.block).Perm (s.block id :: (ids.erase id).map s.block) :=
    (List.perm_cons_erase listed).map s.block
  have inUse : s.block id ∈ s.pooled.live :=
    housed.live.mem_iff.mpr (List.mem_append_left _ (List.mem_map_of_mem listed))
  have shorter : (ids.erase id).length ≤ ids.length := List.length_erase_le
  have allowed : s.pooled.Allowed (.dealloc (some (s.cell id)) cookieLen) := Or.inr ⟨s.cell id, rfl, inUse⟩
  refine ⟨rfl, _, housed.call allowed stepped ?_ (by omega) (fun _ => le_rfl) (Nat.zero_add _), rfl⟩
  obtain ⟨⟨pool, mem⟩, _, left⟩ := Outcome.bind_eq_ok.mp stepped
  obtain rfl := Outcome.ok.inj left
  have gone := (housed.live.trans (perm.append_right s.others)).erase (s.block id)
  rw [List.cons_append, List.erase_cons_head] at gone
  exact gone

/-- Several cookies move out. -/
theorem eraseAll {gone : List Nat} (housed : Housed start most past ids s) (distinct : gone.Nodup)
    (listed : ∀ id ∈ gone, id ∈ ids) (few : ids.length ≤ most) (erased : gone.foldlM Segment.erase s = .ok s') :
    s'.cell = s.cell ∧ ∃ past', Housed start most past' (ids.diff gone) s' ∧
      past'.map Prod.fst =
        (gone.map fun id => PoolCall.dealloc (some (s.cell id)) cookieLen).reverse ++ past.map Prod.fst := by
  induction gone generalizing past ids s with
  | nil =>
      obtain rfl := Outcome.ok.inj erased
      exact ⟨rfl, past, housed, rfl⟩
  | cons id gone ih =>
      rw [List.foldlM_cons] at erased
      obtain ⟨mid, first, rest⟩ := Outcome.bind_eq_ok.mp erased
      obtain ⟨notLater, distinct⟩ := List.nodup_cons.mp distinct
      obtain ⟨sameCell, past₁, housed, called⟩ := housed.erase (listed id List.mem_cons_self) few first
      have left : ∀ other ∈ gone, other ∈ ids.erase id := by
        intro other later
        have different : other ≠ id := fun here => notLater (here ▸ later)
        exact (List.mem_erase_of_ne different).mpr (listed other (List.mem_cons_of_mem _ later))
      obtain ⟨same, past₂, housed, calledAll⟩ := ih housed distinct left (List.length_erase_le.trans few) rest
      rw [List.diff_cons, List.map_cons, List.reverse_cons, List.append_assoc]
      refine ⟨same.trans sameCell, past₂, housed, ?_⟩
      rw [calledAll, called, sameCell]
      rfl

/-- Something else moves in, for good. -/
theorem reserve (housed : Housed start most past ids s) {len : Nat} (few : ids.length ≤ most)
    (allowed : s.pooled.Allowed (.alloc len)) (reserved : s.reserve len = .ok s') :
    ∃ past', Housed start most past' ids s' ∧ past'.map Prod.fst = .alloc len :: past.map Prod.fst := by
  obtain ⟨⟨p, pooled⟩, given, rest⟩ := Outcome.bind_eq_ok.mp reserved
  obtain ⟨stepped, live⟩ := Pooled.allocate_step given
  obtain rfl := Outcome.ok.inj rest
  refine ⟨_, housed.call allowed stepped ?_ few (fun i => ?_) ?_, rfl⟩
  · rw [live]
    refine (housed.live.append_left _).trans ?_
    rw [← List.append_assoc, ← List.append_assoc]
    exact List.perm_append_comm.append_right _
  · simp [blocksOf, List.countP_append]
  · cases p with
    | none =>
        have nothing : len = 0 := by
          by_contra positive
          have some := Pooled.allocate_isSome (Nat.pos_of_ne_zero positive) given
          cases some
        subst nothing
        simp [PoolCall.beyond]
    | some address => simp [beyondOf]

end Housed

/-! ### Events -/

section Events

open Sys

variable {vm : ProcessVm} {program : Program} {n : Nat} {pool : List Nat} {s s' : Sys} {event : Event}

/-- An event that leaves a handle does nothing else. -/
theorem Sys.leaves_cases (performed : s.perform vm program event = .ok s') {id : Nat}
    (leaves : s.leaves event = some id) : ∃ self, id ∈ (s.ranks self).requests ∧ s' = s.leave self id := by
  cases event with
  | collective label =>
      have stepped : s.step vm program label = .ok s' := performed
      cases label with
      | call self => cases leaves
      | act self => cases leaves
      | wait self _ =>
          obtain rfl := Option.some.inj leaves
          obtain ⟨_, listed, _, rfl⟩ := step_wait stepped
          exact ⟨self, listed, rfl⟩
  | recv => cases leaves
  | send => cases leaves
  | test self _ =>
      simp only [Sys.leaves] at leaves
      simp only [Sys.perform] at performed
      split at leaves
      case isTrue => cases leaves
      case isFalse finished =>
        obtain rfl := Option.some.inj leaves
        split at performed
        case isTrue possible =>
          obtain rfl := Outcome.ok.inj performed
          exact ⟨self, possible.2, rfl⟩
        case isFalse => cases performed

/-- Names of cookies are only ever added. -/
theorem Tended.next_le (tended : Tended program n pool s) (several : 2 ≤ n) (limit : n ≤ 10000)
    (alike : ∀ rank < n, ∀ pos,
      (program rank pos).map Call.operation = (program 0 pos).map Call.operation)
    (agree : ∀ rank < n, ∀ pos,
      (program rank pos).map Call.reducesInPlace = (program 0 pos).map Call.reducesInPlace)
    (performed : s.perform vm program event = .ok s') (clean : s'.Clean) : s.world.next ≤ s'.world.next := by
  have posted : ∀ {self : Nat}, Posted s s' self → s.world.next ≤ s'.world.next := by
    rintro self (⟨_, _, _, takes⟩ | ⟨_, _, _, queues⟩)
    · exact takes.next.ge
    · rcases queues.free with ⟨_, same⟩ | ⟨_, _, _, grown⟩
      · exact same.ge
      · exact grown ▸ Nat.le_succ _
  cases event with
  | collective label =>
      have stepped : s.step vm program label = .ok s' := performed
      cases label with
      | call self =>
          obtain ⟨call, w, frame, valid, idle, listed, entered, rfl⟩ := step_call stepped
          rw [tended.tickets.size] at valid
          have accepted : frame.Accepted := fun finished => by
            refine clean self frame.ret ?_
            simp [RankState.enter, finished]
          obtain ⟨past, made, mid, offer, cont, made', stage, joined⟩ :=
            tended.exists_joined several limit alike agree valid idle listed entered accepted
          exact joined.entered.next
      | act self =>
          obtain ⟨action, rest, done, todo, acted, rfl⟩ := step_act stepped
          rcases Action.exec_cases acted with ⟨id, _, moved, _⟩ | ⟨_, midway⟩
          · rw [moved]
            exact le_rfl
          · exact midway.next.ge
      | wait self id =>
          obtain ⟨_, _, _, rfl⟩ := step_wait stepped
          exact le_rfl
  | recv self buf count datatype source tag comm =>
      obtain ⟨_, _, called⟩ := perform_recv performed tended.tickets.placed.todo_eq_nil clean
      exact posted called
  | send self buf count datatype dest tag comm =>
      obtain ⟨_, _, called⟩ := perform_send performed tended.tickets.placed.todo_eq_nil clean
      exact posted called
  | test self id =>
      simp only [Sys.perform] at performed
      split at performed
      case isTrue possible =>
        split at performed <;> obtain rfl := Outcome.ok.inj performed <;> exact le_rfl
      case isFalse => cases performed

/-- What is given back has been on no shelf but that of the cookies that exist. -/
theorem Shelved.released (shelved : Shelved pool s) (self id : Nat) :
    (s.world.released id).Nodup ∧ ∀ other ∈ s.world.released id, other ∈ s.existing pool := by
  have after := shelved.leave self id
  have distinct : (s.world.released id ++ pool).Nodup := after.exclusive.nodup .pool
  refine ⟨distinct.of_append_left, fun other gone => ?_⟩
  have allocated : other < s.world.next := after.of_mem (i := .pool) (List.mem_append_left _ gone)
  exact Finset.mem_filter.mpr ⟨Finset.mem_range.mpr allocated, distinct.disjoint gone⟩

end Events

/-! ### Runs -/

/-- At no point of a run have there been more than `most` cookies. -/
def AtMost (most : Nat) : List (Sys × Event) → Sys → Prop
  | [], s => (s.existing []).card ≤ most
  | (before, event) :: history, s =>
      (s.existing (Sys.pool ((before, event) :: history))).card ≤ most ∧ AtMost most history before

theorem AtMost.card_le {most : Nat} {history : List (Sys × Event)} {s : Sys} (within : AtMost most history s) :
    (s.existing (Sys.pool history)).card ≤ most := by
  cases history with
  | nil => exact within
  | cons entry history => exact within.1

/-- Some number is large enough. -/
theorem exists_atMost (history : List (Sys × Event)) (s : Sys) : ∃ most, AtMost most history s := by
  have mono : ∀ {most more : Nat} (history : List (Sys × Event)) (s : Sys), most ≤ more → AtMost most history s →
      AtMost more history s := by
    intro most more history
    induction history with
    | nil => exact fun s le within => within.trans le
    | cons entry history ih => exact fun s le within => ⟨within.1.trans le, ih entry.1 le within.2⟩
  induction history generalizing s with
  | nil => exact ⟨_, le_rfl⟩
  | cons entry history ih =>
      obtain ⟨most, within⟩ := ih entry.1
      exact ⟨max most _, le_max_right most _, mono history entry.1 (le_max_left _ _) within⟩

/-- The same names, once each, as those of the cookies that exist. -/
def Sys.Lists (s : Sys) (pool ids : List Nat) : Prop := ids.Nodup ∧ ∀ id, id ∈ ids ↔ id ∈ s.existing pool

namespace Sys.Lists

variable {s s' : Sys} {pool ids : List Nat}

theorem length_eq (lists : s.Lists pool ids) : ids.length = (s.existing pool).card := by
  rw [← List.toFinset_card_of_nodup lists.1]
  exact congrArg Finset.card (Finset.ext fun id => by simp [lists.2])

/-- New cookies. -/
theorem grow (lists : s.Lists pool ids) (more : s.world.next ≤ s'.world.next)
    (kept : ∀ id ∈ pool, id < s.world.next) :
    s'.Lists pool ((List.range' s.world.next (s'.world.next - s.world.next)).reverse ++ ids) := by
  refine ⟨?_, fun id => ?_⟩
  · refine List.nodup_append.mpr ⟨List.nodup_reverse.mpr List.nodup_range', lists.1, fun a new b old => ?_⟩
    have later := (List.mem_range'_1.mp (List.mem_reverse.mp new)).1
    have before := Finset.mem_range.mp (Finset.mem_filter.mp ((lists.2 b).mp old)).1
    omega
  · have before := kept id
    rw [List.mem_append, List.mem_reverse, List.mem_range'_1, lists.2 id]
    simp only [Sys.existing, Finset.mem_filter, Finset.mem_range]
    constructor
    · rintro (⟨_, _⟩ | ⟨_, notKept⟩)
      · refine ⟨by omega, fun isKept => ?_⟩
        have allocated := before isKept
        omega
      · exact ⟨by omega, notKept⟩
    · rintro ⟨_, notKept⟩
      by_cases old : id < s.world.next
      · exact Or.inr ⟨old, notKept⟩
      · exact Or.inl ⟨by omega, by omega⟩

/-- Cookies are given back. -/
theorem shrink (lists : s.Lists pool ids) (same : s'.world.next = s.world.next) (gone : List Nat) :
    s'.Lists (gone ++ pool) (ids.diff gone) := by
  refine ⟨lists.1.diff, fun id => ?_⟩
  rw [lists.1.mem_sdiff_iff, lists.2 id]
  simp only [Sys.existing, Finset.mem_filter, Finset.mem_range, same, List.mem_append, not_or]
  tauto

end Sys.Lists

namespace Segment

variable {vm : ProcessVm} {program : Program} {n most : Nat} {mem : Memory} {first s s' : Segment}
  {history : List (Sys × Event)} {start : Pooled cookieLen} {past : List (PoolCall × Pooled cookieLen)}
  {ids : List Nat}

/-- What an event does to the pool. -/
theorem runtime_eq_ok {event : Event} :
    s.runtime vm program event = .ok s' ↔ ∃ sys grown shrunk, s.sys.perform vm program event = .ok sys ∧
      (List.range' s.sys.world.next (sys.world.next - s.sys.world.next)).foldlM emplace s = .ok grown ∧
        (s.sys.released event).foldlM erase grown = .ok shrunk ∧ s' = { shrunk with sys := sys } := by
  unfold runtime
  constructor
  · intro performed
    obtain ⟨sys, happened, rest⟩ := Outcome.bind_eq_ok.mp performed
    obtain ⟨grown, allocated, rest⟩ := Outcome.bind_eq_ok.mp rest
    obtain ⟨shrunk, returned, rest⟩ := Outcome.bind_eq_ok.mp rest
    exact ⟨sys, grown, shrunk, happened, allocated, returned, (Outcome.ok.inj rest).symm⟩
  · rintro ⟨sys, grown, shrunk, happened, allocated, returned, rfl⟩
    simp [happened, allocated, returned]

/-- To the processes, it is a run like any other. -/
theorem Runs.sys {calls : List PoolCall} (run : Runs vm program first history calls s) :
    Sys.Runs vm program first.sys history s.sys := by
  induction run with
  | refl => exact .refl
  | runtime event _ performed ih =>
      obtain ⟨sys, grown, shrunk, happened, _, _, rfl⟩ := runtime_eq_ok.mp performed
      exact .tail event ih happened
  | reserve len _ _ performed ih =>
      obtain ⟨⟨p, pooled⟩, _, rest⟩ := Outcome.bind_eq_ok.mp performed
      obtain rfl := Outcome.ok.inj rest
      exact ih
  | write address value _ _ _ ih => exact ih

end Segment

/-- The processes play no role. -/
theorem Housed.sys {start : Pooled cookieLen} {most : Nat} {past : List (PoolCall × Pooled cookieLen)}
    {ids : List Nat} {s : Segment} (housed : Housed start most past ids s) (sys : Sys) :
    Housed start most past ids { s with sys := sys } where
  run := housed.run
  live := housed.live
  peaks := housed.peaks
  large := housed.large

namespace Segment

section Running

variable {vm : ProcessVm} {program : Program} {n most : Nat} {mem : Memory} {first s s' : Segment}
  {history : List (Sys × Event)} {start : Pooled cookieLen} {past : List (PoolCall × Pooled cookieLen)}
  {ids : List Nat}
  (several : 2 ≤ n) (limit : n ≤ 10000)
  (alike : ∀ rank < n, ∀ pos,
    (program rank pos).map Call.operation = (program 0 pos).map Call.operation)
  (agree : ∀ rank < n, ∀ pos,
    (program rank pos).map Call.reducesInPlace = (program 0 pos).map Call.reducesInPlace)
include several limit alike agree

/-- An event of the processes: cookies move in, or out. -/
theorem runtime_housed {event : Event} (housed : Housed start most past ids s)
    (lists : s.sys.Lists (Sys.pool history) ids) (tended : Tended program n (Sys.pool history) s.sys)
    (performed : s.runtime vm program event = .ok s') (clean : s'.sys.Clean)
    (before : (s.sys.existing (Sys.pool history)).card ≤ most)
    (after : (s'.sys.existing (Sys.pool ((s.sys, event) :: history))).card ≤ most) :
    ∃ past' ids', Housed start most past' ids' s' ∧ past'.map Prod.fst = s.calls event s' ++ past.map Prod.fst ∧
      s'.sys.Lists (Sys.pool ((s.sys, event) :: history)) ids' := by
  obtain ⟨sys, grown, shrunk, happened, allocated, returned, rfl⟩ := runtime_eq_ok.mp performed
  have pools : Sys.pool ((s.sys, event) :: history) = s.sys.released event ++ Sys.pool history := rfl
  rw [pools] at after ⊢
  cases leaves : s.sys.leaves event with
  | none =>
      have nothing : s.sys.released event = [] := by simp only [Sys.released, leaves]
      rw [nothing] at returned after ⊢
      obtain rfl := Outcome.ok.inj returned
      have more := tended.next_le several limit alike agree happened clean
      have kept : ∀ id ∈ Sys.pool history, id < s.sys.world.next := fun id inPool =>
        tended.shelved.of_mem (i := .pool) inPool
      have lists' := lists.grow more kept
      have few := lists'.length_eq.le.trans after
      rw [List.length_append, List.length_reverse] at few
      obtain ⟨past', housed', called⟩ := housed.emplaceAll List.nodup_range'
        (fun id new old => by
          have later := (List.mem_range'_1.mp new).1
          have earlier := Finset.mem_range.mp (Finset.mem_filter.mp ((lists.2 id).mp old)).1
          omega)
        (by omega) allocated
      rw [List.length_range'] at called
      refine ⟨past', _, housed'.sys sys, ?_, lists'⟩
      rw [called, Segment.calls, nothing]
      rfl
  | some id =>
      obtain ⟨self, listed, rfl⟩ := Sys.leaves_cases happened leaves
      have same : (s.sys.leave self id).world.next = s.sys.world.next := rfl
      have gone : s.sys.released event = s.sys.world.released id := by simp only [Sys.released, leaves]
      rw [same, Nat.sub_self] at allocated
      obtain rfl := Outcome.ok.inj allocated
      rw [gone] at returned ⊢
      obtain ⟨distinct, exist⟩ := tended.shelved.released self id
      obtain ⟨sameCell, past', housed', called⟩ := housed.eraseAll distinct
        (fun other left => (lists.2 other).mpr (exist other left)) (lists.length_eq.le.trans before) returned
      refine ⟨past', _, housed'.sys _, ?_, lists.shrink same _⟩
      rw [called, Segment.calls, gone, same, Nat.sub_self, List.replicate_zero, List.append_nil, sameCell]

/-- Along every run, the blocks in use are those of the cookies that exist, and the others. -/
theorem Runs.housed {calls : List PoolCall} (fresh : first.sys = Sys.init n mem)
    (housed : Housed start most past [] first) (run : Runs vm program first history calls s) (clean : s.sys.Clean)
    (within : AtMost most history s.sys) :
    ∃ past' ids', Housed start most past' ids' s ∧ past'.map Prod.fst = calls ++ past.map Prod.fst ∧
      s.sys.Lists (Sys.pool history) ids' := by
  induction run with
  | refl =>
      refine ⟨past, [], housed, rfl, List.nodup_nil, fun id => ?_⟩
      rw [fresh]
      simp [Sys.existing, Sys.init, World.start]
  | @runtime history calls s s' event before performed ih =>
      obtain ⟨sys, grown, shrunk, happened, _, _, same⟩ := runtime_eq_ok.mp performed
      have sysAfter : s'.sys = sys := congrArg Segment.sys same
      have cleanBefore : s.sys.Clean := (sysAfter ▸ clean : sys.Clean).of_perform happened
      obtain ⟨past₁, ids₁, housed, called, lists⟩ := ih cleanBefore within.2
      have run : Sys.Runs vm program (Sys.init n mem) history s.sys := fresh ▸ before.sys
      have tended := runs_tended several limit alike agree run cleanBefore
      obtain ⟨past₂, ids₂, housed, calledNow, lists⟩ := runtime_housed several limit alike agree housed lists tended
        performed clean within.2.card_le within.1
      refine ⟨past₂, ids₂, housed, ?_, lists⟩
      rw [calledNow, called, List.append_assoc]
  | @reserve history calls s s' len before allowed performed ih =>
      have same : s'.sys = s.sys := by
        obtain ⟨⟨p, pooled⟩, _, rest⟩ := Outcome.bind_eq_ok.mp performed
        obtain rfl := Outcome.ok.inj rest
        rfl
      rw [same] at clean within ⊢
      obtain ⟨past₁, ids', housed, called, lists⟩ := ih clean within
      obtain ⟨past₂, housed, calledNow⟩ := housed.reserve (lists.length_eq.le.trans within.card_le) allowed performed
      exact ⟨past₂, ids', housed, calledNow.trans (congrArg _ called), lists⟩
  | @write history calls s pooled address value before allowed performed ih =>
      obtain ⟨past₁, ids', housed, called, lists⟩ := ih clean within
      obtain rfl := Outcome.ok.inj performed
      exact ⟨_, ids', housed.call allowed performed housed.live (lists.length_eq.le.trans within.card_le)
        (fun _ => le_rfl) (Nat.zero_add _), congrArg _ called, lists⟩

end Running

end Segment

/-- A pool in which nothing has been allocated. -/
theorem Housed.empty (sys : Sys) (pool : MemoryPool cookieLen) (mem : PoolMemory) :
    Housed { pool := pool, mem := mem, live := [] } 0 [] [] (Segment.empty sys pool mem) where
  run := .refl
  live := .nil
  peaks := fun _ => Nat.zero_le _
  large := rfl

theorem Housed.mono {start : Pooled cookieLen} {most more : Nat} {past : List (PoolCall × Pooled cookieLen)}
    {ids : List Nat} {s : Segment} (housed : Housed start most past ids s) (le : most ≤ more) :
    Housed start more past ids s where
  run := housed.run
  live := housed.live
  peaks := fun i => (housed.peaks i).trans (Nat.add_le_add_right (by split <;> omega) _)
  large := housed.large

/-- The cookies that exist have blocks of their own, and nothing but them and the others is in use. -/
structure Sited (pool : List Nat) (s : Segment) : Prop where
  used : ∀ id ∈ s.sys.existing pool, s.block id ∈ s.pooled.live
  apart : ∀ id ∈ s.sys.existing pool, ∀ other ∈ s.sys.existing pool, id ≠ other →
    (s.block id).extent.Apart (s.block other).extent
  others : ∀ id ∈ s.sys.existing pool, ∀ block ∈ s.others, (s.block id).extent.Apart block.extent
  count : s.pooled.live.length = (s.sys.existing pool).card + s.others.length

/-- In every run without an error, of point-to-point calls by anybody and of collective calls on which the ranks
    agree: every call of the pool in it has been allowed, so what is given back for a cookie has been its own block,
    in use until then, and the cookies that exist are in blocks that do not overlap, however often blocks are used
    again. -/
theorem cookies_have_blocks {vm : ProcessVm} {program : Program} {n begin_ end_ : Nat} {mem : Memory}
    {pool : MemoryPool cookieLen} {bytes : PoolMemory} {history : List (Sys × Event)} {calls : List PoolCall}
    {s : Segment} (several : 2 ≤ n) (limit : n ≤ 10000)
    (alike : ∀ rank < n, ∀ pos,
      (program rank pos).map Call.operation = (program 0 pos).map Call.operation)
    (agree : ∀ rank < n, ∀ pos,
      (program rank pos).map Call.reducesInPlace = (program 0 pos).map Call.reducesInPlace)
    (bounded : end_ < 2 ^ 63) (constructed : MemoryPool.construct begin_ end_ = some pool)
    (run : Segment.Runs vm program (Segment.empty (Sys.init n mem) pool bytes) history calls s)
    (clean : s.sys.Clean) :
    (∃ past, Pooled.Runs { pool := pool, mem := bytes, live := [] } past s.pooled ∧ past.map Prod.fst = calls) ∧
      Sited (Sys.pool history) s := by
  obtain ⟨most, within⟩ := exists_atMost history s.sys
  obtain ⟨past, ids, housed, called, lists⟩ := run.housed several limit alike agree rfl
    ((Housed.empty _ pool bytes).mono (Nat.zero_le most)) clean within
  obtain ⟨free, tidy, _⟩ := Accounts.of_runs (Tidy.start constructed bytes) bounded housed.run
  refine ⟨⟨past, housed.run, called.trans (List.append_nil calls)⟩, ?_⟩
  have packed : ((ids.map s.block ++ s.others).map Block.extent).Pairwise Extent.Apart :=
    ((housed.live.map Block.extent).pairwise_iff Extent.Apart.symm).mp (List.pairwise_append.mp tidy.packed.apart).1
  rw [List.map_append, List.map_map, List.pairwise_append] at packed
  obtain ⟨cookies, _, between⟩ := packed
  refine { used := fun id exists_ => ?_, apart := fun id exists_ other alsoExists different => ?_
           others := fun id exists_ block listed => ?_, count := ?_ }
  · exact housed.live.mem_iff.mpr
      (List.mem_append_left _ (List.mem_map_of_mem ((lists.2 id).mpr exists_)))
  · have symm : Std.Symm fun a b : Nat => (s.block a).extent.Apart (s.block b).extent :=
      ⟨fun _ _ => Extent.Apart.symm⟩
    have pairs : ids.Pairwise fun a b => (s.block a).extent.Apart (s.block b).extent := List.pairwise_map.mp cookies
    exact pairs.forall ((lists.2 id).mpr exists_) ((lists.2 other).mpr alsoExists) different
  · exact between _ (List.mem_map_of_mem ((lists.2 id).mpr exists_)) _ (List.mem_map_of_mem listed)
  · rw [housed.live.length_eq, List.length_append, List.length_map, lists.length_eq]

/-- A send and a receive that have met: the one call of the pool is for the cookie of the receive, in the first
    block. -/
theorem cookies_have_blocks_message :
    ∃ (pool : MemoryPool cookieLen) (history : List (Sys × Event)) (calls : List PoolCall) (s : Segment),
      MemoryPool.construct 3 1000 = some pool ∧
        Segment.Runs copyingVm (fun _ _ => none) (Segment.empty (Sys.init 2 fun _ => 0) pool fun _ => 0) history
          calls s ∧
        history.length = 2 ∧ calls = [.alloc cookieLen] ∧ s.cell 0 = 16 ∧
        (∃ past, Pooled.Runs { pool := pool, mem := fun _ => 0, live := [] } past s.pooled ∧
          past.map Prod.fst = calls) ∧
        Sited (Sys.pool history) s := by
  have runs : ∃ (pool : MemoryPool cookieLen) (history : List (Sys × Event)) (calls : List PoolCall) (s : Segment),
      MemoryPool.construct 3 1000 = some pool ∧
        Segment.Runs copyingVm (fun _ _ => none) (Segment.empty (Sys.init 2 fun _ => 0) pool fun _ => 0) history
          calls s ∧
        history.length = 2 ∧ calls = [.alloc cookieLen] ∧ s.cell 0 = 16 ∧ s.sys.Clean := by
    refine ⟨_, _, _, _, rfl, .runtime sendChar (.runtime recvChar .refl (by rfl)) (by rfl), rfl, by decide,
      by decide, ?_⟩
    rintro (_ | _ | rank)
    · decide
    · decide
    · rintro ret ⟨⟩
  obtain ⟨pool, history, calls, s, constructed, run, count, called, address, clean⟩ := runs
  exact ⟨pool, history, calls, s, constructed, run, count, called, address,
    cookies_have_blocks le_rfl (by decide) (fun _ _ _ => rfl) (fun _ _ _ => rfl) (by decide) constructed run clean⟩

/-! ### Room -/

namespace Housed

variable {pool : MemoryPool cookieLen} {bytes : PoolMemory} {most high : Nat}
  {past : List (PoolCall × Pooled cookieLen)} {ids : List Nat} {s s' : Segment}

/-- What has been cut off the pool, if there have been at most `most` cookies. -/
theorem taken_le (whole : Tidy pool.begin_ high { pool := pool, mem := bytes, live := [] } fun _ => [])
    (bounded : high < 2 ^ 63) (housed : Housed { pool := pool, mem := bytes, live := [] } most past ids s)
    {room : Nat} (peaks : ∀ i, peak { pool := pool, mem := bytes, live := [] } past i ≤
      (if i = MemoryPool.classOf cookieLen then room else 0) + blocksOf s.others i) :
    s.pooled.pool.begin_ ≤ pool.begin_ + (cookieLen * room + s.reserved) := by
  obtain ⟨free, tidy, accounts⟩ := Accounts.of_runs whole bounded housed.run
  have sized : ∀ block ∈ s.others, 0 < block.len ∧ max pointerSize block.len + (alignSize - 1) < 2 ^ 64 :=
    fun block listed => tidy.sized block (housed.live.mem_iff.mpr (List.mem_append_right _ listed))
  have unit : (MemoryPool.classOf cookieLen + 1) * alignSize = cookieLen := by decide
  have reserved : classDemand (MemoryPool.listSize cookieLen) (blocksOf s.others) + beyondOf cookieLen s.others =
      s.reserved := classDemand_blocksOf sized
  have taken := accounts.taken
  rw [housed.large] at taken
  calc s.pooled.pool.begin_
    _ = pool.begin_ + classDemand (MemoryPool.listSize cookieLen)
        (peak { pool := pool, mem := bytes, live := [] } past) + beyondOf cookieLen s.others := taken
    _ ≤ pool.begin_ + classDemand (MemoryPool.listSize cookieLen)
        (fun i => (if i = MemoryPool.classOf cookieLen then room else 0) + blocksOf s.others i) +
          beyondOf cookieLen s.others :=
      Nat.add_le_add_right (Nat.add_le_add_left (classDemand_mono fun i _ => peaks i) _) _
    _ = pool.begin_ + (cookieLen * room + s.reserved) := by
      rw [classDemand_add cookieLen_class, unit, ← reserved]
      omega

/-- There is room for something else. -/
theorem exists_reserve (whole : Tidy pool.begin_ high { pool := pool, mem := bytes, live := [] } fun _ => [])
    (bounded : high < 2 ^ 63) (housed : Housed { pool := pool, mem := bytes, live := [] } most past ids s) {len : Nat}
    (fits : cookieLen * most + s.reserved + MemoryPool.alignedLen len ≤ pool.space) :
    ∃ s', s.reserve len = .ok s' ∧ s'.sys = s.sys ∧ s'.reserved ≤ s.reserved + MemoryPool.alignedLen len := by
  obtain ⟨free, tidy, _⟩ := Accounts.of_runs whole bounded housed.run
  have taken := housed.taken_le whole bounded housed.peaks
  have rest := tidy.rest
  have all := whole.rest
  dsimp only at all
  have given : ∃ result, s.pooled.pool.alloc s.pooled.mem len = .ok result := by
    by_cases positive : 0 < len
    · rcases tidy.alloc_cases positive with ⟨_, _, little⟩ | ⟨given, _⟩
      · omega
      · exact given
    · obtain rfl := Nat.eq_zero_of_not_pos positive
      exact ⟨_, rfl⟩
  obtain ⟨result, allocated⟩ := given
  obtain ⟨p, pooled, given⟩ := Pooled.allocate_of_alloc allocated
  have value : s.reserve len = .ok
      { s with
        pooled := pooled
        others := (p.map fun address => { address := address, len := len }).toList ++ s.others } := by
    simp only [Segment.reserve, given, Outcome.ok_bind, Outcome.pure_eq]
  refine ⟨_, value, rfl, ?_⟩
  cases p with
  | none => exact Nat.le_add_right _ _
  | some address => simp [Segment.reserved, Nat.add_comm]

/-- There is room for several things of one length. -/
theorem exists_reserveAll (whole : Tidy pool.begin_ high { pool := pool, mem := bytes, live := [] } fun _ => [])
    (bounded : high < 2 ^ 63) {len : Nat} (roundable : max pointerSize len + (alignSize - 1) < 2 ^ 64)
    {times : List Nat} (housed : Housed { pool := pool, mem := bytes, live := [] } 0 past [] s)
    (fits : s.reserved + times.length * MemoryPool.alignedLen len ≤ pool.space) :
    ∃ s' past', times.foldlM (fun s _ => s.reserve len) s = .ok s' ∧ s'.sys = s.sys ∧
      Housed { pool := pool, mem := bytes, live := [] } 0 past' [] s' := by
  induction times generalizing past s with
  | nil => exact ⟨s, past, rfl, rfl, housed⟩
  | cons time times ih =>
      rw [List.length_cons, Nat.add_mul, Nat.one_mul] at fits
      have enough : cookieLen * 0 + s.reserved + MemoryPool.alignedLen len ≤ pool.space := by omega
      obtain ⟨mid, first, sys, grown⟩ := housed.exists_reserve whole bounded enough
      obtain ⟨past, housed, _⟩ := housed.reserve (Nat.le_refl 0) roundable first
      obtain ⟨s', past', rest, same, housed⟩ := ih housed (by omega)
      rw [List.foldlM_cons, first, Outcome.ok_bind]
      exact ⟨s', past', rest, same.trans sys, housed⟩

/-- There is room for a cookie. -/
theorem exists_emplace (whole : Tidy pool.begin_ high { pool := pool, mem := bytes, live := [] } fun _ => [])
    (bounded : high < 2 ^ 63) (housed : Housed { pool := pool, mem := bytes, live := [] } most past ids s)
    (few : ids.length < most) (fits : cookieLen * most + s.reserved ≤ pool.space) (id : Nat) :
    ∃ s', s.emplace id = .ok s' ∧ s'.others = s.others := by
  obtain ⟨free, tidy, accounts⟩ := Accounts.of_runs whole bounded housed.run
  have rest := tidy.rest
  have all := whole.rest
  dsimp only at all
  have given : ∃ result, s.pooled.pool.alloc s.pooled.mem cookieLen = .ok result := by
    rcases tidy.alloc_cases (by decide : 0 < cookieLen) with ⟨_, nothing, little⟩ | ⟨given, _⟩
    · -- no block has been given back, so there have been no more cookies than now
      exfalso
      have now := accounts.classes _ cookieLen_class
      rw [nothing cookieLen_class, List.length_nil, Nat.add_zero, liveOf housed.live, if_pos rfl] at now
      have fewer : ∀ i, peak { pool := pool, mem := bytes, live := [] } past i ≤
          (if i = MemoryPool.classOf cookieLen then most - 1 else 0) + blocksOf s.others i := by
        intro i
        by_cases own : i = MemoryPool.classOf cookieLen
        · subst own
          rw [if_pos rfl, ← now]
          omega
        · have others := housed.peaks i
          rwa [if_neg own] at others ⊢
      have taken := housed.taken_le whole bounded fewer
      have step : cookieLen * most = cookieLen * (most - 1) + cookieLen := by
        rw [← Nat.mul_succ]
        exact congrArg _ (by omega)
      rw [cookieLen_aligned] at little
      omega
    · exact given
  obtain ⟨result, allocated⟩ := given
  obtain ⟨p, pooled, given⟩ := Pooled.allocate_of_alloc allocated
  obtain ⟨address, rfl⟩ := Option.isSome_iff_exists.mp (Pooled.allocate_isSome (by decide) given)
  have value : s.emplace id = .ok { s with pooled := pooled, cell := Function.update s.cell id address } := by
    simp only [Segment.emplace, given, Outcome.ok_bind, Outcome.pure_eq]
  exact ⟨_, value, rfl⟩

/-- There is room for several cookies. -/
theorem exists_emplaceAll (whole : Tidy pool.begin_ high { pool := pool, mem := bytes, live := [] } fun _ => [])
    (bounded : high < 2 ^ 63) {news : List Nat}
    (housed : Housed { pool := pool, mem := bytes, live := [] } most past ids s) (distinct : news.Nodup)
    (new : ∀ id ∈ news, id ∉ ids) (few : ids.length + news.length ≤ most)
    (fits : cookieLen * most + s.reserved ≤ pool.space) : ∃ s', news.foldlM Segment.emplace s = .ok s' := by
  induction news generalizing past ids s with
  | nil => exact ⟨s, rfl⟩
  | cons id news ih =>
      obtain ⟨notLater, distinct⟩ := List.nodup_cons.mp distinct
      rw [List.length_cons] at few
      obtain ⟨mid, first, others⟩ := housed.exists_emplace whole bounded (by omega) fits id
      obtain ⟨past, housed, _⟩ := housed.emplace (new id List.mem_cons_self) (by omega) first
      have room : (id :: ids).length + news.length ≤ most := by
        rw [List.length_cons]
        omega
      have same : mid.reserved = s.reserved := by rw [Segment.reserved, others, Segment.reserved]
      rw [List.foldlM_cons, first, Outcome.ok_bind]
      refine ih housed distinct (fun other later => ?_) room (same ▸ fits)
      rintro (_ | ⟨_, listed⟩)
      · exact notLater later
      · exact new other (List.mem_cons_of_mem _ later) listed

end Housed

/-- Cookies can always be given back. -/
theorem exists_erase (s : Segment) (gone : List Nat) : ∃ s', gone.foldlM Segment.erase s = .ok s' := by
  have one : ∀ (s : Segment) (id : Nat), ∃ s', s.erase id = .ok s' := by
    intro s id
    have small : ¬ MemoryPool.listSize cookieLen ≤ MemoryPool.list (MemoryPool.alignedLen cookieLen) := by decide
    have notZero : cookieLen ≠ 0 := by decide
    simp only [Segment.erase, Pooled.step, MemoryPool.dealloc, if_neg notZero, if_neg small, MemoryPool.push,
      Outcome.ok_bind, Outcome.pure_eq]
    exact ⟨_, rfl⟩
  induction gone generalizing s with
  | nil => exact ⟨s, rfl⟩
  | cons id gone ih =>
      obtain ⟨mid, first⟩ := one s id
      rw [List.foldlM_cons, first, Outcome.ok_bind]
      exact ih mid

/-! ### The length of the mapping -/

section Mapping

variable {pageBits sharedLen processLen n : Nat}

/-- Everything that is counted fits into the mapping. -/
theorem le_calcMmapLen (page : pageBits ≤ 32) (sharedSmall : sharedLen < 2 ^ 32) (processSmall : processLen < 2 ^ 32)
    (limit : n ≤ 10000) :
    sharedLen + processLen * n + (umpiPoolReserveLen + cookieLen * (2 * n) * n) ≤
        calcMmapLen (2 ^ pageBits) sharedLen processLen n ∧
      calcMmapLen (2 ^ pageBits) sharedLen processLen n < 2 ^ 63 := by
  have pageSmall : 2 ^ pageBits ≤ 2 ^ 32 := Nat.pow_le_pow_right (by decide) page
  have positive : 0 < 2 ^ pageBits := Nat.two_pow_pos pageBits
  have processes : processLen * n ≤ 2 ^ 32 * 10000 := Nat.mul_le_mul processSmall.le limit
  have cookies : cookieLen * (2 * n) * n ≤ 64 * (2 * 10000) * 10000 :=
    Nat.mul_le_mul (Nat.mul_le_mul_left _ (Nat.mul_le_mul_left _ limit)) limit
  have reserve : umpiPoolReserveLen = 1048576 := rfl
  obtain ⟨whole, counted⟩ :
      ∃ whole, whole = sharedLen + processLen * n + (umpiPoolReserveLen + cookieLen * (2 * n) * n) := ⟨_, rfl⟩
  have fits : whole + (2 ^ pageBits - 1) < 2 ^ 63 := by omega
  have parts := Nat.div_add_mod (whole + (2 ^ pageBits - 1)) (2 ^ pageBits)
  have rest := Nat.mod_lt (whole + (2 ^ pageBits - 1)) positive
  have rounded : calcMmapLen (2 ^ pageBits) sharedLen processLen n =
      (whole + (2 ^ pageBits - 1)) / 2 ^ pageBits * 2 ^ pageBits := by
    simp only [calcMmapLen]
    rw [← counted, Nat.mod_eq_of_lt (by omega), and_highMask (by omega) (by omega)]
  rw [rounded, ← counted, Nat.mul_comm]
  omega

/-- A pool that starts behind the header. -/
theorem exists_construct {maxDeallocSize begin_ end_ : Nat} (fits : begin_ + 2 * alignSize ≤ end_) :
    ∃ pool : MemoryPool maxDeallocSize, MemoryPool.construct begin_ end_ = some pool ∧
      end_ ≤ begin_ + pool.space + (alignSize - 1) := by
  have unit : MemoryPool.align pointerSize = alignSize := by decide
  have padding := Nat.mod_lt (alignSize - begin_ % alignSize) (by decide : 0 < alignSize)
  have room : ¬ end_ - begin_ < alignSize + (alignSize - begin_ % alignSize) % alignSize := by omega
  unfold MemoryPool.construct stdAlign
  simp only [unit, if_neg room, Option.map_some]
  exact ⟨_, rfl, by
    dsimp only
    omega⟩

/-- The constructor's allocations succeed, and what is left has room for cookies and others. -/
theorem exists_shared (page : pageBits ≤ 32) (sharedSmall : sharedLen < 2 ^ 32) (processSmall : processLen < 2 ^ 32)
    (several : 2 ≤ n) (limit : n ≤ 10000) (mem : Memory) (bytes : PoolMemory) :
    ∃ (pool : MemoryPool cookieLen) (first : Segment) (past : List (PoolCall × Pooled cookieLen)),
      MemoryPool.construct sharedLen (calcMmapLen (2 ^ pageBits) sharedLen processLen n) = some pool ∧
        processLen * n + umpiPoolReserveLen + cookieLen * (2 * n * n) ≤ pool.space + (alignSize - 1) ∧
        Segment.shared n sharedLen processLen (calcMmapLen (2 ^ pageBits) sharedLen processLen n) mem bytes =
          .ok first ∧
        first.sys = Sys.init n mem ∧ Housed { pool := pool, mem := bytes, live := [] } 0 past [] first := by
  obtain ⟨long, bounded⟩ := le_calcMmapLen page sharedSmall processSmall limit
  have reserve : umpiPoolReserveLen = 1048576 := rfl
  have cookies : cookieLen * (2 * n) * n = cookieLen * (2 * n * n) := by ring
  obtain ⟨pool, constructed, space⟩ : ∃ pool : MemoryPool cookieLen,
      MemoryPool.construct sharedLen (calcMmapLen (2 ^ pageBits) sharedLen processLen n) = some pool ∧
        calcMmapLen (2 ^ pageBits) sharedLen processLen n ≤ sharedLen + pool.space + (alignSize - 1) := by
    apply exists_construct
    simp only [alignSize]
    omega
  have whole := Tidy.start constructed bytes
  have enough : processLen * n + umpiPoolReserveLen + cookieLen * (2 * n * n) ≤ pool.space + (alignSize - 1) := by
    omega
  have processes : processLen * n ≤ 2 ^ 32 * 10000 := Nat.mul_le_mul processSmall.le limit
  have processFits : max pointerSize (processLen * n) + (alignSize - 1) < 2 ^ 64 := by
    simp only [pointerSize, alignSize]
    omega
  have slotFits : max pointerSize (intLen * n) + (alignSize - 1) < 2 ^ 64 := by
    simp only [pointerSize, alignSize, intLen]
    omega
  have processLe := alignedLen_le processFits
  have slotLe := alignedLen_le slotFits
  simp only [pointerSize, alignSize, intLen] at processLe slotLe enough
  have slots : (List.range umpiOutstandingCollectiveOperations).length = 16 := rfl
  have nothing : (Segment.empty (Sys.init n mem) pool bytes).reserved = 0 := rfl
  have first : cookieLen * 0 + (Segment.empty (Sys.init n mem) pool bytes).reserved +
      MemoryPool.alignedLen (processLen * n) ≤ pool.space := by
    rw [nothing, Nat.mul_zero]
    omega
  obtain ⟨mid, made, sys, grown⟩ := (Housed.empty (Sys.init n mem) pool bytes).exists_reserve whole bounded first
  rw [nothing] at grown
  obtain ⟨past, housed, _⟩ := (Housed.empty (Sys.init n mem) pool bytes).reserve (Nat.le_refl 0) processFits made
  have room : mid.reserved + (List.range umpiOutstandingCollectiveOperations).length *
      MemoryPool.alignedLen (intLen * n) ≤ pool.space := by
    rw [slots]
    simp only [intLen]
    omega
  obtain ⟨first, past, rest, same, housed⟩ := housed.exists_reserveAll whole bounded slotFits room
  refine ⟨pool, first, past, constructed, enough, ?_, same.trans sys, housed⟩
  simp only [Segment.shared, constructed]
  rw [made, Outcome.ok_bind, rest]

end Mapping

/-- At no point of a run is there a stale cookie, and at no point does anybody hold more than `most` requests, all
    taken together. -/
def Sparing (n most : Nat) : List (Sys × Event) → Sys → Prop
  | [], s => s.outstanding n ≤ most
  | (before, event) :: history, s =>
      s.outstanding n ≤ most ∧ (∀ process, ¬ Stale process ((before, event) :: history)) ∧
        Sparing n most history before

section Room

variable {vm : ProcessVm} {program : Program} {n most : Nat} {mem : Memory} {history : List (Sys × Event)}
  (several : 2 ≤ n) (limit : n ≤ 10000)
  (alike : ∀ rank < n, ∀ pos,
    (program rank pos).map Call.operation = (program 0 pos).map Call.operation)
  (agree : ∀ rank < n, ∀ pos,
    (program rank pos).map Call.reducesInPlace = (program 0 pos).map Call.reducesInPlace)
include several limit alike agree

/-- So there are not many cookies either. -/
theorem Sparing.atMost {s : Sys} (run : Sys.Runs vm program (Sys.init n mem) history s) (clean : s.Clean)
    (sparing : Sparing n most history s) : AtMost (2 * n * n + most) history s := by
  induction run with
  | refl => exact Nat.zero_le _
  | @tail history s s' event before performed ih =>
      have run := Sys.Runs.tail event before performed
      have tended := runs_tended several limit alike agree run clean
      have tracked := runs_tracked several limit alike agree run clean
      have bounded := runs_freeBounded several limit alike agree run clean
      obtain ⟨few, fresh, earlier⟩ := sparing
      refine ⟨?_, ih (clean.of_perform performed) earlier⟩
      have count := tended.card_existing_le alike bounded fun process id listed unused =>
        fresh process ((tracked process).mp ⟨id, listed, unused⟩)
      exact count.trans (Nat.add_le_add_left few _)

/-- An event that the processes can perform finds room for its cookies. -/
theorem Segment.exists_runtime {pool : MemoryPool cookieLen} {bytes : PoolMemory} {high : Nat}
    {past : List (PoolCall × Pooled cookieLen)} {ids : List Nat} {s : Segment} {event : Event} {sys : Sys}
    (whole : Tidy pool.begin_ high { pool := pool, mem := bytes, live := [] } fun _ => []) (bounded : high < 2 ^ 63)
    (housed : Housed { pool := pool, mem := bytes, live := [] } most past ids s)
    (lists : s.sys.Lists (Sys.pool history) ids) (tended : Tended program n (Sys.pool history) s.sys)
    (happens : s.sys.perform vm program event = .ok sys) (clean : sys.Clean)
    (after : (sys.existing (Sys.pool ((s.sys, event) :: history))).card ≤ most)
    (fits : cookieLen * most + s.reserved ≤ pool.space) :
    ∃ s', s.runtime vm program event = .ok s' ∧ s'.sys = sys := by
  have grows : ∃ grown, (List.range' s.sys.world.next (sys.world.next - s.sys.world.next)).foldlM
      Segment.emplace s = .ok grown := by
    cases leaves : s.sys.leaves event with
    | none =>
        have nothing : s.sys.released event = [] := by simp only [Sys.released, leaves]
        have same : Sys.pool ((s.sys, event) :: history) = Sys.pool history := congrArg (· ++ Sys.pool history) nothing
        rw [same] at after
        have more := tended.next_le several limit alike agree happens clean
        have kept : ∀ id ∈ Sys.pool history, id < s.sys.world.next := fun id inPool =>
          tended.shelved.of_mem (i := .pool) inPool
        have few := (lists.grow more kept).length_eq.le.trans after
        rw [List.length_append, List.length_reverse] at few
        refine housed.exists_emplaceAll whole bounded List.nodup_range' (fun id new old => ?_) (by omega) fits
        have later := (List.mem_range'_1.mp new).1
        have earlier := Finset.mem_range.mp (Finset.mem_filter.mp ((lists.2 id).mp old)).1
        omega
    | some id =>
        obtain ⟨self, _, rfl⟩ := Sys.leaves_cases happens leaves
        have same : (s.sys.leave self id).world.next = s.sys.world.next := rfl
        rw [same, Nat.sub_self]
        exact ⟨s, rfl⟩
  obtain ⟨grown, allocated⟩ := grows
  obtain ⟨shrunk, returned⟩ := exists_erase grown (s.sys.released event)
  exact ⟨_, Segment.runtime_eq_ok.mpr ⟨sys, grown, shrunk, happens, allocated, returned, rfl⟩, rfl⟩

end Room

/-- The mapping that `mpiexec` sizes is large enough. The constructor of `shared` succeeds, and in every run without
    an error and without stale cookies, of ranks that agree on their collective calls: as long as the requests that
    anybody holds at one time and the blocks allocated for other purposes stay within the reserve, every event of the
    processes finds room for the cookies it needs, and so does whoever allocates something else. -/
theorem segment_has_room {vm : ProcessVm} {program : Program} {n pageBits sharedLen processLen : Nat} {mem : Memory}
    {bytes : PoolMemory} (several : 2 ≤ n) (limit : n ≤ 10000)
    (alike : ∀ rank < n, ∀ pos,
      (program rank pos).map Call.operation = (program 0 pos).map Call.operation)
    (agree : ∀ rank < n, ∀ pos,
      (program rank pos).map Call.reducesInPlace = (program 0 pos).map Call.reducesInPlace)
    (page : pageBits ≤ 32) (sharedSmall : sharedLen < 2 ^ 32) (processSmall : processLen < 2 ^ 32) :
    ∃ first, Segment.shared n sharedLen processLen (calcMmapLen (2 ^ pageBits) sharedLen processLen n) mem bytes =
        .ok first ∧
      ∀ (most : Nat) (history : List (Sys × Event)) (calls : List PoolCall) (s : Segment),
        Segment.Runs vm program first history calls s →
        s.sys.Clean → Sparing n most history s.sys →
        (∀ event sys, s.sys.perform vm program event = .ok sys → sys.Clean →
          Sparing n most ((s.sys, event) :: history) sys →
          s.reserved + cookieLen * most + (alignSize - 1) ≤ processLen * n + umpiPoolReserveLen →
          ∃ s', s.runtime vm program event = .ok s' ∧ s'.sys = sys) ∧
        ∀ len, s.reserved + MemoryPool.alignedLen len + cookieLen * most + (alignSize - 1) ≤
            processLen * n + umpiPoolReserveLen →
          ∃ s', s.reserve len = .ok s' := by
  obtain ⟨pool, first, past, constructed, enough, made, fresh, housed⟩ :=
    exists_shared page sharedSmall processSmall several limit mem bytes
  obtain ⟨_, bounded⟩ := le_calcMmapLen page sharedSmall processSmall limit
  have whole := Tidy.start constructed bytes
  refine ⟨first, made, fun most history calls s run clean sparing => ?_⟩
  have runs : Sys.Runs vm program (Sys.init n mem) history s.sys := fresh ▸ run.sys
  have within := sparing.atMost several limit alike agree runs clean
  have tended := runs_tended several limit alike agree runs clean
  obtain ⟨past, ids, housed, _, lists⟩ :=
    run.housed several limit alike agree fresh (housed.mono (Nat.zero_le (2 * n * n + most))) clean within
  have cookies : cookieLen * (2 * n * n + most) = cookieLen * (2 * n * n) + cookieLen * most := Nat.mul_add _ _ _
  refine ⟨fun event sys happens cleanAfter after room => ?_, fun len room => ?_⟩
  · have later := after.atMost several limit alike agree (.tail event runs happens) cleanAfter
    exact Segment.exists_runtime several limit alike agree whole bounded housed lists tended happens cleanAfter
      later.card_le (by omega)
  · have fits : cookieLen * (2 * n * n + most) + s.reserved + MemoryPool.alignedLen len ≤ pool.space := by omega
    obtain ⟨s', given, _⟩ := housed.exists_reserve whole bounded fits
    exact ⟨s', given⟩

/-- Two processes: the first receive finds room for its cookie, and so does a committed type of 100 parts. -/
theorem segment_has_room_recv :
    ∃ first, Segment.shared 2 5000 200 (calcMmapLen (2 ^ 12) 5000 200 2) (fun _ => 0) (fun _ => 0) = .ok first ∧
      (∃ s', first.runtime copyingVm (fun _ _ => none) recvChar = .ok s') ∧ ∃ s', first.reserve 1632 = .ok s' := by
  obtain ⟨first, made, room⟩ := @segment_has_room copyingVm (fun _ _ => none) 2 12 5000 200 (fun _ => 0) (fun _ => 0)
    le_rfl (by decide) (fun _ _ _ => rfl) (fun _ _ _ => rfl) (by decide) (by decide) (by decide)
  have value : ∃ s, Segment.shared 2 5000 200 (calcMmapLen (2 ^ 12) 5000 200 2) (fun _ => 0) (fun _ => 0) = .ok s ∧
      s.reserved = 656 ∧ s.sys = Sys.init 2 fun _ => 0 := ⟨_, rfl, by decide +kernel, rfl⟩
  obtain ⟨same, made', reserved, sys⟩ := value
  obtain rfl := Outcome.ok.inj (made.symm.trans made')
  have happens : ∃ after, (Sys.init 2 fun _ => 0).perform copyingVm (fun _ _ => none) recvChar = .ok after ∧
      after.Clean ∧ after.outstanding 2 ≤ 1 := by
    refine ⟨_, rfl, ?_, by decide⟩
    rintro (_ | _ | rank)
    · decide
    · decide
    · rintro ret ⟨⟩
  obtain ⟨after, performed, clean, few⟩ := happens
  have start : Sparing 2 1 [] first.sys := by
    rw [sys]
    exact Nat.zero_le 1
  have cleanStart : first.sys.Clean := by
    rw [sys]
    rintro rank ret ⟨⟩
  obtain ⟨events, others⟩ := room 1 [] [] first .refl cleanStart start
  have small : (656 : Nat) + cookieLen * 1 + (alignSize - 1) ≤ 200 * 2 + umpiPoolReserveLen := by decide
  have smallToo : (656 : Nat) + MemoryPool.alignedLen 1632 + cookieLen * 1 + (alignSize - 1) ≤
      200 * 2 + umpiPoolReserveLen := by decide
  have sparing : Sparing 2 1 [(first.sys, recvChar)] after :=
    ⟨few, fun process stale => by simp [Stale, Sys.leaves, recvChar] at stale, start⟩
  obtain ⟨s', given, _⟩ := events recvChar after (sys ▸ performed) clean sparing (reserved ▸ small)
  exact ⟨first, made, ⟨s', given⟩, others 1632 (reserved ▸ smallToo)⟩

end Umpi
