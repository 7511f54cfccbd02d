/-
Module: Umpi.Proofs.Allgather
Layer: Proofs
Purpose: What `MPI_Iallgather` leaves in the receive buffers. Every rank puts its block into the receive buffer of
  the rank that joined first, and the last one fetches the whole buffer from there and hands it out to the others.
  The blocks pass through two receive buffers on their way, so these must not show a byte twice. `Collected` is the
  invariant while the ranks join.
Imports: Umpi.Proofs.Gather, Umpi.Proofs.Unrooted
Trusted boundary: none
Main exports: allgatherCalls, allgatherSource, AllgatherArguments, Collected, allgatherPlan, iallgather_gathers,
  iallgather_garbles
Open obligations: none
-/
import Umpi.Proofs.Gather
import Umpi.Proofs.Unrooted

namespace Umpi

open Foundation Sys

/-! ### Arguments -/

/-- Every rank contributes `send rank`, and `recv rank` describes one block of its receive buffer. With
    `MPI_IN_PLACE` the handle `sendtype rank` may be anything. -/
def allgatherCalls (send recv : Nat → Buffer) (sendtype : Nat → MpiDatatype) (rank : Nat) : Call :=
  .allgather (send rank).buf (send rank).count (sendtype rank) (recv rank).buf (recv rank).count
    (some (recv rank).datatype.iovec) .world

/-- The whole receive buffer of a rank. -/
def gatherWhole (recv : Nat → Buffer) (n rank : Nat) : List Loc :=
  (recv rank).elements rank 0 ((recv rank).count * n)

/-- Where the contribution of a rank is when it calls. -/
def allgatherSource (send recv : Nat → Buffer) (rank : Nat) : List Loc :=
  if (send rank).buf = .inPlace then gatherBlock recv rank rank else (send rank).view rank

/-- Arguments of an allgather that agree on the number of bytes of a contribution. No receive buffer shows a byte
    twice, or overlaps the send buffer. -/
structure AllgatherArguments (send recv : Nat → Buffer) (sendtype : Nat → MpiDatatype) (n : Nat) : Prop where
  typed : ∀ rank < n, (send rank).buf ≠ .inPlace → sendtype rank = some (send rank).datatype.iovec
  sendValid : ∀ rank < n, (send rank).buf ≠ .inPlace → (send rank).Valid
  recvGiven : ∀ rank < n, (recv rank).buf = .null → (recv rank).count = 0
  elements : ∀ rank < n, (recv rank).count * n < 2 ^ 31
  bytes : ∀ rank < n, (recv rank).count * n * (recv rank).datatype.len < 2 ^ 63
  alike : ∀ rank < n, ∀ other < n, (recv rank).bytes = (recv other).bytes
  agree : ∀ rank < n, (send rank).buf ≠ .inPlace → (send rank).bytes = (recv rank).bytes
  apart : ∀ rank < n, (send rank).buf ≠ .inPlace →
    ((send rank).view rank).Disjoint (gatherWhole recv n rank)
  writable : ∀ rank < n, (recv rank).datatype.Writable

section Blocks

variable {send recv : Nat → Buffer} {sendtype : Nat → MpiDatatype} {n rank other : Nat}

/-- A block is a part of the stream of the whole buffer. -/
theorem readAll_gatherBlock (mem : Memory) (recv : Nat → Buffer) (rank : Nat) (valid : other < n) :
    readAll mem (gatherBlock recv rank other) =
      ((readAll mem (gatherWhole recv n rank)).drop (other * (recv rank).bytes)).take (recv rank).bytes := by
  have inside : other * (recv rank).count + (recv rank).count ≤ (recv rank).count * n := block_le valid
  obtain ⟨more, split⟩ := Nat.exists_eq_add_of_le inside
  have parts : gatherWhole recv n rank =
      (recv rank).elements rank 0 (other * (recv rank).count) ++
        (gatherBlock recv rank other ++
          (recv rank).elements rank (other * (recv rank).count + (recv rank).count) more) := by
    unfold gatherWhole gatherBlock Buffer.elements
    rw [split, Nat.add_assoc, streamLocs_add, streamLocs_add]
    simp
  have before : (readAll mem ((recv rank).elements rank 0 (other * (recv rank).count))).length =
      other * (recv rank).bytes := by
    rw [length_readAll, Buffer.length_elements, Buffer.bytes, Nat.mul_assoc]
  have own : (readAll mem (gatherBlock recv rank other)).length = (recv rank).bytes := by
    rw [length_readAll, gatherBlock, Buffer.length_elements, Buffer.bytes]
  rw [parts, readAll_append, readAll_append, List.drop_left' before, List.take_left' own]

theorem length_gatherBlock (recv : Nat → Buffer) (rank other : Nat) :
    (gatherBlock recv rank other).length = (recv rank).bytes := by
  rw [gatherBlock, Buffer.length_elements, Buffer.bytes]

theorem length_gatherWhole (recv : Nat → Buffer) (n rank : Nat) :
    (gatherWhole recv n rank).length = n * (recv rank).bytes := by
  rw [gatherWhole, Buffer.length_elements, Buffer.bytes]
  ring

namespace AllgatherArguments

variable (arguments : AllgatherArguments send recv sendtype n)
include arguments

/-- A contribution has the size of a block, whoever's buffer the block is in. -/
theorem length_source {self root : Nat} (valid : self < n) (rootValid : root < n) :
    (gatherBlock recv root self).length = (allgatherSource send recv self).length := by
  rw [length_gatherBlock, arguments.alike root rootValid self valid, allgatherSource]
  split
  case isTrue => rw [length_gatherBlock]
  case isFalse outOfPlace => rw [Buffer.length_view, arguments.agree self valid outOfPlace]

theorem length_whole {rank other : Nat} (valid : rank < n) (inRange : other < n) :
    (gatherWhole recv n rank).length = (gatherWhole recv n other).length := by
  rw [length_gatherWhole, length_gatherWhole, arguments.alike rank valid other inRange]

theorem nodup_block {rank : Nat} (valid : rank < n) (other : Nat) : (gatherBlock recv rank other).Nodup :=
  Buffer.nodup_elements (arguments.writable rank valid) rank _ _

theorem nodup_whole {rank : Nat} (valid : rank < n) : (gatherWhole recv n rank).Nodup :=
  Buffer.nodup_elements (arguments.writable rank valid) rank _ _

/-- The receive buffers of different ranks do not overlap. -/
theorem whole_disjoint {rank other : Nat} (valid : rank < n) (different : rank ≠ other) :
    (gatherWhole recv n rank).Disjoint (gatherWhole recv n other) := by
  refine Buffer.disjoint_of_rank _ _ different _ _ _ _ fun null => ?_
  rw [arguments.recvGiven rank valid null, Nat.zero_mul]

/-- A contribution does not overlap the receive buffer of another rank. -/
theorem source_disjoint {self root : Nat} (valid : self < n) (different : self ≠ root) :
    (allgatherSource send recv self).Disjoint (gatherWhole recv n root) := by
  unfold allgatherSource
  split
  case isTrue => exact Buffer.disjoint_of_rank _ _ different _ _ _ _ (arguments.recvGiven self valid)
  case isFalse outOfPlace =>
    exact Buffer.disjoint_of_rank _ _ different _ _ _ _ (arguments.sendValid self valid outOfPlace).given

end AllgatherArguments

end Blocks

/-! ### Collecting -/

/-- Memory when the ranks of `past` have joined: the first of them has the blocks of all, and nothing but its
    receive buffer has changed. -/
structure Collected (send recv : Nat → Buffer) (n : Nat) (mem : Memory) (past : List Nat) (mem' : Memory) :
    Prop where
  blocks : ∀ root, past.getLast? = some root → ∀ rank ∈ past,
    readAll mem' (gatherBlock recv root rank) = readAll mem (allgatherSource send recv rank)
  untouched : ∀ location, (∀ root, past.getLast? = some root → location ∉ gatherWhole recv n root) →
    mem' location = mem location

section Collecting

variable {send recv : Nat → Buffer} {sendtype : Nat → MpiDatatype} {n self : Nat} {past : List Nat}
  {mem mem' : Memory}

/-- Until a rank joins its contribution is as it was. -/
theorem Collected.source (collected : Collected send recv n mem past mem')
    (arguments : AllgatherArguments send recv sendtype n) (joining : Schedule.Joining n (self :: past)) :
    readAll mem' (allgatherSource send recv self) = readAll mem (allgatherSource send recv self) := by
  refine readAll_congr fun location member => collected.untouched location fun root first inside => ?_
  have joined : root ∈ past := List.mem_of_getLast? first
  have different : self ≠ root := fun same => joining.fresh (same ▸ joined)
  exact arguments.source_disjoint (joining.bound self List.mem_cons_self) different member inside

/-- A rank that joins puts its contribution into the buffer of the first one. -/
theorem Collected.join (collected : Collected send recv n mem past mem')
    (arguments : AllgatherArguments send recv sendtype n) (joining : Schedule.Joining n (self :: past)) {root : Nat}
    (first : (self :: past).getLast? = some root) :
    Collected send recv n mem (self :: past)
      (copyAll mem' (allgatherSource send recv self) (gatherBlock recv root self)) where
  blocks := by
    intro root' first' rank member
    obtain rfl := Option.some.inj (first.symm.trans first')
    have rootValid : root < n := joining.bound root (List.mem_of_getLast? first)
    have valid : self < n := joining.bound self List.mem_cons_self
    by_cases own : rank = self
    · subst own
      rw [readAll_copyAll_self _ (arguments.nodup_block rootValid rank) (arguments.length_source valid rootValid)]
      exact collected.source arguments joining
    · have joined : rank ∈ past := (List.mem_cons.mp member).resolve_left own
      rw [readAll_copyAll_of_disjoint _ _ (gatherBlock_disjoint own)]
      refine collected.blocks root ?_ rank joined
      rwa [List.getLast?_cons_of_ne_nil (List.ne_nil_of_mem joined)] at first
  untouched := by
    intro location outside
    have outsideRoot := outside root first
    have valid : self < n := joining.bound self List.mem_cons_self
    rw [copyAll_apply_of_notMem _ _ fun inside => outsideRoot (gatherBlock_subset valid inside)]
    refine collected.untouched location fun root' before => ?_
    have nonempty : past ≠ [] := List.ne_nil_of_mem (List.mem_of_getLast? before)
    rw [List.getLast?_cons_of_ne_nil nonempty, before] at first
    rwa [Option.some.inj first]

end Collecting

/-! ### The calls -/

section Calls

variable {vm : ProcessVm} {send recv : Nat → Buffer} {sendtype : Nat → MpiDatatype} {n self root : Nat}
  {w : World} {id : Nat}

/-- The start of a block is an `int`. -/
theorem isInt_block {count rank : Nat} (elements : count * n < 2 ^ 31) (valid : rank < n) :
    IsInt ((count : Int) * rank) := by
  have inside : rank * count + count ≤ count * n := block_le valid
  have low : (0 : Int) ≤ (count : Int) * rank := by positivity
  have high : (count : Int) * rank ≤ (count * n : Nat) := by
    rw [← Int.natCast_mul]
    have := Nat.mul_comm count rank
    omega
  exact ⟨by omega, by omega⟩

/-- The first rank puts its own contribution in place. -/
theorem allgatherFirst_moves (copies : CopiesAll vm) (arguments : AllgatherArguments send recv sendtype n)
    (valid : self < n) :
    ∃ mid, allgatherFirst vm w self (send self).buf (send self).count (sendtype self) ((recv self).buf.loc self)
        (recv self).count (recv self).datatype.iovec = .ok mid ∧
      mid.mem = copyAll w.mem (allgatherSource send recv self) (gatherBlock recv self self) ∧
      mid.cookies = w.cookies := by
  unfold allgatherFirst allgatherSource
  by_cases inPlace : (send self).buf = .inPlace
  · simp only [if_pos inPlace]
    exact ⟨w, rfl, (writeAll_readAll w.mem _).symm, rfl⟩
  · have start := isInt_block (arguments.elements self valid) valid
    rw [Int.mul_comm] at start
    simp only [if_neg inPlace, arguments.typed self valid inPlace, deref, mulInt_of_isInt start, Outcome.ok_bind,
      Outcome.pure_eq]
    refine ⟨_, rfl, ?_, rfl⟩
    have bytesRange : (recv self).count * (recv self).datatype.len < 2 ^ 63 := by
      refine lt_of_le_of_lt ?_ (arguments.bytes self valid)
      exact Nat.mul_le_mul_right _ (Nat.le_mul_of_pos_right _ (by omega))
    rw [← Int.natCast_mul]
    exact copy_block copies rfl rfl 0 _ (arguments.agree self valid inPlace) bytesRange

/-- A later rank writes its contribution to the first one, whose `count_` stays as it is. -/
theorem allgatherContribute_moves (copies : CopiesAll vm) (arguments : AllgatherArguments send recv sendtype n)
    (valid : self < n) (rootValid : root < n)
    (offers : (w.cookies id).Offers
      { buf := (recv root).buf.loc root
        iovec := (recv root).datatype.iovec
        size := (recv root).count * n
        count := (recv root).count }) :
    ∃ done, allgatherContribute vm w self id (send self).buf (send self).count (sendtype self)
        ((recv self).buf.loc self) (recv self).count (recv self).datatype.iovec = .ok done ∧
      done.ret = mpiSuccess ∧
      done.world.mem = copyAll w.mem (allgatherSource send recv self) (gatherBlock recv root self) ∧
      ∀ other, (done.world.cookies other).count = (w.cookies other).count := by
  have elements := arguments.elements root rootValid
  have seek := isInt_block elements valid
  have skip := isInt_block (arguments.elements self valid) valid
  have fits : self * (recv root).count + (recv root).count ≤ (recv root).count * n := block_le valid
  have held : (recv root).count ≤ (recv root).count * n := Nat.le_mul_of_pos_right _ (by omega)
  have start : ((recv root).count : Int) * self = (self * (recv root).count : Nat) := by
    push_cast
    ring
  have start' : ((recv self).count : Int) * self = (self * (recv self).count : Nat) := by
    push_cast
    ring
  have same : (recv self).bytes = (recv root).bytes := arguments.alike self valid root rootValid
  have kept : ∀ {done : Transferred}, (done.world.cookies id).count =
      (if (recv root).count < (recv root).count then ((recv root).count : Int) else (recv root).count) →
      Touches id w done.world → ∀ other, (done.world.cookies other).count = (w.cookies other).count := by
    intro done counted touches other
    by_cases own : other = id
    · subst own
      rw [counted, offers.count, ite_self]
    · rw [touches.others other own]
  rw [← Int.natCast_mul] at offers
  unfold allgatherContribute allgatherSource
  simp only [offers.count, mulInt_of_isInt seek, Outcome.ok_bind]
  by_cases inPlace : (send self).buf = .inPlace
  · simp only [if_pos inPlace, mulInt_of_isInt skip, Outcome.ok_bind]
    obtain ⟨done, written, moved, counted⟩ := writeToOwner_block ((recv self).buf.loc self) copies
      (rfl : ((recv self).count : Int) = (recv self).count) start start' offers same elements
      (arguments.bytes root rootValid) held fits
    exact ⟨done, written, moved.ret, moved.mem, kept counted (writeToOwner_touches written)⟩
  · have agree := (arguments.agree self valid inPlace).trans same
    simp only [if_neg inPlace, arguments.typed self valid inPlace, deref, Outcome.ok_bind]
    obtain ⟨done, written, moved, counted⟩ := writeToOwner_block ((send self).buf.loc self) copies
      (rfl : ((send self).count : Int) = (send self).count) start (rfl : (0 : Int) = (0 : Nat)) offers agree elements
      (arguments.bytes root rootValid) held fits
    exact ⟨done, written, moved.ret, moved.mem, kept counted (writeToOwner_touches written)⟩

end Calls

/-! ### The plan -/

/-- The last rank fetches the whole buffer of the first one. -/
def collect (recv : Nat → Buffer) (n last root : Nat) : Errand where
  action := fun made => .readIgnored (made root) ((recv last).buf.loc last) (recv last).datatype.iovec
    ((recv last).count * n) ((recv last).count * n)
  effect := fun mem => copyAll mem (gatherWhole recv n root) (gatherWhole recv n last)

/-- It hands its own buffer out to another rank. -/
def handOut (recv : Nat → Buffer) (n last rank : Nat) : Errand where
  action := fun made => .writeToOwner (made rank) ((recv last).buf.loc last) (recv last).datatype.iovec
    ((recv last).count * n) (.elems 0) (.elems 0)
  effect := fun mem => copyAll mem (gatherWhole recv n last) (gatherWhole recv n rank)

/-- What the last rank has left to do when the others have joined in this order. -/
def allgatherErrands (recv : Nat → Buffer) (n last : Nat) : List Nat → List Errand
  | [] => []
  | root :: others =>
      Errand.retire root :: collect recv n last root ::
        others.flatMap fun rank => [Errand.retire rank, handOut recv n last rank]

/-- A cookie shows the whole receive buffer, and counts the elements of a block. -/
def allgatherOffer (recv : Nat → Buffer) (n rank : Nat) : Offer where
  buf := (recv rank).buf.loc rank
  iovec := (recv rank).datatype.iovec
  size := (recv rank).count * n
  count := (recv rank).count

/-- The ranks put their blocks into the buffer of the first one, and the last one passes them on. -/
def allgatherPlan (send recv : Nat → Buffer) (n : Nat) (mem : Memory) : UnrootedPlan where
  schedule := .collecting
  offer := allgatherOffer recv n
  stage := Collected send recv n mem
  agreed := fun _ _ _ => True
  errands := fun past =>
    match past with
    | [] => []
    | last :: before => allgatherErrands recv n last before.reverse

theorem allgatherErrands_action (recv : Nat → Buffer) (n last : Nat) (made : Nat → Nat) (ranks : List Nat) :
    (allgatherErrands recv n last ranks).map (fun errand => errand.action made) =
      allgatherSpread ((recv last).buf.loc last) (recv last).datatype.iovec ((recv last).count * n)
        (ranks.map made) := by
  cases ranks with
  | nil => rfl
  | cons root others =>
      rw [allgatherErrands, List.map_cons, List.map_cons, List.map_flatMap, List.map_cons, allgatherSpread,
        List.flatMap_map]
      rfl

section Plan

variable {vm : ProcessVm} {send recv : Nat → Buffer} {sendtype : Nat → MpiDatatype} {n turn : Nat} {mem : Memory}

theorem Schedule.mem_box_collecting {past : List Nat} (partly : past.length < n) {rank : Nat}
    (joined : rank ∈ past) : rank ∈ Schedule.collecting.box n past := by
  simp [Schedule.box, partly.ne, joined]

theorem Schedule.suits_collecting (several : 2 ≤ n) : Schedule.collecting.Suits n where
  several := Or.inl several
  rootValid := fun root impossible => by cases impossible

/-- What the last rank has left to do, as the call leaves it. -/
theorem allgatherPlan_left {past : List Nat} {caller : Nat} (made : Nat → Nat)
    (joining : Schedule.Joining n (caller :: past)) :
    ((allgatherPlan send recv n mem).left n (caller :: past)).map (fun errand => errand.action made) =
      if past.length + 1 = n then
        allgatherSpread ((recv caller).buf.loc caller) (recv caller).datatype.iovec ((recv caller).count * n)
          (past.reverse.map made)
      else [] := by
  by_cases last : past.length + 1 = n
  · have full : (caller :: past).length = n := last
    rw [UnrootedPlan.left_of_full _ full, if_pos last]
    exact allgatherErrands_action recv n caller made past.reverse
  · have more : (caller :: past).length < n := lt_of_le_of_ne joining.length_le last
    rw [UnrootedPlan.left_of_lt _ more, if_neg last]
    rfl

/-- All receive buffers have the same number of bytes. -/
theorem AllgatherArguments.wholes (arguments : AllgatherArguments send recv sendtype n) {last rank : Nat}
    (lastValid : last < n) (inRange : rank < n) :
    (recv last).count * n * (recv last).datatype.len = (recv rank).count * n * (recv rank).datatype.len := by
  have same : (recv last).bytes = (recv rank).bytes := arguments.alike last lastValid rank inRange
  rw [Buffer.bytes, Buffer.bytes] at same
  rw [Nat.mul_right_comm, same, Nat.mul_right_comm]

/-- The read of the last rank works, although its result is not looked at. -/
theorem collect_reads (copies : CopiesAll vm) (arguments : AllgatherArguments send recv sendtype n)
    {last root : Nat} (lastValid : last < n) (rootValid : root < n) {w : World} {id : Nat}
    (shows : (w.cookies id).Shows (allgatherOffer recv n root)) :
    ∃ done, w.readFromOwner vm id ((recv last).buf.loc last) (recv last).datatype.iovec ((recv last).count * n)
        ((recv last).count * n) 0 0 = .ok done ∧ done.ret = mpiSuccess ∧
      done.world.mem = copyAll w.mem (gatherWhole recv n root) (gatherWhole recv n last) := by
  simp only [allgatherOffer, ← Int.natCast_mul] at shows
  simp only [← Int.natCast_mul]
  exact readFromOwner_shown copies rfl (Or.inl rfl) shows (arguments.wholes lastValid rootValid)
    (arguments.bytes last lastValid) (arguments.elements last lastValid) ((recv last).buf.loc last)

/-- The errands work when the cookies show the receive buffers. -/
theorem allgatherErrands_work (copies : CopiesAll vm) (arguments : AllgatherArguments send recv sendtype n)
    {last : Nat} {ranks : List Nat} (lastValid : last < n) (valid : ∀ rank ∈ ranks, rank < n) {w : World}
    {made : Nat → Nat}
    (shown : ∀ rank ∈ ranks, (w.cookies (made rank)).Shows (allgatherOffer recv n rank)) :
    ∀ errand ∈ allgatherErrands recv n last ranks,
      ∃ done, (errand.action made).exec vm w last = .ok done ∧ done.ret = mpiSuccess ∧
        done.world.mem = errand.effect w.mem := by
  cases ranks with
  | nil => exact fun _ member => absurd member List.not_mem_nil
  | cons root others =>
      intro errand member
      rw [allgatherErrands, List.mem_cons, List.mem_cons] at member
      rcases member with rfl | rfl | later
      · exact ⟨_, rfl, rfl, rfl⟩
      · obtain ⟨done, read, _, moved⟩ := collect_reads copies arguments lastValid (valid root List.mem_cons_self)
          (shown root List.mem_cons_self)
        refine ⟨{ done with ret := mpiSuccess }, ?_, rfl, moved⟩
        simp only [collect, Action.exec, read]
        rfl
      · obtain ⟨rank, listed, step⟩ := List.mem_flatMap.mp later
        have inList : rank ∈ root :: others := List.mem_cons_of_mem root listed
        have shows := shown rank inList
        simp only [allgatherOffer, ← Int.natCast_mul] at shows
        simp only [List.mem_cons, List.not_mem_nil, or_false] at step
        rcases step with rfl | rfl
        · exact ⟨_, rfl, rfl, rfl⟩
        · obtain ⟨done, written, success, moved⟩ := writeToOwner_shown copies (Int.natCast_mul _ _).symm shows
            (arguments.wholes lastValid (valid rank inList)) (arguments.bytes last lastValid)
            ((recv last).buf.loc last)
          exact ⟨done, written, success, moved⟩

/-- The calls follow the plan. -/
theorem allgatherPlan_sound (copies : CopiesAll vm) (arguments : AllgatherArguments send recv sendtype n)
    (several : 2 ≤ n) :
    (allgatherPlan send recv n mem).Sound vm (allgatherCalls send recv sendtype) n turn where
  arrives := by
    intro past w caller made arriving here staged _ offers
    have valid : caller < n := arriving.joining.bound caller List.mem_cons_self
    have partly : past.length < n := arriving.joining.length_le
    have sendGiven : ¬ ((send caller).buf = .null ∧ ((send caller).count : Int) ≠ 0) := by
      rintro ⟨missing, some⟩
      have outOfPlace : (send caller).buf ≠ .inPlace := by
        rw [missing]
        exact Pointer.noConfusion
      exact some (by exact_mod_cast (arguments.sendValid caller valid outOfPlace).given missing)
    have recvGiven : ¬ ((recv caller).buf = .null ∧ ((recv caller).count : Int) ≠ 0) :=
      fun missing => missing.2 (by exact_mod_cast arguments.recvGiven caller valid missing.1)
    have bytesAgree := fun outOfPlace : (send caller).buf ≠ .inPlace =>
      bytesDiffer_eq_false (arguments.agree caller valid outOfPlace)
    show (mpiIallgather vm w caller (send caller).buf (send caller).count (sendtype caller) (recv caller).buf
      (recv caller).count (some (recv caller).datatype.iovec) .world).Yields _
    cases past with
    | nil =>
        refine (mpiIallgather_first arriving sendGiven (arguments.typed caller valid) recvGiven bytesAgree rfl).mono ?_
        rintro result ⟨mid, made', moved, _, entered⟩
        obtain ⟨mid', moved', memory, cookies⟩ := allgatherFirst_moves (w := w.claimed caller) copies arguments valid
        obtain rfl := Outcome.ok.inj (moved.symm.trans moved')
        refine ⟨mid, made', ?_, trivial, fun id => by rw [cookies]; rfl, ?_⟩
        · rw [memory]
          exact staged.join arguments arriving.joining rfl
        · rw [allgatherPlan_left made' arriving.joining, if_neg (by simp; omega)]
          exact entered
    | cons latest before =>
        obtain ⟨root, first⟩ : ∃ root, (latest :: before).getLast? = some root :=
          ⟨_, List.getLast?_eq_some_getLast (List.cons_ne_nil latest before)⟩
        have joined : root ∈ latest :: before := List.mem_of_getLast? first
        have rootValid : root < n := arriving.joining.bound root (List.mem_cons_of_mem caller joined)
        have offered : ((w.claimed caller).cookies (made root)).Offers (allgatherOffer recv n root) :=
          offers root (Schedule.mem_box_collecting partly joined)
        obtain ⟨done, moved, success, memory, counted⟩ :=
          allgatherContribute_moves copies arguments valid rootValid offered
        refine (mpiIallgather_next arriving first sendGiven (arguments.typed caller valid) recvGiven bytesAgree
          rfl).mono ?_
        rintro result ⟨done', moved', _, succeeded⟩
        obtain rfl := Outcome.ok.inj (moved.symm.trans moved')
        obtain ⟨_, made', entered⟩ := succeeded success
        refine ⟨done.world, made', ?_, trivial, counted, ?_⟩
        · rw [memory]
          exact staged.join arguments arriving.joining
            ((List.getLast?_cons_of_ne_nil (List.cons_ne_nil latest before)).trans first)
        · rw [allgatherPlan_left made' arriving.joining, arriving.map_earlier entered.settles.madeOthers]
          exact entered
  runs := by
    intro last before joining full errand member w made shown
    refine allgatherErrands_work copies arguments (joining.bound last List.mem_cons_self) ?_ ?_ errand member
    · intro rank listed
      exact joining.bound rank (List.mem_cons_of_mem last (List.mem_reverse.mp listed))
    · intro rank listed
      have earlier : rank ∈ before := List.mem_reverse.mp listed
      have other : rank ≠ last := fun same => joining.fresh (same ▸ earlier)
      obtain ⟨k, makes⟩ := Option.isSome_iff_exists.mp (Schedule.numOf_of_mem_box joining.tail
        (Schedule.suits_collecting several) (Schedule.mem_box_collecting joining.length_le earlier))
      exact shown rank k ((Ledger.numOf_other other).trans makes)

end Plan

/-! ### Results -/

section Results

variable {vm : ProcessVm} {send recv : Nat → Buffer} {sendtype : Nat → MpiDatatype} {n t : Nat} {origin s : Sys}
  {mem gathered : Memory} {last root : Nat} {others : List Nat}

/-- The copies of the buffer of the last rank that the others get. -/
def handedOut (recv : Nat → Buffer) (n last rank : Nat) : Copy Loc where
  source := gatherWhole recv n last
  target := gatherWhole recv n rank

/-- Handing the buffer out copies it to every listed rank. -/
theorem perform_handOut (recv : Nat → Buffer) (n last : Nat) (others : List Nat) (mem : Memory) :
    perform (others.flatMap fun rank => [Errand.retire rank, handOut recv n last rank]) mem =
      copyEach mem (handedOut recv n last) others := by
  induction others generalizing mem with
  | nil => rfl
  | cons rank others ih => exact ih _

/-- What the last rank leaves. -/
theorem perform_allgatherErrands (recv : Nat → Buffer) (n last root : Nat) (others : List Nat) (mem : Memory) :
    perform (allgatherErrands recv n last (root :: others)) mem =
      copyEach (copyAll mem (gatherWhole recv n root) (gatherWhole recv n last)) (handedOut recv n last) others :=
  perform_handOut recv n last others _

/-- The last rank leaves every rank the stream that the first one had. -/
theorem AllgatherArguments.spread (arguments : AllgatherArguments send recv sendtype n)
    (nodup : (last :: root :: others).Nodup) (valid : ∀ rank ∈ last :: root :: others, rank < n) (mem : Memory) :
    ∀ rank ∈ last :: root :: others,
      readAll (perform (allgatherErrands recv n last (root :: others)) mem) (gatherWhole recv n rank) =
        readAll mem (gatherWhole recv n root) := by
  obtain ⟨lastFresh, nodupRest⟩ := List.nodup_cons.mp nodup
  obtain ⟨rootFresh, nodupOthers⟩ := List.nodup_cons.mp nodupRest
  have lastValid : last < n := valid last List.mem_cons_self
  have rootValid : root < n := valid root (List.mem_cons_of_mem last List.mem_cons_self)
  have othersValid : ∀ rank ∈ others, rank < n := fun rank listed =>
    valid rank (List.mem_cons_of_mem last (List.mem_cons_of_mem root listed))
  have lastOther : ∀ rank ∈ others, last ≠ rank := fun rank listed same =>
    lastFresh (same ▸ List.mem_cons_of_mem root listed)
  rw [perform_allgatherErrands]
  -- first the last rank has fetched the stream
  have fetched := readAll_copyAll_self mem (arguments.nodup_whole lastValid)
    (arguments.length_whole lastValid rootValid)
  have independent : Independent (handedOut recv n last) others :=
    { sameLength := fun rank listed => arguments.length_whole (othersValid rank listed) lastValid
      targets := fun rank listed other _ different => arguments.whole_disjoint (othersValid rank listed) different
      sources := fun _ _ rank listed _ => arguments.whole_disjoint lastValid (lastOther rank listed) }
  intro rank member
  rcases List.mem_cons.mp member with rfl | member
  · rw [readAll_copyEach_of_disjoint _ _ fun other listed =>
      arguments.whole_disjoint lastValid (lastOther other listed)]
    exact fetched
  · rcases List.mem_cons.mp member with rfl | listed
    · have rankOther : ∀ other ∈ others, rank ≠ other := fun other listed same => rootFresh (same ▸ listed)
      have notLast : rank ≠ last := fun same => lastFresh (same ▸ List.mem_cons_self)
      rw [readAll_copyEach_of_disjoint _ _ fun other listed =>
        arguments.whole_disjoint rootValid (rankOther other listed)]
      exact readAll_copyAll_of_disjoint mem _ (arguments.whole_disjoint rootValid notLast)
    · have holds := independent.holds_target (List.Subset.refl others) nodupOthers
        (copyAll mem (gatherWhole recv n root) (gatherWhole recv n last)) listed
      have sameLength : (gatherWhole recv n rank).length = (readAll (copyAll mem (gatherWhole recv n root)
          (gatherWhole recv n last)) (gatherWhole recv n last)).length := by
        rw [length_readAll]
        exact arguments.length_whole (othersValid rank listed) lastValid
      exact (holds.readAll_eq (arguments.nodup_whole (othersValid rank listed)) sameLength).trans fetched

/-- When everybody has joined and the last rank is through, everybody has every contribution. -/
theorem Collected.finish {before : List Nat} (collected : Collected send recv n mem (last :: before) gathered)
    (arguments : AllgatherArguments send recv sendtype n) (several : 2 ≤ n)
    (joining : Schedule.Joining n (last :: before)) (full : (last :: before).length = n) :
    ∀ rank < n, ∀ other < n,
      readAll (perform (allgatherErrands recv n last before.reverse) gathered) (gatherBlock recv rank other) =
        readAll mem (allgatherSource send recv other) := by
  obtain ⟨root, others, order⟩ : ∃ root others, before.reverse = root :: others := by
    refine List.exists_cons_of_length_pos ?_
    rw [List.length_reverse]
    rw [List.length_cons] at full
    omega
  have first : (last :: before).getLast? = some root := by
    have reversed : before = others.reverse ++ [root] := by
      rw [← List.reverse_reverse before, order, List.reverse_cons]
    rw [reversed, ← List.cons_append, List.getLast?_concat]
  have perm : (last :: root :: others).Perm (last :: before) := by
    rw [← order]
    exact (List.reverse_perm before).cons last
  have nodup := perm.nodup_iff.mpr joining.nodup
  have valid : ∀ rank ∈ last :: root :: others, rank < n := fun rank listed =>
    joining.bound rank (perm.mem_iff.mp listed)
  intro rank inRange other otherValid
  have member : rank ∈ last :: root :: others := perm.mem_iff.mpr (joining.mem_of_full full inRange)
  have rootValid : root < n := valid root (List.mem_cons_of_mem last List.mem_cons_self)
  have joined : other ∈ last :: before := joining.mem_of_full full otherValid
  rw [order, readAll_gatherBlock _ recv rank otherValid, arguments.spread nodup valid gathered rank member,
    arguments.alike rank inRange root rootValid, ← readAll_gatherBlock gathered recv root otherValid]
  exact collected.blocks root first other joined

/-- Every run goes as planned. -/
theorem allgather_followed {vm : ProcessVm} (copies : CopiesAll vm) {t : Nat} {origin s : Sys}
    (arguments : AllgatherArguments send recv sendtype n) (ready : origin.Ready n t) (several : 2 ≤ n)
    (limit : n ≤ 10000) (run : Reaches vm (once (allgatherCalls send recv sendtype)) origin s) :
    (allgatherPlan send recv n origin.world.mem).Followed n t origin s := by
  have sound : (allgatherPlan send recv n origin.world.mem).Sound vm (allgatherCalls send recv sendtype) n
      (t % umpiOutstandingCollectiveOperations) := allgatherPlan_sound copies arguments several
  have start : Collected send recv n origin.world.mem [] origin.world.mem :=
    { blocks := fun root impossible => by cases impossible
      untouched := fun _ _ => rfl }
  exact sound.followed ready (Schedule.suits_collecting several) (by omega) start (fun _ _ => trivial) run

/-- When every call has returned every block shows the contribution of its rank. -/
theorem allgather_blocks {t : Nat} {origin s : Sys} (arguments : AllgatherArguments send recv sendtype n)
    (several : 2 ≤ n) (followed : (allgatherPlan send recv n mem).Followed n t origin s)
    (complete : s.Complete) : ∀ rank < n, ∀ other < n, readAll s.world.mem (gatherBlock recv rank other) =
      readAll mem (allgatherSource send recv other) := by
  obtain ⟨past, gathered, joining, full, staged, memory⟩ := followed.finished (by omega) complete
  obtain ⟨last, before, rfl⟩ : ∃ last before, past = last :: before :=
    List.exists_cons_of_length_pos (by omega)
  rw [memory]
  exact staged.finish arguments several joining full

end Results

/-- In every run of `MPI_Iallgather` whose receive types have no overlapping segments: when every call has returned,
    block `other` of the receive buffer of every rank shows the contribution of rank `other`. -/
theorem iallgather_gathers {vm : ProcessVm} (copies : CopiesAll vm) {send recv : Nat → Buffer}
    {sendtype : Nat → MpiDatatype} {n t : Nat} {origin s : Sys} (ready : origin.Ready n t) (several : 2 ≤ n)
    (limit : n ≤ 10000) (arguments : AllgatherArguments send recv sendtype n)
    (run : Reaches vm (once (allgatherCalls send recv sendtype)) origin s) (complete : s.Complete) :
    ∀ rank < n, ∀ other < n, readAll s.world.mem (gatherBlock recv rank other) =
      readAll origin.world.mem (allgatherSource send recv other) :=
  allgather_blocks arguments several (allgather_followed copies arguments ready several limit run) complete

/-- Two characters with a gap behind each. -/
def spacedChars : Datatype where
  iovec := .ofSegments 4 [{ dis := 0, len := 1 }, { dis := 2, len := 1 }]
  wellFormed := .scattered _ _ (by decide) (by decide)
  lenPos := by decide

/-- Rank 0 contributes two characters, and rank 1 has its own in place. -/
def charsToCollect (rank : Nat) : Buffer :=
  { buf := if rank = 0 then .addr 20 else .inPlace, count := 2, datatype := Datatype.mpiChar }

/-- Rank 0 has room for characters, and rank 1 for spaced ones. -/
def charsToShare (rank : Nat) : Buffer :=
  if rank = 0 then { buf := .addr 0, count := 2, datatype := Datatype.mpiChar }
  else { buf := .addr 0, count := 1, datatype := spacedChars }

theorem charsToShare_arguments :
    AllgatherArguments charsToCollect charsToShare
      (fun rank => if rank = 0 then some Datatype.mpiChar.iovec else none) 2 where
  typed := by decide
  sendValid := by
    intro rank _ _
    refine ⟨(by decide : 2 < 2 ^ 31), (by decide : 2 * Datatype.mpiChar.len < 2 ^ 63), fun null => ?_⟩
    simp only [charsToCollect] at null
    split at null <;> cases null
  recvGiven := by decide
  elements := by decide
  bytes := by decide
  alike := by decide
  agree := by decide
  apart := by
    intro rank _ outOfPlace location sent received
    have first : rank = 0 := by
      by_contra later
      exact outOfPlace (if_neg later)
    subst first
    have here : location ∈ [(⟨.heap 0, 20⟩ : Loc), ⟨.heap 0, 21⟩] := sent
    have there : location ∈ [(⟨.heap 0, 0⟩ : Loc), ⟨.heap 0, 1⟩, ⟨.heap 0, 2⟩, ⟨.heap 0, 3⟩] := received
    revert there
    rcases List.mem_cons.mp here with rfl | here
    · decide
    · rw [List.mem_singleton.mp here]
      decide
  writable := by
    intro rank _
    unfold charsToShare
    split
    case isTrue => exact (by decide : Datatype.mpiChar.iovec.NonOverlapping)
    case isFalse => exact (by decide : spacedChars.iovec.NonOverlapping)

/-- The rank that joins last has the characters of the first one in its own layout. -/
theorem iallgather_gathers_charsToShare :
    ∃ s, (Sys.init 2 fun location => UInt8.ofNat location.addr.toNat).run copyingVm
        (once (allgatherCalls charsToCollect charsToShare
          fun rank => if rank = 0 then some Datatype.mpiChar.iovec else none))
        [.call 0, .call 1, .act 1, .act 1] = .ok s ∧
      s.Complete ∧ readAll s.world.mem (gatherBlock charsToShare 1 0) = [20, 21] := by
  have runs : ∃ s, (Sys.init 2 fun location => UInt8.ofNat location.addr.toNat).run copyingVm
      (once (allgatherCalls charsToCollect charsToShare
        fun rank => if rank = 0 then some Datatype.mpiChar.iovec else none))
      [.call 0, .call 1, .act 1, .act 1] = .ok s ∧ s.Complete :=
    ⟨_, rfl, .of_checks rfl (by decide) (by decide) (by decide)⟩
  obtain ⟨s, ran, complete⟩ := runs
  have gathered := iallgather_gathers copyingVm_copies (ready_init 2 _) le_rfl (by decide) charsToShare_arguments
    (reaches_of_run ran) complete 1 (by decide) 0 (by decide)
  exact ⟨s, ran, complete, gathered⟩

/-- Two characters in the same place, as `MPI_Type_create_hindexed` makes them of two displacements 0. -/
def doubledChars : Datatype where
  iovec := .ofSegments 1 [{ dis := 0, len := 1 }, { dis := 0, len := 1 }]
  wellFormed := .scattered _ _ (by decide) (by decide)
  lenPos := by decide

/-- If the first rank's receive type has two segments in the same place, the second rank does not get the first
    one's contribution, which is 5 and 7. -/
theorem iallgather_garbles :
    ∃ s, (Sys.init 2 fun location => if location = ⟨.heap 0, 20⟩ then 5 else 7).run copyingVm
        (once (allgatherCalls
          (fun _ => { buf := .addr 20, count := 2, datatype := Datatype.mpiChar })
          (fun rank =>
            if rank = 0 then { buf := .addr 0, count := 1, datatype := doubledChars }
            else { buf := .addr 0, count := 2, datatype := Datatype.mpiChar })
          fun _ => some Datatype.mpiChar.iovec))
        [.call 0, .call 1, .act 1, .act 1] = .ok s ∧
      s.Complete ∧ s.world.mem ⟨.heap 1, 0⟩ = 7 ∧ s.world.mem ⟨.heap 1, 1⟩ = 7 := by
  refine ⟨_, rfl, .of_checks rfl (by decide) (by decide) (by decide), ?_, ?_⟩
  · decide +kernel
  · decide +kernel

end Umpi
