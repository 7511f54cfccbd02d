/-
Module: Umpi.Proofs.Gather
Layer: Proofs
Purpose: Where `MPI_Igather` puts the contributions. A rank that comes after the root writes its own block.
  For a rank that came before, the root passes the rank's number as the element to write to, which is the
  start of the block only when a block is one element or the rank is 0. So the blocks are right in every
  run in which the root finds nobody but rank 0, or blocks of one element are gathered.
Imports: Umpi.Proofs.Rooted
Trusted boundary: none
Main exports: gatherCalls, gatherPlan, RootInTime, igather_places_blocks, igather_misplaces_block
Open obligations: none
-/
import Umpi.Proofs.Rooted

namespace Umpi

open Foundation Sys

/-- Every rank contributes `send rank`. The root's `recv` describes one block of its receive buffer, and
    the other ranks' is not looked at. -/
def gatherCalls (send recv : Nat → Buffer) (root : Nat) (rank : Nat) : Call :=
  .gather (send rank).buf (send rank).count (some (send rank).datatype.iovec) (recv rank).buf
    (recv rank).count (some (recv rank).datatype.iovec) root .world

/-- Does the rank have a contribution to move? The root has none if its block is in place. -/
def Contributes (send : Nat → Buffer) (root rank : Nat) : Prop :=
  rank = root → (send root).buf ≠ .inPlace

instance (send : Nat → Buffer) (root rank : Nat) : Decidable (Contributes send root rank) :=
  inferInstanceAs (Decidable (_ → _))

/-- The elements of the root's receive buffer that are for the contribution of `rank`. -/
def gatherBlock (recv : Nat → Buffer) (root rank : Nat) : List Loc :=
  (recv root).elements root (rank * (recv root).count) (recv root).count

/-- Where the contribution of a rank is when it calls. -/
def gatherSource (send recv : Nat → Buffer) (root rank : Nat) : List Loc :=
  if Contributes send root rank then (send rank).view rank else gatherBlock recv root rank

/-- Arguments of a gather that agree on the number of bytes of a contribution. The number of elements of
    the whole receive buffer is an `int`, and the root's own contribution lies outside of it. -/
structure GatherArguments (send recv : Nat → Buffer) (n root : Nat) : Prop where
  rootValid : root < n
  sendValid : ∀ rank < n, (send rank).Valid
  recvGiven : (recv root).buf = .null → (recv root).count = 0
  elements : (recv root).count * n < 2 ^ 31
  bytes : (recv root).count * n * (recv root).datatype.len < 2 ^ 63
  agree : ∀ rank < n, Contributes send root rank → (send rank).bytes = (recv root).bytes
  apart : Contributes send root root →
    ((send root).view root).Disjoint ((recv root).elements root 0 ((recv root).count * n))

/-- When the root makes its call nobody but rank 0 has made its own, or a block is one element. -/
def RootInTime (recv : Nat → Buffer) (root : Nat) (s : Sys) (label : Label) : Prop :=
  label = .call root → (recv root).count = 1 ∨ ∀ rank, rank ≠ 0 → (s.ranks rank).pos = 0

/-- The contributions go to the blocks of the root's buffer. -/
def gatherPlan (send recv : Nat → Buffer) (n root : Nat) : RootedPlan where
  offer := fun rank =>
    if rank = root then
      { buf := (recv root).buf.loc root
        iovec := (recv root).datatype.iovec
        size := (recv root).count * n
        count := (recv root).count }
    else
      { buf := (send rank).buf.loc rank
        iovec := (send rank).datatype.iovec
        size := (send rank).count
        count := (send rank).count }
  copy := fun rank =>
    if Contributes send root rank then
      { source := (send rank).view rank, target := gatherBlock recv root rank }
    else { source := [], target := [] }
  pull := fun rank id =>
    .writeToOwner id ((send rank).buf.loc rank) (send rank).datatype.iovec (send rank).count .countTimesRank
      (.elems 0)
  push := fun rank id =>
    .readFromOwner id ((recv root).buf.loc root) (recv root).datatype.iovec ((recv root).count * n)
      (recv root).count (.elems rank) (.elems 0)
  agreed := fun _ => True

/-- The ranks for which the root's own computation of the block is right. -/
def ReadInPlace (recv : Nat → Buffer) (root rank : Nat) : Prop := (recv root).count = 1 ∨ rank = 0

section Gather

variable {vm : ProcessVm} {send recv : Nat → Buffer} {n root : Nat}

theorem contributes_of_ne {rank : Nat} (other : rank ≠ root) : Contributes send root rank :=
  fun same => absurd same other

theorem gatherBlock_subset {rank : Nat} (valid : rank < n) :
    gatherBlock recv root rank ⊆ (recv root).elements root 0 ((recv root).count * n) := by
  refine Buffer.elements_subset _ _ (Nat.zero_le _) ?_
  rw [Nat.zero_add]
  exact block_le valid

theorem gatherBlock_disjoint {rank other : Nat} (different : rank ≠ other) :
    (gatherBlock recv root rank).Disjoint (gatherBlock recv root other) := by
  rcases Nat.lt_or_gt_of_ne different with before | after
  · refine Buffer.disjoint_elements _ _ ?_
    rw [← Nat.succ_mul]
    exact Nat.mul_le_mul_right _ before
  · refine (Buffer.disjoint_elements _ _ ?_).symm
    rw [← Nat.succ_mul]
    exact Nat.mul_le_mul_right _ after

theorem gatherPlan_independent (arguments : GatherArguments send recv n root) :
    Independent (gatherPlan send recv n root).copy (List.range n) where
  sameLength := by
    intro rank member
    by_cases contributes : Contributes send root rank
    · simp only [gatherPlan, if_pos contributes, gatherBlock, Buffer.length_elements, Buffer.length_view]
      exact (arguments.agree rank (List.mem_range.mp member) contributes).symm
    · simp [gatherPlan, contributes]
  targets := by
    intro rank _ other _ different
    by_cases contributes : Contributes send root rank
    · by_cases contributes' : Contributes send root other
      · simp only [gatherPlan, if_pos contributes, if_pos contributes']
        exact gatherBlock_disjoint different
      · simp [gatherPlan, contributes']
    · simp [gatherPlan, contributes]
  sources := by
    intro rank member other member' different
    by_cases contributes : Contributes send root rank
    · by_cases contributes' : Contributes send root other
      · simp only [gatherPlan, if_pos contributes, if_pos contributes']
        by_cases isRoot : rank = root
        · subst isRoot
          exact List.disjoint_of_subset_right (gatherBlock_subset (List.mem_range.mp member'))
            (arguments.apart contributes)
        · exact Buffer.disjoint_of_rank _ _ isRoot _ _ _ _
            (arguments.sendValid rank (List.mem_range.mp member)).given
      · simp [gatherPlan, contributes']
    · simp [gatherPlan, contributes]

/-- A rank other than the root joins. -/
theorem gatherPlan_member {past : List Nat} {w : World} {self : Nat} {made : Nat → Nat} (rootValid : root < n)
    (valid : (send self).Valid) (notRoot : self ≠ root)
    (arriving : Arriving (.rooted root) n past w self made) :
    ((gatherCalls send recv root self).enter vm w self).Yields fun result => ∃ made',
      Entered (.rooted root) n past w self (w.claimed self) ((gatherPlan send recv n root).offer self)
        (if root ∈ past then [(gatherPlan send recv n root).pull self (made root)] else []) result made
        made' := by
  have sendGiven : ¬ ((send self).buf = .null ∧ ((send self).count : Int) ≠ 0) :=
    fun missing => missing.2 (by exact_mod_cast valid.given missing.1)
  simp only [gatherPlan, if_neg notRoot]
  show (mpiIgather vm w self (send self).buf (send self).count (some (send self).datatype.iovec)
    (recv self).buf (recv self).count (some (recv self).datatype.iovec) root .world).Yields _
  exact mpiIgather_member arriving rootValid notRoot sendGiven rfl

/-- The root joins, if the sizes of its own block agree. -/
theorem gatherPlan_root {past : List Nat} {w : World} {made : Nat → Nat} (valid : (send root).Valid)
    (given : (recv root).buf = .null → (recv root).count = 0)
    (agree : Contributes send root root → (send root).bytes = (recv root).bytes)
    (arriving : Arriving (.rooted root) n past w root made) :
    ((gatherCalls send recv root root).enter vm w root).Yields fun result =>
      IsInt ((recv root).count * n) ∧ ∃ made',
        Entered (.rooted root) n past w root
          (gatherOwn vm (w.claimed root) root (send root).buf (send root).count (send root).datatype.iovec
            ((recv root).buf.loc root) (recv root).count (recv root).datatype.iovec)
          ((gatherPlan send recv n root).offer root)
          (serveRanks (gatherPlan send recv n root).push made past.reverse) result made made' := by
  have fresh := arriving.joining.fresh
  have short : past.length < n := arriving.joining.length_le
  have sendGiven : ¬ ((send root).buf = .null ∧ ((send root).count : Int) ≠ 0) :=
    fun missing => missing.2 (by exact_mod_cast valid.given missing.1)
  have recvGiven : ¬ ((recv root).buf = .null ∧ ((recv root).count : Int) ≠ 0) :=
    fun missing => missing.2 (by exact_mod_cast given missing.1)
  refine (mpiIgather_root arriving sendGiven (fun _ => rfl) recvGiven
    (fun outOfPlace => bytesDiffer_eq_false (agree fun _ => outOfPlace)) rfl).mono ?_
  rintro result ⟨isInt, made', entered⟩
  have served : serve (fun id => .readFromOwner id ((recv root).buf.loc root)
      (recv root).datatype.iovec ((recv root).count * n) (recv root).count
      (.elems (w.cookies id).src) (.elems 0)) (past.reverse.map made) =
      serveRanks (gatherPlan send recv n root).push made past.reverse := by
    unfold serve serveRanks
    rw [List.flatMap_map]
    refine List.flatMap_congr fun rank member => ?_
    have src : (w.cookies (made rank)).src = rank := by
      refine arriving.standing.src rank ?_
      rw [Schedule.box, if_neg short.ne, if_neg fresh]
      exact member
    simp only [gatherPlan, src]
  rw [served] at entered
  exact ⟨isInt, made', by simpa [gatherPlan] using entered⟩

theorem gatherPlan_sound (copies : CopiesAll vm) (arguments : GatherArguments send recv n root)
    (turn : Nat) :
    (gatherPlan send recv n root).Sound vm (gatherCalls send recv root) n root turn
      (ReadInPlace recv root) where
  pulled := fun _ _ => rfl
  pushed := fun _ _ => rfl
  pull := by
    intro rank valid notRoot w id offers _
    simp only [gatherPlan, if_true] at offers
    have agree := arguments.agree rank valid (contributes_of_ne notRoot)
    have blocks : rank * (recv root).count + (recv root).count ≤ (recv root).count * n := block_le valid
    have elements := arguments.elements
    have ranked : (w.cookies id).count * (rank : Int) = (rank * (recv root).count : Nat) := by
      rw [offers.count]
      push_cast
      ring
    have offset : Offset.countTimesRank.eval w rank id = .ok ((rank * (recv root).count : Nat) : Int) := by
      rw [Offset.eval, mulInt_of_isInt, ranked]
      rw [ranked]
      exact ⟨by omega, by omega⟩
    obtain ⟨done, exec, moved, count⟩ := writeToOwner_block
      ((send rank).buf.loc rank) copies rfl rfl (rfl : (0 : Int) = (0 : Nat)) offers agree elements
      arguments.bytes (Nat.le_mul_of_pos_right _ (by omega)) blocks
    refine ⟨done, ?_, ?_⟩
    · simp only [gatherPlan, if_pos (contributes_of_ne notRoot)]
      refine { toMoved := moved, exec := ?_ }
      rw [Action.exec, offset]
      exact exec
    · simpa [gatherPlan] using count
  push := by
    intro rank valid notRoot inPlace w id offers
    simp only [gatherPlan, if_neg notRoot] at offers
    have agree := arguments.agree rank valid (contributes_of_ne notRoot)
    have blocks : rank * (recv root).count + (recv root).count ≤ (recv root).count * n := block_le valid
    -- for these ranks the element the root passes is the start of the block
    have start : rank = rank * (recv root).count := by
      rcases inPlace with one | zero
      · rw [one, Nat.mul_one]
      · rw [zero, Nat.zero_mul]
    have empty : (recv root).count = 0 → ((send rank).count - 0) * (send rank).datatype.len = 0 := by
      intro none
      rw [Buffer.bytes, Buffer.bytes, none, Nat.zero_mul] at agree
      exact agree
    obtain ⟨done, exec, moved, _⟩ := readFromOwner_block ((recv root).buf.loc root) copies rfl
      (rfl : (rank : Int) = rank) (rfl : (0 : Int) = (0 : Nat)) offers (requested_eq empty) agree.symm
      arguments.elements arguments.bytes (arguments.sendValid rank valid).bytesRange (Nat.zero_add _).le
      (by omega)
    refine ⟨done, ?_⟩
    simp only [gatherPlan, if_pos (contributes_of_ne notRoot)]
    refine { toMoved := ?_, exec := exec }
    rwa [gatherBlock, Buffer.elements, ← start]
  member := fun _ _ _ _ notRoot arriving _ =>
    gatherPlan_member arguments.rootValid
      (arguments.sendValid _ (arriving.joining.bound _ List.mem_cons_self)) notRoot arriving
  root := by
    intro past w made arriving _
    refine (gatherPlan_root (arguments.sendValid root arguments.rootValid) arguments.recvGiven
      (arguments.agree root arguments.rootValid) arriving).mono ?_
    rintro result ⟨_, made', entered⟩
    refine ⟨_, made', ?_, trivial, entered⟩
    unfold gatherOwn
    by_cases inPlace : (send root).buf = .inPlace
    · have nothing : ¬ Contributes send root root := fun contributes => contributes rfl inPlace
      simp [gatherPlan, nothing, inPlace, World.claimed]
    · have contributes : Contributes send root root := fun _ => inPlace
      rw [if_neg inPlace, copy_block copies rfl rfl 0 _
        (arguments.agree root arguments.rootValid contributes)]
      · simp [gatherPlan, contributes, gatherBlock, Buffer.elements, Buffer.view, World.claimed]
      · refine (Nat.mul_le_mul_right _ ?_).trans_lt arguments.bytes
        exact Nat.le_mul_of_pos_right _ (Nat.zero_lt_of_lt arguments.rootValid)

/-- Whoever may call before a root that is in time is read correctly by it. -/
theorem readInPlace_of_rootInTime {s : Sys} (inTime : RootInTime recv root s (.call root)) {rank : Nat}
    (called : (s.ranks rank).pos ≠ 0) : ReadInPlace recv root rank := by
  refine (inTime rfl).imp_right fun onlyZero => ?_
  by_contra other
  exact called (onlyZero rank other)

/-- When every call has returned every contribution is in its block, and nothing else has changed. -/
theorem gather_placed {early : Nat → Prop} {t : Nat} {origin s : Sys}
    (arguments : GatherArguments send recv n root)
    (exchanged : (gatherPlan send recv n root).Exchanged n root t early origin s) (complete : s.Complete) :
    (∀ rank < n, Contributes send root rank →
      Holds s.world.mem (gatherBlock recv root rank) (readAll origin.world.mem ((send rank).view rank))) ∧
    ∀ location, (∀ rank < n, Contributes send root rank → location ∉ gatherBlock recv root rank) →
      s.world.mem location = origin.world.mem location := by
  refine ⟨fun rank valid contributes => ?_, fun location outside => ?_⟩
  · have delivered := exchanged.delivered arguments.rootValid (gatherPlan_independent arguments) complete
      valid
    simpa only [gatherPlan, if_pos contributes] using delivered
  · refine exchanged.untouched fun rank valid inside => ?_
    by_cases contributes : Contributes send root rank
    · simp only [gatherPlan, if_pos contributes] at inside
      exact outside rank valid contributes inside
    · simp [gatherPlan, contributes] at inside

end Gather

/-- In every run in which the root makes its call in time: when every call has returned every block holds
    its rank's contribution, and no other byte has changed. -/
theorem igather_places_blocks {vm : ProcessVm} (copies : CopiesAll vm) {send recv : Nat → Buffer}
    {n root t : Nat} {origin s : Sys} (ready : origin.Ready n t) (several : 2 ≤ n) (limit : n ≤ 10000)
    (arguments : GatherArguments send recv n root)
    (run : ReachesBy vm (once (gatherCalls send recv root)) (RootInTime recv root) origin s)
    (complete : s.Complete) :
    (∀ rank < n, Contributes send root rank →
      Holds s.world.mem (gatherBlock recv root rank) (readAll origin.world.mem ((send rank).view rank))) ∧
    ∀ location, (∀ rank < n, Contributes send root rank → location ∉ gatherBlock recv root rank) →
      s.world.mem location = origin.world.mem location := by
  have suits := Schedule.Suits.of_root several arguments.rootValid
  have sound := gatherPlan_sound copies arguments (t % umpiOutstandingCollectiveOperations)
  have exchanged := sound.exchanged ready suits (by omega)
    (fun _ inTime _ called => readInPlace_of_rootInTime inTime called) run
  exact gather_placed arguments exchanged complete

/-- Two characters of every rank; those of rank 0 are in place. -/
def pairToSend (rank : Nat) : Buffer :=
  { buf := if rank = 0 then .inPlace else .addr 0, count := 2, datatype := Datatype.mpiChar }

/-- Blocks of two characters from the start of a rank's memory. -/
def pairToReceive (_ : Nat) : Buffer :=
  { buf := .addr 0, count := 2, datatype := Datatype.mpiChar }

/-- Rank 1 has sevens in its memory, the others zeros. -/
def sevens (location : Loc) : UInt8 := if location.region = .heap 1 then 7 else 0

theorem pairs_arguments : GatherArguments pairToSend pairToReceive 2 0 where
  rootValid := by decide
  sendValid := by
    intro rank _
    refine ⟨(by decide : 2 < 2 ^ 31), (by decide : 2 * Datatype.mpiChar.len < 2 ^ 63), fun null => ?_⟩
    simp only [pairToSend] at null
    split at null <;> cases null
  recvGiven := nofun
  elements := by decide
  bytes := (by decide : 2 * 2 * Datatype.mpiChar.len < 2 ^ 63)
  agree := fun _ _ _ => rfl
  apart := fun contributes => absurd rfl (contributes rfl)

/-- The root comes first. -/
theorem igather_places_blocks_rootFirst :
    ∃ s, (Sys.init 2 sevens).run copyingVm (once (gatherCalls pairToSend pairToReceive 0))
        [.call 0, .call 1, .act 1] = .ok s ∧ s.Complete ∧
      Holds s.world.mem (gatherBlock pairToReceive 0 1) [7, 7] := by
  have runs : ∃ first s, (Sys.init 2 sevens).step copyingVm
        (once (gatherCalls pairToSend pairToReceive 0)) (.call 0) = .ok first ∧
      first.run copyingVm (once (gatherCalls pairToSend pairToReceive 0)) [.call 1, .act 1] = .ok s ∧
      s.Complete := ⟨_, _, rfl, rfl, .of_checks rfl (by decide) (by decide) (by decide)⟩
  obtain ⟨first, s, stepped, ran, complete⟩ := runs
  have others : ∀ label ∈ [Label.call 1, .act 1], ∀ s, RootInTime pairToReceive 0 s label := by
    intro label member s isRoot
    subst isRoot
    simp at member
  have reaches := (reachesBy_of_run others ran).head (fun _ => Or.inr fun _ _ => rfl) stepped
  refine ⟨s, ?_, complete, ?_⟩
  · rw [Sys.run, stepped]
    exact ran
  · exact (igather_places_blocks copyingVm_copies (ready_init 2 _) le_rfl (by decide) pairs_arguments
      reaches complete).1 1 (by decide) (by decide)

/-- Rank 1 comes before the root: its contribution, two sevens, is put at element 1 instead of element
    2, over the second element of the root's own block. -/
theorem igather_misplaces_block :
    ∃ s, (Sys.init 2 sevens).run copyingVm (once (gatherCalls pairToSend pairToReceive 0))
        [.call 1, .call 0, .act 0, .act 0] = .ok s ∧ s.Clean ∧ s.Complete ∧
      readAll sevens ((pairToSend 1).view 1) = [7, 7] ∧
      readAll s.world.mem (gatherBlock pairToReceive 0 0) = [0, 7] ∧
      readAll s.world.mem (gatherBlock pairToReceive 0 1) = [7, 0] := by
  refine ⟨_, rfl, ?_, .of_checks rfl (by decide) (by decide) (by decide), by decide, by decide, by decide⟩
  rintro (_ | _ | rank)
  · decide
  · decide
  · rintro ret ⟨⟩

end Umpi
