/-
Module: Umpi.Proofs.Scatter
Layer: Proofs
Purpose: What `MPI_Iscatter` delivers. A rank that comes after the root computes where its block starts from
  the `count_` of the root's cookie and its own rank. For a rank that came before, the root computes it
  from its own count and the `src_` of the rank's cookie. Both find the same block, so every rank gets its
  own in every order of joining.
Imports: Umpi.Proofs.Rooted
Trusted boundary: none
Main exports: scatterCalls, scatterBlock, ScatterArguments, scatterPlan, iscatter_delivers_blocks
Open obligations: none
-/
import Umpi.Proofs.Rooted

namespace Umpi

open Foundation Sys

/-- Every rank receives into `recv rank`. The root's `send` describes one block of its send buffer, and
    the other ranks' is not looked at. -/
def scatterCalls (send recv : Nat → Buffer) (root : Nat) (rank : Nat) : Call :=
  .scatter (send rank).buf (send rank).count (some (send rank).datatype.iovec) (recv rank).buf
    (recv rank).count (some (recv rank).datatype.iovec) root .world

/-- Does the rank have a block to receive? The root leaves its own where it is if it passes
    `MPI_IN_PLACE`. -/
def TakesBlock (recv : Nat → Buffer) (root rank : Nat) : Prop :=
  rank = root → (recv root).buf ≠ .inPlace

instance (recv : Nat → Buffer) (root rank : Nat) : Decidable (TakesBlock recv root rank) :=
  inferInstanceAs (Decidable (_ → _))

/-- The elements of the root's send buffer that are for `rank`. -/
def scatterBlock (send : Nat → Buffer) (root rank : Nat) : List Loc :=
  (send root).elements root (rank * (send root).count) (send root).count

/-- The root's whole send buffer. -/
def scatterSource (send : Nat → Buffer) (n root : Nat) : List Loc :=
  (send root).elements root 0 ((send root).count * n)

/-- Where the block of a rank is to be in the end. -/
def scatterTarget (send recv : Nat → Buffer) (root rank : Nat) : List Loc :=
  if TakesBlock recv root rank then (recv rank).view rank else scatterBlock send root rank

/-- Arguments of a scatter that agree on the number of bytes of a block. The number of elements of the
    whole send buffer is an `int`, and the root does not receive into it. -/
structure ScatterArguments (send recv : Nat → Buffer) (n root : Nat) : Prop where
  rootValid : root < n
  recvValid : ∀ rank < n, (recv rank).Valid
  sendGiven : (send root).buf = .null → (send root).count = 0
  elements : (send root).count * n < 2 ^ 31
  bytes : (send root).count * n * (send root).datatype.len < 2 ^ 63
  agree : ∀ rank < n, TakesBlock recv root rank → (recv rank).bytes = (send root).bytes
  apart : TakesBlock recv root root → ((recv root).view root).Disjoint (scatterSource send n root)

/-- The blocks of the root's buffer go to the ranks. -/
def scatterPlan (send recv : Nat → Buffer) (n root : Nat) : RootedPlan where
  offer := fun rank =>
    if rank = root then
      { buf := (send root).buf.loc root
        iovec := (send root).datatype.iovec
        size := (send root).count * n
        count := (send root).count }
    else
      { buf := (recv rank).buf.loc rank
        iovec := (recv rank).datatype.iovec
        size := (recv rank).count
        count := (recv rank).count }
  copy := fun rank =>
    if TakesBlock recv root rank then
      { source := scatterBlock send root rank, target := (recv rank).view rank }
    else { source := [], target := [] }
  pull := fun rank id =>
    .readFromOwner id ((recv rank).buf.loc rank) (recv rank).datatype.iovec (recv rank).count
      (recv rank).count (.elems 0) .countTimesRank
  push := fun rank id =>
    .writeToOwner id ((send root).buf.loc root) (send root).datatype.iovec (send root).count (.elems 0)
      (.product (send root).count rank)
  agreed := fun _ => True

section Scatter

variable {vm : ProcessVm} {send recv : Nat → Buffer} {n root : Nat}

theorem takesBlock_of_ne {rank : Nat} (other : rank ≠ root) : TakesBlock recv root rank :=
  fun same => absurd same other

theorem scatterBlock_subset {rank : Nat} (valid : rank < n) :
    scatterBlock send root rank ⊆ scatterSource send n root := by
  apply Buffer.elements_subset
  · exact Nat.zero_le _
  · rw [Nat.zero_add]
    exact block_le valid

/-- Nobody receives into the root's send buffer. -/
theorem view_disjoint_scatterSource (arguments : ScatterArguments send recv n root) {rank : Nat}
    (valid : rank < n) (takes : TakesBlock recv root rank) :
    ((recv rank).view rank).Disjoint (scatterSource send n root) := by
  by_cases isRoot : rank = root
  · subst isRoot
    exact arguments.apart takes
  · exact Buffer.disjoint_of_rank _ _ isRoot _ _ _ _ (arguments.recvValid rank valid).given

theorem scatterPlan_independent (arguments : ScatterArguments send recv n root) :
    Independent (scatterPlan send recv n root).copy (List.range n) where
  sameLength := by
    intro rank member
    by_cases takes : TakesBlock recv root rank
    · simp only [scatterPlan, if_pos takes, scatterBlock, Buffer.length_elements, Buffer.length_view]
      exact arguments.agree rank (List.mem_range.mp member) takes
    · simp [scatterPlan, takes]
  targets := by
    intro rank member other _ different
    by_cases takes : TakesBlock recv root rank
    · by_cases takes' : TakesBlock recv root other
      · simp only [scatterPlan, if_pos takes, if_pos takes']
        exact Buffer.disjoint_of_rank _ _ different _ _ _ _
          (arguments.recvValid rank (List.mem_range.mp member)).given
      · simp [scatterPlan, takes']
    · simp [scatterPlan, takes]
  sources := by
    intro rank member other member' _
    by_cases takes : TakesBlock recv root rank
    · by_cases takes' : TakesBlock recv root other
      · simp only [scatterPlan, if_pos takes, if_pos takes']
        exact List.disjoint_of_subset_left (scatterBlock_subset (List.mem_range.mp member))
          (view_disjoint_scatterSource arguments (List.mem_range.mp member') takes').symm
      · simp [scatterPlan, takes']
    · simp [scatterPlan, takes]

theorem scatterPlan_sound (copies : CopiesAll vm) (arguments : ScatterArguments send recv n root)
    (turn : Nat) :
    (scatterPlan send recv n root).Sound vm (scatterCalls send recv root) n root turn fun _ => True where
  pulled := fun _ _ => rfl
  pushed := fun _ _ => rfl
  pull := by
    intro rank valid notRoot w id offers _
    simp only [scatterPlan, if_true] at offers
    have agree := arguments.agree rank valid (takesBlock_of_ne notRoot)
    have blocks : rank * (send root).count + (send root).count ≤ (send root).count * n := block_le valid
    have elements := arguments.elements
    have ranked : (w.cookies id).count * (rank : Int) = (rank * (send root).count : Nat) := by
      rw [offers.count]
      push_cast
      ring
    have offset : Offset.countTimesRank.eval w rank id = .ok ((rank * (send root).count : Nat) : Int) := by
      rw [Offset.eval, mulInt_of_isInt, ranked]
      rw [ranked]
      exact ⟨by omega, by omega⟩
    -- who asks for nothing gets nothing, since the root's buffer is empty then
    have empty : (recv rank).count = 0 →
        ((send root).count * n - rank * (send root).count) * (send root).datatype.len = 0 := by
      intro none
      rw [Buffer.bytes, none, Nat.zero_mul] at agree
      rw [(send root).count_eq_zero agree.symm]
      simp
    obtain ⟨done, exec, moved, count⟩ := readFromOwner_block ((recv rank).buf.loc rank) copies rfl
      (rfl : (0 : Int) = (0 : Nat)) rfl offers (requested_eq empty) agree
      (arguments.recvValid rank valid).countRange (arguments.recvValid rank valid).bytesRange
      arguments.bytes blocks (Nat.zero_add _).le
    refine ⟨done, ?_, ?_⟩
    · simp only [scatterPlan, if_pos (takesBlock_of_ne notRoot)]
      refine { toMoved := moved, exec := ?_ }
      rw [Action.exec, offset]
      exact exec
    · simpa [scatterPlan] using count
  push := by
    intro rank valid notRoot _ w id offers
    simp only [scatterPlan, if_neg notRoot] at offers
    have agree := arguments.agree rank valid (takesBlock_of_ne notRoot)
    have blocks : rank * (send root).count + (send root).count ≤ (send root).count * n := block_le valid
    have elements := arguments.elements
    have ranked : ((send root).count : Int) * (rank : Int) = (rank * (send root).count : Nat) := by
      push_cast
      ring
    have offset : (Offset.product (send root).count rank).eval w root id =
        .ok ((rank * (send root).count : Nat) : Int) := by
      rw [Offset.eval, mulInt_of_isInt, ranked]
      rw [ranked]
      exact ⟨by omega, by omega⟩
    obtain ⟨done, exec, moved, _⟩ := writeToOwner_block ((send root).buf.loc root) copies rfl
      (rfl : (0 : Int) = (0 : Nat)) rfl offers agree.symm (arguments.recvValid rank valid).countRange
      (arguments.recvValid rank valid).bytesRange le_rfl (Nat.zero_add _).le
    refine ⟨done, ?_⟩
    simp only [scatterPlan, if_pos (takesBlock_of_ne notRoot)]
    refine { toMoved := moved, exec := ?_ }
    rw [Action.exec, offset]
    exact exec
  member := by
    intro past w self made notRoot arriving _
    have valid := arguments.recvValid self (arriving.joining.bound self List.mem_cons_self)
    have recvGiven : ¬ ((recv self).buf = .null ∧ ((recv self).count : Int) ≠ 0) :=
      fun missing => missing.2 (by exact_mod_cast valid.given missing.1)
    simp only [scatterPlan, if_neg notRoot]
    show (mpiIscatter vm w self (send self).buf (send self).count (some (send self).datatype.iovec)
      (recv self).buf (recv self).count (some (recv self).datatype.iovec) root .world).Yields _
    exact mpiIscatter_member arriving arguments.rootValid notRoot recvGiven rfl
  root := by
    intro past w made arriving _
    have valid := arguments.recvValid root arguments.rootValid
    have fresh := arriving.joining.fresh
    have short : past.length < n := arriving.joining.length_le
    have recvGiven : ¬ ((recv root).buf = .null ∧ ((recv root).count : Int) ≠ 0) :=
      fun missing => missing.2 (by exact_mod_cast valid.given missing.1)
    have sendGiven : ¬ ((send root).buf = .null ∧ ((send root).count : Int) ≠ 0) :=
      fun missing => missing.2 (by exact_mod_cast arguments.sendGiven missing.1)
    refine (mpiIscatter_root arriving recvGiven (fun _ => rfl) sendGiven
      (fun outOfPlace => bytesDiffer_eq_false (arguments.agree root arguments.rootValid fun _ => outOfPlace))
      rfl).mono ?_
    rintro result ⟨_, made', entered⟩
    have served : serve (fun id => .writeToOwner id ((send root).buf.loc root)
        (send root).datatype.iovec (send root).count (.elems 0)
        (.product (send root).count (w.cookies id).src)) (past.reverse.map made) =
        serveRanks (scatterPlan send recv n root).push made past.reverse := by
      unfold serve serveRanks
      rw [List.flatMap_map]
      refine List.flatMap_congr fun rank member => ?_
      have src : (w.cookies (made rank)).src = rank := by
        refine arriving.standing.src rank ?_
        rw [Schedule.box, if_neg short.ne, if_neg fresh]
        exact member
      simp only [scatterPlan, src]
    rw [served] at entered
    refine ⟨_, made', ?_, trivial, by simpa [scatterPlan] using entered⟩
    unfold scatterOwn
    by_cases inPlace : (recv root).buf = .inPlace
    · have nothing : ¬ TakesBlock recv root root := fun takes => takes rfl inPlace
      simp [scatterPlan, nothing, inPlace, World.claimed]
    · have takes : TakesBlock recv root root := fun _ => inPlace
      rw [if_neg inPlace, copy_block copies rfl rfl _ 0
        (arguments.agree root arguments.rootValid takes).symm]
      · simp [scatterPlan, takes, scatterBlock, Buffer.elements, Buffer.view, World.claimed]
      · exact valid.bytesRange

/-- No byte outside of the receive buffers ever changes. -/
theorem scatter_untouched {early : Nat → Prop} {t : Nat} {origin s : Sys}
    (exchanged : (scatterPlan send recv n root).Exchanged n root t early origin s) {location : Loc}
    (outside : ∀ rank < n, TakesBlock recv root rank → location ∉ (recv rank).view rank) :
    s.world.mem location = origin.world.mem location := by
  apply exchanged.untouched
  intro rank valid inside
  by_cases takes : TakesBlock recv root rank
  · simp only [scatterPlan, if_pos takes] at inside
    exact outside rank valid takes inside
  · simp [scatterPlan, takes] at inside

/-- When every call has returned every rank that takes a block has its own. -/
theorem scatter_received {early : Nat → Prop} {t : Nat} {origin s : Sys}
    (arguments : ScatterArguments send recv n root)
    (exchanged : (scatterPlan send recv n root).Exchanged n root t early origin s) (complete : s.Complete)
    {rank : Nat} (valid : rank < n) (takes : TakesBlock recv root rank) :
    Holds s.world.mem ((recv rank).view rank) (readAll origin.world.mem (scatterBlock send root rank)) := by
  have delivered := exchanged.delivered arguments.rootValid (scatterPlan_independent arguments) complete
    valid
  simpa only [scatterPlan, if_pos takes] using delivered

end Scatter

/-- In every run of `MPI_Iscatter`: when every call has returned every rank that takes a block has its own
    block of the root's send buffer, and no byte outside of the receive buffers has changed, in particular
    none of the root's send buffer. -/
theorem iscatter_delivers_blocks {vm : ProcessVm} (copies : CopiesAll vm) {send recv : Nat → Buffer}
    {n root t : Nat} {origin s : Sys} (ready : origin.Ready n t) (several : 2 ≤ n) (limit : n ≤ 10000)
    (arguments : ScatterArguments send recv n root)
    (run : Reaches vm (once (scatterCalls send recv root)) origin s) (complete : s.Complete) :
    (∀ rank < n, TakesBlock recv root rank →
      Holds s.world.mem ((recv rank).view rank)
        (readAll origin.world.mem (scatterBlock send root rank))) ∧
    readAll s.world.mem (scatterSource send n root) =
      readAll origin.world.mem (scatterSource send n root) ∧
    ∀ location, (∀ rank < n, TakesBlock recv root rank → location ∉ (recv rank).view rank) →
      s.world.mem location = origin.world.mem location := by
  have suits := Schedule.Suits.of_root several arguments.rootValid
  have sound := scatterPlan_sound copies arguments (t % umpiOutstandingCollectiveOperations)
  have exchanged := sound.exchanged ready suits (by omega) (fun _ _ _ _ => trivial) run.unconditional
  refine ⟨fun rank valid takes => scatter_received arguments exchanged complete valid takes, ?_,
    fun _ outside => scatter_untouched exchanged outside⟩
  apply readAll_congr
  intro location member
  apply scatter_untouched exchanged
  intro rank valid takes inside
  exact view_disjoint_scatterSource arguments valid takes inside member

/-- The root sends blocks of two characters. -/
def pairsToScatter (_ : Nat) : Buffer :=
  { buf := .addr 0, count := 2, datatype := Datatype.mpiChar }

/-- Rank 1 receives two characters; the root leaves its own in place. -/
def pairToTake (rank : Nat) : Buffer :=
  { buf := if rank = 0 then .inPlace else .addr 0, count := 2, datatype := Datatype.mpiChar }

/-- Rank 1 comes before the root and still gets the second block. -/
theorem iscatter_delivers_blocks_rootLast :
    ∃ s, (Sys.init 2 fun location => if location = ⟨.heap 0, 2⟩ then 7 else 0).run copyingVm
        (once (scatterCalls pairsToScatter pairToTake 0)) [.call 1, .call 0, .act 0, .act 0] = .ok s ∧
      s.Complete ∧ Holds s.world.mem ((pairToTake 1).view 1) [7, 0] := by
  have runs : ∃ s, (Sys.init 2 fun location => if location = ⟨.heap 0, 2⟩ then 7 else 0).run copyingVm
      (once (scatterCalls pairsToScatter pairToTake 0)) [.call 1, .call 0, .act 0, .act 0] = .ok s ∧
      s.Complete := ⟨_, rfl, .of_checks rfl (by decide) (by decide) (by decide)⟩
  obtain ⟨s, ran, complete⟩ := runs
  have arguments : ScatterArguments pairsToScatter pairToTake 2 0 :=
    { rootValid := by decide
      recvValid := by
        intro rank _
        refine ⟨(by decide : 2 < 2 ^ 31), (by decide : 2 * Datatype.mpiChar.len < 2 ^ 63), fun null => ?_⟩
        simp only [pairToTake] at null
        split at null <;> cases null
      sendGiven := nofun
      elements := by decide
      bytes := (by decide : 2 * 2 * Datatype.mpiChar.len < 2 ^ 63)
      agree := fun _ _ _ => rfl
      apart := fun takes => absurd rfl (takes rfl) }
  exact ⟨s, ran, complete, (iscatter_delivers_blocks copyingVm_copies (ready_init 2 _) le_rfl (by decide)
    arguments (reaches_of_run ran) complete).1 1 (by decide) (takesBlock_of_ne (by decide))⟩

end Umpi
