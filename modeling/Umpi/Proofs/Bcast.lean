/-
Module: Umpi.Proofs.Bcast
Layer: Proofs
Purpose: `MPI_Ibcast` delivers the root's data to everyone: for every root, every order in which the ranks
  join and every interleaving of the transfers, whatever the layouts. The root's request is not complete
  before every other rank has its data.
Imports: Umpi.Proofs.Rooted
Trusted boundary: none
Main exports: bcastCalls, bcastPlan, ibcast_delivers
Open obligations: none
-/
import Umpi.Proofs.Rooted

namespace Umpi

open Foundation Sys

/-- Every rank broadcasts with its own description of the message. -/
def bcastCalls (buffers : Nat → Buffer) (root : Nat) (rank : Nat) : Call :=
  .bcast (buffers rank).buf (buffers rank).count (some (buffers rank).datatype.iovec) root .world

/-- Arguments of a broadcast that agree on the number of bytes. -/
structure BcastArguments (buffers : Nat → Buffer) (n root : Nat) : Prop where
  rootValid : root < n
  valid : ∀ rank < n, (buffers rank).Valid
  agree : ∀ rank < n, (buffers rank).bytes = (buffers root).bytes

/-- The root's message goes to every other rank. -/
def bcastPlan (buffers : Nat → Buffer) (root : Nat) : RootedPlan where
  offer := fun rank =>
    { buf := (buffers rank).buf.loc rank
      iovec := (buffers rank).datatype.iovec
      size := (buffers rank).count
      count := (buffers rank).count }
  copy := fun rank =>
    if rank = root then { source := [], target := [] }
    else { source := (buffers root).view root, target := (buffers rank).view rank }
  pull := fun rank id =>
    .readFromOwner id ((buffers rank).buf.loc rank) (buffers rank).datatype.iovec (buffers rank).count
      (buffers rank).count (.elems 0) (.elems 0)
  push := fun _ id =>
    .writeToOwner id ((buffers root).buf.loc root) (buffers root).datatype.iovec (buffers root).count
      (.elems 0) (.elems 0)
  agreed := fun _ => True

section Bcast

variable {vm : ProcessVm} {buffers : Nat → Buffer} {n root : Nat}

theorem bcastPlan_independent (arguments : BcastArguments buffers n root) :
    Independent (bcastPlan buffers root).copy (List.range n) where
  sameLength := by
    intro rank member
    by_cases isRoot : rank = root
    · simp [bcastPlan, isRoot]
    · simp only [bcastPlan, if_neg isRoot, Buffer.length_view]
      exact arguments.agree rank (List.mem_range.mp member)
  targets := by
    intro rank member other _ different
    by_cases isRoot : rank = root
    · simp [bcastPlan, isRoot]
    · by_cases isRoot' : other = root
      · simp [bcastPlan, isRoot']
      · simp only [bcastPlan, if_neg isRoot, if_neg isRoot']
        exact Buffer.disjoint_of_rank _ _ different _ _ _ _
          (arguments.valid rank (List.mem_range.mp member)).given
  sources := by
    intro rank _ other _ _
    by_cases isRoot : rank = root
    · simp [bcastPlan, isRoot]
    · by_cases isRoot' : other = root
      · simp [bcastPlan, isRoot']
      · simp only [bcastPlan, if_neg isRoot, if_neg isRoot']
        exact Buffer.disjoint_of_rank _ _ (Ne.symm isRoot') _ _ _ _
          (arguments.valid root arguments.rootValid).given

theorem bcastPlan_sound (copies : CopiesAll vm) (arguments : BcastArguments buffers n root) (turn : Nat) :
    (bcastPlan buffers root).Sound vm (bcastCalls buffers root) n root turn fun _ => True where
  pulled := fun _ _ => rfl
  pushed := fun _ _ => rfl
  pull := by
    intro rank valid notRoot w id offers _
    have agree := arguments.agree rank valid
    have rootBuffer := arguments.valid root arguments.rootValid
    have empty : (buffers rank).count = 0 → ((buffers root).count - 0) * (buffers root).datatype.len = 0 := by
      intro none
      rw [Buffer.bytes, none, Nat.zero_mul] at agree
      exact agree.symm
    obtain ⟨done, exec, moved, count⟩ := readFromOwner_block _ copies rfl
      (rfl : (0 : Int) = (0 : Nat)) (rfl : (0 : Int) = (0 : Nat)) offers (requested_eq empty) agree
      (arguments.valid rank valid).countRange (arguments.valid rank valid).bytesRange
      rootBuffer.bytesRange (Nat.zero_add _).le (Nat.zero_add _).le
    refine ⟨done, ?_, count⟩
    simp only [bcastPlan, if_neg notRoot]
    exact { toMoved := moved, exec := exec }
  push := by
    intro rank valid notRoot _ w id offers
    have memberBuffer := arguments.valid rank valid
    obtain ⟨done, exec, moved, _⟩ := writeToOwner_block _ copies rfl (rfl : (0 : Int) = (0 : Nat))
      (rfl : (0 : Int) = (0 : Nat)) offers (arguments.agree rank valid).symm memberBuffer.countRange
      memberBuffer.bytesRange le_rfl (Nat.zero_add _).le
    refine ⟨done, ?_⟩
    simp only [bcastPlan, if_neg notRoot]
    exact { toMoved := moved, exec := exec }
  member := by
    intro past w self made notRoot arriving _
    have valid := arguments.valid self (arriving.joining.bound self List.mem_cons_self)
    exact mpiIbcast_member arriving arguments.rootValid notRoot
      (fun missing => missing.2 (by exact_mod_cast valid.given missing.1)) rfl
  root := by
    intro past w made arriving _
    have valid := arguments.valid root arguments.rootValid
    refine (mpiIbcast_root arriving
      (fun missing => missing.2 (by exact_mod_cast valid.given missing.1)) rfl).mono ?_
    rintro result ⟨made', entered⟩
    refine ⟨w.claimed root, made', ?_, trivial, ?_⟩
    · simp [bcastPlan, World.claimed]
    · rwa [serve_map] at entered

/-- The root's buffer never changes. -/
theorem bcast_unchanged {early : Nat → Prop} {t : Nat} {origin s : Sys}
    (arguments : BcastArguments buffers n root)
    (exchanged : (bcastPlan buffers root).Exchanged n root t early origin s) :
    readAll s.world.mem ((buffers root).view root) = readAll origin.world.mem ((buffers root).view root) := by
  refine readAll_congr fun location member => exchanged.untouched fun rank valid inside => ?_
  by_cases isRoot : rank = root
  · simp [bcastPlan, isRoot] at inside
  · simp only [bcastPlan, if_neg isRoot] at inside
    exact Buffer.disjoint_of_rank _ _ (Ne.symm isRoot) _ _ _ _
      (arguments.valid root arguments.rootValid).given member inside

/-- A rank whose copy has been made has the root's data stream. -/
theorem bcast_received {early : Nat → Prop} {t : Nat} {origin s : Sys}
    (arguments : BcastArguments buffers n root)
    (exchanged : (bcastPlan buffers root).Exchanged n root t early origin s) {rank : Nat}
    (delivered : Holds s.world.mem ((bcastPlan buffers root).copy rank).target
      (readAll origin.world.mem ((bcastPlan buffers root).copy rank).source)) :
    Holds s.world.mem ((buffers rank).view rank)
      (readAll origin.world.mem ((buffers root).view root)) := by
  by_cases isRoot : rank = root
  · subst isRoot
    exact Holds.of_readAll (bcast_unchanged arguments exchanged)
  · simpa [bcastPlan, isRoot] using delivered

end Bcast

/-- In every run of `MPI_Ibcast`: when every call has returned every other rank's buffer holds the root's
    data stream, the root's buffer never changes, and the root's request is only complete when every
    other rank has its data. -/
theorem ibcast_delivers {vm : ProcessVm} (copies : CopiesAll vm) {buffers : Nat → Buffer} {n root t : Nat}
    {origin s : Sys} (ready : origin.Ready n t) (several : 2 ≤ n) (limit : n ≤ 10000)
    (arguments : BcastArguments buffers n root)
    (run : Reaches vm (once (bcastCalls buffers root)) origin s) :
    (s.Complete → ∀ rank < n,
      Holds s.world.mem ((buffers rank).view rank) (readAll origin.world.mem ((buffers root).view root))) ∧
    readAll s.world.mem ((buffers root).view root) = readAll origin.world.mem ((buffers root).view root) ∧
    ((s.ranks root).pos = 1 → (s.ranks root).cont = [] →
      (∀ id ∈ (s.ranks root).requests, (s.world.cookies id).Ready root) → ∀ rank < n,
      Holds s.world.mem ((buffers rank).view rank)
        (readAll origin.world.mem ((buffers root).view root))) := by
  have suits := Schedule.Suits.of_root several arguments.rootValid
  have sound := bcastPlan_sound copies arguments (t % umpiOutstandingCollectiveOperations)
  have exchanged := sound.exchanged ready suits (by omega) (fun _ _ _ _ => trivial) run.unconditional
  have independent := bcastPlan_independent arguments
  refine ⟨fun complete rank valid => bcast_received arguments exchanged ?_,
    bcast_unchanged arguments exchanged, ?_⟩
  · exact exchanged.delivered arguments.rootValid independent complete valid
  · intro called returned finished rank valid
    exact bcast_received arguments exchanged
      (exchanged.delivered_of_root suits sound.pulled independent called returned finished valid)

/-- One character at the start of every rank's memory. -/
def charAtZero (_ : Nat) : Buffer :=
  { buf := .addr 0, count := 1, datatype := Datatype.mpiChar }

theorem charAtZero_valid (rank : Nat) : (charAtZero rank).Valid where
  countRange := (by decide : 1 < 2 ^ 31)
  bytesRange := (by decide : 1 * Datatype.mpiChar.len < 2 ^ 63)
  given := nofun

/-- The root comes last and borrows the other rank's cookie. -/
theorem ibcast_delivers_rootLast :
    ∃ s, (Sys.init 2 fun location => if location.region = .heap 0 then 7 else 0).run copyingVm
        (once (bcastCalls charAtZero 0)) [.call 1, .call 0, .act 0, .act 0] = .ok s ∧ s.Complete ∧
      Holds s.world.mem ((charAtZero 1).view 1) [7] := by
  have runs : ∃ s, (Sys.init 2 fun location => if location.region = .heap 0 then 7 else 0).run copyingVm
      (once (bcastCalls charAtZero 0)) [.call 1, .call 0, .act 0, .act 0] = .ok s ∧ s.Complete := by
    exact ⟨_, rfl, .of_checks rfl (by decide) (by decide) (by decide)⟩
  obtain ⟨s, ran, complete⟩ := runs
  have arguments : BcastArguments charAtZero 2 0 :=
    { rootValid := by decide
      valid := fun rank _ => charAtZero_valid rank
      agree := fun _ _ => rfl }
  exact ⟨s, ran, complete, (ibcast_delivers copyingVm_copies (ready_init 2 _) le_rfl (by decide) arguments
    (reaches_of_run ran)).1 complete 1 (by decide)⟩

end Umpi
