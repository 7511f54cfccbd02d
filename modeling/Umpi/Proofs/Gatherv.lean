/-
Module: Umpi.Proofs.Gatherv
Layer: Proofs
Purpose: When `MPI_Igatherv` honours its displacements. Both paths take the right displacement, but both
  bound a transfer by the sum of the counts instead of by the end of the last block. So a layout works
  exactly when every other rank's block ends within that many elements, and the sum is an `int`; layouts
  with gaps are refused although their blocks are disjoint.
Imports: Umpi.Proofs.Completion, Umpi.Proofs.Gather
Trusted boundary: none
Main exports: BlockVector, gathervCalls, GathervArguments, GathervFits, gathervPlan,
  igatherv_honours_displs_iff, igatherv_refuses_gap
Open obligations: none
-/
import Umpi.Proofs.Completion
import Umpi.Proofs.Gather

namespace Umpi

open Foundation Sys

/-- The receive buffer of a gatherv: `counts rank` elements from element `displs rank` on are for the
    contribution of `rank`. -/
structure BlockVector where
  buf : Pointer
  datatype : Datatype
  counts : Nat → Nat
  displs : Nat → Nat

namespace BlockVector

/-- The elements for the contribution of `rank`, when the buffer is the rank `owner`'s. -/
def block (vector : BlockVector) (owner rank : Nat) : List Loc :=
  streamLocs (vector.buf.loc owner) vector.datatype.iovec (vector.displs rank) (vector.counts rank)

/-- The number of elements that `n` ranks contribute. -/
def total (vector : BlockVector) (n : Nat) : Nat := ∑ rank ∈ Finset.range n, vector.counts rank

/-- The blocks of two ranks have no element in common. -/
def Apart (vector : BlockVector) (rank other : Nat) : Prop :=
  vector.counts rank = 0 ∨ vector.counts other = 0 ∨
    vector.displs rank + vector.counts rank ≤ vector.displs other ∨
    vector.displs other + vector.counts other ≤ vector.displs rank

theorem length_block (vector : BlockVector) (owner rank : Nat) :
    (vector.block owner rank).length = vector.counts rank * vector.datatype.len :=
  length_streamLocs _ vector.datatype.wellFormed _ _

theorem block_disjoint (vector : BlockVector) (owner : Nat) {rank other : Nat}
    (apart : vector.Apart rank other) :
    (vector.block owner rank).Disjoint (vector.block owner other) := by
  rcases apart with none | none | before | after
  · simp [block, none]
  · simp [block, none]
  · exact disjoint_streamLocs vector.datatype.wellFormed (by exact_mod_cast before)
  · exact (disjoint_streamLocs vector.datatype.wellFormed (by exact_mod_cast after)).symm

end BlockVector

/-- Every rank contributes `send rank`. Only the root's `recv` is looked at. -/
def gathervCalls (send : Nat → Buffer) (recv : Nat → BlockVector) (root : Nat) (rank : Nat) : Call :=
  .gatherv (send rank).buf (send rank).count (some (send rank).datatype.iovec) (recv rank).buf
    (some fun other => (recv rank).counts other) (some fun other => (recv rank).displs other)
    (some (recv rank).datatype.iovec) root .world

/-- Where the contribution of a rank is when it calls. -/
def gathervSource (send : Nat → Buffer) (recv : Nat → BlockVector) (root rank : Nat) : List Loc :=
  if Contributes send root rank then (send rank).view rank else (recv root).block root rank

/-- Arguments of a gatherv that agree on the number of bytes of every contribution, with disjoint blocks.
    Counts and displacements are of type `int`, the buffers fit into an address space, and the root's own
    contribution lies outside of the blocks. -/
structure GathervArguments (send : Nat → Buffer) (recv : Nat → BlockVector) (n root : Nat) : Prop where
  rootValid : root < n
  sendValid : ∀ rank < n, (send rank).Valid
  recvGiven : (recv root).buf ≠ .null
  counts : ∀ rank < n, (recv root).counts rank < 2 ^ 31
  displs : ∀ rank < n, (recv root).displs rank < 2 ^ 31
  bytes : (recv root).total n * (recv root).datatype.len < 2 ^ 63
  spans : ∀ rank < n,
    ((recv root).displs rank + (recv root).counts rank) * (recv root).datatype.len < 2 ^ 63
  agree : ∀ rank < n, Contributes send root rank →
    (send rank).bytes = (recv root).counts rank * (recv root).datatype.len
  disjoint : ∀ rank < n, ∀ other < n, rank ≠ other → (recv root).Apart rank other
  apart : Contributes send root root → ∀ rank < n,
    ((send root).view root).Disjoint ((recv root).block root rank)

/-- Every block but the root's own ends within as many elements as are contributed, and that number is an
    `int`. -/
def GathervFits (recv : Nat → BlockVector) (n root : Nat) : Prop :=
  (recv root).total n < 2 ^ 31 ∧
    ∀ rank < n, rank ≠ root → (recv root).displs rank + (recv root).counts rank ≤ (recv root).total n

/-- The contributions go to the blocks of the root's buffer. -/
def gathervPlan (send : Nat → Buffer) (recv : Nat → BlockVector) (n root turn : Nat) : RootedPlan where
  offer := fun rank =>
    if rank = root then
      { buf := (recv root).buf.loc root
        iovec := (recv root).datatype.iovec
        size := (recv root).total n
        count := 0 }
    else
      { buf := (send rank).buf.loc rank
        iovec := (send rank).datatype.iovec
        size := (send rank).count
        count := (send rank).count }
  copy := fun rank =>
    if Contributes send root rank then
      { source := (send rank).view rank, target := (recv root).block root rank }
    else { source := [], target := [] }
  pull := fun rank id =>
    .writeToOwner id ((send rank).buf.loc rank) (send rank).datatype.iovec (send rank).count (.displs turn)
      (.elems 0)
  push := fun rank id =>
    .readFromOwner id ((recv root).buf.loc root) (recv root).datatype.iovec ((recv root).total n)
      ((recv root).counts rank) (.elems ((recv root).displs rank)) (.elems 0)
  agreed := fun displs => displs = fun rank => ((recv root).displs rank : Int)

/-! ### The sum of the counts -/

/-- The sum of the counts is computed exactly as long as it is an `int`. -/
theorem totalcount_eq {vector : BlockVector} {n : Nat} (range : vector.total n < 2 ^ 31) :
    totalcount (fun rank => (vector.counts rank : Int)) n = .ok (vector.total n : Int) := by
  induction n with
  | zero => rfl
  | succ n ih =>
      have split : vector.total (n + 1) = vector.total n + vector.counts n := Finset.sum_range_succ _ _
      rw [totalcount, ih (by omega), Outcome.ok_bind, split]
      push_cast
      exact addInt_eq_ok.mpr ⟨⟨by omega, by omega⟩, rfl⟩

/-- A sum that is not an `int` overflows. -/
theorem totalcount_overflow {vector : BlockVector} {n : Nat} (large : 2 ^ 31 ≤ vector.total n) :
    totalcount (fun rank => (vector.counts rank : Int)) n = .undefined .overflow := by
  induction n with
  | zero => simp [BlockVector.total] at large
  | succ n ih =>
      have split : vector.total (n + 1) = vector.total n + vector.counts n := Finset.sum_range_succ _ _
      by_cases before : 2 ^ 31 ≤ vector.total n
      · rw [totalcount, ih before, Outcome.undefined_bind]
      · rw [totalcount, totalcount_eq (by omega), Outcome.ok_bind, addInt, if_neg]
        rintro ⟨_, high⟩
        omega

section Gatherv

variable {vm : ProcessVm} {send : Nat → Buffer} {recv : Nat → BlockVector} {n root turn : Nat}

/-! ### Entering -/

/-- A rank other than the root joins. -/
theorem gathervPlan_member {past : List Nat} {w : World} {self : Nat} {made : Nat → Nat} (rootValid : root < n)
    (valid : (send self).Valid) (notRoot : self ≠ root)
    (standing : Standing (.rooted root) n past w (w.turnOf self) made)
    (joining : Schedule.Joining n (self :: past)) (here : w.turnOf self = turn) :
    ((gathervCalls send recv root self).enter vm w self).Yields fun result => ∃ made',
      Entered (.rooted root) n past w self (w.claimed self) ((gathervPlan send recv n root turn).offer self)
        (if root ∈ past then [(gathervPlan send recv n root turn).pull self (made root)] else []) result made
        made' := by
  have sendGiven : ¬ ((send self).buf = .null ∧ ((send self).count : Int) ≠ 0) :=
    fun missing => missing.2 (by exact_mod_cast valid.given missing.1)
  subst here
  simp only [gathervPlan, if_neg notRoot]
  show (mpiIgatherv vm w self (send self).buf (send self).count (some (send self).datatype.iovec)
    (recv self).buf (some fun other => ((recv self).counts other : Int))
    (some fun other => ((recv self).displs other : Int)) (some (recv self).datatype.iovec) root
    .world).Yields _
  exact mpiIgatherv_member standing joining rootValid notRoot sendGiven rfl

/-- The root joins, if the sizes of its own block agree. The sum of the counts is then an `int`. -/
theorem gathervPlan_root {past : List Nat} {w : World} {made : Nat → Nat} (valid : (send root).Valid)
    (given : (recv root).buf ≠ .null)
    (agree : Contributes send root root → (send root).bytes = (recv root).counts root * (recv root).datatype.len)
    (arriving : Arriving (.rooted root) n past w root made) (here : w.turnOf root = turn) :
    ((gathervCalls send recv root root).enter vm w root).Yields fun result =>
      (recv root).total n < 2 ^ 31 ∧ ∃ made',
        Entered (.rooted root) n past w root
          (gathervOwn vm (w.claimed root) root turn (send root).buf (send root).count
            (send root).datatype.iovec ((recv root).buf.loc root)
            (fun other => ((recv root).counts other : Int)) (fun other => ((recv root).displs other : Int))
            (recv root).datatype.iovec)
          ((gathervPlan send recv n root turn).offer root)
          (serveRanks (gathervPlan send recv n root turn).push made past.reverse) result made made' := by
  have fresh := arriving.joining.fresh
  have short : past.length < n := arriving.joining.length_le
  have sendGiven : ¬ ((send root).buf = .null ∧ ((send root).count : Int) ≠ 0) :=
    fun missing => missing.2 (by exact_mod_cast valid.given missing.1)
  have bytesAgree : (send root).buf ≠ .inPlace → bytesDiffer (send root).count
      (send root).datatype.iovec ((recv root).counts root) (recv root).datatype.iovec = false := by
    intro outOfPlace
    exact @bytesDiffer_eq_false (send root)
      { buf := .null, count := (recv root).counts root, datatype := (recv root).datatype }
      (agree fun _ => outOfPlace)
  subst here
  show (mpiIgatherv vm w root (send root).buf (send root).count (some (send root).datatype.iovec)
    (recv root).buf (some fun other => ((recv root).counts other : Int))
    (some fun other => ((recv root).displs other : Int)) (some (recv root).datatype.iovec) root
    .world).Yields _
  refine (mpiIgatherv_root arriving sendGiven (fun _ => rfl) given bytesAgree rfl).mono ?_
  rintro result ⟨total, sum, made', entered⟩
  have range : (recv root).total n < 2 ^ 31 := by
    by_contra large
    rw [totalcount_overflow (Nat.le_of_not_lt large)] at sum
    cases sum
  obtain rfl := Outcome.ok.inj ((totalcount_eq range).symm.trans sum)
  have served : serve (fun id => .readFromOwner id ((recv root).buf.loc root) (recv root).datatype.iovec
      ((recv root).total n) ((recv root).counts (w.cookies id).src.toNat)
      (.elems ((recv root).displs (w.cookies id).src.toNat)) (.elems 0)) (past.reverse.map made) =
      serveRanks (gathervPlan send recv n root (w.turnOf root)).push made past.reverse := by
    unfold serve serveRanks
    rw [List.flatMap_map]
    refine List.flatMap_congr fun rank member => ?_
    have src : (w.cookies (made rank)).src = rank := by
      refine arriving.standing.src rank ?_
      rw [Schedule.box, if_neg short.ne, if_neg fresh]
      exact member
    simp only [gathervPlan, src, Int.toNat_natCast]
  rw [served] at entered
  exact ⟨range, made', by simpa [gathervPlan] using entered⟩

/-- Before it joins the root has put its own block in place. -/
theorem gathervOwn_mem (copies : CopiesAll vm) (arguments : GathervArguments send recv n root) (w : World)
    (turn' : Nat) :
    (gathervOwn vm w root turn' (send root).buf (send root).count (send root).datatype.iovec
      ((recv root).buf.loc root) (fun other => ((recv root).counts other : Int))
      (fun other => ((recv root).displs other : Int)) (recv root).datatype.iovec).mem =
      copyAll w.mem ((gathervPlan send recv n root turn).copy root).source
        ((gathervPlan send recv n root turn).copy root).target := by
  unfold gathervOwn
  by_cases inPlace : (send root).buf = .inPlace
  · have nothing : ¬ Contributes send root root := fun contributes => contributes rfl inPlace
    simp [gathervPlan, nothing, inPlace]
  · have contributes : Contributes send root root := fun _ => inPlace
    have counted : (recv root).counts root * (recv root).datatype.len < 2 ^ 63 :=
      (Nat.mul_le_mul_right _ (Nat.le_add_left _ _)).trans_lt (arguments.spans root arguments.rootValid)
    simp only [if_neg inPlace, World.setSlot_mem]
    rw [copy_block copies rfl rfl 0 _ (arguments.agree root arguments.rootValid contributes) counted]
    simp [gathervPlan, contributes, BlockVector.block, Buffer.elements, Buffer.view]

/-- The root's own block is in place when it joins, and its displacements are published. -/
theorem gathervPlan_rootJoins (copies : CopiesAll vm) (arguments : GathervArguments send recv n root)
    {past : List Nat} {w : World} {made : Nat → Nat} (arriving : Arriving (.rooted root) n past w root made)
    (here : w.turnOf root = turn) :
    ((gathervCalls send recv root root).enter vm w root).Yields fun result => ∃ mid made',
      mid.mem = copyAll w.mem ((gathervPlan send recv n root turn).copy root).source
        ((gathervPlan send recv n root turn).copy root).target ∧
      (gathervPlan send recv n root turn).agreed (mid.slots turn).displs ∧
      Entered (.rooted root) n past w root mid ((gathervPlan send recv n root turn).offer root)
        (serveRanks (gathervPlan send recv n root turn).push made past.reverse) result made made' := by
  refine (gathervPlan_root (arguments.sendValid root arguments.rootValid) arguments.recvGiven
    (arguments.agree root arguments.rootValid) arriving here).mono ?_
  rintro result ⟨_, made', entered⟩
  exact ⟨_, made', gathervOwn_mem copies arguments (w.claimed root) turn, by simp [gathervPlan, gathervOwn],
    entered⟩

/-- Once it has entered the slot a call is accepted. -/
theorem gathervCalls_accepted (arguments : GathervArguments send recv n root)
    (range : (recv root).total n < 2 ^ 31) : Accepted vm (gathervCalls send recv root) n := by
  intro w self entry size valid entered
  have own := arguments.sendValid self valid
  have rootValid := arguments.rootValid
  have accepted : ¬ (((send self).buf = .null ∧ ((send self).count : Int) ≠ 0) ∨
      ((send self).buf ≠ .inPlace ∧ (some (send self).datatype.iovec : MpiDatatype) = none) ∨
      (root : Int) < 0 ∨ (w.size : Int) ≤ root ∨ MpiComm.world ≠ .world) := by
    rintro (⟨null, some⟩ | ⟨_, noType⟩ | low | high | other)
    · exact some (by exact_mod_cast own.given null)
    · cases noType
    · omega
    · omega
    · exact other rfl
  obtain ⟨turn, claimed⟩ := entry
  obtain ⟨_, same, _⟩ := getCurrentSlot_eq_ok entered
  have sizeClaimed : claimed.size = n := by
    rw [same]
    exact size
  show (∃ result, mpiIgatherv vm w self (send self).buf (send self).count
    (some (send self).datatype.iovec) (recv self).buf (some fun other => ((recv self).counts other : Int))
    (some fun other => ((recv self).displs other : Int)) (some (recv self).datatype.iovec) root
    .world = .ok result) ∨ mpiIgatherv vm w self (send self).buf (send self).count
    (some (send self).datatype.iovec) (recv self).buf (some fun other => ((recv self).counts other : Int))
    (some fun other => ((recv self).displs other : Int)) (some (recv self).datatype.iovec) root
    .world = .undefined .emptyList
  unfold mpiIgatherv
  simp only [if_neg accepted, entered, Outcome.ok_bind]
  by_cases isRoot : self = root
  · subst isRoot
    have bytesAgree : (send self).buf ≠ .inPlace → bytesDiffer (send self).count
        (send self).datatype.iovec ((recv self).counts self) (recv self).datatype.iovec = false := by
      intro outOfPlace
      exact @bytesDiffer_eq_false (send self)
        { buf := .null, count := (recv self).counts self, datatype := (recv self).datatype }
        (arguments.agree self rootValid fun _ => outOfPlace)
    have requested : ∀ mid : World, mid.size = n →
        (∃ result, rootGathervRequest mid self turn ((recv self).buf.loc self)
          (fun other => ((recv self).counts other : Int)) (fun other => ((recv self).displs other : Int))
          (recv self).datatype.iovec = .ok result) ∨
        rootGathervRequest mid self turn ((recv self).buf.loc self)
          (fun other => ((recv self).counts other : Int)) (fun other => ((recv self).displs other : Int))
          (recv self).datatype.iovec = .undefined .emptyList := by
      intro mid sizeMid
      unfold rootGathervRequest rootRequest
      rw [sizeMid, totalcount_eq range, Outcome.ok_bind]
      dsimp only
      split
      · split
        · exact Or.inl ⟨_, rfl⟩
        · exact Or.inr rfl
      · exact Or.inl ⟨_, rfl⟩
    simp only [if_true, mismatch_eq (fun _ => rfl) bytesAgree, Outcome.ok_bind, Bool.false_eq_true,
      or_false, if_neg arguments.recvGiven, deref]
    split
    · exact requested _ sizeClaimed
    · exact requested _ sizeClaimed
  · have notRoot : ¬ (self : Int) = root := by exact_mod_cast isRoot
    simp only [if_neg notRoot, deref, Outcome.ok_bind, Outcome.pure_eq]
    exact Or.inl ⟨_, rfl⟩

/-! ### Layouts that fit -/

theorem gathervPlan_independent (arguments : GathervArguments send recv n root) (turn : Nat) :
    Independent (gathervPlan send recv n root turn).copy (List.range n) where
  sameLength := by
    intro rank member
    by_cases contributes : Contributes send root rank
    · simp only [gathervPlan, if_pos contributes, BlockVector.length_block, Buffer.length_view]
      exact (arguments.agree rank (List.mem_range.mp member) contributes).symm
    · simp [gathervPlan, contributes]
  targets := by
    intro rank member other member' different
    by_cases contributes : Contributes send root rank
    · by_cases contributes' : Contributes send root other
      · simp only [gathervPlan, if_pos contributes, if_pos contributes']
        exact (recv root).block_disjoint root (arguments.disjoint rank (List.mem_range.mp member) other
          (List.mem_range.mp member') different)
      · simp [gathervPlan, contributes']
    · simp [gathervPlan, contributes]
  sources := by
    intro rank member other member' _
    by_cases contributes : Contributes send root rank
    · by_cases contributes' : Contributes send root other
      · simp only [gathervPlan, if_pos contributes, if_pos contributes']
        by_cases isRoot : rank = root
        · subst isRoot
          exact arguments.apart contributes other (List.mem_range.mp member')
        · let blocks : Buffer := { buf := (recv root).buf, count := 0, datatype := (recv root).datatype }
          exact Buffer.disjoint_of_rank (send rank) blocks isRoot _ ((recv root).displs other) _ _
            (arguments.sendValid rank (List.mem_range.mp member)).given
      · simp [gathervPlan, contributes']
    · simp [gathervPlan, contributes]

theorem gathervPlan_checked (turn : Nat) : (gathervPlan send recv n root turn).Checked where
  pull := fun _ _ => trivial
  push := fun _ _ => trivial

theorem gathervPlan_sound (copies : CopiesAll vm) (arguments : GathervArguments send recv n root)
    (fits : GathervFits recv n root) (turn : Nat) :
    (gathervPlan send recv n root turn).Sound vm (gathervCalls send recv root) n root turn
      fun _ => True where
  pulled := fun _ _ => rfl
  pushed := fun _ _ => rfl
  pull := by
    intro rank valid notRoot w id offers agreed
    simp only [gathervPlan, if_true] at offers agreed
    have agree := arguments.agree rank valid (contributes_of_ne notRoot)
    have offset : (Offset.displs turn).eval w rank id = .ok ((recv root).displs rank : Int) := by
      rw [Offset.eval, agreed]
    obtain ⟨done, exec, moved, count⟩ := writeToOwner_block ((send rank).buf.loc rank) copies rfl rfl
      (rfl : (0 : Int) = (0 : Nat)) offers agree fits.1 arguments.bytes (Nat.zero_le _)
      (fits.2 rank valid notRoot)
    refine ⟨done, ?_, ?_⟩
    · simp only [gathervPlan, if_pos (contributes_of_ne notRoot)]
      refine { toMoved := moved, exec := ?_ }
      rw [Action.exec, offset]
      exact exec
    · rw [count]
      simp only [gathervPlan, if_true]
      split <;> omega
  push := by
    intro rank valid notRoot _ w id offers
    simp only [gathervPlan, if_neg notRoot] at offers
    have agree := arguments.agree rank valid (contributes_of_ne notRoot)
    -- who contributes nothing has nothing to read, although 0 asks for everything
    have empty : (recv root).counts rank = 0 →
        ((send rank).count - 0) * (send rank).datatype.len = 0 := by
      intro none
      rw [Buffer.bytes, none, Nat.zero_mul] at agree
      exact agree
    obtain ⟨done, exec, moved, _⟩ := readFromOwner_block ((recv root).buf.loc root) copies rfl rfl
      (rfl : (0 : Int) = (0 : Nat)) offers (requested_eq empty) agree.symm fits.1 arguments.bytes
      (arguments.sendValid rank valid).bytesRange (Nat.zero_add _).le (fits.2 rank valid notRoot)
    refine ⟨done, ?_⟩
    simp only [gathervPlan, if_pos (contributes_of_ne notRoot)]
    exact { toMoved := moved, exec := exec }
  member := fun _ _ _ _ notRoot arriving here =>
    gathervPlan_member arguments.rootValid
      (arguments.sendValid _ (arriving.joining.bound _ List.mem_cons_self)) notRoot arriving.standing
      arriving.joining here
  root := fun _ _ _ arriving here => gathervPlan_rootJoins copies arguments arriving here

/-! ### Blocks that end too late -/

section Late

variable {rank id : Nat} {w : World}

/-- A rank whose block ends too late is refused by the root's cookie. -/
theorem gathervPull_refused (arguments : GathervArguments send recv n root) (valid : rank < n)
    (notRoot : rank ≠ root) (late : (recv root).total n < (recv root).displs rank + (recv root).counts rank)
    (iovec : (w.cookies id).iovec = (recv root).datatype.iovec)
    (size : (w.cookies id).size = ((recv root).total n : Nat))
    (slot : (w.slots turn).displs = fun other => ((recv root).displs other : Int)) :
    ((gathervPlan send recv n root turn).pull rank id).exec vm w rank =
      .ok (w.finishTransfer id mpiFail 0) := by
  have agree := arguments.agree rank valid (contributes_of_ne notRoot)
  have lenPos : 0 < (recv root).datatype.iovec.len := (recv root).datatype.lenPos
  have span : ((recv root).displs rank + (recv root).counts rank) * (recv root).datatype.iovec.len <
    2 ^ 63 := arguments.spans rank valid
  have needed : (recv root).displs rank * (recv root).datatype.iovec.len +
      (send rank).count * (send rank).datatype.iovec.len =
      ((recv root).displs rank + (recv root).counts rank) * (recv root).datatype.iovec.len := by
    rw [Nat.add_mul]
    exact congrArg _ agree
  have refused := writeToOwner_refused vm ((send rank).buf.loc rank)
    (rfl : ((recv root).displs rank : Int) = _) 0 iovec size (arguments.sendValid rank valid).bytesRange
    arguments.bytes (by rw [← needed] at span; omega)
    (by rw [needed]; exact Nat.mul_lt_mul_of_pos_right late lenPos)
  have offset : (Offset.displs turn).eval w rank id = .ok ((recv root).displs rank : Int) := by
    rw [Offset.eval, slot]
  simp only [gathervPlan]
  rw [Action.exec, offset]
  exact refused

/-- Neither can the root put such a block into its buffer. -/
theorem gathervPush_refused (arguments : GathervArguments send recv n root) (valid : rank < n)
    (notRoot : rank ≠ root) (late : (recv root).total n < (recv root).displs rank + (recv root).counts rank)
    (iovec : (w.cookies id).iovec = (send rank).datatype.iovec)
    (size : (w.cookies id).size = (send rank).count) :
    ((gathervPlan send recv n root turn).push rank id).exec vm w root =
      .ok (w.finishTransfer id mpiFail 0) := by
  have agree := arguments.agree rank valid (contributes_of_ne notRoot)
  have lenPos : 0 < (recv root).datatype.iovec.len := (recv root).datatype.lenPos
  have span : ((recv root).displs rank + (recv root).counts rank) * (recv root).datatype.iovec.len <
    2 ^ 63 := arguments.spans rank valid
  have split : ((recv root).displs rank + (recv root).counts rank) * (recv root).datatype.iovec.len =
      (recv root).displs rank * (recv root).datatype.iovec.len +
        (recv root).counts rank * (recv root).datatype.iovec.len := Nat.add_mul _ _ _
  have empty : (recv root).counts rank = 0 →
      ((send rank).count - 0) * (send rank).datatype.iovec.len = 0 := by
    intro none
    rw [Buffer.bytes, none, Nat.zero_mul] at agree
    exact agree
  have asked : requested ((recv root).counts rank) (send rank).count 0 (send rank).datatype.iovec.len
      (recv root).datatype.iovec.len = (recv root).counts rank := requested_eq empty
  have exceeds := Nat.mul_lt_mul_of_pos_right late lenPos
  rw [split] at span exceeds
  exact readFromOwner_refused lenPos rfl rfl (rfl : (0 : Int) = (0 : Nat)) iovec size (Nat.zero_le _)
    (arguments.sendValid rank valid).bytesRange arguments.bytes (by omega)
    (by rw [asked]; exact arguments.counts rank valid) (by rw [asked]; omega) (by rw [asked]; exact exceeds)

end Late

end Gatherv

/-- When every call has returned every contribution is in its block. -/
theorem gatherv_placed {send : Nat → Buffer} {recv : Nat → BlockVector} {n root turn t : Nat} {early : Nat → Prop}
    {origin s : Sys} (arguments : GathervArguments send recv n root)
    (exchanged : (gathervPlan send recv n root turn).Exchanged n root t early origin s) (complete : s.Complete)
    {rank : Nat} (valid : rank < n) (contributes : Contributes send root rank) :
    Holds s.world.mem ((recv root).block root rank) (readAll origin.world.mem ((send rank).view rank)) := by
  have delivered := exchanged.delivered arguments.rootValid (gathervPlan_independent arguments turn) complete valid
  simpa only [gathervPlan, if_pos contributes] using delivered

/-- Nothing else ever changes. -/
theorem gatherv_untouched {send : Nat → Buffer} {recv : Nat → BlockVector} {n root turn t : Nat} {early : Nat → Prop}
    {origin s : Sys} (exchanged : (gathervPlan send recv n root turn).Exchanged n root t early origin s)
    {location : Loc}
    (outside : ∀ rank < n, Contributes send root rank → location ∉ (recv root).block root rank) :
    s.world.mem location = origin.world.mem location := by
  apply exchanged.untouched
  intro rank valid inside
  by_cases contributes : Contributes send root rank
  · simp only [gathervPlan, if_pos contributes] at inside
    exact outside rank valid contributes inside
  · simp [gathervPlan, contributes] at inside

/-- What is expected of a gatherv in every state of every run: every call and wait has returned
    `MPI_SUCCESS`, no step is undefined, everybody can still return, and when everybody has, every block
    holds its rank's contribution and nothing else has changed. -/
structure DisplsHonoured (vm : ProcessVm) (send : Nat → Buffer) (recv : Nat → BlockVector) (n root : Nat)
    (origin s : Sys) : Prop where
  clean : s.Clean
  defined : s.Defined vm (once (gathervCalls send recv root))
  finishes : ∃ s', Reaches vm (once (gathervCalls send recv root)) s s' ∧ s'.Finished
  placed : s.Finished → ∀ rank < n, Contributes send root rank →
    Holds s.world.mem ((recv root).block root rank) (readAll origin.world.mem ((send rank).view rank))
  untouched : s.Finished → ∀ location,
    (∀ rank < n, Contributes send root rank → location ∉ (recv root).block root rank) →
    s.world.mem location = origin.world.mem location

section Honoured

variable {vm : ProcessVm} {send : Nat → Buffer} {recv : Nat → BlockVector} {n root t : Nat}
  {origin s : Sys}

/-- A layout that fits is honoured. -/
theorem displsHonoured_of_fits (copies : CopiesAll vm) (ready : origin.Ready n t) (several : 2 ≤ n)
    (limit : n ≤ 10000) (arguments : GathervArguments send recv n root) (fits : GathervFits recv n root)
    (run : Reaches vm (once (gathervCalls send recv root)) origin s) :
    DisplsHonoured vm send recv n root origin s := by
  have suits := Schedule.Suits.of_root several arguments.rootValid
  have sound := gathervPlan_sound copies arguments fits (t % umpiOutstandingCollectiveOperations)
  have checked := @gathervPlan_checked send recv n root (t % umpiOutstandingCollectiveOperations)
  have accepted := @gathervCalls_accepted vm send recv n root arguments fits.1
  have exchanged := sound.exchanged ready suits (by omega) (fun _ _ _ _ => trivial) run.unconditional
  exact
    { clean := (sound.orderly checked ready suits (by omega) run).clean
      defined := sound.defined checked ready suits (by omega) accepted run
      finishes := sound.finishes checked ready suits (by omega) accepted run
      placed := fun finished _ valid contributes =>
        gatherv_placed arguments exchanged finished.complete valid contributes
      untouched := fun _ _ outside => gatherv_untouched exchanged outside }

/-! ### Layouts that do not fit -/

/-- When the sum of the counts is not an `int` the root's call is undefined. -/
theorem rootCall_overflows (ready : origin.Ready n t) (arguments : GathervArguments send recv n root)
    (large : 2 ^ 31 ≤ (recv root).total n) :
    origin.step vm (once (gathervCalls send recv root)) (.call root) = .undefined .overflow := by
  have rootValid := arguments.rootValid
  have own := arguments.sendValid root rootValid
  have ledger : Ledger (.rooted root) n t origin (gathervPlan send recv n root 0).offer [] id origin :=
    Ledger.start ready id
  have entry := (Orderly.start ready).entry ledger rootValid List.not_mem_nil
  have accepted : ¬ (((send root).buf = .null ∧ ((send root).count : Int) ≠ 0) ∨
      ((send root).buf ≠ .inPlace ∧ (some (send root).datatype.iovec : MpiDatatype) = none) ∨
      (root : Int) < 0 ∨ (origin.world.size : Int) ≤ root ∨ MpiComm.world ≠ .world) := by
    rintro (⟨null, some⟩ | ⟨_, noType⟩ | low | high | other)
    · exact some (by exact_mod_cast own.given null)
    · cases noType
    · omega
    · rw [ready.size] at high
      omega
    · exact other rfl
  have bytesAgree : (send root).buf ≠ .inPlace → bytesDiffer (send root).count
      (send root).datatype.iovec ((recv root).counts root) (recv root).datatype.iovec = false := by
    intro outOfPlace
    exact @bytesDiffer_eq_false (send root)
      { buf := .null, count := (recv root).counts root, datatype := (recv root).datatype }
      (arguments.agree root rootValid fun _ => outOfPlace)
  have requested : ∀ (mid : World) (turn : Nat), mid.size = n →
      rootGathervRequest mid root turn ((recv root).buf.loc root)
        (fun other => ((recv root).counts other : Int)) (fun other => ((recv root).displs other : Int))
        (recv root).datatype.iovec = .undefined .overflow := by
    intro mid turn size
    rw [rootGathervRequest, size, totalcount_overflow large, Outcome.undefined_bind]
  have entered : (gathervCalls send recv root root).enter vm origin.world root = .undefined .overflow := by
    show mpiIgatherv vm origin.world root (send root).buf (send root).count
      (some (send root).datatype.iovec) (recv root).buf
      (some fun other => ((recv root).counts other : Int))
      (some fun other => ((recv root).displs other : Int)) (some (recv root).datatype.iovec) root
      .world = _
    unfold mpiIgatherv
    simp only [if_neg accepted, entry, Outcome.ok_bind, if_true, mismatch_eq (fun _ => rfl) bytesAgree,
      Bool.false_eq_true, or_false, if_neg arguments.recvGiven, deref]
    split
    · exact requested _ _ ready.size
    · exact requested _ _ ready.size
  have free : ¬ (origin.world.size ≤ root ∨ (origin.ranks root).cont ≠ []) := by
    rw [ready.size, ready.idle]
    simp [RankState.new, rootValid]
  have listed : once (gathervCalls send recv root) root (origin.ranks root).pos =
      some (gathervCalls send recv root root) := by
    rw [ready.idle]
    rfl
  simp only [step, if_neg free, listed, entered, Outcome.undefined_bind]

/-- The root comes first, and publishes its displacements. -/
theorem gatherv_rootFirst (copies : CopiesAll vm) (ready : origin.Ready n t) (several : 2 ≤ n)
    (limit : n ≤ 10000) (arguments : GathervArguments send recv n root)
    (range : (recv root).total n < 2 ^ 31) {turn : Nat} (turnEq : turn = t % umpiOutstandingCollectiveOperations) :
    ∃ s made, origin.step vm (once (gathervCalls send recv root)) (.call root) = .ok s ∧
      Ledger (.rooted root) n t origin (gathervPlan send recv n root turn).offer [root] made s ∧
      Orderly t s ∧ (s.world.slots turn).displs = fun other => ((recv root).displs other : Int) := by
  have suits := Schedule.Suits.of_root several arguments.rootValid
  have accepted := @gathervCalls_accepted vm send recv n root arguments range
  have ledger : Ledger (.rooted root) n t origin (gathervPlan send recv n root turn).offer [] id origin :=
    Ledger.start ready id
  have orderly : Orderly t origin := Orderly.start ready
  have absent : root ∉ ([] : List Nat) := List.not_mem_nil
  have ticket := ledger.ticket root arguments.rootValid absent
  have arriving := ledger.arriving ready suits.several (fun _ => suits) (by omega) arguments.rootValid absent
  have here : origin.world.turnOf root = turn := by
    rw [World.turnOf, ticket, turnEq]
  obtain ⟨w, frame, entered, mid, made, _, agreed, joined⟩ := accepted.returns orderly ledger
    arguments.rootValid absent (gathervPlan_rootJoins copies arguments arriving here)
  have ledger' := ledger.enter ready suits (by omega) arguments.rootValid absent joined
    (origin.record w root)
  rw [Function.update_eq_self] at ledger'
  refine ⟨_, made, ledger.call_steps arguments.rootValid absent entered, ledger', ?_, ?_⟩
  · exact orderly.enter ledger suits arriving.joining ticket joined
      (serveRanks_checked (gathervPlan_checked turn) _) _
  · have slot := joined.settles.slot
    rw [here] at slot
    dsimp only
    rw [slot]
    exact agreed

/-- A rank whose block ends too late is refused when it comes right after the root. -/
theorem lateBlock_refused (copies : CopiesAll vm) (ready : origin.Ready n t) (several : 2 ≤ n)
    (limit : n ≤ 10000) (arguments : GathervArguments send recv n root)
    (range : (recv root).total n < 2 ^ 31) {rank : Nat} (valid : rank < n) (notRoot : rank ≠ root)
    (late : (recv root).total n < (recv root).displs rank + (recv root).counts rank) :
    ∃ s, Reaches vm (once (gathervCalls send recv root)) origin s ∧ mpiFail ∈ (s.ranks rank).rets := by
  obtain ⟨turn, turnEq⟩ : ∃ turn, turn = t % umpiOutstandingCollectiveOperations := ⟨_, rfl⟩
  have suits := Schedule.Suits.of_root several arguments.rootValid
  have accepted := @gathervCalls_accepted vm send recv n root arguments range
  obtain ⟨first, made, stepped, ledger, orderly, displs⟩ :=
    gatherv_rootFirst copies ready several limit arguments range turnEq
  -- the rank finds the root's cookie
  have absent : rank ∉ [root] := by simpa using notRoot
  have ticket := ledger.ticket rank valid absent
  have arriving := ledger.arriving ready suits.several (fun _ => suits) (by omega) valid absent
  have here : first.world.turnOf rank = turn := by
    rw [World.turnOf, ticket, turnEq]
  obtain ⟨w, frame, entered, made', joined⟩ := accepted.returns orderly ledger valid absent
    (gathervPlan_member arguments.rootValid (arguments.sendValid rank valid) notRoot arriving.standing
      arriving.joining here)
  have stepped' := ledger.call_steps valid absent entered
  have ledger' := ledger.enter ready suits (by omega) valid absent joined (first.record w rank)
  rw [Function.update_eq_self] at ledger'
  have cont : frame.cont = [(gathervPlan send recv n root turn).pull rank (made root)] := by
    have settled : frame.cont = if root ∈ [root] then
        [(gathervPlan send recv n root turn).pull rank (made root)] else [] := joined.settles.cont
    simpa using settled
  have slot : (w.slots turn).displs = fun other => ((recv root).displs other : Int) := by
    have settled := joined.settles.slot
    rw [here] at settled
    rw [settled, ← displs]
    simp [World.claimed, turnEq, ticket]
  -- and is refused
  have makes : (Schedule.rooted root).numOf n root [rank, root] = some (n - 1 : Int) := by
    simp only [Schedule.numOf, Schedule.num, if_neg notRoot, if_true, List.length_nil]
    rw [if_neg (by omega)]
    simp
  have cookie := ledger'.cookies root _ makes
  have same : made' root = made root := joined.settles.madeOthers root (Ne.symm notRoot)
  rw [same] at cookie
  have iovec : (w.cookies (made root)).iovec = (recv root).datatype.iovec := by
    refine (Cookie.iovec_of_stable cookie).trans ?_
    simp [gathervPlan, Offer.cookie]
  have size : (w.cookies (made root)).size = ((recv root).total n : Nat) := by
    refine (Cookie.size_of_stable cookie).trans ?_
    simp [gathervPlan, Offer.cookie]
  have performed : ((gathervPlan send recv n root turn).pull rank (made root)).exec vm w rank =
      .ok (w.finishTransfer (made root) mpiFail 0) :=
    gathervPull_refused arguments valid notRoot late iovec size slot
  have todo : (Function.update first.ranks rank ((first.ranks rank).enter frame) rank).cont =
      [(gathervPlan send recv n root turn).pull rank (made root)] := by
    rw [Function.update_self, RankState.enter_cont, cont]
  have twice : Reaches vm (once (gathervCalls send recv root)) origin
      { world := w
        ranks := Function.update first.ranks rank ((first.ranks rank).enter frame)
        joins := first.record w rank } :=
    .tail (.call rank) (.tail (.call root) .refl stepped) stepped'
  refine ⟨_, .tail (.act rank) twice (act_steps todo performed), ?_⟩
  simp [RankState.advance, World.finishTransfer, mpiFail, mpiSuccess]

end Honoured

/-- In every run of `MPI_Igatherv` on disjoint blocks all is as expected, exactly when every block but the
    root's own ends within as many elements as are contributed. -/
theorem igatherv_honours_displs_iff {vm : ProcessVm} (copies : CopiesAll vm) {send : Nat → Buffer}
    {recv : Nat → BlockVector} {n root t : Nat} {origin : Sys} (ready : origin.Ready n t) (several : 2 ≤ n)
    (limit : n ≤ 10000) (arguments : GathervArguments send recv n root) :
    (∀ s, Reaches vm (once (gathervCalls send recv root)) origin s →
      DisplsHonoured vm send recv n root origin s) ↔ GathervFits recv n root := by
  constructor
  · intro honoured
    have range : (recv root).total n < 2 ^ 31 := by
      by_contra large
      exact (honoured origin .refl).defined (.call root) .overflow
        (rootCall_overflows ready arguments (Nat.le_of_not_lt large))
    refine ⟨range, fun rank valid notRoot => ?_⟩
    by_contra late
    obtain ⟨s, run, failed⟩ := lateBlock_refused copies ready several limit arguments range valid notRoot
      (Nat.lt_of_not_le late)
    exact absurd ((honoured s run).clean rank mpiFail failed) (by decide)
  · intro fits s run
    exact displsHonoured_of_fits copies ready several limit arguments fits run

/-- One character of every rank; that of rank 0 is in place. -/
def charToSend (rank : Nat) : Buffer :=
  { buf := if rank = 0 then .inPlace else .addr 0, count := 1, datatype := Datatype.mpiChar }

/-- The character of rank 0 is for element 1, and that of rank 1 for element `displ`. -/
def charsToReceive (displ : Nat) (_ : Nat) : BlockVector :=
  { buf := .addr 0
    datatype := Datatype.mpiChar
    counts := fun _ => 1
    displs := fun rank => if rank = 0 then 1 else displ }

theorem chars_arguments {displ : Nat} (small : displ < 10) (other : displ ≠ 1) :
    GathervArguments charToSend (charsToReceive displ) 2 0 where
  rootValid := by decide
  sendValid := by
    intro rank _
    refine ⟨(by decide : 1 < 2 ^ 31), (by decide : 1 * Datatype.mpiChar.len < 2 ^ 63), fun null => ?_⟩
    simp only [charToSend] at null
    split at null <;> cases null
  recvGiven := nofun
  counts := fun _ _ => (by decide : 1 < 2 ^ 31)
  displs := by
    intro rank _
    simp only [charsToReceive]
    split <;> omega
  bytes := (by decide : 2 * Datatype.mpiChar.len < 2 ^ 63)
  spans := by
    intro rank _
    have one : Datatype.mpiChar.len = 1 := rfl
    simp only [charsToReceive, one]
    split <;> omega
  agree := fun _ _ _ => rfl
  disjoint := by
    intro rank valid other' valid' different
    simp only [BlockVector.Apart, charsToReceive]
    split <;> split <;> omega
  apart := fun contributes => absurd rfl (contributes rfl)

/-- A dense layout in the opposite order of the ranks is honoured. -/
theorem igatherv_honours_displs_reversed :
    ∃ s, (Sys.init 2 sevens).run copyingVm (once (gathervCalls charToSend (charsToReceive 0) 0))
        [.call 0, .call 1, .act 1] = .ok s ∧
      DisplsHonoured copyingVm charToSend (charsToReceive 0) 2 0 (Sys.init 2 sevens) s := by
  have fits : GathervFits (charsToReceive 0) 2 0 := by
    refine ⟨by decide, fun rank valid notRoot => ?_⟩
    have last : rank = 1 := by omega
    subst last
    decide
  have honoured := (igatherv_honours_displs_iff copyingVm_copies (ready_init 2 sevens) le_rfl (by decide)
    (chars_arguments (by decide) (by decide))).mpr fits
  have ran : ∃ s, (Sys.init 2 sevens).run copyingVm (once (gathervCalls charToSend (charsToReceive 0) 0))
      [.call 0, .call 1, .act 1] = .ok s := ⟨_, rfl⟩
  obtain ⟨s, ran⟩ := ran
  exact ⟨s, ran, honoured s (reaches_of_run ran)⟩

/-- With a gap before it, at element 2 of a buffer for two characters, the character of rank 1 is
    refused. -/
theorem igatherv_refuses_gap :
    GathervArguments charToSend (charsToReceive 3) 2 0 ∧
    ∃ s, (Sys.init 2 sevens).run copyingVm (once (gathervCalls charToSend (charsToReceive 3) 0))
        [.call 0, .call 1, .act 1] = .ok s ∧
      (s.ranks 1).rets = [mpiFail] :=
  ⟨chars_arguments (by decide) (by decide), _, rfl, rfl⟩

end Umpi
