/-
Module: Umpi.Proofs.Places
Layer: Proofs
Purpose: Where the cookies of collective operations are. A cookie is in a slot's box, in the local list of
  a call, in a `pending_` list or in a `free_` list, and never in two of them. So a cookie that is in a
  box is not handed out again.
Imports: Umpi.Foundation.Placement, Umpi.Proofs.EntryPoints, Umpi.Proofs.Steps
Trusted boundary: none
Main exports: Place, Sys.holds, Placed, Placed.enter, Placed.act, Placed.leave
Open obligations: none
-/
import Umpi.Foundation.Placement
import Umpi.Proofs.Ledger

namespace Umpi

open Foundation

/-- The lists that hold the cookies of collective operations. -/
inductive Place where
  | box (turn : Nat)
  | todo (rank : Nat)
  | pending (rank : Nat)
  | free (rank : Nat)
deriving DecidableEq

/-- What a list holds. -/
def Sys.holds (s : Sys) : Place → List Nat
  | .box turn => (s.world.slots turn).box
  | .todo rank => (s.ranks rank).todo
  | .pending rank => (s.world.procs rank).pending
  | .free rank => (s.world.procs rank).free

/-- Every cookie is in one list, has been allocated, and a call's remaining moves empty its local list. -/
structure Placed (s : Sys) : Prop where
  exclusive : Exclusive s.holds
  allocated : ∀ place, ∀ id ∈ s.holds place, id < s.world.next
  moves : ∀ rank, ((s.ranks rank).cont.flatMap Action.moved).Perm (s.ranks rank).todo

/-- `finalize` moves finished cookies to the front of the owner's free list, which may then be cut. -/
theorem finalize_fits (w : World) (id : Nat) :
    (((w.finalize id).procs (w.cookies id).owner).pending ++
      ((w.finalize id).procs (w.cookies id).owner).free).Subperm
      ((w.procs (w.cookies id).owner).pending ++ (w.procs (w.cookies id).owner).free) := by
  let owner := (w.cookies id).owner
  let used : Nat → Int := fun other => ((w.setCookie id
    { w.cookies id with used := int16 ((w.cookies id).used - 1) }).cookies other).used
  let finished := (w.procs owner).pending.filter fun other => used other = 0
  have pending : ((w.finalize id).procs owner).pending =
      (w.procs owner).pending.filter fun other => used other ≠ 0 := by
    simp [World.finalize, owner, used]
  have free : ∃ limit, ((w.finalize id).procs owner).free =
      (finished.reverse ++ (w.procs owner).free).take limit := by
    simp only [World.finalize, World.setProc_procs, owner, Function.update_self]
    split
    · exact ⟨_, rfl⟩
    · exact ⟨_, (List.take_length).symm⟩
  obtain ⟨limit, free⟩ := free
  show (((w.finalize id).procs owner).pending ++ ((w.finalize id).procs owner).free).Subperm
    ((w.procs owner).pending ++ (w.procs owner).free)
  have split : (((w.procs owner).pending.filter fun other => used other ≠ 0) ++ finished.reverse).Perm
      (w.procs owner).pending := by
    have parts := List.filter_append_perm (fun other => used other ≠ 0) (w.procs owner).pending
    refine ((List.reverse_perm finished).append_left _).trans ?_
    simpa [finished] using parts
  have whole := split.append_right (w.procs owner).free
  rw [List.append_assoc] at whole
  rw [pending, free]
  exact ((List.take_sublist limit _).append_left _).subperm.trans whole.subperm

/-- `finalize` concerns the owner only. -/
@[simp] theorem finalize_procs_of_ne {w : World} {id rank : Nat} (other : rank ≠ (w.cookies id).owner) :
    (w.finalize id).procs rank = w.procs rank := by
  simp [World.finalize, other]

namespace Placed

variable {s : Sys} {self : Nat}

/-- A rank that is in no call has nothing in its local list. -/
theorem todo_eq_nil (placed : Placed s) (idle : (s.ranks self).cont = []) : (s.ranks self).todo = [] := by
  have perm := placed.moves self
  rw [idle] at perm
  exact (List.perm_nil.mp perm.symm)

/-- Moving cookies between some lists, possibly dropping some. -/
theorem rearranged (placed : Placed s) {after : Sys} (places : List Place) (distinct : places.Nodup)
    (next : after.world.next = s.world.next) (same : ∀ place ∉ places, after.holds place = s.holds place)
    (fits : (places.flatMap after.holds).Subperm (places.flatMap s.holds))
    (moves : ∀ rank, ((after.ranks rank).cont.flatMap Action.moved).Perm (after.ranks rank).todo) :
    Placed after where
  exclusive := placed.exclusive.rearrange places distinct [] (by simp) (by simp) same
    (by rwa [List.append_nil])
  allocated := by
    intro place a held
    rw [next]
    by_cases listed : place ∈ places
    · have member := fits.subset (List.mem_flatMap.mpr ⟨place, listed, held⟩)
      obtain ⟨place', _, held'⟩ := List.mem_flatMap.mp member
      exact placed.allocated place' a held'
    · exact placed.allocated place a (same place listed ▸ held)
  moves := moves

section Entering

variable {schedule : Schedule} {n : Nat} {past : List Nat} {mid : World} {offer : Offer}
  {cont : List Action} {w' : World} {frame : Frame} {made made' : Nat → Nat}

/-- What a caller's cookies were before its call: in the box, in its free list, or new. -/
def freshNames (s : Sys) (self : Nat) (schedule : Schedule) (n : Nat) (past : List Nat) : List Nat :=
  if (schedule.num n past self).isSome ∧ (s.world.procs self).free = [] then [s.world.next] else []

/-- A call that joins moves cookies between the box, its own lists, and at most one `pending_` list. -/
theorem enter_counts (placed : Placed s) (idle : (s.ranks self).cont = [])
    (standing : Standing schedule n past s.world (s.world.turnOf self) made)
    (suits : schedule.Suits n) (joining : Schedule.Joining n (self :: past))
    (entered : Entered schedule n past s.world self mid offer cont (w', frame) made made')
    (retiredOwner : Nat)
    (pending : (w'.procs retiredOwner).pending =
      (schedule.retired n past self).toList.map made ++ (s.world.procs retiredOwner).pending) (id : Nat) :
    (w'.slots (s.world.turnOf self)).box.count id + frame.todo.count id +
        (w'.procs retiredOwner).pending.count id + (w'.procs self).free.count id =
      (s.world.slots (s.world.turnOf self)).box.count id + (s.ranks self).todo.count id +
        (s.world.procs retiredOwner).pending.count id + (s.world.procs self).free.count id +
        (freshNames s self schedule n past).count id := by
  have others := entered.settles.madeOthers
  have notInBox : self ∉ schedule.box n past := by
    intro inBox
    obtain ⟨k, makes⟩ := Option.isSome_iff_exists.mp
      (Schedule.numOf_of_mem_box joining.tail suits inBox)
    exact joining.fresh (Schedule.mem_of_numOf makes)
  have retiredOther : self ∉ (schedule.retired n past self).toList := by
    cases schedule <;> simp only [Schedule.retired, Option.toList_none, List.not_mem_nil, not_false_eq_true]
    split
    case isTrue member => simpa using member.1
    case isFalse => simp
  have box : (s.world.slots (s.world.turnOf self)).box = (schedule.box n past).map made' := by
    rw [standing.box, map_made_of_notMem others notInBox]
  have box' : (w'.slots (s.world.turnOf self)).box = (schedule.box n (self :: past)).map made' := by
    rw [entered.settles.slot]
    rfl
  have todo : frame.todo = (schedule.taken n past self).map made' := entered.settles.todo
  have conserved := ((Schedule.box_conserved joining suits).map made').count_eq id
  simp only [List.map_append, List.count_append] at conserved
  rw [box, box', todo, placed.todo_eq_nil idle, pending, List.count_append,
    ← map_made_of_notMem others retiredOther]
  have own : (s.world.procs self).free.count id + (freshNames s self schedule n past).count id =
      (w'.procs self).free.count id +
        (((schedule.num n past self).toList.map fun _ => self).map made').count id := by
    unfold freshNames
    cases makes : schedule.num n past self with
    | none =>
        have kept : (w'.procs self).free = (s.world.procs self).free := entered.free_kept makes
        simp [kept]
    | some k =>
        rcases entered.free_taken makes with old | ⟨empty, empty', named, _⟩
        · simp only at old
          simp [old, List.count_cons]
        · simp only at empty'
          simp [empty, empty', named]
  simp only [List.count_nil]
  omega

/-- At most one `pending_` list gets a cookie. -/
theorem enter_pending (entered : Entered schedule n past s.world self mid offer cont (w', frame) made made') :
    ∃ retiredOwner,
      (w'.procs retiredOwner).pending =
        (schedule.retired n past self).toList.map made ++ (s.world.procs retiredOwner).pending ∧
      ∀ rank ≠ retiredOwner, (w'.procs rank).pending = (s.world.procs rank).pending := by
  have before : ∀ rank, (mid.procs rank).pending = (s.world.procs rank).pending :=
    fun rank => (congrArg (fun lists => lists.2.2.2) (entered.midway.lists rank) :)
  have after := entered.settles.pending
  simp only [Schedule.settlement] at after
  cases retires : schedule.retired n past self with
  | none =>
      simp only [retires] at after
      exact ⟨self, (after self).trans (before self), fun rank _ => (after rank).trans (before rank)⟩
  | some root =>
      simp only [retires] at after
      refine ⟨(mid.cookies (made root)).owner, ?_, fun rank other => ?_⟩
      · rw [after, ← before]
        simp [World.moveToPending]
      · rw [after, ← before]
        simp [World.moveToPending, other]

/-- A rank joins an operation. -/
theorem enter (placed : Placed s) (idle : (s.ranks self).cont = [])
    (standing : Standing schedule n past s.world (s.world.turnOf self) made)
    (suits : schedule.Suits n) (joining : Schedule.Joining n (self :: past))
    (entered : Entered schedule n past s.world self mid offer cont (w', frame) made made')
    (joins : Nat → List Join) :
    Placed
      { world := w'
        ranks := Function.update s.ranks self ((s.ranks self).enter frame)
        joins := joins } := by
  obtain ⟨retiredOwner, pending, otherPending⟩ := enter_pending entered
  have counts := placed.enter_counts idle standing suits joining entered retiredOwner pending
  let places : List Place :=
    [.box (s.world.turnOf self), .todo self, .pending retiredOwner, .free self]
  let after : Sys :=
    { world := w'
      ranks := Function.update s.ranks self ((s.ranks self).enter frame)
      joins := joins }
  have same : ∀ place ∉ places, after.holds place = s.holds place := by
    intro place unlisted
    simp only [places, List.mem_cons, List.not_mem_nil, or_false, not_or] at unlisted
    obtain ⟨notBox, notTodo, notPending, notFree⟩ := unlisted
    cases place with
    | box turn =>
        have other : turn ≠ s.world.turnOf self := fun same => notBox (by rw [same])
        have kept : w'.slots turn = mid.slots turn := entered.settles.otherSlots turn other
        have claimed : ((s.world.claimed self).slots turn).box = (s.world.slots turn).box := by
          have different : turn ≠ s.world.ticket self % umpiOutstandingCollectiveOperations := other
          simp [World.claimed, different]
        show (w'.slots turn).box = (s.world.slots turn).box
        rw [kept, entered.midway.box, claimed]
    | todo rank =>
        have other : rank ≠ self := fun same => notTodo (by rw [same])
        simp [Sys.holds, after, other]
    | pending rank => exact otherPending rank fun same => notPending (by rw [same])
    | free rank => exact entered.free fun same => notFree (by rw [same])
  have fits : (places.flatMap after.holds).Subperm
      (places.flatMap s.holds ++ freshNames s self schedule n past) := by
    refine List.subperm_iff_count.mpr fun id => ?_
    have balance := counts id
    simp only [places, after, List.flatMap_cons, List.flatMap_nil, List.append_nil, List.count_append,
      Sys.holds, Function.update_self, RankState.enter_todo]
    omega
  have unallocated : ∀ id ∈ freshNames s self schedule n past, id = s.world.next ∧ s.world.next < w'.next := by
    intro id new
    unfold freshNames at new
    split at new
    case isTrue makes =>
      obtain ⟨k, makesNew⟩ := Option.isSome_iff_exists.mp makes.1
      rcases entered.free_taken makesNew with old | ⟨_, _, _, grown⟩
      · rw [makes.2] at old
        cases old
      · simp only at grown
        exact ⟨List.mem_singleton.mp new, by omega⟩
    case isFalse => cases new
  have grows : s.world.next ≤ w'.next := entered.next
  refine { exclusive := ?_, allocated := ?_, moves := ?_ }
  · refine placed.exclusive.rearrange places (by simp [places]) _ ?_ ?_ same fits
    · unfold freshNames
      split <;> simp
    · intro place id new held
      have small := placed.allocated place id held
      have named := (unallocated id new).1
      omega
  · intro place id held
    show id < w'.next
    by_cases listed : place ∈ places
    · have member := fits.subset (List.mem_flatMap.mpr ⟨place, listed, held⟩)
      rcases List.mem_append.mp member with old | new
      · obtain ⟨place', _, held'⟩ := List.mem_flatMap.mp old
        exact (placed.allocated place' id held').trans_le grows
      · have named := unallocated id new
        omega
    · have held' : id ∈ s.holds place := same place listed ▸ held
      exact (placed.allocated place id held').trans_le grows
  · intro rank
    by_cases own : rank = self
    · subst own
      have script := entered.script.moves
      have contEq : frame.cont = cont := entered.settles.cont
      have todoEq : frame.todo = (schedule.taken n past rank).map made' := entered.settles.todo
      simpa [contEq, todoEq] using script
    · simpa [own] using placed.moves rank

end Entering

section Acting

variable {vm : ProcessVm} {action : Action} {rest : List Action} {done : Transferred}

/-- An action takes its own cookies out of the local list and leaves those of the remaining actions. The last one may
    fail. -/
theorem advance_todo {state : RankState} (moves : ((action :: rest).flatMap Action.moved).Perm state.todo)
    (nodup : state.todo.Nodup) {ret : Int} (goesOn : ret = mpiSuccess ∨ rest = []) :
    (rest.flatMap Action.moved).Perm (state.advance action.moved rest ret).todo := by
  unfold RankState.advance
  by_cases last : rest = []
  · rw [if_pos last, last]
    split <;> exact List.Perm.refl _
  · rw [if_neg (not_not.mpr (goesOn.resolve_right last)), if_neg last]
    rw [List.flatMap_cons] at moves
    have distinct := List.nodup_append'.mp (moves.nodup_iff.mpr nodup)
    have kept := moves.filter fun id => decide (id ∉ action.moved)
    have own : action.moved.filter (fun id => decide (id ∉ action.moved)) = [] := by
      rw [List.filter_eq_nil_iff]
      intro id listed
      simpa using listed
    have others : (rest.flatMap Action.moved).filter (fun id => decide (id ∉ action.moved)) =
        rest.flatMap Action.moved := by
      rw [List.filter_eq_self]
      intro id listed
      simpa using fun inside => distinct.2.2 inside listed
    rwa [List.filter_append, own, others, List.nil_append] at kept

/-- A rank performs an action. -/
theorem act (placed : Placed s) (todo : (s.ranks self).cont = action :: rest)
    (performed : action.exec vm s.world self = .ok done) (goesOn : done.ret = mpiSuccess ∨ rest = []) :
    Placed
      { s with
        world := done.world
        ranks := Function.update s.ranks self
          ((s.ranks self).advance action.moved rest done.ret) } := by
  let after : Sys :=
    { s with
      world := done.world
      ranks := Function.update s.ranks self ((s.ranks self).advance action.moved rest done.ret) }
  have movesBefore := placed.moves self
  rw [todo] at movesBefore
  have ownTodo : (rest.flatMap Action.moved).Perm (after.ranks self).todo := by
    simp only [after, Function.update_self]
    exact advance_todo movesBefore (placed.exclusive.nodup (.todo self)) goesOn
  have ownCont : (after.ranks self).cont = rest := by
    simp only [after, Function.update_self]
    exact RankState.advance_cont _ _ _ _ goesOn
  have moves : ∀ rank, ((after.ranks rank).cont.flatMap Action.moved).Perm (after.ranks rank).todo := by
    intro rank
    by_cases own : rank = self
    · subst own
      rw [ownCont]
      exact ownTodo
    · simpa [after, own] using placed.moves rank
  rcases Action.exec_cases performed with ⟨id, rfl, moved, _⟩ | ⟨nothing, midway⟩
  · -- the cookie goes from the local list to its owner's `pending_`
    let owner := (s.world.cookies id).owner
    let places : List Place := [.todo self, .pending owner]
    have world : after.world = s.world.moveToPending id := moved
    have pending : (after.world.procs owner).pending = id :: (s.world.procs owner).pending := by
      rw [world]
      simp [World.moveToPending, owner]
    have same : ∀ place ∉ places, after.holds place = s.holds place := by
      intro place unlisted
      simp only [places, List.mem_cons, List.not_mem_nil, or_false, not_or] at unlisted
      cases place with
      | box turn => simp [Sys.holds, world]
      | todo rank =>
          have other : rank ≠ self := fun same => unlisted.1 (by rw [same])
          simp [Sys.holds, after, other]
      | pending rank =>
          have other : rank ≠ owner := fun same => unlisted.2 (by rw [same])
          simp [Sys.holds, world, World.moveToPending, owner, other]
      | free rank =>
          by_cases own : rank = owner <;> simp [Sys.holds, world, World.moveToPending, owner, own]
    have fits : (places.flatMap after.holds).Subperm (places.flatMap s.holds) := by
      refine List.subperm_iff_count.mpr fun a => ?_
      have before := movesBefore.count_eq a
      have now := ownTodo.count_eq a
      simp only [List.flatMap_cons, Action.moved, List.count_append] at before
      simp only [places, List.flatMap_cons, List.flatMap_nil, List.append_nil, List.count_append,
        Sys.holds, pending, List.count_cons] at before now ⊢
      simp only [List.count_nil] at before
      omega
    exact placed.rearranged places (by simp [places]) (by rw [world]; rfl) same fits moves
  · -- a transfer or a reduction moves no cookie
    have sameTodo : (after.ranks self).todo.Perm (s.ranks self).todo := by
      refine ownTodo.symm.trans ?_
      rwa [List.flatMap_cons, nothing, List.nil_append] at movesBefore
    have fits : ∀ place, (after.holds place).Perm (s.holds place) := by
      intro place
      cases place with
      | box turn =>
          rw [show after.holds (.box turn) = s.holds (.box turn) from midway.box turn]
      | todo rank =>
          by_cases own : rank = self
          · subst own
            exact sameTodo
          · simp [Sys.holds, after, own]
      | pending rank =>
          rw [show after.holds (.pending rank) = s.holds (.pending rank) from
            (congrArg (fun lists => lists.2.2.2) (midway.lists rank) :)]
      | free rank => rw [show after.holds (.free rank) = s.holds (.free rank) from midway.free rank]
    refine { exclusive := ?_, allocated := ?_, moves := moves }
    · exact
        { nodup := fun place => (fits place).nodup_iff.mpr (placed.exclusive.nodup place)
          disjoint := fun place place' different a first second =>
            placed.exclusive.disjoint place place' different ((fits place).mem_iff.mp first)
              ((fits place').mem_iff.mp second) }
    · intro place a held
      rw [show done.world.next = s.world.next from midway.next]
      exact placed.allocated place a ((fits place).mem_iff.mp held)

/-- A rank returns from a wait. -/
theorem leave (placed : Placed s) (id : Nat) (err : Int) :
    Placed
      { s with
        world := s.world.finalize id
        ranks := Function.update s.ranks self ((s.ranks self).leave id err) } := by
  let after : Sys :=
    { s with
      world := s.world.finalize id
      ranks := Function.update s.ranks self ((s.ranks self).leave id err) }
  let owner := (s.world.cookies id).owner
  let places : List Place := [.pending owner, .free owner]
  have same : ∀ place ∉ places, after.holds place = s.holds place := by
    intro place unlisted
    simp only [places, List.mem_cons, List.not_mem_nil, or_false, not_or] at unlisted
    cases place with
    | box turn => simp [Sys.holds, after]
    | todo rank => by_cases own : rank = self <;> simp [Sys.holds, after, own]
    | pending rank =>
        have other : rank ≠ owner := fun same => unlisted.1 (by rw [same])
        simp [Sys.holds, after, World.finalize, owner, other]
    | free rank =>
        have other : rank ≠ owner := fun same => unlisted.2 (by rw [same])
        simp [Sys.holds, after, World.finalize, owner, other]
  have moves : ∀ rank, ((after.ranks rank).cont.flatMap Action.moved).Perm (after.ranks rank).todo := by
    intro rank
    by_cases own : rank = self
    · subst own
      simpa [after] using placed.moves rank
    · simpa [after, own] using placed.moves rank
  refine placed.rearranged places (by simp [places]) rfl same ?_ moves
  simpa [places, Sys.holds, after, owner] using finalize_fits s.world id

end Acting

end Placed

end Umpi
