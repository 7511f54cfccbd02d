/-
Module: Umpi.Proofs.Completion
Layer: Proofs
Purpose: An operation with a root whose transfers all work comes to an end. `Orderly` says that nothing has
  failed so far: every call and wait returned `MPI_SUCCESS`, no cookie in use carries an error, and the
  slot belongs to the operation. Some rank can then always go on, no step is undefined, and every step
  leaves less to do, so that every run can be continued until everybody has returned.
Imports: Umpi.Proofs.Rooted
Trusted boundary: none
Main exports: Sys.Finished, Sys.Defined, Orderly, RootedPlan.Sound.orderly, RootedPlan.Sound.defined,
  RootedPlan.Sound.finishes
Open obligations: none
-/
import Umpi.Proofs.Rooted
import Mathlib.Algebra.Order.BigOperators.Group.Finset

namespace Umpi

open Foundation Sys

/-- Every rank has made its one call, and has returned from it and from the wait on its request. -/
def Sys.Finished (s : Sys) : Prop :=
  ∀ rank < s.world.size,
    (s.ranks rank).pos = 1 ∧ (s.ranks rank).cont = [] ∧ (s.ranks rank).requests = []

/-- No step has undefined behaviour. -/
def Sys.Defined (vm : ProcessVm) (program : Program) (s : Sys) : Prop :=
  ∀ label fault, s.step vm program label ≠ .undefined fault

/-- What can be decided of a state in which everybody has returned from everything. -/
theorem Sys.Finished.of_checks {s : Sys} {n : Nat} (size : s.world.size = n)
    (called : ∀ rank < n, (s.ranks rank).pos = 1) (returned : ∀ rank < n, (s.ranks rank).cont.isEmpty = true)
    (waited : ∀ rank < n, (s.ranks rank).requests = []) : s.Finished := fun rank valid =>
  ⟨called rank (size ▸ valid), List.isEmpty_iff.mp (returned rank (size ▸ valid)), waited rank (size ▸ valid)⟩

/-- When everybody has returned nothing is outstanding. -/
theorem Sys.Finished.complete {s : Sys} (finished : s.Finished) : s.Complete where
  called := fun rank valid => (finished rank valid).1
  returned := fun rank valid => (finished rank valid).2.1
  ready := fun rank valid id listed => by
    rw [(finished rank valid).2.2] at listed
    cases listed

/-- A rank in a call performs its next action if it can. -/
theorem Sys.act_steps {vm : ProcessVm} {program : Program} {s : Sys} {self : Nat} {action : Action}
    {rest : List Action} {done : Transferred} (todo : (s.ranks self).cont = action :: rest)
    (performed : action.exec vm s.world self = .ok done) :
    s.step vm program (.act self) = .ok
      { s with
        world := done.world
        ranks := Function.update s.ranks self ((s.ranks self).advance action.moved rest done.ret) } := by
  simp only [step, todo, performed, Outcome.ok_bind, Outcome.pure_eq]

/-! ### Errors of cookies -/

/-- An action whose result the call looks at. -/
def Action.Checked : Action → Prop
  | readIgnored .. => False
  | _ => True

/-- A transfer that reports success leaves no error behind. -/
theorem finishTransfer_err {w : World} {id : Nat} {err moved : Int}
    (success : (w.finishTransfer id err moved).ret = mpiSuccess) (other : Nat) :
    ((w.finishTransfer id err moved).world.cookies other).err = (w.cookies other).err := by
  have none : err = mpiSuccess := success
  subst none
  by_cases same : other = id
  · subst same
    by_cases clean : (w.cookies other).err = 0
    · simp [World.finishTransfer, clean, mpiSuccess, int16]
    · simp [World.finishTransfer, clean]
  · simp [World.finishTransfer, same]

theorem writeToOwner_err {vm : ProcessVm} {w : World} {id : Nat} {buf : Loc} {iovec : Iovec}
    {count seek skip : Int} {done : Transferred}
    (written : w.writeToOwner vm id buf iovec count seek skip = .ok done) (success : done.ret = mpiSuccess)
    (other : Nat) : (done.world.cookies other).err = (w.cookies other).err := by
  unfold World.writeToOwner at written
  simp only at written
  split at written
  · obtain rfl := Outcome.ok.inj written
    exact finishTransfer_err success other
  · split at written
    · cases written
    · obtain rfl := Outcome.ok.inj written
      rw [finishTransfer_err success other]
      by_cases same : other = id
      · subst same
        simp
      · simp [same]

theorem readFromOwner_err {vm : ProcessVm} {w : World} {id : Nat} {buf : Loc} {iovec : Iovec}
    {size count seek skip : Int} {done : Transferred}
    (read : w.readFromOwner vm id buf iovec size count seek skip = .ok done) (success : done.ret = mpiSuccess)
    (other : Nat) : (done.world.cookies other).err = (w.cookies other).err := by
  obtain ⟨mem, err, moved, rfl⟩ := readFromOwner_form read
  exact finishTransfer_err success other

/-- An action that succeeds leaves the errors of all cookies as they are. -/
theorem Action.exec_err {vm : ProcessVm} {w : World} {self : Nat} {action : Action} {done : Transferred}
    (checked : action.Checked) (performed : action.exec vm w self = .ok done)
    (success : done.ret = mpiSuccess) (id : Nat) : (done.world.cookies id).err = (w.cookies id).err := by
  cases action with
  | moveToPending other =>
      obtain rfl := Outcome.ok.inj performed
      rfl
  | writeToOwner other buf iovec count seek skip =>
      obtain ⟨seek, _, rest⟩ := Outcome.bind_eq_ok.mp performed
      obtain ⟨skip, _, written⟩ := Outcome.bind_eq_ok.mp rest
      exact writeToOwner_err written success id
  | readFromOwner other buf iovec size count seek skip =>
      obtain ⟨seek, _, rest⟩ := Outcome.bind_eq_ok.mp performed
      obtain ⟨skip, _, read⟩ := Outcome.bind_eq_ok.mp rest
      exact readFromOwner_err read success id
  | readIgnored other buf iovec size count => exact checked.elim
  | reduce op invec inoutvec count iovec =>
      obtain rfl := Outcome.ok.inj performed
      rfl

/-! ### Runs without errors -/

/-- Nothing has failed in the operation of ticket `t`. -/
structure Orderly (t : Nat) (s : Sys) : Prop where
  clean : s.Clean
  ticket : (s.world.slots (t % umpiOutstandingCollectiveOperations)).box ≠ [] →
    (s.world.slots (t % umpiOutstandingCollectiveOperations)).ticket = t
  boxed : ∀ id ∈ (s.world.slots (t % umpiOutstandingCollectiveOperations)).box, (s.world.cookies id).err = 0
  held : ∀ rank, ∀ id ∈ (s.ranks rank).requests, (s.world.cookies id).err = 0
  checked : ∀ rank, ∀ action ∈ (s.ranks rank).cont, action.Checked

/-- Every call of the operation gets through its critical section once it has entered the slot, unless it
    looks for a cookie that is not there. -/
def Accepted (vm : ProcessVm) (calls : Nat → Call) (n : Nat) : Prop :=
  ∀ (w : World) (self : Nat) (entry : Nat × World), w.size = n → self < n →
    w.getCurrentSlot self = .ok entry →
    (∃ result, (calls self).enter vm w self = .ok result) ∨
      (calls self).enter vm w self = .undefined .emptyList

/-- The transfers of a plan are all checked. -/
structure RootedPlan.Checked (plan : RootedPlan) : Prop where
  pull : ∀ rank id, (plan.pull rank id).Checked
  push : ∀ rank id, (plan.push rank id).Checked

section Completing

variable {plan : RootedPlan} {vm : ProcessVm} {calls : Nat → Call} {n root t : Nat} {early : Nat → Prop}
  {origin s : Sys} {past : List Nat} {made made' : Nat → Nat}

theorem serveRanks_checked (checked : plan.Checked) (ranks : List Nat) :
    ∀ action ∈ serveRanks plan.push made ranks, action.Checked := by
  intro action listed
  obtain ⟨rank, _, either⟩ := List.mem_flatMap.mp listed
  rcases List.mem_cons.mp either with rfl | second
  · trivial
  · rw [List.mem_singleton.mp second]
    exact checked.push _ _

namespace Orderly

theorem start (ready : s.Ready n t) : Orderly t s where
  clean := fun rank ret returned => by simp [ready.idle, RankState.new] at returned
  ticket := fun busy => absurd ready.box busy
  boxed := fun id listed => by simp [ready.box] at listed
  held := fun rank id listed => by simp [ready.idle, RankState.new] at listed
  checked := fun rank action listed => by simp [ready.idle, RankState.new] at listed

/-- A rank joins. -/
theorem enter {self : Nat} {mid w' : World} {offer : Offer} {cont : List Action} {frame : Frame}
    (orderly : Orderly t s) (ledger : Ledger (.rooted root) n t origin plan.offer past made s)
    (suits : (Schedule.rooted root).Suits n) (joining : Schedule.Joining n (self :: past))
    (ticket : s.world.ticket self = t)
    (entered : Entered (.rooted root) n past s.world self mid offer cont (w', frame) made made')
    (checked : ∀ action ∈ cont, action.Checked) (joins : Nat → List Join) :
    Orderly t
      { world := w'
        ranks := Function.update s.ranks self ((s.ranks self).enter frame)
        joins := joins } := by
  have turn : s.world.turnOf self = t % umpiOutstandingCollectiveOperations := by
    rw [World.turnOf, ticket]
  have settles := entered.settles
  rw [turn] at settles
  have contSelf : frame.cont = cont := settles.cont
  -- a cookie of the operation is an old one, which changes only its usage count, or the new one
  have kept : ∀ id, (s.world.cookies id).err = 0 → (w'.cookies id).err = 0 := by
    intro id none
    by_cases new : (Schedule.num n past self (.rooted root)).isSome ∧ id = made' self
    · obtain ⟨k, makes⟩ := Option.isSome_iff_exists.mp new.1
      rw [new.2, (entered.newCookie makes).2]
      rfl
    · have old := entered.untouched (fun makes same => new ⟨makes, same⟩) (by simp [Schedule.now])
      rw [old]
      exact none
  have fresh : (Schedule.num n past self (.rooted root)).isSome → (w'.cookies (made' self)).err = 0 := by
    intro makes
    obtain ⟨k, makes⟩ := Option.isSome_iff_exists.mp makes
    rw [(entered.newCookie makes).2]
    rfl
  have absent := joining.fresh
  have oldName : ∀ rank ∈ Schedule.box n past (.rooted root), (w'.cookies (made' rank)).err = 0 := by
    intro rank inBox
    obtain ⟨k, makes⟩ := ledger.makes_of_mem_box suits inBox
    have other : rank ≠ self := fun same => absent (same ▸ Schedule.mem_of_numOf makes)
    rw [settles.madeOthers rank other]
    apply kept
    apply orderly.boxed
    rw [ledger.standing.box]
    exact List.mem_map_of_mem inBox
  exact
    { clean := by
        intro rank ret returned
        by_cases own : rank = self
        · subst own
          simp only [Function.update_self, RankState.enter] at returned
          split at returned
          · rcases List.mem_cons.mp returned with rfl | earlier
            · exact settles.ret
            · exact orderly.clean rank ret earlier
          · exact orderly.clean rank ret returned
        · simp only [Function.update_of_ne own] at returned
          exact orderly.clean rank ret returned
      ticket := by
        intro _
        rw [settles.slot]
        have same := congrArg Collect.ticket (entered.midway.slots (t % umpiOutstandingCollectiveOperations))
        refine (same : (mid.slots _).ticket = _).trans ?_
        simp [Collect.control, World.claimed, ticket]
      boxed := by
        intro id listed
        rw [settles.slot] at listed
        obtain ⟨rank, inBox, rfl⟩ := List.mem_map.mp listed
        have before := (Schedule.box_conserved joining suits).mem_iff.mpr (List.mem_append_left _ inBox)
        rcases List.mem_append.mp before with old | new
        · exact oldName rank old
        · obtain ⟨k, makes, rfl⟩ := List.mem_map.mp new
          exact fresh (by rw [Option.mem_toList.mp makes]; rfl)
      held := by
        intro rank id listed
        by_cases own : rank = self
        · subst own
          have handle : frame.request = some _ := settles.request
          simp only [Function.update_self, RankState.enter_requests, handle, Option.toList_some,
            List.singleton_append] at listed
          rcases List.mem_cons.mp listed with rfl | earlier
          · rcases Schedule.request_cases joining suits with old | ⟨same, new⟩
            · exact oldName _ old
            · have named : (Schedule.settlement (.rooted root) n past rank offer cont).request = rank := same
              rw [named]
              exact fresh new
          · exact kept id (orderly.held rank id earlier)
        · simp only [Function.update_of_ne own] at listed
          exact kept id (orderly.held rank id listed)
      checked := by
        intro rank action listed
        by_cases own : rank = self
        · subst own
          simp only [Function.update_self, RankState.enter_cont, contSelf] at listed
          exact checked action listed
        · simp only [Function.update_of_ne own] at listed
          exact orderly.checked rank action listed }

/-- A rank performs its next action. -/
theorem act {self : Nat} {action : Action} {rest : List Action} {done : Transferred} (orderly : Orderly t s)
    (todo : (s.ranks self).cont = action :: rest) (performed : action.exec vm s.world self = .ok done)
    (success : done.ret = mpiSuccess) :
    Orderly t
      { s with
        world := done.world
        ranks := Function.update s.ranks self ((s.ranks self).advance action.moved rest done.ret) } := by
  have checked : action.Checked := orderly.checked self action (todo ▸ List.mem_cons_self)
  have kept := Action.exec_err checked performed success
  have control : ∀ turn, (done.world.slots turn).control = (s.world.slots turn).control := by
    intro turn
    rcases Action.exec_cases performed with ⟨id, _, moved, _⟩ | ⟨_, midway⟩
    · rw [moved]
      rfl
    · exact midway.slots turn
  have box : ∀ turn, (done.world.slots turn).box = (s.world.slots turn).box :=
    fun turn => (congrArg Collect.box (control turn) :)
  have ticket : ∀ turn, (done.world.slots turn).ticket = (s.world.slots turn).ticket :=
    fun turn => (congrArg Collect.ticket (control turn) :)
  exact
    { clean := by
        intro rank ret returned
        by_cases own : rank = self
        · subst own
          simp only [Function.update_self, success, RankState.advance, ne_eq, not_true_eq_false, if_false]
            at returned
          split at returned
          · rcases List.mem_cons.mp returned with rfl | earlier
            · rfl
            · exact orderly.clean rank ret earlier
          · exact orderly.clean rank ret returned
        · simp only [Function.update_of_ne own] at returned
          exact orderly.clean rank ret returned
      ticket := by
        dsimp only
        rw [box, ticket]
        exact orderly.ticket
      boxed := by
        intro id listed
        dsimp only at listed
        rw [box] at listed
        exact (kept id).trans (orderly.boxed id listed)
      held := by
        intro rank id listed
        refine (kept id).trans (orderly.held rank id ?_)
        by_cases own : rank = self
        · subst own
          simpa using listed
        · simpa [own] using listed
      checked := by
        intro rank other listed
        by_cases own : rank = self
        · subst own
          simp only [Function.update_self, success, RankState.advance_cont_of_success] at listed
          exact orderly.checked rank other (todo ▸ List.mem_cons_of_mem action listed)
        · simp only [Function.update_of_ne own] at listed
          exact orderly.checked rank other listed }

/-- A rank returns from a wait. -/
theorem leave {self id : Nat} (orderly : Orderly t s) (listed : id ∈ (s.ranks self).requests) :
    Orderly t
      { s with
        world := s.world.finalize id
        ranks := Function.update s.ranks self
          ((s.ranks self).leave id (s.world.cookies id).err) } := by
  have kept : ∀ other, ((s.world.finalize id).cookies other).err = (s.world.cookies other).err := by
    intro other
    by_cases same : other = id
    · simp [same]
    · simp [same]
  exact
    { clean := by
        intro rank ret returned
        by_cases own : rank = self
        · subst own
          simp only [Function.update_self, RankState.leave] at returned
          rcases List.mem_cons.mp returned with rfl | earlier
          · exact orderly.held rank id listed
          · exact orderly.clean rank ret earlier
        · simp only [Function.update_of_ne own] at returned
          exact orderly.clean rank ret returned
      ticket := orderly.ticket
      boxed := fun other inBox => (kept other).trans (orderly.boxed other inBox)
      held := by
        intro rank other still
        refine (kept other).trans (orderly.held rank other ?_)
        by_cases own : rank = self
        · subst own
          simp only [Function.update_self, RankState.leave_requests] at still
          exact List.mem_of_mem_erase still
        · simpa [own] using still
      checked := by
        intro rank action member
        refine orderly.checked rank action ?_
        by_cases own : rank = self
        · subst own
          simpa using member
        · simpa [own] using member }

end Orderly

/-- What joining leaves to do is checked. -/
theorem RootedPlan.Checked.entered (checked : plan.Checked) {self : Nat} (ranks : List Nat) :
    (∀ action ∈ (if root ∈ past then [plan.pull self (made root)] else []), action.Checked) ∧
      ∀ action ∈ serveRanks plan.push made ranks, action.Checked := by
  refine ⟨fun action listed => ?_, serveRanks_checked checked ranks⟩
  split at listed
  · rw [List.mem_singleton.mp listed]
    exact checked.pull _ _
  · cases listed

/-- Nothing ever fails. -/
theorem RootedPlan.Sound.orderly
    (sound : plan.Sound vm calls n root (t % umpiOutstandingCollectiveOperations) fun _ => True)
    (checked : plan.Checked) (ready : origin.Ready n t) (suits : (Schedule.rooted root).Suits n)
    (small : n + 1 < 2 ^ 15) (run : Reaches vm (once calls) origin s) : Orderly t s := by
  induction run with
  | refl => exact Orderly.start ready
  | tail label before stepped ih =>
      have exchanged := sound.exchanged ready suits small (fun _ _ _ _ => trivial) before.unconditional
      obtain ⟨past, early, done, made, ledger, transferring⟩ := exchanged
      cases label with
      | call self =>
          obtain ⟨call, w, frame, valid, _, listed, entered, rfl⟩ := step_call stepped
          obtain ⟨absent, rfl⟩ := ledger.absent_of_call listed
          rw [ledger.standing.size] at valid
          have ticket := ledger.ticket self valid absent
          have arriving := ledger.arriving ready suits.several (fun _ => suits) (by omega) valid absent
          have turn : _ = t % umpiOutstandingCollectiveOperations := congrArg (· % _) ticket
          by_cases isRoot : self = root
          · subst isRoot
            obtain ⟨mid, made', _, _, joined⟩ := (sound.root past _ made arriving turn).of_ok entered
            exact ih.enter ledger suits arriving.joining ticket joined
              (serveRanks_checked checked _) _
          · obtain ⟨made', joined⟩ := (sound.member past _ self made isRoot arriving turn).of_ok entered
            exact ih.enter ledger suits arriving.joining ticket joined (checked.entered []).1 _
      | act self =>
          obtain ⟨action, rest, moved, todo, performed, rfl⟩ := step_act stepped
          have success : moved.ret = mpiSuccess := by
            by_cases isRoot : self = root
            · subst isRoot
              obtain ⟨moved', performed', success, _⟩ := transferring.rootActs ledger sound todo
              obtain rfl := Outcome.ok.inj (performed.symm.trans performed')
              exact success
            · obtain ⟨moved', performed', success, _⟩ := transferring.memberActs ledger sound isRoot todo
              obtain rfl := Outcome.ok.inj (performed.symm.trans performed')
              exact success
          exact ih.act todo performed success
      | wait self id =>
          obtain ⟨_, held, _, rfl⟩ := step_wait stepped
          exact ih.leave held

/-! ### Going on -/

/-- What a rank has left to do, at most: its call, its actions and its waits. -/
def RankState.work (n : Nat) (rank : RankState) : Nat :=
  if rank.pos = 0 then 2 * n + 2 else rank.cont.length + rank.requests.length

/-- What all ranks have left to do. -/
def Sys.work (n : Nat) (s : Sys) : Nat := ∑ rank ∈ Finset.range n, (s.ranks rank).work n

/-- A rank that has less to do leaves less to do. -/
theorem Sys.work_lt {s s' : Sys} {self : Nat} {state : RankState} (valid : self < n)
    (ranks : s'.ranks = Function.update s.ranks self state) (less : state.work n < (s.ranks self).work n) :
    s'.work n < s.work n := by
  have member : self ∈ Finset.range n := Finset.mem_range.mpr valid
  refine Finset.sum_lt_sum (fun rank _ => ?_) ⟨self, member, ?_⟩
  · rw [ranks]
    by_cases own : rank = self
    · subst own
      rw [Function.update_self]
      exact less.le
    · rw [Function.update_of_ne own]
  · rw [ranks, Function.update_self]
    exact less

theorem length_serveRanks (push : Nat → Nat → Action) (made : Nat → Nat) (ranks : List Nat) :
    (serveRanks push made ranks).length = 2 * ranks.length := by
  induction ranks with
  | nil => rfl
  | cons rank ranks ih =>
      simp only [serveRanks, List.flatMap_cons, List.length_append, List.length_cons, List.length_nil]
        at ih ⊢
      omega

/-- A rank that has not joined gets into the slot. -/
theorem Orderly.entry {schedule : Schedule} {offers : Nat → Offer} {self : Nat} (orderly : Orderly t s)
    (ledger : Ledger schedule n t origin offers past made s) (valid : self < n) (absent : self ∉ past) :
    s.world.getCurrentSlot self = .ok (s.world.turnOf self, s.world.claimed self) := by
  have ticket := ledger.ticket self valid absent
  cases entered : s.world.getCurrentSlot self with
  | ok entry =>
      obtain ⟨first, second, _⟩ := getCurrentSlot_eq_ok entered
      rw [World.turnOf, ← first, ← second]
  | blocked =>
      unfold World.getCurrentSlot at entered
      rw [ticket] at entered
      simp only [ledger.unlocked, ne_eq, not_true_eq_false, if_false] at entered
      split at entered <;> cases entered
  | exited =>
      unfold World.getCurrentSlot at entered
      rw [ticket] at entered
      simp only [ledger.unlocked, ne_eq, not_true_eq_false, if_false] at entered
      split at entered
      case isTrue other => exact absurd (orderly.ticket other.1) other.2
      case isFalse => cases entered
  | undefined fault =>
      unfold World.getCurrentSlot at entered
      simp only at entered
      split at entered
      · cases entered
      · split at entered <;> cases entered

/-- A rank that has not joined makes its call. -/
theorem Accepted.returns {schedule : Schedule} {offers : Nat → Offer} {self : Nat}
    (accepted : Accepted vm calls n) (orderly : Orderly t s)
    (ledger : Ledger schedule n t origin offers past made s) (valid : self < n) (absent : self ∉ past)
    {post : World × Frame → Prop} (yields : ((calls self).enter vm s.world self).Yields post) :
    ∃ w frame, (calls self).enter vm s.world self = .ok (w, frame) ∧ post (w, frame) := by
  have entry := orderly.entry ledger valid absent
  rcases accepted s.world self _ ledger.standing.size valid entry with ⟨⟨w, frame⟩, returned⟩ | fault
  · exact ⟨w, frame, returned, yields.of_ok returned⟩
  · exact absurd fault yields.ne_emptyList

/-- So it takes a step of the system. -/
theorem Ledger.call_steps {schedule : Schedule} {offers : Nat → Offer} {self : Nat} {w : World}
    {frame : Frame} (ledger : Ledger schedule n t origin offers past made s) (valid : self < n)
    (absent : self ∉ past) (entered : (calls self).enter vm s.world self = .ok (w, frame)) :
    s.step vm (once calls) (.call self) = .ok
      { world := w
        ranks := Function.update s.ranks self ((s.ranks self).enter frame)
        joins := s.record w self } := by
  have free : ¬ (s.world.size ≤ self ∨ (s.ranks self).cont ≠ []) := by
    rw [ledger.standing.size, ledger.idle self absent]
    simp [valid]
  have listed : once calls self (s.ranks self).pos = some (calls self) := by
    rw [ledger.pos self, if_neg absent]
    rfl
  simp only [step, if_neg free, listed, entered, Outcome.ok_bind, Outcome.pure_eq]

section Going

variable {before done : List Nat} {mem : Memory} {self : Nat}

/-- A rank that has not joined can make its call. -/
theorem RootedPlan.Sound.callable
    (sound : plan.Sound vm calls n root (t % umpiOutstandingCollectiveOperations) early)
    (ready : origin.Ready n t) (suits : (Schedule.rooted root).Suits n) (small : n + 1 < 2 ^ 15)
    (accepted : Accepted vm calls n) (orderly : Orderly t s)
    (ledger : Ledger (.rooted root) n t origin plan.offer past made s) (valid : self < n)
    (absent : self ∉ past) :
    ∃ w frame, (calls self).enter vm s.world self = .ok (w, frame) ∧ frame.cont.length + 1 < 2 * n + 2 ∧
      frame.request.toList.length = 1 := by
  have ticket := ledger.ticket self valid absent
  have arriving := ledger.arriving ready suits.several (fun _ => suits) (by omega) valid absent
  have short : past.length < n := arriving.joining.length_le
  have turn : s.world.turnOf self = t % umpiOutstandingCollectiveOperations := congrArg (· % _) ticket
  have yields : ((calls self).enter vm s.world self).Yields fun result =>
      result.2.cont.length + 1 < 2 * n + 2 ∧ result.2.request.toList.length = 1 := by
    by_cases isRoot : self = root
    · subst isRoot
      refine (sound.root past _ made arriving turn).mono ?_
      rintro ⟨w, frame⟩ ⟨mid, made', _, _, entered⟩
      have cont : frame.cont = _ := entered.settles.cont
      have request : frame.request = _ := entered.settles.request
      refine ⟨?_, by rw [request]; rfl⟩
      dsimp only
      rw [cont]
      simp only [Schedule.settlement, length_serveRanks, List.length_reverse]
      omega
    · refine (sound.member past _ self made isRoot arriving turn).mono ?_
      rintro ⟨w, frame⟩ ⟨made', entered⟩
      have cont : frame.cont = _ := entered.settles.cont
      have request : frame.request = _ := entered.settles.request
      refine ⟨?_, by rw [request]; rfl⟩
      dsimp only
      rw [cont]
      simp only [Schedule.settlement]
      split
      · simp only [List.length_singleton]
        omega
      · simp only [List.length_nil]
        omega
  exact accepted.returns orderly ledger valid absent yields

/-- A rank that has something to do can do it. -/
theorem RootedPlan.Sound.performable
    (sound : plan.Sound vm calls n root (t % umpiOutstandingCollectiveOperations) early)
    (ledger : Ledger (.rooted root) n t origin plan.offer past made s)
    (transferring : Transferring plan n root (t % umpiOutstandingCollectiveOperations) early mem past before
      done made s)
    {action : Action} {rest : List Action} (todo : (s.ranks self).cont = action :: rest) :
    ∃ moved, action.exec vm s.world self = .ok moved ∧ moved.ret = mpiSuccess := by
  by_cases isRoot : self = root
  · subst isRoot
    obtain ⟨moved, performed, success, _⟩ := transferring.rootActs ledger sound todo
    exact ⟨moved, performed, success⟩
  · obtain ⟨moved, performed, success, _⟩ := transferring.memberActs ledger sound isRoot todo
    exact ⟨moved, performed, success⟩

/-- When everybody has returned from its call every request is complete. -/
theorem Ledger.ready_of_full {schedule : Schedule} {offers : Nat → Offer}
    (ledger : Ledger schedule n t origin offers past made s) (suits : schedule.Suits n)
    (full : past.length = n) (idle : ∀ rank < n, (s.ranks rank).cont = []) {rank id : Nat}
    (listed : id ∈ (s.ranks rank).requests) : (s.world.cookies id).Ready rank := by
  obtain ⟨maker, k, makes, rfl⟩ := ledger.requests rank id listed
  intro _
  have balance := ledger.busy maker k makes
  have so := ledger.notified maker k makes
  have nothing : due n s.ranks (made maker) = 0 := due_eq_zero idle
  have expected := Schedule.issued_add_future ledger.joining suits makes
  have noFuture : schedule.future n past maker = 0 := Schedule.future_eq_zero ledger.joining full suits maker
  omega

end Going

/-- No step of a run is undefined. -/
theorem RootedPlan.Sound.defined
    (sound : plan.Sound vm calls n root (t % umpiOutstandingCollectiveOperations) fun _ => True)
    (checked : plan.Checked) (ready : origin.Ready n t) (suits : (Schedule.rooted root).Suits n)
    (small : n + 1 < 2 ^ 15) (accepted : Accepted vm calls n) (run : Reaches vm (once calls) origin s) :
    s.Defined vm (once calls) := by
  have orderly := sound.orderly checked ready suits small run
  obtain ⟨past, before, done, made, ledger, transferring⟩ :=
    sound.exchanged ready suits small (fun _ _ _ _ => trivial) run.unconditional
  intro label fault stepped
  cases label with
  | call self =>
      simp only [step] at stepped
      split at stepped
      · cases stepped
      case isFalse free =>
        obtain ⟨valid, _⟩ := not_or.mp free
        split at stepped
        · cases stepped
        case h_2 call listed =>
          obtain ⟨absent, rfl⟩ := ledger.absent_of_call listed
          have inRange : self < n := by
            rw [← ledger.standing.size]
            exact Nat.lt_of_not_le valid
          obtain ⟨w, frame, entered, _⟩ := sound.callable ready suits small accepted orderly ledger inRange
            absent
          rw [entered] at stepped
          cases stepped
  | act self =>
      simp only [step] at stepped
      split at stepped
      · cases stepped
      case h_2 action rest todo =>
        obtain ⟨moved, performed, _⟩ := sound.performable ledger transferring todo
        rw [performed] at stepped
        cases stepped
  | wait self id =>
      simp only [step] at stepped
      split at stepped <;> cases stepped

/-- As long as somebody has not returned a step can be taken that leaves less to do. -/
theorem RootedPlan.Sound.proceeds
    (sound : plan.Sound vm calls n root (t % umpiOutstandingCollectiveOperations) fun _ => True)
    (checked : plan.Checked) (ready : origin.Ready n t) (suits : (Schedule.rooted root).Suits n)
    (small : n + 1 < 2 ^ 15) (accepted : Accepted vm calls n) (run : Reaches vm (once calls) origin s) :
    s.Finished ∨ ∃ label s', s.step vm (once calls) label = .ok s' ∧ s'.work n < s.work n := by
  have orderly := sound.orderly checked ready suits small run
  obtain ⟨past, before, done, made, ledger, transferring⟩ :=
    sound.exchanged ready suits small (fun _ _ _ _ => trivial) run.unconditional
  have size := ledger.standing.size
  by_cases busy : ∃ self < n, (s.ranks self).cont ≠ []
  · -- somebody is in its call
    obtain ⟨self, valid, inCall⟩ := busy
    obtain ⟨action, rest, todo⟩ := List.exists_cons_of_ne_nil inCall
    obtain ⟨moved, performed, success⟩ := sound.performable ledger transferring todo
    have called : (s.ranks self).pos = 1 := by
      rw [ledger.pos self, if_pos (ledger.mem_of_cont todo)]
    refine Or.inr ⟨.act self, _, Sys.act_steps todo performed, Sys.work_lt valid rfl ?_⟩
    · simp only [RankState.work, RankState.advance_pos, called, success,
        RankState.advance_cont_of_success, RankState.advance_requests, todo, List.length_cons]
      simp
  · have idle : ∀ rank < n, (s.ranks rank).cont = [] := by
      intro rank valid
      by_contra inCall
      exact busy ⟨rank, valid, inCall⟩
    by_cases missing : ∃ self < n, self ∉ past
    · -- somebody has not made its call
      obtain ⟨self, valid, absent⟩ := missing
      obtain ⟨w, frame, entered, short, one⟩ := sound.callable ready suits small accepted orderly ledger
        valid absent
      have uncalled : (s.ranks self).pos = 0 := by rw [ledger.pos self, if_neg absent]
      refine Or.inr ⟨.call self, _, ledger.call_steps valid absent entered, Sys.work_lt valid rfl ?_⟩
      · simp only [RankState.work, RankState.enter_pos, uncalled, RankState.enter_cont,
          RankState.enter_requests, ledger.unrequested self absent, List.append_nil, one]
        simpa using short
    · -- everybody has returned from its call
      have everyone : ∀ rank < n, rank ∈ past := by
        intro rank valid
        by_contra absent
        exact missing ⟨rank, valid, absent⟩
      have full : past.length = n := by
        have all : (List.range n).Subperm past :=
          List.subperm_of_subset List.nodup_range fun rank member => everyone rank (List.mem_range.mp member)
        have enough := all.length_le
        rw [List.length_range] at enough
        exact le_antisymm ledger.joining.length_le enough
      by_cases waiting : ∃ self < n, (s.ranks self).requests ≠ []
      · obtain ⟨self, valid, outstanding⟩ := waiting
        obtain ⟨id, others, requests⟩ := List.exists_cons_of_ne_nil outstanding
        have held : id ∈ (s.ranks self).requests := requests ▸ List.mem_cons_self
        have called : (s.ranks self).pos = 1 := by rw [ledger.pos self, if_pos (everyone self valid)]
        have possible : (s.ranks self).cont = [] ∧ id ∈ (s.ranks self).requests ∧
            (s.world.cookies id).Ready self :=
          ⟨idle self valid, held, ledger.ready_of_full suits full idle held⟩
        refine Or.inr ⟨.wait self id, _, if_pos possible, Sys.work_lt valid rfl ?_⟩
        simp only [RankState.work, RankState.leave_pos, called, RankState.leave_cont,
          RankState.leave_requests, requests, List.erase_cons_head, List.length_cons]
        simp
      · refine Or.inl fun rank valid => ?_
        rw [size] at valid
        refine ⟨by rw [ledger.pos rank, if_pos (everyone rank valid)], idle rank valid, ?_⟩
        by_contra outstanding
        exact waiting ⟨rank, valid, outstanding⟩

/-- Every run can be continued until everybody has returned. -/
theorem RootedPlan.Sound.finishes
    (sound : plan.Sound vm calls n root (t % umpiOutstandingCollectiveOperations) fun _ => True)
    (checked : plan.Checked) (ready : origin.Ready n t) (suits : (Schedule.rooted root).Suits n)
    (small : n + 1 < 2 ^ 15) (accepted : Accepted vm calls n) (run : Reaches vm (once calls) origin s) :
    ∃ s', Reaches vm (once calls) s s' ∧ s'.Finished := by
  induction left : s.work n using Nat.strong_induction_on generalizing s with
  | _ amount ih =>
      rcases sound.proceeds checked ready suits small accepted run with finished | ⟨label, s', stepped, less⟩
      · exact ⟨s, .refl, finished⟩
      · obtain ⟨s'', further, finished⟩ := ih _ (left ▸ less) (.tail label run stepped) rfl
        exact ⟨s'', further.head stepped, finished⟩

end Completing

end Umpi
