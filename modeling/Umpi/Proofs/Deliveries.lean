/-
Module: Umpi.Proofs.Deliveries
Layer: Proofs
Purpose: What becomes of the cookies a call has taken out of a box when a transfer of its loop fails. The
  loop returns at once and its local list is destroyed, so whoever waits for one of the cookies left waits
  forever. `Custody` is the invariant of runs in which only the last transfer of a loop may fail: every
  cookie stays in a list as long as somebody has a handle on it, and is notified as often as it was made
  for.
Imports: Umpi.Proofs.Notifications, Umpi.Proofs.Release, Umpi.Proofs.Tickets
Trusted boundary: none
Main exports: World.ReadFails, Action.Fails, Action.Stops, LoopGoesOn, Delivers, NoneAbandoned, Custody,
  failed_delivery_abandons_nobody, failed_delivery_abandons
Open obligations: none
-/
import Umpi.Proofs.Notifications
import Umpi.Proofs.Release
import Umpi.Proofs.Tickets

namespace Umpi

open Sys

/-! ### Transfers that fail -/

/-- A `read_from_owner` is refused by one of its size checks, or the system call does not move all bytes. -/
def World.ReadFails (vm : ProcessVm) (w : World) (id : Nat) (buf : Loc) (iovec : Iovec)
    (size count seek skip : Int) : Prop :=
  let cookie := w.cookies id
  let count :=
    if count ≠ 0 then count
    else int32 (sizeT ((cookie.size - skip) * cookie.iovec.len) / iovec.len : Nat)
  let totalBytes := sizeT (count * iovec.len)
  (sizeT (cookie.size * cookie.iovec.len) < sizeT (skip * cookie.iovec.len + totalBytes) ∨
      sizeT (size * iovec.len) < sizeT (seek * iovec.len + totalBytes)) ∨
    vm (sideIov buf iovec seek (seek + count) totalBytes)
      (sideIov cookie.buf cookie.iovec skip cookie.size totalBytes) ≠ ptrdiff totalBytes

instance (vm : ProcessVm) (w : World) (id : Nat) (buf : Loc) (iovec : Iovec) (size count seek skip : Int) :
    Decidable (w.ReadFails vm id buf iovec size count seek skip) :=
  inferInstanceAs (Decidable ((_ ∨ _) ∨ _))

instance (vm : ProcessVm) (w : World) (id : Nat) (buf : Loc) (iovec : Iovec) (count seek skip : Int) :
    Decidable (w.WriteSucceeds vm id buf iovec count seek skip) :=
  inferInstanceAs (Decidable (_ ∧ _))

/-- The action is a transfer that fails. -/
def Action.Fails (vm : ProcessVm) (w : World) (self : Nat) : Action → Prop
  | writeToOwner id buf iovec count seek skip =>
      match seek.eval w self id, skip.eval w self id with
      | .ok seek, .ok skip => ¬ w.WriteSucceeds vm id buf iovec count seek skip
      | _, _ => False
  | readFromOwner id buf iovec size count seek skip =>
      match seek.eval w self id, skip.eval w self id with
      | .ok seek, .ok skip => w.ReadFails vm id buf iovec size count seek skip
      | _, _ => False
  | readIgnored id buf iovec size count => w.ReadFails vm id buf iovec size count 0 0
  | _ => False

/-- The action is a transfer that fails, and the call looks at what it returns. -/
def Action.Stops (vm : ProcessVm) (w : World) (self : Nat) : Action → Prop
  | readIgnored _ _ _ _ _ => False
  | action => action.Fails vm w self

/-- The cookies through which a step makes a transfer that fails. -/
def Sys.FailsThrough (vm : ProcessVm) (s : Sys) (label : Label) (id : Nat) : Prop :=
  ∃ self action rest, label = .act self ∧ (s.ranks self).cont = action :: rest ∧
    action.transfer = some id ∧ action.Fails vm s.world self

/-- A transfer of a loop does not fail unless it is the last one. -/
def LoopGoesOn (vm : ProcessVm) (s : Sys) (label : Label) : Prop :=
  ∀ self action rest, label = .act self → (s.ranks self).cont = action :: rest → rest ≠ [] →
    ¬ action.Stops vm s.world self

/-- `s'` follows from `s` by steps that satisfy a condition. Every step has its own system calls, so that
    any transfer may fail at any time, and `failed` says through which cookies a transfer has failed. -/
inductive Delivers (program : Program) (meets : ProcessVm → Sys → Label → Prop) (s : Sys) :
    (Nat → Prop) → Sys → Prop where
  | refl : Delivers program meets s (fun _ => False) s
  | tail {failed : Nat → Prop} {s' s'' : Sys} (vm : ProcessVm) (label : Label)
      (before : Delivers program meets s failed s') (condition : meets vm s' label)
      (step : s'.step vm program label = .ok s'') :
      Delivers program meets s (fun id => failed id ∨ s'.FailsThrough vm label id) s''

/-! ### The promise -/

/-- Somebody has joined the operation on the slot of ticket `t`, and this cookie of it is no longer in the
    box. -/
def Sys.TakenOut (s : Sys) (n t id : Nat) : Prop :=
  (∃ rank < n, s.world.ticket rank ≠ t) ∧
    id ∈ (s.world.slots (t % umpiOutstandingCollectiveOperations)).made ∧
    id ∉ (s.world.slots (t % umpiOutstandingCollectiveOperations)).box

/-- What is promised about the cookies that calls have taken out of the box. -/
structure NoneAbandoned (n t : Nat) (failed : Nat → Prop) (s : Sys) : Prop where
  /-- As long as somebody has a handle on the cookie it is in a call's list or its owner's `pending_`. -/
  kept : ∀ id, s.TakenOut n t id → ∀ rank < n, id ∈ (s.ranks rank).requests →
    (∃ caller < n, id ∈ (s.ranks caller).todo) ∨ id ∈ (s.world.procs (s.world.cookies id).owner).pending
  /-- When the calls have returned it is in `pending_`, unless everybody has left it. -/
  pending : (∀ rank < n, (s.ranks rank).cont = []) → ∀ id, s.TakenOut n t id → ∀ rank < n,
    id ∈ (s.ranks rank).requests → id ∈ (s.world.procs (s.world.cookies id).owner).pending
  /-- By then it has been notified as often as it was made for, and nobody is left waiting. -/
  notified : (∀ rank < n, (s.ranks rank).cont = []) → ∀ id, s.TakenOut n t id →
    ((s.world.cookies id).notified : Int) = (s.world.cookies id).num ∧ (s.world.cookies id).busy = 0
  /-- If a transfer through it has failed it carries an error. -/
  reported : ∀ id, s.TakenOut n t id → failed id → (s.world.cookies id).err ≠ 0

/-! ### What a failed transfer returns and leaves -/

section Failing

variable {vm : ProcessVm} {w : World} {id : Nat} {buf : Loc} {iovec : Iovec} {done : Transferred}

/-- A transfer that returns an error leaves one. -/
theorem finishTransfer_failed {err : Int} (moved : Int) (failed : err = mpiFail) :
    ((w.finishTransfer id err moved).world.cookies id).err ≠ 0 := by
  subst failed
  by_cases clean : (w.cookies id).err = 0
  · simp [World.finishTransfer, clean, mpiFail, int16]
  · simp [World.finishTransfer, clean]

theorem writeToOwner_failed {count seek skip : Int}
    (written : w.writeToOwner vm id buf iovec count seek skip = .ok done) (failed : done.ret ≠ mpiSuccess) :
    (done.world.cookies id).err ≠ 0 := by
  unfold World.writeToOwner at written
  dsimp only at written
  split at written
  · obtain rfl := Outcome.ok.inj written
    exact finishTransfer_failed 0 rfl
  · split at written
    · cases written
    · obtain rfl := Outcome.ok.inj written
      apply finishTransfer_failed
      split
      · rfl
      case isFalse all =>
        rw [World.finishTransfer, if_neg all] at failed
        exact absurd rfl failed

/-- When a read fails, and that it leaves an error then. -/
theorem readFromOwner_failed {size count seek skip : Int}
    (read : w.readFromOwner vm id buf iovec size count seek skip = .ok done) :
    (done.ret ≠ mpiSuccess ↔ w.ReadFails vm id buf iovec size count seek skip) ∧
      (done.ret ≠ mpiSuccess → (done.world.cookies id).err ≠ 0) := by
  unfold World.readFromOwner at read
  unfold World.ReadFails
  dsimp only at read ⊢
  generalize (if count ≠ 0 then count
    else int32 (sizeT (((w.cookies id).size - skip) * (w.cookies id).iovec.len) / iovec.len : Nat)) =
      asked at read ⊢
  split at read
  · cases read
  · split at read
    case isTrue short =>
      obtain rfl := Outcome.ok.inj read
      refine ⟨?_, fun _ => finishTransfer_failed 0 rfl⟩
      simp [World.finishTransfer, short, mpiFail, mpiSuccess]
    case isFalse enough =>
      obtain rfl := Outcome.ok.inj read
      simp only [World.finishTransfer, enough, false_or]
      split
      case isTrue partially =>
        refine ⟨?_, fun _ => finishTransfer_failed 0 rfl⟩
        simp only [mpiFail, mpiSuccess, ne_eq, one_ne_zero, not_false_eq_true, true_iff]
        exact Ne.symm partially
      case isFalse all =>
        have moved := (not_not.mp all).symm
        simp [moved]

/-- An action returns an error exactly when it stops the call, and leaves one whenever it fails. -/
theorem Action.exec_failed {self : Nat} {action : Action} (performed : action.exec vm w self = .ok done) :
    (done.ret ≠ mpiSuccess → action.Stops vm w self) ∧
      ∀ id, action.transfer = some id → action.Fails vm w self → (done.world.cookies id).err ≠ 0 := by
  cases action with
  | moveToPending other =>
      obtain rfl := Outcome.ok.inj performed
      exact ⟨fun failed => absurd rfl failed, fun id transfers => nomatch transfers⟩
  | writeToOwner other buf iovec count seek skip =>
      obtain ⟨seekValue, seekEq, rest⟩ := Outcome.bind_eq_ok.mp performed
      obtain ⟨skipValue, skipEq, written⟩ := Outcome.bind_eq_ok.mp rest
      have returned := writeToOwner_ret written
      simp only [Action.Stops, Action.Fails, seekEq, skipEq]
      refine ⟨mt returned.mpr, fun id transfers fails => ?_⟩
      obtain rfl := Option.some.inj transfers
      exact writeToOwner_failed written (mt returned.mp fails)
  | readFromOwner other buf iovec size count seek skip =>
      obtain ⟨seekValue, seekEq, rest⟩ := Outcome.bind_eq_ok.mp performed
      obtain ⟨skipValue, skipEq, read⟩ := Outcome.bind_eq_ok.mp rest
      obtain ⟨returned, leaves⟩ := readFromOwner_failed read
      simp only [Action.Stops, Action.Fails, seekEq, skipEq]
      refine ⟨returned.mp, fun id transfers fails => ?_⟩
      obtain rfl := Option.some.inj transfers
      exact leaves (returned.mpr fails)
  | readIgnored other buf iovec size count =>
      obtain ⟨read, readEq, last⟩ := Outcome.bind_eq_ok.mp performed
      obtain rfl := Outcome.ok.inj last
      obtain ⟨returned, leaves⟩ := readFromOwner_failed readEq
      refine ⟨fun failed => absurd rfl failed, fun id transfers fails => ?_⟩
      obtain rfl := Option.some.inj transfers
      exact leaves (returned.mpr fails)
  | reduce op invec inoutvec count iovec =>
      obtain rfl := Outcome.ok.inj performed
      exact ⟨fun failed => absurd rfl failed, fun id transfers => nomatch transfers⟩

end Failing

/-! ### The invariant -/

/-- The part of a system that has to do with the ranks of `past`. -/
def Sys.only (s : Sys) (past : List Nat) : Sys :=
  { s with ranks := fun rank => if rank ∈ past then s.ranks rank else RankState.new }

/-- Where the cookies of an operation are that the ranks of `past` have joined, and who has a handle on
    them. Ranks that are not in `past` have not called yet, or their call was rejected. -/
structure Custody (schedule : Schedule) (n : Nat) (past : List Nat) (made : Nat → Nat)
    (failed : Nat → Prop) (s : Sys) : Prop where
  absent : ∀ rank, rank ∉ past → ((s.ranks rank).pos = 0 → s.ranks rank = RankState.new) ∧
    (s.ranks rank).cont = [] ∧ (s.ranks rank).todo = [] ∧ (s.ranks rank).requests = []
  moves : ∀ rank, ((s.ranks rank).cont.flatMap Action.moved).Perm (s.ranks rank).todo
  nodup : ∀ rank, (s.ranks rank).todo.Nodup
  single : ∀ rank, (s.ranks rank).requests.length ≤ 1
  /-- `used_` is the number of handles. -/
  used : ∀ rank k, schedule.numOf n rank past = some k →
    (s.world.cookies (made rank)).used = held n s.ranks (made rank)
  /-- A cookie that has left the box is in a call's list or in `pending_`, or nobody uses it. -/
  place : ∀ rank k, schedule.numOf n rank past = some k → rank ∉ schedule.box n past →
    (∃ caller < n, made rank ∈ (s.ranks caller).todo) ∨ made rank ∈ (s.world.procs rank).pending ∨
      held n s.ranks (made rank) = 0
  named : ∀ id, failed id → ∃ rank k, schedule.numOf n rank past = some k ∧ made rank = id
  reported : ∀ id, failed id → (s.world.cookies id).err ≠ 0

namespace Custody

variable {schedule : Schedule} {n t : Nat} {origin : Sys} {offers : Nat → Offer} {past : List Nat}
  {made : Nat → Nat} {failed : Nat → Prop} {s : Sys} {self : Nat}

theorem start (ready : s.Ready n t) (made : Nat → Nat) : Custody schedule n [] made (fun _ => False) s where
  absent := fun rank _ => by simp [ready.idle, RankState.new]
  moves := fun rank => by simp [ready.idle, RankState.new]
  nodup := fun rank => by simp [ready.idle, RankState.new]
  single := fun rank => by simp [ready.idle, RankState.new]
  used := fun _ _ impossible => nomatch impossible
  place := fun _ _ impossible => nomatch impossible
  named := fun _ impossible => impossible.elim
  reported := fun _ impossible => impossible.elim

/-- Nothing is hidden by looking at the ranks of `past` only. -/
theorem only_self (joined : self ∈ past) : (s.only past).ranks self = s.ranks self := if_pos joined

theorem only_requests (custody : Custody schedule n past made failed s) (rank : Nat) :
    ((s.only past).ranks rank).requests = (s.ranks rank).requests := by
  by_cases joined : rank ∈ past
  · rw [only_self joined]
  · rw [(custody.absent rank joined).2.2.2]
    simp [Sys.only, joined, RankState.new]

/-- A call by a rank of `past` changes the same in both views. -/
theorem only_update (joined : self ∈ past) (world : World) (state : RankState) (joins : Nat → List Join) :
    ({ world := world, ranks := Function.update s.ranks self state, joins := joins } : Sys).only past =
      { world := world, ranks := Function.update (s.only past).ranks self state, joins := joins } := by
  simp only [Sys.only, Sys.mk.injEq, true_and, and_true]
  funext rank
  by_cases own : rank = self
  · subst own
    simp [joined]
  · simp [own]

/-- A rank that joins becomes visible. -/
theorem only_join (world : World) (state : RankState) (joins : Nat → List Join) :
    ({ world := world, ranks := Function.update s.ranks self state, joins := joins } : Sys).only
        (self :: past) =
      { world := world, ranks := Function.update (s.only past).ranks self state, joins := joins } := by
  simp only [Sys.only, Sys.mk.injEq, true_and, and_true]
  funext rank
  by_cases own : rank = self
  · subst own
    simp
  · simp [own]

/-- A rank whose call is rejected stays hidden. -/
theorem only_reject (absent : self ∉ past) (state : RankState) (joins : Nat → List Join) :
    ({ world := s.world, ranks := Function.update s.ranks self state, joins := joins } : Sys).only past =
      { s.only past with joins := joins } := by
  simp only [Sys.only, Sys.mk.injEq, true_and, and_true]
  funext rank
  by_cases own : rank = self
  · subst own
    simp [absent]
  · simp [own]

/-- The books do not mention the record of joins. -/
theorem ledger_joins (ledger : Ledger schedule n t origin offers past made s) (joins : Nat → List Join) :
    Ledger schedule n t origin offers past made { s with joins := joins } :=
  ledger.update rfl rfl rfl (fun _ => rfl) (fun _ _ => rfl) (fun _ => rfl) (fun _ => rfl)
    (fun _ _ listed => listed) (fun _ _ listed => listed) (fun _ _ _ => rfl) fun _ _ _ => rfl

section Entering

variable {mid w' : World} {offer : Offer} {cont : List Action} {frame : Frame} {made' : Nat → Nat}

/-- The handle of a rank that joins. -/
theorem enter_requests (entered : Entered schedule n past s.world self mid offer cont (w', frame) made made') :
    (RankState.new.enter frame).requests = [made' (schedule.request n past self)] := by
  have request : frame.request = some (made' (schedule.request n past self)) := entered.settles.request
  simp [RankState.enter, RankState.new, request]

/-- A rank that joins passes its error-free cookie on, and no error is forgotten. -/
theorem enter_err (entered : Entered schedule n past s.world self mid offer cont (w', frame) made made')
    {id : Nat} (old : (schedule.num n past self).isSome → id ≠ made' self)
    (error : (s.world.cookies id).err ≠ 0) : (w'.cookies id).err ≠ 0 := by
  have kept := entered.settles.cookies id (by
    intro makes
    refine old ?_
    simpa [Schedule.settlement, Option.isSome_iff_ne_none] using makes)
  have same : (w'.cookies id).err = (mid.cookies id).err := (congrArg Cookie.err kept :)
  rw [same]
  exact entered.midway.err id error

/-- No cookie leaves a `pending_` list when a rank joins. -/
theorem enter_pending_mono
    (entered : Entered schedule n past s.world self mid offer cont (w', frame) made made') {id rank : Nat}
    (listed : id ∈ (s.world.procs rank).pending) : id ∈ (w'.procs rank).pending := by
  obtain ⟨retiredOwner, grown, others⟩ := Placed.enter_pending entered
  by_cases same : rank = retiredOwner
  · subst same
    rw [grown]
    exact List.mem_append_right _ listed
  · rwa [others rank same]

/-- The root's cookie is handed to its own `pending_` list by the rank that joins last. -/
theorem enter_retired (ledger : Ledger schedule n t origin offers past made (s.only past))
    (suits : schedule.Suits n) (joining : Schedule.Joining n (self :: past))
    (entered : Entered schedule n past s.world self mid offer cont (w', frame) made made') {rank : Nat}
    (retired : schedule.retired n past self = some rank) : made' rank ∈ (w'.procs rank).pending := by
  have pending := entered.settles.pending rank
  simp only [Schedule.settlement, retired] at pending
  have inBox : rank ∈ schedule.box n past ∧ rank ≠ self := by
    cases schedule with
    | rooted root =>
        simp only [Schedule.retired] at retired
        split at retired
        case isTrue root' =>
          obtain rfl := Option.some.inj retired
          have notFull : past.length ≠ n := Nat.ne_of_lt joining.length_le
          simp [Schedule.box, notFull, root'.2.1, Ne.symm root'.1]
        case isFalse => cases retired
    | collecting | chain | ladder => cases retired
  obtain ⟨k, makes⟩ := ledger.makes_of_mem_box suits inBox.1
  have owner : (mid.cookies (made rank)).owner = rank := by
    have kept : (mid.cookies (made rank)).owner = (s.world.cookies (made rank)).owner :=
      (congrArg Cookie.owner (entered.midway.fixed (made rank)) :)
    exact kept.trans (ledger.owner makes)
  rw [pending, entered.settles.madeOthers rank inBox.2]
  simp [World.moveToPending, owner]

/-- The next rank joins. -/
theorem enter (custody : Custody schedule n past made failed s)
    (ledger : Ledger schedule n t origin offers past made (s.only past)) (ready : origin.Ready n t)
    (suits : schedule.Suits n) (small : n + 1 < 2 ^ 15) (valid : self < n) (absent : self ∉ past)
    (new : s.ranks self = RankState.new)
    (entered : Entered schedule n past s.world self mid offer cont (w', frame) made made')
    (joins : Nat → List Join) :
    Custody schedule n (self :: past) made' failed
      { world := w'
        ranks := Function.update s.ranks self ((s.ranks self).enter frame)
        joins := joins } := by
  have arriving := ledger.arriving ready suits.several (fun _ => suits) (by omega) valid absent
  have joining := arriving.joining
  have others := entered.settles.madeOthers
  have todo : frame.todo = (schedule.taken n past self).map made' := entered.settles.todo
  have requests := enter_requests entered
  have after := ledger.enter ready suits small valid absent entered joins
  -- an older cookie keeps its name, and the new one has another
  have old : ∀ rank k, rank ≠ self → schedule.numOf n rank (self :: past) = some k →
      schedule.numOf n rank past = some k ∧ made' rank = made rank ∧
        ((schedule.num n past self).isSome → made' rank ≠ made' self) := by
    intro rank k other makes
    rw [Ledger.numOf_other other] at makes
    exact ⟨makes, others rank other, fun isNew => others rank other ▸
      ledger.enter_apart ready absent entered makes isNew⟩
  have update : ∀ id, held n (Function.update s.ranks self ((s.ranks self).enter frame)) id =
      held n s.ranks id + if made' (schedule.request n past self) = id then 1 else 0 := by
    intro id
    have updated := held_update s.ranks valid ((s.ranks self).enter frame) id
    rw [new, requests, RankState.new_requests, List.count_nil, Nat.add_zero, List.count_singleton] at updated
    rw [new, updated]
    simp only [beq_iff_eq]
  have request := Schedule.request_cases joining suits
  refine
    { absent := ?_, moves := ?_, nodup := ?_, single := ?_, used := ?_, place := ?_, named := ?_,
      reported := ?_ }
  · intro rank notJoined
    obtain ⟨different, earlier⟩ := not_or.mp (mt List.mem_cons.mpr notJoined)
    simpa [different] using custody.absent rank earlier
  · intro rank
    by_cases own : rank = self
    · subst own
      have script := entered.script.moves
      have contEq : frame.cont = cont := entered.settles.cont
      simpa [contEq, todo] using script
    · simpa [own] using custody.moves rank
  · intro rank
    by_cases own : rank = self
    · subst own
      simp only [Function.update_self, RankState.enter_todo, todo]
      refine (Schedule.taken_nodup joining).map_on ?_
      intro first firstTaken second secondTaken same
      have makes : ∀ other ∈ schedule.taken n past rank,
          ∃ k, schedule.numOf n other (rank :: past) = some k := by
        intro other taken
        rcases Schedule.mem_box_of_taken joining suits taken with inBox | ⟨rfl, isNew⟩
        · obtain ⟨k, made⟩ := ledger.makes_of_mem_box suits inBox
          exact ⟨k, Ledger.makes_mono joining.fresh made⟩
        · rw [Ledger.numOf_self]
          exact Option.isSome_iff_exists.mp isNew
      obtain ⟨k, firstMakes⟩ := makes first firstTaken
      obtain ⟨l, secondMakes⟩ := makes second secondTaken
      exact after.distinct first second k l firstMakes secondMakes same
    · simpa [own] using custody.nodup rank
  · intro rank
    by_cases own : rank = self
    · subst own
      simp only [Function.update_self, new, requests, List.length_singleton, le_refl]
    · simpa [own] using custody.single rank
  · intro rank k makes
    dsimp only
    rw [update]
    by_cases own : rank = self
    · subst own
      rw [Ledger.numOf_self] at makes
      obtain ⟨_, fresh⟩ := entered.newCookie makes
      have unheld : held n s.ranks (made' rank) = 0 := by
        by_contra some
        obtain ⟨holder, member, listed⟩ := Finset.exists_ne_zero_of_sum_ne_zero some
        have inRequests := List.count_pos_iff.mp (Nat.pos_of_ne_zero listed)
        rw [← custody.only_requests] at inRequests
        obtain ⟨other, l, otherMakes, name⟩ := ledger.requests holder _ inRequests
        exact ledger.enter_apart ready absent entered otherMakes (by rw [makes]; rfl) name
      have one : (w'.cookies (made' rank)).used = 1 := (congrArg Cookie.used fresh :)
      simp [one, unheld, Schedule.request_of_num makes]
    · obtain ⟨oldMakes, name, apart⟩ := old rank k own makes
      rw [entered.used apart, name, custody.used rank k oldMakes]
      have bound := held_le n (made rank) custody.single
      split
      · rw [int16_of_range (by omega) (by omega)]
        push_cast
        ring
      · simp
  · intro rank k makes gone
    by_cases leaves : rank ∈ schedule.box n past ∨ rank = self ∧ (schedule.num n past self).isSome
    · rcases Schedule.taken_or_retired joining suits leaves gone with taken | retired
      · refine Or.inl ⟨self, valid, ?_⟩
        simp only [Function.update_self, RankState.enter_todo, todo]
        exact List.mem_map_of_mem taken
      · exact Or.inr (Or.inl (enter_retired ledger suits joining entered retired))
    · obtain ⟨stays, notNew⟩ := not_or.mp leaves
      have own : rank ≠ self := by
        rintro rfl
        rw [Ledger.numOf_self] at makes
        exact notNew ⟨rfl, by rw [makes]; rfl⟩
      obtain ⟨oldMakes, name, apart⟩ := old rank k own makes
      dsimp only
      rw [name]
      rcases custody.place rank k oldMakes stays with ⟨caller, inRange, listed⟩ | pending | unheld
      · refine Or.inl ⟨caller, inRange, ?_⟩
        have other : caller ≠ self := by
          rintro rfl
          rw [new] at listed
          cases listed
        rwa [Function.update_of_ne other]
      · exact Or.inr (Or.inl (enter_pending_mono entered pending))
      · refine Or.inr (Or.inr ?_)
        have elsewhere : made' (schedule.request n past self) ≠ made rank := by
          rw [← name]
          rcases request with inBox | ⟨same, isNew⟩
          · obtain ⟨l, requestMakes⟩ := ledger.makes_of_mem_box suits inBox
            intro same
            have identical := after.distinct _ _ l k (Ledger.makes_mono absent requestMakes) makes same
            exact stays (identical ▸ inBox)
          · rw [same]
            exact (apart isNew).symm
        rw [update, unheld, if_neg elsewhere]
  · intro id fails
    obtain ⟨rank, k, makes, name⟩ := custody.named id fails
    have other : rank ≠ self := fun same => absent (same ▸ Schedule.mem_of_numOf makes)
    exact ⟨rank, k, Ledger.makes_mono absent makes, (others rank other).trans name⟩
  · intro id fails
    obtain ⟨rank, k, makes, rfl⟩ := custody.named id fails
    exact enter_err entered (fun isNew => ledger.enter_apart ready absent entered makes isNew)
      (custody.reported _ fails)

end Entering

section Acting

variable {vm : ProcessVm} {action : Action} {rest : List Action} {done : Transferred}

/-- The local list holds what the remaining actions move, also when the last one has failed. -/
theorem advance_moves {state : RankState} (moves : ((action :: rest).flatMap Action.moved).Perm state.todo)
    (nodup : state.todo.Nodup) {ret : Int} (goesOn : ret = mpiSuccess ∨ rest = []) :
    (rest.flatMap Action.moved).Perm (state.advance action.moved rest ret).todo ∧
      (state.advance action.moved rest ret).todo.Nodup ∧
      ∀ id ∈ state.todo, id ∈ action.moved ∨ id ∈ (state.advance action.moved rest ret).todo := by
  have left : (rest.flatMap Action.moved).Perm (state.advance action.moved rest ret).todo :=
    Placed.advance_todo moves nodup goesOn
  have distinct : (rest.flatMap Action.moved).Nodup := by
    have all := moves.nodup_iff.mpr nodup
    rw [List.flatMap_cons] at all
    exact (List.nodup_append'.mp all).2.1
  refine ⟨left, left.nodup_iff.mp distinct, fun id listed => ?_⟩
  have inMoves := moves.mem_iff.mpr listed
  rw [List.flatMap_cons] at inMoves
  exact (List.mem_append.mp inMoves).imp_right left.mem_iff.mp

/-- A rank performs an action, which succeeds unless it is the last one. -/
theorem act (custody : Custody schedule n past made failed s)
    (ledger : Ledger schedule n t origin offers past made (s.only past))
    (todo : (s.ranks self).cont = action :: rest) (performed : action.exec vm s.world self = .ok done)
    (goesOn : done.ret = mpiSuccess ∨ rest = []) :
    Custody schedule n past made (fun id => failed id ∨ s.FailsThrough vm (.act self) id)
      { s with
        world := done.world
        ranks := Function.update s.ranks self
          ((s.ranks self).advance action.moved rest done.ret) } := by
  have joined : self ∈ past := by
    by_contra absent
    rw [(custody.absent self absent).2.1] at todo
    cases todo
  have valid := ledger.joining.bound self joined
  have movesBefore := custody.moves self
  rw [todo] at movesBefore
  obtain ⟨left, distinct, stays⟩ := advance_moves movesBefore (custody.nodup self) goesOn
  have sameHeld : ∀ id, held n (Function.update s.ranks self ((s.ranks self).advance action.moved rest
      done.ret)) id = held n s.ranks id := by
    intro id
    have updated := held_update s.ranks valid ((s.ranks self).advance action.moved rest done.ret) id
    rw [RankState.advance_requests] at updated
    omega
  -- what the step does to shared state, seen from a cookie
  have world : (∀ id, (done.world.cookies id).used = (s.world.cookies id).used) ∧
      (∀ rank id, id ∈ (s.world.procs rank).pending → id ∈ (done.world.procs rank).pending) ∧
      (∀ id ∈ action.moved, id ∈ (done.world.procs (s.world.cookies id).owner).pending) ∧
      ∀ id, (s.world.cookies id).err ≠ 0 → (done.world.cookies id).err ≠ 0 := by
    rcases Action.exec_cases performed with ⟨moved, rfl, world, _⟩ | ⟨nothing, midway⟩
    · rw [world]
      refine ⟨fun _ => rfl, fun rank id listed => ?_, fun id isMoved => ?_, fun _ error => error⟩
      · by_cases own : rank = (s.world.cookies moved).owner
        · subst own
          simp [World.moveToPending, listed]
        · simpa [World.moveToPending, own] using listed
      · obtain rfl := List.mem_singleton.mp isMoved
        simp [World.moveToPending]
    · refine ⟨fun id => (congrArg Cookie.used (midway.fixed id) :), fun rank id listed => ?_, ?_, midway.err⟩
      · rwa [show (done.world.procs rank).pending = (s.world.procs rank).pending from
          (congrArg (fun lists => lists.2.2.2) (midway.lists rank) :)]
      · rw [nothing]
        exact fun _ impossible => absurd impossible List.not_mem_nil
  obtain ⟨used, pending, moved, err⟩ := world
  refine
    { absent := ?_, moves := ?_, nodup := ?_, single := ?_, used := ?_, place := ?_, named := ?_,
      reported := ?_ }
  · intro rank notJoined
    have other : rank ≠ self := fun same => notJoined (same ▸ joined)
    simpa [other] using custody.absent rank notJoined
  · intro rank
    by_cases own : rank = self
    · subst own
      dsimp only
      rw [Function.update_self, RankState.advance_cont _ _ _ _ goesOn]
      exact left
    · simpa [own] using custody.moves rank
  · intro rank
    by_cases own : rank = self
    · subst own
      dsimp only
      rwa [Function.update_self]
    · simpa [own] using custody.nodup rank
  · intro rank
    by_cases own : rank = self
    · subst own
      simpa using custody.single rank
    · simpa [own] using custody.single rank
  · intro rank k makes
    rw [sameHeld]
    exact (used _).trans (custody.used rank k makes)
  · intro rank k makes gone
    dsimp only
    rw [sameHeld]
    rcases custody.place rank k makes gone with ⟨caller, inRange, listed⟩ | old | unheld
    · by_cases own : caller = self
      · subst own
        rcases stays _ listed with now | later
        · have arrived := moved _ now
          rw [show (s.world.cookies (made rank)).owner = rank from ledger.owner makes] at arrived
          exact Or.inr (Or.inl arrived)
        · exact Or.inl ⟨caller, inRange, by rwa [Function.update_self]⟩
      · exact Or.inl ⟨caller, inRange, by rwa [Function.update_of_ne own]⟩
    · exact Or.inr (Or.inl (pending rank _ old))
    · exact Or.inr (Or.inr unheld)
  · rintro id (before | ⟨caller, now, others, ⟨⟩, listed, transfers, _⟩)
    · exact custody.named id before
    · obtain ⟨rfl, rfl⟩ := List.cons.inj (todo.symm.trans listed)
      refine ledger.through self action ?_ id transfers
      rw [only_self joined, todo]
      exact List.mem_cons_self
  · rintro id (before | ⟨caller, now, others, ⟨⟩, listed, transfers, fails⟩)
    · exact err id (custody.reported id before)
    · obtain ⟨rfl, rfl⟩ := List.cons.inj (todo.symm.trans listed)
      exact (Action.exec_failed performed).2 id transfers fails

/-- A rank returns from a wait. -/
theorem leave (custody : Custody schedule n past made failed s)
    (ledger : Ledger schedule n t origin offers past made (s.only past)) (small : n + 1 < 2 ^ 15) {id : Nat}
    (listed : id ∈ (s.ranks self).requests) (err : Int) :
    Custody schedule n past made failed
      { s with
        world := s.world.finalize id
        ranks := Function.update s.ranks self ((s.ranks self).leave id err) } := by
  have joined : self ∈ past := by
    by_contra absent
    rw [(custody.absent self absent).2.2.2] at listed
    cases listed
  have valid := ledger.joining.bound self joined
  have released : ∀ other, held n (Function.update s.ranks self ((s.ranks self).leave id err)) other +
      (if other = id then 1 else 0) = held n s.ranks other := by
    intro other
    have updated := held_update s.ranks valid ((s.ranks self).leave id err) other
    have positive := List.count_pos_iff.mpr listed
    rw [RankState.leave_requests, List.count_erase] at updated
    by_cases same : other = id
    · subst same
      simp only [beq_self_eq_true, if_true] at updated ⊢
      omega
    · simp only [beq_iff_eq, Ne.symm same, same, if_false] at updated ⊢
      omega
  have used : ∀ rank k, schedule.numOf n rank past = some k →
      ((s.world.finalize id).cookies (made rank)).used =
        held n (Function.update s.ranks self ((s.ranks self).leave id err)) (made rank) := by
    intro rank k makes
    have before := custody.used rank k makes
    have fewer := released (made rank)
    have bound := held_le n (made rank) custody.single
    by_cases same : made rank = id
    · have here : ((s.world.finalize id).cookies (made rank)).used =
          int16 ((s.world.cookies (made rank)).used - 1) := by
        simp [same]
      rw [if_pos same] at fewer
      rw [here, before, int16_of_range (by omega) (by omega)]
      omega
    · rw [if_neg same] at fewer
      simpa [same, ← fewer] using before
  refine
    { absent := ?_, moves := ?_, nodup := ?_, single := ?_, used := used, place := ?_,
      named := custody.named, reported := ?_ }
  · intro rank notJoined
    have other : rank ≠ self := fun same => notJoined (same ▸ joined)
    simpa [other] using custody.absent rank notJoined
  · intro rank
    by_cases own : rank = self
    · subst own
      simpa using custody.moves rank
    · simpa [own] using custody.moves rank
  · intro rank
    by_cases own : rank = self
    · subst own
      simpa using custody.nodup rank
    · simpa [own] using custody.nodup rank
  · intro rank
    by_cases own : rank = self
    · subst own
      dsimp only
      rw [Function.update_self, RankState.leave_requests]
      exact List.length_erase_le.trans (custody.single rank)
    · simpa [own] using custody.single rank
  · intro rank k makes gone
    rcases custody.place rank k makes gone with ⟨caller, inRange, inTodo⟩ | pending | unheld
    · refine Or.inl ⟨caller, inRange, ?_⟩
      by_cases own : caller = self
      · subst own
        simpa using inTodo
      · simpa [own] using inTodo
    · -- `finalize` takes out what nobody uses any more
      by_cases unused : ((s.world.finalize id).cookies (made rank)).used = 0
      · rw [used rank k makes] at unused
        exact Or.inr (Or.inr (by exact_mod_cast unused))
      · refine Or.inr (Or.inl ?_)
        rw [World.finalize_cookies] at unused
        by_cases owner : rank = (s.world.cookies id).owner
        · subst owner
          simp [World.finalize, pending, unused]
        · simpa [World.finalize, owner] using pending
    · have fewer := released (made rank)
      exact Or.inr (Or.inr (by dsimp only; omega))
  · intro other fails
    have before := custody.reported other fails
    by_cases same : other = id
    · subst same
      simpa using before
    · simpa [same] using before

end Acting

/-- A call that is rejected leaves no trace but its return value. -/
theorem reject (custody : Custody schedule n past made failed s) (absent : self ∉ past)
    (joins : Nat → List Join) :
    Custody schedule n past made failed
      { world := s.world
        ranks := Function.update s.ranks self ((s.ranks self).enter (Frame.failed mpiFail))
        joins := joins } := by
  obtain ⟨_, cont, todo, requests⟩ := custody.absent self absent
  have sameHeld : ∀ id, held n (Function.update s.ranks self ((s.ranks self).enter (Frame.failed mpiFail)))
      id = held n s.ranks id := by
    intro id
    refine Finset.sum_congr rfl fun rank _ => ?_
    by_cases own : rank = self
    · subst own
      simp [Frame.failed]
    · rw [Function.update_of_ne own]
  refine
    { absent := ?_, moves := ?_, nodup := ?_, single := ?_, used := ?_, place := ?_,
      named := custody.named, reported := custody.reported }
  · intro rank notJoined
    by_cases own : rank = self
    · subst own
      simp [Frame.failed, requests]
    · simpa [own] using custody.absent rank notJoined
  · intro rank
    by_cases own : rank = self
    · subst own
      simp [Frame.failed]
    · simpa [own] using custody.moves rank
  · intro rank
    by_cases own : rank = self
    · subst own
      simp [Frame.failed]
    · simpa [own] using custody.nodup rank
  · intro rank
    by_cases own : rank = self
    · subst own
      simp [Frame.failed, requests]
    · simpa [own] using custody.single rank
  · intro rank k makes
    rw [sameHeld]
    exact custody.used rank k makes
  · intro rank k makes gone
    rw [sameHeld]
    rcases custody.place rank k makes gone with ⟨caller, inRange, listed⟩ | elsewhere
    · refine Or.inl ⟨caller, inRange, ?_⟩
      have other : caller ≠ self := by
        rintro rfl
        rw [todo] at listed
        cases listed
      simpa [other] using listed
    · exact Or.inr elsewhere

/-- It does not matter how the failures are described. -/
theorem of_failed (custody : Custody schedule n past made failed s) {failed' : Nat → Prop}
    (fewer : ∀ id, failed' id → failed id) : Custody schedule n past made failed' s :=
  { custody with
    named := fun id fails => custody.named id (fewer id fails)
    reported := fun id fails => custody.reported id (fewer id fails) }

end Custody

/-! ### Runs -/

section Runs

variable {schedule : Schedule} {n t : Nat} {origin : Sys} {past : List Nat} {made : Nat → Nat}
  {offers : Nat → Offer} {failed : Nat → Prop} {s : Sys} {calls : Nat → Call}

/-- The books and the whereabouts of the cookies are in order. -/
def Served (schedule : Schedule) (n t : Nat) (origin : Sys) (failed : Nat → Prop) (s : Sys) : Prop :=
  ∃ offers past made, Ledger schedule n t origin offers past made (s.only past) ∧
    Custody schedule n past made failed s ∧ (past ≠ [] → schedule.Suits n)

/-- A call has returned with the mutex held, before anything was taken out of the box. -/
structure Locked (n t : Nat) (s : Sys) : Prop where
  size : s.world.size = n
  mutex : (s.world.slots (t % umpiOutstandingCollectiveOperations)).mutex ≠ none
  box : ∀ id ∈ (s.world.slots (t % umpiOutstandingCollectiveOperations)).made,
    id ∈ (s.world.slots (t % umpiOutstandingCollectiveOperations)).box
  ticket : ∀ rank < n, (s.ranks rank).pos = 0 → s.world.ticket rank = t

/-- Nobody has been abandoned while the books are in order. -/
theorem Served.noneAbandoned (served : Served schedule n t origin failed s) :
    NoneAbandoned n t failed s := by
  obtain ⟨offers, past, made, ledger, custody, suits⟩ := served
  -- what has been taken out are cookies that ranks of `past` have made
  have maker : ∀ id, s.TakenOut n t id → schedule.Suits n ∧ ∃ rank k,
      schedule.numOf n rank past = some k ∧ made rank = id ∧ rank ∉ schedule.box n past := by
    rintro id ⟨⟨joiner, valid, moved⟩, listed, gone⟩
    have nonempty : past ≠ [] := by
      rintro rfl
      exact moved (ledger.ticket joiner valid (by simp))
    obtain ⟨rank, k, makes, rfl⟩ := (ledger.record nonempty id).mp listed
    refine ⟨suits nonempty, rank, k, makes, rfl, fun inBox => gone ?_⟩
    have box : (s.world.slots (t % umpiOutstandingCollectiveOperations)).box =
        (schedule.box n past).map made := ledger.standing.box
    rw [box]
    exact List.mem_map_of_mem inBox
  have place : ∀ id, s.TakenOut n t id → ∀ rank < n, id ∈ (s.ranks rank).requests →
      (∃ caller < n, id ∈ (s.ranks caller).todo) ∨
        id ∈ (s.world.procs (s.world.cookies id).owner).pending := by
    intro id taken holder valid handle
    obtain ⟨_, rank, k, makes, rfl, gone⟩ := maker id taken
    rw [show (s.world.cookies (made rank)).owner = rank from ledger.owner makes]
    rcases custody.place rank k makes gone with inTodo | pending | unheld
    · exact Or.inl inTodo
    · exact Or.inr pending
    · exact absurd handle (notMem_of_held_eq_zero unheld valid)
  refine { kept := place, pending := ?_, notified := ?_, reported := fun id _ => custody.reported id }
  · intro returned id taken rank valid handle
    refine (place id taken rank valid handle).resolve_left ?_
    rintro ⟨caller, inRange, listed⟩
    have moves := custody.moves caller
    rw [returned caller inRange] at moves
    exact absurd (moves.mem_iff.mpr listed) (by simp)
  · intro returned id taken
    obtain ⟨suited, rank, k, makes, rfl, gone⟩ := maker id taken
    have nothing : due n (s.only past).ranks (made rank) = 0 := by
      apply due_eq_zero
      intro caller inRange
      by_cases joined : caller ∈ past
      · rw [Custody.only_self joined]
        exact returned caller inRange
      · exact ledger.idle caller joined
    have issued := Schedule.issued_add_future ledger.joining suited makes
    rw [Schedule.future_of_gone (Schedule.mem_of_numOf makes) suited ledger.joining gone] at issued
    have so := ledger.notified rank k makes
    have balance := ledger.busy rank k makes
    have number := ledger.num makes
    simp only [Sys.only] at so balance number nothing
    rw [number]
    constructor <;> omega

/-- Nothing is out of the box of a slot that has been locked. -/
theorem Locked.noneAbandoned (locked : Locked n t s) : NoneAbandoned n t failed s where
  kept := fun id taken => absurd (locked.box id taken.2.1) taken.2.2
  pending := fun _ id taken => absurd (locked.box id taken.2.1) taken.2.2
  notified := fun _ id taken => absurd (locked.box id taken.2.1) taken.2.2
  reported := fun id taken => absurd (locked.box id taken.2.1) taken.2.2

/-- A call that keeps the slot has found the cookies of all earlier ranks in the box. -/
theorem Call.mem_box_of_wrong {vm : ProcessVm} {w : World} {self : Nat} {call : Call}
    (wrong : call.RejectedAfter self ∨ call.TransferFails vm w self) (short : past.length < n)
    (absent : self ∉ past) {rank : Nat} (joined : rank ∈ past) : rank ∈ call.schedule.box n past := by
  have notFull : past.length ≠ n := Nat.ne_of_lt short
  have rooted : ∀ root : Int, (self : Int) = root → rank ∈ (Schedule.rooted root.toNat).box n past := by
    rintro root rfl
    simp [Schedule.box, notFull, absent, joined]
  cases call with
  | bcast => exact wrong.elim False.elim False.elim
  | allgather | allreduce | blockingAllreduce | exscan | scan =>
      simp [Call.schedule, Call.operation, Operation.schedule, Schedule.box, notFull, joined]
  | gather => exact rooted _ (wrong.resolve_right id).1
  | gatherv => exact rooted _ (wrong.resolve_right id).1
  | scatter => exact rooted _ (wrong.resolve_right id).1

/-- The slot in which a call has failed with the mutex held. -/
theorem Kept.locked {w : World} {self turn : Nat} {frame : Frame} {ranks : Nat → RankState}
    {joins : Nat → List Join} (kept : Kept (s.world.claimed self) w self turn frame)
    (turnEq : turn = t % umpiOutstandingCollectiveOperations) (here : s.world.turnOf self = turn)
    (size : s.world.size = n) (pos : (ranks self).pos ≠ 0)
    (ticket : ∀ rank < n, rank ≠ self → (ranks rank).pos = 0 → s.world.ticket rank = t)
    (box : (s.world.slots turn).box ≠ [] →
      ∀ id ∈ (s.world.slots turn).made, id ∈ (s.world.slots turn).box) :
    Locked n t { world := w, ranks := ranks, joins := joins } := by
  subst turnEq
  have boxEq : (w.slots (t % umpiOutstandingCollectiveOperations)).box =
      (s.world.slots (t % umpiOutstandingCollectiveOperations)).box := by
    refine ((congrArg Collect.box kept.control :)).trans ?_
    rw [← here]
    exact claimed_box s.world self
  have madeEq : (w.slots (t % umpiOutstandingCollectiveOperations)).made =
      if (s.world.slots (t % umpiOutstandingCollectiveOperations)).box = [] then []
      else (s.world.slots (t % umpiOutstandingCollectiveOperations)).made := by
    refine ((congrArg Collect.made kept.control :)).trans ?_
    rw [← here]
    exact claimed_made s.world self
  refine { size := kept.size.trans size, mutex := ?_, box := ?_, ticket := ?_ }
  · rw [kept.mutex]
    simp
  · intro id listed
    dsimp only at listed ⊢
    rw [madeEq] at listed
    rw [boxEq]
    split at listed
    · cases listed
    case isFalse busy => exact box busy id listed
  · intro rank valid waiting
    have other : rank ≠ self := fun same => pos (same ▸ waiting)
    dsimp only
    rw [kept.ticket]
    simpa [World.claimed, other] using ticket rank valid other waiting

/-- One step, after which the books are still in order or the slot has been locked. -/
theorem Served.step (served : Served schedule n t origin failed s) (ready : origin.Ready n t)
    (several : 2 ≤ n) (small : n + 1 < 2 ^ 15) (follow : ∀ rank < n, (calls rank).schedule = schedule)
    {vm : ProcessVm} {label : Label} {s' : Sys} (goesOn : LoopGoesOn vm s label)
    (stepped : s.step vm (once calls) label = .ok s') :
    Served schedule n t origin (fun id => failed id ∨ s.FailsThrough vm label id) s' ∨ Locked n t s' := by
  obtain ⟨offers, past, made, ledger, custody, suits⟩ := served
  cases label with
  | call self =>
      obtain ⟨call, w, frame, inRange, _, listed, entered, rfl⟩ := step_call stepped
      have quiet : ∀ id, (failed id ∨ s.FailsThrough vm (.call self) id) → failed id := by
        rintro id (before | ⟨_, _, _, ⟨⟩, _⟩)
        exact before
      have size : s.world.size = n := ledger.standing.size
      have valid : self < n := size ▸ inRange
      have first : (s.ranks self).pos = 0 ∧ call = calls self := by
        unfold once at listed
        split at listed
        case isTrue zero => exact ⟨zero, (Option.some.inj listed).symm⟩
        case isFalse => cases listed
      obtain ⟨pos, rfl⟩ := first
      have absent : self ∉ past := by
        intro joined
        have called := ledger.pos self
        rw [Custody.only_self joined, if_pos joined, pos] at called
        cases called
      have new := (custody.absent self absent).1 pos
      by_cases accepted : frame.Accepted
      · -- the call joins
        have joins := (ledger.call_enters vm ready (Or.inl several) suits small valid absent
          (follow self valid)).of_ok entered
        obtain ⟨suited, mid, offer, cont, made', joined⟩ := joins accepted
        have after := ledger.enter ready suited small valid absent joined (s.record w self)
        refine Or.inl ⟨Function.update offers self offer, self :: past, made', ?_, ?_, fun _ => suited⟩
        · have hidden : (s.only past).ranks self = s.ranks self := by
            rw [new]
            exact if_neg absent
          rw [hidden] at after
          rw [Custody.only_join]
          exact after
        · exact (custody.enter ledger ready suited small valid absent new joined _).of_failed quiet
      · cases Call.enter_exits entered with
        | outside rejected left =>
            obtain ⟨rfl, rfl⟩ := left.failed (by omega)
            refine Or.inl ⟨offers, past, made, ?_, (custody.reject absent _).of_failed quiet, suits⟩
            rw [Custody.only_reject absent]
            exact Custody.ledger_joins ledger _
        | released notRejected checked succeeded left => exact absurd (fun _ => left.ret) accepted
        | kept notRejected wrong left =>
            have turn : s.world.turnOf self = t % umpiOutstandingCollectiveOperations := by
              rw [World.turnOf, show s.world.ticket self = t from ledger.ticket self valid absent]
            refine Or.inr (left.locked turn rfl size (by simp) ?_ ?_)
            · intro rank rankValid other waiting
              rw [Function.update_of_ne other] at waiting
              refine ledger.ticket rank rankValid fun joined => ?_
              have called := ledger.pos rank
              rw [Custody.only_self joined, if_pos joined, waiting] at called
              cases called
            · intro busy id named
              have here : s.world.ticket self % umpiOutstandingCollectiveOperations =
                  t % umpiOutstandingCollectiveOperations := turn
              rw [here] at busy named ⊢
              have box : (s.world.slots (t % umpiOutstandingCollectiveOperations)).box =
                  (schedule.box n past).map made := ledger.standing.box
              have nonempty : past ≠ [] := by
                rintro rfl
                refine busy (box.trans ?_)
                cases schedule <;> simp [Schedule.box]
              obtain ⟨rank, k, makes, rfl⟩ := (ledger.record nonempty id).mp named
              rw [box]
              refine List.mem_map_of_mem ?_
              have short : past.length < n :=
                (ledger.arriving ready (Or.inl several) suits (by omega) valid absent).joining.length_le
              rw [← follow self valid]
              exact Call.mem_box_of_wrong wrong short absent (Schedule.mem_of_numOf makes)
  | act self =>
      obtain ⟨action, rest, done, todo, performed, rfl⟩ := step_act stepped
      have joined : self ∈ past := by
        by_contra absent
        rw [(custody.absent self absent).2.1] at todo
        cases todo
      have onwards : done.ret = mpiSuccess ∨ rest = [] := by
        by_cases last : rest = []
        · exact Or.inr last
        · refine Or.inl (not_not.mp fun stops => ?_)
          exact goesOn self action rest rfl todo last ((Action.exec_failed performed).1 stops)
      refine Or.inl ⟨offers, past, made, ?_, custody.act ledger todo performed onwards, suits⟩
      have visible : ((s.only past).ranks self).cont = action :: rest := by
        rw [Custody.only_self joined, todo]
      have after := ledger.act (suits (List.ne_nil_of_mem joined)) small visible performed onwards
      rw [Custody.only_self joined] at after
      rw [Custody.only_update joined]
      exact after
  | wait self id =>
      obtain ⟨_, listed, _, rfl⟩ := step_wait stepped
      have quiet : ∀ other, (failed other ∨ s.FailsThrough vm (.wait self id) other) → failed other := by
        rintro other (before | ⟨_, _, _, ⟨⟩, _⟩)
        exact before
      have joined : self ∈ past := by
        by_contra absent
        rw [(custody.absent self absent).2.2.2] at listed
        cases listed
      refine Or.inl ⟨offers, past, made, ?_, (custody.leave ledger small listed _).of_failed quiet, suits⟩
      have visible : id ∈ ((s.only past).ranks self).requests := by rwa [Custody.only_self joined]
      have after := ledger.leave (s.world.cookies id).err visible
      rw [Custody.only_self joined] at after
      rw [Custody.only_update joined]
      exact after

/-- A slot that has been locked stays so. -/
theorem Locked.step (locked : Locked n t s) (several : 2 ≤ n) {vm : ProcessVm} {label : Label} {s' : Sys}
    (stepped : s.step vm (once calls) label = .ok s') : Locked n t s' := by
  cases label with
  | call self =>
      obtain ⟨call, w, frame, inRange, _, listed, entered, rfl⟩ := step_call stepped
      have valid : self < n := locked.size ▸ inRange
      have pos : (s.ranks self).pos = 0 := by
        unfold once at listed
        split at listed
        case isTrue zero => exact zero
        case isFalse => cases listed
      have turn : s.world.turnOf self = t % umpiOutstandingCollectiveOperations := by
        rw [World.turnOf, locked.ticket self valid pos]
      have notOne : s.world.size ≠ 1 := by
        rw [locked.size]
        omega
      have others : ∀ rank < n, rank ≠ self →
          (Function.update s.ranks self ((s.ranks self).enter frame) rank).pos = 0 →
          s.world.ticket rank = t := by
        intro rank rankValid other waiting
        rw [Function.update_of_ne other] at waiting
        exact locked.ticket rank rankValid waiting
      have rejected : ¬ frame.Accepted := by
        intro accepted
        obtain ⟨⟨slot, claimed⟩, got⟩ := call.enter_passes vm s.world self notOne _ entered accepted
        obtain ⟨rfl, _, free, _⟩ := getCurrentSlot_eq_ok got
        exact locked.mutex (turn ▸ free)
      cases Call.enter_exits entered with
      | outside _ left =>
          obtain ⟨rfl, rfl⟩ := left.failed notOne
          refine { size := locked.size, mutex := locked.mutex, box := locked.box, ticket := ?_ }
          intro rank rankValid waiting
          by_cases own : rank = self
          · subst own
            simp at waiting
          · exact others rank rankValid own waiting
      | released _ _ _ left => exact absurd (fun _ => left.ret) rejected
      | kept _ _ left =>
          refine left.locked turn rfl locked.size (by simp) others fun _ => ?_
          rw [show s.world.ticket self % umpiOutstandingCollectiveOperations = _ from turn]
          exact locked.box
  | act self =>
      obtain ⟨action, rest, done, _, performed, rfl⟩ := step_act stepped
      have world : done.world.size = s.world.size ∧ done.world.ticket = s.world.ticket ∧
          ∀ turn, (done.world.slots turn).control = (s.world.slots turn).control := by
        rcases Action.exec_cases performed with ⟨id, _, moved, _⟩ | ⟨_, midway⟩
        · rw [moved]
          exact ⟨rfl, rfl, fun _ => rfl⟩
        · exact ⟨midway.size, midway.ticket, midway.slots⟩
      obtain ⟨size, ticket, slots⟩ := world
      have control := slots (t % umpiOutstandingCollectiveOperations)
      refine { size := size.trans locked.size, mutex := ?_, box := ?_, ticket := ?_ }
      · rw [show (done.world.slots _).mutex = _ from (congrArg Collect.mutex control :)]
        exact locked.mutex
      · rw [show (done.world.slots _).made = _ from (congrArg Collect.made control :),
          show (done.world.slots _).box = _ from (congrArg Collect.box control :)]
        exact locked.box
      · intro rank valid waiting
        have before : (s.ranks rank).pos = 0 := by
          by_cases own : rank = self
          · subst own
            simpa using waiting
          · simpa [own] using waiting
        exact (congrFun ticket rank).trans (locked.ticket rank valid before)
  | wait self id =>
      obtain ⟨_, _, _, rfl⟩ := step_wait stepped
      refine { size := locked.size, mutex := locked.mutex, box := locked.box, ticket := ?_ }
      intro rank valid waiting
      have before : (s.ranks rank).pos = 0 := by
        by_cases own : rank = self
        · subst own
          simpa using waiting
        · simpa [own] using waiting
      exact locked.ticket rank valid before

/-- Whatever fails, as long as loops go on the books are in order or the slot has been locked. -/
theorem delivers_served (ready : origin.Ready n t) (several : 2 ≤ n) (small : n + 1 < 2 ^ 15)
    (follow : ∀ rank < n, (calls rank).schedule = schedule)
    (run : Delivers (once calls) LoopGoesOn origin failed s) :
    Served schedule n t origin failed s ∨ Locked n t s := by
  induction run with
  | refl =>
      refine Or.inl ⟨fun rank => ⟨Pointer.null.loc rank, [], 0, 0⟩, [], id, ?_, .start ready id,
        fun impossible => absurd rfl impossible⟩
      have nobody : origin.only [] = origin := by
        simp only [Sys.only, List.not_mem_nil, if_false]
        rw [show (fun _ : Nat => RankState.new) = origin.ranks from (funext ready.idle).symm]
      rw [nobody]
      exact Ledger.start ready id
  | tail vm label _ goesOn stepped ih =>
      rcases ih with served | locked
      · exact served.step ready several small follow goesOn stepped
      · exact Or.inr (locked.step several stepped)

end Runs

/-- As long as no transfer of a loop fails before the last one, whatever fails otherwise, every cookie that
    has been taken out of the box ends up in its owner's `pending_`, with all its notifications and with
    the error of a transfer that has failed. -/
theorem failed_delivery_abandons_nobody {calls : Nat → Call} {n t : Nat} {origin s : Sys}
    {failed : Nat → Prop} (ready : origin.Ready n t) (several : 2 ≤ n) (limit : n ≤ 10000)
    (agree : ∀ rank < n, (calls rank).operation = (calls 0).operation)
    (alike : ∀ rank < n, (calls rank).reducesInPlace = (calls 0).reducesInPlace)
    (run : Delivers (once calls) LoopGoesOn origin failed s) : NoneAbandoned n t failed s := by
  have follow : ∀ rank < n, (calls rank).schedule = (calls 0).schedule := by
    intro rank valid
    rw [Call.schedule, Call.schedule, agree rank valid, alike rank valid]
  rcases delivers_served ready several (by omega) follow run with served | locked
  · exact served.noneAbandoned
  · exact locked.noneAbandoned

/-- System calls that always meet an error. -/
def failingVm : ProcessVm := fun _ _ => -1

/-- A step that is the last of a call, or not a transfer that fails. -/
theorem loopGoesOn_act {vm : ProcessVm} {s : Sys} {self : Nat} {action : Action} {rest : List Action}
    (todo : (s.ranks self).cont = action :: rest) (fine : rest = [] ∨ ¬ action.Stops vm s.world self) :
    LoopGoesOn vm s (.act self) := by
  rintro caller now others ⟨⟩ listed more
  obtain ⟨rfl, rfl⟩ := List.cons.inj (todo.symm.trans listed)
  exact fine.resolve_left more

theorem loopGoesOn_call {vm : ProcessVm} {s : Sys} {self : Nat} : LoopGoesOn vm s (.call self) :=
  fun _ _ _ different => nomatch different

/-- A broadcast to one other rank, which comes first: the only transfer fails. -/
theorem failed_delivery_abandons_nobody_lastTransfer :
    ∃ failed s, Delivers (once bcastChar) LoopGoesOn (Sys.init 2 fun _ => 0) failed s ∧
      (s.ranks 0).rets = [mpiFail] ∧ failed 0 ∧ NoneAbandoned 2 0 failed s := by
  have run : ∃ failed s, Delivers (once bcastChar) LoopGoesOn (Sys.init 2 fun _ => 0) failed s ∧
      (s.ranks 0).rets = [mpiFail] ∧ failed 0 := by
    refine ⟨_, _,
      .tail failingVm (.act 0)
        (.tail copyingVm (.act 0)
          (.tail copyingVm (.call 0)
            (.tail copyingVm (.call 1) .refl loopGoesOn_call (by rfl))
            loopGoesOn_call (by rfl))
          ?move (by rfl))
        ?transfer (by rfl), ?returned, ?fails⟩
    case move => exact loopGoesOn_act rfl (Or.inr fun stops => stops)
    case transfer => exact loopGoesOn_act rfl (Or.inl rfl)
    case returned => decide
    case fails => exact Or.inr ⟨0, _, _, rfl, rfl, rfl, fun succeeds => absurd succeeds (by decide)⟩
  obtain ⟨failed, s, delivers, returned, fails⟩ := run
  exact ⟨failed, s, delivers, returned, fails, failed_delivery_abandons_nobody (ready_init 2 _) (by decide)
    (by decide) (fun _ _ => rfl) (fun _ _ => rfl) delivers⟩

/-- A broadcast to two other ranks, which come first: when the first of two transfers fails the call
    returns and the second cookie is destroyed. Its owner still has a handle on it and waits forever. -/
theorem failed_delivery_abandons :
    ∃ failed s, Delivers (once bcastChar) (fun _ _ _ => True) (Sys.init 3 fun _ => 0) failed s ∧
      (∀ rank < 3, (s.ranks rank).cont = []) ∧ (s.ranks 0).rets = [mpiFail] ∧
      (s.ranks 2).requests = [1] ∧ (s.world.cookies 1).busy = 1 ∧ (s.world.cookies 1).notified = 0 ∧
      (∀ rank < 3, 1 ∉ (s.ranks rank).todo ∧ 1 ∉ (s.world.procs rank).pending) ∧
      ¬ NoneAbandoned 3 0 failed s := by
  refine ⟨_, _,
    .tail failingVm (.act 0)
      (.tail copyingVm (.act 0)
        (.tail copyingVm (.call 0)
          (.tail copyingVm (.call 2)
            (.tail copyingVm (.call 1) .refl trivial (by rfl))
            trivial (by rfl))
          trivial (by rfl))
        trivial (by rfl))
      trivial (by rfl), ?returned, by decide, by decide, by decide, by decide, ?lost, ?abandoned⟩
  case returned =>
    rintro (_ | _ | _ | rank) valid
    · rfl
    · rfl
    · rfl
    · omega
  case lost => decide
  case abandoned =>
    intro promised
    have stuck := (promised.notified (by
      rintro (_ | _ | _ | rank) valid
      · rfl
      · rfl
      · rfl
      · omega) 1 ⟨⟨0, by decide, by decide⟩, by decide, by decide⟩).2
    exact absurd stuck (by decide)

end Umpi
