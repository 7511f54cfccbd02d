/-
Module: Umpi.Proofs.Ledger
Layer: Proofs
Purpose: The invariant of one collective operation that has the system to itself. `Ledger` says who has
  joined, which cookies have been made and what they look like, and balances the books of every cookie:
  the notifications it has had and the transfers still to be made through it are the ones its schedule
  has issued, and its counter is what is left of its number. There is one lemma for each kind of step.
Imports: Umpi.Proofs.EntryPoints, Umpi.Proofs.Steps
Trusted boundary: none
Main exports: due, Ledger, Ledger.start, Ledger.enter, Ledger.transfer, Ledger.takeOut, Ledger.reduce,
  Ledger.leave
Open obligations: none
-/
import Umpi.Proofs.EntryPoints
import Umpi.Proofs.Steps
import Mathlib.Algebra.BigOperators.Group.Finset.Basic
import Mathlib.Algebra.BigOperators.Ring.Finset
import Mathlib.Algebra.Order.BigOperators.Group.Finset

namespace Umpi

/-! ### Transfers that have not been made yet -/

/-- The number of transfers through the cookie `id` among the remaining actions of all ranks. -/
def due (n : Nat) (ranks : Nat → RankState) (id : Nat) : Nat :=
  ∑ rank ∈ Finset.range n, ((ranks rank).cont.filterMap Action.transfer).count id

/-- The number of handles all ranks have on the cookie `id`. -/
def held (n : Nat) (ranks : Nat → RankState) (id : Nat) : Nat :=
  ∑ rank ∈ Finset.range n, (ranks rank).requests.count id

section Due

variable {n : Nat} {ranks : Nat → RankState} {rank : Nat}

/-- In a total over all ranks only the rank that changes matters. -/
theorem sum_update {α : Type} (amount : α → Nat) (ranks : Nat → α) (valid : rank < n) (state : α) :
    ∑ other ∈ Finset.range n, amount (Function.update ranks rank state other) + amount (ranks rank) =
      ∑ other ∈ Finset.range n, amount (ranks other) + amount state := by
  have member : rank ∈ Finset.range n := Finset.mem_range.mpr valid
  have others : ∑ other ∈ (Finset.range n).erase rank, amount (Function.update ranks rank state other) =
      ∑ other ∈ (Finset.range n).erase rank, amount (ranks other) := by
    refine Finset.sum_congr rfl fun other listed => ?_
    rw [Function.update_of_ne (Finset.ne_of_mem_erase listed)]
  rw [← Finset.add_sum_erase _ _ member, ← Finset.add_sum_erase _ _ member, others, Function.update_self]
  omega

theorem due_update (ranks : Nat → RankState) (valid : rank < n) (state : RankState) (id : Nat) :
    due n (Function.update ranks rank state) id +
        ((ranks rank).cont.filterMap Action.transfer).count id =
      due n ranks id + (state.cont.filterMap Action.transfer).count id :=
  sum_update (fun state => (state.cont.filterMap Action.transfer).count id) ranks valid state

theorem held_update (ranks : Nat → RankState) (valid : rank < n) (state : RankState) (id : Nat) :
    held n (Function.update ranks rank state) id + (ranks rank).requests.count id =
      held n ranks id + state.requests.count id :=
  sum_update (fun state => state.requests.count id) ranks valid state

/-- If nobody has two handles, at most all ranks have one. -/
theorem held_le (n id : Nat) (single : ∀ rank, (ranks rank).requests.length ≤ 1) : held n ranks id ≤ n := by
  calc
    held n ranks id ≤ ∑ _rank ∈ Finset.range n, 1 :=
      Finset.sum_le_sum fun rank _ => List.count_le_length.trans (single rank)
    _ = n := by simp

/-- A cookie without handles is in nobody's requests. -/
theorem notMem_of_held_eq_zero {id : Nat} (none : held n ranks id = 0) (valid : rank < n) :
    id ∉ (ranks rank).requests := fun listed => by
  have zero := (Finset.sum_eq_zero_iff.mp none) rank (Finset.mem_range.mpr valid)
  exact absurd zero (Nat.pos_iff_ne_zero.mp (List.count_pos_iff.mpr listed))

theorem held_pos {id : Nat} (valid : rank < n) (listed : id ∈ (ranks rank).requests) :
    0 < held n ranks id := by
  by_contra none
  exact notMem_of_held_eq_zero (by omega) valid listed

/-- If a transfer is due some rank has it to do. -/
theorem exists_of_due_pos {id : Nat} (pos : 0 < due n ranks id) :
    ∃ rank < n, ∃ action ∈ (ranks rank).cont, action.transfer = some id := by
  obtain ⟨rank, member, some⟩ := Finset.exists_ne_zero_of_sum_ne_zero (Nat.pos_iff_ne_zero.mp pos)
  have listed := List.count_pos_iff.mp (Nat.pos_of_ne_zero some)
  obtain ⟨action, inCont, transfers⟩ := List.mem_filterMap.mp listed
  exact ⟨rank, Finset.mem_range.mp member, action, inCont, transfers⟩

/-- A cookie through which no transfer is due is in nobody's remaining actions. -/
theorem notThrough_of_due_eq_zero {id : Nat} (none : due n ranks id = 0) (valid : rank < n)
    (action : Action) (listed : action ∈ (ranks rank).cont) : action.transfer ≠ some id := fun through => by
  have zero := (Finset.sum_eq_zero_iff.mp none) rank (Finset.mem_range.mpr valid)
  have member := List.mem_filterMap.mpr ⟨action, listed, through⟩
  exact absurd zero (Nat.pos_iff_ne_zero.mp (List.count_pos_iff.mpr member))

theorem due_eq_zero {id : Nat} (idle : ∀ rank < n, (ranks rank).cont = []) : due n ranks id = 0 :=
  Finset.sum_eq_zero fun rank member => by simp [idle rank (Finset.mem_range.mp member)]

end Due

/-- Counting a name in a list of names that are all different. -/
theorem count_map_of_distinct {made : Nat → Nat} {ranks : List Nat} {rank : Nat}
    (distinct : ∀ other ∈ ranks, made other = made rank → other = rank) :
    (ranks.map made).count (made rank) = ranks.count rank := by
  induction ranks with
  | nil => rfl
  | cons other ranks ih =>
      rw [List.map_cons, List.count_cons, List.count_cons,
        ih fun later listed => distinct later (List.mem_cons_of_mem other listed)]
      by_cases same : other = rank
      · simp [same]
      · have different : made other ≠ made rank := fun equal => same (distinct other List.mem_cons_self equal)
        simp [same, different]

/-- What an action does to shared state. -/
theorem Action.exec_cases {vm : ProcessVm} {w : World} {self : Nat} {action : Action} {done : Transferred}
    (performed : action.exec vm w self = .ok done) :
    (∃ id, action = .moveToPending id ∧ done.world = w.moveToPending id ∧ done.ret = mpiSuccess) ∨
    (action.moved = [] ∧ Midway w done.world action.transfer) := by
  cases action with
  | moveToPending id =>
      obtain rfl := Outcome.ok.inj performed
      exact Or.inl ⟨id, rfl, rfl, rfl⟩
  | writeToOwner id buf iovec count seek skip =>
      obtain ⟨seek, _, rest⟩ := Outcome.bind_eq_ok.mp performed
      obtain ⟨skip, _, written⟩ := Outcome.bind_eq_ok.mp rest
      exact Or.inr ⟨rfl, Midway.of_touches (writeToOwner_touches written)⟩
  | readFromOwner id buf iovec size count seek skip =>
      obtain ⟨seek, _, rest⟩ := Outcome.bind_eq_ok.mp performed
      obtain ⟨skip, _, read⟩ := Outcome.bind_eq_ok.mp rest
      exact Or.inr ⟨rfl, Midway.of_touches (readFromOwner_touches read)⟩
  | readIgnored id buf iovec size count =>
      obtain ⟨moved, read, last⟩ := Outcome.bind_eq_ok.mp performed
      obtain rfl := Outcome.ok.inj last
      exact Or.inr ⟨rfl, (Midway.of_touches (readFromOwner_touches read) : Midway w moved.world (some id))⟩
  | reduce op invec inoutvec count iovec =>
      obtain rfl := Outcome.ok.inj performed
      exact Or.inr ⟨rfl, Midway.reduce _ _ _ _ _ _⟩

/-- No action looks at an empty list. -/
theorem Action.exec_safe (vm : ProcessVm) (w : World) (self : Nat) (action : Action) :
    (action.exec vm w self).Yields fun _ => True := by
  have offset : ∀ (offset : Offset) (id : Nat), (offset.eval w self id).Yields fun _ => True := by
    intro offset id
    cases offset with
    | elems value => trivial
    | product x y => exact Outcome.mulInt_yields fun _ => trivial
    | countTimesRank => exact Outcome.mulInt_yields fun _ => trivial
    | displs turn => trivial
  cases action with
  | moveToPending id => trivial
  | writeToOwner id buf iovec count seek skip =>
      exact Outcome.yields_bind ((offset seek id).mono fun _ _ =>
        Outcome.yields_bind ((offset skip id).mono fun _ _ =>
          Outcome.writeToOwner_yields fun _ _ => trivial))
  | readFromOwner id buf iovec size count seek skip =>
      exact Outcome.yields_bind ((offset seek id).mono fun _ _ =>
        Outcome.yields_bind ((offset skip id).mono fun _ _ =>
          Outcome.readFromOwner_yields fun _ _ => trivial))
  | readIgnored id buf iovec size count =>
      exact Outcome.yields_bind (Outcome.readFromOwner_yields fun _ _ => trivial)
  | reduce op invec inoutvec count iovec => trivial

/-! ### The books of one operation -/

/-- The operation on the slot of ticket `t` that started in `origin` has been joined by the ranks of
    `past`, the latest first. `made` names the cookie of each rank that has made one, and `offers` is
    the buffer it holds. -/
structure Ledger (schedule : Schedule) (n t : Nat) (origin : Sys) (offers : Nat → Offer)
    (past : List Nat) (made : Nat → Nat) (s : Sys) : Prop where
  joining : Schedule.Joining n past
  standing : Standing schedule n past s.world (t % umpiOutstandingCollectiveOperations) made
  unlocked : (s.world.slots (t % umpiOutstandingCollectiveOperations)).mutex = none
  ticket : ∀ rank < n, rank ∉ past → s.world.ticket rank = t
  pos : ∀ rank, (s.ranks rank).pos = if rank ∈ past then 1 else 0
  idle : ∀ rank, rank ∉ past → (s.ranks rank).cont = []
  unrequested : ∀ rank, rank ∉ past → (s.ranks rank).requests = []
  free : ∀ rank, rank ∉ past → (s.world.procs rank).free = (origin.world.procs rank).free
  next : origin.world.next ≤ s.world.next
  names : ∀ rank k, schedule.numOf n rank past = some k →
    made rank ∈ (origin.world.procs rank).free ∨ origin.world.next ≤ made rank ∧ made rank < s.world.next
  distinct : ∀ rank other k l, schedule.numOf n rank past = some k → schedule.numOf n other past = some l →
    made rank = made other → rank = other
  record : past ≠ [] → ∀ id, id ∈ (s.world.slots (t % umpiOutstandingCollectiveOperations)).made ↔
    ∃ rank k, schedule.numOf n rank past = some k ∧ made rank = id
  cookies : ∀ rank k, schedule.numOf n rank past = some k →
    (s.world.cookies (made rank)).stable = ((offers rank).cookie rank k).stable
  through : ∀ rank, ∀ action ∈ (s.ranks rank).cont, ∀ id, action.transfer = some id →
    ∃ other k, schedule.numOf n other past = some k ∧ made other = id
  requests : ∀ rank, ∀ id ∈ (s.ranks rank).requests,
    ∃ other k, schedule.numOf n other past = some k ∧ made other = id
  notified : ∀ rank k, schedule.numOf n rank past = some k →
    (s.world.cookies (made rank)).notified + due n s.ranks (made rank) = schedule.issued n rank past
  busy : ∀ rank k, schedule.numOf n rank past = some k →
    (s.world.cookies (made rank)).busy = k - (s.world.cookies (made rank)).notified

namespace Ledger

variable {schedule : Schedule} {n t : Nat} {origin : Sys} {offers : Nat → Offer} {past : List Nat}
  {made : Nat → Nat} {s : Sys}

theorem start (ready : s.Ready n t) (made : Nat → Nat) :
    Ledger schedule n t s offers [] made s where
  joining := ⟨List.nodup_nil, fun _ member => nomatch member⟩
  standing := by
    have empty : schedule.box n [] = [] := by cases schedule <;> simp [Schedule.box]
    exact
      { size := ready.size
        box := by rw [empty, ready.box, List.map_nil]
        joined := fun impossible => absurd rfl impossible
        src := by simp [empty] }
  unlocked := ready.mutex
  ticket := fun rank valid _ => ready.ticket rank valid
  pos := fun rank => by simp [ready.idle, RankState.new]
  idle := fun rank _ => by simp [ready.idle, RankState.new]
  unrequested := fun rank _ => by simp [ready.idle, RankState.new]
  free := fun _ _ => rfl
  next := le_rfl
  names := fun _ _ impossible => nomatch impossible
  distinct := fun _ _ _ _ impossible => nomatch impossible
  record := fun impossible => absurd rfl impossible
  cookies := fun _ _ impossible => nomatch impossible
  through := fun rank action member => by simp [ready.idle, RankState.new] at member
  requests := fun rank id member => by simp [ready.idle, RankState.new] at member
  notified := fun _ _ impossible => nomatch impossible
  busy := fun _ _ impossible => nomatch impossible

/-- The owner of a cookie is the rank that made it. -/
theorem owner (ledger : Ledger schedule n t origin offers past made s) {rank : Nat} {k : Int}
    (makes : schedule.numOf n rank past = some k) : (s.world.cookies (made rank)).owner = rank :=
  Cookie.owner_of_stable (ledger.cookies rank k makes)

theorem num (ledger : Ledger schedule n t origin offers past made s) {rank : Nat} {k : Int}
    (makes : schedule.numOf n rank past = some k) : (s.world.cookies (made rank)).num = k :=
  Cookie.num_of_stable (ledger.cookies rank k makes)

/-- A rank that has not joined would make a cookie under a new name. -/
theorem fresh (ledger : Ledger schedule n t origin offers past made s)
    (ready : origin.Ready n t) {self : Nat} (absent : self ∉ past)
    {rank : Nat} {k : Int} (makes : schedule.numOf n rank past = some k) :
    made rank ≠ s.world.newName self := by
  have other : rank ≠ self := fun same => absent (same ▸ Schedule.mem_of_numOf makes)
  unfold World.newName
  rw [ledger.free self absent]
  cases list : (origin.world.procs self).free with
  | nil =>
      rcases ledger.names rank k makes with old | new
      · have small := ready.free rank _ old
        have grown := ledger.next
        simp only
        omega
      · simp only
        omega
  | cons id rest =>
      have listed : id ∈ (origin.world.procs self).free := list ▸ List.mem_cons_self
      simp only
      rintro rfl
      rcases ledger.names rank k makes with old | new
      · exact ready.apart rank self other old listed
      · have small := ready.free self _ listed
        omega

/-- A rank that can call has not joined. -/
theorem absent_of_call (ledger : Ledger schedule n t origin offers past made s) {calls : Nat → Call}
    {self : Nat} {call : Call} (listed : once calls self (s.ranks self).pos = some call) :
    self ∉ past ∧ call = calls self := by
  rw [ledger.pos self] at listed
  by_cases joined : self ∈ past
  · simp [once, joined] at listed
  · simp only [once, if_neg joined, if_true, Option.some.injEq] at listed
    exact ⟨joined, listed.symm⟩

/-- Whoever has not joined can do so next. -/
theorem arriving (ledger : Ledger schedule n t origin offers past made s)
    (ready : origin.Ready n t) (several : 2 ≤ n ∨ schedule = .ladder)
    (suits : past ≠ [] → schedule.Suits n) (small : n ≤ 2 ^ 15) {self : Nat} (valid : self < n)
    (absent : self ∉ past) : Arriving schedule n past s.world self made where
  standing := by
    rw [World.turnOf, ledger.ticket self valid absent]
    exact ledger.standing
  joining :=
    { nodup := List.nodup_cons.mpr ⟨absent, ledger.joining.nodup⟩
      bound := by
        intro rank member
        rcases List.mem_cons.mp member with rfl | earlier
        · exact valid
        · exact ledger.joining.bound rank earlier }
  several := several
  fresh := by
    intro rank inBox
    have nonempty : past ≠ [] := by
      rintro rfl
      cases schedule <;> simp [Schedule.box] at inBox
    obtain ⟨k, makes⟩ := Option.isSome_iff_exists.mp
      (Schedule.numOf_of_mem_box ledger.joining (suits nonempty) inBox)
    exact ledger.fresh ready absent makes
  small := small

section Entering

variable {self : Nat} {mid : World} {offer : Offer} {cont : List Action} {w' : World} {frame : Frame}
  {made' : Nat → Nat}

theorem numOf_self : schedule.numOf n self (self :: past) = schedule.num n past self := if_pos rfl

theorem numOf_other {rank : Nat} (different : rank ≠ self) :
    schedule.numOf n rank (self :: past) = schedule.numOf n rank past := if_neg (Ne.symm different)

/-- An older cookie and the new one have different names. -/
theorem enter_apart (ledger : Ledger schedule n t origin offers past made s) (ready : origin.Ready n t)
    (absent : self ∉ past)
    (entered : Entered schedule n past s.world self mid offer cont (w', frame) made made') {rank : Nat}
    {k : Int} (makes : schedule.numOf n rank past = some k) (new : (schedule.num n past self).isSome) :
    made rank ≠ made' self := by
  obtain ⟨l, makesNew⟩ := Option.isSome_iff_exists.mp new
  rw [(entered.newCookie makesNew).1]
  exact ledger.fresh ready absent makes

theorem enter_distinct (ledger : Ledger schedule n t origin offers past made s) (ready : origin.Ready n t)
    (absent : self ∉ past)
    (entered : Entered schedule n past s.world self mid offer cont (w', frame) made made')
    (rank other : Nat) (k l : Int) (makes : schedule.numOf n rank (self :: past) = some k)
    (makes' : schedule.numOf n other (self :: past) = some l) (equal : made' rank = made' other) :
    rank = other := by
  have others := entered.settles.madeOthers
  by_cases first : rank = self <;> by_cases second : other = self
  · exact first.trans second.symm
  · subst first
    rw [numOf_other second] at makes'
    rw [others other second] at equal
    rw [numOf_self] at makes
    exact absurd equal.symm (ledger.enter_apart ready absent entered makes' (by rw [makes]; rfl))
  · subst second
    rw [numOf_other first] at makes
    rw [others rank first] at equal
    rw [numOf_self] at makes'
    exact absurd equal (ledger.enter_apart ready absent entered makes (by rw [makes']; rfl))
  · rw [numOf_other first] at makes
    rw [numOf_other second] at makes'
    rw [others rank first, others other second] at equal
    exact ledger.distinct rank other k l makes makes' equal

/-- The cookies of the box have been made. -/
theorem makes_of_mem_box (ledger : Ledger schedule n t origin offers past made s)
    (suits : schedule.Suits n) {rank : Nat} (inBox : rank ∈ schedule.box n past) :
    ∃ k, schedule.numOf n rank past = some k :=
  Option.isSome_iff_exists.mp (Schedule.numOf_of_mem_box ledger.joining suits inBox)

/-- What was made before the newcomer is still made. -/
theorem makes_mono {rank : Nat} {k : Int} (absent : self ∉ past)
    (makes : schedule.numOf n rank past = some k) :
    schedule.numOf n rank (self :: past) = some k := by
  have different : rank ≠ self := fun same => absent (same ▸ Schedule.mem_of_numOf makes)
  rwa [numOf_other different]

/-- The newcomer goes through cookies that have been made. -/
theorem makes_of_mem_later (ledger : Ledger schedule n t origin offers past made s)
    (suits : schedule.Suits n) (joining : Schedule.Joining n (self :: past)) {rank : Nat}
    (listed : rank ∈ schedule.later n past self) :
    ∃ k, schedule.numOf n rank (self :: past) = some k := by
  rcases Schedule.mem_box_of_later joining listed with old | ⟨rfl, new⟩
  · obtain ⟨k, makes⟩ := ledger.makes_of_mem_box suits old
    exact ⟨k, makes_mono joining.fresh makes⟩
  · rw [numOf_self]
    exact Option.isSome_iff_exists.mp new

/-- What is due grows by what the newcomer will do. -/
theorem enter_due (ledger : Ledger schedule n t origin offers past made s) (ready : origin.Ready n t)
    (suits : schedule.Suits n) (joining : Schedule.Joining n (self :: past))
    (entered : Entered schedule n past s.world self mid offer cont (w', frame) made made') {rank : Nat}
    {k : Int} (makes : schedule.numOf n rank (self :: past) = some k) :
    due n (Function.update s.ranks self ((s.ranks self).enter frame)) (made' rank) =
      due n s.ranks (made' rank) + (schedule.later n past self).count rank := by
  have updated := due_update s.ranks (joining.bound self List.mem_cons_self)
    ((s.ranks self).enter frame) (made' rank)
  have before : (s.ranks self).cont = [] := ledger.idle self joining.fresh
  have after : ((s.ranks self).enter frame).cont = cont := entered.settles.cont
  have counted : ((schedule.later n past self).map made').count (made' rank) =
      (schedule.later n past self).count rank := by
    refine count_map_of_distinct fun other listed equal => ?_
    obtain ⟨l, makes'⟩ := ledger.makes_of_mem_later suits joining listed
    exact ledger.enter_distinct ready joining.fresh entered other rank l k makes' makes equal
  rw [before, after, entered.script.transfers, counted] at updated
  simpa using updated

/-- Nothing is due for a cookie that did not exist. -/
theorem due_new (ledger : Ledger schedule n t origin offers past made s) (ready : origin.Ready n t)
    (absent : self ∉ past)
    (entered : Entered schedule n past s.world self mid offer cont (w', frame) made made')
    (new : (schedule.num n past self).isSome) : due n s.ranks (made' self) = 0 := by
  by_contra some
  obtain ⟨rank, _, action, listed, transfers⟩ := exists_of_due_pos (Nat.pos_of_ne_zero some)
  obtain ⟨other, k, makes, named⟩ := ledger.through rank action listed _ transfers
  exact ledger.enter_apart ready absent entered makes new named

/-- Entering notifies at most one older cookie, and changes nothing else about it. -/
theorem enter_old (ledger : Ledger schedule n t origin offers past made s) (ready : origin.Ready n t)
    (suits : schedule.Suits n) (small : n + 1 < 2 ^ 15) (joining : Schedule.Joining n (self :: past))
    (entered : Entered schedule n past s.world self mid offer cont (w', frame) made made') {rank : Nat}
    {k : Int} (makes : schedule.numOf n rank past = some k) :
    (w'.cookies (made rank)).stable = (s.world.cookies (made rank)).stable ∧
    (w'.cookies (made rank)).notified =
      (s.world.cookies (made rank)).notified + (schedule.now past).toList.count rank ∧
    (w'.cookies (made rank)).busy = k - (w'.cookies (made rank)).notified := by
  obtain ⟨stable, untouched, touched⟩ := entered.oldCookie
    (ledger.enter_apart ready joining.fresh entered makes)
  have balance := ledger.busy rank k makes
  refine ⟨stable, ?_⟩
  by_cases now : schedule.now past = some rank
  · obtain ⟨busy, notified⟩ := touched (by rw [now, Option.map_some])
    have once : (schedule.now past).toList.count rank = 1 := by rw [now]; simp
    have so := ledger.notified rank k makes
    have atMost := Schedule.issued_le_numOf joining suits (makes_mono joining.fresh makes)
    rw [Schedule.issued, once] at atMost
    have notHuge := Schedule.numOf_le ledger.joining makes
    refine ⟨by rw [once]; exact notified, ?_⟩
    rw [busy, balance, notified, int16_of_range (by omega) (by omega)]
    omega
  · have otherName : (schedule.now past).map made ≠ some (made rank) := by
      intro same
      obtain ⟨other, isNow, equal⟩ := Option.map_eq_some_iff.mp same
      obtain ⟨l, makes'⟩ := ledger.makes_of_mem_box suits
        (Schedule.mem_box_of_now joining.length_le isNow)
      exact now (isNow.trans (congrArg some (ledger.distinct other rank l k makes' makes equal)))
    obtain ⟨busy, notified⟩ := untouched otherName
    have never : (schedule.now past).toList.count rank = 0 :=
      List.count_eq_zero.mpr fun member => now (Option.mem_toList.mp member)
    rw [never, busy, notified]
    exact ⟨rfl, balance⟩

/-- The next rank joins. -/
theorem enter (ledger : Ledger schedule n t origin offers past made s) (ready : origin.Ready n t)
    (suits : schedule.Suits n) (small : n + 1 < 2 ^ 15) (valid : self < n) (absent : self ∉ past)
    (entered : Entered schedule n past s.world self mid offer cont (w', frame) made made')
    (joins : Nat → List Join) :
    Ledger schedule n t origin (Function.update offers self offer) (self :: past) made'
      { world := w'
        ranks := Function.update s.ranks self ((s.ranks self).enter frame)
        joins := joins } := by
  have arriving := ledger.arriving ready suits.several (fun _ => suits) (by omega) valid absent
  have joining := arriving.joining
  have turn : s.world.turnOf self = t % umpiOutstandingCollectiveOperations := by
    rw [World.turnOf, ledger.ticket self valid absent]
  have settles := entered.settles
  rw [turn] at settles
  have others := settles.madeOthers
  exact
    { joining := joining
      standing := turn ▸ entered.standing arriving suits
      unlocked := by rw [settles.slot]
      ticket := by
        intro rank inRange notJoined
        obtain ⟨different, earlier⟩ := not_or.mp (mt List.mem_cons.mpr notJoined)
        have unchanged : w'.ticket rank = s.world.ticket rank := by
          rw [settles.ticket, entered.midway.ticket]
          simp [World.claimed, different]
        exact unchanged.trans (ledger.ticket rank inRange earlier)
      pos := by
        intro rank
        by_cases own : rank = self
        · subst own
          have before := ledger.pos rank
          rw [if_neg absent] at before
          simp [RankState.enter, before]
        · simp [own, ledger.pos rank]
      idle := by
        intro rank notJoined
        obtain ⟨different, earlier⟩ := not_or.mp (mt List.mem_cons.mpr notJoined)
        simp only [Function.update_of_ne different]
        exact ledger.idle rank earlier
      unrequested := by
        intro rank notJoined
        obtain ⟨different, earlier⟩ := not_or.mp (mt List.mem_cons.mpr notJoined)
        simp only [Function.update_of_ne different]
        exact ledger.unrequested rank earlier
      free := by
        intro rank notJoined
        obtain ⟨different, earlier⟩ := not_or.mp (mt List.mem_cons.mpr notJoined)
        exact (entered.free different).trans (ledger.free rank earlier)
      next := ledger.next.trans entered.next
      names := by
        intro rank k makes
        have grown := entered.next
        by_cases own : rank = self
        · subst own
          rw [numOf_self] at makes
          rw [← ledger.free rank absent]
          rcases entered.newName (by rw [makes]; rfl) with old | new
          · exact Or.inl old
          · exact Or.inr ⟨ledger.next.trans new.1, new.2⟩
        · rw [numOf_other own] at makes
          rw [others rank own]
          rcases ledger.names rank k makes with old | new
          · exact Or.inl old
          · exact Or.inr ⟨new.1, new.2.trans_le grown⟩
      distinct := ledger.enter_distinct ready absent entered
      record := by
        intro _ id
        have listed := entered.made_eq
        rw [turn] at listed
        rw [listed, List.mem_append]
        constructor
        · rintro (old | new)
          · split at old
            · cases old
            case isFalse busy =>
              have nonempty : past ≠ [] := by
                rintro rfl
                exact busy (by rw [ledger.standing.box]; cases schedule <;> simp [Schedule.box])
              obtain ⟨rank, k, makes, named⟩ := (ledger.record nonempty id).mp old
              have different : rank ≠ self := fun same => absent (same ▸ Schedule.mem_of_numOf makes)
              exact ⟨rank, k, makes_mono absent makes, (others rank different).trans named⟩
          · obtain ⟨k, makes, named⟩ := List.mem_map.mp new
            exact ⟨self, k, numOf_self.trans (Option.mem_toList.mp makes), named⟩
        · rintro ⟨rank, k, makes, named⟩
          by_cases own : rank = self
          · subst own
            rw [numOf_self] at makes
            exact Or.inr (List.mem_map.mpr ⟨k, Option.mem_toList.mpr makes, named⟩)
          · rw [numOf_other own] at makes
            rw [others rank own] at named
            have nonempty : past ≠ [] := List.ne_nil_of_mem (Schedule.mem_of_numOf makes)
            have busy : (s.world.slots (t % umpiOutstandingCollectiveOperations)).box ≠ [] := by
              rw [ledger.standing.box]
              intro empty
              exact nonempty ((Schedule.box_eq_nil joining.length_le).mp (List.map_eq_nil_iff.mp empty))
            rw [if_neg busy]
            exact Or.inl ((ledger.record nonempty id).mpr ⟨rank, k, makes, named⟩)
      cookies := by
        intro rank k makes
        by_cases own : rank = self
        · subst own
          rw [numOf_self] at makes
          rw [(entered.newCookie makes).2, Function.update_self]
        · rw [numOf_other own] at makes
          rw [others rank own, Function.update_of_ne own]
          exact (ledger.enter_old ready suits small joining entered makes).1.trans
            (ledger.cookies rank k makes)
      through := by
        intro rank action listed id transfers
        by_cases own : rank = self
        · subst own
          simp only [Function.update_self] at listed
          have after : ((s.ranks rank).enter frame).cont = cont := settles.cont
          rw [after] at listed
          have inLater : id ∈ (schedule.later n past rank).map made' :=
            entered.script.transfers ▸ List.mem_filterMap.mpr ⟨action, listed, transfers⟩
          obtain ⟨other, member, named⟩ := List.mem_map.mp inLater
          obtain ⟨k, makes⟩ := ledger.makes_of_mem_later suits joining member
          exact ⟨other, k, makes, named⟩
        · simp only [Function.update_of_ne own] at listed
          obtain ⟨other, k, makes, named⟩ := ledger.through rank action listed id transfers
          have different : other ≠ self := fun same => absent (same ▸ Schedule.mem_of_numOf makes)
          exact ⟨other, k, makes_mono absent makes, (others other different).trans named⟩
      requests := by
        intro rank id listed
        by_cases own : rank = self
        · subst own
          simp only [Function.update_self] at listed
          have handle : frame.request = some (made' (schedule.request n past rank)) := settles.request
          simp only [RankState.enter, handle, Option.toList_some, List.mem_append, List.mem_singleton]
            at listed
          rcases listed with rfl | old
          · rcases Schedule.request_cases joining suits with inBox | ⟨same, new⟩
            · obtain ⟨k, makes⟩ := ledger.makes_of_mem_box suits inBox
              exact ⟨_, k, makes_mono absent makes, rfl⟩
            · obtain ⟨k, makes⟩ := Option.isSome_iff_exists.mp new
              rw [same]
              exact ⟨rank, k, numOf_self.trans makes, rfl⟩
          · obtain ⟨other, k, makes, named⟩ := ledger.requests rank id old
            have different : other ≠ rank := fun same => absent (same ▸ Schedule.mem_of_numOf makes)
            exact ⟨other, k, makes_mono absent makes, (others other different).trans named⟩
        · simp only [Function.update_of_ne own] at listed
          obtain ⟨other, k, makes, named⟩ := ledger.requests rank id listed
          have different : other ≠ self := fun same => absent (same ▸ Schedule.mem_of_numOf makes)
          exact ⟨other, k, makes_mono absent makes, (others other different).trans named⟩
      notified := by
        intro rank k makes
        rw [ledger.enter_due ready suits joining entered makes, Schedule.issued]
        by_cases own : rank = self
        · subst own
          have new := makes
          rw [numOf_self] at new
          have silent : (schedule.now past).toList.count rank = 0 :=
            List.count_eq_zero.mpr fun member =>
              absent (Schedule.mem_of_now (Option.mem_toList.mp member))
          rw [ledger.due_new ready absent entered (by rw [new]; rfl), Schedule.issued_eq_zero absent,
            silent, (entered.newCookie new).2]
          simp [Offer.cookie]
        · have old := makes
          rw [numOf_other own] at old
          have so := ledger.notified rank k old
          rw [others rank own, (ledger.enter_old ready suits small joining entered old).2.1]
          omega
      busy := by
        intro rank k makes
        by_cases own : rank = self
        · subst own
          rw [numOf_self] at makes
          rw [(entered.newCookie makes).2]
          have range := Schedule.num_range joining makes
          have exactly : int16 k = k := int16_of_range (by omega) (by omega)
          simp [Offer.cookie, exactly]
        · rw [numOf_other own] at makes
          rw [others rank own]
          exact (ledger.enter_old ready suits small joining entered makes).2.2 }

end Entering

/-- A step of a rank that has joined changes counters and local lists only. -/
theorem update {s' : Sys} (ledger : Ledger schedule n t origin offers past made s)
    (size : s'.world.size = s.world.size) (next : s'.world.next = s.world.next)
    (ticket : s'.world.ticket = s.world.ticket)
    (control : ∀ turn, (s'.world.slots turn).control = (s.world.slots turn).control)
    (free : ∀ rank, rank ∉ past → (s'.world.procs rank).free = (s.world.procs rank).free)
    (stable : ∀ id, (s'.world.cookies id).stable = (s.world.cookies id).stable)
    (pos : ∀ rank, (s'.ranks rank).pos = (s.ranks rank).pos)
    (cont : ∀ rank, ∀ action ∈ (s'.ranks rank).cont, action ∈ (s.ranks rank).cont)
    (requests : ∀ rank, ∀ id ∈ (s'.ranks rank).requests, id ∈ (s.ranks rank).requests)
    (notified : ∀ rank k, schedule.numOf n rank past = some k →
      (s'.world.cookies (made rank)).notified + due n s'.ranks (made rank) =
        (s.world.cookies (made rank)).notified + due n s.ranks (made rank))
    (busy : ∀ rank k, schedule.numOf n rank past = some k →
      (s'.world.cookies (made rank)).busy + (s'.world.cookies (made rank)).notified =
        (s.world.cookies (made rank)).busy + (s.world.cookies (made rank)).notified) :
    Ledger schedule n t origin offers past made s' where
  joining := ledger.joining
  standing :=
    { size := size.trans ledger.standing.size
      box := ((congrArg Collect.box (control _) :)).trans ledger.standing.box
      joined := fun nonempty =>
        ((congrArg Collect.joined (control _) :)).trans (ledger.standing.joined nonempty)
      src := fun rank inBox =>
        (Cookie.src_of_stable (stable _)).trans (ledger.standing.src rank inBox) }
  unlocked := ((congrArg Collect.mutex (control _) :)).trans ledger.unlocked
  ticket := fun rank valid absent => (congrFun ticket rank).trans (ledger.ticket rank valid absent)
  pos := fun rank => (pos rank).trans (ledger.pos rank)
  idle := by
    intro rank absent
    refine List.eq_nil_iff_forall_not_mem.mpr fun action listed => ?_
    have before := cont rank action listed
    rw [ledger.idle rank absent] at before
    cases before
  unrequested := by
    intro rank absent
    refine List.eq_nil_iff_forall_not_mem.mpr fun id listed => ?_
    have before := requests rank id listed
    rw [ledger.unrequested rank absent] at before
    cases before
  free := fun rank absent => (free rank absent).trans (ledger.free rank absent)
  next := ledger.next.trans next.ge
  names := by
    intro rank k makes
    rw [next]
    exact ledger.names rank k makes
  distinct := ledger.distinct
  record := by
    intro nonempty id
    have same : (s'.world.slots (t % umpiOutstandingCollectiveOperations)).made =
        (s.world.slots (t % umpiOutstandingCollectiveOperations)).made :=
      (congrArg Collect.made (control _) :)
    rw [same]
    exact ledger.record nonempty id
  cookies := fun rank k makes => (stable _).trans (ledger.cookies rank k makes)
  through := fun rank action listed => ledger.through rank action (cont rank action listed)
  requests := fun rank id listed => ledger.requests rank id (requests rank id listed)
  notified := fun rank k makes => (notified rank k makes).trans (ledger.notified rank k makes)
  busy := by
    intro rank k makes
    have old := ledger.busy rank k makes
    have kept := busy rank k makes
    omega

section Acting

variable {vm : ProcessVm} {self : Nat} {action : Action} {rest : List Action} {done : Transferred}

/-- A rank that has something to do has joined. -/
theorem mem_of_cont (ledger : Ledger schedule n t origin offers past made s)
    (todo : (s.ranks self).cont = action :: rest) : self ∈ past := by
  by_contra absent
  rw [ledger.idle self absent] at todo
  cases todo

/-- A rank that has joined performs its next action. Whatever becomes of the rank, the rest of its actions are
    still to be made. -/
theorem perform (ledger : Ledger schedule n t origin offers past made s) (suits : schedule.Suits n)
    (small : n + 1 < 2 ^ 15) (todo : (s.ranks self).cont = action :: rest)
    (performed : action.exec vm s.world self = .ok done) {state : RankState} (after : state.cont = rest)
    (samePos : state.pos = (s.ranks self).pos) (sameRequests : state.requests = (s.ranks self).requests) :
    Ledger schedule n t origin offers past made
      { s with
        world := done.world
        ranks := Function.update s.ranks self state } := by
  have valid : self < n := ledger.joining.bound self (ledger.mem_of_cont todo)
  have pos : ∀ rank, ((Function.update s.ranks self state) rank).pos = (s.ranks rank).pos := by
    intro rank
    by_cases own : rank = self <;> simp [own, samePos]
  have requests : ∀ rank,
      ((Function.update s.ranks self state) rank).requests = (s.ranks rank).requests := by
    intro rank
    by_cases own : rank = self <;> simp [own, sameRequests]
  have cont : ∀ rank, ∀ a ∈ ((Function.update s.ranks self state) rank).cont, a ∈ (s.ranks rank).cont := by
    intro rank a listed
    by_cases own : rank = self
    · subst own
      rw [Function.update_self, after] at listed
      rw [todo]
      exact List.mem_cons_of_mem action listed
    · rwa [Function.update_of_ne own] at listed
  have paid : ∀ id, due n (Function.update s.ranks self state) id + action.transfer.toList.count id =
      due n s.ranks id := by
    intro id
    have updated := due_update s.ranks valid state id
    rw [after, todo, List.filterMap_cons] at updated
    cases transfers : action.transfer with
    | none =>
        rw [transfers] at updated
        simpa using updated
    | some other =>
        rw [transfers] at updated
        simp only [List.count_cons, Option.toList_some, List.count_nil] at updated ⊢
        omega
  rcases Action.exec_cases performed with ⟨id, rfl, moved, _⟩ | ⟨_, midway⟩
  · rw [moved] at *
    refine ledger.update rfl rfl rfl (fun _ => rfl) (fun rank _ => ?_) (fun _ => rfl) pos cont
      (fun rank id => by rw [requests rank]; exact fun listed => listed) ?_ fun _ _ _ => rfl
    · simp only [World.moveToPending, World.setProc_procs]
      by_cases own : rank = (s.world.cookies id).owner <;> simp [own]
    · intro rank k makes
      have nothing := paid (made rank)
      simp only [Action.transfer, Option.toList_none, List.count_nil, Nat.add_zero] at nothing
      rw [nothing]
      rfl
  · refine ledger.update midway.size midway.next midway.ticket midway.slots
      (fun rank _ => midway.free rank) midway.stable pos cont
      (fun rank id => by rw [requests rank]; exact fun listed => listed) ?_ ?_
    · intro rank k makes
      dsimp only
      have balance := paid (made rank)
      by_cases through : action.transfer = some (made rank)
      · rw [midway.notified _ through]
        rw [through] at balance
        simp only [Option.toList_some, List.count_singleton_self] at balance
        omega
      · have never : action.transfer.toList.count (made rank) = 0 :=
          List.count_eq_zero.mpr fun member => through (Option.mem_toList.mp member)
        rw [midway.others _ through]
        omega
    · intro rank k makes
      by_cases through : action.transfer = some (made rank)
      · have old := ledger.busy rank k makes
        have so := ledger.notified rank k makes
        have atMost := Schedule.issued_le_numOf ledger.joining suits makes
        have notHuge := Schedule.numOf_le ledger.joining makes
        have balance := paid (made rank)
        rw [through] at balance
        simp only [Option.toList_some, List.count_singleton_self] at balance
        rw [midway.notified _ through, midway.busy _ through, int16_of_range (by omega) (by omega)]
        push_cast
        omega
      · rw [midway.others _ through]

/-- A rank that has joined performs its next action, which succeeds unless it is the last one. -/
theorem act (ledger : Ledger schedule n t origin offers past made s) (suits : schedule.Suits n)
    (small : n + 1 < 2 ^ 15) (todo : (s.ranks self).cont = action :: rest)
    (performed : action.exec vm s.world self = .ok done) (goesOn : done.ret = mpiSuccess ∨ rest = []) :
    Ledger schedule n t origin offers past made
      { s with
        world := done.world
        ranks := Function.update s.ranks self
          ((s.ranks self).advance action.moved rest done.ret) } :=
  ledger.perform suits small todo performed (RankState.advance_cont _ _ _ _ goesOn) (by simp) (by simp)

/-- A rank that has joined returns from a wait. -/
theorem leave (ledger : Ledger schedule n t origin offers past made s) {id : Nat} (err : Int)
    (listed : id ∈ (s.ranks self).requests) :
    Ledger schedule n t origin offers past made
      { s with
        world := s.world.finalize id
        ranks := Function.update s.ranks self ((s.ranks self).leave id err) } := by
  obtain ⟨maker, k, makes, rfl⟩ := ledger.requests self id listed
  have sameCont : ∀ rank, ((Function.update s.ranks self ((s.ranks self).leave (made maker) err))
      rank).cont = (s.ranks rank).cont := by
    intro rank
    by_cases own : rank = self <;> simp [own]
  have sameDue : ∀ id, due n (Function.update s.ranks self ((s.ranks self).leave (made maker) err)) id =
      due n s.ranks id := by
    intro id
    unfold due
    simp only [sameCont]
  refine ledger.update rfl rfl rfl (fun _ => rfl) ?_ ?_ ?_ ?_ ?_ ?_ ?_
  · intro rank absent
    have other : rank ≠ (s.world.cookies (made maker)).owner := by
      rw [ledger.owner makes]
      exact fun same => absent (same ▸ Schedule.mem_of_numOf makes)
    simp [World.finalize, other]
  · intro id
    by_cases same : id = made maker <;> simp [same, Cookie.stable]
  · intro rank
    by_cases own : rank = self <;> simp [own]
  · intro rank action member
    rwa [sameCont] at member
  · intro rank id member
    by_cases own : rank = self
    · subst own
      simp only [Function.update_self, RankState.leave_requests] at member
      exact List.mem_of_mem_erase member
    · simpa [own] using member
  · intro rank k makes
    rw [sameDue]
    by_cases same : made rank = made maker <;> simp [same]
  · intro rank k makes
    by_cases same : made rank = made maker <;> simp [same]

end Acting

end Ledger

end Umpi
