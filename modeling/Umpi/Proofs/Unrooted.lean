/-
Module: Umpi.Proofs.Unrooted
Layer: Proofs
Purpose: The data of an operation without a root. A rank moves data while it holds the mutex, and only the last
  one has something left to do after it has released it. An `UnrootedPlan` gives what memory looks like when
  some ranks have joined, and the errands of the last rank. `Underway` is the invariant: the errands done so far
  have changed memory as planned, and the others are exactly what the last rank still has to do.
Imports: Umpi.Proofs.Buffers, Umpi.Proofs.Ledger
Trusted boundary: none
Main exports: Cookie.Shows, Errand, UnrootedPlan, UnrootedPlan.Sound, Underway, UnrootedPlan.Sound.followed,
  UnrootedPlan.Followed.finished, UnrootedPlan.Followed.notified
Open obligations: none
-/
import Umpi.Proofs.Buffers
import Umpi.Proofs.Ledger

namespace Umpi

open Foundation Sys

/-- The fields of a cookie that say where its buffer is are those its maker offered. -/
structure Cookie.Shows (cookie : Cookie) (offer : Offer) : Prop where
  buf : cookie.buf = offer.buf
  iovec : cookie.iovec = offer.iovec
  size : cookie.size = offer.size

section Shown

variable {vm : ProcessVm} {w : World} {id : Nat} {base base' : Loc} {datatype datatype' : Datatype}
  {count count' : Nat} {amount' : Int}

/-- A transfer to the start of a cookie's buffer fills the whole of it with as many bytes. -/
theorem writeToOwner_shown (copies : CopiesAll vm) {amount : Int} (amountEq : amount = count)
    (shows : (w.cookies id).Shows
      { buf := base', iovec := datatype'.iovec, size := count', count := amount' })
    (agree : count * datatype.len = count' * datatype'.len) (bytes : count * datatype.len < 2 ^ 63) (base : Loc) :
    ∃ done, w.writeToOwner vm id base datatype.iovec amount 0 0 = .ok done ∧ done.ret = mpiSuccess ∧
      done.world.mem = copyAll w.mem (streamLocs base datatype.iovec 0 count)
        (streamLocs base' datatype'.iovec 0 count') := by
  subst amountEq
  have agree' : count * datatype.iovec.len = count' * datatype'.iovec.len := agree
  have bytes' : count * datatype.iovec.len < 2 ^ 63 := bytes
  have written := writeToOwner_moves base copies datatype.wellFormed datatype'.wellFormed datatype'.lenPos
    (rfl : (0 : Int) = (0 : Nat)) 0 shows.buf shows.iovec shows.size (by omega) bytes'
    (by rw [Nat.zero_mul]; omega)
  refine ⟨_, written, rfl, ?_⟩
  show copyAll w.mem _ _ = _
  rw [Nat.sub_zero, agree', Int.ofNat_zero, take_streamLocs datatype'.wellFormed _ le_rfl]

/-- A transfer from the start of a cookie's buffer fetches the whole of it, whether it asks for all elements
    or for as many as there are. -/
theorem readFromOwner_shown (copies : CopiesAll vm) {amount : Int} {asked : Nat} (amountEq : amount = asked)
    (asks : asked = count ∨ asked = 0)
    (shows : (w.cookies id).Shows
      { buf := base', iovec := datatype'.iovec, size := count', count := amount' })
    (agree : count * datatype.len = count' * datatype'.len) (bytes : count * datatype.len < 2 ^ 63)
    (countRange : count < 2 ^ 31) (base : Loc) :
    ∃ done, w.readFromOwner vm id base datatype.iovec count amount 0 0 = .ok done ∧ done.ret = mpiSuccess ∧
      done.world.mem = copyAll w.mem (streamLocs base' datatype'.iovec 0 count')
        (streamLocs base datatype.iovec 0 count) := by
  have agree' : count * datatype.iovec.len = count' * datatype'.iovec.len := agree
  have bytes' : count * datatype.iovec.len < 2 ^ 63 := bytes
  have all : requested asked count' 0 datatype'.iovec.len datatype.iovec.len = count := by
    unfold requested
    rcases asks with rfl | rfl
    · split
      case isTrue => rfl
      case isFalse none =>
        rw [not_not.mp none] at agree' ⊢
        rw [Nat.sub_zero, ← agree', Nat.zero_mul, Nat.zero_div]
    · rw [if_neg (by simp), Nat.sub_zero, ← agree', Nat.mul_div_cancel _ datatype.lenPos]
  have read := readFromOwner_eq base copies datatype.wellFormed datatype'.wellFormed datatype.lenPos
    datatype'.lenPos amountEq (rfl : (0 : Int) = (0 : Nat)) (rfl : (0 : Int) = (0 : Nat)) shows.buf shows.iovec
    shows.size countRange (by omega) (by omega) (by rwa [all])
    (by rw [all, Nat.zero_mul]; omega) (by rw [all, Nat.zero_mul]; omega)
  rw [all] at read
  refine ⟨_, read, rfl, ?_⟩
  show copyAll w.mem _ _ = _
  rw [Nat.sub_zero, agree', Int.ofNat_zero, take_streamLocs datatype'.wellFormed _ le_rfl]

/-- A transfer from an owner leaves every `count_` as it is. -/
theorem readFromOwner_count {buf : Loc} {iovec : Iovec} {size amount seek skip : Int} {done : Transferred}
    (read : w.readFromOwner vm id buf iovec size amount seek skip = .ok done) (other : Nat) :
    (done.world.cookies other).count = (w.cookies other).count := by
  obtain ⟨mem, err, moved, rfl⟩ := readFromOwner_form read
  by_cases same : other = id
  · simp [World.finishTransfer, same]
  · simp [World.finishTransfer, same]

end Shown

/-- An action of the last rank, once the names of the cookies are known, and what it does to memory. -/
structure Errand where
  action : (Nat → Nat) → Action
  effect : Memory → Memory

/-- A cookie goes to `pending_`. -/
def Errand.retire (rank : Nat) : Errand where
  action := fun made => .moveToPending (made rank)
  effect := fun mem => mem

/-- Memory after the listed errands. -/
def perform (errands : List Errand) (mem : Memory) : Memory :=
  errands.foldl (fun mem errand => errand.effect mem) mem

@[simp] theorem perform_nil (mem : Memory) : perform [] mem = mem := rfl

@[simp] theorem perform_cons (errand : Errand) (errands : List Errand) (mem : Memory) :
    perform (errand :: errands) mem = perform errands (errand.effect mem) := rfl

theorem perform_append (errands more : List Errand) (mem : Memory) :
    perform (errands ++ more) mem = perform more (perform errands mem) :=
  List.foldl_append

/-- What the ranks of an operation without a root do. The latest rank comes first in every list. `stage` is
    what memory looks like when the listed ranks have joined, `agreed` what the slot's `iovec_` and `count_`
    then are, and `errands` what the last of them has left to do when they are all. -/
structure UnrootedPlan where
  schedule : Schedule
  offer : Nat → Offer
  stage : List Nat → Memory → Prop
  agreed : List Nat → Option Iovec → Int → Prop
  errands : List Nat → List Errand

namespace UnrootedPlan

/-- What the latest of the ranks that have joined has left to do. -/
def left (plan : UnrootedPlan) (n : Nat) (past : List Nat) : List Errand :=
  if past.length = n then plan.errands past else []

theorem left_of_lt (plan : UnrootedPlan) {n : Nat} {past : List Nat} (partly : past.length < n) :
    plan.left n past = [] := if_neg partly.ne

theorem left_of_full (plan : UnrootedPlan) {n : Nat} {past : List Nat} (full : past.length = n) :
    plan.left n past = plan.errands past := if_pos full

/-- The cookies that have been made show what their makers offer. -/
def Shown (plan : UnrootedPlan) (n : Nat) (past : List Nat) (made : Nat → Nat) (w : World) : Prop :=
  ∀ rank k, plan.schedule.numOf n rank past = some k → (w.cookies (made rank)).Shows (plan.offer rank)

/-- The calls and the errands do what the plan says. -/
structure Sound (plan : UnrootedPlan) (vm : ProcessVm) (calls : Nat → Call) (n turn : Nat) : Prop where
  arrives : ∀ (past : List Nat) (w : World) (caller : Nat) (made : Nat → Nat),
    Arriving plan.schedule n past w caller made → w.turnOf caller = turn → plan.stage past w.mem →
    plan.agreed past (w.slots turn).iovec (w.slots turn).count →
    (∀ rank ∈ plan.schedule.box n past, (w.cookies (made rank)).Offers (plan.offer rank)) →
    ((calls caller).enter vm w caller).Yields fun result => ∃ mid made',
      plan.stage (caller :: past) mid.mem ∧
      plan.agreed (caller :: past) (mid.slots turn).iovec (mid.slots turn).count ∧
      (∀ id, (mid.cookies id).count = (w.cookies id).count) ∧
      Entered plan.schedule n past w caller mid (plan.offer caller)
        ((plan.left n (caller :: past)).map fun errand => errand.action made') result made made'
  runs : ∀ (last : Nat) (before : List Nat), Schedule.Joining n (last :: before) →
    (last :: before).length = n → ∀ errand ∈ plan.errands (last :: before), ∀ (w : World) (made : Nat → Nat),
    plan.Shown n (last :: before) made w →
    ∃ done, (errand.action made).exec vm w last = .ok done ∧ done.ret = mpiSuccess ∧
      done.world.mem = errand.effect w.mem

end UnrootedPlan

/-- How far the operation has come when the ranks of `past` have joined. They have left memory as `gathered`,
    and since then the errands of `done` have been performed. -/
structure Underway (plan : UnrootedPlan) (n turn : Nat) (past : List Nat) (made : Nat → Nat)
    (gathered : Memory) (done rest : List Errand) (s : Sys) : Prop where
  stage : plan.stage past gathered
  split : plan.left n past = done ++ rest
  memory : s.world.mem = perform done gathered
  agreed : plan.agreed past (s.world.slots turn).iovec (s.world.slots turn).count
  /-- Only the latest rank has something to do. -/
  cont : ∀ rank, (s.ranks rank).cont =
    if past.head? = some rank then rest.map fun errand => errand.action made else []
  counts : past.length < n → ∀ rank k, plan.schedule.numOf n rank past = some k →
    (s.world.cookies (made rank)).count = (plan.offer rank).count

section Unrooted

variable {plan : UnrootedPlan} {vm : ProcessVm} {calls : Nat → Call} {n t : Nat} {origin s : Sys}
  {past : List Nat} {made made' : Nat → Nat} {gathered : Memory} {done rest : List Errand}

namespace Underway

/-- Until everybody has joined nobody has anything to do. -/
theorem nothing_done {turn : Nat} (underway : Underway plan n turn past made gathered done rest s)
    (partly : past.length < n) : done = [] ∧ rest = [] := by
  have split := underway.split
  rw [plan.left_of_lt partly] at split
  exact List.append_eq_nil_iff.mp split.symm

/-- What the cookies show does not change. -/
theorem shown (ledger : Ledger plan.schedule n t origin plan.offer past made s) :
    plan.Shown n past made s.world := by
  intro rank k makes
  have stable := ledger.cookies rank k makes
  exact
    { buf := Cookie.buf_of_stable stable
      iovec := Cookie.iovec_of_stable stable
      size := Cookie.size_of_stable stable }

/-- The cookies in the box are as they were offered. -/
theorem offers {turn : Nat} (underway : Underway plan n turn past made gathered done rest s)
    (ledger : Ledger plan.schedule n t origin plan.offer past made s) (suits : plan.schedule.Suits n)
    (partly : past.length < n) :
    ∀ rank ∈ plan.schedule.box n past, (s.world.cookies (made rank)).Offers (plan.offer rank) := by
  intro rank inBox
  obtain ⟨k, makes⟩ := Option.isSome_iff_exists.mp (Schedule.numOf_of_mem_box ledger.joining suits inBox)
  have shows := shown ledger rank k makes
  exact
    { buf := shows.buf
      iovec := shows.iovec
      size := shows.size
      count := underway.counts partly rank k makes }

/-- The next rank joins. -/
theorem join {self turn : Nat} {mid w' : World} {frame : Frame}
    (underway : Underway plan n turn past made gathered done rest s)
    (ledger : Ledger plan.schedule n t origin plan.offer past made s) (ready : origin.Ready n t)
    (joining : Schedule.Joining n (self :: past)) (here : s.world.turnOf self = turn)
    (staged : plan.stage (self :: past) mid.mem)
    (agreed : plan.agreed (self :: past) (mid.slots turn).iovec (mid.slots turn).count)
    (counted : ∀ id, (mid.cookies id).count = (s.world.cookies id).count)
    (entered : Entered plan.schedule n past s.world self mid (plan.offer self)
      ((plan.left n (self :: past)).map fun errand => errand.action made') (w', frame) made made')
    (joins : Nat → List Join) :
    Underway plan n turn (self :: past) made' mid.mem [] (plan.left n (self :: past))
      { world := w'
        ranks := Function.update s.ranks self ((s.ranks self).enter frame)
        joins := joins } := by
  have absent := joining.fresh
  have partly : past.length < n := joining.length_le
  have slot := entered.settles.slot
  rw [here] at slot
  obtain ⟨-, rfl⟩ := underway.nothing_done partly
  exact
    { stage := staged
      split := rfl
      memory := entered.settles.mem
      agreed := by
        dsimp only
        rw [slot]
        exact agreed
      cont := by
        intro rank
        by_cases own : rank = self
        · subst own
          have contSelf : frame.cont = (plan.left n (rank :: past)).map fun errand => errand.action made' :=
            entered.settles.cont
          simp [contSelf]
        · have before := underway.cont rank
          rw [List.map_nil, ite_self] at before
          simpa [own, Ne.symm own] using before
      counts := by
        intro _ rank k makes
        by_cases own : rank = self
        · subst own
          rw [Ledger.numOf_self] at makes
          rw [(entered.newCookie makes).2]
          rfl
        · rw [Ledger.numOf_other own] at makes
          have apart := ledger.enter_apart ready absent entered makes
          have kept := entered.settles.cookies (made rank) fun makesNew => apart (by
            simpa [Schedule.settlement, Option.isSome_iff_ne_none] using makesNew)
          rw [entered.settles.madeOthers rank own]
          calc
            (w'.cookies (made rank)).count = (mid.cookies (made rank)).count := (congrArg Cookie.count kept :)
            _ = (s.world.cookies (made rank)).count := counted (made rank)
            _ = (plan.offer rank).count := underway.counts partly rank k makes }

/-- Whoever has something to do is the last rank. -/
theorem last_of_cont {turn self : Nat} {action : Action} {actions : List Action}
    (underway : Underway plan n turn past made gathered done rest s)
    (joining : Schedule.Joining n past) (todo : (s.ranks self).cont = action :: actions) :
    ∃ before errand errands, past = self :: before ∧ past.length = n ∧ rest = errand :: errands ∧
      action = errand.action made ∧ actions = errands.map fun errand => errand.action made := by
  have cont := underway.cont self
  rw [todo] at cont
  split at cont
  case isFalse => cases cont
  case isTrue head =>
    obtain ⟨before, rfl⟩ : ∃ before, past = self :: before := by
      cases past with
      | nil => cases head
      | cons first before => exact ⟨before, by rw [Option.some.inj head]⟩
    cases rest with
    | nil => cases cont
    | cons errand errands =>
        obtain ⟨rfl, rfl⟩ := List.cons.inj cont
        have full : (self :: before).length = n := by
          by_contra partly
          have nothing := underway.nothing_done (lt_of_le_of_ne joining.length_le partly)
          cases nothing.2
        exact ⟨before, errand, errands, rfl, full, rfl, rfl, rfl⟩

/-- The last rank performs its next errand. -/
theorem act {self : Nat} {action : Action} {actions : List Action}
    (underway : Underway plan n (t % umpiOutstandingCollectiveOperations) past made gathered done rest s)
    (ledger : Ledger plan.schedule n t origin plan.offer past made s)
    (sound : plan.Sound vm calls n (t % umpiOutstandingCollectiveOperations))
    (todo : (s.ranks self).cont = action :: actions) :
    ∃ moved, action.exec vm s.world self = .ok moved ∧ moved.ret = mpiSuccess ∧ ∃ done' rest',
      Underway plan n (t % umpiOutstandingCollectiveOperations) past made gathered done' rest'
        { s with
          world := moved.world
          ranks := Function.update s.ranks self
            ((s.ranks self).advance action.moved actions moved.ret) } := by
  obtain ⟨before, errand, errands, rfl, full, rfl, rfl, rfl⟩ := underway.last_of_cont ledger.joining todo
  have listed : errand ∈ plan.errands (self :: before) := by
    rw [← plan.left_of_full full, underway.split]
    exact List.mem_append_right done List.mem_cons_self
  obtain ⟨moved, performed, success, effect⟩ :=
    sound.runs self before ledger.joining full errand listed s.world made (shown ledger)
  refine ⟨moved, performed, success, done ++ [errand], errands, ?_⟩
  have slots : moved.world.slots = s.world.slots := Action.exec_slots performed
  exact
    { stage := underway.stage
      split := by rw [underway.split, List.append_assoc, List.singleton_append]
      memory := by rw [perform_append, ← underway.memory]; exact effect
      agreed := by
        dsimp only
        rw [slots]
        exact underway.agreed
      cont := by
        intro rank
        by_cases own : rank = self
        · subst own
          simp [success, RankState.advance_cont_of_success]
        · have other := underway.cont rank
          simpa [own, Ne.symm own] using other
      counts := fun partly => absurd full partly.ne }

/-- A rank returns from a wait. -/
theorem leave {turn self id : Nat} (underway : Underway plan n turn past made gathered done rest s)
    (err : Int) :
    Underway plan n turn past made gathered done rest
      { s with
        world := s.world.finalize id
        ranks := Function.update s.ranks self ((s.ranks self).leave id err) } where
  stage := underway.stage
  split := underway.split
  memory := underway.memory
  agreed := underway.agreed
  cont := by
    intro rank
    rw [← underway.cont rank]
    by_cases own : rank = self <;> simp [own]
  counts := by
    intro partly rank k makes
    rw [← underway.counts partly rank k makes]
    by_cases same : made rank = id <;> simp [same]

end Underway

/-- When every rank has made its call everybody has joined. -/
theorem Ledger.length_of_complete {schedule : Schedule} {offers : Nat → Offer}
    (ledger : Ledger schedule n t origin offers past made s) (complete : s.Complete) : past.length = n := by
  by_contra partly
  obtain ⟨rank, valid, absent⟩ :=
    exists_missing (lt_of_le_of_ne ledger.joining.length_le partly)
  have called := complete.called rank (ledger.standing.size.symm ▸ valid)
  rw [ledger.pos rank, if_neg absent] at called
  cases called

/-! ### Runs -/

/-- The operation is under way, and everything so far has been done as planned. -/
def UnrootedPlan.Followed (plan : UnrootedPlan) (n t : Nat) (origin s : Sys) : Prop :=
  ∃ past made gathered done rest, Ledger plan.schedule n t origin plan.offer past made s ∧
    Underway plan n (t % umpiOutstandingCollectiveOperations) past made gathered done rest s

/-- A rank makes its call. -/
theorem UnrootedPlan.Followed.call {s' : Sys} {self : Nat} (followed : plan.Followed n t origin s)
    (sound : plan.Sound vm calls n (t % umpiOutstandingCollectiveOperations)) (ready : origin.Ready n t)
    (suits : plan.schedule.Suits n) (small : n + 1 < 2 ^ 15)
    (stepped : s.step vm (once calls) (.call self) = .ok s') : plan.Followed n t origin s' := by
  obtain ⟨past, made, gathered, done, rest, ledger, underway⟩ := followed
  obtain ⟨call, w, frame, valid, _, listed, entered, rfl⟩ := step_call stepped
  obtain ⟨absent, rfl⟩ := ledger.absent_of_call listed
  rw [ledger.standing.size] at valid
  have arriving := ledger.arriving ready suits.several (fun _ => suits) (by omega) valid absent
  have turn : s.world.turnOf self = t % umpiOutstandingCollectiveOperations := by
    rw [World.turnOf, ledger.ticket self valid absent]
  have partly : past.length < n := arriving.joining.length_le
  have stage : plan.stage past s.world.mem := by
    rw [underway.memory, (underway.nothing_done partly).1]
    exact underway.stage
  obtain ⟨mid, made', staged, agreed, counted, joined⟩ :=
    (sound.arrives past s.world self made arriving turn stage underway.agreed
      (underway.offers ledger suits partly)).of_ok entered
  have after := ledger.enter ready suits small valid absent joined (s.record w self)
  rw [Function.update_eq_self] at after
  exact ⟨_, made', _, _, _, after,
    underway.join ledger ready arriving.joining turn staged agreed counted joined _⟩

/-- In every run everything is done as planned. -/
theorem UnrootedPlan.Sound.followed (sound : plan.Sound vm calls n (t % umpiOutstandingCollectiveOperations))
    (ready : origin.Ready n t) (suits : plan.schedule.Suits n) (small : n + 1 < 2 ^ 15)
    (stage : plan.stage [] origin.world.mem) (agreed : ∀ iovec count, plan.agreed [] iovec count)
    (run : Reaches vm (once calls) origin s) : plan.Followed n t origin s := by
  induction run with
  | refl =>
      refine ⟨[], id, origin.world.mem, [], plan.left n [], Ledger.start ready id, ?_⟩
      exact
        { stage := stage
          split := rfl
          memory := rfl
          agreed := agreed _ _
          cont := fun rank => by simp [ready.idle]
          counts := fun _ _ _ impossible => by cases impossible }
  | tail label _ stepped ih =>
      cases label with
      | call self => exact ih.call sound ready suits small stepped
      | act self =>
          obtain ⟨past, made, gathered, done, rest, ledger, underway⟩ := ih
          obtain ⟨action, actions, moved, todo, performed, rfl⟩ := step_act stepped
          obtain ⟨moved', performed', success, done', rest', after⟩ := underway.act ledger sound todo
          obtain rfl := Outcome.ok.inj (performed.symm.trans performed')
          exact ⟨past, made, gathered, done', rest',
            ledger.act suits small todo performed (Or.inl success), after⟩
      | wait self id =>
          obtain ⟨past, made, gathered, done, rest, ledger, underway⟩ := ih
          obtain ⟨idle, held, finished, rfl⟩ := step_wait stepped
          exact ⟨past, made, gathered, done, rest, ledger.leave _ held, underway.leave _⟩

namespace UnrootedPlan.Followed

variable (followed : plan.Followed n t origin s)
include followed

/-- When every call has returned everybody has joined and every errand is done. -/
theorem finished (populated : 0 < n) (complete : s.Complete) :
    ∃ past gathered, Schedule.Joining n past ∧ past.length = n ∧ plan.stage past gathered ∧
      s.world.mem = perform (plan.errands past) gathered := by
  obtain ⟨past, made, gathered, done, rest, ledger, underway⟩ := followed
  have size := ledger.standing.size
  have full := ledger.length_of_complete complete
  refine ⟨past, gathered, ledger.joining, full, underway.stage, ?_⟩
  have split := underway.split
  rw [plan.left_of_full full] at split
  have nothing : rest = [] := by
    obtain ⟨last, before, rfl⟩ : ∃ last before, past = last :: before :=
      List.exists_cons_of_length_pos (full.symm ▸ populated)
    have returned := complete.returned last (size.symm ▸ ledger.joining.bound last List.mem_cons_self)
    rw [underway.cont last, List.head?_cons, if_pos rfl] at returned
    exact List.map_eq_nil_iff.mp returned
  rw [underway.memory, split, nothing, List.append_nil]

/-- When every call has returned every cookie of the operation has been notified as often as it was made
    for. -/
theorem notified (suits : plan.schedule.Suits n) (populated : 0 < n) (complete : s.Complete) :
    ∀ id ∈ (s.world.slots (t % umpiOutstandingCollectiveOperations)).made,
      ((s.world.cookies id).notified : Int) = (s.world.cookies id).num := by
  obtain ⟨past, made, gathered, done, rest, ledger, underway⟩ := followed
  intro id listed
  have size := ledger.standing.size
  have full := ledger.length_of_complete complete
  have nonempty : past ≠ [] := by
    rintro rfl
    exact populated.ne full
  obtain ⟨rank, k, makes, rfl⟩ := (ledger.record nonempty id).mp listed
  have nothing : due n s.ranks (made rank) = 0 :=
    due_eq_zero fun rank valid => complete.returned rank (size.symm ▸ valid)
  have promised := Schedule.balanced ledger.joining full suits makes
  have sent := ledger.notified rank k makes
  rw [ledger.num makes]
  omega

end UnrootedPlan.Followed

end Unrooted

end Umpi
