/-
Module: Umpi.Proofs.Outstanding
Layer: Proofs
Purpose: How far a program of blocking collective calls runs ahead. A rank leaves an operation behind as soon as
  the root or the next rank has served it, so it can be past operations that others have not joined. But every
  operation that is not complete keeps somebody waiting: the owner of a cookie in the box. A rank that finds its
  slot sixteen tickets behind is past sixteen such operations, with a different rank waiting in each, and one
  rank has not even joined the first. That takes eighteen ranks, and eighteen are enough.
Imports: Umpi.Proofs.Tending, Umpi.Proofs.Deliveries, Umpi.Proofs.Endings
Trusted boundary: none
Main exports: OneAtATime, Latest, blocking_calls_never_exit, blocking_calls_exit
Open obligations: none
-/
import Umpi.Proofs.Tending
import Umpi.Proofs.Deliveries
import Umpi.Proofs.Endings

namespace Umpi

open Foundation Sys

/-! ### Where the program exits -/

/-- The only step that exits is a call. -/
theorem Sys.step_exits {vm : ProcessVm} {program : Program} {s : Sys} {label : Label}
    (exits : s.step vm program label = .exited) :
    ∃ self, label = .call self ∧ self < s.world.size ∧ s.world.TooMany self := by
  cases label with
  | call self =>
      simp only [step] at exits
      split at exits
      case isTrue => cases exits
      case isFalse allowed =>
        split at exits
        · cases exits
        · rcases Outcome.bind_eq_exited.mp exits with entering | ⟨_, _, impossible⟩
          · exact ⟨self, rfl, by omega, (Call.enter_ends .exited vm s.world self _).cause entering⟩
          · cases impossible
  | act self =>
      simp only [step] at exits
      split at exits
      · cases exits
      · rcases Outcome.bind_eq_exited.mp exits with acting | ⟨_, _, impossible⟩
        · have impossible : False := (Action.exec_goes .exited vm s.world self _).cause acting
          exact impossible.elim
        · cases impossible
  | wait self id =>
      simp only [step] at exits
      split at exits <;> cases exits

/-! ### Whose operation a handle belongs to -/

/-- A rank makes its next call only when it has waited for the previous one. -/
def OneAtATime (s : Sys) : Label → Prop
  | .call self => (s.ranks self).requests = []
  | _ => True

instance (s : Sys) : (label : Label) → Decidable (OneAtATime s label)
  | .call self => inferInstanceAs (Decidable ((s.ranks self).requests = []))
  | .act _ => inferInstanceAs (Decidable True)
  | .wait _ _ => inferInstanceAs (Decidable True)

/-- Whoever waits for its own cookie in a box has made no call since it joined. -/
def Latest (s : Sys) : Prop :=
  ∀ turn < umpiOutstandingCollectiveOperations, ∀ id ∈ (s.world.slots turn).box,
    id ∈ (s.ranks (s.world.cookies id).owner).requests →
      ∀ join ∈ s.joins turn, (s.ranks (s.world.cookies id).owner).pos = join.pos + 1

namespace Latest

variable {program : Program} {n : Nat} {pool : List Nat} {s s' : Sys} {self : Nat}

theorem start (n : Nat) (mem : Memory) : Latest (Sys.init n mem) := by
  intro turn _ id boxed
  cases boxed

/-- A step that is no call: boxes, owners and positions stay, and there are no new handles. -/
theorem kept (latest : Latest s) (box : ∀ turn, (s'.world.slots turn).box = (s.world.slots turn).box)
    (owner : ∀ id, (s'.world.cookies id).owner = (s.world.cookies id).owner)
    (pos : ∀ rank, (s'.ranks rank).pos = (s.ranks rank).pos)
    (requests : ∀ rank, (s'.ranks rank).requests ⊆ (s.ranks rank).requests) (joins : s'.joins = s.joins) :
    Latest s' := by
  intro turn valid id boxed listed join joined
  rw [owner, pos]
  rw [owner] at listed
  rw [box] at boxed
  rw [joins] at joined
  exact latest turn valid id boxed (requests _ listed) join joined

/-- A call by a rank that has waited for its previous one. -/
theorem call (latest : Latest s) (tended : Tended program n pool s) (several : 2 ≤ n) (limit : n ≤ 10000)
    (alike : ∀ rank < n, ∀ pos,
      (program rank pos).map Call.operation = (program 0 pos).map Call.operation)
    (agree : ∀ rank < n, ∀ pos,
      (program rank pos).map Call.reducesInPlace = (program 0 pos).map Call.reducesInPlace)
    {vm : ProcessVm} {w' : World} {frame : Frame} (valid : self < n) (idle : (s.ranks self).cont = [])
    {call : Call} (listed : program self (s.ranks self).pos = some call)
    (called : call.enter vm s.world self = .ok (w', frame)) (accepted : frame.Accepted)
    (waited : (s.ranks self).requests = []) : Latest (Tended.afterCall s self w' frame (s.record w' self)) := by
  obtain ⟨past, made, mid, offer, cont, made', stage, joined⟩ :=
    tended.exists_joined several limit alike agree valid idle listed called accepted
  have standing := joined.entered.standing joined.arriving joined.suits
  have record := tended.tickets.record_eq stage joined.entered standing
  intro turn turnValid id boxed handle join listedJoin
  dsimp only at boxed handle listedJoin ⊢
  rw [record] at listedJoin
  by_cases own : turn = s.world.turnOf self
  · -- everybody in the caller's slot is at the caller's position
    subst own
    rw [Function.update_self] at listedJoin
    rw [pos_of_mem_recordOf listedJoin]
    rw [standing.box] at boxed
    obtain ⟨rank, inBox, rfl⟩ := List.mem_map.mp boxed
    have known := Schedule.mem_box_cases joined.joining joined.suits inBox
    have owner := (joined.account_known s.joins tended.spent tended.shelved limit known).1
    rw [owner] at handle ⊢
    rcases known with old | ⟨rfl, _⟩
    · have other := joined.old_ne old
      rw [Function.update_of_ne other] at handle ⊢
      rw [(joined.old old).1] at handle
      have member := Schedule.mem_of_box joined.joining.tail joined.suits old
      have before : made rank ∈ (s.world.slots (s.world.turnOf self)).box := by
        rw [joined.counted.box]
        exact List.mem_map_of_mem old
      have mine := joined.counted.owner rank old
      have someone : past ≠ [] := List.ne_nil_of_mem member
      obtain ⟨first, inPast⟩ := List.exists_mem_of_ne_nil (s.joins (s.world.turnOf self)) (by
        rw [stage.record someone]
        exact recordOf_ne_nil someone)
      have latest := latest _ turnValid _ before (by rw [mine]; exact handle) first inPast
      rw [stage.record someone] at inPast
      rwa [mine, pos_of_mem_recordOf inPast] at latest
    · rw [Function.update_self]
      rfl
  · -- the caller's only handle is on a cookie of its own slot
    rw [Function.update_of_ne own] at listedJoin
    have same : (w'.slots turn).box = (s.world.slots turn).box := by
      have kept : w'.slots turn = mid.slots turn := joined.entered.settles.otherSlots turn own
      rw [kept, joined.entered.midway.box, claimed_slots_of_ne s.world self own]
    rw [same] at boxed
    obtain ⟨cookie, _, held⟩ := joined.elsewhere s.joins tended.shelved own boxed
    rw [cookie] at handle ⊢
    by_cases mine : (s.world.cookies id).owner = self
    · rw [mine, Function.update_self, joined.requests_eq, waited, List.mem_singleton] at handle
      rw [joined.held_eq s.joins, if_pos handle.symm] at held
      omega
    · rw [Function.update_of_ne mine] at handle ⊢
      exact latest turn turnValid id boxed handle join listedJoin

end Latest

/-- Both invariants hold in every run of blocking calls without an error. -/
theorem reachesBy_latest {vm : ProcessVm} {program : Program} {n : Nat} {mem : Memory} {s : Sys}
    (several : 2 ≤ n) (limit : n ≤ 10000)
    (alike : ∀ rank < n, ∀ pos,
      (program rank pos).map Call.operation = (program 0 pos).map Call.operation)
    (agree : ∀ rank < n, ∀ pos,
      (program rank pos).map Call.reducesInPlace = (program 0 pos).map Call.reducesInPlace)
    (reaches : ReachesBy vm program OneAtATime (Sys.init n mem) s) (clean : s.Clean) :
    (∃ history, Runs vm program (Sys.init n mem) history s) ∧ Latest s := by
  induction reaches with
  | refl => exact ⟨⟨[], .refl⟩, Latest.start n mem⟩
  | @tail middle _ label before condition stepped ih =>
      obtain ⟨⟨history, run⟩, latest⟩ := ih (clean.of_step stepped)
      have tended := runs_tended several limit alike agree run (clean.of_step stepped)
      refine ⟨⟨_, .tail (.collective label) run stepped⟩, ?_⟩
      cases label with
      | call self =>
          obtain ⟨call, w, frame, valid, idle, listed, entered, rfl⟩ := step_call stepped
          rw [tended.tickets.size] at valid
          refine latest.call tended several limit alike agree valid idle listed entered (fun finished => ?_)
            condition
          refine clean self frame.ret ?_
          simp [RankState.enter, finished]
      | act self =>
          obtain ⟨action, rest, done, todo, acted, rfl⟩ := step_act stepped
          have world : (∀ turn, (done.world.slots turn).box = (middle.world.slots turn).box) ∧
              ∀ id, (done.world.cookies id).owner = (middle.world.cookies id).owner := by
            rcases Action.exec_cases acted with ⟨id, _, moved, _⟩ | ⟨_, midway⟩
            · rw [moved]
              exact ⟨fun _ => rfl, fun _ => rfl⟩
            · exact ⟨midway.box, fun id => (congrArg Cookie.owner (midway.fixed id) :)⟩
          refine latest.kept world.1 world.2 (fun rank => ?_) (fun rank => ?_) rfl
          · by_cases own : rank = self <;> simp [own]
          · by_cases own : rank = self <;> simp [own]
      | wait self id =>
          obtain ⟨_, listed, ready, rfl⟩ := step_wait stepped
          refine latest.kept (fun turn => rfl) (fun other => ?_) (fun rank => ?_) (fun rank => ?_) rfl
          · by_cases same : other = id <;> simp [same]
          · by_cases own : rank = self <;> simp [own]
          · by_cases own : rank = self
            · subst own
              simpa using List.erase_subset
            · simp [own]

/-! ### Sixteen operations that are not complete -/

section Window

variable {program : Program} {n : Nat} {pool : List Nat} {s : Sys} {self absent : Nat}

/-- Somebody waits in every slot that has been joined by one rank and not yet by another, and is at the
    position of the slot. -/
theorem exists_waiting (tended : Tended program n pool s) (latest : Latest s)
    (alike : ∀ rank < n, ∀ pos,
      (program rank pos).map Call.operation = (program 0 pos).map Call.operation)
    (valid : self < n) (absentValid : absent < n) {position : Nat}
    (near : (s.ranks absent).pos ≤ position) (far : position < (s.ranks self).pos)
    (inWindow : (s.ranks self).pos ≤ (s.ranks absent).pos + umpiOutstandingCollectiveOperations) :
    ∃ rank < n, (s.ranks rank).requests ≠ [] ∧ (s.ranks rank).pos = position + 1 := by
  have turnValid : position % umpiOutstandingCollectiveOperations < umpiOutstandingCollectiveOperations :=
    Nat.mod_lt _ (by decide)
  obtain ⟨there, past, made, stage, counted⟩ := tended.boxes _ turnValid
  have same : there = position := by
    have mine := stage.mine
    have ahead := stage.ahead self valid
    have behind := stage.behind absent absentValid
    simp only [umpiOutstandingCollectiveOperations] at *
    omega
  subst same
  have someone : past ≠ [] := List.ne_nil_of_mem ((stage.joined self valid).mpr far)
  obtain ⟨first, firstValid, call, listed, suits, standing⟩ := stage.standing someone
  have operations := alike first firstValid there
  rw [listed] at operations
  obtain ⟨leading, listed', _⟩ := Option.map_eq_some_iff.mp operations.symm
  obtain ⟨box, owner, account⟩ := counted leading listed'
  obtain ⟨id, boxed⟩ := List.exists_mem_of_ne_nil _ (mt stage.box_eq_nil.mp someone)
  have inBox := boxed
  rw [box] at inBox
  obtain ⟨rank, member, rfl⟩ := List.mem_map.mp inBox
  -- the cookie still expects somebody, so its owner has a handle on it
  have handle := (account rank member).waits (Nat.lt_add_left _ (Schedule.future_pos stage.partly member))
  obtain ⟨join, joined⟩ := List.exists_mem_of_ne_nil (s.joins (there % umpiOutstandingCollectiveOperations)) (by
    rw [stage.record someone]
    exact recordOf_ne_nil someone)
  have position := latest _ turnValid _ boxed handle join joined
  rw [stage.record someone] at joined
  rw [pos_of_mem_recordOf joined, owner rank member] at position
  rw [owner rank member] at handle
  exact ⟨rank, (owner rank member ▸ (account rank member).owner), List.ne_nil_of_mem handle, position⟩

/-- A rank that is a round of slots ahead of another, and waits for nothing, has sixteen ranks waiting
    behind it. -/
theorem eighteen_ranks (tended : Tended program n pool s) (latest : Latest s)
    (alike : ∀ rank < n, ∀ pos,
      (program rank pos).map Call.operation = (program 0 pos).map Call.operation)
    (valid : self < n) (absentValid : absent < n) (waited : (s.ranks self).requests = [])
    (round : (s.ranks self).pos = (s.ranks absent).pos + umpiOutstandingCollectiveOperations) : 18 ≤ n := by
  have waiting : ∀ step : Fin umpiOutstandingCollectiveOperations, ∃ rank < n,
      (s.ranks rank).requests ≠ [] ∧ (s.ranks rank).pos = (s.ranks absent).pos + step + 1 := fun step =>
    exists_waiting tended latest alike valid absentValid (Nat.le_add_right _ _)
      (by rw [round]; exact Nat.add_lt_add_left step.isLt _) round.le
  choose rank bound handle position using waiting
  have inside : Finset.univ.image rank ⊆ ((Finset.range n).erase self).erase absent := by
    intro other member
    obtain ⟨step, _, rfl⟩ := Finset.mem_image.mp member
    refine Finset.mem_erase.mpr ⟨?_, Finset.mem_erase.mpr ⟨?_, Finset.mem_range.mpr (bound step)⟩⟩
    · intro same
      have ahead := position step
      rw [same] at ahead
      omega
    · intro same
      exact handle step (same ▸ waited)
  have distinct : Function.Injective rank := by
    intro step step' same
    have first := position step
    have second := position step'
    rw [same] at first
    exact Fin.ext (by omega)
  have apart : absent ∈ (Finset.range n).erase self := by
    refine Finset.mem_erase.mpr ⟨?_, Finset.mem_range.mpr absentValid⟩
    rintro rfl
    simp [umpiOutstandingCollectiveOperations] at round
  have few := Finset.card_le_card inside
  rw [Finset.card_image_of_injective _ distinct, Finset.card_univ, Fintype.card_fin,
    Finset.card_erase_of_mem apart, Finset.card_erase_of_mem (Finset.mem_range.mpr valid),
    Finset.card_range] at few
  simp only [umpiOutstandingCollectiveOperations] at few
  omega

/-- A slot is taken by another ticket only for a rank that is a round of slots ahead of one that has not
    joined the operation in the slot. -/
theorem exists_absent (tickets : Tickets program n s) (valid : self < n) (tooMany : s.world.TooMany self) :
    ∃ absent < n, (s.ranks self).pos = (s.ranks absent).pos + umpiOutstandingCollectiveOperations := by
  obtain ⟨busy, different⟩ := tooMany
  obtain ⟨position, past, made, stage⟩ :=
    tickets.slots (s.world.turnOf self) (Nat.mod_lt _ (by decide))
  have someone : past ≠ [] := mt stage.box_eq_nil.mpr busy
  obtain ⟨absent, absentValid, outside⟩ := exists_missing stage.partly
  have behind : (s.ranks absent).pos ≤ position :=
    Nat.le_of_not_lt fun past => outside ((stage.joined absent absentValid).mpr past)
  obtain ⟨position', past', made', stage'⟩ :=
    tickets.slots ((s.ranks absent).pos % umpiOutstandingCollectiveOperations) (Nat.mod_lt _ (by decide))
  refine ⟨absent, absentValid, ?_⟩
  have mine := stage.mine
  have mine' := stage'.mine
  have ahead := stage.ahead self valid
  have ahead' := stage'.ahead self valid
  have near := stage.behind self valid
  have near' := stage'.behind absent absentValid
  rw [stage.ticket someone, tickets.ticket] at different
  rw [tickets.turnOf_eq] at mine
  simp only [umpiOutstandingCollectiveOperations] at *
  omega

end Window

/-- Blocking collective calls of at most 17 ranks, each making the same sequence of calls, never take the
    exit of `get_current_slot`. -/
theorem blocking_calls_never_exit {vm : ProcessVm} {program : Program} {n : Nat} {mem : Memory} {s : Sys}
    {label : Label} (several : 2 ≤ n) (few : n ≤ 17)
    (alike : ∀ rank < n, ∀ pos,
      (program rank pos).map Call.operation = (program 0 pos).map Call.operation)
    (agree : ∀ rank < n, ∀ pos,
      (program rank pos).map Call.reducesInPlace = (program 0 pos).map Call.reducesInPlace)
    (reaches : ReachesBy vm program OneAtATime (Sys.init n mem) s) (clean : s.Clean)
    (blocking : OneAtATime s label) : s.step vm program label ≠ .exited := by
  intro exits
  obtain ⟨self, rfl, valid, tooMany⟩ := Sys.step_exits exits
  have limit : n ≤ 10000 := by omega
  obtain ⟨⟨history, run⟩, latest⟩ := reachesBy_latest several limit alike agree reaches clean
  have tended := runs_tended several limit alike agree run clean
  rw [tended.tickets.size] at valid
  obtain ⟨absent, absentValid, round⟩ := exists_absent tended.tickets valid tooMany
  have many := eighteen_ranks tended latest alike valid absentValid blocking round
  omega

/-- Two ranks that have made the first of their broadcasts. -/
theorem blocking_calls_never_exit_bcastForever :
    ∃ s, ReachesBy copyingVm bcastForever OneAtATime (Sys.init 2 fun _ => 0) s ∧ (s.ranks 0).pos = 1 ∧
      (s.ranks 1).pos = 1 ∧ s.step copyingVm bcastForever (.call 0) ≠ .exited := by
  have runs : ∃ s, (Sys.init 2 fun _ => 0).runBy copyingVm bcastForever OneAtATime
      [.call 0, .call 1, .act 1, .wait 0 0, .wait 1 0] = .ok s ∧ s.Clean ∧ OneAtATime s (.call 0) ∧
        (s.ranks 0).pos = 1 ∧ (s.ranks 1).pos = 1 := by
    refine ⟨_, rfl, ?_, by decide, by decide, by decide⟩
    rintro (_ | _ | rank)
    · decide
    · decide
    · rintro ret ⟨⟩
  obtain ⟨s, ran, clean, blocking, first, second⟩ := runs
  have reaches := reachesBy_of_runBy ran
  exact ⟨s, reaches, first, second, blocking_calls_never_exit le_rfl (by decide) (fun _ _ _ => rfl)
    (fun _ _ _ => rfl) reaches clean blocking⟩

/-- Broadcasts of nothing, the first from rank 1, the next from rank 2 and so on. -/
def rotating : Program := fun _ pos => some (.bcast (.addr 0) 0 (some Datatype.mpiChar.iovec) (pos + 1) .world)

/-- Rank `rank` takes part in the broadcasts of the ranks from 1 to `roots`, each after its root. -/
def passing (rank roots : Nat) : List Label :=
  (List.range roots).flatMap fun pos => [.call rank, .act rank, .wait rank pos]

/-- One rank after another passes the broadcasts that have a root already, and is the root of the next. -/
def stepping (roots : Nat) : List Label :=
  (List.range roots).flatMap fun pos => passing (pos + 1) pos ++ [.call (pos + 1)]

/-- Broadcasts of one character from rank 1. -/
def repeated : Program := fun _ _ => some (.bcast (.addr 0) 1 (some Datatype.mpiChar.iovec) 1 .world)

/-- Rank 1 fails to serve rank 0 and goes on; rank 0 waits for its cookie, the same in every round. -/
def failing (rounds : Nat) : List Label :=
  (List.range rounds).flatMap fun _ => [.call 0, .call 1, .act 1, .act 1, .wait 0 0]

/-- Nothing has failed on the first `n` ranks. -/
def Unfailing (n : Nat) (s : Sys) : Prop := ∀ rank < n, ∀ ret ∈ (s.ranks rank).rets, ret = mpiSuccess

instance (n : Nat) (s : Sys) : Decidable (Unfailing n s) :=
  inferInstanceAs (Decidable (∀ rank < n, ∀ ret ∈ (s.ranks rank).rets, ret = mpiSuccess))

set_option maxRecDepth 100000 in
/-- With 18 ranks one can get a round of slots ahead, without any error: sixteen of the others are roots of
    sixteen broadcasts that rank 0 has not joined. If transfers fail then three ranks are enough, because a root
    that cannot serve a rank returns an error and does not wait for the others. -/
theorem blocking_calls_exit :
    (∃ s, ReachesBy copyingVm rotating OneAtATime (Sys.init 18 fun _ => 0) s ∧ Unfailing 18 s ∧
      OneAtATime s (.call 17) ∧ s.step copyingVm rotating (.call 17) = .exited) ∧
    ∃ s, Reaches failingVm repeated (Sys.init 3 fun _ => 0) s ∧ (s.ranks 0).requests = [] ∧
      (s.ranks 1).rets = List.replicate 16 mpiFail ∧ s.step failingVm repeated (.call 0) = .exited := by
  constructor
  · have passed : ((Sys.init 18 fun _ => 0).runBy copyingVm rotating OneAtATime
        (stepping 16 ++ passing 17 16)).passes (fun s => Unfailing 18 s ∧ OneAtATime s (.call 17) ∧
          s.step copyingVm rotating (.call 17) = .exited) = true := by
      decide +kernel
    obtain ⟨s, ran, checks⟩ := Outcome.exists_of_passes passed
    exact ⟨s, reachesBy_of_runBy ran, of_decide_eq_true checks⟩
  · have passed : ((Sys.init 3 fun _ => 0).run failingVm repeated (failing 16)).passes (fun s =>
        (s.ranks 0).requests = [] ∧ (s.ranks 1).rets = List.replicate 16 mpiFail ∧
          s.step failingVm repeated (.call 0) = .exited) = true := by
      decide +kernel
    obtain ⟨s, ran, checks⟩ := Outcome.exists_of_passes passed
    exact ⟨s, reaches_of_run ran, of_decide_eq_true checks⟩

end Umpi
