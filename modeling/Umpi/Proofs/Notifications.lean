/-
Module: Umpi.Proofs.Notifications
Layer: Proofs
Purpose: Every collective request completes exactly once, for every join order and every interleaving of
  the transfers, provided that there are at least two ranks (or the operation is a scan or exscan) and
  that the ranks of an allreduce agree on `MPI_IN_PLACE`. A single rank calling `MPI_Ibcast` takes the
  last element of an empty list.
Imports: Umpi.Proofs.Ledger
Trusted boundary: none
Main exports: Sys.Created, CompletesOnce, completes_once
Open obligations: none
-/
import Umpi.Proofs.Ledger

namespace Umpi

open Sys

/-- The cookie was created for the operation on the slot of ticket `t`, which somebody has joined. -/
def Sys.Created (s : Sys) (n t id : Nat) : Prop :=
  (∃ rank < n, (s.ranks rank).pos = 1) ∧
    id ∈ (s.world.slots (t % umpiOutstandingCollectiveOperations)).made

instance (s : Sys) (n t id : Nat) : Decidable (s.Created n t id) :=
  inferInstanceAs (Decidable (_ ∧ _))

/-- What the requests of one operation promise in a state `s`. -/
structure CompletesOnce (vm : ProcessVm) (calls : Nat → Call) (n t : Nat) (s : Sys) : Prop where
  /-- No rank can go on to look at the front or back of an empty list. -/
  safe : ∀ label, s.step vm (once calls) label ≠ .undefined .emptyList
  /-- The `*request` of a rank that calls designates a cookie created for the operation. -/
  request : ∀ rank s', s.step vm (once calls) (.call rank) = .ok s' → s'.Clean →
    ∃ id, (s'.ranks rank).requests = [id] ∧ s'.Created n t id
  /-- No counter is negative. -/
  nonneg : ∀ id, s.Created n t id → 0 ≤ (s.world.cookies id).busy
  /-- When everybody has joined and done its transfers, every cookie has been notified as often as the
      number it was created with says, and the box is empty. -/
  complete : (∀ rank < n, (s.ranks rank).pos = 1 ∧ (s.ranks rank).cont = []) →
    (∀ id, s.Created n t id →
      ((s.world.cookies id).notified : Int) = (s.world.cookies id).num ∧
        (s.world.cookies id).busy = 0) ∧
      (s.world.slots (t % umpiOutstandingCollectiveOperations)).box = []

section Runs

variable {vm : ProcessVm} {calls : Nat → Call} {schedule : Schedule} {n t : Nat} {origin s : Sys}
  {offers : Nat → Offer} {past : List Nat} {made : Nat → Nat}

/-- The books of an operation in which somebody has joined are those of a schedule that suits. -/
def Books (schedule : Schedule) (n t : Nat) (origin s : Sys) : Prop :=
  ∃ offers past made, Ledger schedule n t origin offers past made s ∧ (past ≠ [] → schedule.Suits n)

/-- A call that returns has joined. -/
theorem Ledger.call_enters (vm : ProcessVm) (ledger : Ledger schedule n t origin offers past made s)
    (ready : origin.Ready n t) (several : 2 ≤ n ∨ schedule = .ladder)
    (suits : past ≠ [] → schedule.Suits n) (small : n + 1 < 2 ^ 15) {self : Nat} (valid : self < n)
    (absent : self ∉ past) (follows : (calls self).schedule = schedule) :
    ((calls self).enter vm s.world self).Yields (Joins schedule n past s.world self made) := by
  subst follows
  exact (calls self).enter_joins vm (ledger.arriving ready several suits (by omega) valid absent)

/-- A call without an error leaves the books in order and its handle on a cookie of the operation. -/
theorem Ledger.call_books (ledger : Ledger schedule n t origin offers past made s)
    (ready : origin.Ready n t) (several : 2 ≤ n ∨ schedule = .ladder)
    (suits : past ≠ [] → schedule.Suits n) (small : n + 1 < 2 ^ 15)
    (follow : ∀ rank < n, (calls rank).schedule = schedule) {self : Nat} {s' : Sys}
    (stepped : s.step vm (once calls) (.call self) = .ok s') (clean : s'.Clean) :
    schedule.Suits n ∧ ∃ offers' made', Ledger schedule n t origin offers' (self :: past) made' s' ∧
      ∃ id, (s'.ranks self).requests = [id] := by
  obtain ⟨call, w, frame, valid, _, listed, entered, rfl⟩ := step_call stepped
  obtain ⟨absent, rfl⟩ := ledger.absent_of_call listed
  rw [ledger.standing.size] at valid
  have joins := (ledger.call_enters vm ready several suits small valid absent (follow self valid)).of_ok
    entered
  have accepted : frame.Accepted := by
    intro finished
    refine clean self frame.ret ?_
    simp [RankState.enter, finished]
  obtain ⟨suited, mid, offer, cont, made', joined⟩ := joins accepted
  have after := ledger.enter ready suited small valid absent joined (s.record w self)
  refine ⟨suited, _, made', after, ?_⟩
  have handle : frame.request = some (made' (schedule.request n past self)) := joined.settles.request
  simp [RankState.enter, handle, ledger.unrequested self absent]

/-- An action without an error leaves the books in order. -/
theorem Ledger.act_books (ledger : Ledger schedule n t origin offers past made s)
    (suits : schedule.Suits n) (small : n + 1 < 2 ^ 15) {self : Nat} {s' : Sys}
    (stepped : s.step vm (once calls) (.act self) = .ok s') (clean : s'.Clean) :
    Ledger schedule n t origin offers past made s' := by
  obtain ⟨action, rest, done, todo, performed, rfl⟩ := step_act stepped
  have success : done.ret = mpiSuccess := by
    by_contra failure
    refine failure (clean self done.ret ?_)
    simp [RankState.advance, failure]
  exact ledger.act suits small todo performed (Or.inl success)

/-- A run without an error keeps the books. -/
theorem reaches_books (ready : origin.Ready n t) (several : 2 ≤ n ∨ schedule = .ladder)
    (small : n + 1 < 2 ^ 15) (follow : ∀ rank < n, (calls rank).schedule = schedule)
    (reaches : Reaches vm (once calls) origin s) (clean : s.Clean) : Books schedule n t origin s := by
  induction reaches with
  | refl => exact ⟨fun rank => ⟨Pointer.null.loc rank, [], 0, 0⟩, [], id, Ledger.start ready id,
      fun impossible => absurd rfl impossible⟩
  | tail label _ stepped ih =>
      obtain ⟨offers, past, made, ledger, suits⟩ := ih (clean.of_step stepped)
      cases label with
      | call self =>
          obtain ⟨suited, offers', made', after, _⟩ :=
            ledger.call_books ready several suits small follow stepped clean
          exact ⟨offers', self :: past, made', after, fun _ => suited⟩
      | act self =>
          obtain ⟨action, rest, done, todo, performed, rfl⟩ := step_act stepped
          have joined : past ≠ [] := List.ne_nil_of_mem (ledger.mem_of_cont todo)
          exact ⟨offers, past, made, ledger.act_books (suits joined) small stepped clean, suits⟩
      | wait self id =>
          obtain ⟨_, listed, _, rfl⟩ := step_wait stepped
          exact ⟨offers, past, made, ledger.leave _ listed, suits⟩

/-- The cookies created for the operation are those of the ranks that made one. -/
theorem Ledger.created_iff (ledger : Ledger schedule n t origin offers past made s) {id : Nat} :
    s.Created n t id ↔ ∃ rank k, schedule.numOf n rank past = some k ∧ made rank = id := by
  constructor
  · rintro ⟨⟨rank, _, called⟩, member⟩
    have nonempty : past ≠ [] := by
      rintro rfl
      have before := ledger.pos rank
      simp [called] at before
    exact (ledger.record nonempty id).mp member
  · rintro ⟨rank, k, makes, named⟩
    have joined := Schedule.mem_of_numOf makes
    refine ⟨⟨rank, ledger.joining.bound rank joined, ?_⟩, ?_⟩
    · rw [ledger.pos rank, if_pos joined]
    · exact (ledger.record (List.ne_nil_of_mem joined) id).mpr ⟨rank, k, makes, named⟩

/-- When everybody has joined and nothing is left to do, every cookie has had its notifications. -/
theorem Ledger.settled (ledger : Ledger schedule n t origin offers past made s) (suits : schedule.Suits n)
    (full : past.length = n) (idle : ∀ rank < n, (s.ranks rank).cont = []) {rank : Nat} {k : Int}
    (makes : schedule.numOf n rank past = some k) :
    ((s.world.cookies (made rank)).notified : Int) = k ∧ (s.world.cookies (made rank)).busy = 0 := by
  have issued := Schedule.balanced ledger.joining full suits makes
  have nothing : due n s.ranks (made rank) = 0 := due_eq_zero idle
  have so := ledger.notified rank k makes
  have balance := ledger.busy rank k makes
  omega

/-- The books say what the requests promise. -/
theorem Books.completesOnce (books : Books schedule n t origin s) (ready : origin.Ready n t)
    (several : 2 ≤ n ∨ schedule = .ladder) (small : n + 1 < 2 ^ 15)
    (follow : ∀ rank < n, (calls rank).schedule = schedule) : CompletesOnce vm calls n t s := by
  obtain ⟨offers, past, made, ledger, suits⟩ := books
  refine { safe := ?_, request := ?_, nonneg := ?_, complete := ?_ }
  · intro label
    cases label with
    | call self =>
        simp only [step]
        split
        · simp
        case isFalse free =>
          have valid : self < n := by
            have inside := Nat.lt_of_not_le (not_or.mp free).1
            rwa [ledger.standing.size] at inside
          split
          · simp
          case h_2 call listed =>
            obtain ⟨absent, rfl⟩ := ledger.absent_of_call listed
            have enters := ledger.call_enters vm ready several suits small valid absent (follow self valid)
            refine @Outcome.Yields.ne_emptyList _ _ (fun _ => True) ?_
            exact Outcome.yields_bind (enters.mono fun _ _ => trivial)
    | act self =>
        simp only [step]
        split
        · simp
        · refine @Outcome.Yields.ne_emptyList _ _ (fun _ => True) ?_
          exact Outcome.yields_bind ((Action.exec_safe vm s.world self _).mono fun _ _ => trivial)
    | wait self id =>
        simp only [step]
        split <;> simp
  · intro rank s' stepped clean
    obtain ⟨_, offers', made', after, id, handle⟩ :=
      ledger.call_books ready several suits small follow stepped clean
    obtain ⟨other, k, makes, named⟩ := after.requests rank id (by rw [handle]; exact List.mem_cons_self)
    exact ⟨id, handle, after.created_iff.mpr ⟨other, k, makes, named⟩⟩
  · intro id created
    obtain ⟨rank, k, makes, rfl⟩ := ledger.created_iff.mp created
    have suited := suits (List.ne_nil_of_mem (Schedule.mem_of_numOf makes))
    have atMost := Schedule.issued_le_numOf ledger.joining suited makes
    have so := ledger.notified rank k makes
    have balance := ledger.busy rank k makes
    omega
  · intro finished
    have everyone : ∀ rank < n, rank ∈ past := by
      intro rank valid
      by_contra absent
      have called := (finished rank valid).1
      rw [ledger.pos rank, if_neg absent] at called
      cases called
    have full : past.length = n := by
      refine le_antisymm ledger.joining.length_le ?_
      have all : List.range n ⊆ past := fun rank member => everyone rank (List.mem_range.mp member)
      simpa using (List.subperm_of_subset List.nodup_range all).length_le
    refine ⟨fun id created => ?_, ?_⟩
    · obtain ⟨rank, k, makes, rfl⟩ := ledger.created_iff.mp created
      have suited := suits (List.ne_nil_of_mem (Schedule.mem_of_numOf makes))
      rw [ledger.num makes]
      exact ledger.settled suited full (fun rank valid => (finished rank valid).2) makes
    · rw [ledger.standing.box, Schedule.box_full full, List.map_nil]

end Runs

/-- In every run without an error every request completes exactly once, if there are two ranks or the
    operation is a scan or exscan, and if the ranks of an allreduce agree on `MPI_IN_PLACE`. -/
theorem completes_once (vm : ProcessVm) {calls : Nat → Call} {n t : Nat} {origin s : Sys}
    (ready : origin.Ready n t) (limit : n ≤ 10000)
    (agree : ∀ rank < n, (calls rank).operation = (calls 0).operation)
    (several : 2 ≤ n ∨ (calls 0).operation = .exscan ∨ (calls 0).operation = .scan)
    (alike : ∀ rank < n, (calls rank).reducesInPlace = (calls 0).reducesInPlace)
    (run : Reaches vm (once calls) origin s) (clean : s.Clean) : CompletesOnce vm calls n t s := by
  have follow : ∀ rank < n, (calls rank).schedule = (calls 0).schedule := by
    intro rank valid
    rw [Call.schedule, Call.schedule, agree rank valid, alike rank valid]
  have enough : 2 ≤ n ∨ (calls 0).schedule = .ladder := by
    rcases several with two | exscan | scan
    · exact Or.inl two
    · exact Or.inr (by rw [Call.schedule, exscan, Operation.schedule])
    · exact Or.inr (by rw [Call.schedule, scan, Operation.schedule])
  exact (reaches_books ready enough (by omega) follow run clean).completesOnce ready enough (by omega)
    follow

/-- `MPI_Ibcast` of one character from rank 0. -/
def bcastChar (_ : Nat) : Call :=
  .bcast (.addr 0) 1 (some Datatype.mpiChar.iovec) 0 .world

/-- `MPI_Iallreduce` of one character, by rank 0 with `MPI_IN_PLACE` and by the others without. -/
def mixedAllreduce (rank : Nat) : Call :=
  .allreduce (if rank = 0 then .inPlace else .addr 1) (.addr 0) 1 (some Datatype.mpiChar.iovec)
    (some { func := fun _ inout => inout }) .world

/-- A broadcast whose root comes last. -/
theorem completes_once_bcastChar :
    ∃ s, (Sys.init 2 fun _ => 0).run copyingVm (once bcastChar) [.call 1, .call 0, .act 0, .act 0] =
        .ok s ∧
      CompletesOnce copyingVm bcastChar 2 0 s := by
  have runs : ∃ s, (Sys.init 2 fun _ => 0).run copyingVm (once bcastChar)
      [.call 1, .call 0, .act 0, .act 0] = .ok s ∧ s.Clean := by
    refine ⟨_, rfl, ?_⟩
    rintro (_ | _ | rank)
    · decide
    · decide
    · rintro ret ⟨⟩
  obtain ⟨s, ran, clean⟩ := runs
  exact ⟨s, ran, completes_once copyingVm (ready_init 2 _) (by decide) (fun _ _ => rfl) (Or.inl le_rfl)
    (fun _ _ => rfl) (reaches_of_run ran) clean⟩

/-- A single rank takes the last element of an empty list. And if only the first rank of an allreduce
    passes `MPI_IN_PLACE`, its cookie is notified twice although it was made for one notification. -/
theorem completes_once_fails :
    ((Sys.init 1 fun _ => 0).step copyingVm (once bcastChar) (.call 0) = .undefined .emptyList ∧
      ¬ CompletesOnce copyingVm bcastChar 1 0 (Sys.init 1 fun _ => 0)) ∧
    ∃ s, (Sys.init 2 fun _ => 0).run copyingVm (once mixedAllreduce)
        [.call 0, .call 1, .act 1, .act 1] = .ok s ∧
      s.Clean ∧ (s.world.cookies 0).num = 1 ∧ (s.world.cookies 0).notified = 2 ∧
      ¬ CompletesOnce copyingVm mixedAllreduce 2 0 s := by
  refine ⟨⟨rfl, fun promised => promised.safe (.call 0) rfl⟩, _, rfl, ?_, by decide, by decide, ?_⟩
  · rintro (_ | _ | rank)
    · decide
    · decide
    · rintro ret ⟨⟩
  · intro promised
    exact absurd (promised.nonneg 0 (by decide)) (by decide)

end Umpi
