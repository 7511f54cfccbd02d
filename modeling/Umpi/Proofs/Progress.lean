/-
Module: Umpi.Proofs.Progress
Layer: Proofs
Purpose: Programs of collective calls do not deadlock. A rank that is in `MPI_Wait` waits for others to join its
  operation or to make a transfer, and the rank that is furthest behind waits for nobody: all others have joined
  whatever it has joined. So when nobody goes on, everything is done, or a message has no counterpart.
Imports: Umpi.Proofs.Outstanding, Umpi.Proofs.Reclaiming
Trusted boundary: none
Main exports: Sys.Stuck, Sys.Retired, Sys.Unpaired, collective_programs_never_deadlock
Open obligations: none
-/
import Umpi.Proofs.Outstanding
import Umpi.Proofs.Reclaiming

namespace Umpi

open Foundation Sys

/-- The rank cannot take a step: if it may make its next call only when it holds no request, whatever it can do has
    to wait. -/
def Sys.Stuck (vm : ProcessVm) (program : Program) (s : Sys) (rank : Nat) : Prop :=
  ∀ label : Label, label.actor = rank → OneAtATime s label → s.step vm program label = .blocked

/-- The rank has made all its calls, has returned from them and has waited for all its requests. -/
structure Sys.Retired (program : Program) (s : Sys) (rank : Nat) : Prop where
  returned : (s.ranks rank).cont = []
  waited : (s.ranks rank).requests = []
  ended : program rank (s.ranks rank).pos = none

/-- The cookie is that of a message that has found no counterpart. -/
def Sys.Unpaired (s : Sys) (id : Nat) : Prop :=
  ∃ process, id ∈ (s.world.procs process).inbox ∨ id ∈ (s.world.procs process).outbox

section Stuck

variable {vm : ProcessVm} {program : Program} {n : Nat} {pool : List Nat} {s : Sys} {self : Nat}

/-- Actions do not wait. -/
theorem Sys.returned_of_blocked (blocked : s.step vm program (.act self) = .blocked) : (s.ranks self).cont = [] := by
  cases todo : (s.ranks self).cont with
  | nil => rfl
  | cons action rest =>
      simp only [step, todo] at blocked
      have goes : EndsOnlyIf .blocked False (action.exec vm s.world self >>= fun done => (Outcome.ok
          { s with
            world := done.world
            ranks := Function.update s.ranks self ((s.ranks self).advance action.moved rest done.ret) } :
          Outcome Sys)) :=
        .bind (Action.exec_goes .blocked vm s.world self action) fun _ => .ok _
      exact (goes.cause blocked).elim

theorem Sys.Stuck.returned (stuck : s.Stuck vm program self) : (s.ranks self).cont = [] :=
  returned_of_blocked (stuck (.act self) rfl trivial)

/-- A rank that holds requests is the owner of their cookies, which are still busy. -/
theorem Sys.Stuck.busy (stuck : s.Stuck vm program self) {id : Nat} (listed : id ∈ (s.ranks self).requests) :
    (s.world.cookies id).owner = self ∧ (s.world.cookies id).busy ≠ 0 := by
  have waits := stuck (.wait self id) rfl trivial
  simp only [step] at waits
  split at waits
  · cases waits
  case isFalse impossible =>
    by_contra ready
    refine impossible ⟨stuck.returned, listed, fun owner => ?_⟩
    by_contra busy
    exact ready ⟨owner, busy⟩

/-- A rank that holds no request has no calls left: no slot is locked. -/
theorem Sys.Stuck.ended (stuck : s.Stuck vm program self) (tickets : Tickets program n s) (valid : self < n)
    (waited : (s.ranks self).requests = []) : program self (s.ranks self).pos = none := by
  cases next : program self (s.ranks self).pos with
  | none => rfl
  | some call =>
      have calls := stuck (.call self) rfl waited
      have accepted : ¬ (s.world.size ≤ self ∨ (s.ranks self).cont ≠ []) := by
        rw [stuck.returned, tickets.size]
        simp [valid]
      simp only [step, if_neg accepted, next] at calls
      have goes : EndsOnlyIf .blocked (s.world.Obstructed self .blocked)
          (call.enter vm s.world self >>= fun called => (Outcome.ok
            { world := called.1
              ranks := Function.update s.ranks self ((s.ranks self).enter called.2)
              joins := s.record called.1 self } : Outcome Sys)) :=
        .bind (Call.enter_ends .blocked vm s.world self call) fun _ => .ok _
      obtain ⟨position, past, made, stage⟩ :=
        tickets.slots (s.world.turnOf self) (Nat.mod_lt _ (by decide))
      exact absurd stage.unlocked (goes.cause calls)

/-- When all calls have returned, a busy cookie somebody has a handle on is that of a message without a
    counterpart, or belongs to an operation that its owner has joined and somebody else has not. -/
theorem Tended.busy_cases (tended : Tended program n pool s)
    (alike : ∀ rank < n, ∀ pos,
      (program rank pos).map Call.operation = (program 0 pos).map Call.operation)
    (agree : ∀ rank < n, ∀ pos,
      (program rank pos).map Call.reducesInPlace = (program 0 pos).map Call.reducesInPlace)
    (returned : ∀ rank < n, (s.ranks rank).cont = []) {id : Nat} (valid : self < n)
    (listed : id ∈ (s.ranks self).requests) (busy : (s.world.cookies id).busy ≠ 0) :
    s.Unpaired id ∨ ∃ absent < n, (s.ranks absent).pos < (s.ranks (s.world.cookies id).owner).pos := by
  have handles := held_pos valid listed
  have nothing : due n s.ranks id = 0 := due_eq_zero returned
  have notSpent : ¬ Spent n s id := fun spent => absurd spent.held handles.ne'
  have arrived : ∀ {most : Nat}, ¬ Account n s id 0 most := by
    intro most account
    have done := account.busy
    rw [nothing] at done
    exact busy done
  have allocated : id < s.world.next := by
    by_contra outside
    exact notSpent (tended.spent id (Or.inr (Nat.le_of_not_lt outside)))
  obtain ⟨shelf, placed⟩ := (tended.shelved.mem_iff id).mpr allocated
  rcases shelf with (turn | rank | rank | rank) | rank | rank | _
  · -- the owner has joined, and the operation is not complete
    obtain ⟨position, past, made, call, maker, _, stage, first, counted, inBox, rfl⟩ := tended.boxed alike placed
    have someone : past ≠ [] := by
      intro nobody
      have box := stage.idle nobody
      rw [counted.box, List.map_eq_nil_iff] at box
      rw [box] at inBox
      cases inBox
    obtain ⟨rank, rankValid, other, other', suits, _⟩ := stage.standing someone
    rw [← Tended.schedule_eq alike agree rankValid other' first] at suits
    have joined := Schedule.mem_of_box stage.joining suits inBox
    have owner := counted.owner maker inBox
    have makerValid : maker < n := owner ▸ (counted.account maker inBox).owner
    obtain ⟨absent, absentValid, outside⟩ := exists_missing stage.partly
    have behind : (s.ranks absent).pos ≤ position :=
      Nat.le_of_not_lt fun past => outside ((stage.joined absent absentValid).mpr past)
    refine Or.inr ⟨absent, absentValid, ?_⟩
    rw [owner]
    exact behind.trans_lt ((stage.joined maker makerValid).mp joined)
  · have inTodo : id ∈ (s.ranks rank).todo := placed
    exact absurd (tended.settled rank id (Or.inl inTodo)) arrived
  · exact absurd (tended.settled rank id (Or.inr placed)) arrived
  · exact absurd (tended.spent id (Or.inl (Or.inl ⟨rank, placed⟩))) notSpent
  · exact Or.inl ⟨rank, Or.inl placed⟩
  · exact Or.inl ⟨rank, Or.inr placed⟩
  · exact absurd (tended.spent id (Or.inl (Or.inr placed))) notSpent

/-- Conversely nothing is left to do for a rank that has finished. -/
theorem Sys.Retired.stuck (finished : s.Retired program self) : s.Stuck vm program self := by
  intro label acts _
  cases label with
  | call rank =>
      obtain rfl : rank = self := acts
      simp only [step, finished.ended]
      split <;> rfl
  | act rank =>
      obtain rfl : rank = self := acts
      simp only [step, finished.returned]
  | wait rank id =>
      obtain rfl : rank = self := acts
      refine if_neg fun possible => ?_
      rw [finished.waited] at possible
      exact absurd possible.2.1 List.not_mem_nil

end Stuck

/-- An event is a matter of one rank, and it moves this one on in its program when it is a call that is listed
    there, and only then. -/
theorem Sys.perform_ranks {vm : ProcessVm} {program : Program} {s s' : Sys} {event : Event}
    (performed : s.perform vm program event = .ok s') :
    ∃ state, s'.ranks = Function.update s.ranks event.caller state ∧
      (state.pos = (s.ranks event.caller).pos ∨
        event = .collective (.call event.caller) ∧ state.pos = (s.ranks event.caller).pos + 1 ∧
          program event.caller (s.ranks event.caller).pos ≠ none) := by
  have posts : ∀ {self : Nat} {called : World × Frame}, s.post self called = .ok s' →
      ∃ state, s'.ranks = Function.update s.ranks self state ∧ state.pos = (s.ranks self).pos := by
    intro self called posted
    obtain ⟨_, _, rfl⟩ := post_cases posted
    exact ⟨_, rfl, rfl⟩
  cases event with
  | collective label =>
      have stepped : s.step vm program label = .ok s' := performed
      cases label with
      | call self =>
          obtain ⟨call, w, frame, _, _, listed, _, rfl⟩ := step_call stepped
          refine ⟨_, rfl, Or.inr ⟨rfl, rfl, ?_⟩⟩
          show program self (s.ranks self).pos ≠ none
          rw [listed]
          exact Option.some_ne_none call
      | act self =>
          obtain ⟨action, rest, done, _, _, rfl⟩ := step_act stepped
          exact ⟨_, rfl, Or.inl (RankState.advance_pos ..)⟩
      | wait self id =>
          obtain ⟨_, _, _, rfl⟩ := step_wait stepped
          exact ⟨_, rfl, Or.inl rfl⟩
  | recv self buf count datatype source tag comm =>
      obtain ⟨state, ranks, pos⟩ := posts performed
      exact ⟨state, ranks, Or.inl pos⟩
  | send self buf count datatype dest tag comm =>
      obtain ⟨state, ranks, pos⟩ := posts performed
      exact ⟨state, ranks, Or.inl pos⟩
  | test self id =>
      simp only [Sys.perform] at performed
      split at performed
      · split at performed
        · obtain rfl := Outcome.ok.inj performed
          exact ⟨s.ranks self, (Function.update_eq_self self s.ranks).symm, Or.inl rfl⟩
        · obtain rfl := Outcome.ok.inj performed
          exact ⟨_, rfl, Or.inl rfl⟩
      · cases performed

/-- A rank moves on in its program with a call that is listed there, and with nothing else. -/
theorem Sys.perform_pos {vm : ProcessVm} {program : Program} {s s' : Sys} {event : Event}
    (performed : s.perform vm program event = .ok s') (rank : Nat) :
    (s'.ranks rank).pos = (s.ranks rank).pos ∨
      event = .collective (.call rank) ∧ (s'.ranks rank).pos = (s.ranks rank).pos + 1 ∧
        program rank (s.ranks rank).pos ≠ none := by
  obtain ⟨state, ranks, moves⟩ := perform_ranks performed
  rw [ranks]
  by_cases own : rank = event.caller
  · subst own
    simpa using moves
  · exact Or.inl (by simp [own])

/-- A rank has made no call beyond the end of its program. -/
theorem Sys.Runs.called {vm : ProcessVm} {program : Program} {origin s : Sys} {history : List (Sys × Event)}
    (run : Runs vm program origin history s) (start : ∀ rank, (origin.ranks rank).pos = 0) (rank : Nat) :
    ∀ pos < (s.ranks rank).pos, program rank pos ≠ none := by
  induction run with
  | refl =>
      intro pos below
      rw [start] at below
      exact absurd below (Nat.not_lt_zero pos)
  | tail event _ performed ih =>
      intro pos below
      rcases perform_pos performed rank with same | ⟨_, next, listed⟩
      · rw [same] at below
        exact ih pos below
      · rw [next, Nat.lt_succ_iff_lt_or_eq] at below
        rcases below with earlier | rfl
        · exact ih pos earlier
        · exact listed

/-- In every run without an error of collective calls, blocking or not, and of messages: when no rank can take a
    step everybody has finished, or somebody waits for a message that has no counterpart. -/
theorem collective_programs_never_deadlock {vm : ProcessVm} {program : Program} {n : Nat} {mem : Memory}
    {history : List (Sys × Event)} {s : Sys} (several : 2 ≤ n) (limit : n ≤ 10000)
    (alike : ∀ rank < n, ∀ pos,
      (program rank pos).map Call.operation = (program 0 pos).map Call.operation)
    (agree : ∀ rank < n, ∀ pos,
      (program rank pos).map Call.reducesInPlace = (program 0 pos).map Call.reducesInPlace)
    (run : Runs vm program (Sys.init n mem) history s) (clean : s.Clean)
    (stuck : ∀ rank < n, s.Stuck vm program rank) :
    (∀ rank < n, s.Retired program rank) ∨ ∃ rank < n, ∃ id ∈ (s.ranks rank).requests, s.Unpaired id := by
  have tended := runs_tended several limit alike agree run clean
  by_contra neither
  obtain ⟨unfinished, paired⟩ := not_or.mp neither
  -- whoever holds a request has joined an operation that somebody else has not
  have waits : ∀ rank < n, (s.ranks rank).requests ≠ [] →
      ∃ absent < n, (s.ranks absent).pos < (s.ranks rank).pos := by
    intro rank valid holds
    obtain ⟨id, listed⟩ := List.exists_mem_of_ne_nil _ holds
    obtain ⟨owner, busy⟩ := (stuck rank valid).busy listed
    rcases tended.busy_cases alike agree (fun other otherValid => (stuck other otherValid).returned) valid listed busy
      with unpaired | absent
    · exact absurd ⟨rank, valid, id, listed, unpaired⟩ paired
    · rwa [owner] at absent
  -- so the rank that is furthest behind holds none, and has no calls left
  obtain ⟨last, lastValid, furthest⟩ := Finset.exists_min_image (Finset.range n) (fun rank => (s.ranks rank).pos)
    ⟨0, Finset.mem_range.mpr (by omega)⟩
  rw [Finset.mem_range] at lastValid
  have waited : (s.ranks last).requests = [] := by
    by_contra holds
    obtain ⟨absent, absentValid, behind⟩ := waits last lastValid holds
    exact absurd behind (Nat.not_lt_of_le (furthest absent (Finset.mem_range.mpr absentValid)))
  have ended := (stuck last lastValid).ended tended.tickets lastValid waited
  -- nobody is further, then
  have level : ∀ rank < n, (s.ranks rank).pos = (s.ranks last).pos := by
    intro rank valid
    by_contra other
    have ahead : (s.ranks last).pos < (s.ranks rank).pos :=
      lt_of_le_of_ne (furthest rank (Finset.mem_range.mpr valid)) (Ne.symm other)
    have operations := (alike rank valid (s.ranks last).pos).trans (alike last lastValid (s.ranks last).pos).symm
    rw [ended, Option.map_none, Option.map_eq_none_iff] at operations
    exact run.called (fun _ => rfl) rank _ ahead operations
  refine unfinished fun rank valid => ?_
  have waitedFor : (s.ranks rank).requests = [] := by
    by_contra holds
    obtain ⟨absent, absentValid, behind⟩ := waits rank valid holds
    rw [level rank valid, level absent absentValid] at behind
    exact absurd behind (lt_irrefl _)
  exact
    { returned := (stuck rank valid).returned
      waited := waitedFor
      ended := (stuck rank valid).ended tended.tickets valid waitedFor }

/-- A broadcast of two ranks has come to its end. -/
theorem collective_programs_never_deadlock_bcastChar :
    ∃ history s, Runs copyingVm (once bcastChar) (Sys.init 2 fun _ => 0) history s ∧
      (∀ rank < 2, s.Stuck copyingVm (once bcastChar) rank) ∧
      ((∀ rank < 2, s.Retired (once bcastChar) rank) ∨
        ∃ rank < 2, ∃ id ∈ (s.ranks rank).requests, s.Unpaired id) := by
  have runs : ∃ history s, Runs copyingVm (once bcastChar) (Sys.init 2 fun _ => 0) history s ∧
      (∀ rank < 2, s.Retired (once bcastChar) rank) ∧ s.Clean := by
    refine ⟨_, _, .tail (.collective (.wait 1 0)) (.tail (.collective (.wait 0 0))
      (.tail (.collective (.act 1)) (.tail (.collective (.call 1)) (.tail (.collective (.call 0)) .refl
        (by rfl)) (by rfl)) (by rfl)) (by rfl)) (by rfl), ?finished, ?clean⟩
    case finished =>
      rintro (_ | _ | rank) valid
      · exact ⟨by rfl, by decide, by rfl⟩
      · exact ⟨by rfl, by decide, by rfl⟩
      · omega
    case clean =>
      rintro (_ | _ | rank)
      · decide
      · decide
      · rintro ret ⟨⟩
  obtain ⟨history, s, run, finished, clean⟩ := runs
  have stuck : ∀ rank < 2, s.Stuck copyingVm (once bcastChar) rank := fun rank valid => (finished rank valid).stuck
  exact ⟨history, s, run, stuck, collective_programs_never_deadlock le_rfl (by decide) (fun _ _ _ => rfl)
    (fun _ _ _ => rfl) run clean stuck⟩

end Umpi
