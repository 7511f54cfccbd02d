/-
Module: Umpi.Proofs.Footprint
Layer: Proofs
Purpose: How much of the pool the cookies take. A `free_` list never has more than twice as many cookies as there are
  processes, because `finalize` cuts it, and every other cookie is one that somebody has a request for, unless it is
  stale: so the cookies that exist at one time are bounded by the processes and the requests they hold.
Imports: Umpi.Proofs.Reclaiming
Trusted boundary: none
Main exports: FreeBounded, Tended.free_or_held, Sys.existing, Sys.outstanding, Tended.card_existing_le,
  cookies_bounded
Open obligations: none
-/
import Umpi.Proofs.Reclaiming

namespace Umpi

open Foundation Sys

/-- The `free_` lists are short, and only the processes have one. -/
def FreeBounded (n : Nat) (s : Sys) : Prop :=
  ∀ process, (s.world.procs process).free.length ≤ if process < n then 2 * n else 0

section FreeBounded

variable {vm : ProcessVm} {program : Program} {n : Nat} {pool : List Nat} {s s' : Sys} {self id : Nat}

/-- A step that only takes cookies out of `free_` lists. -/
theorem FreeBounded.of_le (bounded : FreeBounded n s)
    (shorter : ∀ process, (s'.world.procs process).free.length ≤ (s.world.procs process).free.length) :
    FreeBounded n s' :=
  fun process => (shorter process).trans (bounded process)

/-- `finalize` cuts the list of the owner when it has grown too long. -/
theorem FreeBounded.leave (bounded : FreeBounded n s) (size : s.world.size = n)
    (owner : (s.world.cookies id).owner < n) : FreeBounded n (s.leave self id) := by
  intro process
  by_cases own : process = (s.world.cookies id).owner
  · subst own
    rw [if_pos owner]
    simp only [Sys.leave, World.finalize, World.setProc_procs, Function.update_self, World.setCookie_size, size]
    split
    · exact (List.length_take_le _ _).trans (by omega)
    · omega
  · have same : (s.leave self id).world.procs process = s.world.procs process := by
      simp [Sys.leave, World.finalize, own]
    rw [same]
    exact bounded process

/-- A point-to-point call takes at most one. -/
theorem FreeBounded.posted (bounded : FreeBounded n s) (posted : Posted s s' self) : FreeBounded n s' := by
  refine bounded.of_le fun process => ?_
  rcases posted with ⟨queue, target, id, takes⟩ | ⟨queue, target, id, queues⟩
  · have same : (s'.world.procs process).free = (s.world.procs process).free := by
      refine takes.elsewhere [] (.place (.free process)) ?_ (by simp)
      rcases takes.queueOf with rfl | rfl <;> simp
    rw [same]
  · by_cases own : process = target
    · subst own
      rcases queues.free with ⟨taken, _⟩ | ⟨_, empty, _⟩
      · rw [taken, List.length_cons]
        exact Nat.le_succ _
      · rw [empty]
        exact Nat.zero_le _
    · have same : (s'.world.procs process).free = (s.world.procs process).free := by
        refine queues.elsewhere [] (.place (.free process)) ?_ (by simpa using own)
        rcases queues.queueOf with rfl | rfl <;> simp
      rw [same]

/-- So does joining an operation. -/
theorem FreeBounded.enter {schedule : Schedule} {past : List Nat} {mid : World} {offer : Offer}
    {cont : List Action} {w' : World} {frame : Frame} {made made' : Nat → Nat} {ranks : Nat → RankState}
    {joins : Nat → List Join} (bounded : FreeBounded n s)
    (entered : Entered schedule n past s.world self mid offer cont (w', frame) made made') :
    FreeBounded n { world := w', ranks := ranks, joins := joins } := by
  refine bounded.of_le fun process => ?_
  by_cases own : process = self
  · subst own
    cases makes : schedule.num n past process with
    | none => exact (congrArg List.length (entered.free_kept makes)).le
    | some k =>
        rcases entered.free_taken makes with taken | ⟨_, empty, _⟩
        · rw [taken, List.length_cons]
          exact Nat.le_succ _
        · exact (congrArg List.length empty).le.trans (Nat.zero_le _)
  · exact (congrArg List.length (entered.free own)).le

/-- Actions take none. -/
theorem FreeBounded.act {action : Action} {done : Transferred} {ranks : Nat → RankState} (bounded : FreeBounded n s)
    (performed : action.exec vm s.world self = .ok done) :
    FreeBounded n { s with world := done.world, ranks := ranks } := by
  refine bounded.of_le fun process => ?_
  rcases Action.exec_cases performed with ⟨id, _, moved, _⟩ | ⟨_, midway⟩
  · have same : (done.world.procs process).free = (s.world.procs process).free := by
      rw [moved]
      by_cases own : process = (s.world.cookies id).owner <;> simp [World.moveToPending, own]
    exact (congrArg List.length same).le
  · exact (congrArg List.length (midway.free process)).le

/-- Whoever has a handle has it on the cookie of one of the processes. -/
theorem Tended.owner_of_request (tended : Tended program n pool s)
    (alike : ∀ rank < n, ∀ pos,
      (program rank pos).map Call.operation = (program 0 pos).map Call.operation)
    (listed : id ∈ (s.ranks self).requests) : (s.world.cookies id).owner < n := by
  have valid := tended.valid_of_request listed
  have notSpent : ¬ Spent n s id := fun spent => notMem_of_held_eq_zero spent.held valid listed
  have allocated : id < s.world.next := by
    by_contra unborn
    exact notSpent (tended.spent id (Or.inr (Nat.le_of_not_lt unborn)))
  obtain ⟨shelf, placed⟩ := (tended.shelved.mem_iff id).mpr allocated
  rcases shelf with (turn | rank | rank | rank) | rank | rank | _
  · obtain ⟨_, _, _, _, rank, _, _, _, counted, inRanks, rfl⟩ := tended.boxed alike placed
    exact (counted.account rank inRanks).owner
  · exact (tended.settled rank id (Or.inl placed)).owner
  · exact (tended.settled rank id (Or.inr placed)).owner
  · exact absurd (tended.spent id (Or.inl (Or.inl ⟨rank, placed⟩))) notSpent
  · exact (tended.queued rank id (Or.inl placed)).owner
  · exact (tended.queued rank id (Or.inr placed)).owner
  · exact absurd (tended.spent id (Or.inl (Or.inr placed))) notSpent

/-- One event. -/
theorem FreeBounded.perform {event : Event} (bounded : FreeBounded n s) (tended : Tended program n pool s)
    (several : 2 ≤ n) (limit : n ≤ 10000)
    (alike : ∀ rank < n, ∀ pos,
      (program rank pos).map Call.operation = (program 0 pos).map Call.operation)
    (agree : ∀ rank < n, ∀ pos,
      (program rank pos).map Call.reducesInPlace = (program 0 pos).map Call.reducesInPlace)
    (performed : s.perform vm program event = .ok s') (clean : s'.Clean) : FreeBounded n s' := by
  cases event with
  | collective label =>
      have stepped : s.step vm program label = .ok s' := performed
      cases label with
      | call self =>
          obtain ⟨call, w, frame, valid, idle, listed, entered, rfl⟩ := step_call stepped
          rw [tended.tickets.size] at valid
          have accepted : frame.Accepted := fun finished => by
            refine clean self frame.ret ?_
            simp [RankState.enter, finished]
          obtain ⟨past, made, mid, offer, cont, made', stage, joined⟩ :=
            tended.exists_joined several limit alike agree valid idle listed entered accepted
          exact bounded.enter joined.entered
      | act self =>
          obtain ⟨action, rest, done, todo, acted, rfl⟩ := step_act stepped
          exact bounded.act acted
      | wait self id =>
          obtain ⟨_, listed, ready, rfl⟩ := step_wait stepped
          exact bounded.leave tended.tickets.size (tended.owner_of_request alike listed)
  | recv self buf count datatype source tag comm =>
      obtain ⟨_, _, posted⟩ := perform_recv performed tended.tickets.placed.todo_eq_nil clean
      exact bounded.posted posted
  | send self buf count datatype dest tag comm =>
      obtain ⟨_, _, posted⟩ := perform_send performed tended.tickets.placed.todo_eq_nil clean
      exact bounded.posted posted
  | test self id =>
      simp only [Sys.perform] at performed
      split at performed
      case isTrue possible =>
        split at performed
        case isTrue busy =>
          obtain rfl := Outcome.ok.inj performed
          exact bounded
        case isFalse finished =>
          obtain rfl := Outcome.ok.inj performed
          exact bounded.leave tended.tickets.size (tended.owner_of_request alike possible.2)
      case isFalse => cases performed

theorem runs_freeBounded {mem : Memory} {history : List (Sys × Event)} (several : 2 ≤ n) (limit : n ≤ 10000)
    (alike : ∀ rank < n, ∀ pos,
      (program rank pos).map Call.operation = (program 0 pos).map Call.operation)
    (agree : ∀ rank < n, ∀ pos,
      (program rank pos).map Call.reducesInPlace = (program 0 pos).map Call.reducesInPlace)
    (run : Runs vm program (Sys.init n mem) history s) (clean : s.Clean) : FreeBounded n s := by
  induction run with
  | refl => exact fun process => Nat.zero_le _
  | tail event before performed ih =>
      have cleanBefore := clean.of_perform performed
      exact (ih cleanBefore).perform (runs_tended several limit alike agree before cleanBefore) several limit
        alike agree performed clean

end FreeBounded

section Held

variable {program : Program} {n : Nat} {pool : List Nat} {s : Sys} {self id : Nat}

/-- A transfer follows the move of every cookie. -/
theorem MovesFirst.mem_transfer {cont : List Action} (order : MovesFirst cont)
    (moved : id ∈ cont.flatMap Action.moved) : id ∈ cont.filterMap Action.transfer := by
  induction cont with
  | nil => cases moved
  | cons action rest ih =>
      obtain ⟨first, later⟩ := order
      rw [List.flatMap_cons, List.mem_append] at moved
      have inRest : id ∈ rest.filterMap Action.transfer := moved.elim (first id) (ih later)
      rw [List.filterMap_cons]
      split
      · exact inRest
      · exact List.mem_cons_of_mem _ inRest

/-- A cookie that exists is in a `free_` list, or somebody has a request for it, or it is in a `pending_` list and
    nobody uses it. -/
theorem Tended.free_or_held (tended : Tended program n pool s)
    (alike : ∀ rank < n, ∀ pos,
      (program rank pos).map Call.operation = (program 0 pos).map Call.operation)
    (allocated : id < s.world.next) (kept : id ∉ pool) :
    (∃ process, id ∈ (s.world.procs process).free) ∨ 0 < held n s.ranks id ∨
      ∃ process, id ∈ (s.world.procs process).pending ∧ (s.world.cookies id).used = 0 := by
  obtain ⟨shelf, placed⟩ := (tended.shelved.mem_iff id).mpr allocated
  rcases shelf with (turn | rank | rank | rank) | rank | rank | _
  · obtain ⟨_, _, _, _, rank, _, stage, _, counted, inRanks, rfl⟩ := tended.boxed alike placed
    have future := Schedule.future_pos stage.partly inRanks
    exact Or.inr (Or.inl ((counted.account rank inRanks).held_pos (by omega)))
  · -- the transfer of a cookie in a local list is still to come
    have inTodo : id ∈ (s.ranks rank).todo := placed
    have moved := (tended.tickets.placed.moves rank).mem_iff.mpr inTodo
    have account := tended.settled rank id (Or.inl inTodo)
    have isDue : 0 < due n s.ranks id := by
      by_contra none
      obtain ⟨action, listed, through⟩ := List.mem_filterMap.mp ((tended.order rank).mem_transfer moved)
      have valid : rank < n := tended.valid_of_ne fun new => by
        rw [new] at inTodo
        cases inTodo
      exact notThrough_of_due_eq_zero (by omega) valid action listed through
    exact Or.inr (Or.inl (account.held_pos (by omega)))
  · have account := tended.settled rank id (Or.inr placed)
    by_cases unused : (s.world.cookies id).used = 0
    · exact Or.inr (Or.inr ⟨rank, placed, unused⟩)
    · have used := account.used
      exact Or.inr (Or.inl (by omega))
  · exact Or.inl ⟨rank, placed⟩
  · exact Or.inr (Or.inl ((tended.queued rank id (Or.inl placed)).held_pos (by omega)))
  · exact Or.inr (Or.inl ((tended.queued rank id (Or.inr placed)).held_pos (by omega)))
  · exact absurd placed kept

/-- The cookies that have been allocated and not been returned to the pool. -/
def Sys.existing (pool : List Nat) (s : Sys) : Finset Nat := (Finset.range s.world.next).filter (· ∉ pool)

/-- The number of requests that somebody holds. -/
def Sys.outstanding (n : Nat) (s : Sys) : Nat := ∑ rank ∈ Finset.range n, (s.ranks rank).requests.length

/-- Without stale cookies, every cookie is counted among those of a process. -/
theorem Tended.card_existing_le (tended : Tended program n pool s)
    (alike : ∀ rank < n, ∀ pos,
      (program rank pos).map Call.operation = (program 0 pos).map Call.operation)
    (bounded : FreeBounded n s)
    (fresh : ∀ process, ∀ id ∈ (s.world.procs process).pending, (s.world.cookies id).used ≠ 0) :
    (s.existing pool).card ≤ 2 * n * n + s.outstanding n := by
  have covered : ∀ id ∈ s.existing pool, ∃ rank ∈ Finset.range n,
      id ∈ (s.world.procs rank).free ++ (s.ranks rank).requests := by
    intro id member
    obtain ⟨allocated, kept⟩ := Finset.mem_filter.mp member
    rcases tended.free_or_held alike (Finset.mem_range.mp allocated) kept with ⟨process, free⟩ | some |
      ⟨process, listed, unused⟩
    · have valid : process < n := by
        by_contra outside
        have none := bounded process
        rw [if_neg outside, Nat.le_zero, List.length_eq_zero_iff] at none
        rw [none] at free
        cases free
      exact ⟨process, Finset.mem_range.mpr valid, List.mem_append_left _ free⟩
    · obtain ⟨rank, valid, count⟩ := Finset.exists_ne_zero_of_sum_ne_zero some.ne'
      exact ⟨rank, valid, List.mem_append_right _ (List.count_pos_iff.mp (Nat.pos_of_ne_zero count))⟩
    · exact absurd unused (fresh process id listed)
  calc (s.existing pool).card
    _ ≤ ∑ rank ∈ Finset.range n, ((s.world.procs rank).free ++ (s.ranks rank).requests).length :=
      card_le_sum_length covered
    _ ≤ ∑ rank ∈ Finset.range n, (2 * n + (s.ranks rank).requests.length) := by
      refine Finset.sum_le_sum fun rank valid => ?_
      have short := bounded rank
      rw [if_pos (Finset.mem_range.mp valid)] at short
      rw [List.length_append]
      exact Nat.add_le_add_right short _
    _ = 2 * n * n + s.outstanding n := by
      rw [Finset.sum_add_distrib]
      simp [Sys.outstanding, Nat.mul_comm]

end Held

/-- In every run without an error, of point-to-point calls by anybody and of collective calls on which the ranks
    agree: as long as no process has a stale cookie, there are at most `2 * n` cookies for each of the `n` processes,
    and one for each request that somebody holds. -/
theorem cookies_bounded {vm : ProcessVm} {program : Program} {n : Nat} {mem : Memory}
    {history : List (Sys × Event)} {s : Sys} (several : 2 ≤ n) (limit : n ≤ 10000)
    (alike : ∀ rank < n, ∀ pos,
      (program rank pos).map Call.operation = (program 0 pos).map Call.operation)
    (agree : ∀ rank < n, ∀ pos,
      (program rank pos).map Call.reducesInPlace = (program 0 pos).map Call.reducesInPlace)
    (run : Runs vm program (Sys.init n mem) history s) (clean : s.Clean)
    (fresh : ∀ process, ¬ Stale process history) :
    (s.existing (Sys.pool history)).card ≤ 2 * n * n + s.outstanding n := by
  have tended := runs_tended several limit alike agree run clean
  have tracked := runs_tracked several limit alike agree run clean
  have bounded := runs_freeBounded several limit alike agree run clean
  exact tended.card_existing_le alike bounded fun process id listed unused =>
    fresh process ((tracked process).mp ⟨id, listed, unused⟩)

/-- Two ranks that have exchanged a character, and both have left: the one cookie is in a `free_` list. -/
theorem cookies_bounded_message :
    ∃ history s, Runs copyingVm (fun _ _ => none) (Sys.init 2 fun _ => 0) history s ∧
      (s.ranks 0).requests = [] ∧ (s.ranks 1).requests = [] ∧
      (s.existing (Sys.pool history)).card ≤ 2 * 2 * 2 + s.outstanding 2 := by
  have runs : ∃ history s, Runs copyingVm (fun _ _ => none) (Sys.init 2 fun _ => 0) history s ∧
      (s.ranks 0).requests = [] ∧ (s.ranks 1).requests = [] ∧ s.Clean ∧ ∀ process, ¬ Stale process history := by
    refine ⟨_, _, .tail (.collective (.wait 1 0)) (.tail (.collective (.wait 0 0))
      (.tail (.collective (.act 0)) (.tail sendChar (.tail recvChar .refl
        (by rfl)) (by rfl)) (by rfl)) (by rfl)) (by rfl), by decide, by decide, ?clean, ?fresh⟩
    case clean =>
      rintro (_ | _ | rank)
      · decide
      · decide
      · rintro ret ⟨⟩
    case fresh =>
      rintro (_ | _ | process)
      · decide +kernel
      · decide +kernel
      · rintro ⟨_, ⟨_, impossible | ⟨_, ⟨⟩⟩⟩ | ⟨_, ⟨⟩⟩⟩
        exact impossible
  obtain ⟨history, s, run, first, second, clean, fresh⟩ := runs
  exact ⟨history, s, run, first, second, cookies_bounded le_rfl (by decide) (fun _ _ _ => rfl) (fun _ _ _ => rfl) run
    clean fresh⟩

end Umpi
