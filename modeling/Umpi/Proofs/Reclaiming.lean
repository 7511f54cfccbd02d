/-
Module: Umpi.Proofs.Reclaiming
Layer: Proofs
Purpose: Which finished cookies are found again. `cookie::leave` lets the owner of the cookie look through its
  own `pending_` list. A receive that finds a send in the queue puts the sender's cookie into the receiver's
  `pending_`, where the last `leave` does not find it: it stays there until a cookie of the receiver's own is
  left. `Stale` says of a history that this is where things stand, and it is exactly when cookies are missing
  once everything is done.
Imports: Umpi.Proofs.Recycling
Trusted boundary: none
Main exports: Stale, Quiescent, Reclaimed, finished_cookies_reclaimed_iff, finished_cookie_kept
Open obligations: none
-/
import Umpi.Proofs.Recycling

namespace Umpi

open Sys

/-- According to the history, the latest first, the last handle on a cookie in the `pending_` list of `process`
    has left although another process owns the cookie, and since then no handle on a cookie of `process` itself
    has left. -/
def Stale (process : Nat) : List (Sys × Event) → Prop
  | [] => False
  | (s, event) :: history =>
      match s.leaves event with
      | none => Stale process history
      | some id =>
          (s.world.cookies id).owner ≠ process ∧
            (Stale process history ∨ (s.world.cookies id).used = 1 ∧ id ∈ (s.world.procs process).pending)

instance decidableStale (process : Nat) : (history : List (Sys × Event)) → Decidable (Stale process history)
  | [] => inferInstanceAs (Decidable False)
  | (s, event) :: history =>
      have : Decidable (Stale process history) := decidableStale process history
      match leaves : s.leaves event with
      | none => decidable_of_iff (Stale process history) (by simp only [Stale, leaves])
      | some id =>
          decidable_of_iff ((s.world.cookies id).owner ≠ process ∧
            (Stale process history ∨ (s.world.cookies id).used = 1 ∧ id ∈ (s.world.procs process).pending))
            (by simp only [Stale, leaves])

/-- No rank is in a call, and no request is outstanding. -/
def Sys.Quiescent (n : Nat) (s : Sys) : Prop :=
  ∀ rank < n, (s.ranks rank).cont = [] ∧ (s.ranks rank).requests = []

/-- Every `pending_` list is empty, and every cookie is in a `free_` list or in the pool. -/
structure Reclaimed (pool : List Nat) (s : Sys) : Prop where
  pending : ∀ process, (s.world.procs process).pending = []
  idle : ∀ id < s.world.next, s.Idle pool id

/-- A `pending_` list has a cookie nobody uses exactly when it is stale. -/
def Tracked (history : List (Sys × Event)) (s : Sys) : Prop :=
  ∀ process, (∃ id ∈ (s.world.procs process).pending, (s.world.cookies id).used = 0) ↔ Stale process history

namespace Tracked

variable {vm : ProcessVm} {program : Program} {n : Nat} {pool : List Nat} {history : List (Sys × Event)}
  {s s' : Sys} {self : Nat} {event : Event}

/-- An event that leaves no handle, and puts only cookies into `pending_` that somebody uses. -/
theorem quiet (tracked : Tracked history s) (leaves : s.leaves event = none)
    (used : ∀ process, ∀ id ∈ (s.world.procs process).pending,
      (s'.world.cookies id).used = (s.world.cookies id).used)
    (kept : ∀ process, ∀ id ∈ (s.world.procs process).pending, id ∈ (s'.world.procs process).pending)
    (new : ∀ process, ∀ id ∈ (s'.world.procs process).pending,
      id ∈ (s.world.procs process).pending ∨ (s'.world.cookies id).used ≠ 0) :
    Tracked ((s, event) :: history) s' := by
  intro process
  simp only [Stale, leaves]
  rw [← tracked process]
  constructor
  · rintro ⟨id, listed, unused⟩
    have before := (new process id listed).resolve_right fun isUsed => isUsed unused
    exact ⟨id, before, (used process id before).symm.trans unused⟩
  · rintro ⟨id, listed, unused⟩
    exact ⟨id, kept process id listed, (used process id listed).trans unused⟩

/-- A rank leaves its handle: its owner's list is cleared, and in another list the cookie may become one that
    nobody uses. -/
theorem leave (tracked : Tracked history s) (tended : Tended program n pool s) (several : 2 ≤ n) (small : n < 2 ^ 15)
    (alike : ∀ rank < n, ∀ pos,
      (program rank pos).map Call.operation = (program 0 pos).map Call.operation)
    {id : Nat} (listed : id ∈ (s.ranks self).requests) (leaves : s.leaves event = some id) :
    Tracked ((s, event) :: history) (s.leave self id) := by
  have handle := held_pos (tended.valid_of_request listed) listed
  have allocated : id < s.world.next := by
    by_contra unborn
    have nobody := (tended.spent id (Or.inr (Nat.le_of_not_lt unborn))).held
    omega
  obtain ⟨used, few⟩ := tended.used_eq_held several alike allocated
  intro process
  simp only [Stale, leaves]
  by_cases owner : (s.world.cookies id).owner = process
  · subst owner
    refine iff_of_false ?_ fun foreign => foreign.1 rfl
    rintro ⟨other, inPending, unused⟩
    simp only [Sys.leave, World.finalize, World.setProc_procs, Function.update_self] at inPending
    exact of_decide_eq_true (List.mem_filter.mp inPending).2 unused
  · have same : ((s.leave self id).world.procs process).pending = (s.world.procs process).pending := by
      simp [Sys.leave, World.finalize, Ne.symm owner]
    have others : ∀ other ≠ id, (s.leave self id).world.cookies other = s.world.cookies other := by
      intro other different
      simp [Sys.leave, different]
    have left : ((s.leave self id).world.cookies id).used = (s.world.cookies id).used - 1 := by
      have exact : int16 ((s.world.cookies id).used - 1) = (s.world.cookies id).used - 1 :=
        int16_of_range (by omega) (by omega)
      simp [Sys.leave, exact]
    rw [same, ← tracked process]
    constructor
    · rintro ⟨other, inPending, unused⟩
      refine ⟨owner, ?_⟩
      by_cases here : other = id
      · subst here
        exact Or.inr ⟨by omega, inPending⟩
      · exact Or.inl ⟨other, inPending, by rw [← others other here, unused]⟩
    · rintro ⟨_, ⟨other, inPending, unused⟩ | ⟨last, inPending⟩⟩
      · have different : other ≠ id := by
          rintro rfl
          omega
        exact ⟨other, inPending, by rw [others other different, unused]⟩
      · exact ⟨id, inPending, by omega⟩

section Performing

variable (tended : Tended program n pool s) (several : 2 ≤ n) (limit : n ≤ 10000)
  (alike : ∀ rank < n, ∀ pos,
    (program rank pos).map Call.operation = (program 0 pos).map Call.operation)
  (agree : ∀ rank < n, ∀ pos,
    (program rank pos).map Call.reducesInPlace = (program 0 pos).map Call.reducesInPlace)
include tended

/-- A rank performs an action: what it moves to `pending_` it has yet to go through. -/
theorem act (tracked : Tracked history s) {action : Action} {rest : List Action} {done : Transferred}
    (todo : (s.ranks self).cont = action :: rest) (performed : action.exec vm s.world self = .ok done) :
    Tracked ((s, .collective (.act self)) :: history)
      { s with
        world := done.world
        ranks := Function.update s.ranks self
          ((s.ranks self).advance action.moved rest done.ret) } := by
  rcases Action.exec_cases performed with ⟨id, rfl, moved, _⟩ | ⟨_, midway⟩
  · rw [moved]
    have valid := tended.valid_of_cont todo
    have inTodo : id ∈ (s.ranks self).todo := by
      refine (tended.tickets.placed.moves self).mem_iff.mp ?_
      rw [todo, List.flatMap_cons]
      exact List.mem_append_left _ (List.mem_singleton_self id)
    have order := tended.order self
    rw [todo] at order
    obtain ⟨later, inRest, through⟩ := List.mem_filterMap.mp (order.1 id (List.mem_singleton_self id))
    have account := tended.settled self id (Or.inl inTodo)
    have isDue : 0 < due n s.ranks id := by
      by_contra none
      have listed : later ∈ (s.ranks self).cont := todo ▸ List.mem_cons_of_mem _ inRest
      exact notThrough_of_due_eq_zero (by omega) valid later listed through
    have isUsed : (s.world.cookies id).used ≠ 0 := by
      have handles := account.held_pos (by omega)
      have same := account.used
      omega
    refine tracked.quiet rfl (fun _ _ _ => rfl) (fun process other listed => ?_)
      fun process other listed => ?_
    · by_cases own : process = (s.world.cookies id).owner
      · subst own
        simp [World.moveToPending, listed]
      · simpa [World.moveToPending, own] using listed
    · by_cases own : process = (s.world.cookies id).owner
      · subst own
        simp only [World.moveToPending, World.setProc_procs, Function.update_self, List.mem_cons] at listed
        refine listed.symm.imp_right fun same => ?_
        rw [same]
        exact isUsed
      · exact Or.inl (by simpa [World.moveToPending, own] using listed)
  · have pending : ∀ process, (done.world.procs process).pending = (s.world.procs process).pending :=
      fun process => (congrArg (fun lists => lists.2.2.2) (midway.lists process) :)
    refine tracked.quiet rfl (fun process id _ => (congrArg Cookie.used (midway.fixed id) :))
      (fun process id listed => ?_) fun process id listed => Or.inl ?_
    · dsimp only
      rwa [pending]
    · dsimp only at listed
      rwa [← pending]

include several limit alike agree in
/-- A rank joins an operation: the cookie it hands to `pending_` is the one it waits for. -/
theorem enter (tracked : Tracked history s) (valid : self < n) (idle : (s.ranks self).cont = [])
    {call : Call} {w' : World} {frame : Frame} (listed : program self (s.ranks self).pos = some call)
    (called : call.enter vm s.world self = .ok (w', frame)) (accepted : frame.Accepted) :
    Tracked ((s, .collective (.call self)) :: history)
      { world := w'
        ranks := Function.update s.ranks self ((s.ranks self).enter frame)
        joins := s.record w' self } := by
  obtain ⟨past, made, mid, offer, cont, made', stage, joined⟩ :=
    tended.exists_joined several limit alike agree valid idle listed called accepted
  obtain ⟨retiredOwner, grown, others⟩ := Placed.enter_pending joined.entered
  have before : ∀ process, ∀ id ∈ (s.world.procs process).pending,
      id ∈ (w'.procs process).pending := by
    intro process id inPending
    by_cases same : process = retiredOwner
    · subst same
      rw [grown]
      exact List.mem_append_right _ inPending
    · rwa [others process same]
  refine tracked.quiet rfl (fun process id inPending => ?_) before fun process id inPending => ?_
  · have held : id ∈ s.shelved pool (.place (.pending process)) := inPending
    refine congrArg Cookie.used (joined.untouched s.joins (fun inBox => ?_) fun new name => ?_).1
    · cases tended.shelved.exclusive.eq_of_mem held (j := .place (.box (s.world.turnOf self))) inBox
    · rw [name] at held
      rcases joined.entered.newName new with free | ⟨unborn, _⟩
      · cases tended.shelved.exclusive.eq_of_mem held (j := .place (.free self)) free
      · have allocated := tended.shelved.of_mem held
        omega
  · by_cases same : process = retiredOwner
    · subst same
      dsimp only at inPending
      rw [grown] at inPending
      rcases List.mem_append.mp inPending with retired | old
      · obtain ⟨maker, isRetired, rfl⟩ := List.mem_map.mp retired
        replace isRetired := Option.mem_toList.mp isRetired
        obtain ⟨known, _⟩ := Schedule.gone_of_left joined.joining joined.suits (Or.inr isRetired)
        have account := (joined.account_known (s.record w' self) tended.spent tended.shelved limit
          known).2
        have handles := joined.held_eq (s.record w' self) (made' maker)
        rw [if_pos (by rw [Schedule.request_of_retired isRetired])] at handles
        have name : made' maker = made maker :=
          joined.entered.settles.madeOthers maker (Schedule.retired_ne isRetired)
        have isUsed := account.used
        rw [handles] at isUsed
        rw [← name]
        refine Or.inr fun unused => ?_
        rw [isUsed] at unused
        omega
      · exact Or.inl old
    · exact Or.inl (others process same ▸ inPending)

/-- A point-to-point call: the cookie it takes from a queue it uses, and a new one is in no `pending_` list. -/
theorem posted (tracked : Tracked history s) (posted : Posted s s' self) (leaves : s.leaves event = none) :
    Tracked ((s, event) :: history) s' := by
  rcases posted with ⟨queue, target, id, takes⟩ | ⟨queue, target, id, queues⟩
  · have notPending : ∀ process, id ∉ (s.world.procs process).pending := by
      intro process inPending
      have held : id ∈ s.shelved pool (.place (.pending process)) := inPending
      have found : id ∈ s.shelved pool queue := by
        rcases takes.queueOf with rfl | rfl <;> exact takes.found
      have same := tended.shelved.exclusive.eq_of_mem held found
      rcases takes.queueOf with rfl | rfl <;> cases same
    have account : Account n s id 1 1 := by
      rcases takes.queueOf with rfl | rfl
      · exact tended.queued target id (Or.inl takes.found)
      · exact tended.queued target id (Or.inr takes.found)
    have isUsed : (s'.world.cookies id).used ≠ 0 := by
      have few := account.most
      rw [takes.used, account.used, int16_of_range (by omega) (by omega)]
      omega
    have others : ∀ process ≠ target, (s'.world.procs process).pending = (s.world.procs process).pending := by
      intro process other
      refine takes.elsewhere [] (.place (.pending process)) ?_ (by simpa using other)
      rcases takes.queueOf with rfl | rfl <;> simp
    refine tracked.quiet leaves (fun process other listed => ?_) (fun process other listed => ?_)
      fun process other listed => ?_
    · rw [takes.others other fun same => notPending process (same ▸ listed)]
    · by_cases here : process = target
      · subst here
        rw [takes.pending]
        exact List.mem_cons_of_mem id listed
      · rwa [others process here]
    · by_cases here : process = target
      · subst here
        rw [takes.pending] at listed
        rcases List.mem_cons.mp listed with rfl | old
        · exact Or.inr isUsed
        · exact Or.inl old
      · exact Or.inl (others process here ▸ listed)
  · have pending : ∀ process, (s'.world.procs process).pending = (s.world.procs process).pending := by
      intro process
      refine queues.elsewhere [] (.place (.pending process)) ?_ (by simp)
      rcases queues.queueOf with rfl | rfl <;> simp
    refine tracked.quiet leaves (fun process other listed => ?_) (fun process other listed => ?_)
      fun process other listed => Or.inl (pending process ▸ listed)
    · have held : other ∈ s.shelved pool (.place (.pending process)) := listed
      have different : other ≠ id := by
        rintro rfl
        rcases queues.free with ⟨free, _⟩ | ⟨_, _, rfl, _⟩
        · have inFree : other ∈ s.shelved pool (.place (.free target)) := by
            show other ∈ (s.world.procs target).free
            rw [free]
            exact List.mem_cons_self
          cases tended.shelved.exclusive.eq_of_mem held inFree
        · have allocated := tended.shelved.of_mem held
          exact lt_irrefl _ allocated
      rw [queues.others other different]
    · rwa [pending]

include several limit alike agree in
/-- One event. -/
theorem perform (tracked : Tracked history s) (performed : s.perform vm program event = .ok s')
    (clean : s'.Clean) : Tracked ((s, event) :: history) s' := by
  cases event with
  | collective label =>
      have stepped : s.step vm program label = .ok s' := performed
      cases label with
      | call self =>
          obtain ⟨call, w, frame, valid, idle, listed, entered, rfl⟩ := step_call stepped
          rw [tended.tickets.size] at valid
          refine tracked.enter tended several limit alike agree valid idle listed entered fun finished => ?_
          refine clean self frame.ret ?_
          simp [RankState.enter, finished]
      | act self =>
          obtain ⟨action, rest, done, todo, acted, rfl⟩ := step_act stepped
          exact tracked.act tended todo acted
      | wait self id =>
          obtain ⟨_, listed, ready, rfl⟩ := step_wait stepped
          exact tracked.leave tended several (by omega) alike listed rfl
  | recv self buf count datatype source tag comm =>
      obtain ⟨_, _, posted⟩ := perform_recv performed tended.tickets.placed.todo_eq_nil clean
      exact tracked.posted tended posted rfl
  | send self buf count datatype dest tag comm =>
      obtain ⟨_, _, posted⟩ := perform_send performed tended.tickets.placed.todo_eq_nil clean
      exact tracked.posted tended posted rfl
  | test self id =>
      simp only [Sys.perform] at performed
      split at performed
      case isTrue possible =>
        split at performed
        case isTrue busy =>
          obtain rfl := Outcome.ok.inj performed
          exact tracked.quiet (by simp [Sys.leaves, busy]) (fun _ _ _ => rfl) (fun _ _ listed => listed)
            fun _ _ => Or.inl
        case isFalse finished =>
          obtain rfl := Outcome.ok.inj performed
          exact tracked.leave tended several (by omega) alike possible.2 (by simp [Sys.leaves, finished])
      case isFalse => cases performed

end Performing

end Tracked

/-- A `pending_` list has a cookie nobody uses exactly when the history says so. -/
theorem runs_tracked {vm : ProcessVm} {program : Program} {n : Nat} {mem : Memory}
    {history : List (Sys × Event)} {s : Sys} (several : 2 ≤ n) (limit : n ≤ 10000)
    (alike : ∀ rank < n, ∀ pos,
      (program rank pos).map Call.operation = (program 0 pos).map Call.operation)
    (agree : ∀ rank < n, ∀ pos,
      (program rank pos).map Call.reducesInPlace = (program 0 pos).map Call.reducesInPlace)
    (run : Runs vm program (Sys.init n mem) history s) (clean : s.Clean) : Tracked history s := by
  induction run with
  | refl =>
      intro process
      simp [Stale, Sys.init, World.start, Process.new]
  | tail event before performed ih =>
      have cleanBefore := clean.of_perform performed
      exact (ih cleanBefore).perform (runs_tended several limit alike agree before cleanBefore) several limit
        alike agree performed clean

namespace Tended

variable {program : Program} {n : Nat} {pool : List Nat} {s : Sys}

/-- When no request is outstanding the queues, the boxes and the local lists are empty. -/
theorem idle_or_pending (tended : Tended program n pool s)
    (alike : ∀ rank < n, ∀ pos,
      (program rank pos).map Call.operation = (program 0 pos).map Call.operation)
    (quiescent : s.Quiescent n) {id : Nat} (allocated : id < s.world.next) :
    s.Idle pool id ∨ ∃ process, id ∈ (s.world.procs process).pending := by
  have waiting : ∀ {id expected most}, 0 < expected → ¬ Account n s id expected most := by
    intro id expected most some account
    have handle := account.waits (by omega)
    rw [(quiescent _ account.owner).2] at handle
    cases handle
  obtain ⟨shelf, listed⟩ := (tended.shelved.mem_iff id).mpr allocated
  rcases shelf with (turn | rank | rank | rank) | rank | rank | _
  · obtain ⟨_, _, _, _, rank, _, stage, _, counted, inRanks, rfl⟩ := tended.boxed alike listed
    exact absurd (counted.account rank inRanks) (waiting (Schedule.future_pos stage.partly inRanks))
  · have valid : rank < n := tended.valid_of_ne fun new => by
      have inTodo : id ∈ (s.ranks rank).todo := listed
      rw [new] at inTodo
      cases inTodo
    have inTodo : id ∈ (s.ranks rank).todo := listed
    rw [tended.tickets.placed.todo_eq_nil (quiescent rank valid).1] at inTodo
    cases inTodo
  · exact Or.inr ⟨rank, listed⟩
  · exact Or.inl (Or.inl ⟨rank, listed⟩)
  · exact absurd (tended.queued rank id (Or.inl listed)) (waiting Nat.one_pos)
  · exact absurd (tended.queued rank id (Or.inr listed)) (waiting Nat.one_pos)
  · exact Or.inl (Or.inr listed)

end Tended

/-- When everything is done, the cookies are all back exactly if no process is left with one that another
    process has looked for in vain. -/
theorem finished_cookies_reclaimed_iff {vm : ProcessVm} {program : Program} {n : Nat} {mem : Memory}
    {history : List (Sys × Event)} {s : Sys} (several : 2 ≤ n) (limit : n ≤ 10000)
    (alike : ∀ rank < n, ∀ pos,
      (program rank pos).map Call.operation = (program 0 pos).map Call.operation)
    (agree : ∀ rank < n, ∀ pos,
      (program rank pos).map Call.reducesInPlace = (program 0 pos).map Call.reducesInPlace)
    (run : Runs vm program (Sys.init n mem) history s) (clean : s.Clean) (quiescent : s.Quiescent n) :
    Reclaimed (Sys.pool history) s ↔ ∀ process, ¬ Stale process history := by
  have tended := runs_tended several limit alike agree run clean
  have tracked := runs_tracked several limit alike agree run clean
  constructor
  · intro reclaimed process stale
    obtain ⟨id, listed, _⟩ := (tracked process).mpr stale
    rw [reclaimed.pending process] at listed
    cases listed
  · intro fresh
    have pending : ∀ process, (s.world.procs process).pending = [] := by
      intro process
      refine List.eq_nil_iff_forall_not_mem.mpr fun id listed => fresh process ?_
      refine (tracked process).mp ⟨id, listed, ?_⟩
      have nobody : held n s.ranks id = 0 := Finset.sum_eq_zero fun rank member => by
        rw [(quiescent rank (Finset.mem_range.mp member)).2]
        exact List.count_nil
      rw [(tended.settled process id (Or.inr listed)).used, nobody]
      rfl
    refine { pending := pending, idle := fun id allocated => ?_ }
    refine (tended.idle_or_pending alike quiescent allocated).resolve_right ?_
    rintro ⟨process, listed⟩
    rw [pending process] at listed
    cases listed

/-- One character for rank 1, tag 7, from rank 0. -/
def sendChar : Event := .send 0 (.addr 0) 1 (some Datatype.mpiChar.iovec) 1 7 .world

/-- Rank 1 receives it. -/
def recvChar : Event := .recv 1 (.addr 0) 1 (some Datatype.mpiChar.iovec) 0 7 .world

/-- If the receive comes first its cookie belongs to the receiver, and is back at the end. -/
theorem finished_cookies_reclaimed_recvFirst :
    ∃ history s, Runs copyingVm (fun _ _ => none) (Sys.init 2 fun _ => 0) history s ∧ s.Quiescent 2 ∧
      s.world.next = 1 ∧ Reclaimed (Sys.pool history) s := by
  have runs : ∃ history s, Runs copyingVm (fun _ _ => none) (Sys.init 2 fun _ => 0) history s ∧
      s.Quiescent 2 ∧ s.world.next = 1 ∧ s.Clean ∧ ∀ process, ¬ Stale process history := by
    refine ⟨_, _, .tail (.collective (.wait 1 0)) (.tail (.collective (.wait 0 0))
      (.tail (.collective (.act 0)) (.tail sendChar (.tail recvChar .refl
        (by rfl)) (by rfl)) (by rfl)) (by rfl)) (by rfl), ?quiescent, by rfl, ?clean, ?fresh⟩
    case quiescent =>
      rintro (_ | _ | rank) valid
      · exact ⟨by rfl, by decide⟩
      · exact ⟨by rfl, by decide⟩
      · omega
    case clean =>
      rintro (_ | _ | rank)
      · decide
      · decide
      · rintro ret ⟨⟩
    case fresh =>
      rintro (_ | _ | process)
      · decide +kernel
      · decide +kernel
      · rintro ⟨_, ⟨_, impossible | ⟨_, ⟨⟩⟩⟩ | ⟨_, ⟨⟩⟩⟩
        exact impossible
  obtain ⟨history, s, run, quiescent, next, clean, fresh⟩ := runs
  exact ⟨history, s, run, quiescent, next, (finished_cookies_reclaimed_iff le_rfl (by decide)
    (fun _ _ _ => rfl) (fun _ _ _ => rfl) run clean quiescent).mpr fresh⟩

/-- If the send comes first, the sender's cookie stays in the receiver's `pending_` for good. -/
theorem finished_cookie_kept :
    ∃ history s, Runs copyingVm (fun _ _ => none) (Sys.init 2 fun _ => 0) history s ∧ s.Clean ∧
      s.Quiescent 2 ∧ (s.world.procs 1).pending = [0] ∧ ¬ Reclaimed (Sys.pool history) s := by
  refine ⟨_, _, .tail (.collective (.wait 1 0)) (.tail (.collective (.wait 0 0))
    (.tail (.collective (.act 1)) (.tail recvChar (.tail sendChar .refl
      (by rfl)) (by rfl)) (by rfl)) (by rfl)) (by rfl), ?clean, ?quiescent, by decide +kernel, ?kept⟩
  case clean =>
    rintro (_ | _ | rank)
    · decide
    · decide
    · rintro ret ⟨⟩
  case quiescent =>
    rintro (_ | _ | rank) valid
    · exact ⟨by rfl, by decide⟩
    · exact ⟨by rfl, by decide⟩
    · omega
  case kept =>
    intro reclaimed
    exact absurd (reclaimed.pending 1) (by decide +kernel)

end Umpi
