/-
Module: Umpi.Proofs.Shelves
Layer: Proofs
Purpose: Where cookies are when point-to-point and collective operations run together. To the lists of the
  collective operations come the two queues of every process and the pool, which is the log of what has been
  erased from `free_` lists. Every cookie ever allocated is on exactly one of these shelves. Events are
  taken apart here as far as shelves and counters are concerned: a point-to-point call takes a cookie from a
  queue (`Takes`) or leaves one there (`Queues`).
Imports: Umpi.Proofs.Tickets, Umpi.Model.Runtime
Trusted boundary: none
Main exports: Shelf, Sys.shelved, Shelved, Takes, Queues, perform_recv, perform_send, Shelved.enter,
  Shelved.act, Shelved.leave, Shelved.takes, Shelved.queues
Open obligations: none
-/
import Umpi.Model.Runtime
import Umpi.Proofs.Tickets

namespace Umpi

open Foundation Sys

/-- The lists a cookie can be in, and the pool. -/
inductive Shelf where
  | place (place : Place)
  | inbox (rank : Nat)
  | outbox (rank : Nat)
  | pool
deriving DecidableEq

/-- What is on a shelf, if the cookies of `pool` have been erased from `free_` lists. -/
def Sys.shelved (s : Sys) (pool : List Nat) : Shelf → List Nat
  | .place place => s.holds place
  | .inbox rank => (s.world.procs rank).inbox
  | .outbox rank => (s.world.procs rank).outbox
  | .pool => pool

/-- Every cookie that has been allocated is on one shelf, once. -/
def Shelved (pool : List Nat) (s : Sys) : Prop := Partition (s.shelved pool) fun id => id < s.world.next

/-! ### Point-to-point calls taken apart -/

/-- A queue of the process `target`. -/
def Shelf.QueueOf (target : Nat) (shelf : Shelf) : Prop := shelf = .inbox target ∨ shelf = .outbox target

/-- What no point-to-point call changes. -/
structure Beside (s s' : Sys) : Prop where
  size : s'.world.size = s.world.size
  ticket : s'.world.ticket = s.world.ticket
  slots : s'.world.slots = s.world.slots
  joins : s'.joins = s.joins

/-- The `caller` has found the cookie `id` in a queue of `target` and moves data through it. -/
structure Takes (s s' : Sys) (caller : Nat) (queue : Shelf) (target id : Nat) : Prop where
  beside : Beside s s'
  next : s'.world.next = s.world.next
  queueOf : queue.QueueOf target
  found : id ∈ s.shelved [] queue
  taken : ∀ pool, s'.shelved pool queue = (s.shelved pool queue).erase id
  pending : (s'.world.procs target).pending = id :: (s.world.procs target).pending
  elsewhere : ∀ pool shelf, shelf ≠ queue → shelf ≠ .place (.pending target) →
    s'.shelved pool shelf = s.shelved pool shelf
  others : ∀ other ≠ id, s'.world.cookies other = s.world.cookies other
  owner : (s'.world.cookies id).owner = (s.world.cookies id).owner
  busy : (s'.world.cookies id).busy = (s.world.cookies id).busy
  used : (s'.world.cookies id).used = int16 ((s.world.cookies id).used + 1)
  ranks : ∃ action : Action, action.transfer = some id ∧
    s'.ranks = Function.update s.ranks caller ((s.ranks caller).post (Frame.done id [action]))

/-- The `caller` has left a new cookie `id` in a queue of `target`. -/
structure Queues (s s' : Sys) (caller : Nat) (queue : Shelf) (target id : Nat) : Prop where
  beside : Beside s s'
  queueOf : queue.QueueOf target
  left : ∀ pool, s'.shelved pool queue = s.shelved pool queue ++ [id]
  free : (s.world.procs target).free = id :: (s'.world.procs target).free ∧
      s'.world.next = s.world.next ∨
    (s.world.procs target).free = [] ∧ (s'.world.procs target).free = [] ∧ id = s.world.next ∧
      s'.world.next = s.world.next + 1
  elsewhere : ∀ pool shelf, shelf ≠ queue → shelf ≠ .place (.free target) →
    s'.shelved pool shelf = s.shelved pool shelf
  others : ∀ other ≠ id, s'.world.cookies other = s.world.cookies other
  owner : (s'.world.cookies id).owner = caller
  busy : (s'.world.cookies id).busy = 1
  used : (s'.world.cookies id).used = 1
  ranks : s'.ranks = Function.update s.ranks caller ((s.ranks caller).post (Frame.done id []))

/-- What an accepted point-to-point call does. -/
def Posted (s s' : Sys) (caller : Nat) : Prop :=
  (∃ queue target id, Takes s s' caller queue target id) ∨
    ∃ queue target id, Queues s s' caller queue target id

@[simp] theorem RankState.post_pos (rank : RankState) (frame : Frame) : (rank.post frame).pos = rank.pos := rfl
@[simp] theorem RankState.post_cont (rank : RankState) (frame : Frame) :
    (rank.post frame).cont = frame.cont := rfl
@[simp] theorem RankState.post_todo (rank : RankState) (frame : Frame) :
    (rank.post frame).todo = frame.todo := rfl
@[simp] theorem RankState.post_requests (rank : RankState) (frame : Frame) :
    (rank.post frame).requests = frame.request.toList ++ rank.requests := rfl

/-- The new name leaves the free list, or the free list is empty and the name is the next one. -/
theorem createRequest_name (w : World) (process : Nat) (cookie : Cookie) :
    (w.procs process).free =
        (w.createRequest process cookie).1 :: ((w.createRequest process cookie).2.procs process).free ∧
        (w.createRequest process cookie).2.next = w.next ∨
      (w.procs process).free = [] ∧ ((w.createRequest process cookie).2.procs process).free = [] ∧
        (w.createRequest process cookie).1 = w.next ∧
        (w.createRequest process cookie).2.next = w.next + 1 := by
  unfold World.createRequest
  cases list : (w.procs process).free <;> simp [list]

@[simp] theorem createRequest_procs_of_ne {w : World} {process rank : Nat} {cookie : Cookie}
    (other : rank ≠ process) : (w.createRequest process cookie).2.procs rank = w.procs rank := by
  unfold World.createRequest
  split <;> simp [other]

/-- The process a shelf belongs to. -/
def Shelf.process : Shelf → Option Nat
  | .place (.pending rank) => some rank
  | .place (.free rank) => some rank
  | .inbox rank => some rank
  | .outbox rank => some rank
  | _ => none

/-- What a process has on a shelf of its own. -/
def Process.shelf (process : Process) : Shelf → List Nat
  | .place (.pending _) => process.pending
  | .place (.free _) => process.free
  | .inbox _ => process.inbox
  | .outbox _ => process.outbox
  | _ => []

section Posting

variable {vm : ProcessVm} {program : Program} {s s' : Sys} {self target : Nat}

/-- A step without local lists changes shelves of one process only. -/
theorem shelved_same (slots : s'.world.slots = s.world.slots)
    (procs : ∀ rank ≠ target, s'.world.procs rank = s.world.procs rank)
    (todo : ∀ rank, (s'.ranks rank).todo = (s.ranks rank).todo) (pool : List Nat) {shelf : Shelf}
    (here : shelf.process = some target →
      (s'.world.procs target).shelf shelf = (s.world.procs target).shelf shelf) :
    s'.shelved pool shelf = s.shelved pool shelf := by
  have elsewhere : ∀ rank, shelf.process = some rank →
      (s'.world.procs rank).shelf shelf = (s.world.procs rank).shelf shelf := by
    intro rank mine
    by_cases same : rank = target
    · exact same ▸ here (same ▸ mine)
    · rw [procs rank same]
  cases shelf with
  | place place =>
      cases place with
      | box turn => exact congrArg Collect.box (congrFun slots turn)
      | todo rank => exact todo rank
      | pending rank => exact elsewhere rank rfl
      | free rank => exact elsewhere rank rfl
  | inbox rank => exact elsewhere rank rfl
  | outbox rank => exact elsewhere rank rfl
  | pool => rfl

/-- A call that takes a cookie out of a queue of `target`. -/
theorem takes_of_find {queue : Shelf} {id : Nat} {w : World} {action : Action}
    (idle : (s.ranks self).todo = []) (queueOf : queue.QueueOf target)
    (found : id ∈ (s.world.procs target).shelf queue) (transfers : action.transfer = some id)
    (beside : w.size = s.world.size ∧ w.ticket = s.world.ticket ∧ w.slots = s.world.slots)
    (next : w.next = s.world.next) (procs : ∀ rank ≠ target, w.procs rank = s.world.procs rank)
    (taken : (w.procs target).shelf queue = ((s.world.procs target).shelf queue).erase id)
    (pending : (w.procs target).pending = id :: (s.world.procs target).pending)
    (elsewhere : ∀ shelf, shelf ≠ queue → shelf ≠ .place (.pending target) → shelf.process = some target →
      (w.procs target).shelf shelf = (s.world.procs target).shelf shelf)
    (others : ∀ other ≠ id, w.cookies other = s.world.cookies other)
    (owner : (w.cookies id).owner = (s.world.cookies id).owner)
    (busy : (w.cookies id).busy = (s.world.cookies id).busy)
    (used : (w.cookies id).used = int16 ((s.world.cookies id).used + 1)) :
    Takes s
      { s with
        world := w
        ranks := Function.update s.ranks self ((s.ranks self).post (Frame.done id [action])) }
      self queue target id where
  beside := ⟨beside.1, beside.2.1, beside.2.2, rfl⟩
  next := next
  queueOf := queueOf
  found := by rcases queueOf with rfl | rfl <;> exact found
  taken := by
    intro pool
    rcases queueOf with rfl | rfl <;> exact taken
  pending := pending
  elsewhere := by
    intro pool shelf notQueue notPending
    refine shelved_same beside.2.2 procs ?_ pool (elsewhere shelf notQueue notPending)
    intro rank
    by_cases own : rank = self
    · subst own
      simp [Frame.done, idle]
    · simp [own]
  others := others
  owner := owner
  busy := busy
  used := used
  ranks := ⟨action, transfers, rfl⟩

/-- A call that leaves a new cookie in a queue of `target`. -/
theorem queues_of_create {queue : Shelf} {cookie : Cookie} {process : Process}
    (idle : (s.ranks self).todo = []) (queueOf : queue.QueueOf target) (owner : cookie.owner = self)
    (busy : cookie.busy = 1) (used : cookie.used = 1)
    (left : process.shelf queue =
      (s.world.procs target).shelf queue ++ [(s.world.createRequest target cookie).1])
    (free : process.free = ((s.world.createRequest target cookie).2.procs target).free)
    (elsewhere : ∀ shelf, shelf ≠ queue → shelf ≠ .place (.free target) → shelf.process = some target →
      process.shelf shelf = (s.world.procs target).shelf shelf) :
    Queues s
      { s with
        world := (s.world.createRequest target cookie).2.setProc target process
        ranks := Function.update s.ranks self
          ((s.ranks self).post (Frame.done (s.world.createRequest target cookie).1 [])) }
      self queue target (s.world.createRequest target cookie).1 where
  beside := ⟨by simp, by simp, by simp, rfl⟩
  queueOf := queueOf
  left := by
    intro pool
    rcases queueOf with rfl | rfl <;> simpa [Sys.shelved, Process.shelf] using left
  free := by
    have names := createRequest_name s.world target cookie
    simpa [free] using names
  elsewhere := by
    intro pool shelf notQueue notFree
    refine @shelved_same s _ target ?_ ?_ ?_ pool shelf ?_
    · simp
    · intro rank other
      simp [other]
    · intro rank
      by_cases own : rank = self
      · subst own
        simp [Frame.done, idle]
      · simp [own]
    · intro mine
      simpa using elsewhere shelf notQueue notFree mine
  others := by
    intro other different
    rw [World.createRequest_fst] at different
    simp [different]
  owner := by simp [owner]
  busy := by simp [busy]
  used := by simp [used]
  ranks := rfl

/-- `MPI_Irecv` takes a send out of the caller's `inbox_`, or is queued in its `outbox_`. -/
theorem recvRequest_posted (buf : Loc) (count : Int) (iovec : Iovec) (source tag : Int)
    (idle : (s.ranks self).todo = []) :
    Posted s
      { s with
        world := (recvRequest s.world self buf count iovec source tag).1
        ranks := Function.update s.ranks self
          ((s.ranks self).post (recvRequest s.world self buf count iovec source tag).2) } self := by
  unfold recvRequest
  dsimp only
  split
  case h_1 id found =>
    refine Or.inl ⟨.inbox self, self, id, takes_of_find idle (Or.inl rfl) (List.mem_of_find?_eq_some found)
      rfl ⟨rfl, rfl, rfl⟩ rfl ?_ ?_ ?_ ?_ ?_ ?_ ?_ ?_⟩
    · intro rank other
      simp [other]
    · simp [Process.shelf]
    · simp
    · intro shelf notInbox notPending mine
      rcases shelf with (_ | _ | rank | rank) | rank | rank | _ <;>
        simp_all [Shelf.process, Process.shelf]
    · intro other different
      simp [different]
    · simp
    · simp
    · simp
  case h_2 =>
    refine Or.inr ⟨.outbox self, self, _, queues_of_create idle (Or.inr rfl) rfl rfl rfl ?_ rfl ?_⟩
    · simp [Process.shelf]
    · intro shelf notOutbox notFree mine
      rcases shelf with (_ | _ | rank | rank) | rank | rank | _ <;>
        simp_all [Shelf.process, Process.shelf]

/-- `MPI_Issend` takes a receive out of the `outbox_` of the destination, or is queued in its `inbox_`. -/
theorem sendRequest_posted (dest : Nat) (buf : Loc) (count : Int) (iovec : Iovec) (tag : Int)
    (idle : (s.ranks self).todo = []) :
    Posted s
      { s with
        world := (sendRequest s.world self dest buf count iovec tag).1
        ranks := Function.update s.ranks self
          ((s.ranks self).post (sendRequest s.world self dest buf count iovec tag).2) } self := by
  unfold sendRequest
  dsimp only
  split
  case h_1 id found =>
    refine Or.inl ⟨.outbox dest, dest, id, takes_of_find idle (Or.inr rfl) (List.mem_of_find?_eq_some found)
      rfl ⟨rfl, rfl, rfl⟩ rfl ?_ ?_ ?_ ?_ ?_ ?_ ?_ ?_⟩
    · intro rank other
      simp [other]
    · simp [Process.shelf]
    · simp
    · intro shelf notOutbox notPending mine
      rcases shelf with (_ | _ | rank | rank) | rank | rank | _ <;>
        simp_all [Shelf.process, Process.shelf]
    · intro other different
      simp [different]
    · simp
    · simp
    · simp
  case h_2 =>
    refine Or.inr ⟨.inbox dest, dest, _, queues_of_create idle (Or.inl rfl) rfl rfl rfl ?_ rfl ?_⟩
    · simp [Process.shelf]
    · intro shelf notInbox notFree mine
      rcases shelf with (_ | _ | rank | rank) | rank | rank | _ <;>
        simp_all [Shelf.process, Process.shelf]

/-- A point-to-point call is made by a rank that is in no call. -/
theorem post_cases {called : World × Frame} (posted : s.post self called = .ok s') :
    self < s.world.size ∧ (s.ranks self).cont = [] ∧
      s' =
        { s with
          world := called.1
          ranks := Function.update s.ranks self ((s.ranks self).post called.2) } := by
  unfold Sys.post at posted
  split at posted
  · cases posted
  case isFalse free =>
    obtain ⟨valid, idle⟩ := not_or.mp free
    exact ⟨Nat.lt_of_not_le valid, not_not.mp idle, (Outcome.ok.inj posted).symm⟩

/-- A call that is rejected is seen from what it returns. -/
theorem not_clean_of_failed {w : World}
    (clean : Sys.Clean
      { s with
        world := w
        ranks := Function.update s.ranks self ((s.ranks self).post (Frame.failed mpiFail)) }) : False := by
  have returned := clean self mpiFail
  simp [RankState.post, RankState.enter, Frame.failed, mpiFail, mpiSuccess] at returned

/-- An `MPI_Irecv` that is not rejected. -/
theorem perform_recv {buf : Pointer} {count : Int} {datatype : MpiDatatype} {source tag : Int} {comm : MpiComm}
    (performed : s.perform vm program (.recv self buf count datatype source tag comm) = .ok s')
    (todo : (s.ranks self).cont = [] → (s.ranks self).todo = []) (clean : s'.Clean) :
    self < s.world.size ∧ (s.ranks self).cont = [] ∧ Posted s s' self := by
  obtain ⟨valid, idle, rfl⟩ := post_cases performed
  refine ⟨valid, idle, ?_⟩
  unfold mpiIrecv at clean ⊢
  split at clean
  · exact (not_clean_of_failed clean).elim
  · split at clean
    · exact (not_clean_of_failed clean).elim
    case isFalse accepted =>
      simp only [if_neg accepted]
      exact recvRequest_posted _ _ _ _ _ (todo idle)

/-- An `MPI_Issend` that is not rejected. -/
theorem perform_send {buf : Pointer} {count : Int} {datatype : MpiDatatype} {dest tag : Int} {comm : MpiComm}
    (performed : s.perform vm program (.send self buf count datatype dest tag comm) = .ok s')
    (todo : (s.ranks self).cont = [] → (s.ranks self).todo = []) (clean : s'.Clean) :
    self < s.world.size ∧ (s.ranks self).cont = [] ∧ Posted s s' self := by
  obtain ⟨valid, idle, rfl⟩ := post_cases performed
  refine ⟨valid, idle, ?_⟩
  unfold mpiIssend at clean ⊢
  split at clean
  · exact (not_clean_of_failed clean).elim
  · split at clean
    · exact (not_clean_of_failed clean).elim
    case isFalse accepted =>
      simp only [if_neg accepted]
      exact sendRequest_posted _ _ _ _ _ (todo idle)

end Posting

/-! ### Every event keeps every cookie on one shelf -/

namespace Shelved

variable {pool : List Nat} {s s' : Sys} {self target id : Nat} {queue : Shelf}

/-- Seen from the collective operations, if what is left of every call empties its local list. -/
theorem placed (shelved : Shelved pool s)
    (moves : ∀ rank, ((s.ranks rank).cont.flatMap Action.moved).Perm (s.ranks rank).todo) : Placed s where
  exclusive :=
    { nodup := fun place => shelved.exclusive.nodup (.place place)
      disjoint := fun place other different =>
        shelved.exclusive.disjoint (.place place) (.place other) (by simpa using different) }
  allocated := fun place _ held => shelved.of_mem (i := .place place) held
  moves := moves

theorem start (n : Nat) (mem : Memory) : Shelved [] (Sys.init n mem) where
  exclusive :=
    { nodup := fun shelf => by rcases shelf with (_ | _ | _ | _) | _ | _ | _ <;> exact List.nodup_nil
      disjoint := fun shelf _ _ a held => by
        rcases shelf with (_ | _ | _ | _) | _ | _ | _ <;> cases held }
  mem_iff := by
    intro a
    refine iff_of_false ?_ (Nat.not_lt_zero a)
    rintro ⟨shelf, held⟩
    rcases shelf with (_ | _ | _ | _) | _ | _ | _ <;> cases held

/-- A call takes a cookie from a queue. -/
theorem takes (shelved : Shelved pool s) (takes : Takes s s' self queue target id) : Shelved pool s' := by
  have different : queue ≠ .place (.pending target) := by
    rcases takes.queueOf with rfl | rfl <;> simp
  have found : id ∈ s.shelved pool queue := by
    rcases takes.queueOf with rfl | rfl <;> exact takes.found
  refine shelved.rearrange [queue, .place (.pending target)] (by simp [different]) [] List.nodup_nil
    (fun _ impossible => absurd impossible List.not_mem_nil) (fun a => by simp [takes.next]) ?_ ?_
  · intro shelf unlisted
    simp only [List.mem_cons, List.not_mem_nil, or_false, not_or] at unlisted
    exact takes.elsewhere pool shelf unlisted.1 unlisted.2
  · have pending : s'.shelved pool (.place (.pending target)) =
        id :: s.shelved pool (.place (.pending target)) := takes.pending
    simp only [List.flatMap_cons, List.flatMap_nil, List.append_nil, takes.taken pool, pending]
    exact List.perm_middle.trans ((List.perm_cons_erase found).symm.append_right _)

/-- A call leaves a new cookie in a queue. -/
theorem queues (shelved : Shelved pool s) (queues : Queues s s' self queue target id) : Shelved pool s' := by
  have different : queue ≠ .place (.free target) := by
    rcases queues.queueOf with rfl | rfl <;> simp
  have same : ∀ shelf ∉ [queue, .place (.free target)], s'.shelved pool shelf = s.shelved pool shelf := by
    intro shelf unlisted
    simp only [List.mem_cons, List.not_mem_nil, or_false, not_or] at unlisted
    exact queues.elsewhere pool shelf unlisted.1 unlisted.2
  rcases queues.free with ⟨free, next⟩ | ⟨empty, empty', rfl, next⟩
  · refine shelved.rearrange _ (by simp [different]) [] List.nodup_nil
      (fun _ impossible => absurd impossible List.not_mem_nil) (fun a => by simp [next]) same ?_
    have before : s.shelved pool (.place (.free target)) =
        id :: s'.shelved pool (.place (.free target)) := free
    simp only [List.flatMap_cons, List.flatMap_nil, List.append_nil, queues.left pool, before]
    rw [List.append_assoc, List.singleton_append]
  · refine shelved.rearrange _ (by simp [different]) [s.world.next] (List.nodup_singleton _)
      (fun a new => ?_) (fun a => ?_) same ?_
    · rw [List.mem_singleton.mp new]
      exact lt_irrefl _
    · rw [next, List.mem_singleton]
      exact Nat.lt_succ_iff_lt_or_eq
    · have before : s.shelved pool (.place (.free target)) = [] := empty
      have after : s'.shelved pool (.place (.free target)) = [] := empty'
      simp only [List.flatMap_cons, List.flatMap_nil, List.append_nil, queues.left pool, before, after]
      exact List.Perm.refl _

section Entering

variable {schedule : Schedule} {n : Nat} {past : List Nat} {mid : World} {offer : Offer}
  {cont : List Action} {w' : World} {frame : Frame} {made made' : Nat → Nat}

/-- A name is new exactly when the free list has none. -/
theorem enter_next (entered : Entered schedule n past s.world self mid offer cont (w', frame) made made')
    (a : Nat) : a < w'.next ↔ a < s.world.next ∨ a ∈ Placed.freshNames s self schedule n past := by
  have next : mid.next = s.world.next := entered.midway.next
  have free : (mid.procs self).free = (s.world.procs self).free := entered.midway.free self
  unfold Placed.freshNames
  cases makes : schedule.num n past self with
  | none =>
      have kept := entered.settles.kept (by simp [Schedule.settlement, makes])
      rw [show w'.next = s.world.next from kept.2.1.trans next]
      simp
  | some k =>
      have created := entered.settles.created (offer.cookie self k) (by simp [Schedule.settlement, makes])
      rw [show w'.next = _ from created.2.2.1, ← next, ← free]
      rcases createRequest_name mid self (offer.cookie self k) with ⟨used, same⟩ | ⟨empty, _, _, grown⟩
      · rw [same, used]
        simp
      · rw [grown, empty]
        simp only [Option.isSome_some, and_self, if_true, List.mem_singleton]
        exact Nat.lt_succ_iff_lt_or_eq

/-- A rank joins an operation. -/
theorem enter (shelved : Shelved pool s) (placed : Placed s) (idle : (s.ranks self).cont = [])
    (standing : Standing schedule n past s.world (s.world.turnOf self) made)
    (suits : schedule.Suits n) (joining : Schedule.Joining n (self :: past))
    (entered : Entered schedule n past s.world self mid offer cont (w', frame) made made')
    (joins : Nat → List Join) :
    Shelved pool
      { world := w'
        ranks := Function.update s.ranks self ((s.ranks self).enter frame)
        joins := joins } := by
  obtain ⟨retiredOwner, pending, otherPending⟩ := Placed.enter_pending entered
  have counts := placed.enter_counts idle standing suits joining entered retiredOwner pending
  let places : List Shelf :=
    [.place (.box (s.world.turnOf self)), .place (.todo self), .place (.pending retiredOwner),
      .place (.free self)]
  let after : Sys :=
    { world := w'
      ranks := Function.update s.ranks self ((s.ranks self).enter frame)
      joins := joins }
  have queues : ∀ rank, (w'.procs rank).inbox = (s.world.procs rank).inbox ∧
      (w'.procs rank).outbox = (s.world.procs rank).outbox := by
    intro rank
    have lists := entered.midway.lists rank
    have inbox : (mid.procs rank).inbox = (s.world.procs rank).inbox :=
      (congrArg (fun lists => lists.2.1) lists :)
    have outbox : (mid.procs rank).outbox = (s.world.procs rank).outbox :=
      (congrArg (fun lists => lists.2.2.1) lists :)
    obtain ⟨inboxKept, outboxKept⟩ := entered.settles.queues rank
    exact ⟨inboxKept.trans inbox, outboxKept.trans outbox⟩
  have same : ∀ shelf ∉ places, after.shelved pool shelf = s.shelved pool shelf := by
    intro shelf unlisted
    simp only [places, List.mem_cons, List.not_mem_nil, or_false, not_or] at unlisted
    obtain ⟨notBox, notTodo, notPending, notFree⟩ := unlisted
    cases shelf with
    | place place =>
        cases place with
        | box turn =>
            have other : turn ≠ s.world.turnOf self := fun same => notBox (by rw [same])
            have kept : w'.slots turn = mid.slots turn := entered.settles.otherSlots turn other
            have claimed : ((s.world.claimed self).slots turn).box = (s.world.slots turn).box := by
              rw [claimed_slots_of_ne s.world self other]
            show (w'.slots turn).box = (s.world.slots turn).box
            rw [kept, entered.midway.box, claimed]
        | todo rank =>
            have other : rank ≠ self := fun same => notTodo (by rw [same])
            simp [Sys.shelved, Sys.holds, after, other]
        | pending rank => exact otherPending rank fun same => notPending (by rw [same])
        | free rank => exact entered.free fun same => notFree (by rw [same])
    | inbox rank => exact (queues rank).1
    | outbox rank => exact (queues rank).2
    | pool => rfl
  refine shelved.rearrange places (by simp [places]) (Placed.freshNames s self schedule n past) ?_ ?_
    (enter_next entered) same ?_
  · unfold Placed.freshNames
    split <;> simp
  · intro a new
    unfold Placed.freshNames at new
    split at new
    · rw [List.mem_singleton.mp new]
      exact lt_irrefl _
    · cases new
  · refine List.perm_iff_count.mpr fun a => ?_
    have balance := counts a
    simp only [places, List.flatMap_cons, List.flatMap_nil, List.append_nil, List.count_append, Sys.shelved,
      Sys.holds, Function.update_self, RankState.enter_todo]
    omega

end Entering

/-- A rank performs an action. -/
theorem act (shelved : Shelved pool s) (placed : Placed s) {vm : ProcessVm} {action : Action}
    {rest : List Action} {done : Transferred} (todo : (s.ranks self).cont = action :: rest)
    (performed : action.exec vm s.world self = .ok done) (goesOn : done.ret = mpiSuccess ∨ rest = []) :
    Shelved pool
      { s with
        world := done.world
        ranks := Function.update s.ranks self
          ((s.ranks self).advance action.moved rest done.ret) } := by
  let after : Sys :=
    { s with
      world := done.world
      ranks := Function.update s.ranks self ((s.ranks self).advance action.moved rest done.ret) }
  have movesBefore := placed.moves self
  rw [todo] at movesBefore
  have ownTodo : (rest.flatMap Action.moved).Perm (after.ranks self).todo := by
    simp only [after, Function.update_self]
    exact Placed.advance_todo movesBefore (placed.exclusive.nodup (.todo self)) goesOn
  have otherTodo : ∀ rank ≠ self, (after.ranks rank).todo = (s.ranks rank).todo := by
    intro rank other
    simp [after, other]
  rcases Action.exec_cases performed with ⟨id, rfl, moved, _⟩ | ⟨nothing, midway⟩
  · -- the cookie goes from the local list to its owner's `pending_`
    let owner := (s.world.cookies id).owner
    have world : after.world = s.world.moveToPending id := moved
    have pending : (after.world.procs owner).pending = id :: (s.world.procs owner).pending := by
      rw [world]
      simp [World.moveToPending, owner]
    refine shelved.rearrange [.place (.todo self), .place (.pending owner)] (by simp) [] List.nodup_nil
      (fun _ impossible => absurd impossible List.not_mem_nil) (fun a => ?_) ?_ ?_
    · show a < after.world.next ↔ _
      rw [world]
      simp
    · intro shelf unlisted
      simp only [List.mem_cons, List.not_mem_nil, or_false, not_or] at unlisted
      show after.shelved pool shelf = s.shelved pool shelf
      rcases shelf with (turn | rank | rank | rank) | rank | rank | _
      · simp [Sys.shelved, Sys.holds, world]
      · exact otherTodo rank fun same => unlisted.1 (by rw [same])
      · have other : rank ≠ owner := fun same => unlisted.2 (by rw [same])
        simp [Sys.shelved, Sys.holds, world, World.moveToPending, owner, other]
      all_goals first
        | rfl
        | by_cases own : rank = owner <;>
            simp [Sys.shelved, Sys.holds, world, World.moveToPending, owner, own]
    · refine List.perm_iff_count.mpr fun a => ?_
      have before := movesBefore.count_eq a
      have now := ownTodo.count_eq a
      simp only [List.flatMap_cons, Action.moved, List.count_append] at before
      show ([Shelf.place (.todo self), .place (.pending owner)].flatMap (after.shelved pool)).count a = _
      simp only [List.flatMap_cons, List.flatMap_nil, List.append_nil, List.count_append, Sys.shelved,
        Sys.holds, pending, List.count_cons] at before now ⊢
      simp only [List.count_nil] at before
      omega
  · -- a transfer or a reduction moves no cookie
    refine shelved.rearrange [.place (.todo self)] (by simp) [] List.nodup_nil
      (fun _ impossible => absurd impossible List.not_mem_nil) (fun a => ?_) ?_ ?_
    · show a < done.world.next ↔ _
      rw [midway.next]
      simp
    · intro shelf unlisted
      have lists := fun rank => midway.lists rank
      rcases shelf with (turn | rank | rank | rank) | rank | rank | _
      · exact midway.box turn
      · exact otherTodo rank fun same => unlisted (by simp [same])
      · exact (congrArg (fun lists => lists.2.2.2) (lists rank) :)
      · exact midway.free rank
      · exact (congrArg (fun lists => lists.2.1) (lists rank) :)
      · exact (congrArg (fun lists => lists.2.2.1) (lists rank) :)
      · rfl
    · rw [List.flatMap_cons, nothing, List.nil_append] at movesBefore
      simp only [List.flatMap_cons, List.flatMap_nil, List.append_nil]
      exact ownTodo.symm.trans movesBefore

/-- A rank leaves its handle on a cookie: finished cookies go to the front of the free list, and what is
    cut off its end goes to the pool. -/
theorem leave (shelved : Shelved pool s) (self id : Nat) :
    Shelved (s.world.released id ++ pool) (s.leave self id) := by
  let owner := (s.world.cookies id).owner
  let used : Nat → Int := fun other => ((s.world.setCookie id
    { s.world.cookies id with used := int16 ((s.world.cookies id).used - 1) }).cookies other).used
  let finished := (s.world.procs owner).pending.filter fun other => used other = 0
  let free := finished.reverse ++ (s.world.procs owner).free
  have pendingAfter : ((s.world.finalize id).procs owner).pending =
      (s.world.procs owner).pending.filter fun other => used other ≠ 0 := by
    simp [World.finalize, owner, used]
  have freeAfter : ((s.world.finalize id).procs owner).free ++ s.world.released id = free := by
    simp only [World.finalize, World.released, World.setProc_procs, owner, Function.update_self, free,
      finished, used]
    split
    · exact List.take_append_drop _ _
    · exact List.append_nil _
  refine shelved.rearrange [.place (.pending owner), .place (.free owner), .pool] (by simp) []
    List.nodup_nil (fun _ impossible => absurd impossible List.not_mem_nil) (fun a => by simp [Sys.leave]) ?_ ?_
  · intro shelf unlisted
    simp only [List.mem_cons, List.not_mem_nil, or_false, not_or] at unlisted
    obtain ⟨notPending, notFree, notPool⟩ := unlisted
    rcases shelf with (turn | rank | rank | rank) | rank | rank | _
    · rfl
    · by_cases own : rank = self <;> simp [Sys.shelved, Sys.holds, Sys.leave, own]
    · have other : rank ≠ owner := fun same => notPending (by rw [same])
      simp [Sys.shelved, Sys.holds, Sys.leave, World.finalize, owner, other]
    · have other : rank ≠ owner := fun same => notFree (by rw [same])
      simp [Sys.shelved, Sys.holds, Sys.leave, World.finalize, owner, other]
    · by_cases own : rank = owner <;> simp [Sys.shelved, Sys.leave, World.finalize, owner, own]
    · by_cases own : rank = owner <;> simp [Sys.shelved, Sys.leave, World.finalize, owner, own]
    · exact absurd rfl notPool
  · refine List.perm_iff_count.mpr fun a => ?_
    have cut := congrArg (List.count a) freeAfter
    have split : ((s.world.procs owner).pending.filter fun other => used other ≠ 0).count a +
        finished.count a = (s.world.procs owner).pending.count a := by
      by_cases zero : used a = 0
      · have absent : a ∉ (s.world.procs owner).pending.filter fun other => used other ≠ 0 := by
          simp [zero]
        rw [List.count_eq_zero.mpr absent, Nat.zero_add]
        exact List.count_filter (by simpa using zero)
      · have absent : a ∉ finished := by simp [finished, zero]
        rw [List.count_eq_zero.mpr absent, Nat.add_zero]
        exact List.count_filter (by simpa using zero)
    simp only [List.flatMap_cons, List.flatMap_nil, List.append_nil, List.count_append, Sys.shelved,
      Sys.holds, Sys.leave, pendingAfter] at cut ⊢
    simp only [free, List.count_append, List.count_reverse] at cut
    omega

end Shelved

end Umpi
