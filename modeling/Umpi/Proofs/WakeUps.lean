/-
Module: Umpi.Proofs.WakeUps
Layer: Proofs
Purpose: Which sleepers are woken. The notifiers look at `waiting_for_` and `waiting_`: a process in
  `wait(cookie)` is notified when its cookie is done, a process in `wait_any(source, tag)` when a send is
  queued, but nobody ever notifies a process in `wait_any(count, cookies)`. The first part is about the
  cookies: one that a process has a handle on is in no `free_` list, so it is not made anew, for somebody
  else, while a process sleeps on it.
Imports: Umpi.Model.Sleeping, Umpi.Proofs.Shelves
Trusted boundary: none
Main exports: Accounted, Dozing, Threads.Justified, Threads.Spares, wake_ups_delivered_iff, wake_up_lost
Open obligations: none
-/
import Umpi.Model.Sleeping
import Umpi.Proofs.Shelves

namespace Umpi

open Foundation

/-! ### Cookies and handles -/

/-- The lists a cookie can be in. -/
inductive Drawer where
  | free (rank : Nat)
  | inbox (rank : Nat)
  | outbox (rank : Nat)
  | pending (rank : Nat)
  | loose
deriving DecidableEq

/-- What is in a list, if the cookies of `loose` are in slots and local lists. -/
def World.drawer (w : World) (loose : List Nat) : Drawer → List Nat
  | .free rank => (w.procs rank).free
  | .inbox rank => (w.procs rank).inbox
  | .outbox rank => (w.procs rank).outbox
  | .pending rank => (w.procs rank).pending
  | .loose => loose

/-- What is in a list. -/
abbrev Threads.drawer (s : Threads) : Drawer → List Nat := s.world.drawer s.loose

/-- The number of handles the processes have on the cookie `id`. -/
def handleCount (n : Nat) (handles : Nat → List Nat) (id : Nat) : Nat :=
  ∑ rank ∈ Finset.range n, (handles rank).count id

section Handles

variable {n : Nat} {handles : Nat → List Nat} {rank id : Nat}

theorem handleCount_update (handles : Nat → List Nat) (valid : rank < n) (list : List Nat) (id : Nat) :
    handleCount n (Function.update handles rank list) id + (handles rank).count id =
      handleCount n handles id + list.count id :=
  sum_update (fun list : List Nat => list.count id) handles valid list

theorem notMem_of_handleCount (none : handleCount n handles id = 0) (valid : rank < n) :
    id ∉ handles rank := fun listed => by
  have zero := (Finset.sum_eq_zero_iff.mp none) rank (Finset.mem_range.mpr valid)
  exact absurd zero (Nat.pos_iff_ne_zero.mp (List.count_pos_iff.mpr listed))

theorem handleCount_eq_zero (nowhere : ∀ rank < n, id ∉ handles rank) : handleCount n handles id = 0 :=
  Finset.sum_eq_zero fun rank member => List.count_eq_zero.mpr (nowhere rank (Finset.mem_range.mp member))

theorem handleCount_le (handles : Nat → List Nat) (id : Nat)
    (few : ∀ rank < n, (handles rank).count id ≤ 2) : handleCount n handles id ≤ 2 * n := by
  calc
    handleCount n handles id ≤ ∑ _rank ∈ Finset.range n, 2 :=
      Finset.sum_le_sum fun rank member => few rank (Finset.mem_range.mp member)
    _ = 2 * n := by simp [Nat.mul_comm]

end Handles

theorem Threads.acquire_eq_some {s got : Threads} {self id : Nat} {w : World}
    (acquired : s.acquire self id w = some got) :
    (s.handles self).count id < 2 ∧
      got = { s with world := w, handles := Function.update s.handles self (id :: s.handles self) } := by
  unfold Threads.acquire at acquired
  split at acquired
  case isTrue few => exact ⟨few, (Option.some.inj acquired).symm⟩
  case isFalse => cases acquired

/-- A step is a sleeper going on, or a critical section of a process that is awake. -/
theorem Threads.step_cases {s s' : Threads} {critical : Critical} (stepped : s.step critical = some s') :
    (∃ self, critical = .resume self ∧ s.wakeUp self = some s') ∨
      critical.actor < s.world.size ∧ s.asleep critical.actor = none ∧ s.perform critical = some s' := by
  unfold Threads.step at stepped
  split at stepped
  case h_1 self => exact Or.inl ⟨self, rfl, stepped⟩
  case h_2 =>
    split at stepped
    case isTrue able => exact Or.inr ⟨able.1, able.2, stepped⟩
    case isFalse => cases stepped

/-- The process `caller` has changed nothing but its own `waiting_`, `waiting_for_` and whether it sleeps. -/
structure Threads.Personal (caller : Nat) (s s' : Threads) : Prop where
  size : s'.world.size = s.world.size
  next : s'.world.next = s.world.next
  cookies : s'.world.cookies = s.world.cookies
  drawer : s'.drawer = s.drawer
  handles : s'.handles = s.handles
  procs : ∀ rank ≠ caller, s'.world.procs rank = s.world.procs rank
  asleep : ∀ rank ≠ caller, s'.asleep rank = s.asleep rank

namespace Threads.Personal

variable {s s' s'' : Threads} {self : Nat}

theorem trans (first : Personal self s s') (second : Personal self s' s'') : Personal self s s'' where
  size := second.size.trans first.size
  next := second.next.trans first.next
  cookies := second.cookies.trans first.cookies
  drawer := second.drawer.trans first.drawer
  handles := second.handles.trans first.handles
  procs rank other := (second.procs rank other).trans (first.procs rank other)
  asleep rank other := (second.asleep rank other).trans (first.asleep rank other)

/-- `cond_.wait`. -/
theorem sleep (s : Threads) (self : Nat) (waiter : Waiter) : Personal self s (s.sleep self waiter) where
  size := rfl
  next := rfl
  cookies := rfl
  drawer := rfl
  handles := rfl
  procs _ _ := rfl
  asleep rank other := by simp [Threads.sleep, other]

/-- A change of `waiting_` and `waiting_for_`. -/
theorem of_setProc {waiting : Option Nat} {waitingFor : WaitingFor}
    (world : s'.world = s.world.setProc self
      { s.world.procs self with waiting := waiting, waitingFor := waitingFor })
    (handles : s'.handles = s.handles) (loose : s'.loose = s.loose)
    (asleep : ∀ rank ≠ self, s'.asleep rank = s.asleep rank) : Personal self s s' where
  size := by rw [world]; rfl
  next := by rw [world]; rfl
  cookies := by rw [world]; rfl
  drawer := by
    funext drawer
    cases drawer with
    | loose => exact loose
    | free rank | inbox rank | outbox rank | pending rank =>
        by_cases own : rank = self <;> simp [World.drawer, world, own]
  handles := handles
  procs rank other := by rw [world, World.setProc_procs, Function.update_of_ne other]
  asleep := asleep

theorem setWaiting (s : Threads) (self : Nat) (waitingFor : WaitingFor) (waiting : Option Nat) :
    Personal self s (s.setWaiting self waitingFor waiting) :=
  of_setProc rfl rfl rfl fun _ _ => rfl

theorem finish (s : Threads) (self : Nat) (waiting : Option Nat) (waitingFor : WaitingFor)
    (answer : Option Nat) :
    Personal self s
      (s.finish self { s.world.procs self with waiting := waiting, waitingFor := waitingFor } answer) :=
  of_setProc rfl rfl rfl fun rank other => by simp [Threads.finish, other]

theorem waitLoop (s : Threads) (self id : Nat) : Personal self s (s.waitLoop self id) := by
  unfold Threads.waitLoop
  split
  · exact sleep s self _
  · exact finish s self _ _ _

theorem waitAnyLoop (s : Threads) (self : Nat) (cookies : List (Option Nat)) :
    Personal self s (s.waitAnyLoop self cookies) := by
  unfold Threads.waitAnyLoop
  split
  · exact finish s self _ _ _
  · exact sleep s self _

theorem probeLoop (s : Threads) (self seen : Nat) (source tag : Int) :
    Personal self s (s.probeLoop self seen source tag) := by
  unfold Threads.probeLoop
  split
  · exact finish s self _ _ _
  · exact sleep s self _

/-- A sleeper that goes on. -/
theorem wakeUp (woken : s.wakeUp self = some s') : Personal self s s' := by
  unfold Threads.wakeUp at woken
  split at woken
  · cases woken
  · split at woken
    · cases woken
    · split at woken <;> obtain rfl := Option.some.inj woken
      · exact waitLoop s self _
      · exact waitAnyLoop s self _
      · exact probeLoop s self _ _ _

end Threads.Personal

section Made

variable (w : World) (process : Nat) (cookie : Cookie) (rank : Nat)

@[simp] theorem createRequest_waiting :
    ((w.createRequest process cookie).2.procs rank).waiting = (w.procs rank).waiting := by
  unfold World.createRequest
  split
  · rfl
  · by_cases same : rank = process <;> simp [same]

@[simp] theorem createRequest_waitingFor :
    ((w.createRequest process cookie).2.procs rank).waitingFor = (w.procs rank).waitingFor := by
  unfold World.createRequest
  split
  · rfl
  · by_cases same : rank = process <;> simp [same]

@[simp] theorem createRequest_signals :
    ((w.createRequest process cookie).2.procs rank).signals = (w.procs rank).signals := by
  unfold World.createRequest
  split
  · rfl
  · by_cases same : rank = process <;> simp [same]

end Made

/-- What `finalize` leaves in a `free_` list was there, or was in `pending_` and has no users left. -/
theorem finalize_free (w : World) (id : Nat) {rank other : Nat}
    (isFree : other ∈ ((w.finalize id).procs rank).free) :
    other ∈ (w.procs rank).free ∨
      other ∈ (w.procs rank).pending ∧ ((w.finalize id).cookies other).used = 0 := by
  by_cases own : rank = (w.cookies id).owner
  · subst own
    have whole : ∀ limit, ∀ list : List Nat,
        other ∈ (if limit < list.length then list.take w.size else list) → other ∈ list := by
      intro limit list member
      split at member
      · exact List.mem_of_mem_take member
      · exact member
    simp only [World.finalize, World.setProc_procs, Function.update_self] at isFree
    rcases List.mem_append.mp (whole _ _ isFree) with finished | before
    · right
      obtain ⟨waited, unused⟩ := List.mem_filter.mp (List.mem_reverse.mp finished)
      exact ⟨waited, of_decide_eq_true unused⟩
    · exact Or.inl before
  · exact Or.inl (by simpa [own] using isFree)

/-- Every cookie is in one list at most, `used_` is the number of handles on it, and nobody has a handle on a
    cookie that is free. -/
structure Accounted (n : Nat) (s : Threads) : Prop where
  size : s.world.size = n
  exclusive : Exclusive s.drawer
  allocated : ∀ drawer, ∀ id ∈ s.drawer drawer, id < s.world.next
  handled : ∀ rank, ∀ id ∈ s.handles rank, id < s.world.next
  beyond : ∀ rank, n ≤ rank → s.handles rank = []
  few : ∀ rank id, (s.handles rank).count id ≤ 2
  used : ∀ id < s.world.next, (s.world.cookies id).used = handleCount n s.handles id
  free : ∀ rank, ∀ id ∈ (s.world.procs rank).free, ∀ holder, id ∉ s.handles holder

namespace Accounted

variable {n : Nat} {s s' : Threads} {self id : Nat}

theorem start (n : Nat) (mem : Memory) : Accounted n (Threads.init n mem) where
  size := rfl
  exclusive :=
    { nodup := fun drawer => by cases drawer <;> exact List.nodup_nil
      disjoint := fun first second _ => by
        cases first <;> exact List.disjoint_nil_left _ }
  allocated := fun drawer id listed => by cases drawer <;> cases listed
  handled := fun _ _ listed => by cases listed
  beyond := fun _ _ => rfl
  few := fun _ _ => by simp [Threads.init]
  used := fun id unallocated => absurd unallocated (Nat.not_lt_zero id)
  free := fun _ _ listed => by cases listed

/-- A process gets a handle: on a cookie it has found, or on one that is new. -/
theorem acquire (accounted : Accounted n s) (limit : n ≤ 10000) {w : World} {loose : List Nat}
    (valid : self < n) (few : (s.handles self).count id < 2) (size : w.size = s.world.size)
    (exclusive : Exclusive (w.drawer loose))
    (allocated : ∀ drawer, ∀ other ∈ w.drawer loose drawer, other < w.next) (next : s.world.next ≤ w.next)
    (own : id < w.next) (grown : ∀ other < w.next, other ≠ id → other < s.world.next)
    (used : id < s.world.next ∧ (w.cookies id).used = int16 ((s.world.cookies id).used + 1) ∨
      (∀ rank, id ∉ s.handles rank) ∧ (w.cookies id).used = 1)
    (others : ∀ other ≠ id, (w.cookies other).used = (s.world.cookies other).used)
    (free : ∀ rank, ∀ other ∈ (w.procs rank).free, other ≠ id ∧ other ∈ (s.world.procs rank).free) :
    Accounted n
      { s with
        world := w
        loose := loose
        handles := Function.update s.handles self (id :: s.handles self) } := by
  have count := handleCount_update s.handles valid (id :: s.handles self)
  have handled : ∀ rank other, other ∈ Function.update s.handles self (id :: s.handles self) rank →
      other = id ∨ other ∈ s.handles rank := by
    intro rank other listed
    by_cases same : rank = self
    · subst same
      simpa using listed
    · exact Or.inr (by simpa [same] using listed)
  refine
    { size := size.trans accounted.size, exclusive := exclusive, allocated := allocated
      handled := ?_, beyond := ?_, few := ?_, used := ?_, free := ?_ }
  · intro rank other listed
    rcases handled rank other listed with rfl | before
    · exact own
    · exact Nat.lt_of_lt_of_le (accounted.handled rank other before) next
  · intro rank outside
    have other : rank ≠ self := by omega
    simpa [other] using accounted.beyond rank outside
  · intro rank other
    by_cases same : rank = self
    · subst same
      by_cases this : other = id
      · subst this
        simp at few ⊢
        omega
      · simpa [List.count_cons, Ne.symm this] using accounted.few rank other
    · simpa [same] using accounted.few rank other
  · intro other small
    have total := count other
    have bound := handleCount_le (n := n) s.handles other fun rank _ => accounted.few rank other
    by_cases this : other = id
    · subst this
      rw [List.count_cons_self] at total
      rcases used with ⟨old, grows⟩ | ⟨nobody, one⟩
      · dsimp only
        rw [grows, accounted.used other old, int16_of_range (by omega) (by omega)]
        omega
      · have none := handleCount_eq_zero (n := n) fun rank _ => nobody rank
        dsimp only
        rw [one]
        omega
    · rw [List.count_cons_of_ne (Ne.symm this)] at total
      dsimp only
      rw [others other this, accounted.used other (grown other small this)]
      omega
  · intro rank other isFree holder listed
    obtain ⟨different, before⟩ := free rank other isFree
    exact accounted.free rank other before holder ((handled holder other listed).resolve_left different)

/-- A process finds a cookie in a queue of `target`, and hands it to the `pending_` list there. -/
theorem found (accounted : Accounted n s) (limit : n ≤ 10000) {w : World} {queue : Drawer}
    {target : Nat} (valid : self < n) (few : (s.handles self).count id < 2)
    (queueOf : queue = .inbox target ∨ queue = .outbox target) (listed : id ∈ s.drawer queue)
    (size : w.size = s.world.size) (next : w.next = s.world.next)
    (taken : w.drawer s.loose queue = (s.drawer queue).erase id)
    (pending : w.drawer s.loose (.pending target) = id :: s.drawer (.pending target))
    (same : ∀ drawer, drawer ≠ queue → drawer ≠ .pending target → w.drawer s.loose drawer = s.drawer drawer)
    (used : (w.cookies id).used = int16 ((s.world.cookies id).used + 1))
    (others : ∀ other ≠ id, (w.cookies other).used = (s.world.cookies other).used) :
    Accounted n
      { s with
        world := w
        handles := Function.update s.handles self (id :: s.handles self) } := by
  have apart : queue ≠ .pending target := by rcases queueOf with rfl | rfl <;> simp
  have old := accounted.allocated queue id listed
  refine accounted.acquire limit valid few size
    (accounted.exclusive.transfer apart listed taken (pending ▸ List.Perm.refl _) same) ?_ next.ge
    (next ▸ old) (fun other small _ => next ▸ small) (Or.inl ⟨old, used⟩) others ?_
  · intro drawer other member
    rw [next]
    by_cases first : drawer = queue
    · subst first
      rw [taken] at member
      exact accounted.allocated drawer other (List.mem_of_mem_erase member)
    · by_cases second : drawer = .pending target
      · subst second
        rw [pending] at member
        rcases List.mem_cons.mp member with rfl | before
        · exact old
        · exact accounted.allocated _ other before
      · rw [same drawer first second] at member
        exact accounted.allocated drawer other member
  · intro rank other isFree
    have kept : w.drawer s.loose (.free rank) = s.drawer (.free rank) :=
      same (.free rank) (by rcases queueOf with rfl | rfl <;> simp) (by simp)
    have before : other ∈ s.drawer (.free rank) := kept ▸ isFree
    refine ⟨?_, before⟩
    rintro rfl
    rcases queueOf with rfl | rfl <;> cases accounted.exclusive.eq_of_mem listed before

/-- A process leaves a new cookie in a list, made from what is in the `free_` list of `target`. -/
theorem created (accounted : Accounted n s) (limit : n ≤ 10000) {w : World} {loose : List Nat}
    (place : Drawer) (target : Nat) (valid : self < n) (few : (s.handles self).count id < 2)
    (elsewhere : ∀ rank, place ≠ .free rank) (size : w.size = s.world.size)
    (name : (s.world.procs target).free = id :: (w.procs target).free ∧
        w.next = s.world.next ∨
      (s.world.procs target).free = [] ∧ (w.procs target).free = [] ∧ id = s.world.next ∧
        w.next = s.world.next + 1)
    (put : (w.drawer loose place).Perm (id :: s.drawer place))
    (same : ∀ drawer, drawer ≠ .free target → drawer ≠ place → w.drawer loose drawer = s.drawer drawer)
    (used : (w.cookies id).used = 1)
    (others : ∀ other ≠ id, (w.cookies other).used = (s.world.cookies other).used) :
    Accounted n
      { s with
        world := w
        loose := loose
        handles := Function.update s.handles self (id :: s.handles self) } := by
  have next : s.world.next ≤ w.next := by
    rcases name with ⟨_, next⟩ | ⟨_, _, _, next⟩ <;> omega
  have first : (s.world.procs target).free = id :: (w.procs target).free →
      id ∈ s.drawer (.free target) := by
    intro free
    rw [Threads.drawer, World.drawer, free]
    exact List.mem_cons_self
  have nobody : ∀ rank, id ∉ s.handles rank := by
    rcases name with ⟨free, _⟩ | ⟨_, _, rfl, _⟩
    · exact accounted.free target id (free ▸ List.mem_cons_self)
    · exact fun rank listed => lt_irrefl _ (accounted.handled rank _ listed)
  have fresh : ∀ drawer, drawer ≠ .free target → id ∉ s.drawer drawer := by
    intro drawer away listed
    rcases name with ⟨free, _⟩ | ⟨_, _, rfl, _⟩
    · exact away (accounted.exclusive.eq_of_mem listed (first free))
    · exact lt_irrefl _ (accounted.allocated drawer _ listed)
  have freeKept : ∀ other ∈ (w.procs target).free,
      other ≠ id ∧ other ∈ (s.world.procs target).free := by
    intro other isFree
    rcases name with ⟨free, _⟩ | ⟨_, none, _, _⟩
    · have nodup : (s.world.procs target).free.Nodup := accounted.exclusive.nodup (.free target)
      rw [free] at nodup ⊢
      exact ⟨fun equal => (List.nodup_cons.mp nodup).1 (equal ▸ isFree), List.mem_cons_of_mem id isFree⟩
    · rw [none] at isFree
      cases isFree
  have exclusive : Exclusive (w.drawer loose) := by
    rcases name with ⟨free, _⟩ | ⟨none, none', rfl, _⟩
    · refine accounted.exclusive.transfer (Ne.symm (elsewhere target)) (first free) ?_ put same
      show (w.procs target).free = (s.world.procs target).free.erase id
      rw [free, List.erase_cons_head]
    · refine accounted.exclusive.insert (fun drawer listed => lt_irrefl _ (accounted.allocated drawer _ listed))
        put fun drawer away => ?_
      by_cases own : drawer = .free target
      · subst own
        show (w.procs target).free = (s.world.procs target).free
        rw [none, none']
      · exact same drawer own away
  have own : id < w.next := by
    rcases name with ⟨free, _⟩ | ⟨_, _, rfl, grown⟩
    · exact Nat.lt_of_lt_of_le (accounted.allocated (.free target) id (first free)) next
    · omega
  refine accounted.acquire limit valid few size exclusive ?_ next own ?_ (Or.inr ⟨nobody, used⟩)
    others ?_
  · intro drawer other member
    by_cases here : drawer = place
    · subst here
      rcases List.mem_cons.mp (put.mem_iff.mp member) with rfl | before
      · exact own
      · exact Nat.lt_of_lt_of_le (accounted.allocated drawer other before) next
    · by_cases second : drawer = .free target
      · subst second
        exact Nat.lt_of_lt_of_le (accounted.allocated (.free target) other (freeKept other member).2) next
      · rw [same drawer second here] at member
        exact Nat.lt_of_lt_of_le (accounted.allocated drawer other member) next
  · intro other small different
    rcases name with ⟨_, same⟩ | ⟨_, _, rfl, grown⟩ <;> omega
  · intro rank other isFree
    by_cases own : rank = target
    · subst own
      exact freeKept other isFree
    · have away : Drawer.free rank ≠ .free target := by simpa using own
      have kept : w.drawer loose (.free rank) = s.drawer (.free rank) := same _ away (elsewhere rank).symm
      have before : other ∈ s.drawer (.free rank) := kept ▸ isFree
      exact ⟨fun equal => fresh _ away (equal ▸ before), before⟩

/-- `process::recv_request`. -/
theorem recvRequest (accounted : Accounted n s) (limit : n ≤ 10000) (valid : self < n) {buf : Loc}
    {count : Int} {iovec : Iovec} {source tag : Int}
    (performed : s.perform (.recvRequest self buf count iovec source tag) = some s') :
    Accounted n s' := by
  simp only [Threads.perform, Umpi.recvRequest] at performed
  split at performed
  case h_1 id found =>
    obtain ⟨few, rfl⟩ := Threads.acquire_eq_some performed
    have listed : id ∈ s.drawer (.inbox self) := List.mem_of_find?_eq_some found
    refine accounted.found limit valid few (Or.inl rfl) listed rfl rfl ?_ ?_ ?_ ?_ ?_
    · simp [World.drawer]
    · simp [World.drawer]
    · intro drawer notInbox notPending
      cases drawer with
      | loose => rfl
      | free rank | inbox rank | outbox rank | pending rank =>
          by_cases own : rank = self <;> simp_all [World.drawer]
    · simp
    · intro other different
      simp [different]
  case h_2 =>
    obtain ⟨few, rfl⟩ := Threads.acquire_eq_some performed
    refine accounted.created limit (.outbox self) self valid few (by simp) ?_ ?_ ?_ ?_ ?_ ?_
    · simp
    · simpa using createRequest_name s.world self _
    · simp [World.drawer]
    · intro drawer notFree notOutbox
      cases drawer with
      | loose => rfl
      | free rank | inbox rank | outbox rank | pending rank =>
          by_cases own : rank = self <;> simp_all [World.drawer]
    · simp
    · intro other different
      rw [World.createRequest_fst] at different
      simp [different]

/-- `process::send_request`. -/
theorem sendRequest (accounted : Accounted n s) (limit : n ≤ 10000) (valid : self < n) {dest : Nat}
    {buf : Loc} {count : Int} {iovec : Iovec} {tag : Int}
    (performed : s.perform (.sendRequest self dest buf count iovec tag) = some s') :
    Accounted n s' := by
  simp only [Threads.perform, Umpi.sendRequest] at performed
  split at performed
  case isTrue => cases performed
  case isFalse =>
    split at performed
    case h_1 id found =>
      obtain ⟨few, rfl⟩ := Threads.acquire_eq_some performed
      have listed : id ∈ s.drawer (.outbox dest) := List.mem_of_find?_eq_some found
      refine accounted.found limit valid few (Or.inr rfl) listed rfl rfl ?_ ?_ ?_ ?_ ?_
      · simp [World.drawer]
      · simp [World.drawer]
      · intro drawer notOutbox notPending
        cases drawer with
        | loose => rfl
        | free rank | inbox rank | outbox rank | pending rank =>
            by_cases own : rank = dest <;> simp_all [World.drawer]
      · simp
      · intro other different
        simp [different]
    case h_2 =>
      obtain ⟨few, rfl⟩ := Threads.acquire_eq_some performed
      refine accounted.created limit (.inbox dest) dest valid few (by simp) ?_ ?_ ?_ ?_ ?_ ?_
      · simp
      · simpa using createRequest_name s.world dest _
      · simp [World.drawer]
      · intro drawer notFree notInbox
        cases drawer with
        | loose => rfl
        | free rank | inbox rank | outbox rank | pending rank =>
            by_cases own : rank = dest <;> simp_all [World.drawer]
      · simp
      · intro other different
        rw [World.createRequest_fst] at different
        simp [different]

/-- `create_request_locked`. -/
theorem createRequest (accounted : Accounted n s) (limit : n ≤ 10000) (valid : self < n) {buf : Loc}
    {iovec : Iovec} {size count num : Int}
    (performed : s.perform (.createRequest self buf iovec size count num) = some s') :
    Accounted n s' := by
  simp only [Threads.perform] at performed
  split at performed
  case isFalse => cases performed
  case isTrue =>
    obtain ⟨few, rfl⟩ := Threads.acquire_eq_some performed
    refine accounted.created limit .loose self valid few (by simp) ?_ ?_ ?_ ?_ ?_ ?_
    · simp
    · simpa using createRequest_name s.world self _
    · exact List.Perm.refl _
    · intro drawer notFree notLoose
      cases drawer with
      | loose => exact absurd rfl notLoose
      | free rank | inbox rank | outbox rank | pending rank =>
          by_cases own : rank = self <;> simp_all [World.drawer]
    · simp
    · intro other different
      rw [World.createRequest_fst] at different
      simp [different]

/-- A step that neither moves cookies nor changes handles. -/
theorem kept (accounted : Accounted n s) {after : Threads} (handles : after.handles = s.handles)
    (size : after.world.size = s.world.size) (next : after.world.next = s.world.next)
    (drawers : after.drawer = s.drawer)
    (used : ∀ id, (after.world.cookies id).used = (s.world.cookies id).used) : Accounted n after where
  size := size.trans accounted.size
  exclusive := drawers ▸ accounted.exclusive
  allocated := by
    rw [drawers, next]
    exact accounted.allocated
  handled := by
    rw [handles, next]
    exact accounted.handled
  beyond := handles ▸ accounted.beyond
  few := handles ▸ accounted.few
  used := by
    intro id old
    rw [used, handles]
    exact accounted.used id (next ▸ old)
  free := by
    intro rank id isFree holder
    rw [handles]
    have before : id ∈ s.drawer (.free rank) := by
      rw [← drawers]
      exact isFree
    exact accounted.free rank id before holder

/-- `cookie::join`. -/
theorem join (accounted : Accounted n s) (limit : n ≤ 10000) (valid : self < n)
    (performed : s.perform (.join self id) = some s') : Accounted n s' := by
  simp only [Threads.perform] at performed
  split at performed
  case isFalse => cases performed
  case isTrue listed =>
    obtain ⟨few, rfl⟩ := Threads.acquire_eq_some performed
    have held : id ∈ s.drawer .loose := listed
    have old : id < s.world.next := accounted.allocated .loose id held
    have drawers : (s.world.join id).drawer s.loose = s.drawer := by
      funext drawer
      cases drawer <;> rfl
    refine accounted.acquire limit valid few rfl (drawers ▸ accounted.exclusive)
      (drawers ▸ accounted.allocated) (Nat.le_refl _) old (fun other small _ => small)
      (Or.inl ⟨old, by simp⟩) (fun other different => by simp [different]) ?_
    intro rank other isFree
    refine ⟨?_, isFree⟩
    rintro rfl
    have free : other ∈ s.drawer (.free rank) := isFree
    cases accounted.exclusive.eq_of_mem held free

/-- `process::move_to_pending`. -/
theorem moveToPending (accounted : Accounted n s)
    (performed : s.perform (.moveToPending self id) = some s') : Accounted n s' := by
  simp only [Threads.perform] at performed
  split at performed
  case isFalse => cases performed
  case isTrue listed =>
    obtain rfl := Option.some.inj performed
    obtain ⟨owner, names⟩ : ∃ owner, (s.world.cookies id).owner = owner := ⟨_, rfl⟩
    have taken : (s.world.moveToPending id).drawer (s.loose.erase id) .loose =
        (s.drawer .loose).erase id := rfl
    have put : (s.world.moveToPending id).drawer (s.loose.erase id) (.pending owner) =
        id :: s.drawer (.pending owner) := by
      simp [World.drawer, World.moveToPending, names]
    have same : ∀ drawer, drawer ≠ .loose → drawer ≠ .pending owner →
        (s.world.moveToPending id).drawer (s.loose.erase id) drawer = s.drawer drawer := by
      intro drawer notLoose notPending
      cases drawer with
      | loose => exact absurd rfl notLoose
      | free rank | inbox rank | outbox rank | pending rank =>
          by_cases own : rank = owner <;> simp_all [World.drawer, World.moveToPending]
    refine
      { size := accounted.size
        exclusive := accounted.exclusive.transfer (by simp) listed taken (put ▸ List.Perm.refl _) same
        allocated := ?_, handled := accounted.handled, beyond := accounted.beyond, few := accounted.few
        used := accounted.used, free := ?_ }
    · intro drawer other member
      by_cases loose : drawer = .loose
      · subst loose
        exact accounted.allocated .loose other (List.mem_of_mem_erase member)
      · by_cases pending : drawer = .pending owner
        · subst pending
          have either : other ∈ id :: s.drawer (.pending owner) := put ▸ member
          rcases List.mem_cons.mp either with rfl | before
          · exact accounted.allocated .loose _ listed
          · exact accounted.allocated _ other before
        · exact accounted.allocated drawer other (same drawer loose pending ▸ member)
    · intro rank other isFree
      have free : other ∈ s.drawer (.free rank) := same (.free rank) (by simp) (by simp) ▸ isFree
      exact accounted.free rank other free

/-- `process::finalize`: what goes from `pending_` to `free_` has no handles left. -/
theorem finalize (accounted : Accounted n s) (limit : n ≤ 10000) (valid : self < n)
    (performed : s.perform (.finalize self id) = some s') : Accounted n s' := by
  simp only [Threads.perform] at performed
  split at performed
  case isFalse => cases performed
  case isTrue held =>
    obtain rfl := Option.some.inj performed
    obtain ⟨owner, names⟩ : ∃ owner, (s.world.cookies id).owner = owner := ⟨_, rfl⟩
    have count := handleCount_update s.handles valid ((s.handles self).erase id)
    have inHand : ∀ rank other,
        other ∈ Function.update s.handles self ((s.handles self).erase id) rank → other ∈ s.handles rank := by
      intro rank other listed
      by_cases same : rank = self
      · subst same
        exact List.mem_of_mem_erase (by simpa using listed)
      · simpa [same] using listed
    have beyond : ∀ rank, n ≤ rank →
        Function.update s.handles self ((s.handles self).erase id) rank = [] := by
      intro rank outside
      have different : rank ≠ self := by omega
      simpa [different] using accounted.beyond rank outside
    have used : ∀ other < s.world.next, ((s.world.finalize id).cookies other).used =
        handleCount n (Function.update s.handles self ((s.handles self).erase id)) other := by
      intro other old
      have total := count other
      have bound := handleCount_le (n := n) s.handles other
        fun rank _ => accounted.few rank other
      by_cases this : other = id
      · subst this
        have positive := List.count_pos_iff.mpr held
        rw [List.count_erase_self] at total
        rw [World.finalize_cookies, Function.update_self]
        dsimp only
        rw [accounted.used other old, int16_of_range (by omega) (by omega)]
        omega
      · rw [List.count_erase_of_ne this] at total
        rw [World.finalize_cookies, Function.update_of_ne this, accounted.used other old]
        omega
    have same : ∀ drawer, drawer ≠ .pending owner → drawer ≠ .free owner →
        (s.world.finalize id).drawer s.loose drawer = s.drawer drawer := by
      intro drawer notPending notFree
      cases drawer with
      | loose => rfl
      | free rank | inbox rank | outbox rank | pending rank =>
          by_cases own : rank = owner <;> simp_all [World.drawer, World.finalize]
    have fits : ([Drawer.pending owner, .free owner].flatMap
        ((s.world.finalize id).drawer s.loose)).Subperm
        ([Drawer.pending owner, .free owner].flatMap s.drawer) := by
      simpa [World.drawer, names] using finalize_fits s.world id
    have origin : ∀ drawer, ∀ other ∈ (s.world.finalize id).drawer s.loose drawer,
        ∃ before, other ∈ s.drawer before := by
      intro drawer other member
      by_cases listed : drawer ∈ [Drawer.pending owner, .free owner]
      · obtain ⟨before, _, inside⟩ :=
          List.mem_flatMap.mp (fits.subset (List.mem_flatMap.mpr ⟨drawer, listed, member⟩))
        exact ⟨before, inside⟩
      · obtain ⟨notPending, notFree⟩ : drawer ≠ .pending owner ∧ drawer ≠ .free owner := by simpa using listed
        exact ⟨drawer, same drawer notPending notFree ▸ member⟩
    refine
      { size := accounted.size
        exclusive := accounted.exclusive.rearrange [.pending owner, .free owner] (by simp) [] List.nodup_nil
          (fun _ other none => absurd none List.not_mem_nil) (fun drawer unlisted => ?_)
          (by rwa [List.append_nil])
        allocated := fun drawer other member => ?_
        handled := fun rank other listed => accounted.handled rank other (inHand rank other listed)
        beyond := beyond, few := fun rank other => ?_, used := used
        free := fun rank other isFree holder listed => ?_ }
    · obtain ⟨notPending, notFree⟩ : drawer ≠ .pending owner ∧ drawer ≠ .free owner := by simpa using unlisted
      exact same drawer notPending notFree
    · obtain ⟨before, inside⟩ := origin drawer other member
      exact accounted.allocated before other inside
    · by_cases own : rank = self
      · subst own
        have few := accounted.few rank other
        have smaller := (List.erase_sublist (a := id) (l := s.handles rank)).count_le other
        simpa using Nat.le_trans smaller few
      · simpa [own] using accounted.few rank other
    · rcases finalize_free s.world id isFree with before | ⟨waited, unused⟩
      · exact accounted.free rank other before holder (inHand holder other listed)
      · have old := accounted.allocated (.pending rank) other waited
        rw [used other old] at unused
        have small : holder < n := by
          by_contra outside
          have none : other ∈ ([] : List Nat) := beyond holder (Nat.le_of_not_lt outside) ▸ listed
          cases none
        exact notMem_of_handleCount (by exact_mod_cast unused) small listed

/-- What a process changes of its own moves no cookies. -/
theorem personal (accounted : Accounted n s) (personal : Threads.Personal self s s') : Accounted n s' :=
  accounted.kept personal.handles personal.size personal.next personal.drawer fun id => by
    rw [personal.cookies]

/-- A critical section. -/
theorem perform (accounted : Accounted n s) (limit : n ≤ 10000) {critical : Critical}
    (valid : critical.actor < n) (performed : s.perform critical = some s') : Accounted n s' := by
  cases critical with
  | recvRequest self buf count iovec source tag => exact accounted.recvRequest limit valid performed
  | sendRequest self dest buf count iovec tag => exact accounted.sendRequest limit valid performed
  | createRequest self buf iovec size count num => exact accounted.createRequest limit valid performed
  | join self id => exact accounted.join limit valid performed
  | moveToPending self id => exact accounted.moveToPending performed
  | notifyDone self id err =>
      obtain rfl := Option.some.inj performed
      refine accounted.kept rfl rfl rfl ?_ fun other => ?_
      · funext drawer
        cases drawer with
        | loose => rfl
        | free rank | inbox rank | outbox rank | pending rank =>
            by_cases own : rank = (s.world.cookies id).owner <;>
              simp [World.drawer, World.notifyDone, own]
      · by_cases this : other = id <;> simp [this]
  | finalize self id => exact accounted.finalize limit valid performed
  | wait self id =>
      simp only [Threads.perform] at performed
      split at performed
      · obtain rfl := Option.some.inj performed
        exact accounted.personal ((Threads.Personal.setWaiting s self _ _).trans (.waitLoop _ self id))
      · cases performed
  | waitAny self cookies =>
      simp only [Threads.perform] at performed
      split at performed
      · obtain rfl := Option.some.inj performed
        exact accounted.personal ((Threads.Personal.setWaiting s self _ _).trans (.waitAnyLoop _ self cookies))
      · cases performed
  | probe self source tag =>
      obtain rfl := Option.some.inj performed
      exact accounted.personal ((Threads.Personal.setWaiting s self _ _).trans (.probeLoop _ self _ _ _))
  | resume self => cases performed

/-- A step of the threads. -/
theorem step (accounted : Accounted n s) (limit : n ≤ 10000) {critical : Critical}
    (stepped : s.step critical = some s') : Accounted n s' := by
  rcases Threads.step_cases stepped with ⟨self, rfl, woken⟩ | ⟨valid, _, performed⟩
  · exact accounted.personal (.wakeUp woken)
  · exact accounted.perform limit (accounted.size ▸ valid) performed

end Accounted

/-! ### What the others do to a sleeper -/

/-- A step that `rank` takes no part in: its handles and the cookies on which it has one are as before, and if
    it waits for messages, whatever comes into its `inbox_` comes with a notification. -/
structure Threads.Unaware (s s' : Threads) (rank : Nat) : Prop where
  asleep : s'.asleep rank = s.asleep rank
  handles : s'.handles rank = s.handles rank
  waiting : (s'.world.procs rank).waiting = (s.world.procs rank).waiting
  waitingFor : (s'.world.procs rank).waitingFor = (s.world.procs rank).waitingFor
  owner : ∀ id ∈ s.handles rank, (s'.world.cookies id).owner = (s.world.cookies id).owner
  busy : ∀ id ∈ s.handles rank, (s'.world.cookies id).busy = (s.world.cookies id).busy
  signals :
    (s'.world.procs rank).signals = (s.world.procs rank).signals ∧
        ((s.world.procs rank).waitingFor = .incoming →
          (s'.world.procs rank).inbox = (s.world.procs rank).inbox) ∨
      (s.world.procs rank).waitingFor = .incoming ∧
        (s'.world.procs rank).signals = (s.world.procs rank).signals + 1

namespace Threads.Unaware

variable {s s' : Threads} {self rank : Nat}

/-- A step that does not touch `signals`, `inbox_`, `waiting_` and `waiting_for_` of the process. -/
theorem quiet (asleep : s'.asleep rank = s.asleep rank) (handles : s'.handles rank = s.handles rank)
    (waiting : (s'.world.procs rank).waiting = (s.world.procs rank).waiting)
    (waitingFor : (s'.world.procs rank).waitingFor = (s.world.procs rank).waitingFor)
    (signals : (s'.world.procs rank).signals = (s.world.procs rank).signals)
    (inbox : (s'.world.procs rank).inbox = (s.world.procs rank).inbox)
    (cookies : ∀ id ∈ s.handles rank, (s'.world.cookies id).owner = (s.world.cookies id).owner ∧
      (s'.world.cookies id).busy = (s.world.cookies id).busy) : Unaware s s' rank where
  asleep := asleep
  handles := handles
  waiting := waiting
  waitingFor := waitingFor
  owner id listed := (cookies id listed).1
  busy id listed := (cookies id listed).2
  signals := Or.inl ⟨signals, fun _ => inbox⟩

/-- What another process does of its own. -/
theorem of_personal (personal : Personal self s s') (other : rank ≠ self) : Unaware s s' rank := by
  have process := personal.procs rank other
  refine quiet (personal.asleep rank other) (by rw [personal.handles]) ?_ ?_ ?_ ?_ fun id _ => ?_
  · rw [process]
  · rw [process]
  · rw [process]
  · rw [process]
  · rw [personal.cookies]
    exact ⟨rfl, rfl⟩

end Threads.Unaware

namespace Accounted

variable {n : Nat} {s s' : Threads} {self rank : Nat}

/-- A cookie that is made anew is nobody's. -/
theorem fresh (accounted : Accounted n s) (process : Nat) (cookie : Cookie) (holder : Nat) :
    (s.world.createRequest process cookie).1 ∉ s.handles holder := by
  rcases createRequest_name s.world process cookie with ⟨free, _⟩ | ⟨_, _, name, _⟩
  · exact accounted.free process _ (free ▸ List.mem_cons_self) holder
  · rw [name]
    exact fun listed => lt_irrefl _ (accounted.handled holder _ listed)

/-- Making a cookie anew leaves the cookies with handles alone. -/
theorem createRequest_handled (accounted : Accounted n s) (process : Nat) (cookie : Cookie) {holder id : Nat}
    (listed : id ∈ s.handles holder) :
    (s.world.createRequest process cookie).2.cookies id = s.world.cookies id := by
  have different : id ≠ (s.world.createRequest process cookie).1 := by
    rintro rfl
    exact accounted.fresh process cookie holder listed
  rw [World.createRequest_cookies, Function.update_of_ne different]

/-- A critical section of another process, `notify_done` apart. -/
theorem unaware (accounted : Accounted n s) {critical : Critical} (other : rank ≠ critical.actor)
    (silent : ∀ self id err, critical ≠ .notifyDone self id err) (performed : s.perform critical = some s') :
    Threads.Unaware s s' rank := by
  cases critical with
  | recvRequest self buf count iovec source tag =>
      have other : rank ≠ self := other
      simp only [Threads.perform, Umpi.recvRequest] at performed
      split at performed
      case h_1 id found =>
        obtain ⟨_, rfl⟩ := Threads.acquire_eq_some performed
        refine .quiet rfl ?_ ?_ ?_ ?_ ?_ fun kept _ => ?_
        · simp [other]
        · simp [other]
        · simp [other]
        · simp [other]
        · simp [other]
        · by_cases same : kept = id <;> simp [same]
      case h_2 =>
        obtain ⟨_, rfl⟩ := Threads.acquire_eq_some performed
        refine .quiet rfl ?_ ?_ ?_ ?_ ?_ fun kept listed => ?_
        · simp [other]
        · simp [other]
        · simp [other]
        · simp [other]
        · simp [other]
        · simp [accounted.createRequest_handled self _ listed]
  | sendRequest self dest buf count iovec tag =>
      have other : rank ≠ self := other
      simp only [Threads.perform, Umpi.sendRequest] at performed
      split at performed
      · cases performed
      · split at performed
        case h_1 id found =>
          obtain ⟨_, rfl⟩ := Threads.acquire_eq_some performed
          refine .quiet rfl ?_ ?_ ?_ ?_ ?_ fun kept _ => ?_
          · simp [other]
          · by_cases own : rank = dest <;> simp [own]
          · by_cases own : rank = dest <;> simp [own]
          · by_cases own : rank = dest <;> simp [own]
          · by_cases own : rank = dest <;> simp [own]
          · by_cases same : kept = id <;> simp [same]
        case h_2 =>
          obtain ⟨_, rfl⟩ := Threads.acquire_eq_some performed
          refine
            { asleep := rfl, handles := by simp [other], waiting := ?_, waitingFor := ?_
              owner := fun kept listed => ?_, busy := fun kept listed => ?_, signals := ?_ }
          · by_cases own : rank = dest <;> simp [own]
          · by_cases own : rank = dest <;> simp [own]
          · simp [accounted.createRequest_handled dest _ listed]
          · simp [accounted.createRequest_handled dest _ listed]
          · by_cases own : rank = dest
            · subst own
              by_cases waits : (s.world.procs rank).waitingFor = .incoming <;> simp [waits]
            · simp [own]
  | createRequest self buf iovec size count num =>
      have other : rank ≠ self := other
      simp only [Threads.perform] at performed
      split at performed
      · obtain ⟨_, rfl⟩ := Threads.acquire_eq_some performed
        refine .quiet rfl (by simp [other]) (by simp [other]) (by simp [other]) (by simp [other])
          (by simp [other]) fun kept listed => ?_
        simp [accounted.createRequest_handled self _ listed]
      · cases performed
  | join self id =>
      have other : rank ≠ self := other
      simp only [Threads.perform] at performed
      split at performed
      · obtain ⟨_, rfl⟩ := Threads.acquire_eq_some performed
        refine .quiet rfl (by simp [other]) rfl rfl rfl rfl fun kept _ => ?_
        by_cases same : kept = id <;> simp [same]
      · cases performed
  | moveToPending self id =>
      simp only [Threads.perform] at performed
      split at performed
      · obtain rfl := Option.some.inj performed
        by_cases own : rank = (s.world.cookies id).owner
        · refine .quiet rfl rfl ?_ ?_ ?_ ?_ fun _ _ => ⟨rfl, rfl⟩ <;> simp [World.moveToPending, own]
        · refine .quiet rfl rfl ?_ ?_ ?_ ?_ fun _ _ => ⟨rfl, rfl⟩ <;> simp [World.moveToPending, own]
      · cases performed
  | notifyDone self id err => exact absurd rfl (silent self id err)
  | finalize self id =>
      have other : rank ≠ self := other
      simp only [Threads.perform] at performed
      split at performed
      · obtain rfl := Option.some.inj performed
        have cookies : ∀ kept, ((s.world.finalize id).cookies kept).owner = (s.world.cookies kept).owner ∧
            ((s.world.finalize id).cookies kept).busy = (s.world.cookies kept).busy := by
          intro kept
          by_cases same : kept = id <;> simp [same]
        by_cases own : rank = (s.world.cookies id).owner
        · refine .quiet rfl (by simp [other]) ?_ ?_ ?_ ?_ fun kept _ => cookies kept <;>
            simp [World.finalize, own]
        · refine .quiet rfl (by simp [other]) ?_ ?_ ?_ ?_ fun kept _ => cookies kept <;> simp [own]
      · cases performed
  | wait self id =>
      simp only [Threads.perform] at performed
      split at performed
      · obtain rfl := Option.some.inj performed
        exact .of_personal ((Threads.Personal.setWaiting s self _ _).trans (.waitLoop _ self id)) other
      · cases performed
  | waitAny self cookies =>
      simp only [Threads.perform] at performed
      split at performed
      · obtain rfl := Option.some.inj performed
        exact .of_personal ((Threads.Personal.setWaiting s self _ _).trans (.waitAnyLoop _ self cookies)) other
      · cases performed
  | probe self source tag =>
      obtain rfl := Option.some.inj performed
      exact .of_personal ((Threads.Personal.setWaiting s self _ _).trans (.probeLoop _ self _ _ _)) other
  | resume self => cases performed

end Accounted

/-! ### Sleepers -/

namespace Threads

/-- What a sleeper has told the notifiers, and what it has a handle on. -/
def Registered (s : Threads) (rank : Nat) : Waiter → Prop
  | .wait id =>
      (s.world.procs rank).waitingFor = .cookie ∧ (s.world.procs rank).waiting = some id ∧
        id ∈ s.handles rank ∧ (s.world.cookies id).owner = rank
  | .waitAny cookies =>
      (s.world.procs rank).waitingFor = .anyCookie ∧
        ∀ cookie ∈ cookies, ∀ id ∈ cookie, id ∈ s.handles rank ∧ (s.world.cookies id).owner = rank
  | .probe _ _ => (s.world.procs rank).waitingFor = .incoming

/-- What a sleeper waits for has not happened since it went to sleep. -/
def StillWaits (s : Threads) (rank : Nat) (sleep : Asleep) : Prop :=
  match sleep.waiter with
  | .wait id => (s.world.cookies id).busy ≠ 0
  | .waitAny cookies => ∀ cookie ∈ cookies, ∀ id ∈ cookie, (s.world.cookies id).busy ≠ 0
  | .probe _ _ => (s.world.procs rank).inbox = sleep.inbox

/-- Every sleeper that has not been notified since it went to sleep still waits. -/
def Justified (s : Threads) : Prop :=
  ∀ rank sleep, s.asleep rank = some sleep → (s.world.procs rank).signals = sleep.signals →
    s.StillWaits rank sleep

/-- The last notification of a cookie comes while no process sleeps in `wait_any(count, cookies)` on it. -/
def Spares (s : Threads) : Critical → Prop
  | .notifyDone _ id _ =>
      (s.world.cookies id).busy = 1 →
        ∀ rank sleep cookies, s.asleep rank = some sleep → sleep.waiter = .waitAny cookies → some id ∉ cookies
  | _ => True

/-- What is known of a process that sleeps. A process in `wait_any(count, cookies)` has had no notification. -/
structure Dozing (s : Threads) (rank : Nat) (sleep : Asleep) : Prop where
  registered : s.Registered rank sleep.waiter
  since : sleep.signals ≤ (s.world.procs rank).signals
  waits : (s.world.procs rank).signals = sleep.signals → s.StillWaits rank sleep
  ignored : ∀ cookies, sleep.waiter = .waitAny cookies → (s.world.procs rank).signals = sleep.signals

namespace Dozing

variable {s s' : Threads} {rank : Nat} {sleep : Asleep}

/-- A step the sleeper takes no part in. -/
theorem unaware (dozing : Dozing s rank sleep) (unaware : Unaware s s' rank) : Dozing s' rank sleep := by
  obtain ⟨waiter, signals, inbox⟩ := sleep
  have since := dozing.since
  cases waiter with
  | wait id =>
      obtain ⟨waitingFor, waiting, handle, owner⟩ := dozing.registered
      refine
        { registered := ⟨unaware.waitingFor.trans waitingFor, unaware.waiting.trans waiting,
            unaware.handles ▸ handle, (unaware.owner id handle).trans owner⟩
          since := ?_, waits := fun equal => ?_, ignored := fun cookies impossible => by cases impossible }
      · rcases unaware.signals with ⟨same, _⟩ | ⟨_, more⟩ <;> omega
      · have same : (s.world.procs rank).signals = signals := by
          rcases unaware.signals with ⟨same, _⟩ | ⟨_, more⟩ <;> dsimp only at * <;> omega
        exact fun done => dozing.waits same ((unaware.busy id handle).symm.trans done)
  | waitAny cookies =>
      obtain ⟨waitingFor, handles⟩ := dozing.registered
      have same : (s'.world.procs rank).signals = (s.world.procs rank).signals := by
        rcases unaware.signals with ⟨same, _⟩ | ⟨incoming, _⟩
        · exact same
        · rw [waitingFor] at incoming
          cases incoming
      refine
        { registered := ⟨unaware.waitingFor.trans waitingFor, fun cookie listed id isId => ?_⟩
          since := since.trans_eq same.symm, waits := fun equal cookie listed id isId => ?_
          ignored := fun _ isWaiter => same.trans (dozing.ignored _ isWaiter) }
      · obtain ⟨handle, owner⟩ := handles cookie listed id isId
        exact ⟨unaware.handles ▸ handle, (unaware.owner id handle).trans owner⟩
      · rw [unaware.busy id (handles cookie listed id isId).1]
        exact dozing.waits (same.symm.trans equal) cookie listed id isId
  | probe source tag =>
      have incoming : (s.world.procs rank).waitingFor = .incoming := dozing.registered
      refine
        { registered := unaware.waitingFor.trans incoming, since := ?_, waits := fun equal => ?_
          ignored := fun cookies impossible => by cases impossible }
      · rcases unaware.signals with ⟨same, _⟩ | ⟨_, more⟩ <;> omega
      · rcases unaware.signals with ⟨same, quiet⟩ | ⟨_, more⟩
        · exact (quiet incoming).trans (dozing.waits (same.symm.trans equal))
        · dsimp only at *
          omega

/-- `notify_done`: the owner is notified if it sleeps in `wait(cookie)` on the cookie and there is nothing
    more to come. -/
theorem notifyDone (dozing : Dozing s rank sleep) {id : Nat} {err : Int}
    (world : s'.world = s.world.notifyDone id err) (handles : s'.handles = s.handles)
    (spared : ∀ cookies, sleep.waiter = .waitAny cookies → int16 ((s.world.cookies id).busy - 1) = 0 →
      some id ∉ cookies) : Dozing s' rank sleep := by
  obtain ⟨waiter, signals, inbox⟩ := sleep
  have since := dozing.since
  have waitingFor : (s'.world.procs rank).waitingFor = (s.world.procs rank).waitingFor := by
    by_cases own : rank = (s.world.cookies id).owner <;> simp [world, World.notifyDone, own]
  have waiting : (s'.world.procs rank).waiting = (s.world.procs rank).waiting := by
    by_cases own : rank = (s.world.cookies id).owner <;> simp [world, World.notifyDone, own]
  have owner : ∀ other, (s'.world.cookies other).owner = (s.world.cookies other).owner := by
    intro other
    by_cases same : other = id <;> simp [world, same]
  have inboxKept : (s'.world.procs rank).inbox = (s.world.procs rank).inbox := by
    by_cases own : rank = (s.world.cookies id).owner <;> simp [world, World.notifyDone, own]
  have busy : ∀ other ≠ id, (s'.world.cookies other).busy = (s.world.cookies other).busy := by
    intro other different
    simp [world, different]
  have busyHere : (s'.world.cookies id).busy = int16 ((s.world.cookies id).busy - 1) := by
    simp [world]
  have wakes : rank = (s.world.cookies id).owner → int16 ((s.world.cookies id).busy - 1) = 0 →
      (s.world.procs rank).waitingFor = .cookie → (s.world.procs rank).waiting = some id →
      (s'.world.procs rank).signals = (s.world.procs rank).signals + 1 := by
    rintro rfl done isCookie isId
    simp [world, World.notifyDone, done, isCookie, isId]
  have silent : (s.world.procs rank).waitingFor ≠ .cookie →
      (s'.world.procs rank).signals = (s.world.procs rank).signals := by
    intro notCookie
    by_cases own : rank = (s.world.cookies id).owner
    · subst own
      simp [world, World.notifyDone, notCookie]
    · simp [world, World.notifyDone, own]
  have grows : (s.world.procs rank).signals ≤ (s'.world.procs rank).signals := by
    by_cases own : rank = (s.world.cookies id).owner
    · subst own
      simp only [world, World.notifyDone, World.setProc_procs, Function.update_self]
      split <;> omega
    · simp [world, World.notifyDone, own]
  cases waiter with
  | wait awaited =>
      obtain ⟨isCookie, isAwaited, handle, owned⟩ := dozing.registered
      refine
        { registered := ⟨waitingFor.trans isCookie, waiting.trans isAwaited, handles ▸ handle,
            (owner awaited).trans owned⟩
          since := Nat.le_trans since grows, waits := fun equal done => ?_
          ignored := fun cookies impossible => by cases impossible }
      dsimp only at since equal done
      by_cases this : awaited = id
      · subst this
        have woken := wakes owned.symm (busyHere.symm.trans done) isCookie isAwaited
        omega
      · refine dozing.waits ?_ ((busy awaited this).symm.trans done)
        dsimp only
        omega
  | waitAny cookies =>
      obtain ⟨isAny, held⟩ := dozing.registered
      have same := silent (by rw [isAny]; decide)
      refine
        { registered := ⟨waitingFor.trans isAny, fun cookie listed awaited isAwaited => ?_⟩
          since := since.trans_eq same.symm, waits := fun equal cookie listed awaited isAwaited => ?_
          ignored := fun _ isWaiter => same.trans (dozing.ignored _ isWaiter) }
      · obtain ⟨handle, owned⟩ := held cookie listed awaited isAwaited
        exact ⟨handles ▸ handle, (owner awaited).trans owned⟩
      · by_cases this : awaited = id
        · subst this
          rw [busyHere]
          intro done
          cases isAwaited
          exact spared cookies rfl done listed
        · rw [busy awaited this]
          exact dozing.waits (same.symm.trans equal) cookie listed awaited isAwaited
  | probe source tag =>
      have incoming : (s.world.procs rank).waitingFor = .incoming := dozing.registered
      have same := silent (by rw [incoming]; decide)
      exact
        { registered := waitingFor.trans incoming, since := since.trans_eq same.symm
          waits := fun equal => inboxKept.trans (dozing.waits (same.symm.trans equal))
          ignored := fun cookies impossible => by cases impossible }

end Dozing

/-! ### Going to sleep -/

variable {s s' : Threads} {self : Nat} {sleep : Asleep}

theorem waitLoop_asleep {id : Nat} (registered : s.Registered self (.wait id))
    (asleep : (s.waitLoop self id).asleep self = some sleep) : Dozing (s.waitLoop self id) self sleep := by
  unfold waitLoop at asleep ⊢
  split at asleep
  case isTrue busy =>
    obtain rfl : _ = sleep := by simpa [Threads.sleep] using asleep
    rw [if_pos busy]
    exact
      { registered := registered, since := Nat.le_refl _, waits := fun _ => busy
        ignored := fun cookies impossible => by cases impossible }
  case isFalse => simp [finish] at asleep

theorem waitAnyLoop_asleep {cookies : List (Option Nat)} (registered : s.Registered self (.waitAny cookies))
    (asleep : (s.waitAnyLoop self cookies).asleep self = some sleep) :
    Dozing (s.waitAnyLoop self cookies) self sleep := by
  unfold waitAnyLoop at asleep ⊢
  split at asleep
  case h_1 => simp [finish] at asleep
  case h_2 none =>
    obtain rfl : _ = sleep := by simpa [Threads.sleep] using asleep
    have busy := List.findIdx?_eq_none_iff.mp none
    exact
      { registered := registered, since := Nat.le_refl _
        waits := fun _ cookie listed id isId => by
          cases isId
          have notDone : (s.world.cookies id).busy ≠ 0 := by simpa using busy (some id) listed
          exact notDone
        ignored := fun _ _ => rfl }

theorem probeLoop_asleep {seen : Nat} {source tag : Int} (registered : s.Registered self (.probe source tag))
    (asleep : (s.probeLoop self seen source tag).asleep self = some sleep) :
    Dozing (s.probeLoop self seen source tag) self sleep := by
  unfold probeLoop at asleep ⊢
  split at asleep
  case h_1 => simp [finish] at asleep
  case h_2 none =>
    obtain rfl : _ = sleep := by simpa [Threads.sleep] using asleep
    exact
      { registered := registered, since := Nat.le_refl _, waits := fun _ => rfl
        ignored := fun cookies impossible => by cases impossible }

/-- A sleeper that goes on and sleeps again. -/
theorem wakeUp_asleep {before : Asleep} (wasAsleep : s.asleep self = some before)
    (dozing : Dozing s self before) (woken : s.wakeUp self = some s')
    (asleep : s'.asleep self = some sleep) : Dozing s' self sleep := by
  have registered := dozing.registered
  unfold wakeUp at woken
  rw [wasAsleep] at woken
  dsimp only at woken
  split at woken
  · cases woken
  · split at woken
    case h_1 id isWaiter =>
      obtain rfl := Option.some.inj woken
      exact waitLoop_asleep (isWaiter ▸ registered) asleep
    case h_2 cookies isWaiter =>
      obtain rfl := Option.some.inj woken
      exact waitAnyLoop_asleep (isWaiter ▸ registered) asleep
    case h_3 source tag isWaiter =>
      obtain rfl := Option.some.inj woken
      exact probeLoop_asleep (isWaiter ▸ registered) asleep

/-- A critical section that ends in a sleep. -/
theorem perform_asleep {critical : Critical} (awake : s.asleep critical.actor = none)
    (performed : s.perform critical = some s') (asleep : s'.asleep critical.actor = some sleep) :
    Dozing s' critical.actor sleep := by
  have still : s'.asleep = s.asleep → Dozing s' critical.actor sleep := by
    intro kept
    rw [kept, awake] at asleep
    cases asleep
  cases critical with
  | recvRequest self buf count iovec source tag =>
      simp only [perform, Umpi.recvRequest] at performed
      split at performed <;> obtain ⟨_, rfl⟩ := acquire_eq_some performed <;> exact still rfl
  | sendRequest self dest buf count iovec tag =>
      simp only [perform, Umpi.sendRequest] at performed
      split at performed
      · cases performed
      · split at performed <;> obtain ⟨_, rfl⟩ := acquire_eq_some performed <;> exact still rfl
  | createRequest self buf iovec size count num =>
      simp only [perform] at performed
      split at performed
      · obtain ⟨_, rfl⟩ := acquire_eq_some performed
        exact still rfl
      · cases performed
  | join self id =>
      simp only [perform] at performed
      split at performed
      · obtain ⟨_, rfl⟩ := acquire_eq_some performed
        exact still rfl
      · cases performed
  | moveToPending self id =>
      simp only [perform] at performed
      split at performed
      · obtain rfl := Option.some.inj performed
        exact still rfl
      · cases performed
  | notifyDone self id err =>
      obtain rfl := Option.some.inj performed
      exact still rfl
  | finalize self id =>
      simp only [perform] at performed
      split at performed
      · obtain rfl := Option.some.inj performed
        exact still rfl
      · cases performed
  | wait self id =>
      simp only [perform] at performed
      split at performed
      case isTrue able =>
        obtain rfl := Option.some.inj performed
        exact waitLoop_asleep (by simpa [Registered, setWaiting] using able) asleep
      case isFalse => cases performed
  | waitAny self cookies =>
      simp only [perform] at performed
      split at performed
      case isTrue able =>
        obtain rfl := Option.some.inj performed
        exact waitAnyLoop_asleep (by simpa [Registered, setWaiting] using able) asleep
      case isFalse => cases performed
  | probe self source tag =>
      obtain rfl := Option.some.inj performed
      exact probeLoop_asleep (by simp [Registered, setWaiting]) asleep
  | resume self => cases performed

end Threads

/-! ### Runs -/

/-- Every `busy_` is a `short`. -/
def Narrow (cookies : Nat → Cookie) : Prop :=
  ∀ id, int16 (cookies id).busy = (cookies id).busy

theorem Narrow.update {cookies : Nat → Cookie} (narrow : Narrow cookies) (id : Nat) {cookie : Cookie}
    (short : int16 cookie.busy = cookie.busy) : Narrow (Function.update cookies id cookie) := by
  intro other
  by_cases same : other = id
  · subst same
    simpa using short
  · simpa [same] using narrow other

theorem int16_int16 (x : Int) : int16 (int16 x) = int16 x := Int.bmod_bmod

/-- The only cookie whose last notification is the next one is one with `busy_` one. -/
theorem Narrow.eq_one {cookies : Nat → Cookie} (narrow : Narrow cookies) {id : Nat}
    (last : int16 ((cookies id).busy - 1) = 0) : (cookies id).busy = 1 := by
  have short := narrow id
  simp only [int16, Int.bmod] at short last
  split at short <;> split at last <;> omega

theorem Threads.perform_narrow {s s' : Threads} (narrow : Narrow s.world.cookies) {critical : Critical}
    (performed : s.perform critical = some s') : Narrow s'.world.cookies := by
  cases critical with
  | recvRequest self buf count iovec source tag =>
      simp only [perform, Umpi.recvRequest] at performed
      split at performed <;> obtain ⟨_, rfl⟩ := acquire_eq_some performed
      · exact narrow.update _ (narrow _)
      · rw [World.setProc_cookies, World.createRequest_cookies]
        exact narrow.update _ (int16_int16 1)
  | sendRequest self dest buf count iovec tag =>
      simp only [perform, Umpi.sendRequest] at performed
      split at performed
      · cases performed
      · split at performed
        case h_1 id found =>
          obtain ⟨_, rfl⟩ := acquire_eq_some performed
          have marked : Narrow (Function.update s.world.cookies id
              { s.world.cookies id with src := int16 self, tag := int16 tag }) := narrow.update id (narrow id)
          exact marked.update id (marked id)
        case h_2 =>
          obtain ⟨_, rfl⟩ := acquire_eq_some performed
          rw [World.setProc_cookies, World.createRequest_cookies]
          exact narrow.update _ (int16_int16 1)
  | createRequest self buf iovec size count num =>
      simp only [perform] at performed
      split at performed
      · obtain ⟨_, rfl⟩ := acquire_eq_some performed
        rw [World.createRequest_cookies]
        exact narrow.update _ (int16_int16 num)
      · cases performed
  | join self id =>
      simp only [perform] at performed
      split at performed
      · obtain ⟨_, rfl⟩ := acquire_eq_some performed
        exact narrow.update _ (narrow _)
      · cases performed
  | moveToPending self id =>
      simp only [perform] at performed
      split at performed
      · obtain rfl := Option.some.inj performed
        exact narrow
      · cases performed
  | notifyDone self id err =>
      obtain rfl := Option.some.inj performed
      exact narrow.update _ (int16_int16 _)
  | finalize self id =>
      simp only [perform] at performed
      split at performed
      · obtain rfl := Option.some.inj performed
        exact narrow.update _ (narrow _)
      · cases performed
  | wait self id =>
      simp only [perform] at performed
      split at performed
      · obtain rfl := Option.some.inj performed
        rw [((Personal.setWaiting s self _ _).trans (.waitLoop _ self id)).cookies]
        exact narrow
      · cases performed
  | waitAny self cookies =>
      simp only [perform] at performed
      split at performed
      · obtain rfl := Option.some.inj performed
        rw [((Personal.setWaiting s self _ _).trans (.waitAnyLoop _ self cookies)).cookies]
        exact narrow
      · cases performed
  | probe self source tag =>
      obtain rfl := Option.some.inj performed
      rw [((Personal.setWaiting s self _ _).trans (.probeLoop _ self _ _ _)).cookies]
      exact narrow
  | resume self => cases performed

/-- What every reachable state satisfies. -/
structure Attentive (n : Nat) (s : Threads) : Prop where
  accounted : Accounted n s
  narrow : Narrow s.world.cookies
  dozing : ∀ rank sleep, s.asleep rank = some sleep → s.Dozing rank sleep

namespace Attentive

variable {n : Nat} {s s' : Threads}

theorem start (n : Nat) (mem : Memory) : Attentive n (Threads.init n mem) where
  accounted := .start n mem
  narrow := fun _ => rfl
  dozing := fun _ _ impossible => by cases impossible

/-- A step that does not notify a cookie of a process in `wait_any(count, cookies)` for the last time. -/
theorem step (attentive : Attentive n s) (limit : n ≤ 10000) {critical : Critical} (spares : s.Spares critical)
    (stepped : s.step critical = some s') : Attentive n s' where
  accounted := attentive.accounted.step limit stepped
  narrow := by
    rcases Threads.step_cases stepped with ⟨self, rfl, woken⟩ | ⟨_, _, performed⟩
    · rw [(Threads.Personal.wakeUp woken).cookies]
      exact attentive.narrow
    · exact Threads.perform_narrow attentive.narrow performed
  dozing := by
    intro rank sleep asleep
    rcases Threads.step_cases stepped with ⟨self, rfl, woken⟩ | ⟨_, awake, performed⟩
    · by_cases own : rank = self
      · subst own
        cases before : s.asleep rank with
        | none => simp [Threads.wakeUp, before] at woken
        | some earlier => exact Threads.wakeUp_asleep before (attentive.dozing rank earlier before) woken asleep
      · have unaware := Threads.Unaware.of_personal (.wakeUp woken) own
        exact (attentive.dozing rank sleep (unaware.asleep ▸ asleep)).unaware unaware
    · by_cases own : rank = critical.actor
      · subst own
        exact Threads.perform_asleep awake performed asleep
      · by_cases notifies : ∃ self id err, critical = .notifyDone self id err
        · obtain ⟨self, id, err, rfl⟩ := notifies
          obtain rfl := Option.some.inj performed
          refine (attentive.dozing rank sleep asleep).notifyDone rfl rfl fun cookies isWaiter last => ?_
          exact spares (attentive.narrow.eq_one last) rank sleep cookies asleep isWaiter
        · have unaware := attentive.accounted.unaware own
            (fun self id err equal => notifies ⟨self, id, err, equal⟩) performed
          exact (attentive.dozing rank sleep (unaware.asleep ▸ asleep)).unaware unaware

theorem of_reaches (limit : n ≤ 10000) {mem : Memory}
    (reached : (Threads.init n mem).Reaches Threads.Spares s) : Attentive n s := by
  induction reached with
  | refl => exact .start n mem
  | tail critical before spares stepped ih => exact ih.step limit spares stepped

/-- In a reachable state nobody sleeps for nothing. -/
theorem justified (attentive : Attentive n s) : s.Justified := fun rank sleep asleep =>
  (attentive.dozing rank sleep asleep).waits

/-- The last notification of a cookie of a process in `wait_any(count, cookies)` does not wake it. -/
theorem spares_of_justified (attentive : Attentive n s) {critical : Critical}
    (stepped : s.step critical = some s') (justified : s'.Justified) : s.Spares critical := by
  cases critical with
  | notifyDone self id err =>
      intro last rank sleep cookies asleep isWaiter listed
      have performed : s' = { s with world := s.world.notifyDone id err } := by
        rcases Threads.step_cases stepped with ⟨_, impossible, _⟩ | ⟨_, _, performed⟩
        · cases impossible
        · exact (Option.some.inj performed).symm
      subst performed
      have dozing := attentive.dozing rank sleep asleep
      have registered := dozing.registered
      rw [isWaiter] at registered
      have signals : ((s.world.notifyDone id err).procs rank).signals = (s.world.procs rank).signals := by
        by_cases own : rank = (s.world.cookies id).owner
        · subst own
          simp [World.notifyDone, registered.1]
        · simp [World.notifyDone, own]
      have waits := justified rank sleep asleep (signals.trans (dozing.ignored cookies isWaiter))
      unfold Threads.StillWaits at waits
      rw [isWaiter] at waits
      refine waits (some id) listed id rfl ?_
      simp [last, int16]
  | recvRequest self buf count iovec source tag => trivial
  | sendRequest self dest buf count iovec tag => trivial
  | createRequest self buf iovec size count num => trivial
  | join self id => trivial
  | moveToPending self id => trivial
  | finalize self id => trivial
  | wait self id => trivial
  | waitAny self cookies => trivial
  | probe self source tag => trivial
  | resume self => trivial

end Attentive

/-- In a run in which no process sleeps in `wait_any(count, cookies)` when one of these cookies is notified for
    the last time, nobody sleeps who could go on and has not been notified; and a next step keeps it so if and
    only if it is no such notification. -/
theorem wake_ups_delivered_iff {n : Nat} (limit : n ≤ 10000) {mem : Memory} {s : Threads}
    (reached : (Threads.init n mem).Reaches Threads.Spares s) :
    s.Justified ∧
      ∀ critical s', s.step critical = some s' → (s'.Justified ↔ s.Spares critical) := by
  have attentive := Attentive.of_reaches limit reached
  refine ⟨attentive.justified, fun critical s' stepped => ⟨fun justified => ?_, fun spares => ?_⟩⟩
  · exact attentive.spares_of_justified stepped justified
  · exact (attentive.step limit spares stepped).justified

/-- Rank 0 sleeps in `MPI_Wait` on the receive it has posted, until the message comes. -/
theorem wake_ups_delivered_receive :
    ∃ s, (Threads.init 2 fun _ => 0).Reaches Threads.Spares s ∧ (s.asleep 0).isSome ∧ s.Justified ∧
      ∀ critical s', s.step critical = some s' → (s'.Justified ↔ s.Spares critical) := by
  have run : ∃ s, (Threads.init 2 fun _ => 0).Reaches Threads.Spares s ∧ (s.asleep 0).isSome := by
    refine ⟨_, .tail (.wait 0 0) (.tail (.recvRequest 0 { region := .heap 0, addr := 0 } 1 (.basic .char 1) 1 5)
      .refl trivial (by rfl)) trivial (by rfl), by decide⟩
  obtain ⟨s, reached, asleep⟩ := run
  obtain ⟨justified, next⟩ := wake_ups_delivered_iff (by decide) reached
  exact ⟨s, reached, asleep, justified, next⟩

/-- Rank 0 sleeps in `MPI_Waitany` on the receive it has posted, rank 1 sends the message, and rank 0 is not
    notified: it cannot go on. -/
theorem wake_up_lost :
    ∃ s sleep, (Threads.init 2 fun _ => 0).Reaches (fun _ _ => True) s ∧ s.asleep 0 = some sleep ∧
      sleep.waiter = .waitAny [some 0] ∧ (s.world.procs 0).signals = sleep.signals ∧
      (s.world.cookies 0).busy = 0 ∧ ¬ s.Justified ∧ s.step (.resume 0) = none := by
  have run : ∃ s sleep, (Threads.init 2 fun _ => 0).Reaches (fun _ _ => True) s ∧ s.asleep 0 = some sleep ∧
      sleep.waiter = .waitAny [some 0] ∧ (s.world.procs 0).signals = sleep.signals ∧
      (s.world.cookies 0).busy = 0 ∧ s.step (.resume 0) = none := by
    refine ⟨_, _, .tail (.notifyDone 1 0 mpiSuccess) (.tail (.sendRequest 1 0 { region := .heap 1, addr := 0 } 1
      (.basic .char 1) 5) (.tail (.waitAny 0 [some 0]) (.tail (.recvRequest 0 { region := .heap 0, addr := 0 } 1
      (.basic .char 1) 1 5) .refl trivial (by rfl)) trivial (by rfl)) trivial (by rfl)) trivial (by rfl),
      by rfl, by rfl, by rfl, by rfl, by rfl⟩
  obtain ⟨s, sleep, reached, asleep, isWaiter, signals, done, stuck⟩ := run
  refine ⟨s, sleep, reached, asleep, isWaiter, signals, done, fun justified => ?_, stuck⟩
  have waits := justified 0 sleep asleep signals
  unfold Threads.StillWaits at waits
  rw [isWaiter] at waits
  exact waits (some 0) List.mem_cons_self 0 rfl done

end Umpi
