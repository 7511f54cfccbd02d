/-
Module: Umpi.Proofs.UseCounts
Layer: Proofs
Purpose: Who may be changing `used_` of one cookie at the same time. The increment in `cookie::join` runs under
  the lock of a slot or of the receiver, the decrement in `finalize` under that of the owner. They exclude each
  other as long as nobody leaves a cookie that somebody can still join. A member of a collective operation leaves
  the root's cookie when it likes, which is before the other members have joined.
Imports: Umpi.Model.Locks, Umpi.Proofs.WakeUps
Trusted boundary: none
Main exports: Threads.Effect, Locks.Retires, Locks.Guarded, use_counts_guarded,
  use_counts_unguarded
Open obligations: none
-/
import Umpi.Model.Locks
import Umpi.Proofs.WakeUps

namespace Umpi

open Foundation

/-! ### What one section does -/

/-- A cookie that `create_request` may make next. -/
def Threads.Fresh (s : Threads) (id : Nat) : Prop :=
  ∃ process, id = s.world.newName process

/-- What a critical section does to the lists in which a cookie can be found, to the handles and to the fields that
    decide who may leave it. -/
structure Threads.Effect (critical : Critical) (s s' : Threads) : Prop where
  size : s'.world.size = s.world.size
  handles : ∀ rank ≠ critical.actor, s'.handles rank = s.handles rank
  loose : ∀ id ∈ s'.loose, id ∈ s.loose ∨ s.Fresh id
  stays : ∀ id ∈ s.loose, id ∈ s'.loose ∨ critical = .moveToPending critical.actor id
  queued : ∀ id, s'.world.Queued id →
    s.world.Queued id ∧ (∀ rank, id ∈ s'.handles rank → id ∈ s.handles rank) ∨
      s.Fresh id ∧ (s'.world.cookies id).owner = critical.actor ∧ (s'.world.cookies id).busy = 1 ∧
        ∀ rank, id ∈ s'.handles rank → rank = critical.actor
  owner : ∀ id, ¬ s.Fresh id → (s'.world.cookies id).owner = (s.world.cookies id).owner
  busy : ∀ id, ¬ s.Fresh id → (∀ self err, critical ≠ .notifyDone self id err) →
    (s'.world.cookies id).busy = (s.world.cookies id).busy
  used : ∀ id, ¬ s.Fresh id → critical.modified s.world ≠ some id →
    (s'.world.cookies id).used = (s.world.cookies id).used

/-- A cookie in a queue is in the drawer of that queue. -/
theorem World.Queued.listed {w : World} {id : Nat} (queued : w.Queued id) (loose : List Nat) :
    ∃ drawer, id ∈ w.drawer loose drawer ∧
      ∃ rank < w.size, drawer = .inbox rank ∨ drawer = .outbox rank := by
  obtain ⟨rank, valid, inbox | outbox⟩ := queued
  · exact ⟨.inbox rank, inbox, rank, valid, Or.inl rfl⟩
  · exact ⟨.outbox rank, outbox, rank, valid, Or.inr rfl⟩

namespace Accounted

variable {n : Nat} {s s' : Threads} {critical : Critical} {self id rank : Nat}

/-- A cookie that could be made next is in no list that is not a `free_` list. -/
theorem not_fresh_of_listed (accounted : Accounted n s) {drawer : Drawer} (listed : id ∈ s.drawer drawer)
    (away : ∀ rank, drawer ≠ .free rank) : ¬ s.Fresh id := by
  rintro ⟨process, rfl⟩
  rw [← World.createRequest_fst s.world process (s.world.cookies 0)] at listed
  rcases createRequest_name s.world process (s.world.cookies 0) with ⟨free, _⟩ | ⟨_, _, name, _⟩
  · have first : (s.world.createRequest process (s.world.cookies 0)).1 ∈ (s.world.procs process).free :=
      free ▸ List.mem_cons_self
    exact away process (accounted.exclusive.eq_of_mem listed first)
  · rw [name] at listed
    exact lt_irrefl _ (accounted.allocated drawer _ listed)

/-- Nor has anybody a handle on it. -/
theorem not_fresh_of_handled (accounted : Accounted n s) (handled : id ∈ s.handles rank) : ¬ s.Fresh id := by
  rintro ⟨process, rfl⟩
  rw [← World.createRequest_fst s.world process (s.world.cookies 0)] at handled
  exact accounted.fresh process _ rank handled

theorem not_fresh_of_loose (accounted : Accounted n s) (loose : id ∈ s.loose) : ¬ s.Fresh id :=
  @not_fresh_of_listed n s id accounted .loose loose fun _ => nofun

theorem not_fresh_of_queued (accounted : Accounted n s) (queued : s.world.Queued id) : ¬ s.Fresh id := by
  obtain ⟨drawer, listed, rank, _, rfl | rfl⟩ := queued.listed s.loose
  · exact accounted.not_fresh_of_listed listed fun _ => nofun
  · exact accounted.not_fresh_of_listed listed fun _ => nofun

/-- A cookie that a process takes out of a queue is in no queue afterwards. -/
theorem not_queued_of_pending (accounted : Accounted n s) (pending : id ∈ (s.world.procs rank).pending) :
    ¬ s.world.Queued id := by
  intro queued
  have taken : id ∈ s.drawer (.pending rank) := pending
  obtain ⟨drawer, listed, _, _, rfl | rfl⟩ := queued.listed s.loose
  · cases accounted.exclusive.eq_of_mem taken listed
  · cases accounted.exclusive.eq_of_mem taken listed

/-- A cookie in a slot or in a local list is in no queue. -/
theorem not_queued_of_loose (accounted : Accounted n s) (loose : id ∈ s.loose) : ¬ s.world.Queued id := by
  intro queued
  have taken : id ∈ s.drawer .loose := loose
  obtain ⟨drawer, listed, _, _, rfl | rfl⟩ := queued.listed s.loose
  · cases accounted.exclusive.eq_of_mem taken listed
  · cases accounted.exclusive.eq_of_mem taken listed

end Accounted

namespace Threads.Effect

variable {n : Nat} {s s' : Threads} {critical : Critical} {self id : Nat}

/-- What a process changes of its own. -/
theorem of_personal (personal : Personal self s s') : Effect critical s s' := by
  have queue : ∀ id, s'.world.Queued id → s.world.Queued id := by
    rintro id ⟨rank, valid, listed⟩
    rw [personal.size] at valid
    have inbox : (s'.world.procs rank).inbox = (s.world.procs rank).inbox :=
      congrFun personal.drawer (.inbox rank)
    have outbox : (s'.world.procs rank).outbox = (s.world.procs rank).outbox :=
      congrFun personal.drawer (.outbox rank)
    exact ⟨rank, valid, inbox ▸ outbox ▸ listed⟩
  have loose : s'.loose = s.loose := congrFun personal.drawer .loose
  constructor
  case size => exact personal.size
  case handles => exact fun rank _ => by rw [personal.handles]
  case loose => exact fun id listed => Or.inl (loose ▸ listed)
  case stays => exact fun id listed => Or.inl (loose ▸ listed)
  case queued => exact fun id queued => Or.inl ⟨queue id queued, fun rank listed => personal.handles ▸ listed⟩
  case owner => exact fun id _ => by rw [personal.cookies]
  case busy => exact fun id _ _ => by rw [personal.cookies]
  case used => exact fun id _ _ => by rw [personal.cookies]

/-- A process takes a cookie out of a queue and joins it. -/
theorem of_found (accounted : Accounted n s') {w : World}
    (acquired : s' = { s with world := w, handles := Function.update s.handles self (id :: s.handles self) })
    (actor : critical.actor = self) (modified : critical.modified s.world = some id)
    (size : w.size = s.world.size) (pending : ∃ rank, id ∈ (w.procs rank).pending)
    (queued : ∀ other, w.Queued other → s.world.Queued other)
    (cookies : ∀ other, (w.cookies other).owner = (s.world.cookies other).owner ∧
      (w.cookies other).busy = (s.world.cookies other).busy)
    (used : ∀ other ≠ id, (w.cookies other).used = (s.world.cookies other).used) : Effect critical s s' := by
  obtain ⟨rank, pending⟩ := pending
  subst acquired
  constructor
  case size => exact size
  case handles => exact fun other different => by simp [actor ▸ different]
  case loose => exact fun other listed => Or.inl listed
  case stays => exact fun other listed => Or.inl listed
  case queued =>
    intro other waits
    have different : other ≠ id := by
      rintro rfl
      exact accounted.not_queued_of_pending pending waits
    refine Or.inl ⟨queued other waits, fun holder listed => ?_⟩
    by_cases own : holder = self
    · subst own
      simpa [different] using listed
    · simpa [own] using listed
  case owner => exact fun other _ => (cookies other).1
  case busy => exact fun other _ _ => (cookies other).2
  case used =>
    intro other _ unmodified
    exact used other fun same => unmodified (same ▸ modified)

/-- A process makes a cookie, and gets the only handle on it. -/
theorem of_created (accounted : Accounted n s) {w : World} {loose : List Nat} {cookie : Cookie}
    (acquired : s' =
      { s with world := w, loose := loose, handles := Function.update s.handles self (id :: s.handles self) })
    (actor : critical.actor = self) (fresh : s.Fresh id) (size : w.size = s.world.size)
    (cookies : w.cookies = Function.update s.world.cookies id cookie) (owner : cookie.owner = self)
    (listed : ∀ other ∈ loose, other ∈ s.loose ∨ other = id) (stays : ∀ other ∈ s.loose, other ∈ loose)
    (queued : ∀ other, w.Queued other → s.world.Queued other ∨ other = id ∧ cookie.busy = 1) :
    Effect critical s s' := by
  have kept : ∀ other, ¬ s.Fresh other → w.cookies other = s.world.cookies other := by
    intro other old
    have different : other ≠ id := fun same => old (same ▸ fresh)
    rw [cookies, Function.update_of_ne different]
  have nobody : ∀ holder, id ∉ s.handles holder := fun holder handled =>
    accounted.not_fresh_of_handled handled fresh
  subst acquired
  constructor
  case size => exact size
  case handles => exact fun other different => by simp [actor ▸ different]
  case loose =>
    intro other member
    rcases listed other member with before | rfl
    · exact Or.inl before
    · exact Or.inr fresh
  case stays => exact fun other member => Or.inl (stays other member)
  case queued =>
    intro other waits
    rcases queued other waits with before | ⟨rfl, busy⟩
    · have different : other ≠ id := fun same => accounted.not_fresh_of_queued before (same ▸ fresh)
      refine Or.inl ⟨before, fun holder handled => ?_⟩
      by_cases own : holder = self
      · subst own
        simpa [different] using handled
      · simpa [own] using handled
    · refine Or.inr ⟨fresh, ?_, ?_, fun holder handled => ?_⟩
      · rw [cookies, Function.update_self, owner, actor]
      · rw [cookies, Function.update_self, busy]
      · by_contra other
        have away : holder ≠ self := actor ▸ other
        exact nobody holder (by simpa [away] using handled)
  case owner => exact fun other old => by rw [kept other old]
  case busy => exact fun other old _ => by rw [kept other old]
  case used => exact fun other old _ => by rw [kept other old]

/-- A section that leaves the queues as they are and gives no handles on what is in them. -/
theorem of_kept {w : World} {loose : List Nat} {handles : Nat → List Nat}
    (performed : s' = { s with world := w, loose := loose, handles := handles })
    (size : w.size = s.world.size)
    (queues : ∀ rank, (w.procs rank).inbox = (s.world.procs rank).inbox ∧
      (w.procs rank).outbox = (s.world.procs rank).outbox)
    (others : ∀ rank ≠ critical.actor, handles rank = s.handles rank)
    (fewer : ∀ id, s.world.Queued id → ∀ rank, id ∈ handles rank → id ∈ s.handles rank)
    (loose_of : ∀ id ∈ loose, id ∈ s.loose)
    (stays : ∀ id ∈ s.loose, id ∈ loose ∨ critical = .moveToPending critical.actor id)
    (owner : ∀ id, (w.cookies id).owner = (s.world.cookies id).owner)
    (busy : ∀ id, (∀ self err, critical ≠ .notifyDone self id err) →
      (w.cookies id).busy = (s.world.cookies id).busy)
    (used : ∀ id, critical.modified s.world ≠ some id → (w.cookies id).used = (s.world.cookies id).used) :
    Effect critical s s' := by
  subst performed
  constructor
  case size => exact size
  case handles => exact others
  case loose => exact fun id listed => Or.inl (loose_of id listed)
  case stays => exact stays
  case queued =>
    rintro id ⟨rank, valid, listed⟩
    have before : s.world.Queued id := by
      refine ⟨rank, size ▸ valid, ?_⟩
      rw [← (queues rank).1, ← (queues rank).2]
      exact listed
    exact Or.inl ⟨before, fewer id before⟩
  case owner => exact fun id _ => owner id
  case busy => exact fun id _ => busy id
  case used => exact fun id _ => used id

/-- `process::recv_request`. -/
theorem recvRequest (accounted : Accounted n s) (limit : n ≤ 10000) (valid : self < s.world.size) {buf : Loc}
    {count : Int} {iovec : Iovec} {source tag : Int}
    (performed : s.perform (.recvRequest self buf count iovec source tag) = some s') :
    Effect (.recvRequest self buf count iovec source tag) s s' := by
  have after := accounted.recvRequest limit (accounted.size ▸ valid) performed
  simp only [Threads.perform, Umpi.recvRequest] at performed
  split at performed
  case h_1 id found =>
    obtain ⟨_, acquired⟩ := Threads.acquire_eq_some performed
    refine of_found after acquired rfl found rfl ⟨self, by simp⟩ ?_ ?_ ?_
    · rintro other ⟨rank, small, listed⟩
      refine ⟨rank, small, ?_⟩
      by_cases own : rank = self
      · subst own
        have either : other ∈ (s.world.procs rank).inbox.erase id ∨ other ∈ (s.world.procs rank).outbox := by
          simpa using listed
        exact either.imp_left List.mem_of_mem_erase
      · simpa [own] using listed
    · intro other
      by_cases same : other = id <;> simp [same]
    · intro other different
      simp [different]
  case h_2 =>
    obtain ⟨_, acquired⟩ := Threads.acquire_eq_some performed
    refine of_created accounted acquired rfl ⟨self, World.createRequest_fst ..⟩ (by simp)
      (by rw [World.setProc_cookies, World.createRequest_cookies]) rfl (fun _ => Or.inl) (fun _ => id) ?_
    rintro other ⟨rank, small, listed⟩
    by_cases own : rank = self
    · subst own
      have either : (other ∈ (s.world.procs rank).inbox ∨ other ∈ (s.world.procs rank).outbox) ∨
          other = s.world.newName rank := by simpa [or_assoc] using listed
      refine either.imp (fun before => ⟨rank, valid, before⟩) fun made => ⟨?_, ?_⟩
      · rw [made, World.createRequest_fst]
      · rfl
    · exact Or.inl ⟨rank, by simpa using small, by simpa [own] using listed⟩

/-- `process::send_request`. -/
theorem sendRequest (accounted : Accounted n s) (limit : n ≤ 10000) (valid : self < s.world.size) {dest : Nat}
    {buf : Loc} {count : Int} {iovec : Iovec} {tag : Int}
    (performed : s.perform (.sendRequest self dest buf count iovec tag) = some s') :
    Effect (.sendRequest self dest buf count iovec tag) s s' := by
  have after := accounted.sendRequest limit (accounted.size ▸ valid) performed
  simp only [Threads.perform, Umpi.sendRequest] at performed
  split at performed
  case isTrue => cases performed
  case isFalse within =>
    split at performed
    case h_1 id found =>
      obtain ⟨_, acquired⟩ := Threads.acquire_eq_some performed
      refine of_found after acquired rfl found rfl ⟨dest, by simp⟩ ?_ ?_ ?_
      · rintro other ⟨rank, small, listed⟩
        refine ⟨rank, small, ?_⟩
        by_cases own : rank = dest
        · subst own
          have either : other ∈ (s.world.procs rank).inbox ∨
              other ∈ (s.world.procs rank).outbox.erase id := by simpa using listed
          exact either.imp_right List.mem_of_mem_erase
        · simpa [own] using listed
      · intro other
        by_cases same : other = id <;> simp [same]
      · intro other different
        simp [different]
    case h_2 =>
      obtain ⟨_, acquired⟩ := Threads.acquire_eq_some performed
      refine of_created accounted acquired rfl ⟨dest, World.createRequest_fst ..⟩ (by simp)
        (by rw [World.setProc_cookies, World.createRequest_cookies]) rfl (fun _ => Or.inl) (fun _ => id) ?_
      rintro other ⟨rank, small, listed⟩
      by_cases own : rank = dest
      · subst own
        have either : (other ∈ (s.world.procs rank).inbox ∨ other ∈ (s.world.procs rank).outbox) ∨
            other = s.world.newName rank := by
          rw [or_right_comm]
          simpa using listed
        refine either.imp (fun before => ⟨rank, by omega, before⟩) fun made => ⟨?_, ?_⟩
        · rw [made, World.createRequest_fst]
        · rfl
      · exact Or.inl ⟨rank, by simpa using small, by simpa [own] using listed⟩

/-- A critical section. -/
theorem of_perform (accounted : Accounted n s) (limit : n ≤ 10000) (valid : critical.actor < s.world.size)
    (performed : s.perform critical = some s') : Effect critical s s' := by
  cases critical with
  | recvRequest self buf count iovec source tag => exact recvRequest accounted limit valid performed
  | sendRequest self dest buf count iovec tag => exact sendRequest accounted limit valid performed
  | createRequest self buf iovec size count num =>
      simp only [Threads.perform] at performed
      split at performed
      · obtain ⟨_, acquired⟩ := Threads.acquire_eq_some performed
        refine of_created accounted acquired rfl ⟨self, World.createRequest_fst ..⟩ (by simp)
          (World.createRequest_cookies ..) rfl ?_ (fun _ => List.mem_cons_of_mem _) ?_
        · exact fun other listed => (List.mem_cons.mp listed).symm
        · rintro other ⟨rank, small, listed⟩
          exact Or.inl ⟨rank, by simpa using small, by simpa using listed⟩
      · cases performed
  | join self id =>
      simp only [Threads.perform] at performed
      split at performed
      case isTrue loose =>
        obtain ⟨_, acquired⟩ := Threads.acquire_eq_some performed
        refine of_kept acquired rfl (fun _ => ⟨rfl, rfl⟩) ?_ ?_ (fun _ listed => listed) (fun _ => Or.inl) ?_ ?_ ?_
        · intro rank other
          have away : rank ≠ self := other
          simp [away]
        · intro other queued rank listed
          have different : other ≠ id := by
            rintro rfl
            exact accounted.not_queued_of_loose loose queued
          by_cases own : rank = self
          · subst own
            simpa [different] using listed
          · simpa [own] using listed
        · intro other
          by_cases same : other = id <;> simp [same]
        · intro other _
          by_cases same : other = id <;> simp [same]
        · intro other unmodified
          have different : other ≠ id := fun same => unmodified (by rw [same]; rfl)
          simp [different]
      case isFalse => cases performed
  | moveToPending self id =>
      simp only [Threads.perform] at performed
      split at performed
      · obtain performed := (Option.some.inj performed).symm
        refine of_kept performed rfl ?_ (fun _ _ => rfl) (fun _ _ _ listed => listed) ?_ ?_ (fun _ => rfl)
          (fun _ _ => rfl) fun _ _ => rfl
        · intro rank
          by_cases own : rank = (s.world.cookies id).owner <;> simp [World.moveToPending, own]
        · exact fun other => List.mem_of_mem_erase
        · intro other listed
          by_cases same : other = id
          · exact Or.inr (by rw [same]; rfl)
          · exact Or.inl ((List.mem_erase_of_ne same).mpr listed)
      · cases performed
  | notifyDone self id err =>
      obtain performed := (Option.some.inj performed).symm
      refine of_kept performed rfl ?_ (fun _ _ => rfl) (fun _ _ _ listed => listed) (fun _ listed => listed)
        (fun _ => Or.inl) ?_ ?_ ?_
      · intro rank
        by_cases own : rank = (s.world.cookies id).owner <;> simp [World.notifyDone, own]
      · intro other
        by_cases same : other = id <;> simp [same]
      · intro other silent
        have different : other ≠ id := by
          rintro rfl
          exact silent self err rfl
        simp [different]
      · intro other _
        by_cases same : other = id <;> simp [same]
  | finalize self id =>
      simp only [Threads.perform] at performed
      split at performed
      · obtain performed := (Option.some.inj performed).symm
        refine of_kept performed rfl ?_ ?_ ?_ (fun _ listed => listed) (fun _ => Or.inl) ?_ ?_ ?_
        · intro rank
          by_cases own : rank = (s.world.cookies id).owner <;> simp [World.finalize, own]
        · intro rank other
          have away : rank ≠ self := other
          simp [away]
        · intro other _ rank listed
          by_cases own : rank = self
          · subst own
            exact List.mem_of_mem_erase (by simpa using listed)
          · simpa [own] using listed
        · intro other
          by_cases same : other = id <;> simp [same]
        · intro other _
          by_cases same : other = id <;> simp [same]
        · intro other unmodified
          have different : other ≠ id := fun same => unmodified (by rw [same]; rfl)
          simp [different]
      · cases performed
  | wait self id =>
      simp only [Threads.perform] at performed
      split at performed
      · obtain rfl := Option.some.inj performed
        exact of_personal ((Personal.setWaiting s self _ _).trans (.waitLoop _ self id))
      · cases performed
  | waitAny self cookies =>
      simp only [Threads.perform] at performed
      split at performed
      · obtain rfl := Option.some.inj performed
        exact of_personal ((Personal.setWaiting s self _ _).trans (.waitAnyLoop _ self cookies))
      · cases performed
  | probe self source tag =>
      obtain rfl := Option.some.inj performed
      exact of_personal ((Personal.setWaiting s self _ _).trans (.probeLoop _ self _ _ _))
  | resume self => cases performed

/-- A section, or a sleeper going on. -/
theorem of_step (accounted : Accounted n s) (limit : n ≤ 10000) (stepped : s.step critical = some s') :
    Effect critical s s' := by
  rcases step_cases stepped with ⟨self, rfl, woken⟩ | ⟨valid, _, performed⟩
  · exact of_personal (.wakeUp woken)
  · exact of_perform accounted limit valid performed

end Threads.Effect

/-! ### What the locks keep apart -/

/-- A section takes the mutex of a process. -/
theorem Critical.mutex_process {w : World} (critical : Critical) {mutex : Mutex}
    (isMutex : critical.mutex w = some mutex) : ∃ process, mutex = .process process := by
  cases critical <;> cases isMutex <;> exact ⟨_, rfl⟩

namespace Locks

/-- Who leaves a cookie does not leave it to somebody who can still join: it is in no box of a slot and in no list
    of a running call, and the owner leaves it only when it is done. -/
def Retires (s : Locks) : Move → Prop
  | .enter (.finalize self id) =>
      id ∉ s.threads.loose ∧
        ((s.threads.world.cookies id).owner = self → (s.threads.world.cookies id).busy = 0)
  | _ => True

/-- What a process that is inside of a section relies on, with the mutex it has taken. -/
def Relies (s : Locks) (mutex : Option Mutex) : Critical → Prop
  | .recvRequest self _ _ _ _ _ => self < s.threads.world.size ∧ mutex = some (.process self)
  | .sendRequest _ dest _ _ _ _ => dest < s.threads.world.size ∧ mutex = some (.process dest)
  | .join self id => id ∈ s.threads.loose ∧ s.Within self id
  | .finalize self id =>
      id ∈ s.threads.handles self ∧ id ∉ s.threads.loose ∧ ¬ s.threads.world.Queued id ∧
        mutex = some (.process (s.threads.world.cookies id).owner)
  | _ => True

/-- The mutexes have the holders that the program points say, and a cookie in a queue belongs to its owner alone. -/
structure Guarded (n : Nat) (s : Locks) : Prop where
  accounted : Accounted n s.threads
  slot : ∀ rank turn, s.slot rank = some turn → s.holder (.slot turn) = some rank
  held : ∀ rank critical mutex, s.inside rank = some (critical, some mutex) →
    s.holder mutex = some rank ∧ ∃ process, mutex = .process process
  actor : ∀ rank critical mutex, s.inside rank = some (critical, mutex) → critical.actor = rank
  queued : ∀ id, s.threads.world.Queued id → (s.threads.world.cookies id).busy = 1 ∧
    ∀ rank, id ∈ s.threads.handles rank → rank = (s.threads.world.cookies id).owner
  relies : ∀ rank critical mutex, s.inside rank = some (critical, mutex) → s.Relies mutex critical

/-- Why a process may change `used_` of a cookie: it has locked the process in whose queue the cookie is, or it
    can get at it where it is, or it has locked the owner of a cookie that is neither here nor there. -/
inductive Claims (s : Locks) (rank id : Nat) : Prop where
  | queue (drawer : Drawer) (process : Nat) (valid : process < s.threads.world.size)
      (kind : drawer = .inbox process ∨ drawer = .outbox process) (listed : id ∈ s.threads.drawer drawer)
      (holds : s.holder (.process process) = some rank)
  | loose (listed : id ∈ s.threads.loose) (within : s.Within rank id)
  | left (handled : id ∈ s.threads.handles rank) (away : id ∉ s.threads.loose)
      (apart : ¬ s.threads.world.Queued id)
      (holds : s.holder (.process (s.threads.world.cookies id).owner) = some rank)

namespace Guarded

variable {n : Nat} {s s' : Locks} {rank other id : Nat}

theorem start (n : Nat) (mem : Memory) : Guarded n (Locks.init n mem) where
  accounted := .start n mem
  slot _ _ impossible := by cases impossible
  held _ _ _ impossible := by cases impossible
  actor _ _ _ impossible := by cases impossible
  queued id queued := by
    obtain ⟨_, _, listed | listed⟩ := queued <;> cases listed
  relies _ _ _ impossible := by cases impossible

/-- A process that is changing `used_` has a claim on the cookie. -/
theorem claims (guarded : Guarded n s) (modifies : s.modifies rank = some id) : s.Claims rank id := by
  obtain ⟨⟨critical, mutex⟩, inside, modified⟩ := Option.bind_eq_some_iff.mp modifies
  have relies := guarded.relies rank critical mutex inside
  have actor := guarded.actor rank critical mutex inside
  cases critical with
  | recvRequest self buf count iovec source tag =>
      obtain ⟨valid, rfl⟩ := relies
      exact .queue (.inbox self) self valid (Or.inl rfl) (List.mem_of_find?_eq_some modified)
        (guarded.held rank _ _ inside).1
  | sendRequest self dest buf count iovec tag =>
      obtain ⟨valid, rfl⟩ := relies
      exact .queue (.outbox dest) dest valid (Or.inr rfl) (List.mem_of_find?_eq_some modified)
        (guarded.held rank _ _ inside).1
  | join self joined =>
      obtain rfl : joined = id := Option.some.inj modified
      obtain rfl : self = rank := actor
      exact .loose relies.1 relies.2
  | finalize self final =>
      obtain rfl : final = id := Option.some.inj modified
      obtain rfl : self = rank := actor
      obtain ⟨handled, away, apart, rfl⟩ := relies
      exact .left handled away apart (guarded.held self _ _ inside).1
  | createRequest self buf iovec size count num => cases modified
  | moveToPending self moved => cases modified
  | notifyDone self done err => cases modified
  | wait self waited => cases modified
  | waitAny self cookies => cases modified
  | probe self source tag => cases modified
  | resume self => cases modified

/-- Two processes that can get at the same cookie of a slot or of a list are one. -/
theorem within_unique (guarded : Guarded n s) (one : s.Within rank id) (two : s.Within other id) :
    rank = other := by
  rcases one with mine | mine <;> rcases two with yours | yours
  · rw [mine] at yours
    injection yours
  · rw [mine, Option.map_eq_some_iff] at yours
    obtain ⟨_, _, impossible⟩ := yours
    cases impossible
  · rw [yours, Option.map_eq_some_iff] at mine
    obtain ⟨_, _, impossible⟩ := mine
    cases impossible
  · obtain ⟨turn, locked, place⟩ := Option.map_eq_some_iff.mp mine
    obtain ⟨turn', locked', place'⟩ := Option.map_eq_some_iff.mp yours
    rw [← place] at place'
    obtain rfl : turn' = turn := by injection place'
    have holder := guarded.slot rank turn' locked
    rw [guarded.slot other turn' locked'] at holder
    exact (Option.some.inj holder).symm

/-- Only one process at a time has a claim on a cookie. -/
theorem claims_unique (guarded : Guarded n s) (one : s.Claims rank id) (two : s.Claims other id) :
    rank = other := by
  have exclusive := guarded.accounted.exclusive
  have queued : ∀ {drawer process}, process < s.threads.world.size →
      drawer = .inbox process ∨ drawer = .outbox process → id ∈ s.threads.drawer drawer →
      s.threads.world.Queued id := by
    rintro drawer process valid (rfl | rfl) listed
    · exact ⟨process, valid, Or.inl listed⟩
    · exact ⟨process, valid, Or.inr listed⟩
  cases one with
  | queue drawer process valid kind listed holds =>
      cases two with
      | queue drawer' process' valid' kind' listed' holds' =>
          have same := exclusive.eq_of_mem listed listed'
          have process_eq : process = process' := by
            rcases kind with rfl | rfl <;> rcases kind' with rfl | rfl <;> cases same <;> rfl
          subst process_eq
          exact Option.some.inj (holds.symm.trans holds')
      | loose listed' within =>
          exact absurd (queued valid kind listed) (guarded.accounted.not_queued_of_loose listed')
      | left handled away apart holds' => exact absurd (queued valid kind listed) apart
  | loose listed within =>
      cases two with
      | queue drawer process valid kind listed' holds =>
          exact absurd (queued valid kind listed') (guarded.accounted.not_queued_of_loose listed)
      | loose listed' within' => exact guarded.within_unique within within'
      | left handled away apart holds => exact absurd listed away
  | left handled away apart holds =>
      cases two with
      | queue drawer process valid kind listed holds' => exact absurd (queued valid kind listed) apart
      | loose listed within => exact absurd listed away
      | left handled' away' apart' holds' => exact Option.some.inj (holds.symm.trans holds')

/-- Nobody makes a cookie anew on which a process has a claim. -/
theorem not_fresh (guarded : Guarded n s) (claims : s.Claims rank id) : ¬ s.threads.Fresh id := by
  cases claims with
  | queue drawer process valid kind listed holds =>
      refine guarded.accounted.not_fresh_of_listed listed fun rank => ?_
      rcases kind with rfl | rfl <;> simp
  | loose listed within => exact guarded.accounted.not_fresh_of_loose listed
  | left handled away apart holds => exact guarded.accounted.not_fresh_of_handled handled

/-- What the processes inside of sections rely on, if only the locks of slots and the places of cookies change. -/
theorem relies_of_threads {mutex : Option Mutex} {critical : Critical} (relies : s.Relies mutex critical)
    (threads : s'.threads = s.threads)
    (within : ∀ id, s.Within critical.actor id → s'.Within critical.actor id) : s'.Relies mutex critical := by
  cases critical with
  | join self joined => exact ⟨threads ▸ relies.1, within joined relies.2⟩
  | recvRequest self buf count iovec source tag | sendRequest self dest buf count iovec tag
  | finalize self final => simpa only [Relies, threads] using relies
  | createRequest self buf iovec size count num | moveToPending self moved | notifyDone self done err
  | wait self waited | waitAny self cookies | probe self source tag | resume self => trivial

/-- A process that is inside of a section is not one that is outside of all of them. -/
theorem actor_ne (guarded : Guarded n s) {critical : Critical} {mutex : Option Mutex}
    (inside : s.inside rank = some (critical, mutex)) (outside : s.inside other = none) :
    critical.actor ≠ other := by
  rintro rfl
  rw [guarded.actor rank critical mutex inside, inside] at outside
  cases outside

/-- `mutex_.lock()` of a slot. -/
theorem lock (guarded : Guarded n s) {self turn : Nat} (stepped : s.step (.lock self turn) = some s') :
    Guarded n s' := by
  simp only [step] at stepped
  split at stepped
  case isFalse => cases stepped
  case isTrue able =>
    obtain ⟨_, outside, without, free⟩ := able
    obtain rfl := Option.some.inj stepped
    have kept : ∀ {rank mutex}, s.holder mutex = some rank → mutex ≠ .slot turn := by
      rintro rank _ holder rfl
      rw [free] at holder
      cases holder
    constructor
    case accounted => exact guarded.accounted
    case queued => exact guarded.queued
    case actor => exact guarded.actor
    case slot =>
      intro rank locked slot
      by_cases own : rank = self
      · subst own
        obtain rfl : turn = locked := by simpa using slot
        exact Function.update_self ..
      · have before := guarded.slot rank locked (by simpa [own] using slot)
        exact (Function.update_of_ne (kept before) _ _).trans before
    case held =>
      intro rank critical mutex inside
      obtain ⟨before, kind⟩ := guarded.held rank critical mutex inside
      exact ⟨(Function.update_of_ne (kept before) _ _).trans before, kind⟩
    case relies =>
      intro rank critical mutex inside
      have different := guarded.actor_ne inside outside
      refine relies_of_threads (guarded.relies rank critical mutex inside) rfl fun id within => ?_
      simpa [Within, different] using within

/-- `mutex_.unlock()` of a slot. -/
theorem unlock (guarded : Guarded n s) {self : Nat} (stepped : s.step (.unlock self) = some s') :
    Guarded n s' := by
  simp only [step] at stepped
  split at stepped
  case h_1 turn outside locked =>
    obtain rfl := Option.some.inj stepped
    have holds := guarded.slot self turn locked
    constructor
    case accounted => exact guarded.accounted
    case queued => exact guarded.queued
    case actor => exact guarded.actor
    case slot =>
      intro rank other slot
      by_cases own : rank = self
      · subst own
        simp at slot
      · have before := guarded.slot rank other (by simpa [own] using slot)
        have different : Mutex.slot other ≠ .slot turn := by
          intro same
          rw [same, holds] at before
          exact own (Option.some.inj before).symm
        exact (Function.update_of_ne different _ _).trans before
    case held =>
      intro rank critical mutex inside
      obtain ⟨before, process, rfl⟩ := guarded.held rank critical mutex inside
      refine ⟨?_, process, rfl⟩
      show Function.update s.holder (.slot turn) none (.process process) = some rank
      rw [Function.update_of_ne (by simp), before]
    case relies =>
      intro rank critical mutex inside
      have different := guarded.actor_ne inside outside
      refine relies_of_threads (guarded.relies rank critical mutex inside) rfl fun id within => ?_
      simpa [Within, different] using within
  case h_2 => cases stepped

/-- `todo.splice(todo.begin(), box_)`. -/
theorem splice (guarded : Guarded n s) {self : Nat} (stepped : s.step (.splice self) = some s') :
    Guarded n s' := by
  simp only [step] at stepped
  split at stepped
  case h_1 turn outside locked =>
    obtain rfl := Option.some.inj stepped
    have holds := guarded.slot self turn locked
    constructor
    case accounted => exact guarded.accounted
    case queued => exact guarded.queued
    case actor => exact guarded.actor
    case slot => exact guarded.slot
    case held => exact guarded.held
    case relies =>
      intro rank critical mutex inside
      have different := guarded.actor_ne inside outside
      refine relies_of_threads (guarded.relies rank critical mutex inside) rfl fun id within => ?_
      have elsewhere : s.place id ≠ .box turn := by
        intro here
        have mine : s.Within self id := Or.inr (by rw [locked, here]; rfl)
        exact different (guarded.within_unique within mine)
      simpa [Within, elsewhere] using within
  case h_2 => cases stepped

/-- What a process can rely on when it enters a section. -/
theorem relies_enter (guarded : Guarded n s) {critical : Critical} (retires : s.Retires (.enter critical))
    (valid : critical.actor < s.threads.world.size) (admits : s.Admits critical)
    (possible : (s.threads.step critical).isSome) : s.Relies (critical.mutex s.threads.world) critical := by
  obtain ⟨after, stepped⟩ := Option.isSome_iff_exists.mp possible
  rcases Threads.step_cases stepped with ⟨self, rfl, _⟩ | ⟨_, _, performed⟩
  · trivial
  cases critical with
  | recvRequest self buf count iovec source tag => exact ⟨valid, rfl⟩
  | sendRequest self dest buf count iovec tag =>
      simp only [Threads.perform] at performed
      split at performed
      case isTrue => cases performed
      case isFalse within => exact ⟨by omega, rfl⟩
  | join self id =>
      simp only [Threads.perform] at performed
      split at performed
      case isTrue loose => exact ⟨loose, admits⟩
      case isFalse => cases performed
  | finalize self id =>
      simp only [Threads.perform] at performed
      split at performed
      case isTrue handled =>
        -- A cookie in a queue is its owner's alone, who waits until it is done.
        refine ⟨handled, retires.1, fun queued => ?_, rfl⟩
        obtain ⟨busy, alone⟩ := guarded.queued id queued
        rw [retires.2 (alone self handled).symm] at busy
        cases busy
      case isFalse => cases performed
  | createRequest self buf iovec size count num | moveToPending self moved | notifyDone self done err
  | wait self waited | waitAny self cookies | probe self source tag | resume self => trivial

/-- A process enters a section. -/
theorem enter (guarded : Guarded n s) {critical : Critical} (retires : s.Retires (.enter critical))
    (stepped : s.step (.enter critical) = some s') : Guarded n s' := by
  simp only [step] at stepped
  split at stepped
  case isFalse => cases stepped
  case isTrue able =>
    obtain ⟨valid, outside, admits, possible⟩ := able
    obtain ⟨holder, taken, rfl⟩ := Option.map_eq_some_iff.mp stepped
    have grown : ∀ {rank mutex}, s.holder mutex = some rank → holder mutex = some rank := by
      intro rank mutex before
      unfold take at taken
      split at taken
      · exact Option.some.inj taken ▸ before
      · split at taken
        case isTrue free =>
          obtain rfl := Option.some.inj taken
          refine (Function.update_of_ne ?_ _ _).trans before
          rintro rfl
          rw [free] at before
          cases before
        case isFalse => cases taken
    constructor
    case accounted => exact guarded.accounted
    case queued => exact guarded.queued
    case slot => exact fun rank turn locked => grown (guarded.slot rank turn locked)
    case held =>
      intro rank within mutex inside
      by_cases own : rank = critical.actor
      · subst own
        obtain ⟨rfl, isMutex⟩ : critical = within ∧ critical.mutex s.threads.world = some mutex := by
          simpa using inside
        refine ⟨?_, critical.mutex_process isMutex⟩
        rw [isMutex] at taken
        simp only [take] at taken
        split at taken
        · obtain rfl := Option.some.inj taken
          exact Function.update_self ..
        · cases taken
      · obtain ⟨before, kind⟩ := guarded.held rank within mutex (by simpa [own] using inside)
        exact ⟨grown before, kind⟩
    case actor =>
      intro rank within mutex inside
      by_cases own : rank = critical.actor
      · subst own
        obtain ⟨rfl, _⟩ : critical = within ∧ critical.mutex s.threads.world = mutex := by simpa using inside
        rfl
      · exact guarded.actor rank within mutex (by simpa [own] using inside)
    case relies =>
      intro rank within mutex inside
      by_cases own : rank = critical.actor
      · subst own
        obtain ⟨rfl, rfl⟩ : critical = within ∧ critical.mutex s.threads.world = mutex := by simpa using inside
        exact guarded.relies_enter retires valid admits possible
      · exact relies_of_threads (guarded.relies rank within mutex (by simpa [own] using inside)) rfl
          fun _ within => within

/-- A cookie that was in a slot or in a list before a section is where it was. -/
theorem placed_of_loose (guarded : Guarded n s) {critical : Critical} {threads : Threads}
    (stepped : s.threads.step critical = some threads) (loose : id ∈ s.threads.loose) :
    s.placed critical threads.loose id = s.place id := by
  cases critical with
  | createRequest self buf iovec size count num =>
      rcases Threads.step_cases stepped with ⟨_, impossible, _⟩ | ⟨_, _, performed⟩
      · cases impossible
      simp only [Threads.perform] at performed
      split at performed
      case isFalse => cases performed
      case isTrue =>
        obtain ⟨_, rfl⟩ := Threads.acquire_eq_some performed
        have different : id ≠ s.threads.world.newName self := by
          rintro rfl
          exact guarded.accounted.not_fresh_of_loose loose ⟨self, rfl⟩
        cases locked : s.slot self with
        | none => simp [placed, Critical.actor, locked]
        | some turn => simp [placed, Critical.actor, locked, different]
  | recvRequest self buf count iovec source tag | sendRequest self dest buf count iovec tag
  | join self joined | moveToPending self moved | notifyDone self done err | finalize self final
  | wait self waited | waitAny self cookies | probe self source tag | resume self => rfl

/-- What a process relies on while it is inside of a section is kept by those that leave one. -/
theorem relies_leave (guarded : Guarded n s) (limit : n ≤ 10000) {self : Nat} {critical other : Critical}
    {mutex inner : Option Mutex} {threads : Threads} (within : s.inside self = some (critical, mutex))
    (admits : s.Admits critical) (performed : s.threads.step critical = some threads) (own : rank ≠ self)
    (inside : s.inside rank = some (other, inner)) :
    Relies
      { s with
        threads := threads
        holder := s.release mutex
        inside := Function.update s.inside self none
        place := s.placed critical threads.loose } inner other := by
  have effect := Threads.Effect.of_step guarded.accounted limit performed
  have leaver := guarded.actor self critical mutex within
  have stayer := guarded.actor rank other inner inside
  have relies := guarded.relies rank other inner inside
  cases other with
  | recvRequest process buf count iovec source tag => exact ⟨effect.size ▸ relies.1, relies.2⟩
  | sendRequest process dest buf count iovec tag => exact ⟨effect.size ▸ relies.1, relies.2⟩
  | join process joined =>
      obtain rfl : process = rank := stayer
      obtain ⟨loose, reach⟩ := relies
      refine ⟨?_, ?_⟩
      · rcases effect.stays joined loose with still | moves
        · exact still
        · rw [moves] at admits
          rw [leaver] at admits
          exact absurd (guarded.within_unique reach admits) own
      · have place := guarded.placed_of_loose performed loose
        simp only [Within] at reach ⊢
        rwa [place]
  | finalize process final =>
      obtain rfl : process = rank := stayer
      obtain ⟨handled, away, apart, rfl⟩ := relies
      have old := guarded.accounted.not_fresh_of_handled handled
      refine ⟨?_, fun loose => ?_, fun queued => ?_, ?_⟩
      · show final ∈ threads.handles process
        rwa [effect.handles process (leaver ▸ own)]
      · exact (effect.loose final loose).elim away old
      · exact (effect.queued final queued).elim (fun before => apart before.1) fun fresh => old fresh.1
      · rw [effect.owner final old]
  | createRequest process buf iovec size count num | moveToPending process moved | notifyDone process done err
  | wait process waited | waitAny process cookies | probe process source tag | resume process => trivial

/-- A process leaves a section. -/
theorem leave (guarded : Guarded n s) (limit : n ≤ 10000) {self : Nat}
    (stepped : s.step (.leave self) = some s') : Guarded n s' := by
  simp only [step] at stepped
  split at stepped
  case h_1 => cases stepped
  case h_2 critical mutex within =>
    split at stepped
    case isFalse => cases stepped
    case isTrue admits =>
      obtain ⟨threads, performed, rfl⟩ := Option.map_eq_some_iff.mp stepped
      have effect := Threads.Effect.of_step guarded.accounted limit performed
      have actor := guarded.actor self critical mutex within
      have kept : ∀ {rank other}, rank ≠ self → s.holder other = some rank → s.release mutex other = some rank := by
        intro rank other different before
        unfold release
        split
        · exact before
        · refine (Function.update_of_ne ?_ _ _).trans before
          rintro rfl
          rw [(guarded.held self critical _ within).1] at before
          exact different (Option.some.inj before).symm
      constructor
      case accounted => exact guarded.accounted.step limit performed
      case slot =>
        intro rank turn locked
        have before := guarded.slot rank turn locked
        show s.release mutex (.slot turn) = some rank
        unfold release
        split
        · exact before
        · obtain ⟨_, process, rfl⟩ := guarded.held self critical _ within
          rw [Function.update_of_ne (by simp), before]
      case held =>
        intro rank other inner inside
        by_cases own : rank = self
        · subst own
          simp at inside
        · obtain ⟨before, kind⟩ := guarded.held rank other inner (by simpa [own] using inside)
          exact ⟨kept own before, kind⟩
      case actor =>
        intro rank other inner inside
        by_cases own : rank = self
        · subst own
          simp at inside
        · exact guarded.actor rank other inner (by simpa [own] using inside)
      case queued =>
        intro id queued
        rcases effect.queued id queued with ⟨before, fewer⟩ | ⟨_, owner, busy, alone⟩
        · have old := guarded.accounted.not_fresh_of_queued before
          obtain ⟨waits, mine⟩ := guarded.queued id before
          refine ⟨?_, fun rank handled => ?_⟩
          · rw [effect.busy id old fun process err same => ?_, waits]
            -- A section of `notify_done` is for cookies that are in no queue.
            subst same
            exact admits before
          · rw [effect.owner id old]
            exact mine rank (fewer rank handled)
        · exact ⟨busy, fun rank handled => (alone rank handled).trans owner.symm⟩
      case relies =>
        intro rank other inner inside
        by_cases own : rank = self
        · subst own
          simp at inside
        · have inside : s.inside rank = some (other, inner) := by simpa [own] using inside
          exact guarded.relies_leave limit within admits performed own inside

/-- A step in a run in which nobody leaves a cookie that others can still join. -/
theorem step (guarded : Guarded n s) (limit : n ≤ 10000) {move : Move} (retires : s.Retires move)
    (stepped : s.step move = some s') : Guarded n s' := by
  cases move with
  | lock self turn => exact guarded.lock stepped
  | unlock self => exact guarded.unlock stepped
  | splice self => exact guarded.splice stepped
  | enter critical => exact guarded.enter retires stepped
  | leave self => exact guarded.leave limit stepped

theorem of_reaches (limit : n ≤ 10000) {mem : Memory} (reached : (Locks.init n mem).Reaches Retires s) :
    Guarded n s := by
  induction reached with
  | refl => exact .start n mem
  | tail move before retires stepped ih => exact ih.step limit retires stepped

/-- What one process is changing is changed by nobody else. -/
theorem modifies_unique (guarded : Guarded n s) (one : s.modifies rank = some id)
    (two : s.modifies other = some id) : rank = other :=
  guarded.claims_unique (guarded.claims one) (guarded.claims two)

/-- A step of another process leaves `used_` of a cookie as the process inside of a section has read it. -/
theorem used_kept (guarded : Guarded n s) (limit : n ≤ 10000) {move : Move}
    (modifies : s.modifies rank = some id) (other : move.actor ≠ rank) (stepped : s.step move = some s') :
    (s'.threads.world.cookies id).used = (s.threads.world.cookies id).used := by
  cases move with
  | lock self turn =>
      simp only [Locks.step] at stepped
      split at stepped
      · obtain rfl := Option.some.inj stepped
        rfl
      · cases stepped
  | unlock self =>
      simp only [Locks.step] at stepped
      split at stepped
      · obtain rfl := Option.some.inj stepped
        rfl
      · cases stepped
  | splice self =>
      simp only [Locks.step] at stepped
      split at stepped
      · obtain rfl := Option.some.inj stepped
        rfl
      · cases stepped
  | enter critical =>
      simp only [Locks.step] at stepped
      split at stepped
      · obtain ⟨_, _, rfl⟩ := Option.map_eq_some_iff.mp stepped
        rfl
      · cases stepped
  | leave self =>
      simp only [Locks.step] at stepped
      split at stepped
      case h_1 => cases stepped
      case h_2 critical mutex within =>
        split at stepped
        case isFalse => cases stepped
        case isTrue =>
          obtain ⟨threads, performed, rfl⟩ := Option.map_eq_some_iff.mp stepped
          have effect := Threads.Effect.of_step guarded.accounted limit performed
          refine effect.used id (guarded.not_fresh (guarded.claims modifies)) fun modified => other ?_
          have too : s.modifies self = some id := by rw [Locks.modifies, within]; exact modified
          exact guarded.modifies_unique too modifies

end Guarded

end Locks

/-- In a run in which nobody leaves a cookie that somebody can still join, and no owner one that is not done, no two
    processes are changing `used_` of one cookie at the same time, and what a process has read of it is what it
    writes over. -/
theorem use_counts_guarded {n : Nat} (limit : n ≤ 10000) {mem : Memory} {s : Locks}
    (reached : (Locks.init n mem).Reaches Locks.Retires s) :
    (∀ first second id, s.modifies first = some id → s.modifies second = some id → first = second) ∧
      ∀ rank id move s', s.modifies rank = some id → move.actor ≠ rank → s.step move = some s' →
        (s'.threads.world.cookies id).used = (s.threads.world.cookies id).used := by
  have guarded := Locks.Guarded.of_reaches limit reached
  refine ⟨fun first second id one two => guarded.modifies_unique one two, ?_⟩
  exact fun rank id move s' modifies other stepped => guarded.used_kept limit modifies other stepped

/-- Rank 1 is about to join the receive that rank 0 has posted, and holds the lock of rank 0. -/
theorem use_counts_guarded_send :
    ∃ s, (Locks.init 2 fun _ => 0).Reaches Locks.Retires s ∧ s.modifies 1 = some 0 ∧
      s.holder (.process 0) = some 1 ∧
      (∀ first second id, s.modifies first = some id → s.modifies second = some id → first = second) ∧
      ∀ rank id move s', s.modifies rank = some id → move.actor ≠ rank → s.step move = some s' →
        (s'.threads.world.cookies id).used = (s.threads.world.cookies id).used := by
  have run : ∃ s, (Locks.init 2 fun _ => 0).Reaches Locks.Retires s ∧ s.modifies 1 = some 0 ∧
      s.holder (.process 0) = some 1 := by
    refine ⟨_, .tail (.enter (.sendRequest 1 0 { region := .heap 1, addr := 0 } 1 (.basic .char 1) 5))
      (.tail (.leave 0) (.tail (.enter (.recvRequest 0 { region := .heap 0, addr := 0 } 1 (.basic .char 1) 1 5))
      .refl trivial (by rfl)) trivial (by rfl)) trivial (by rfl), by rfl, by rfl⟩
  obtain ⟨s, reached, joins, holds⟩ := run
  exact ⟨s, reached, joins, holds, use_counts_guarded (by decide) reached⟩

/-- Some steps, one after the other. -/
def Locks.run (s : Locks) : List Move → Option Locks
  | [] => some s
  | move :: moves => (s.step move).bind fun s => s.run moves

theorem Locks.Reaches.run {start s s' : Locks} (reached : start.Reaches (fun _ _ => True) s) {moves : List Move}
    (ran : s.run moves = some s') : start.Reaches (fun _ _ => True) s' := by
  induction moves generalizing s with
  | nil =>
      obtain rfl := Option.some.inj ran
      exact reached
  | cons move moves ih =>
      obtain ⟨next, stepped, rest⟩ := Option.bind_eq_some_iff.mp ran
      exact ih (reached.tail move trivial stepped) rest

/-- `MPI_Ibcast` with root 0: the root has left its cookie in the box, rank 1 has joined it, has read the data and
    leaves it, under the lock of rank 0, while rank 2 joins it, under the lock of the slot. -/
def broadcastMoves : List Move :=
  [.lock 0 0, .enter (.createRequest 0 { region := .heap 0, addr := 0 } (.basic .char 1) 1 1 2), .leave 0,
    .unlock 0, .lock 1 0, .enter (.join 1 0), .leave 1, .unlock 1, .enter (.notifyDone 1 0 mpiSuccess), .leave 1,
    .enter (.finalize 1 0), .lock 2 0, .enter (.join 2 0)]

/-- `MPI_Waitany` of rank 0 for a null request and two sends, of which the second is done. It leaves the first,
    whose place in the array is the index that it got for the second, while rank 1 receives it. -/
def waitanyMoves : List Move :=
  [.enter (.sendRequest 0 1 { region := .heap 0, addr := 0 } 1 (.basic .char 1) 5), .leave 0,
    .enter (.sendRequest 0 2 { region := .heap 0, addr := 1 } 1 (.basic .char 1) 5), .leave 0,
    .enter (.recvRequest 2 { region := .heap 2, addr := 0 } 1 (.basic .char 1) 0 5), .leave 2,
    .enter (.notifyDone 2 1 mpiSuccess), .leave 2, .enter (.waitAny 0 [some 0, some 1]), .leave 0,
    .enter (.finalize 0 0), .enter (.recvRequest 1 { region := .heap 1, addr := 0 } 1 (.basic .char 1) 0 5)]

/-- Two processes change `used_` of one cookie at the same time: two members of a broadcast, where one of the two
    changes is lost to the other, and the sender and the receiver of a message that `MPI_Waitany` has left. -/
theorem use_counts_unguarded :
    (∃ s s', (Locks.init 3 fun _ => 0).Reaches (fun _ _ => True) s ∧ s.modifies 1 = some 0 ∧
      s.modifies 2 = some 0 ∧ s.step (.leave 2) = some s' ∧
      (s'.threads.world.cookies 0).used ≠ (s.threads.world.cookies 0).used) ∧
    ∃ s, (Locks.init 3 fun _ => 0).Reaches (fun _ _ => True) s ∧ s.threads.answer 0 = some 1 ∧
      s.modifies 0 = some 0 ∧ s.modifies 1 = some 0 := by
  have broadcast : ∃ s s', (Locks.init 3 fun _ => 0).run broadcastMoves = some s ∧ s.modifies 1 = some 0 ∧
      s.modifies 2 = some 0 ∧ s.step (.leave 2) = some s' ∧
      (s'.threads.world.cookies 0).used ≠ (s.threads.world.cookies 0).used :=
    ⟨_, _, by rfl, by rfl, by rfl, by rfl, by decide⟩
  have waitany : ∃ s, (Locks.init 3 fun _ => 0).run waitanyMoves = some s ∧ s.threads.answer 0 = some 1 ∧
      s.modifies 0 = some 0 ∧ s.modifies 1 = some 0 :=
    ⟨_, by rfl, by rfl, by rfl, by rfl⟩
  refine ⟨?_, ?_⟩
  · obtain ⟨s, s', ran, leaves, joins, stepped, lost⟩ := broadcast
    exact ⟨s, s', .run .refl ran, leaves, joins, stepped, lost⟩
  · obtain ⟨s, ran, index, leaves, receives⟩ := waitany
    exact ⟨s, .run .refl ran, index, leaves, receives⟩

end Umpi
