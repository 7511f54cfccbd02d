/-
Module: Umpi.Proofs.Waiting
Layer: Proofs
Purpose: `MPI_Test` against `MPI_Wait`, and which request `MPI_Waitany` returns. `MPI_Test` looks at `busy_`
  alone, whoever owns the cookie, and forgets `*flag` for a null request. `MPI_Waitany` takes the index within
  the part of the array that `wait_any` has searched for an index of the array, which it is only when that part
  begins at 0.
Imports: Umpi.Model.Waiting, Umpi.Proofs.WakeUps
Trusted boundary: none
Main exports: TestAgrees, test_is_wait_iff, Waitany.Right, waitany_claims_iff
Open obligations: none
-/
import Umpi.Model.Waiting
import Umpi.Proofs.WakeUps

namespace Umpi

/-! ### `MPI_Test` and `MPI_Wait` -/

/-- `MPI_Test` sets `*flag` to 1 exactly when `MPI_Wait` would not sleep, and then does the same to the request,
    the status and the cookies and returns the same; otherwise it sets `*flag` to 0 and changes nothing. -/
structure TestAgrees (s : Threads) (caller : Nat) (request : Option Nat) (flag : Int) (status : Option MpiStatus) :
    Prop where
  sets : (mpiTest s caller request flag status).flag = 1 ↔ (mpiWait s caller request flag status).isSome
  same : ∀ waited, mpiWait s caller request flag status = some waited →
    (mpiTest s caller request flag status).request = waited.request ∧
      (mpiTest s caller request flag status).status = waited.status ∧
      (mpiTest s caller request flag status).ret = waited.ret ∧
      (mpiTest s caller request flag status).threads.world.cookies = waited.threads.world.cookies
  sleeps : mpiWait s caller request flag status = none →
    mpiTest s caller request flag status =
      { threads := s, request := request, flag := 0, status := status, ret := mpiSuccess }

/-- The caller owns the cookie or it is done; for a null request, `*flag` is 1 already. -/
def Testable (s : Threads) (self : Nat) (request : Option Nat) (flag : Int) : Prop :=
  match request with
  | none => flag = 1
  | some id => (s.world.cookies id).owner = self ∨ (s.world.cookies id).busy = 0

section Test

variable {s : Threads} {self id : Nat} (flag : Int) (status : Option MpiStatus)

/-- Only the owner of a cookie that is not done sleeps. -/
theorem mpiWait_busy (own : (s.world.cookies id).owner = self) (busy : (s.world.cookies id).busy ≠ 0) :
    mpiWait s self (some id) flag status = none := by
  simp [mpiWait, own, Threads.waitLoop, Threads.setWaiting, busy, Threads.sleep]

theorem mpiWait_foreign (foreign : (s.world.cookies id).owner ≠ self) :
    mpiWait s self (some id) flag status = some (s.complete self id flag status) :=
  if_neg foreign

/-- The owner of a cookie that is done takes note of the cookie and forgets it again. -/
theorem mpiWait_done (own : (s.world.cookies id).owner = self) (done : (s.world.cookies id).busy = 0) :
    ∃ waited : Threads, mpiWait s self (some id) flag status = some (waited.complete self id flag status) ∧
      waited.world.cookies = s.world.cookies := by
  refine ⟨(s.setWaiting self .cookie (some id)).waitLoop self id, ?_, ?_⟩
  · simp [mpiWait, own, Threads.waitLoop, Threads.setWaiting, done, Threads.finish]
  · simp [Threads.waitLoop, Threads.setWaiting, done, Threads.finish]

variable (self) in
theorem mpiTest_busy (busy : (s.world.cookies id).busy ≠ 0) :
    mpiTest s self (some id) flag status =
      { threads := s, request := some id, flag := 0, status := status, ret := mpiSuccess } :=
  if_pos busy

variable (self) in
theorem mpiTest_done (done : (s.world.cookies id).busy = 0) :
    mpiTest s self (some id) flag status = s.complete self id 1 status :=
  if_neg (not_not.mpr done)

end Test

/-- In every state, and so in every reachable one, `MPI_Test` is `MPI_Wait` without the sleep if and only if the
    request is not null and its cookie belongs to the caller or is done, or the request is null and `*flag` is 1
    already. -/
theorem test_is_wait_iff (s : Threads) (self : Nat) (request : Option Nat) (flag : Int) (status : Option MpiStatus) :
    TestAgrees s self request flag status ↔ Testable s self request flag := by
  cases request with
  | none =>
      constructor
      · intro agrees
        exact agrees.sets.mpr rfl
      · intro already
        refine ⟨⟨fun _ => rfl, fun _ => already⟩, fun waited same => ?_, fun impossible => ?_⟩
        · obtain rfl := Option.some.inj same
          exact ⟨rfl, rfl, rfl, rfl⟩
        · cases impossible
  | some id =>
      by_cases busy : (s.world.cookies id).busy = 0
      · refine ⟨fun _ => Or.inr busy, fun _ => ?_⟩
        have test := mpiTest_done self flag status busy
        by_cases own : (s.world.cookies id).owner = self
        · obtain ⟨after, waits, cookies⟩ := mpiWait_done flag status own busy
          refine ⟨?_, fun waited same => ?_, fun impossible => ?_⟩
          · rw [test, waits]
            exact ⟨fun _ => rfl, fun _ => rfl⟩
          · rw [test, ← Option.some.inj (waits.symm.trans same)]
            simp [Threads.complete, Threads.leave, cookies]
          · rw [waits] at impossible
            cases impossible
        · have waits := mpiWait_foreign flag status own
          refine ⟨?_, fun waited same => ?_, fun impossible => ?_⟩
          · rw [test, waits]
            exact ⟨fun _ => rfl, fun _ => rfl⟩
          · rw [test, ← Option.some.inj (waits.symm.trans same)]
            exact ⟨rfl, rfl, rfl, rfl⟩
          · rw [waits] at impossible
            cases impossible
      · have test := mpiTest_busy self flag status busy
        constructor
        · intro agrees
          by_contra foreign
          have waits := mpiWait_foreign flag status fun own => foreign (Or.inl own)
          have flagged := agrees.sets.mpr (by rw [waits]; rfl)
          rw [test] at flagged
          exact zero_ne_one flagged
        · rintro (own | done)
          · have sleeps := mpiWait_busy flag status own busy
            refine ⟨?_, fun waited same => ?_, fun _ => test⟩
            · rw [test, sleeps]
              exact ⟨fun impossible => absurd impossible zero_ne_one, fun impossible => by cases impossible⟩
            · rw [sleeps] at same
              cases same
          · exact absurd done busy

/-- Rank 1 has had its part of the data of rank 0, for which rank 2 has not asked yet. `MPI_Wait` of rank 1
    would return, but `MPI_Test` says that its request is not complete. -/
theorem test_waits_for_others :
    ∃ s, (Threads.init 3 fun _ => 0).Reaches (fun _ _ => True) s ∧ 0 ∈ s.handles 1 ∧
      (mpiWait s 1 (some 0) 0 none).isSome ∧ (mpiTest s 1 (some 0) 0 none).flag = 0 ∧
      ¬ TestAgrees s 1 (some 0) 0 none := by
  have run : ∃ s, (Threads.init 3 fun _ => 0).Reaches (fun _ _ => True) s ∧ 0 ∈ s.handles 1 ∧
      (mpiWait s 1 (some 0) 0 none).isSome ∧ (mpiTest s 1 (some 0) 0 none).flag = 0 := by
    refine ⟨_, .tail (.notifyDone 1 0 mpiSuccess) (.tail (.join 1 0) (.tail
      (.createRequest 0 { region := .heap 0, addr := 0 } (.basic .char 1) 1 1 2)
      .refl trivial (by rfl)) trivial (by rfl))
      trivial (by rfl), by decide, by decide, by decide⟩
  obtain ⟨s, reached, handle, returns, flag⟩ := run
  refine ⟨s, reached, handle, returns, flag, fun agrees => ?_⟩
  have flagged := agrees.sets.mpr returns
  rw [flag] at flagged
  exact zero_ne_one flagged

/-! ### What the loops of `MPI_Waitany` find -/

section Loops

variable {w : World} {self : Nat}

/-- The first loop stops at a request on another rank's cookie. -/
theorem scanRequests_foreign {requests : List (Option Nat)} {index first stop found : Nat}
    (scan : w.scanRequests self requests index first stop = .foreign found) :
    ∃ k id, found = index + k ∧ requests[k]? = some (some id) ∧ (w.cookies id).owner ≠ self := by
  induction requests generalizing index first stop with
  | nil => cases scan
  | cons request requests ih =>
      cases request with
      | none =>
          obtain ⟨k, id, rfl, listed, foreign⟩ := ih scan
          exact ⟨k + 1, id, by omega, listed, foreign⟩
      | some id =>
          rw [World.scanRequests] at scan
          by_cases foreign : (w.cookies id).owner ≠ self
          · rw [if_pos foreign] at scan
            obtain rfl := Scan.foreign.inj scan
            exact ⟨0, id, rfl, rfl, foreign⟩
          · rw [if_neg foreign] at scan
            obtain ⟨k, other, rfl, listed, foreign⟩ := ih scan
            exact ⟨k + 1, other, by omega, listed, foreign⟩

/-- Otherwise all requests are the caller's, and `begin` and `end` enclose those that are not null. -/
theorem scanRequests_range {requests : List (Option Nat)} {index first stop first' stop' : Nat} (low : stop ≤ index)
    (scan : w.scanRequests self requests index first stop = .range first' stop') :
    (∀ id, some id ∈ requests → (w.cookies id).owner = self) ∧ first' ≤ first ∧ stop ≤ stop' ∧
      (∀ k id, requests[k]? = some (some id) → first' ≤ index + k ∧ index + k < stop') ∧
      (first' = first ∨ ∃ k id, first' = index + k ∧ requests[k]? = some (some id)) ∧
      (stop' = stop ∨ ∃ id, some id ∈ requests) := by
  induction requests generalizing index first stop with
  | nil =>
      obtain ⟨rfl, rfl⟩ := Scan.range.inj scan
      exact ⟨fun id listed => (by cases listed), le_rfl, le_rfl, fun k id listed => by simp at listed, Or.inl rfl,
        Or.inl rfl⟩
  | cons request requests ih =>
      cases request with
      | none =>
          obtain ⟨own, lower, upper, within, least, most⟩ := ih (Nat.le_succ_of_le low) scan
          refine ⟨fun id listed => own id (by simpa using listed), lower, upper, fun k id listed => ?_, ?_,
            most.imp_right fun ⟨id, listed⟩ => ⟨id, List.mem_cons_of_mem _ listed⟩⟩
          · cases k with
            | zero => cases listed
            | succ k =>
                have place := within k id listed
                omega
          · rcases least with same | ⟨k, id, same, listed⟩
            · exact Or.inl same
            · exact Or.inr ⟨k + 1, id, by omega, listed⟩
      | some id =>
          rw [World.scanRequests] at scan
          by_cases foreign : (w.cookies id).owner ≠ self
          · rw [if_pos foreign] at scan
            cases scan
          · rw [if_neg foreign] at scan
            obtain ⟨own, lower, upper, within, least, -⟩ := ih le_rfl scan
            refine ⟨fun other listed => ?_, by omega, by omega, fun k other listed => ?_, ?_,
              Or.inr ⟨id, List.mem_cons_self⟩⟩
            · rcases List.mem_cons.mp listed with same | later
              · rw [Option.some.inj same]
                exact not_not.mp foreign
              · exact own other later
            · cases k with
              | zero => omega
              | succ k =>
                  have place := within k other listed
                  omega
            · rcases least with same | ⟨k, other, same, listed⟩
              · by_cases before : first ≤ index
                · exact Or.inl (by omega)
                · exact Or.inr ⟨0, id, by omega, rfl⟩
              · exact Or.inr ⟨k + 1, other, by omega, listed⟩

/-- The loop reads nothing but the owners of the requests. -/
theorem scanRequests_congr {w' : World} {requests : List (Option Nat)}
    (owners : ∀ id, some id ∈ requests → (w'.cookies id).owner = (w.cookies id).owner) (index first stop : Nat) :
    w'.scanRequests self requests index first stop = w.scanRequests self requests index first stop := by
  induction requests generalizing index first stop with
  | nil => rfl
  | cons request requests ih =>
      have later := ih fun id listed => owners id (List.mem_cons_of_mem _ listed)
      cases request with
      | none => exact later _ _ _
      | some id => rw [World.scanRequests, World.scanRequests, owners id List.mem_cons_self, later]

/-- The loop of `wait_any` finds the first request that is done. -/
theorem firstDone_eq_some {cookies : List (Option Nat)} {i : Nat} (found : w.firstDone cookies = some i) :
    (∃ id, cookies[i]? = some (some id) ∧ (w.cookies id).busy = 0) ∧
      ∀ j < i, ∀ id, cookies[j]? = some (some id) → (w.cookies id).busy ≠ 0 := by
  obtain ⟨inside, done, before⟩ := List.findIdx?_eq_some_iff_getElem.mp found
  constructor
  · cases entry : cookies[i] with
    | none =>
        rw [entry] at done
        cases done
    | some id =>
        rw [entry] at done
        exact ⟨id, by rw [List.getElem?_eq_getElem inside, entry], by simpa using done⟩
  · intro j earlier id listed idle
    obtain ⟨within, entry⟩ := List.getElem?_eq_some_iff.mp listed
    have busy := before j earlier
    rw [entry] at busy
    simp [idle] at busy

/-- It finds one if there is one. -/
theorem exists_firstDone {cookies : List (Option Nat)} {id : Nat} (listed : some id ∈ cookies)
    (done : (w.cookies id).busy = 0) : ∃ i, w.firstDone cookies = some i :=
  ⟨_, List.findIdx?_eq_some_of_exists ⟨some id, listed, by simp [done]⟩⟩

end Loops

/-! ### What a process finds as it has left it -/

/-- The process sleeps or not as before, has the same handles, and the cookies on which it has them belong to the same
    processes. -/
structure Threads.Undisturbed (caller : Nat) (s s' : Threads) : Prop where
  asleep : s'.asleep caller = s.asleep caller
  handles : s'.handles caller = s.handles caller
  owner : ∀ id ∈ s.handles caller, (s'.world.cookies id).owner = (s.world.cookies id).owner

section Undisturbed

variable {n self : Nat} {s s' : Threads} {cookies : List (Option Nat)}

/-- A critical section of somebody else. -/
theorem Accounted.undisturbed (accounted : Accounted n s) {critical : Critical} (others : critical.actor ≠ self)
    (stepped : s.step critical = some s') : Threads.Undisturbed self s s' := by
  rcases Threads.step_cases stepped with ⟨other, rfl, woken⟩ | ⟨_, _, performed⟩
  · have unaware := Threads.Unaware.of_personal (.wakeUp woken) (Ne.symm others)
    exact ⟨unaware.asleep, unaware.handles, unaware.owner⟩
  · by_cases notifies : ∃ other id err, critical = .notifyDone other id err
    · obtain ⟨other, id, err, rfl⟩ := notifies
      obtain rfl := Option.some.inj performed
      refine ⟨rfl, rfl, fun kept _ => ?_⟩
      by_cases same : kept = id <;> simp [same]
    · have unaware := accounted.unaware (Ne.symm others)
        (fun other id err equal => notifies ⟨other, id, err, equal⟩) performed
      exact ⟨unaware.asleep, unaware.handles, unaware.owner⟩

/-- Every reachable state has its books in order. -/
theorem Accounted.of_reaches (limit : n ≤ 10000) {meets : Threads → Critical → Prop} (accounted : Accounted n s)
    (reached : s.Reaches meets s') : Accounted n s' := by
  induction reached with
  | refl => exact accounted
  | tail critical before condition stepped ih => exact ih.step limit stepped

/-- `wait_any` returns the index of the first request that is done, or sleeps if there is none. -/
theorem Threads.waitAnyLoop_result (s : Threads) (self : Nat) (cookies : List (Option Nat)) :
    (∃ i, s.world.firstDone cookies = some i ∧ (s.waitAnyLoop self cookies).asleep self = none ∧
        (s.waitAnyLoop self cookies).answer self = some i) ∨
      ∃ sleep, s.world.firstDone cookies = none ∧ (s.waitAnyLoop self cookies).asleep self = some sleep ∧
        sleep.waiter = .waitAny cookies := by
  unfold Threads.waitAnyLoop
  cases found : s.world.firstDone cookies with
  | none => exact Or.inr ⟨_, rfl, Function.update_self self _ s.asleep, rfl⟩
  | some i => exact Or.inl ⟨i, rfl, by simp [Threads.finish], by simp [Threads.finish]⟩

/-- How `wait_any` can end, and that it has looked at the cookies as they are. -/
structure Threads.Searched (caller : Nat) (cookies : List (Option Nat)) (s s' : Threads) : Prop where
  personal : Threads.Personal caller s s'
  result : (∃ i, s'.world.firstDone cookies = some i ∧ s'.asleep caller = none ∧ s'.answer caller = some i) ∨
    ∃ sleep, s'.world.firstDone cookies = none ∧ s'.asleep caller = some sleep ∧ sleep.waiter = .waitAny cookies

/-- The loop only looks at `busy_`. -/
theorem firstDone_congr {w w' : World} (same : w'.cookies = w.cookies) (cookies : List (Option Nat)) :
    w'.firstDone cookies = w.firstDone cookies := by
  unfold World.firstDone
  rw [same]

theorem Threads.Searched.of_loop (s : Threads) (self : Nat) (cookies : List (Option Nat)) :
    Threads.Searched self cookies s (s.waitAnyLoop self cookies) where
  personal := .waitAnyLoop s self cookies
  result := by
    have same := firstDone_congr (Threads.Personal.waitAnyLoop s self cookies).cookies cookies
    rcases s.waitAnyLoop_result self cookies with ⟨i, found, awake, answer⟩ | ⟨sleep, none, asleep, waiter⟩
    · exact Or.inl ⟨i, same.trans found, awake, answer⟩
    · exact Or.inr ⟨sleep, same.trans none, asleep, waiter⟩

/-- `wait_any` from its beginning. -/
theorem Threads.step_waitAny (stepped : s.step (.waitAny self cookies) = some s') :
    Threads.Searched self cookies s s' := by
  rcases Threads.step_cases stepped with ⟨_, impossible, _⟩ | ⟨_, _, performed⟩
  · cases impossible
  · simp only [Threads.perform] at performed
    split at performed
    · obtain rfl := Option.some.inj performed
      have loop := Threads.Searched.of_loop (s.setWaiting self .anyCookie (s.world.procs self).waiting) self cookies
      exact ⟨(Threads.Personal.setWaiting s self _ _).trans loop.personal, loop.result⟩
    · cases performed

/-- A process that is awake may call `wait_any` on its own cookies. -/
theorem Threads.step_waitAny_eq (valid : self < s.world.size) (awake : s.asleep self = none)
    (own : ∀ cookie ∈ cookies, ∀ id ∈ cookie, id ∈ s.handles self ∧ (s.world.cookies id).owner = self) :
    s.step (.waitAny self cookies) =
      some ((s.setWaiting self .anyCookie (s.world.procs self).waiting).waitAnyLoop self cookies) := by
  have able : (Critical.waitAny self cookies).actor < s.world.size ∧
      s.asleep (Critical.waitAny self cookies).actor = none := ⟨valid, awake⟩
  rw [Threads.step, if_pos able, Threads.perform, if_pos own]
  intro _ impossible
  cases impossible

/-- `wait_any` from where it sleeps. -/
theorem Threads.step_resume {sleep : Asleep} (asleep : s.asleep self = some sleep)
    (waiter : sleep.waiter = .waitAny cookies) (stepped : s.step (.resume self) = some s') :
    Threads.Searched self cookies s s' := by
  have woken : s.wakeUp self = some s' := stepped
  unfold Threads.wakeUp at woken
  rw [asleep] at woken
  simp only [waiter] at woken
  split at woken
  · cases woken
  · obtain rfl := Option.some.inj woken
    exact .of_loop s self cookies

end Undisturbed

/-! ### `MPI_Waitany` -/

/-- One of the requests is on another rank's cookie, or the first request is not null, or all requests are null. -/
def Searchable (w : World) (self : Nat) (requests : List (Option Nat)) : Prop :=
  (∃ id, some id ∈ requests ∧ (w.cookies id).owner ≠ self) ∨ (∃ id, requests.head? = some (some id)) ∨
    ∀ request ∈ requests, request = none

namespace Waitany

/-- What is expected of `MPI_Waitany` on `requests` in a state of the call: the index it has set is that of a
    request that is not null and that was done, or another rank's, when the index was set; the status and the
    value returned are those of its cookie; this request alone is set to null, and this cookie's `used_` alone
    is decremented. -/
structure Right (s : Waitany) (caller : Nat) (requests : List (Option Nat)) (status : Option MpiStatus) : Prop where
  unused : (∀ id err, s.phase ≠ .leave id err) → ∀ s', s.own caller = .ok s' → ∀ id,
    (s'.threads.world.cookies id).used = (s.threads.world.cookies id).used
  claims : s.phase = .claim → ∃ (index id : Nat) (cookie : Cookie), s.index = index ∧
    requests[index]? = some (some id) ∧ s.chosen = some (id, cookie) ∧ (cookie.busy = 0 ∨ cookie.owner ≠ caller) ∧
    s.own caller = .ok
      { s with
        phase := .leave id (s.threads.world.cookies id).err
        requests := requests.set index none
        status := status.map fun status => status.get (s.threads.world.cookies id) }
  leaves : ∀ id err, s.phase = .leave id err → ∃ (index : Nat) (threads : Threads), s.index = index ∧
    requests[index]? = some (some id) ∧ s.requests = requests.set index none ∧
    s.own caller = .ok { s with threads := threads, phase := .returned err } ∧
    ∀ other, (threads.world.cookies other).used =
      (s.threads.world.cookies other).used - if other = id then 1 else 0
  returns : ∀ err, s.phase = .returned err →
    (∃ index id : Nat, s.index = index ∧ requests[index]? = some (some id) ∧ s.requests = requests.set index none) ∨
      s.index = mpiUndefined ∧ (∀ request ∈ requests, request = none) ∧ s.requests = requests ∧
        s.status = status.map (fun _ => emptyStatus) ∧ err = mpiSuccess

/-- What is known of a call in each of its phases. -/
inductive Stage (caller : Nat) (origin : World) (requests : List (Option Nat)) (status : Option MpiStatus)
    (s : Waitany) :
    WaitanyPhase → Prop where
  | scan (awake : s.threads.asleep caller = none) (kept : s.requests = requests) (same : s.status = status) :
      Stage caller origin requests status s .scan
  | search {first stop : Nat} (awake : s.threads.asleep caller = none) (kept : s.requests = requests)
      (same : s.status = status) (searchable : stop ≠ 0)
      (scanned : origin.scanRequests caller requests 0 requests.length 0 = .range first stop) :
      Stage caller origin requests status s (.search first stop)
  | sleeping {first stop : Nat} {sleep : Asleep} (asleep : s.threads.asleep caller = some sleep)
      (kept : s.requests = requests) (same : s.status = status) (searchable : stop ≠ 0)
      (scanned : origin.scanRequests caller requests 0 requests.length 0 = .range first stop)
      (waiter : sleep.waiter = .waitAny ((requests.take stop).drop first)) :
      Stage caller origin requests status s .sleeping
  | claim {index id : Nat} {cookie : Cookie} (awake : s.threads.asleep caller = none) (kept : s.requests = requests)
      (same : s.status = status) (place : s.index = index) (listed : requests[index]? = some (some id))
      (chosen : s.chosen = some (id, cookie)) (complete : cookie.busy = 0 ∨ cookie.owner ≠ caller) :
      Stage caller origin requests status s .claim
  | leave {index id : Nat} {err : Int} (awake : s.threads.asleep caller = none) (place : s.index = index)
      (listed : requests[index]? = some (some id)) (taken : s.requests = requests.set index none) :
      Stage caller origin requests status s (.leave id err)
  | returned {index id : Nat} {err : Int} (place : s.index = index) (listed : requests[index]? = some (some id))
      (taken : s.requests = requests.set index none) : Stage caller origin requests status s (.returned err)
  | nothing (place : s.index = mpiUndefined) (null : ∀ request ∈ requests, request = none)
      (kept : s.requests = requests) (same : s.status = status.map fun _ => emptyStatus) :
      Stage caller origin requests status s (.returned mpiSuccess)

/-- What is known of a call that has begun with the processes as in `origin`. -/
structure Course (n caller : Nat) (origin : Threads) (requests : List (Option Nat)) (status : Option MpiStatus)
    (s : Waitany) : Prop where
  accounted : Accounted n s.threads
  handles : (∀ err, s.phase ≠ .returned err) → s.threads.handles caller = origin.handles caller
  owner : (∀ err, s.phase ≠ .returned err) → ∀ id ∈ origin.handles caller,
    (s.threads.world.cookies id).owner = (origin.world.cookies id).owner
  stage : Stage caller origin.world requests status s s.phase

namespace Course

variable {n self : Nat} {origin : Threads} {requests : List (Option Nat)} {status : Option MpiStatus} {s s' : Waitany}

theorem start (accounted : Accounted n origin) (awake : origin.asleep self = none) (requests : List (Option Nat))
    (status : Option MpiStatus) : Course n self origin requests status (.start origin requests status) where
  accounted := accounted
  handles := fun _ => rfl
  owner := fun _ _ _ => rfl
  stage := .scan awake rfl rfl

/-- The others go on. -/
theorem other (course : Course n self origin requests status s) (limit : n ≤ 10000) {critical : Critical}
    {threads : Threads} (others : critical.actor ≠ self) (stepped : s.threads.step critical = some threads) :
    Course n self origin requests status { s with threads := threads } := by
  have undisturbed := course.accounted.undisturbed others stepped
  refine ⟨course.accounted.step limit stepped, fun active => ?_, fun active id listed => ?_, ?_⟩
  · rw [undisturbed.handles, course.handles active]
  · rw [undisturbed.owner id (course.handles active ▸ listed), course.owner active id listed]
  · have awake : ∀ {asleep : Option Asleep}, s.threads.asleep self = asleep → threads.asleep self = asleep :=
      fun before => undisturbed.asleep.trans before
    have stage := course.stage
    show Stage self origin.world requests status { s with threads := threads } s.phase
    generalize s.phase = phase at stage ⊢
    cases stage with
    | scan before kept same => exact .scan (awake before) kept same
    | search before kept same searchable scanned => exact .search (awake before) kept same searchable scanned
    | sleeping before kept same searchable scanned waiter =>
        exact .sleeping (awake before) kept same searchable scanned waiter
    | claim before kept same place listed chosen complete =>
        exact .claim (awake before) kept same place listed chosen complete
    | leave before place listed taken => exact .leave (awake before) place listed taken
    | returned place listed taken => exact .returned place listed taken
    | nothing place null kept same => exact .nothing place null kept same

/-- `*index` is set to the place of a request that is done, or another rank's. -/
theorem choose {threads : Threads} {index id : Nat} (accounted : Accounted n threads)
    (handles : threads.handles self = origin.handles self)
    (owner : ∀ id ∈ origin.handles self, (threads.world.cookies id).owner = (origin.world.cookies id).owner)
    (awake : threads.asleep self = none) (kept : s.requests = requests) (same : s.status = status)
    (listed : requests[index]? = some (some id))
    (complete : (threads.world.cookies id).busy = 0 ∨ (threads.world.cookies id).owner ≠ self) :
    Course n self origin requests status (s.choose threads index) where
  accounted := accounted
  handles := fun _ => handles
  owner := fun _ => owner
  stage := by
    refine .claim awake kept same rfl listed ?_ complete
    simp [Waitany.choose, kept, listed]

/-- What `wait_any` has searched begins at 0. -/
theorem first_eq_zero {w : World} {first stop : Nat} (searchable : Searchable w self requests) (some : stop ≠ 0)
    (scanned : w.scanRequests self requests 0 requests.length 0 = .range first stop) : first = 0 := by
  obtain ⟨own, _, _, within, _, most⟩ := scanRequests_range le_rfl scanned
  rcases searchable with ⟨id, listed, foreign⟩ | ⟨id, head⟩ | null
  · exact absurd (own id listed) foreign
  · rw [List.head?_eq_getElem?] at head
    have place := within 0 id head
    omega
  · rcases most with none | ⟨id, listed⟩
    · exact absurd none some
    · cases null _ listed

/-- `wait_any` returns or sleeps. -/
theorem searched (course : Course n self origin requests status s) (searchable : Searchable origin.world self requests)
    {first stop : Nat} {threads : Threads} (active : ∀ err, s.phase ≠ .returned err) (kept : s.requests = requests)
    (same : s.status = status) (some : stop ≠ 0)
    (scanned : origin.world.scanRequests self requests 0 requests.length 0 = .range first stop)
    (searched : Threads.Searched self ((requests.take stop).drop first) s.threads threads) :
    Course n self origin requests status (s.searched self threads) := by
  have accounted := course.accounted.personal searched.personal
  have handles : threads.handles self = origin.handles self := by rw [searched.personal.handles, course.handles active]
  have owner : ∀ id ∈ origin.handles self, (threads.world.cookies id).owner = (origin.world.cookies id).owner := by
    intro id listed
    rw [searched.personal.cookies, course.owner active id listed]
  rcases searched.result with ⟨i, found, awake, answer⟩ | ⟨sleep, _, asleep, waiter⟩
  · -- the index is one of the array, because the part searched begins at its first request
    obtain ⟨⟨id, listed, done⟩, _⟩ := firstDone_eq_some found
    rw [first_eq_zero searchable some scanned, List.drop_zero, List.getElem?_take] at listed
    split at listed
    · have result : s.searched self threads = s.choose threads i := by
        rw [Waitany.searched, if_pos awake, answer, Option.getD_some]
      rw [result]
      exact choose accounted handles owner awake kept same listed (Or.inl done)
    · cases listed
  · have result : s.searched self threads = { s with threads := threads, phase := .sleeping } := by
      rw [Waitany.searched, if_neg (by simp [asleep])]
    rw [result]
    exact ⟨accounted, fun _ => handles, fun _ => owner, .sleeping asleep kept same some scanned waiter⟩

/-- A step of the call. -/
theorem own (course : Course n self origin requests status s) (limit : n ≤ 10000)
    (held : ∀ id, some id ∈ requests → id ∈ origin.handles self) (searchable : Searchable origin.world self requests)
    (stepped : s.own self = .ok s') : Course n self origin requests status s' := by
  have stage := course.stage
  unfold Waitany.own at stepped
  cases phase : s.phase with
  | scan =>
      rw [phase] at stepped stage
      have active : ∀ err, s.phase ≠ .returned err := fun err => by simp [phase]
      cases stage with
      | scan awake kept same =>
          simp only at stepped
          have owners : ∀ id, some id ∈ requests →
              (s.threads.world.cookies id).owner = (origin.world.cookies id).owner := fun id listed =>
            course.owner active id (held id listed)
          rw [kept, scanRequests_congr owners] at stepped
          cases scanned : origin.world.scanRequests self requests 0 requests.length 0 with
          | foreign index =>
              rw [scanned] at stepped
              obtain rfl := Outcome.ok.inj stepped
              obtain ⟨k, id, rfl, listed, foreign⟩ := scanRequests_foreign scanned
              rw [← owners id (List.mem_of_getElem? listed)] at foreign
              rw [Nat.zero_add]
              exact choose course.accounted (course.handles active) (course.owner active) awake kept same listed
                (Or.inr foreign)
          | range first stop =>
              rw [scanned] at stepped
              simp only at stepped
              by_cases none : stop = 0
              · rw [if_pos none] at stepped
                obtain rfl := Outcome.ok.inj stepped
                obtain ⟨_, _, _, within, _⟩ := scanRequests_range le_rfl scanned
                refine ⟨course.accounted, fun ended => absurd rfl (ended mpiSuccess),
                  fun ended => absurd rfl (ended mpiSuccess), .nothing rfl (fun request listed => ?_) rfl ?_⟩
                · cases request with
                  | none => rfl
                  | some id =>
                      obtain ⟨k, place⟩ := List.getElem?_of_mem listed
                      have inside := within k id place
                      omega
                · rw [← same]
              · rw [if_neg none] at stepped
                obtain rfl := Outcome.ok.inj stepped
                exact ⟨course.accounted, fun _ => course.handles active, fun _ => course.owner active,
                  .search awake rfl same none scanned⟩
  | search first stop =>
      rw [phase] at stepped stage
      have active : ∀ err, s.phase ≠ .returned err := fun err => by simp [phase]
      cases stage with
      | search awake kept same some scanned =>
          simp only [kept] at stepped
          split at stepped
          · cases stepped
          · next threads searches =>
            obtain rfl := Outcome.ok.inj stepped
            exact course.searched searchable active kept same some scanned (Threads.step_waitAny searches)
  | sleeping =>
      rw [phase] at stepped stage
      have active : ∀ err, s.phase ≠ .returned err := fun err => by simp [phase]
      cases stage with
      | sleeping asleep kept same some scanned waiter =>
          simp only at stepped
          split at stepped
          · cases stepped
          · next threads woken =>
            obtain rfl := Outcome.ok.inj stepped
            exact course.searched searchable active kept same some scanned (Threads.step_resume asleep waiter woken)
  | claim =>
      rw [phase] at stepped stage
      have active : ∀ err, s.phase ≠ .returned err := fun err => by simp [phase]
      cases stage with
      | claim awake kept same place listed chosen complete =>
          simp only [kept, place, Int.toNat_natCast, List.getD_eq_getElem?_getD, listed, Option.getD_some] at stepped
          obtain rfl := Outcome.ok.inj stepped
          exact ⟨course.accounted, fun _ => course.handles active, fun _ => course.owner active,
            .leave awake rfl listed rfl⟩
  | leave id err =>
      rw [phase] at stepped stage
      cases stage with
      | leave awake place listed taken =>
          simp only at stepped
          split at stepped
          · cases stepped
          · next threads left =>
            obtain rfl := Outcome.ok.inj stepped
            exact ⟨course.accounted.step limit left, fun ended => absurd rfl (ended err),
              fun ended => absurd rfl (ended err), .returned place listed taken⟩
  | returned err =>
      rw [phase] at stepped
      cases stepped

/-- The call leaves the cookie it has taken. -/
theorem leaves (course : Course n self origin requests status s) (limit : n ≤ 10000) (valid : self < n)
    (held : ∀ id, some id ∈ requests → id ∈ origin.handles self) {index id : Nat} {err : Int}
    (phase : s.phase = .leave id err) (awake : s.threads.asleep self = none)
    (listed : requests[index]? = some (some id)) :
    s.own self = .ok { s with threads := s.threads.leave self id, phase := .returned err } ∧
      ∀ other, ((s.threads.leave self id).world.cookies other).used =
        (s.threads.world.cookies other).used - if other = id then 1 else 0 := by
  have handle : id ∈ s.threads.handles self := by
    rw [course.handles fun err => by simp [phase]]
    exact held id (List.mem_of_getElem? listed)
  have left : s.threads.step (.finalize self id) = some (s.threads.leave self id) := by
    have able : (Critical.finalize self id).actor < s.threads.world.size ∧
        s.threads.asleep (Critical.finalize self id).actor = none := ⟨course.accounted.size.symm ▸ valid, awake⟩
    rw [Threads.step, if_pos able, Threads.perform, if_pos handle]
    · rfl
    · intro _ impossible
      cases impossible
  constructor
  · unfold Waitany.own
    rw [phase]
    simp only [left]
  · intro other
    have cookies : (s.threads.leave self id).world.cookies = (s.threads.world.finalize id).cookies := rfl
    rw [cookies, World.finalize_cookies]
    by_cases same : other = id
    · subst same
      have count := course.accounted.used other (course.accounted.handled self other handle)
      have positive : 0 < handleCount n s.threads.handles other := by
        by_contra none
        exact notMem_of_handleCount (Nat.eq_zero_of_not_pos none) valid handle
      have bound := handleCount_le (n := n) s.threads.handles other fun rank _ => course.accounted.few rank other
      rw [Function.update_self, if_pos rfl, count]
      exact int16_of_range (by omega) (by omega)
    · rw [Function.update_of_ne same, if_neg same, Int.sub_zero]

/-- What is known of a call is what is expected of it. -/
theorem right (course : Course n self origin requests status s) (limit : n ≤ 10000) (valid : self < n)
    (held : ∀ id, some id ∈ requests → id ∈ origin.handles self) : s.Right self requests status where
  unused := by
    intro notLeaving s' stepped id
    unfold Waitany.own at stepped
    cases phase : s.phase with
    | scan =>
        rw [phase] at stepped
        simp only at stepped
        split at stepped
        · obtain rfl := Outcome.ok.inj stepped
          rfl
        · split at stepped <;> (obtain rfl := Outcome.ok.inj stepped; rfl)
    | search first stop =>
        rw [phase] at stepped
        simp only at stepped
        split at stepped
        · cases stepped
        · next threads searches =>
          obtain rfl := Outcome.ok.inj stepped
          have cookies := (Threads.step_waitAny searches).personal.cookies
          have after : (s.searched self threads).threads = threads := by
            unfold Waitany.searched
            split <;> rfl
          rw [after, cookies]
    | sleeping =>
        rw [phase] at stepped
        simp only at stepped
        split at stepped
        · cases stepped
        · next threads woken =>
          obtain rfl := Outcome.ok.inj stepped
          have cookies := (Threads.Personal.wakeUp (show s.threads.wakeUp self = some threads from woken)).cookies
          have after : (s.searched self threads).threads = threads := by
            unfold Waitany.searched
            split <;> rfl
          rw [after, cookies]
    | claim =>
        rw [phase] at stepped
        simp only at stepped
        split at stepped
        · cases stepped
        · obtain rfl := Outcome.ok.inj stepped
          rfl
    | leave other err => exact absurd phase (notLeaving other err)
    | returned err =>
        rw [phase] at stepped
        cases stepped
  claims := by
    intro phase
    have stage := course.stage
    rw [phase] at stage
    cases stage with
    | @claim index id cookie awake kept same place listed chosen complete =>
        refine ⟨index, id, cookie, place, listed, chosen, complete, ?_⟩
        unfold Waitany.own
        rw [phase]
        simp only [kept, place, same, Int.toNat_natCast, List.getD_eq_getElem?_getD, listed, Option.getD_some]
  leaves := by
    intro id err phase
    have stage := course.stage
    rw [phase] at stage
    cases stage with
    | @leave index _ _ awake place listed taken =>
        obtain ⟨stepped, used⟩ := course.leaves limit valid held phase awake listed
        exact ⟨index, _, place, listed, taken, stepped, used⟩
  returns := by
    intro err phase
    have stage := course.stage
    rw [phase] at stage
    cases stage with
    | @returned index id _ place listed taken => exact Or.inl ⟨index, id, place, listed, taken⟩
    | nothing place null kept same => exact Or.inr ⟨place, null, kept, same, rfl⟩

/-- A whole call. -/
theorem of_reaches (accounted : Accounted n origin) (awake : origin.asleep self = none) (limit : n ≤ 10000)
    (held : ∀ id, some id ∈ requests → id ∈ origin.handles self) (searchable : Searchable origin.world self requests)
    (reached : Reaches self (.start origin requests status) s) : Course n self origin requests status s := by
  induction reached with
  | refl => exact .start accounted awake requests status
  | own before stepped ih => exact ih.own limit held searchable stepped
  | other critical before others stepped ih => exact ih.other limit others stepped

end Course

section Wrong

variable {n self : Nat} {origin later : Threads} {requests : List (Option Nat)} {status : Option MpiStatus}

/-- The others go on before the call does anything. -/
theorem reaches_of_others (reached : origin.Reaches (fun _ critical => critical.actor ≠ self) later) :
    Reaches self (.start origin requests status) (.start later requests status) := by
  induction reached with
  | refl => exact .refl
  | tail critical before others stepped ih => exact .other critical ih others stepped

/-- Meanwhile the caller's handles stay what they are. -/
theorem undisturbed_of_others (accounted : Accounted n origin) (limit : n ≤ 10000)
    (reached : origin.Reaches (fun _ critical => critical.actor ≠ self) later) :
    Threads.Undisturbed self origin later := by
  induction reached with
  | refl => exact ⟨rfl, rfl, fun _ _ => rfl⟩
  | tail critical before others stepped ih =>
      have last := (accounted.of_reaches limit before).undisturbed others stepped
      exact ⟨last.asleep.trans ih.asleep, last.handles.trans ih.handles, fun id listed =>
        (last.owner id (ih.handles ▸ listed)).trans (ih.owner id listed)⟩

variable (status) in
/-- When the first request is null and all others are null or the caller's, the index in the part that is searched is
    that of a request before the one that is done. -/
theorem wrong (accounted : Accounted n origin) (limit : n ≤ 10000) (valid : self < n)
    (awake : origin.asleep self = none) (held : ∀ id, some id ∈ requests → id ∈ origin.handles self)
    (unsearchable : ¬ Searchable origin.world self requests)
    (reached : origin.Reaches (fun _ critical => critical.actor ≠ self) later) {done : Nat}
    (listed : some done ∈ requests) (complete : (later.world.cookies done).busy = 0) :
    ∃ s, Reaches self (.start origin requests status) s ∧ ¬ s.Right self requests status := by
  have undisturbed := undisturbed_of_others accounted limit reached
  have awakeLater := undisturbed.asleep.trans awake
  have own : ∀ id, some id ∈ requests → (later.world.cookies id).owner = self := by
    intro id given
    rw [undisturbed.owner id (held id given)]
    by_contra foreign
    exact unsearchable (Or.inl ⟨id, given, foreign⟩)
  have size : later.world.size = n := (accounted.of_reaches limit reached).size
  cases scanned : later.world.scanRequests self requests 0 requests.length 0 with
  | foreign index =>
      obtain ⟨k, id, _, given, foreign⟩ := scanRequests_foreign scanned
      exact absurd (own id (List.mem_of_getElem? given)) foreign
  | range first stop =>
      obtain ⟨_, _, _, within, least, _⟩ := scanRequests_range le_rfl scanned
      obtain ⟨k, place⟩ := List.getElem?_of_mem listed
      have inside := within k done place
      have positive : first ≠ 0 := by
        rintro rfl
        rcases least with empty | ⟨i, id, start, given⟩
        · rw [List.eq_nil_of_length_eq_zero empty.symm] at listed
          cases listed
        · obtain rfl : i = 0 := by omega
          exact unsearchable (Or.inr (Or.inl ⟨id, by rw [List.head?_eq_getElem?, given]⟩))
      have part : ∀ i, first ≤ i → i < stop →
          ((requests.take stop).drop first)[i - first]? = requests[i]? := by
        intro i above below
        rw [List.getElem?_drop, List.getElem?_take_of_lt (by omega), Nat.add_sub_cancel' above]
      -- the first loop, and `wait_any` up to its end
      obtain ⟨threads, searches⟩ : ∃ threads,
          later.step (.waitAny self ((requests.take stop).drop first)) = some threads := by
        refine ⟨_, Threads.step_waitAny_eq (size.symm ▸ valid) awakeLater ?_⟩
        rintro cookie member id rfl
        have given := List.mem_of_mem_take (List.mem_of_mem_drop member)
        exact ⟨undisturbed.handles ▸ held id given, own id given⟩
      have searched := Threads.step_waitAny searches
      obtain ⟨i, found, awakeAfter, answer⟩ : ∃ i,
          threads.world.firstDone ((requests.take stop).drop first) = some i ∧ threads.asleep self = none ∧
            threads.answer self = some i := by
        rcases searched.result with returned | ⟨_, none, _⟩
        · exact returned
        · have member : some done ∈ (requests.take stop).drop first :=
            List.mem_of_getElem? ((part k (by omega) (by omega)).trans place)
          obtain ⟨i, found⟩ := exists_firstDone (w := threads.world) member
            (by rw [searched.personal.cookies, complete])
          rw [none] at found
          cases found
      have scan : (start later requests status).own self =
          .ok { start later requests status with phase := .search first stop, index := mpiUndefined } := by
        unfold Waitany.own
        simp only [start, scanned]
        rw [if_neg (by omega)]
      have search : ({ start later requests status with phase := .search first stop, index := mpiUndefined } :
          Waitany).own self =
          .ok (({ start later requests status with phase := .search first stop, index := mpiUndefined } :
            Waitany).choose threads i) := by
        unfold Waitany.own
        simp only [start, searches]
        rw [Waitany.searched, if_pos awakeAfter, answer, Option.getD_some]
      refine ⟨_, .own (.own (reaches_of_others reached) scan) search, fun right => ?_⟩
      obtain ⟨index, id, cookie, same, given, chosen, finished, _⟩ := right.claims rfl
      obtain rfl : i = index := Int.ofNat.inj same
      have cookies : cookie = later.world.cookies id := by
        have both := Option.some.inj (chosen.symm.trans (by
          simp only [choose, start, List.getD_eq_getElem?_getD, given, Option.getD_some, Option.map_some]
          rfl))
        rw [(Prod.mk.inj both).2, searched.personal.cookies]
      have bounds := within i id given
      rcases finished with idle | foreign
      · refine (firstDone_eq_some found).2 (i - first) (by omega) id ?_ ?_
        · rw [part i (by omega) (by omega), given]
        · rw [searched.personal.cookies, ← cookies, idle]
      · rw [cookies] at foreign
        exact foreign (own id (List.mem_of_getElem? given))

end Wrong

end Waitany

/-- In every order in which the others go on, `MPI_Waitany` does what is expected of it if and only if one of
    the requests is on another rank's cookie, or the first request is not null, or all of them are null. -/
theorem waitany_claims_iff {n self : Nat} (limit : n ≤ 10000) {mem : Memory} {origin : Threads}
    (reached : (Threads.init n mem).Reaches (fun _ _ => True) origin) (valid : self < n)
    (awake : origin.asleep self = none) {requests : List (Option Nat)}
    (held : ∀ id, some id ∈ requests → id ∈ origin.handles self) (status : Option MpiStatus)
    (able : (∀ request ∈ requests, request = none) ∨
      (∃ id, some id ∈ requests ∧ (origin.world.cookies id).owner ≠ self) ∨
      ∃ later, origin.Reaches (fun _ critical => critical.actor ≠ self) later ∧
        ∃ id, some id ∈ requests ∧ (later.world.cookies id).busy = 0) :
    (∀ s, Waitany.Reaches self (.start origin requests status) s → s.Right self requests status) ↔
      Searchable origin.world self requests := by
  have accounted : Accounted n origin := (Accounted.start n mem).of_reaches limit reached
  constructor
  · intro right
    by_contra unsearchable
    rcases able with null | foreign | ⟨later, others, id, listed, complete⟩
    · exact unsearchable (Or.inr (Or.inr null))
    · exact unsearchable (Or.inl foreign)
    · obtain ⟨s, run, wrong⟩ :=
        Waitany.wrong status accounted limit valid awake held unsearchable others listed complete
      exact wrong (right s run)
  · intro searchable s run
    exact (Waitany.Course.of_reaches accounted awake limit held searchable run).right limit valid held

/-- The receive of rank 0 is complete, and the rank waits for it with a null request behind it. -/
theorem waitany_claims_first :
    ∃ origin, (Threads.init 2 fun _ => 0).Reaches (fun _ _ => True) origin ∧
      ∀ s, Waitany.Reaches 0 (.start origin [some 0, none] none) s → s.Right 0 [some 0, none] none := by
  have run : ∃ origin, (Threads.init 2 fun _ => 0).Reaches (fun _ _ => True) origin ∧ origin.asleep 0 = none ∧
      origin.handles 0 = [0] ∧ (origin.world.cookies 0).busy = 0 := by
    refine ⟨_, .tail (.notifyDone 1 0 mpiSuccess) (.tail (.sendRequest 1 0 { region := .heap 1, addr := 0 } 1
      (.basic .char 1) 5) (.tail (.recvRequest 0 { region := .heap 0, addr := 0 } 1 (.basic .char 1) 1 5)
      .refl trivial (by rfl)) trivial (by rfl)) trivial (by rfl), by rfl, by rfl, by rfl⟩
  obtain ⟨origin, reached, awake, handles, done⟩ := run
  refine ⟨origin, reached, (waitany_claims_iff (by decide) reached (by decide) awake ?_ none ?_).mpr
    (Or.inr (Or.inl ⟨0, rfl⟩))⟩
  · intro id listed
    simp only [List.mem_cons, Option.some.injEq, List.not_mem_nil, or_false, reduceCtorEq] at listed
    rw [handles, listed]
    exact List.mem_cons_self
  · exact Or.inr (Or.inr ⟨origin, .refl, 0, List.mem_cons_self, done⟩)

/-- The same with the null request in front: `*index` is 0, and the call dereferences a null handle. -/
theorem waitany_takes_null :
    ∃ origin s, (Threads.init 2 fun _ => 0).Reaches (fun _ _ => True) origin ∧ origin.handles 0 = [0] ∧
      Waitany.Reaches 0 (.start origin [none, some 0] none) s ∧ s.phase = .claim ∧ s.index = 0 ∧
      s.own 0 = .undefined .nullHandle ∧ ¬ s.Right 0 [none, some 0] none := by
  have run : ∃ origin s, (Threads.init 2 fun _ => 0).Reaches (fun _ _ => True) origin ∧ origin.handles 0 = [0] ∧
      Waitany.Reaches 0 (.start origin [none, some 0] none) s ∧ s.phase = .claim ∧ s.index = 0 ∧
      s.own 0 = .undefined .nullHandle := by
    refine ⟨_, _, .tail (.notifyDone 1 0 mpiSuccess) (.tail (.sendRequest 1 0 { region := .heap 1, addr := 0 } 1
      (.basic .char 1) 5) (.tail (.recvRequest 0 { region := .heap 0, addr := 0 } 1 (.basic .char 1) 1 5)
      .refl trivial (by rfl)) trivial (by rfl)) trivial (by rfl), by rfl, .own (.own .refl (by rfl)) (by rfl),
      by rfl, by rfl, by rfl⟩
  obtain ⟨origin, s, reached, handles, called, phase, index, crashes⟩ := run
  refine ⟨origin, s, reached, handles, called, phase, index, crashes, fun right => ?_⟩
  obtain ⟨_, _, _, _, _, _, _, stepped⟩ := right.claims phase
  rw [crashes] at stepped
  cases stepped

end Umpi
