/-
Module: Umpi.Proofs.Waitall
Layer: Proofs
Purpose: What `MPI_Waitall` does while the other processes go on. It takes the requests in their order, and each as
  `MPI_Wait` would: it goes on when the cookie is another rank's or done, and is never asleep on a cookie that is
  done without having been notified. It stops at the first error and leaves the requests behind it alone.
Imports: Umpi.Model.Waitall, Umpi.Proofs.Waiting, Mathlib lists without their null entries
Trusted boundary: none
Main exports: reported, Waitall.Result, Waitall.ReadsOwn, Waitall.Right, waitall_completes
Open obligations: none
-/
import Umpi.Model.Waitall
import Umpi.Proofs.Waiting
import Mathlib.Data.List.ReduceOption

namespace Umpi

/-! ### Statuses -/

/-- The status of a request that is done with, given the cookie that has been read, if the request was not null. -/
def MpiStatus.after (status : MpiStatus) : Option Cookie → MpiStatus
  | none => emptyStatus
  | some cookie => { status.get cookie with error := cookie.err }

/-- The statuses when as many requests as there are reports are done with. -/
def reported : List MpiStatus → List (Option Cookie) → List MpiStatus
  | status :: statuses, report :: reports => status.after report :: reported statuses reports
  | statuses, _ => statuses

@[simp] theorem reported_nil (statuses : List MpiStatus) : reported statuses [] = statuses := by
  cases statuses <;> rfl

/-- One more report changes one more status. -/
theorem reported_concat (statuses : List MpiStatus) (reports : List (Option Cookie)) (report : Option Cookie) :
    reported statuses (reports ++ [report]) =
      (reported statuses reports).modify reports.length fun status => status.after report := by
  induction reports generalizing statuses with
  | nil => cases statuses <;> simp [reported]
  | cons earlier reports ih =>
      cases statuses with
      | nil => simp [reported]
      | cons status statuses => simp [reported, ih]

/-! ### Waiting for one cookie -/

section Waiting

variable {n self id : Nat} {s s' : Threads} {sleep : Asleep}

/-- How `process::wait` can end. -/
structure Threads.Waited (caller id : Nat) (s s' : Threads) : Prop where
  personal : Threads.Personal caller s s'
  result : (s'.asleep caller = none ∧ (s'.world.cookies id).busy = 0) ∨
    ∃ sleep, s'.asleep caller = some sleep ∧ sleep.waiter = .wait id ∧ s'.Dozing caller sleep

theorem Threads.Waited.of_loop (registered : s.Registered self (.wait id)) :
    Threads.Waited self id s (s.waitLoop self id) where
  personal := .waitLoop s self id
  result := by
    by_cases done : (s.world.cookies id).busy = 0
    · refine Or.inl ⟨?_, ?_⟩
      · simp [Threads.waitLoop, done, Threads.finish]
      · rw [(Threads.Personal.waitLoop s self id).cookies, done]
    · have asleep : (s.waitLoop self id).asleep self = some
          { waiter := .wait id
            signals := (s.world.procs self).signals
            inbox := (s.world.procs self).inbox } := by
        simp [Threads.waitLoop, done, Threads.sleep]
      exact Or.inr ⟨_, asleep, rfl, Threads.waitLoop_asleep registered asleep⟩

/-- `process::wait` from its beginning, which a process that is awake may always call on its own cookies. -/
theorem Threads.step_wait (valid : self < s.world.size) (awake : s.asleep self = none) (handle : id ∈ s.handles self)
    (own : (s.world.cookies id).owner = self) :
    ∃ s', s.step (.wait self id) = some s' ∧ Threads.Waited self id s s' := by
  have able : (Critical.wait self id).actor < s.world.size ∧ s.asleep (Critical.wait self id).actor = none :=
    ⟨valid, awake⟩
  have performed : s.step (.wait self id) = some ((s.setWaiting self .cookie (some id)).waitLoop self id) := by
    rw [Threads.step, if_pos able, Threads.perform, if_pos ⟨handle, own⟩]
    intro _ impossible
    cases impossible
  have registered : (s.setWaiting self .cookie (some id)).Registered self (.wait id) := by
    simpa [Threads.Registered, Threads.setWaiting] using And.intro handle own
  have loop := Threads.Waited.of_loop registered
  exact ⟨_, performed, (Threads.Personal.setWaiting s self _ _).trans loop.personal, loop.result⟩

/-- A sleeper goes on, or its cookie is not done. -/
theorem Threads.step_wait_resume (asleep : s.asleep self = some sleep) (waiter : sleep.waiter = .wait id)
    (dozing : s.Dozing self sleep) :
    (∃ s', s.step (.resume self) = some s' ∧ Threads.Waited self id s s') ∨
      s.step (.resume self) = none ∧ (s.world.cookies id).owner = self ∧ (s.world.cookies id).busy ≠ 0 := by
  have registered := dozing.registered
  rw [waiter] at registered
  have resumes : s.step (.resume self) = s.wakeUp self := rfl
  rw [resumes]
  unfold Threads.wakeUp
  rw [asleep]
  simp only [waiter]
  by_cases notified : (s.world.procs self).signals ≤ sleep.signals
  · rw [if_pos notified]
    have waits := dozing.waits (Nat.le_antisymm notified dozing.since)
    unfold Threads.StillWaits at waits
    rw [waiter] at waits
    exact Or.inr ⟨rfl, registered.2.2.2, waits⟩
  · rw [if_neg notified]
    exact Or.inl ⟨_, rfl, .of_loop registered⟩

/-- What the others do does not disturb a process that sleeps in `process::wait`. -/
theorem Threads.Dozing.of_others (dozing : s.Dozing self sleep) (waiter : sleep.waiter = .wait id)
    (accounted : Accounted n s) {critical : Critical} (others : critical.actor ≠ self)
    (stepped : s.step critical = some s') : s'.Dozing self sleep := by
  rcases Threads.step_cases stepped with ⟨other, rfl, woken⟩ | ⟨_, _, performed⟩
  · exact dozing.unaware (.of_personal (.wakeUp woken) (Ne.symm others))
  · by_cases notifies : ∃ other id err, critical = .notifyDone other id err
    · obtain ⟨other, noted, err, rfl⟩ := notifies
      obtain rfl := Option.some.inj performed
      refine dozing.notifyDone rfl rfl fun cookies impossible => ?_
      rw [waiter] at impossible
      cases impossible
    · exact dozing.unaware (accounted.unaware (Ne.symm others)
        (fun other noted err equal => notifies ⟨other, noted, err, equal⟩) performed)

/-- A process that is awake may leave a cookie on which it has a handle. -/
theorem Threads.step_finalize (valid : self < s.world.size) (awake : s.asleep self = none)
    (handle : id ∈ s.handles self) : s.step (.finalize self id) = some (s.leave self id) := by
  have able : (Critical.finalize self id).actor < s.world.size ∧
      s.asleep (Critical.finalize self id).actor = none := ⟨valid, awake⟩
  rw [Threads.step, if_pos able, Threads.perform, if_pos handle]
  · rfl
  · intro _ impossible
    cases impossible

end Waiting

/-! ### The call -/

namespace Waitall

/-- The requests of `done` are done with: their cookies have been left, and the cookies that have been read report
    no error. -/
structure Behind (caller : Nat) (held : List Nat) (done : List (Option Nat)) (reports : List (Option Cookie))
    (s : Waitall) : Prop where
  handles : s.threads.handles caller = held.diff done.reduceOption
  alike : List.Forall₂ (fun request report => request.isSome = report.isSome) done reports
  clean : ∀ cookie, some cookie ∈ reports → cookie.err = mpiSuccess

/-- What `MPI_Waitall` has done when it returns: it is done with all requests, or with those up to the first one
    whose cookie reports an error, and the requests and statuses behind it are as they were given. -/
inductive Result (caller : Nat) (held : List Nat) (requests : List (Option Nat)) (statuses : Option (List MpiStatus))
    (s : Waitall) : Int → Prop where
  | success (behind : Behind caller held requests s.reports s)
      (null : s.requests = List.replicate requests.length none)
      (told : s.statuses = statuses.map fun statuses => reported statuses s.reports) :
      Result caller held requests statuses s mpiSuccess
  | failed {done rest : List (Option Nat)} {id : Nat} {before : List (Option Cookie)} {cookie : Cookie}
      (split : requests = done ++ some id :: rest)
      (handles : s.threads.handles caller = held.diff (done ++ [some id]).reduceOption)
      (alike : List.Forall₂ (fun request report => request.isSome = report.isSome) done before)
      (clean : ∀ cookie, some cookie ∈ before → cookie.err = mpiSuccess)
      (last : s.reports = before ++ [some cookie]) (error : cookie.err ≠ mpiSuccess)
      (null : s.requests = List.replicate (done.length + 1) none ++ rest)
      (told : s.statuses = statuses.map fun statuses => reported statuses s.reports) :
      Result caller held requests statuses s (if statuses.isSome then mpiErrInStatus else cookie.err)

/-- The reports of a call that began as `begun` are about its requests: the cookie in report `i` is the one of request
    `i`, as it was in a state of the run in which it was the turn of this request and `get_status` came next. -/
def ReadsOwn (caller : Nat) (begun s : Waitall) : Prop :=
  ∀ i cookie, s.reports[i]? = some (some cookie) → ∃ id read,
    begun.requests[i]? = some (some id) ∧ Reaches caller begun read ∧ Reaches caller read s ∧
      read.phase = .report id ∧ read.index = i ∧ cookie = read.threads.world.cookies id

/-- What is expected of a call of `MPI_Waitall` that began with the processes in the state `origin`: it can go on, or
    it has returned, or it sleeps on a cookie of its own that is not done; it comes to read a cookie when that is
    another rank's or done; what it reads for a request is the cookie of that request; and it returns with one of the
    results. -/
structure Right (caller : Nat) (origin : Threads) (requests : List (Option Nat)) (statuses : Option (List MpiStatus))
    (s : Waitall) : Prop where
  goes : (∃ s', s.own caller = .ok s') ∨ (∃ ret, s.phase = .returned ret) ∨
    ∃ id, s.phase = .sleeping id ∧ (s.threads.world.cookies id).owner = caller ∧
      (s.threads.world.cookies id).busy ≠ 0
  waits : ∀ s' id, s.own caller = .ok s' → s'.phase = .report id →
    (s'.threads.world.cookies id).busy = 0 ∨ (s'.threads.world.cookies id).owner ≠ caller
  reads : ReadsOwn caller (.start origin requests statuses) s
  returns : ∀ ret, s.phase = .returned ret → Result caller (origin.handles caller) requests statuses s ret

/-- The call is in the turn of the request `id`, and has not read its cookie. -/
structure Turn (caller : Nat) (held : List Nat) (requests : List (Option Nat)) (statuses : Option (List MpiStatus))
    (id : Nat) (s : Waitall) (done rest : List (Option Nat)) : Prop where
  behind : Behind caller held done s.reports s
  split : requests = done ++ some id :: rest
  index : s.index = done.length
  null : s.requests = List.replicate (done.length + 1) none ++ rest
  told : s.statuses = statuses.map fun statuses => reported statuses s.reports

/-- What is known of a call in each of its phases. -/
inductive Stage (caller : Nat) (held : List Nat) (requests : List (Option Nat)) (statuses : Option (List MpiStatus))
    (s : Waitall) : WaitallPhase → Prop where
  | head {done rest : List (Option Nat)} (awake : s.threads.asleep caller = none)
      (behind : Behind caller held done s.reports s) (split : requests = done ++ rest)
      (index : s.index = done.length) (null : s.requests = List.replicate done.length none ++ rest)
      (told : s.statuses = statuses.map fun statuses => reported statuses s.reports) :
      Stage caller held requests statuses s .head
  | wait {done rest : List (Option Nat)} {id : Nat} (awake : s.threads.asleep caller = none)
      (turn : Turn caller held requests statuses id s done rest) : Stage caller held requests statuses s (.wait id)
  | sleeping {done rest : List (Option Nat)} {id : Nat} {sleep : Asleep}
      (asleep : s.threads.asleep caller = some sleep) (waiter : sleep.waiter = .wait id)
      (dozing : s.threads.Dozing caller sleep) (turn : Turn caller held requests statuses id s done rest) :
      Stage caller held requests statuses s (.sleeping id)
  | report {done rest : List (Option Nat)} {id : Nat} (awake : s.threads.asleep caller = none)
      (turn : Turn caller held requests statuses id s done rest) : Stage caller held requests statuses s (.report id)
  | leave {done rest : List (Option Nat)} {id : Nat} {before : List (Option Cookie)} {cookie : Cookie}
      (awake : s.threads.asleep caller = none) (behind : Behind caller held done before s)
      (split : requests = done ++ some id :: rest) (index : s.index = done.length)
      (null : s.requests = List.replicate (done.length + 1) none ++ rest) (last : s.reports = before ++ [some cookie])
      (told : s.statuses = statuses.map fun statuses =>
        (reported statuses before).modify done.length fun status => status.get cookie) :
      Stage caller held requests statuses s (.leave id cookie.err)
  | returned {ret : Int} (result : Result caller held requests statuses s ret) :
      Stage caller held requests statuses s (.returned ret)

/-- What is known of a call. -/
structure Course (n caller : Nat) (held : List Nat) (requests : List (Option Nat))
    (statuses : Option (List MpiStatus)) (s : Waitall) : Prop where
  accounted : Accounted n s.threads
  stage : Stage caller held requests statuses s s.phase

section Stages

variable {n self id : Nat} {held : List Nat} {requests done rest : List (Option Nat)}
  {statuses : Option (List MpiStatus)} {s s' : Waitall} {threads : Threads} {reports : List (Option Cookie)}

/-- Only the handles of the caller matter. -/
theorem Behind.congr (behind : Behind self held done reports s)
    (handles : s'.threads.handles self = s.threads.handles self) : Behind self held done reports s' :=
  { behind with handles := handles.trans behind.handles }

/-- The turn goes on as long as the call has not done anything about its request. -/
theorem Turn.congr (turn : Turn self held requests statuses id s done rest)
    (handles : s'.threads.handles self = s.threads.handles self)
    (same : s'.reports = s.reports ∧ s'.index = s.index ∧ s'.requests = s.requests ∧ s'.statuses = s.statuses) :
    Turn self held requests statuses id s' done rest := by
  obtain ⟨reports, index, null, told⟩ := same
  refine ⟨?_, turn.split, index.trans turn.index, null.trans turn.null, ?_⟩
  · rw [reports]
    exact turn.behind.congr handles
  · rw [reports]
    exact told.trans turn.told

/-- The request of the turn is held: the process holds each request as often as the array has it. -/
theorem Behind.handle (behind : Behind self held done reports s)
    (split : requests = done ++ some id :: rest)
    (given : ∀ id, requests.reduceOption.count id ≤ held.count id) : id ∈ s.threads.handles self := by
  have enough := given id
  rw [split, List.reduceOption_append, List.reduceOption_cons_of_some, List.count_append,
    List.count_cons_self] at enough
  rw [behind.handles, ← List.count_pos_iff, List.count_diff]
  omega

/-- A change of the processes that the caller takes no part in. -/
theorem Stage.other {phase : WaitallPhase} (stage : Stage self held requests statuses s phase)
    (handles : threads.handles self = s.threads.handles self) (same : threads.asleep self = s.threads.asleep self)
    (dozes : ∀ {sleep : Asleep} {id : Nat}, s.threads.Dozing self sleep → sleep.waiter = .wait id →
      threads.Dozing self sleep) :
    Stage self held requests statuses { s with threads := threads } phase := by
  cases stage with
  | head awake behind split index null told =>
      exact .head (same.trans awake) (behind.congr handles) split index null told
  | wait awake turn => exact .wait (same.trans awake) (turn.congr handles ⟨rfl, rfl, rfl, rfl⟩)
  | sleeping asleep waiter dozing turn =>
      exact .sleeping (same.trans asleep) waiter (dozes dozing waiter) (turn.congr handles ⟨rfl, rfl, rfl, rfl⟩)
  | report awake turn => exact .report (same.trans awake) (turn.congr handles ⟨rfl, rfl, rfl, rfl⟩)
  | leave awake behind split index null last told =>
      exact .leave (same.trans awake) (behind.congr handles) split index null last told
  | returned result =>
      refine .returned ?_
      cases result with
      | success behind null told => exact .success (behind.congr handles) null told
      | failed split left alike clean last error null told =>
          exact .failed split (handles.trans left) alike clean last error null told

end Stages

/-- The entry of the array at the index. -/
theorem getElem?_replicate_append (k : Nat) (rest : List (Option Nat)) :
    (List.replicate k none ++ rest)[k]? = rest.head? := by
  rw [List.getElem?_append_right (by simp), List.length_replicate, Nat.sub_self, List.head?_eq_getElem?]

/-- The entry at the index becomes null. -/
theorem set_replicate_append (k : Nat) (request : Option Nat) (rest : List (Option Nat)) :
    (List.replicate k none ++ request :: rest).set k none = List.replicate (k + 1) none ++ rest := by
  rw [List.set_append_right _ _ (by simp), List.length_replicate, Nat.sub_self, List.set_cons_zero,
    List.replicate_succ', List.append_assoc, List.singleton_append]

namespace Course

variable {n self id : Nat} {held : List Nat} {requests done rest : List (Option Nat)}
  {statuses : Option (List MpiStatus)} {s s' : Waitall} {threads origin : Threads}

theorem start (accounted : Accounted n origin) (awake : origin.asleep self = none) (requests : List (Option Nat))
    (statuses : Option (List MpiStatus)) :
    Course n self (origin.handles self) requests statuses (.start origin requests statuses) where
  accounted := accounted
  stage := by
    refine @Stage.head _ _ _ _ _ [] requests awake ⟨rfl, .nil, fun _ listed => ?_⟩ rfl rfl rfl ?_
    · cases listed
    · show statuses = statuses.map fun statuses => reported statuses []
      simp

/-- The others go on. -/
theorem other (course : Course n self held requests statuses s) (limit : n ≤ 10000) {critical : Critical}
    (others : critical.actor ≠ self) (stepped : s.threads.step critical = some threads) :
    Course n self held requests statuses { s with threads := threads } where
  accounted := course.accounted.step limit stepped
  stage := by
    have undisturbed := course.accounted.undisturbed others stepped
    exact course.stage.other undisturbed.handles undisturbed.asleep fun dozing waiter =>
      dozing.of_others waiter course.accounted others stepped

/-- `process::wait` returns or sleeps. -/
theorem waited (course : Course n self held requests statuses s)
    (turn : Turn self held requests statuses id s done rest) (waited : Threads.Waited self id s.threads threads) :
    Course n self held requests statuses (s.waited self threads id) where
  accounted := course.accounted.personal waited.personal
  stage := by
    have handles : threads.handles self = s.threads.handles self := by rw [waited.personal.handles]
    unfold Waitall.waited
    rcases waited.result with ⟨awake, _⟩ | ⟨sleep, asleep, waiter, dozing⟩
    · simp only [awake, if_true]
      exact .report awake (turn.congr handles ⟨rfl, rfl, rfl, rfl⟩)
    · simp only [asleep, reduceCtorEq, if_false]
      exact .sleeping asleep waiter dozing (turn.congr handles ⟨rfl, rfl, rfl, rfl⟩)

/-- When it returns the cookie is done. -/
theorem waited_report (waited : Threads.Waited self id s.threads threads) {other : Nat}
    (reports : (s.waited self threads id).phase = .report other) : (threads.world.cookies other).busy = 0 := by
  unfold Waitall.waited at reports
  rcases waited.result with ⟨awake, done⟩ | ⟨sleep, asleep, _⟩
  · simp only [awake, if_true] at reports
    obtain rfl := WaitallPhase.report.inj reports
    exact done
  · simp only [asleep, reduceCtorEq, if_false] at reports

/-- A step of the call, after which a cookie that is about to be read is another rank's or done. -/
def Advances (n caller : Nat) (held : List Nat) (requests : List (Option Nat)) (statuses : Option (List MpiStatus))
    (s : Waitall) : Prop :=
  ∃ s', s.own caller = .ok s' ∧ Course n caller held requests statuses s' ∧
    ∀ id, s'.phase = .report id →
      (s'.threads.world.cookies id).busy = 0 ∨ (s'.threads.world.cookies id).owner ≠ caller

/-- At the head of the loop. -/
theorem head_advances (course : Course n self held requests statuses s) (phase : s.phase = .head) :
    Advances n self held requests statuses s := by
  have stage := course.stage
  rw [phase] at stage
  cases stage with
  | @head done rest awake behind split index null told =>
      have entry : s.requests[s.index]? = rest.head? := by
        rw [null, index, getElem?_replicate_append]
      cases rest with
      | nil =>
          refine ⟨{ s with phase := .returned mpiSuccess }, ?_, ⟨course.accounted, .returned ?_⟩, ?_⟩
          · unfold Waitall.own
            rw [phase]
            simp only [entry, List.head?_nil]
          · rw [List.append_nil] at split null
            rw [← split] at behind null
            exact .success (behind.congr rfl) null told
          · intro id impossible
            cases impossible
      | cons request rest =>
          cases request with
          | none =>
              refine ⟨{ s with
                phase := .head
                index := s.index + 1
                statuses := s.setStatus fun _ => emptyStatus
                reports := s.reports ++ [none] }, ?_, ?_, ?_⟩
              · unfold Waitall.own
                rw [phase]
                simp only [entry, List.head?_cons]
                rfl
              · have length := behind.alike.length_eq
                refine ⟨course.accounted, @Stage.head _ _ _ _ _ (done ++ [none]) rest awake ?_ ?_ ?_ ?_ ?_⟩
                · refine ⟨?_, List.rel_append behind.alike (.cons rfl .nil), fun cookie listed => ?_⟩
                  · simpa [List.reduceOption_append] using behind.handles
                  · exact behind.clean cookie (by simpa using listed)
                · rw [split, List.append_assoc, List.singleton_append]
                · rw [List.length_append, List.length_singleton, ← index]
                · rw [List.length_append, List.length_singleton, List.replicate_succ', List.append_assoc]
                  exact null
                · show s.statuses.map _ = _
                  rw [told, Option.map_map]
                  congr 1
                  funext given
                  simp only [Function.comp_apply, index, length]
                  exact (reported_concat given s.reports none).symm
              · intro id impossible
                cases impossible
          | some id =>
              refine ⟨{ s with phase := .wait id, requests := s.requests.set s.index none }, ?_,
                ⟨course.accounted, .wait awake ⟨behind.congr rfl, split, index, ?_, told⟩⟩, ?_⟩
              · unfold Waitall.own
                rw [phase]
                simp only [entry, List.head?_cons]
              · show s.requests.set s.index none = _
                rw [null, index, set_replicate_append]
              · intro id impossible
                cases impossible

/-- Before `cookie->wait()`. -/
theorem wait_advances (course : Course n self held requests statuses s) (valid : self < n)
    (given : ∀ id, requests.reduceOption.count id ≤ held.count id) (phase : s.phase = .wait id) :
    Advances n self held requests statuses s := by
  have stage := course.stage
  rw [phase] at stage
  cases stage with
  | wait awake turn =>
      by_cases own : (s.threads.world.cookies id).owner = self
      · have handle := turn.behind.handle turn.split given
        obtain ⟨threads, stepped, waited⟩ :=
          Threads.step_wait (course.accounted.size.symm ▸ valid) awake handle own
        refine ⟨s.waited self threads id, ?_, course.waited turn waited, fun other reports => ?_⟩
        · unfold Waitall.own
          rw [phase]
          simp only [own, if_true, stepped]
        · exact Or.inl (waited_report waited reports)
      · refine ⟨{ s with phase := .report id }, ?_,
          ⟨course.accounted, .report awake (turn.congr rfl ⟨rfl, rfl, rfl, rfl⟩)⟩, fun other reports => ?_⟩
        · unfold Waitall.own
          rw [phase]
          simp only [own, if_false]
        · obtain rfl := WaitallPhase.report.inj reports
          exact Or.inr own

/-- In `cond_.wait`. -/
theorem sleeping_advances (course : Course n self held requests statuses s) (phase : s.phase = .sleeping id) :
    Advances n self held requests statuses s ∨
      s.own self = .blocked ∧ (s.threads.world.cookies id).owner = self ∧ (s.threads.world.cookies id).busy ≠ 0 := by
  have stage := course.stage
  rw [phase] at stage
  cases stage with
  | sleeping asleep waiter dozing turn =>
      rcases Threads.step_wait_resume asleep waiter dozing with ⟨threads, stepped, waited⟩ | ⟨stays, own, busy⟩
      · refine Or.inl ⟨s.waited self threads id, ?_, course.waited turn waited,
          fun other reports => Or.inl (waited_report waited reports)⟩
        unfold Waitall.own
        rw [phase]
        simp only [stepped]
      · refine Or.inr ⟨?_, own, busy⟩
        unfold Waitall.own
        rw [phase]
        simp only [stays]

/-- Before `get_status`. -/
theorem report_advances (course : Course n self held requests statuses s) (phase : s.phase = .report id) :
    Advances n self held requests statuses s := by
  have stage := course.stage
  rw [phase] at stage
  cases stage with
  | report awake turn =>
      refine ⟨{ s with
        phase := .leave id (s.threads.world.cookies id).err
        statuses := s.setStatus fun status => status.get (s.threads.world.cookies id)
        reports := s.reports ++ [some (s.threads.world.cookies id)] }, ?_, ⟨course.accounted, ?_⟩, ?_⟩
      · unfold Waitall.own
        rw [phase]
      · refine .leave awake (turn.behind.congr rfl) turn.split turn.index turn.null rfl ?_
        show s.statuses.map _ = _
        rw [turn.told, Option.map_map, turn.index]
        rfl
      · intro other impossible
        cases impossible

/-- Before `cookie->leave()`. -/
theorem leave_advances (course : Course n self held requests statuses s) (limit : n ≤ 10000) (valid : self < n)
    (given : ∀ id, requests.reduceOption.count id ≤ held.count id) {err : Int} (phase : s.phase = .leave id err) :
    Advances n self held requests statuses s := by
  have stage := course.stage
  rw [phase] at stage
  cases stage with
  | @leave done rest _ before cookie awake behind split index null last told =>
      have handle := behind.handle split given
      have left := Threads.step_finalize (course.accounted.size.symm ▸ valid) awake handle
      have accounted := course.accounted.step limit left
      have handles : (s.threads.leave self id).handles self = held.diff (done ++ [some id]).reduceOption := by
        rw [List.reduceOption_append, List.diff_append, ← behind.handles]
        simp [Threads.leave]
      have asleep : (s.threads.leave self id).asleep self = none := awake
      have statuses' : (s.setStatus fun status => { status with error := cookie.err }) =
          statuses.map fun statuses => reported statuses s.reports := by
        rw [setStatus, told, Option.map_map, index, last]
        congr 1
        funext statuses
        rw [reported_concat, ← behind.alike.length_eq]
        simp only [Function.comp_apply, List.modify_modify_eq]
        rfl
      by_cases error : cookie.err ≠ mpiSuccess
      · refine ⟨{ s with
          threads := s.threads.leave self id
          phase := .returned (if statuses.isSome then mpiErrInStatus else cookie.err)
          statuses := statuses.map fun statuses => reported statuses s.reports }, ?_, ⟨accounted, ?_⟩, ?_⟩
        · unfold Waitall.own
          rw [phase]
          simp only [left, statuses', next, if_pos error, Option.isSome_map]
        · exact .returned (.failed split handles behind.alike behind.clean last error null rfl)
        · intro other impossible
          cases impossible
      · refine ⟨{ s with
          threads := s.threads.leave self id
          phase := .head
          index := s.index + 1
          statuses := statuses.map fun statuses => reported statuses s.reports }, ?_, ⟨accounted, ?_⟩, ?_⟩
        · unfold Waitall.own
          rw [phase]
          simp only [left, statuses', next, if_neg error]
        · refine @Stage.head _ _ _ _ _ (done ++ [some id]) rest asleep ⟨handles, ?_, fun other listed => ?_⟩ ?_ ?_ ?_
            rfl
          · rw [last]
            exact List.rel_append behind.alike (.cons rfl .nil)
          · rw [last, List.mem_append, List.mem_singleton, Option.some.injEq] at listed
            rcases listed with earlier | rfl
            · exact behind.clean other earlier
            · exact not_not.mp error
          · rw [split, List.append_assoc, List.singleton_append]
          · rw [List.length_append, List.length_singleton, ← index]
          · rw [List.length_append, List.length_singleton]
            exact null
        · intro other impossible
          cases impossible

/-- The call goes on, or it has returned, or it sleeps on a cookie of its own that is not done. -/
theorem advances (course : Course n self held requests statuses s) (limit : n ≤ 10000) (valid : self < n)
    (given : ∀ id, requests.reduceOption.count id ≤ held.count id) :
    Advances n self held requests statuses s ∨ s.own self = .blocked ∧
      ((∃ ret, s.phase = .returned ret) ∨ ∃ id, s.phase = .sleeping id ∧
        (s.threads.world.cookies id).owner = self ∧ (s.threads.world.cookies id).busy ≠ 0) := by
  cases phase : s.phase with
  | head => exact Or.inl (course.head_advances phase)
  | wait id => exact Or.inl (course.wait_advances valid given phase)
  | sleeping id =>
      rcases course.sleeping_advances phase with advances | ⟨blocked, own, busy⟩
      · exact Or.inl advances
      · exact Or.inr ⟨blocked, Or.inr ⟨id, rfl, own, busy⟩⟩
  | report id => exact Or.inl (course.report_advances phase)
  | leave id err => exact Or.inl (course.leave_advances limit valid given phase)
  | returned ret =>
      refine Or.inr ⟨?_, Or.inl ⟨ret, rfl⟩⟩
      unfold Waitall.own
      rw [phase]

/-- A step of the call. -/
theorem own (course : Course n self held requests statuses s) (limit : n ≤ 10000) (valid : self < n)
    (given : ∀ id, requests.reduceOption.count id ≤ held.count id) (stepped : s.own self = .ok s') :
    Course n self held requests statuses s' := by
  rcases course.advances limit valid given with ⟨after, stepped', next, _⟩ | ⟨blocked, _⟩
  · rwa [Outcome.ok.inj (stepped.symm.trans stepped')]
  · rw [blocked] at stepped
    cases stepped

/-- A whole call. -/
theorem of_reaches (accounted : Accounted n origin) (awake : origin.asleep self = none) (limit : n ≤ 10000)
    (valid : self < n) (given : ∀ id, requests.reduceOption.count id ≤ (origin.handles self).count id)
    (reached : Reaches self (.start origin requests statuses) s) :
    Course n self (origin.handles self) requests statuses s := by
  induction reached with
  | refl => exact .start accounted awake requests statuses
  | own before stepped ih => exact ih.own limit valid given stepped
  | other critical before others stepped ih => exact ih.other limit others stepped

/-- What is known of a call is what is expected of it. -/
theorem right (course : Course n self (origin.handles self) requests statuses s) (limit : n ≤ 10000) (valid : self < n)
    (given : ∀ id, requests.reduceOption.count id ≤ (origin.handles self).count id)
    (reads : ReadsOwn self (.start origin requests statuses) s) : Right self origin requests statuses s where
  goes := by
    rcases course.advances limit valid given with ⟨after, stepped, _⟩ | ⟨_, stays⟩
    · exact Or.inl ⟨after, stepped⟩
    · exact Or.inr stays
  waits := by
    intro s' id stepped reports
    rcases course.advances limit valid given with ⟨after, stepped', _, complete⟩ | ⟨blocked, _⟩
    · obtain rfl := Outcome.ok.inj (stepped.symm.trans stepped')
      exact complete id reports
    · rw [blocked] at stepped
      cases stepped
  reads := reads
  returns := by
    intro ret phase
    have stage := course.stage
    rw [phase] at stage
    cases stage with
    | returned result => exact result

end Course

/-! ### What has been read -/

section Reading

variable {self : Nat} {begun s s' : Waitall}

/-- A step reports on at most one request, and on one that was not null only what it reads in the cookie. -/
theorem own_reports (stepped : s.own self = .ok s') :
    s'.reports = s.reports ∨ s'.reports = s.reports ++ [none] ∨
      ∃ id, s.phase = .report id ∧ s'.reports = s.reports ++ [some (s.threads.world.cookies id)] := by
  unfold Waitall.own at stepped
  split at stepped
  case h_1 =>
    split at stepped
    · obtain rfl := Outcome.ok.inj stepped
      exact Or.inl rfl
    · obtain rfl := Outcome.ok.inj stepped
      exact Or.inr (Or.inl rfl)
    · obtain rfl := Outcome.ok.inj stepped
      exact Or.inl rfl
  case h_2 id =>
    split at stepped
    · split at stepped
      · cases stepped
      · obtain rfl := Outcome.ok.inj stepped
        exact Or.inl rfl
    · obtain rfl := Outcome.ok.inj stepped
      exact Or.inl rfl
  case h_3 id =>
    split at stepped
    · cases stepped
    · obtain rfl := Outcome.ok.inj stepped
      exact Or.inl rfl
  case h_4 id phase =>
    obtain rfl := Outcome.ok.inj stepped
    exact Or.inr (Or.inr ⟨id, phase, rfl⟩)
  case h_5 id err =>
    split at stepped
    · cases stepped
    · obtain rfl := Outcome.ok.inj stepped
      refine Or.inl ?_
      unfold next
      split <;> rfl
  case h_6 => cases stepped

/-- What is in a list that has grown was there before, or is last. -/
theorem getElem?_concat_some {α : Type} {l : List α} {a b : α} {i : Nat} (listed : (l ++ [a])[i]? = some b) :
    l[i]? = some b ∨ i = l.length ∧ b = a := by
  rw [List.getElem?_append] at listed
  split at listed
  · exact Or.inl listed
  · next beyond =>
    rw [List.getElem?_singleton] at listed
    split at listed
    · exact Or.inr ⟨by omega, (Option.some.inj listed).symm⟩
    · cases listed

/-- A step of the call reads the cookie whose turn it is. -/
theorem ReadsOwn.own (reads : ReadsOwn self begun s) (reached : Reaches self begun s)
    (turn : ∀ id, s.phase = .report id → begun.requests[s.index]? = some (some id) ∧ s.reports.length = s.index)
    (stepped : s.own self = .ok s') : ReadsOwn self begun s' := by
  intro i cookie listed
  have earlier : s.reports[i]? = some (some cookie) → ∃ id read,
      begun.requests[i]? = some (some id) ∧ Reaches self begun read ∧ Reaches self read s' ∧
        read.phase = .report id ∧ read.index = i ∧ cookie = read.threads.world.cookies id := by
    intro before
    obtain ⟨id, read, own, reached, after, now⟩ := reads i cookie before
    exact ⟨id, read, own, reached, .own after stepped, now⟩
  rcases own_reports stepped with same | appended | ⟨id, phase, appended⟩
  · exact earlier (same ▸ listed)
  · rw [appended] at listed
    rcases getElem?_concat_some listed with before | ⟨_, impossible⟩
    · exact earlier before
    · cases impossible
  · rw [appended] at listed
    rcases getElem?_concat_some listed with before | ⟨last, now⟩
    · exact earlier before
    · obtain ⟨given, length⟩ := turn id phase
      obtain rfl := Option.some.inj now
      have index : s.index = i := length.symm.trans last.symm
      exact ⟨id, s, index ▸ given, reached, .own .refl stepped, phase, index, rfl⟩

/-- In every run of a call what has been read for a request is the cookie of that request. -/
theorem ReadsOwn.of_reaches {n : Nat} {origin : Threads} {requests : List (Option Nat)}
    {statuses : Option (List MpiStatus)} (accounted : Accounted n origin) (awake : origin.asleep self = none)
    (limit : n ≤ 10000) (valid : self < n)
    (given : ∀ id, requests.reduceOption.count id ≤ (origin.handles self).count id)
    (reached : Reaches self (.start origin requests statuses) s) :
    ReadsOwn self (.start origin requests statuses) s := by
  induction reached with
  | refl =>
      intro i cookie impossible
      cases impossible
  | @own s s' before stepped ih =>
      refine ih.own before (fun id phase => ?_) stepped
      have stage := (Course.of_reaches accounted awake limit valid given before).stage
      rw [phase] at stage
      cases stage with
      | report awake turn =>
          refine ⟨?_, turn.behind.alike.length_eq.symm.trans turn.index.symm⟩
          show requests[s.index]? = some (some id)
          rw [turn.index, turn.split, List.getElem?_append_right le_rfl, Nat.sub_self]
          rfl
  | other critical before others stepped ih =>
      intro i cookie listed
      obtain ⟨id, read, own, reached, after, now⟩ := ih i cookie listed
      exact ⟨id, read, own, reached, .other critical after others stepped, now⟩

end Reading

end Waitall

/-- In every order in which the others go on, `MPI_Waitall` on requests that the process holds is done with one after
    the other, goes on as soon as the cookie it waits for is done, reads for each request the cookie of that request,
    and returns with all of them done with or with those up to the first error. -/
theorem waitall_completes {n self : Nat} (limit : n ≤ 10000) {mem : Memory} {origin : Threads}
    (reached : (Threads.init n mem).Reaches (fun _ _ => True) origin) (valid : self < n)
    (awake : origin.asleep self = none) {requests : List (Option Nat)}
    (given : ∀ id, requests.reduceOption.count id ≤ (origin.handles self).count id)
    (statuses : Option (List MpiStatus)) {s : Waitall}
    (run : Waitall.Reaches self (.start origin requests statuses) s) :
    s.Right self origin requests statuses := by
  have accounted : Accounted n origin := (Accounted.start n mem).of_reaches limit reached
  have reads := Waitall.ReadsOwn.of_reaches accounted awake limit valid given run
  exact (Waitall.Course.of_reaches accounted awake limit valid given run).right limit valid given reads

/-- Rank 0 waits for the second of its two receives, which is complete, with a null request behind it. -/
theorem waitall_completes_receive :
    ∃ origin s, (Threads.init 2 fun _ => 0).Reaches (fun _ _ => True) origin ∧
      Waitall.Reaches 0 (.start origin [some 1, none] none) s ∧ s.phase = .returned mpiSuccess ∧
      s.Right 0 origin [some 1, none] none ∧
      ∃ read : Waitall, read.phase = .report 1 ∧ s.reports[0]? = some (some (read.threads.world.cookies 1)) := by
  have runs : ∃ origin s, (Threads.init 2 fun _ => 0).Reaches (fun _ _ => True) origin ∧ origin.asleep 0 = none ∧
      origin.handles 0 = [1, 0] ∧ Waitall.Reaches 0 (.start origin [some 1, none] none) s ∧
      s.phase = .returned mpiSuccess ∧ ∃ cookie, s.reports[0]? = some (some cookie) := by
    refine ⟨_, _, .tail (.notifyDone 1 1 mpiSuccess) (.tail (.sendRequest 1 0 { region := .heap 1, addr := 0 } 1
      (.basic .char 1) 6) (.tail (.recvRequest 0 { region := .heap 0, addr := 1 } 1 (.basic .char 1) 1 6)
      (.tail (.recvRequest 0 { region := .heap 0, addr := 0 } 1 (.basic .char 1) 1 5)
      .refl trivial (by rfl)) trivial (by rfl)) trivial (by rfl)) trivial (by rfl), by rfl, by rfl,
      .own (.own (.own (.own (.own (.own .refl (by rfl)) (by rfl)) (by rfl)) (by rfl)) (by rfl)) (by rfl), by rfl,
      _, by rfl⟩
  obtain ⟨origin, s, reached, awake, handles, run, returned, cookie, reported⟩ := runs
  have given : ∀ id, ([some 1, none] : List (Option Nat)).reduceOption.count id ≤ (origin.handles 0).count id := by
    intro id
    rw [handles]
    exact (List.cons_sublist_cons.mpr (List.nil_sublist [0])).count_le id
  have right := waitall_completes (by decide) reached (by decide) awake given none run
  obtain ⟨id, read, request, _, _, phase, _, rfl⟩ := right.reads 0 cookie reported
  obtain rfl : 1 = id := Option.some.inj (Option.some.inj request)
  exact ⟨origin, s, reached, run, returned, right, read, phase, reported⟩

end Umpi
