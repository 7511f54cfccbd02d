/-
Module: Umpi.Proofs.StartUp
Layer: Proofs
Purpose: What `MPI_Init` gives. It does not return `MPI_SUCCESS` in any child before all children have been started
  and have constructed their `process`, in whatever order they do it and whoever fails on the way; and what the
  children do with each other afterwards is a run of the system that starts with everybody in place.
Imports: Umpi.Model.Job
Trusted boundary: none
Main exports: Job.Transition, Job.transition_of_step, Job.Constructed, Job.StartsUp, job_starts_up
Open obligations: none
-/
import Umpi.Model.Job

namespace Umpi

open Foundation

/-- The child has not constructed its `process`. -/
def Life.isEarly : Life → Bool
  | unborn | born | failed | mapped => true
  | _ => false

/-- The child is past `shared->init` and has not ended. -/
def Life.hasProcess : Life → Bool
  | constructed | entering | running | finalizing | finalized => true
  | _ => false

/-- `MPI_Init` has returned `MPI_SUCCESS`, and the child has not ended. -/
def Life.isInside : Life → Bool
  | running | finalizing | finalized => true
  | _ => false

theorem Life.late {life : Life} (present : life.hasProcess) : ¬ life.isEarly := by
  cases life <;> first | decide | cases present

theorem Life.early_of_outside {life : Life} (outside : life.isOutside) : life.isEarly := by
  cases life <;> first | rfl | cases outside

theorem Life.alive_of_outside {life : Life} (outside : life.isOutside) : life.isAlive := by
  cases life <;> first | rfl | cases outside

theorem Life.not_running_of_outside {life : Life} (outside : life.isOutside) : life ≠ .running := by
  rintro rfl
  cases outside

namespace Job

variable {size : Nat} {vm : (Nat → Bool) → ProcessVm} {leader : Bool} {program : Program}
  {meets : Job size → JobStep → Prop}

section Fields

variable (s : Job size) (rank : Nat) (life : Life)

@[simp] theorem goto_life : (s.goto rank life).life = Function.update s.life rank life := rfl
@[simp] theorem goto_launcher : (s.goto rank life).launcher = s.launcher := rfl
@[simp] theorem goto_pid : (s.goto rank life).pid = s.pid := rfl
@[simp] theorem goto_procPid : (s.goto rank life).procPid = s.procPid := rfl
@[simp] theorem goto_barrier : (s.goto rank life).barrier = s.barrier := rfl
@[simp] theorem goto_sys : (s.goto rank life).sys = s.sys := rfl
@[simp] theorem goto_met : (s.goto rank life).met = s.met := rfl
@[simp] theorem goto_linked : (s.goto rank life).linked = s.linked := rfl
@[simp] theorem goto_report : (s.goto rank life).report = s.report := rfl
@[simp] theorem goto_terminated : (s.goto rank life).terminated = s.terminated := rfl

end Fields

/-- What every step can do, with the conditions under which it is possible. -/
inductive Transition (vm : (Nat → Bool) → ProcessVm) (leader : Bool) (program : Program) (s : Job size) :
    JobStep → Job size → Prop where
  | fork (rank pid : Nat) (forking : s.launcher = .forking rank) (valid : rank < size) (positive : pid ≠ 0)
      (fresh : ∀ other < rank, s.pid other ≠ pid) :
      Transition vm leader program s (.fork (some pid))
        { s.goto rank .born with
          launcher := .forking (rank + 1)
          pid := Function.update s.pid rank pid }
  | forkFails (rank : Nat) (forking : s.launcher = .forking rank) (valid : rank < size) :
      Transition vm leader program s (.fork none) { s with launcher := .returned 1, linked := false }
  | watch (forking : s.launcher = .forking size) :
      Transition vm leader program s .watch { s with launcher := .waiting }
  | reap (rank : Nat) (waiting : s.launcher = .waiting) (ended : s.life rank = .ended (.exited 0)) :
      Transition vm leader program s (.reap rank) (s.goto rank (.reaped (.exited 0)))
  | reapFailed (rank : Nat) (ending : WaitStatus) (waiting : s.launcher = .waiting)
      (ended : s.life rank = .ended ending) (failed : ending ≠ .exited 0) :
      Transition vm leader program s (.reap rank)
        { (s.goto rank (.reaped ending)).cleanup leader with
          report := some { rank := findRank size s.procPid (s.pid rank), pid := s.pid rank, ending := ending } }
  | childless (waiting : s.launcher = .waiting) (nobody : ∀ rank < size, (s.life rank).isChild = false) :
      Transition vm leader program s .childless { s with launcher := .returned 0, linked := false }
  | interrupt (waiting : s.launcher = .waiting) :
      Transition vm leader program s .interrupt (s.cleanup leader)
  | map (rank : Nat) (outside : (s.life rank).isOutside) (linked : s.linked) :
      Transition vm leader program s (.map rank) (s.goto rank .mapped)
  | mapFails (rank : Nat) (outside : (s.life rank).isOutside) :
      Transition vm leader program s (.mapFails rank) (s.goto rank .failed)
  | construct (rank : Nat) (mapped : s.life rank = .mapped) :
      Transition vm leader program s (.construct rank)
        { s.goto rank .constructed with
          procPid := Function.update s.procPid rank (s.pid rank)
          sys :=
            { s.sys with
              world :=
                { s.sys.world.setProc rank Process.new with
                  ticket := Function.update s.sys.world.ticket rank 0 } } }
  | enter (rank : Nat) (valid : rank < size) (absent : ¬ s.Waits rank) (constructed : s.life rank = .constructed) :
      Transition vm leader program s (.enter rank) (s.arrive rank valid absent .entering)
  | entered (rank : Nat) (entering : s.life rank = .entering) (absent : ¬ s.Waits rank) :
      Transition vm leader program s (.entered rank) (s.goto rank .running)
  | perform (event : Event) (sys : Sys) (running : s.life event.caller = .running)
      (absent : ¬ s.Waits event.caller) (performed : s.sys.perform (vm s.alive) program event = .ok sys) :
      Transition vm leader program s (.perform event) { s with sys := sys }
  | barrier (rank : Nat) (valid : rank < size) (absent : ¬ s.Waits rank) (running : s.life rank = .running)
      (returned : (s.sys.ranks rank).cont = []) :
      Transition vm leader program s (.barrier rank)
        { s.arrive rank valid absent .running with met := Function.update s.met rank (s.met rank + 1) }
  | finalize (rank : Nat) (valid : rank < size) (absent : ¬ s.Waits rank) (running : s.life rank = .running)
      (returned : (s.sys.ranks rank).cont = []) :
      Transition vm leader program s (.finalize rank) (s.arrive rank valid absent .finalizing)
  | finalized (rank : Nat) (finalizing : s.life rank = .finalizing) (absent : ¬ s.Waits rank) :
      Transition vm leader program s (.finalized rank) (s.goto rank .finalized)
  | exit (rank : Nat) (code : Int) (alive : (s.life rank).isAlive) (absent : ¬ s.Waits rank) :
      Transition vm leader program s (.exit rank code) (s.goto rank (.ended (.ofExit code)))
  | kill (rank signal : Nat) (alive : (s.life rank).isAlive) :
      Transition vm leader program s (.kill rank signal) (s.goto rank (.ended (.signaled signal)))

/-- A step that is possible is one of these. -/
theorem transition_of_step {s s' : Job size} {label : JobStep} (stepped : s.step vm leader program label = .ok s') :
    s.Transition vm leader program label s' := by
  cases label with
  | fork forked =>
      simp only [step] at stepped
      split at stepped
      case h_1 rank forking =>
        split at stepped
        · cases stepped
        case isFalse more =>
          have valid : rank < size := Nat.lt_of_not_le more
          cases forked with
          | none =>
              obtain rfl := Outcome.ok.inj stepped
              exact .forkFails rank forking valid
          | some pid =>
              simp only at stepped
              split at stepped
              · cases stepped
              case isFalse new =>
                obtain rfl := Outcome.ok.inj stepped
                refine .fork rank pid forking valid (fun none => new (Or.inl none)) fun other before same => ?_
                exact new (Or.inr ⟨other, before, same⟩)
      · cases stepped
  | watch =>
      simp only [step] at stepped
      split at stepped
      case isTrue forking =>
        obtain rfl := Outcome.ok.inj stepped
        exact .watch forking
      · cases stepped
  | reap rank =>
      simp only [step] at stepped
      split at stepped
      case h_1 ending waiting ended =>
        split at stepped
        case isTrue success =>
          subst success
          obtain rfl := Outcome.ok.inj stepped
          exact .reap rank waiting ended
        case isFalse failed =>
          obtain rfl := Outcome.ok.inj stepped
          exact .reapFailed rank ending waiting ended failed
      · cases stepped
  | childless =>
      simp only [step] at stepped
      split at stepped
      case isTrue possible =>
        obtain rfl := Outcome.ok.inj stepped
        exact .childless possible.1 possible.2
      · cases stepped
  | interrupt =>
      simp only [step] at stepped
      split at stepped
      case isTrue waiting =>
        obtain rfl := Outcome.ok.inj stepped
        exact .interrupt waiting
      · cases stepped
  | map rank =>
      simp only [step] at stepped
      split at stepped
      case isTrue possible =>
        obtain rfl := Outcome.ok.inj stepped
        exact .map rank possible.1 possible.2
      · cases stepped
  | mapFails rank =>
      simp only [step] at stepped
      split at stepped
      case isTrue outside =>
        obtain rfl := Outcome.ok.inj stepped
        exact .mapFails rank outside
      · cases stepped
  | construct rank =>
      simp only [step] at stepped
      split at stepped
      case isTrue mapped =>
        obtain rfl := Outcome.ok.inj stepped
        exact .construct rank mapped
      · cases stepped
  | enter rank =>
      simp only [step] at stepped
      split at stepped
      case isTrue free =>
        split at stepped
        case isTrue constructed =>
          obtain rfl := Outcome.ok.inj stepped
          exact .enter rank free.1 free.2 constructed
        · cases stepped
      · cases stepped
  | entered rank =>
      simp only [step] at stepped
      split at stepped
      case isTrue possible =>
        obtain rfl := Outcome.ok.inj stepped
        exact .entered rank possible.1 possible.2
      · cases stepped
  | perform event =>
      simp only [step] at stepped
      split at stepped
      case isTrue possible =>
        obtain ⟨sys, performed, same⟩ := Outcome.bind_eq_ok.mp stepped
        obtain rfl := Outcome.ok.inj same
        exact .perform event sys possible.1 possible.2 performed
      · cases stepped
  | barrier rank =>
      simp only [step] at stepped
      split at stepped
      case isTrue free =>
        split at stepped
        case isTrue possible =>
          obtain rfl := Outcome.ok.inj stepped
          exact .barrier rank free.1 free.2 possible.1 possible.2
        · cases stepped
      · cases stepped
  | finalize rank =>
      simp only [step] at stepped
      split at stepped
      case isTrue free =>
        split at stepped
        case isTrue possible =>
          obtain rfl := Outcome.ok.inj stepped
          exact .finalize rank free.1 free.2 possible.1 possible.2
        · cases stepped
      · cases stepped
  | finalized rank =>
      simp only [step] at stepped
      split at stepped
      case isTrue possible =>
        obtain rfl := Outcome.ok.inj stepped
        exact .finalized rank possible.1 possible.2
      · cases stepped
  | exit rank code =>
      simp only [step] at stepped
      split at stepped
      case isTrue possible =>
        obtain rfl := Outcome.ok.inj stepped
        exact .exit rank code possible.1 possible.2
      · cases stepped
  | kill rank signal =>
      simp only [step] at stepped
      split at stepped
      case isTrue alive =>
        obtain rfl := Outcome.ok.inj stepped
        exact .kill rank signal alive
      · cases stepped

/-! ### Nobody gets ahead -/

/-- Every child has constructed its `process`. -/
def Constructed (s : Job size) : Prop := ∀ rank < size, s.procPid rank ≠ 0

/-- Who has been started, and whose `process` is there. -/
structure Staffed (s : Job size) : Prop where
  outside : ∀ rank, size ≤ rank → s.life rank = .unborn
  forking : ∀ next, s.launcher = .forking next → next ≤ size ∧ ∀ rank, s.life rank = .unborn ↔ next ≤ rank
  waiting : s.launcher = .waiting → ∀ rank < size, s.life rank ≠ .unborn
  positive : ∀ rank, s.life rank ≠ .unborn → s.pid rank ≠ 0
  distinct : ∀ rank other, s.life rank ≠ .unborn → s.life other ≠ .unborn → s.pid rank = s.pid other → rank = other
  early : ∀ rank, (s.life rank).isEarly → s.procPid rank = 0
  own : ∀ rank, s.procPid rank = 0 ∨ s.procPid rank = s.pid rank
  hasProcess : ∀ rank, (s.life rank).hasProcess → s.procPid rank ≠ 0

/-- Nobody is past the barrier of `MPI_Init` before everybody has constructed its `process`, whatever the children do
    and however they end. -/
structure StartsUp (s : Job size) : Prop where
  staffed : s.Staffed
  waits : ∀ rank, s.Waits rank → s.procPid rank ≠ 0
  entering : ∀ rank, s.life rank = .entering → s.Waits rank ∨ s.Constructed
  inside : ∀ rank, (s.life rank).isInside → s.Constructed

theorem startsUp_start (several : 0 < size) (zeroed : Nat → Process) (mem : Memory) :
    (start size several zeroed mem).StartsUp where
  staffed :=
    { outside := fun _ _ => rfl
      forking := fun next launcher => by
        cases launcher
        exact ⟨Nat.zero_le size, fun rank => ⟨fun _ => Nat.zero_le rank, fun _ => rfl⟩⟩
      waiting := fun launcher => by cases launcher
      positive := fun _ born => absurd rfl born
      distinct := fun _ _ born => absurd rfl born
      early := fun _ _ => rfl
      own := fun _ => Or.inl rfl
      hasProcess := fun _ present => by cases present }
  waits := fun _ waits => absurd waits List.not_mem_nil
  entering := fun _ entering => by cases entering
  inside := fun _ inside => by cases inside

section StartsUp

variable {s s' : Job size} {label : JobStep} {rank : Nat} {life : Life}

theorem Staffed.valid (staffed : s.Staffed) (born : s.life rank ≠ .unborn) : rank < size := by
  by_contra outside
  exact born (staffed.outside rank (Nat.le_of_not_lt outside))

/-- Steps of `mpiexec` alone, and of children that communicate, change nothing of this. -/
theorem Staffed.congr (staffed : s.Staffed) (lives : s'.life = s.life) (pid : s'.pid = s.pid)
    (procPid : s'.procPid = s.procPid)
    (launcher : s'.launcher = s.launcher ∨ ∃ status, s'.launcher = .returned status) : s'.Staffed where
  outside := by rw [lives]; exact staffed.outside
  forking := fun next forking => by
    rcases launcher with same | ⟨status, returned⟩
    · rw [lives]
      exact staffed.forking next (same.symm.trans forking)
    · rw [returned] at forking
      cases forking
  waiting := fun waiting => by
    rcases launcher with same | ⟨status, returned⟩
    · rw [lives]
      exact staffed.waiting (same.symm.trans waiting)
    · rw [returned] at waiting
      cases waiting
  positive := by rw [lives, pid]; exact staffed.positive
  distinct := by rw [lives, pid]; exact staffed.distinct
  early := by rw [lives, procPid]; exact staffed.early
  own := by rw [procPid, pid]; exact staffed.own
  hasProcess := by rw [lives, procPid]; exact staffed.hasProcess

/-- A child goes from one place to another, and may write its `pid_` then. -/
theorem Staffed.place (staffed : s.Staffed) (sys : Sys) {pid : Nat} (born : s.life rank ≠ .unborn)
    (stays : life ≠ .unborn) (early : life.isEarly → pid = 0) (own : pid = 0 ∨ pid = s.pid rank)
    (hasProcess : life.hasProcess → pid ≠ 0) :
    Staffed { s.goto rank life with procPid := Function.update s.procPid rank pid, sys := sys } where
  outside := fun other outside => by
    have another : other ≠ rank := fun same => born (staffed.outside rank (same ▸ outside))
    simpa [another] using staffed.outside other outside
  forking := fun next forking => by
    obtain ⟨bound, unborn⟩ := staffed.forking next forking
    refine ⟨bound, fun other => ?_⟩
    by_cases same : other = rank
    · subst same
      simpa [stays, born] using (unborn other).not.mp born
    · simpa [same] using unborn other
  waiting := fun waiting other valid => by
    by_cases same : other = rank
    · subst same
      simpa using stays
    · simpa [same] using staffed.waiting waiting other valid
  positive := fun other otherBorn => by
    by_cases same : other = rank
    · subst same
      exact staffed.positive other born
    · exact staffed.positive other (by simpa [same] using otherBorn)
  distinct := fun one other oneBorn otherBorn pids => by
    refine staffed.distinct one other ?_ ?_ pids
    · by_cases same : one = rank
      · exact same ▸ born
      · simpa [same] using oneBorn
    · by_cases same : other = rank
      · exact same ▸ born
      · simpa [same] using otherBorn
  early := fun other otherEarly => by
    by_cases same : other = rank
    · subst same
      simpa using early (by simpa using otherEarly)
    · simpa [same] using staffed.early other (by simpa [same] using otherEarly)
  own := fun other => by
    by_cases same : other = rank
    · subst same
      simpa using own
    · simpa [same] using staffed.own other
  hasProcess := fun other present => by
    by_cases same : other = rank
    · subst same
      simpa using hasProcess (by simpa using present)
    · simpa [same] using staffed.hasProcess other (by simpa [same] using present)

/-- A child goes from one place to another. -/
theorem Staffed.goto (staffed : s.Staffed) (born : s.life rank ≠ .unborn) (stays : life ≠ .unborn)
    (early : life.isEarly → (s.life rank).isEarly) (hasProcess : life.hasProcess → (s.life rank).hasProcess) :
    (s.goto rank life).Staffed := by
  have placed := staffed.place s.sys born stays (fun is => staffed.early rank (early is)) (staffed.own rank)
    (fun present => staffed.hasProcess rank (hasProcess present))
  exact placed.congr rfl rfl (Function.update_eq_self rank s.procPid).symm (Or.inl rfl)

/-- `mpiexec` starts the next child. -/
theorem Staffed.fork (staffed : s.Staffed) {pid : Nat} (forking : s.launcher = .forking rank) (valid : rank < size)
    (positive : pid ≠ 0) (fresh : ∀ other < rank, s.pid other ≠ pid) :
    Staffed
      { s.goto rank .born with
        launcher := .forking (rank + 1)
        pid := Function.update s.pid rank pid } := by
  have unborn := (staffed.forking rank forking).2
  have before : ∀ other, s.life other ≠ .unborn → other < rank := fun other born =>
    Nat.lt_of_not_le fun late => born ((unborn other).mpr late)
  have absent : s.procPid rank = 0 := staffed.early rank (by rw [(unborn rank).mpr le_rfl]; rfl)
  have born : ∀ other, Function.update s.life rank .born other ≠ .unborn → other = rank ∨ other < rank := by
    intro other otherBorn
    by_cases same : other = rank
    · exact Or.inl same
    · exact Or.inr (before other (by simpa [same] using otherBorn))
  exact
    { outside := fun other outside => by
        have another : other ≠ rank := fun same => absurd valid (Nat.not_lt_of_le (same ▸ outside))
        simpa [another] using staffed.outside other outside
      forking := fun next more => by
        obtain rfl := Launcher.forking.inj more
        refine ⟨valid, fun other => ?_⟩
        by_cases same : other = rank
        · subst same
          simp
        · simpa [same, unborn other, Nat.succ_le_iff] using
            ⟨fun le => lt_of_le_of_ne le (Ne.symm same), fun lt => Nat.le_of_lt lt⟩
      waiting := fun waiting => by cases waiting
      positive := fun other otherBorn => by
        by_cases same : other = rank
        · subst same
          simpa using positive
        · simpa [same] using staffed.positive other (by simpa [same] using otherBorn)
      distinct := fun one other oneBorn otherBorn pids => by
        rcases born one oneBorn with rfl | oneBefore <;> rcases born other otherBorn with rfl | otherBefore
        · rfl
        · exact absurd (by simpa [otherBefore.ne] using pids.symm) (fresh other otherBefore)
        · exact absurd (by simpa [oneBefore.ne] using pids) (fresh one oneBefore)
        · refine staffed.distinct one other ?_ ?_ (by simpa [oneBefore.ne, otherBefore.ne] using pids)
          · simpa [oneBefore.ne] using oneBorn
          · simpa [otherBefore.ne] using otherBorn
      early := fun other otherEarly => by
        by_cases same : other = rank
        · exact same ▸ absent
        · exact staffed.early other (by simpa [same] using otherEarly)
      own := fun other => by
        by_cases same : other = rank
        · exact Or.inl (same ▸ absent)
        · simpa [same] using staffed.own other
      hasProcess := fun other present => by
        by_cases same : other = rank
        · subst same
          simp [Life.hasProcess] at present
        · exact staffed.hasProcess other (by simpa [same] using present) }

/-! The same for the barrier of `MPI_Init`. -/

/-- Steps of `mpiexec` alone, and of children that communicate. -/
theorem StartsUp.congr (up : s.StartsUp) (lives : s'.life = s.life) (pid : s'.pid = s.pid)
    (procPid : s'.procPid = s.procPid) (barrier : s'.barrier = s.barrier)
    (launcher : s'.launcher = s.launcher ∨ ∃ status, s'.launcher = .returned status) : s'.StartsUp where
  staffed := up.staffed.congr lives pid procPid launcher
  waits := by unfold Waits; rw [barrier, procPid]; exact up.waits
  entering := by unfold Waits Constructed; rw [lives, barrier, procPid]; exact up.entering
  inside := by unfold Constructed; rw [lives, procPid]; exact up.inside

/-- A child goes from one place to another without touching the barrier. -/
theorem StartsUp.goto (up : s.StartsUp) (born : s.life rank ≠ .unborn) (stays : life ≠ .unborn)
    (early : life.isEarly → (s.life rank).isEarly) (hasProcess : life.hasProcess → (s.life rank).hasProcess)
    (entering : life ≠ .entering) (inside : life.isInside → s.Constructed) : (s.goto rank life).StartsUp where
  staffed := up.staffed.goto born stays early hasProcess
  waits := up.waits
  entering := fun other otherEntering => by
    by_cases same : other = rank
    · subst same
      exact absurd (by simpa using otherEntering) entering
    · exact up.entering other (by simpa [same] using otherEntering)
  inside := fun other otherInside => by
    by_cases same : other = rank
    · subst same
      exact inside (by simpa using otherInside)
    · exact up.inside other (by simpa [same] using otherInside)

/-- When the barrier opens all children have arrived, and each of them has constructed its `process` before. -/
theorem StartsUp.arrive (up : s.StartsUp) (valid : rank < size) (absent : ¬ s.Waits rank)
    (present : (s.life rank).hasProcess) (stays : life.hasProcess) (inside : life.isInside → s.Constructed) :
    (s.arrive rank valid absent life).StartsUp := by
  have born : s.life rank ≠ .unborn := fun unborn => by rw [unborn] at present; cases present
  have lives : life ≠ .unborn := fun unborn => by rw [unborn] at stays; cases stays
  have moved := up.staffed.goto born lives (fun early => absurd early (Life.late stays)) (fun _ => present)
  refine ⟨moved.congr rfl rfl rfl (Or.inl rfl), ?waits, ?entering, ?inside⟩
  case waits =>
    intro other waits
    rcases Barrier.arrive_cases valid absent with waiting | ⟨waiting, _⟩
    · have listed : other ∈ rank :: s.barrier.waiting := waiting ▸ waits
      rcases List.mem_cons.mp listed with rfl | before
      · exact up.staffed.hasProcess other present
      · exact up.waits other before
    · have listed : other ∈ ([] : List Nat) := waiting ▸ waits
      exact absurd listed List.not_mem_nil
  case entering =>
    intro other otherEntering
    rcases Barrier.arrive_cases valid absent with waiting | ⟨_, everybody⟩
    · have kept : other ∈ rank :: s.barrier.waiting ∨ s.Constructed := by
        by_cases same : other = rank
        · exact Or.inl (same ▸ List.mem_cons_self)
        · have before := up.entering other (by simpa [Job.arrive, same] using otherEntering)
          exact before.imp (List.mem_cons_of_mem rank) id
      refine kept.imp (fun listed => ?_) id
      show other ∈ (s.barrier.arrive rank valid absent).waiting
      rwa [waiting]
    · refine Or.inr fun other otherValid => ?_
      rcases everybody other otherValid with rfl | waits
      · exact up.staffed.hasProcess other present
      · exact up.waits other waits
  case inside =>
    intro other otherInside
    by_cases same : other = rank
    · subst same
      exact inside (by simpa [Job.arrive] using otherInside)
    · exact up.inside other (by simpa [Job.arrive, same] using otherInside)

/-- A child constructs its `process`, and nobody else's. -/
theorem StartsUp.construct (up : s.StartsUp) (mapped : s.life rank = .mapped) (sys : Sys) :
    StartsUp
      { s.goto rank .constructed with
        procPid := Function.update s.procPid rank (s.pid rank)
        sys := sys } := by
  have born : s.life rank ≠ .unborn := by rw [mapped]; decide
  have positive := up.staffed.positive rank born
  have kept : ∀ other, s.procPid other ≠ 0 → Function.update s.procPid rank (s.pid rank) other ≠ 0 := by
    intro other present
    by_cases same : other = rank
    · subst same
      simpa using positive
    · simpa [same] using present
  have before : ∀ other, (Function.update s.life rank .constructed other).isInside → (s.life other).isInside := by
    intro other inside
    by_cases same : other = rank
    · subst same
      simp [Life.isInside] at inside
    · simpa [same] using inside
  refine ⟨up.staffed.place sys born (by decide) (fun early => by cases early) (Or.inr rfl) (fun _ => positive),
    fun other waits => kept other (up.waits other waits), fun other entering => ?_, fun other inside => ?_⟩
  · have earlier : s.life other = .entering := by
      by_cases same : other = rank
      · subst same
        simp at entering
      · simpa [same] using entering
    exact (up.entering other earlier).imp id fun constructed party valid => kept party (constructed party valid)
  · exact fun party valid => kept party (up.inside other (before other inside) party valid)

/-- A child is started. -/
theorem StartsUp.fork (up : s.StartsUp) {pid : Nat} (forking : s.launcher = .forking rank) (valid : rank < size)
    (positive : pid ≠ 0) (fresh : ∀ other < rank, s.pid other ≠ pid) :
    StartsUp
      { s.goto rank .born with
        launcher := .forking (rank + 1)
        pid := Function.update s.pid rank pid } where
  staffed := up.staffed.fork forking valid positive fresh
  waits := up.waits
  entering := fun other entering => by
    by_cases same : other = rank
    · subst same
      simp at entering
    · exact up.entering other (by simpa [same] using entering)
  inside := fun other inside => by
    by_cases same : other = rank
    · subst same
      simp [Life.isInside] at inside
    · exact up.inside other (by simpa [same] using inside)

/-- No step breaks it. -/
theorem StartsUp.step (up : s.StartsUp) (stepped : s.step vm leader program label = .ok s') : s'.StartsUp := by
  cases transition_of_step stepped with
  | fork rank pid forking valid positive fresh => exact up.fork forking valid positive fresh
  | forkFails rank forking valid => exact up.congr rfl rfl rfl rfl (Or.inr ⟨1, rfl⟩)
  | watch forking =>
      obtain ⟨_, unborn⟩ := up.staffed.forking size forking
      refine ⟨{ up.staffed with
        forking := fun next more => by cases more
        waiting := fun _ rank valid => (unborn rank).not.mpr (Nat.not_le_of_lt valid) },
        up.waits, up.entering, up.inside⟩
  | reap rank waiting ended =>
      have born : s.life rank ≠ .unborn := by rw [ended]; decide
      exact up.goto born (by decide) (fun is => by cases is) (fun is => by cases is) (by decide) (fun is => by cases is)
  | reapFailed rank ending waiting ended failed =>
      have born : s.life rank ≠ .unborn := by rw [ended]; exact Life.noConfusion
      have moved : (s.goto rank (.reaped ending)).StartsUp :=
        up.goto born Life.noConfusion (fun is => by cases is) (fun is => by cases is) Life.noConfusion
          (fun is => by cases is)
      exact moved.congr rfl rfl rfl rfl (Or.inr ⟨1, rfl⟩)
  | childless waiting nobody => exact up.congr rfl rfl rfl rfl (Or.inr ⟨0, rfl⟩)
  | interrupt waiting => exact up.congr rfl rfl rfl rfl (Or.inr ⟨1, rfl⟩)
  | map rank outside linked =>
      have born : s.life rank ≠ .unborn := fun unborn => by rw [unborn] at outside; cases outside
      exact up.goto born (by decide) (fun _ => Life.early_of_outside outside) (fun is => by cases is) (by decide)
        (fun is => by cases is)
  | mapFails rank outside =>
      have born : s.life rank ≠ .unborn := fun unborn => by rw [unborn] at outside; cases outside
      exact up.goto born (by decide) (fun _ => Life.early_of_outside outside) (fun is => by cases is) (by decide)
        (fun is => by cases is)
  | construct rank mapped => exact up.construct mapped _
  | enter rank valid absent constructed =>
      exact up.arrive valid absent (by rw [constructed]; rfl) rfl (fun is => by cases is)
  | entered rank entering absent =>
      have born : s.life rank ≠ .unborn := by rw [entering]; decide
      have opened := (up.entering rank entering).resolve_left absent
      exact up.goto born (by decide) (fun is => by cases is) (fun _ => by rw [entering]; rfl) (by decide)
        (fun _ => opened)
  | perform event sys running absent performed => exact up.congr rfl rfl rfl rfl (Or.inl rfl)
  | barrier rank valid absent running returned =>
      have arrived : (s.arrive rank valid absent .running).StartsUp :=
        up.arrive valid absent (by rw [running]; rfl) rfl (fun _ => up.inside rank (by rw [running]; rfl))
      exact arrived.congr rfl rfl rfl rfl (Or.inl rfl)
  | finalize rank valid absent running returned =>
      exact up.arrive valid absent (by rw [running]; rfl) rfl (fun _ => up.inside rank (by rw [running]; rfl))
  | finalized rank finalizing absent =>
      have born : s.life rank ≠ .unborn := by rw [finalizing]; decide
      exact up.goto born (by decide) (fun is => by cases is) (fun _ => by rw [finalizing]; rfl) (by decide)
        (fun _ => up.inside rank (by rw [finalizing]; rfl))
  | exit rank code alive absent =>
      have born : s.life rank ≠ .unborn := fun unborn => by rw [unborn] at alive; cases alive
      exact up.goto born Life.noConfusion (fun is => by cases is) (fun is => by cases is) Life.noConfusion
        (fun is => by cases is)
  | kill rank signal alive =>
      have born : s.life rank ≠ .unborn := fun unborn => by rw [unborn] at alive; cases alive
      exact up.goto born Life.noConfusion (fun is => by cases is) (fun is => by cases is) Life.noConfusion
        (fun is => by cases is)

/-- Nor does any run. -/
theorem StartsUp.run {history : List (Sys × Event)} (up : s.StartsUp)
    (run : RunsBy vm leader program meets s history s') : s'.StartsUp := by
  induction run with
  | refl => exact up
  | tail label _ _ stepped ih => exact ih.step stepped

end StartsUp

/-! ### The system that comes out of it -/

/-- The system while some of the processes are zero bytes. -/
def assembling (size : Nat) (zeroed : Nat → Process) (mem : Memory) (procPid : Nat → Nat) : Sys :=
  { Sys.init size mem with
    world :=
      { World.start size mem with
        procs := fun rank => if rank < size ∧ procPid rank = 0 then zeroed rank else Process.new } }

/-- When nobody is missing it is the system that all other results start with. -/
theorem assembling_eq_init {zeroed : Nat → Process} {mem : Memory} {procPid : Nat → Nat}
    (constructed : ∀ rank < size, procPid rank ≠ 0) :
    assembling size zeroed mem procPid = Sys.init size mem := by
  have procs : (fun rank => if rank < size ∧ procPid rank = 0 then zeroed rank else Process.new) =
      fun _ => Process.new := by
    funext rank
    exact if_neg fun missing => constructed rank missing.1 missing.2
  unfold assembling
  rw [procs]
  rfl

theorem assembling_construct {zeroed : Nat → Process} {mem : Memory} {procPid : Nat → Nat} {pid : Nat} {sys : Sys}
    (assembled : sys = assembling size zeroed mem procPid) (rank : Nat) (positive : pid ≠ 0) :
    { sys with
      world :=
        { sys.world.setProc rank Process.new with ticket := Function.update sys.world.ticket rank 0 } } =
      assembling size zeroed mem (Function.update procPid rank pid) := by
  subst assembled
  have procs : Function.update (assembling size zeroed mem procPid).world.procs rank Process.new =
      (assembling size zeroed mem (Function.update procPid rank pid)).world.procs := by
    funext other
    by_cases same : other = rank
    · subst same
      simp [assembling, positive]
    · simp [assembling, same]
  have ticket : Function.update (assembling size zeroed mem procPid).world.ticket rank 0 = fun _ => 0 :=
    Function.update_eq_self rank fun _ => 0
  rw [World.setProc, procs, ticket]
  rfl

/-- Nobody has ended when somebody communicates. -/
def Lively (s : Job size) (label : JobStep) : Prop :=
  ∀ event, label = .perform event → ∀ rank, s.alive rank = true

/-- Before the last `process` has been constructed nobody has communicated; afterwards, if the run is calm,
    everything that happens is a run of the system in which all processes are in place. -/
structure Communicates (vm : (Nat → Bool) → ProcessVm) (program : Program) (zeroed : Nat → Process) (mem : Memory)
    (calm : Prop) (history : List (Sys × Event)) (s : Job size) : Prop where
  before : ¬ s.Constructed → s.sys = assembling size zeroed mem s.procPid ∧ history = []
  after : calm → s.Constructed → Sys.Runs (vm fun _ => true) program (Sys.init size mem) history s.sys

section Communicates

variable {zeroed : Nat → Process} {mem : Memory} {history : List (Sys × Event)} {s s' : Job size} {label : JobStep}
  {calm : Prop}

theorem communicates_start (several : 0 < size) :
    Communicates vm program zeroed mem calm [] (start size several zeroed mem) where
  before := fun _ => by
    refine ⟨?_, rfl⟩
    simp [start, assembling]
  after := fun _ constructed => absurd rfl (constructed 0 several)

theorem Communicates.congr (talks : Communicates vm program zeroed mem calm history s)
    (procPid : s'.procPid = s.procPid) (sys : s'.sys = s.sys) :
    Communicates vm program zeroed mem calm history s' where
  before := by unfold Constructed; rw [procPid, sys]; exact talks.before
  after := by unfold Constructed; rw [procPid, sys]; exact talks.after

theorem Communicates.step (talks : Communicates vm program zeroed mem calm history s) (up : s.StartsUp)
    (lively : calm → s.Lively label) (stepped : s.step vm leader program label = .ok s') :
    Communicates vm program zeroed mem calm (s.recorded label ++ history) s' := by
  cases transition_of_step stepped with
  | construct rank mapped =>
      have born : s.life rank ≠ .unborn := by rw [mapped]; decide
      have positive := up.staffed.positive rank born
      have missing : ¬ s.Constructed := fun constructed =>
        constructed rank (up.staffed.valid born) (up.staffed.early rank (by rw [mapped]; rfl))
      obtain ⟨sys, nothing⟩ := talks.before missing
      have assembled := assembling_construct sys rank positive
      subst nothing
      refine ⟨fun _ => ⟨assembled, rfl⟩, fun _ constructed => ?_⟩
      have complete := assembled.trans (assembling_eq_init constructed)
      exact complete.symm ▸ Sys.Runs.refl
  | perform event sys running absent performed =>
      have constructed := up.inside event.caller (by rw [running]; rfl)
      refine ⟨fun missing => absurd constructed missing, fun quiet _ => ?_⟩
      have everybody : s.alive = fun _ => true := funext (lively quiet event rfl)
      rw [everybody] at performed
      exact .tail event (talks.after quiet constructed) performed
  | _ => exact talks.congr rfl rfl

theorem Communicates.run {origin : Job size} (up : origin.StartsUp)
    (talks : Communicates vm program zeroed mem calm [] origin)
    (lively : calm → ∀ state label, meets state label → Lively state label)
    (run : RunsBy vm leader program meets origin history s) : Communicates vm program zeroed mem calm history s := by
  induction run with
  | refl => exact talks
  | tail label before condition stepped ih =>
      exact ih.step (up.run before) (fun quiet => lively quiet _ label condition) stepped

/-- A run in which the steps satisfy a condition is one in which they satisfy what follows from it. -/
theorem RunsBy.weaken {origin : Job size} {weaker : Job size → JobStep → Prop}
    (run : RunsBy vm leader program meets origin history s)
    (follows : ∀ {history s s' label}, RunsBy vm leader program meets origin history s → meets s label →
      s.step vm leader program label = .ok s' → weaker s label) :
    RunsBy vm leader program weaker origin history s := by
  induction run with
  | refl => exact .refl
  | tail label before condition stepped ih => exact .tail label ih (follows before condition stepped) stepped

end Communicates

end Job

open Job

/-- In every run of a job, whatever order the children are started in and construct their `process` in, and whoever
    ends or gets an `MPI_FAIL` from `MPI_Init` on the way: when `MPI_Init` has returned `MPI_SUCCESS` in one of them,
    all have constructed their `process`, and before that nobody has communicated. As long as nobody has ended when
    others communicate, what happens is a run of the system in which all processes are in place. -/
theorem job_starts_up {size : Nat} {vm : (Nat → Bool) → ProcessVm} {leader : Bool} {program : Program}
    {meets : Job size → JobStep → Prop} {zeroed : Nat → Process} {mem : Memory} {history : List (Sys × Event)}
    {s : Job size} (several : 0 < size)
    (run : RunsBy vm leader program meets (Job.start size several zeroed mem) history s) :
    (∀ rank, (s.life rank).isInside → s.Constructed) ∧ (¬ s.Constructed → history = []) ∧
      ((∀ state label, meets state label → Lively state label) → s.Constructed →
        Sys.Runs (vm fun _ => true) program (Sys.init size mem) history s.sys) := by
  have up := startsUp_start several zeroed mem
  have talks := (communicates_start several).run up id run
  exact ⟨(up.run run).inside, fun missing => (talks.before missing).2, talks.after⟩

/-- Rank 1 constructs its `process` first, and rank 0 posts a receive while rank 1 is still in `MPI_Init`. -/
theorem job_starts_up_receive :
    ∃ history, ∃ s : Job 2, history.length = 1 ∧ s.life 1 = .entering ∧ s.Constructed ∧
      Sys.Runs copyingVm (fun _ _ => none) (Sys.init 2 fun _ => 0) history s.sys := by
  have idle : ∀ {s : Job 2} {label : JobStep}, (∀ event, label ≠ .perform event) → s.Lively label :=
    fun other event is => absurd is (other event)
  have runs : ∃ history, ∃ s : Job 2, history.length = 1 ∧ s.life 1 = .entering ∧ s.Constructed ∧
      RunsBy (fun _ => copyingVm) true (fun _ _ => none) Lively
        (Job.start 2 (by decide) (fun _ => Process.new) fun _ => 0) history s := by
    refine ⟨_, _, ?_, ?_, ?_,
      .tail (.perform (.recv 0 (.addr 0) 1 (some Datatype.mpiChar.iovec) 1 0 .world))
        (.tail (.entered 0) (.tail (.enter 0) (.tail (.construct 0) (.tail (.map 0) (.tail (.enter 1)
          (.tail (.construct 1) (.tail (.map 1) (.tail .watch (.tail (.fork (some 8)) (.tail (.fork (some 7)) .refl
          (idle fun _ => nofun) (by rfl)) (idle fun _ => nofun) (by rfl)) (idle fun _ => nofun) (by rfl))
          (idle fun _ => nofun) (by rfl)) (idle fun _ => nofun) (by rfl)) (idle fun _ => nofun) (by rfl))
          (idle fun _ => nofun) (by rfl)) (idle fun _ => nofun) (by rfl)) (idle fun _ => nofun) (by rfl))
        (idle fun _ => nofun) (by rfl)) ?lively (by rfl)⟩
    case lively =>
      rintro _ _ (_ | _ | rank) <;> rfl
    · rfl
    · rfl
    · rintro (_ | _ | rank) valid
      · decide
      · decide
      · omega
  obtain ⟨history, s, length, entering, constructed, run⟩ := runs
  exact ⟨history, s, length, entering, constructed, (job_starts_up (by decide) run).2.2 (fun _ _ => id) constructed⟩

end Umpi
