/-
Module: Umpi.Proofs.Lifetime
Layer: Proofs
Purpose: What the barriers of a job give when every child calls `MPI_Barrier` equally often, then `MPI_Finalize`, and
  ends only after that. Nobody gets through a barrier before the others have come to it, so nobody ends while others
  communicate, and everything that happens in the job is a run of the system in which all processes are in place.
Imports: Umpi.Proofs.StartUp
Trusted boundary: none
Main exports: Job.Regular, Job.arrivals, Job.Synchronous, job_lives
Open obligations: none
-/
import Umpi.Proofs.StartUp

namespace Umpi

open Foundation

/-- `MPI_Finalize` has been called. -/
def Life.isLate : Life → Bool
  | finalizing | finalized | ended _ | reaped _ => true
  | _ => false

/-- `MPI_Finalize` has returned. -/
def Life.isGone : Life → Bool
  | finalized | ended _ | reaped _ => true
  | _ => false

theorem Life.late_of_gone {life : Life} (gone : life.isGone) : life.isLate := by
  cases life <;> first | rfl | cases gone

namespace Job

variable {size : Nat} {vm : (Nat → Bool) → ProcessVm} {leader : Bool} {program : Program} {calls : Nat}

/-- Every child calls `MPI_Barrier` as often as the others, then `MPI_Finalize`, and ends by itself after that. -/
def Regular (calls : Nat) (s : Job size) : JobStep → Prop
  | .barrier rank => s.met rank < calls
  | .finalize rank => s.met rank = calls
  | .exit rank _ => s.life rank = .finalized
  | .kill _ _ => False
  | _ => True

/-- How often a child has come to the barrier, in `MPI_Init`, in `MPI_Barrier` and in `MPI_Finalize`. -/
def arrivals (s : Job size) (rank : Nat) : Nat :=
  match s.life rank with
  | .unborn | .born | .failed | .mapped | .constructed => 0
  | .entering | .running => s.met rank + 1
  | .finalizing | .finalized | .ended _ | .reaped _ => s.met rank + 2

/-- The children are at the same barrier, or between the same two. -/
structure Synchronous (calls : Nat) (s : Job size) : Prop where
  counts : ∃ era, s.barrier.Counts s.arrivals era
  bounded : ∀ rank, s.met rank ≤ calls
  early : ∀ rank, s.arrivals rank = 0 → s.met rank = 0
  late : ∀ rank, (s.life rank).isLate → s.met rank = calls
  gone : ∀ rank, (s.life rank).isGone → ¬ s.Waits rank

theorem synchronous_start (several : 0 < size) (zeroed : Nat → Process) (mem : Memory) :
    (start size several zeroed mem).Synchronous calls where
  counts := ⟨0, Barrier.counts_opened several⟩
  bounded := fun _ => Nat.zero_le calls
  early := fun _ _ => rfl
  late := fun _ late => by cases late
  gone := fun _ gone => by cases gone

section Synchronous

variable {s s' : Job size} {label : JobStep} {rank : Nat} {life : Life}

/-- A child goes from one place to another without touching the barrier. -/
theorem Synchronous.goto (together : s.Synchronous calls)
    (same : (s.goto rank life).arrivals rank = s.arrivals rank) (late : life.isLate → (s.life rank).isLate)
    (gone : life.isGone → ¬ s.Waits rank) : (s.goto rank life).Synchronous calls := by
  have unchanged : (s.goto rank life).arrivals = s.arrivals := by
    funext other
    by_cases own : other = rank
    · exact own ▸ same
    · simp [arrivals, own]
  refine ⟨unchanged ▸ together.counts, together.bounded, unchanged ▸ together.early, fun other otherLate => ?_,
    fun other otherGone => ?_⟩
  · by_cases own : other = rank
    · subst own
      exact together.late other (late (by simpa using otherLate))
    · exact together.late other (by simpa [own] using otherLate)
  · by_cases own : other = rank
    · subst own
      exact gone (by simpa using otherGone)
    · exact together.gone other (by simpa [own] using otherGone)

/-- A child comes to the barrier once more. -/
theorem Synchronous.arrive (together : s.Synchronous calls) (valid : rank < size) (absent : ¬ s.Waits rank)
    (met : Nat → Nat) (others : ∀ other, other ≠ rank → met other = s.met other)
    (once : arrivals { s.goto rank life with met := met } rank = s.arrivals rank + 1)
    (bounded : met rank ≤ calls) (late : life.isLate → met rank = calls) (stays : ¬ life.isGone) :
    Synchronous calls { s.arrive rank valid absent life with met := met } := by
  have counted : arrivals { s.arrive rank valid absent life with met := met } =
      Function.update s.arrivals rank (s.arrivals rank + 1) := by
    funext other
    by_cases own : other = rank
    · subst own
      rw [Function.update_self]
      exact once
    · simp [arrivals, Job.arrive, own, others other own]
  obtain ⟨era, counts⟩ := together.counts
  obtain ⟨later, _, counts'⟩ := counts.arrive valid absent
  refine ⟨⟨later, ?_⟩, fun other => ?_, fun other none => ?_, fun other otherLate => ?_, fun other otherGone => ?_⟩
  · rw [counted]
    exact counts'
  · by_cases own : other = rank
    · exact own ▸ bounded
    · exact (others other own).le.trans (together.bounded other)
  · rw [counted] at none
    by_cases own : other = rank
    · subst own
      simp at none
    · exact (others other own).trans (together.early other (by simpa [own] using none))
  · by_cases own : other = rank
    · subst own
      exact late (by simpa [Job.arrive] using otherLate)
    · exact (others other own).trans (together.late other (by simpa [Job.arrive, own] using otherLate))
  · by_cases own : other = rank
    · subst own
      exact absurd (by simpa [Job.arrive] using otherGone) stays
    · have before : (s.life other).isGone := by simpa [Job.arrive, own] using otherGone
      rcases Barrier.arrive_cases valid absent with waiting | ⟨waiting, _⟩
      · intro waits
        have listed : other ∈ rank :: s.barrier.waiting := waiting ▸ waits
        exact together.gone other before ((List.mem_cons.mp listed).resolve_left own)
      · intro waits
        have listed : other ∈ ([] : List Nat) := waiting ▸ waits
        exact absurd listed List.not_mem_nil

theorem arrivals_of_outside (outside : (s.life rank).isOutside) : s.arrivals rank = 0 := by
  unfold arrivals
  cases life : s.life rank <;> rw [life] at outside <;> first | rfl | cases outside

/-- No step of a regular run breaks it. -/
theorem Synchronous.step (together : s.Synchronous calls) (up : s.StartsUp) (regular : s.Regular calls label)
    (stepped : s.step vm leader program label = .ok s') : s'.Synchronous calls := by
  cases transition_of_step stepped with
  | fork rank pid forking valid positive fresh =>
      have unborn : s.life rank = .unborn := ((up.staffed.forking rank forking).2 rank).mpr le_rfl
      have moved : (s.goto rank .born).Synchronous calls :=
        together.goto (by simp [arrivals, unborn]) (fun is => by cases is) (fun is => by cases is)
      exact { moved with }
  | forkFails rank forking valid => exact { together with }
  | watch forking => exact { together with }
  | reap rank waiting ended =>
      exact together.goto (by simp [arrivals, ended]) (fun _ => by rw [ended]; rfl)
        (fun _ => together.gone rank (by rw [ended]; rfl))
  | reapFailed rank ending waiting ended failed =>
      have moved : (s.goto rank (.reaped ending)).Synchronous calls :=
        together.goto (by simp [arrivals, ended]) (fun _ => by rw [ended]; rfl)
          (fun _ => together.gone rank (by rw [ended]; rfl))
      exact { moved with }
  | childless waiting nobody => exact { together with }
  | interrupt waiting => exact { together with }
  | map rank outside linked =>
      have never := arrivals_of_outside outside
      exact together.goto (by rw [never]; simp [arrivals]) (fun is => by cases is) (fun is => by cases is)
  | mapFails rank outside =>
      have never := arrivals_of_outside outside
      exact together.goto (by rw [never]; simp [arrivals]) (fun is => by cases is) (fun is => by cases is)
  | construct rank mapped =>
      have moved : (s.goto rank .constructed).Synchronous calls :=
        together.goto (by simp [arrivals, mapped]) (fun is => by cases is) (fun is => by cases is)
      exact { moved with }
  | enter rank valid absent constructed =>
      have before : s.arrivals rank = 0 := by simp [arrivals, constructed]
      have none := together.early rank before
      exact together.arrive valid absent s.met (fun _ _ => rfl) (by simp [arrivals, constructed, none])
        (together.bounded rank) (fun is => by cases is) (by decide)
  | entered rank entering absent =>
      exact together.goto (by simp [arrivals, entering]) (fun is => by cases is) (fun is => by cases is)
  | perform event sys running absent performed => exact { together with }
  | barrier rank valid absent running returned =>
      have more : s.met rank < calls := regular
      exact together.arrive valid absent _ (fun other another => by simp [another]) (by simp [arrivals, running])
        (by simpa [Nat.succ_le_iff] using more) (fun is => by cases is) (by decide)
  | finalize rank valid absent running returned =>
      exact together.arrive valid absent s.met (fun _ _ => rfl) (by simp [arrivals, running])
        (together.bounded rank) (fun _ => regular) (by decide)
  | finalized rank finalizing absent =>
      exact together.goto (by simp [arrivals, finalizing]) (fun _ => by rw [finalizing]; rfl) (fun _ => absent)
  | exit rank code alive absent =>
      have finalized : s.life rank = .finalized := regular
      exact together.goto (by simp [arrivals, finalized]) (fun _ => by rw [finalized]; rfl) (fun _ => absent)
  | kill rank signal alive => exact absurd regular id

theorem Synchronous.run {history : List (Sys × Event)} (together : s.Synchronous calls) (up : s.StartsUp)
    (run : RunsBy vm leader program (Regular calls) s history s') : s'.Synchronous calls := by
  induction run with
  | refl => exact together
  | tail label before regular stepped ih => exact ih.step (up.run before) regular stepped

/-- Whoever is not waiting at the barrier has come to it as often as it has opened, and nobody less often. -/
theorem Synchronous.arrivals_le (together : s.Synchronous calls) (valid : rank < size) (absent : ¬ s.Waits rank)
    {other : Nat} (otherValid : other < size) : s.arrivals rank ≤ s.arrivals other := by
  obtain ⟨era, counts⟩ := together.counts
  rw [counts.of_absent valid absent]
  exact counts.era_le otherValid

theorem arrivals_of_late (late : (s.life rank).isLate) : s.arrivals rank = s.met rank + 2 := by
  unfold arrivals
  cases life : s.life rank <;> rw [life] at late <;> first | rfl | cases late

theorem arrivals_of_early (early : ¬ (s.life rank).isLate) : s.arrivals rank ≤ s.met rank + 1 := by
  unfold arrivals
  cases life : s.life rank <;> rw [life] at early <;> first | exact absurd rfl early | simp

/-- When somebody has returned from `MPI_Finalize`, everybody has called it, and the barrier has opened. -/
theorem Synchronous.all_late (together : s.Synchronous calls) (valid : rank < size) (gone : (s.life rank).isGone)
    {other : Nat} (otherValid : other < size) : (s.life other).isLate ∧ ¬ s.Waits other := by
  have absent := together.gone rank gone
  have late := Life.late_of_gone gone
  have all : s.arrivals rank = calls + 2 := by rw [arrivals_of_late late, together.late rank late]
  have least := together.arrivals_le valid absent otherValid
  have bounded := together.bounded other
  have otherLate : (s.life other).isLate := by
    by_contra early
    have most := arrivals_of_early early
    omega
  refine ⟨otherLate, fun waits => ?_⟩
  obtain ⟨era, counts⟩ := together.counts
  have once := counts.of_waiting otherValid waits
  rw [arrivals_of_late otherLate] at once
  rw [counts.of_absent valid absent] at all
  omega

/-- As long as somebody has not called `MPI_Finalize`, nobody has ended. -/
theorem Synchronous.all_alive (together : s.Synchronous calls) (up : s.StartsUp) (valid : rank < size)
    (before : ¬ (s.life rank).isLate) (other : Nat) : s.alive other = true := by
  by_contra ended
  have isOver : (s.life other).isOver := by simpa [alive] using ended
  have born : s.life other ≠ .unborn := fun unborn => by rw [unborn] at isOver; cases isOver
  have gone : (s.life other).isGone := by
    cases life : s.life other <;> rw [life] at isOver <;> first | rfl | cases isOver
  exact before (together.all_late (up.staffed.valid born) gone valid).1

/-- So everybody is there when somebody communicates. -/
theorem Synchronous.lively (together : s.Synchronous calls) (up : s.StartsUp)
    (stepped : s.step vm leader program label = .ok s') : s.Lively label := by
  rintro event rfl other
  cases transition_of_step stepped with
  | perform _ sys running absent performed =>
      have born : s.life event.caller ≠ .unborn := by rw [running]; decide
      exact together.all_alive up (up.staffed.valid born) (by rw [running]; decide) other

/-- A child that has got through its latest barrier has called `MPI_Barrier` no more often than the others. -/
theorem Synchronous.met_le (together : s.Synchronous calls) (valid : rank < size) (running : s.life rank = .running)
    (absent : ¬ s.Waits rank) {other : Nat} (otherValid : other < size) : s.met rank ≤ s.met other := by
  have least := together.arrivals_le valid absent otherValid
  have own : s.arrivals rank = s.met rank + 1 := by simp only [arrivals, running]
  by_cases late : (s.life other).isLate
  · rw [together.late other late]
    exact together.bounded rank
  · have most := arrivals_of_early late
    omega

/-- What holds in all states of a regular run. -/
theorem regular_runs {zeroed : Nat → Process} {mem : Memory} {history : List (Sys × Event)} (several : 0 < size)
    (run : RunsBy vm leader program (Regular calls) (start size several zeroed mem) history s) :
    s.StartsUp ∧ s.Synchronous calls ∧ Communicates vm program zeroed mem True history s := by
  have up := startsUp_start several zeroed mem
  have together : (start size several zeroed mem).Synchronous calls := synchronous_start several zeroed mem
  have lively : RunsBy vm leader program Lively (start size several zeroed mem) history s :=
    run.weaken fun before _ stepped => (together.run up before).lively (up.run before) stepped
  have talks : Communicates vm program zeroed mem True history s :=
    (communicates_start several).run up (fun _ _ _ => id) lively
  exact ⟨up.run run, together.run up run, talks⟩

end Synchronous

end Job

open Job

/-- In every run of a job whose children all call `MPI_Barrier` the same number of times, then `MPI_Finalize`, and
    end after that: when somebody has returned from `MPI_Finalize` everybody has called it and nobody is waiting; a
    child that is not waiting has called `MPI_Barrier` as often as any other or is behind; nobody has ended as long as
    somebody has not called `MPI_Finalize`; and what happens is a run of the system in which all processes are in
    place. -/
theorem job_lives {size : Nat} {vm : (Nat → Bool) → ProcessVm} {leader : Bool} {program : Program} {calls : Nat}
    {zeroed : Nat → Process} {mem : Memory} {history : List (Sys × Event)} {s : Job size} (several : 0 < size)
    (run : RunsBy vm leader program (Regular calls) (Job.start size several zeroed mem) history s) :
    (∀ rank < size, (s.life rank).isGone → ∀ other < size, (s.life other).isLate ∧ ¬ s.Waits other) ∧
      (∀ rank < size, s.life rank = .running → ¬ s.Waits rank → ∀ other < size, s.met rank ≤ s.met other) ∧
      (∀ rank < size, ¬ (s.life rank).isLate → ∀ other, s.alive other = true) ∧
      (s.Constructed → Sys.Runs (vm fun _ => true) program (Sys.init size mem) history s.sys) := by
  obtain ⟨up, together, talks⟩ := regular_runs several run
  exact ⟨fun rank valid gone other => together.all_late valid gone,
    fun rank valid running absent other => together.met_le valid running absent,
    fun rank => together.all_alive up, talks.after trivial⟩

/-- Two children meet at one `MPI_Barrier`, and rank 0 ends while rank 1 has not returned from `MPI_Finalize`. -/
theorem job_lives_pair :
    ∃ history, ∃ s : Job 2, s.life 0 = .ended (.exited 0) ∧ (s.life 1).isLate ∧ ¬ s.Waits 1 ∧
      Sys.Runs copyingVm (fun _ _ => none) (Sys.init 2 fun _ => 0) history s.sys := by
  have runs : ∃ history, ∃ s : Job 2, s.life 0 = .ended (.exited 0) ∧ s.Constructed ∧
      RunsBy (fun _ => copyingVm) true (fun _ _ => none) (Regular 1)
        (Job.start 2 (by decide) (fun _ => Process.new) fun _ => 0) history s := by
    refine ⟨_, _, ?ended, ?constructed,
      .tail (.exit 0 0) (.tail (.finalized 0) (.tail (.finalize 0) (.tail (.finalize 1)
        (.tail (.barrier 1) (.tail (.barrier 0) (.tail (.entered 1) (.tail (.entered 0) (.tail (.enter 1)
        (.tail (.enter 0) (.tail (.construct 1) (.tail (.map 1) (.tail (.construct 0) (.tail (.map 0)
        (.tail .watch (.tail (.fork (some 8)) (.tail (.fork (some 7)) .refl
        trivial (by rfl)) trivial (by rfl)) trivial (by rfl)) trivial (by rfl)) trivial (by rfl)) trivial (by rfl))
        trivial (by rfl)) trivial (by rfl)) trivial (by rfl)) trivial (by rfl)) trivial (by rfl))
        (by exact Nat.zero_lt_one) (by rfl)) (by exact Nat.zero_lt_one) (by rfl)) (by rfl) (by rfl)) (by rfl) (by rfl))
        trivial (by rfl)) (by rfl) (by rfl)⟩
    case ended => rfl
    case constructed =>
      rintro (_ | _ | rank) valid
      · decide
      · decide
      · omega
  obtain ⟨history, s, ended, constructed, run⟩ := runs
  obtain ⟨finalized, _, _, runs⟩ := job_lives (by decide) run
  obtain ⟨late, absent⟩ := finalized 0 (by decide) (by rw [ended]; rfl) 1 (by decide)
  exact ⟨history, s, ended, late, absent, runs constructed⟩

end Umpi
