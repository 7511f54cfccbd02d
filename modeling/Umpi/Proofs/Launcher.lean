/-
Module: Umpi.Proofs.Launcher
Layer: Proofs
Purpose: What the exit status and the message of `mpiexec` say about its children. It succeeds only when all of them
  have been started and have ended with status 0; when one has failed, it names that one and sends a `SIGTERM` to all
  others; when it cannot start them all, `MPI_Init` succeeds in none of those it has started.
Imports: Umpi.Proofs.StartUp
Trusted boundary: none
Main exports: Job.StartsUp.findRank, Job.Supervised, mpiexec_reports
Open obligations: none
-/
import Umpi.Proofs.StartUp

namespace Umpi

open Foundation

namespace Job

variable {size : Nat} {vm : (Nat → Bool) → ProcessVm} {leader : Bool} {program : Program}
  {meets : Job size → JobStep → Prop} {s s' : Job size} {label : JobStep} {rank : Nat} {life : Life}

/-- `find_rank` finds the rank of a child that has constructed its `process`, and of no other. -/
theorem StartsUp.findRank (up : s.StartsUp) (born : s.life rank ≠ .unborn) :
    findRank size s.procPid (s.pid rank) = if s.procPid rank = 0 then -1 else (rank : Int) := by
  have positive := up.staffed.positive rank born
  -- no other `process` has this number
  have only : ∀ i, s.procPid i = s.pid rank → i = rank := by
    intro i same
    have constructed : s.procPid i ≠ 0 := same ▸ positive
    have otherBorn : s.life i ≠ .unborn := fun unborn => constructed (up.staffed.early i (by rw [unborn]; rfl))
    have own := (up.staffed.own i).resolve_left constructed
    exact up.staffed.distinct i rank otherBorn born (own.symm.trans same)
  unfold Umpi.findRank
  cases found : (List.range size).find? fun i => s.procPid i = s.pid rank with
  | some i =>
      have same : s.procPid i = s.pid rank := by simpa using List.find?_some found
      obtain rfl := only i same
      rw [if_neg (same ▸ positive)]
  | none =>
      have missing := List.find?_eq_none.mp found rank (List.mem_range.mpr (up.staffed.valid born))
      have absent : s.procPid rank = 0 := (up.staffed.own rank).resolve_right (by simpa using missing)
      rw [if_pos absent]

/-- What `mpiexec` knows of its children. -/
structure Supervised (leader : Bool) (s : Job size) : Prop where
  linked : ∀ status, s.launcher = .returned status → (status = 0 ∨ status = 1) ∧ s.linked = false
  success : s.launcher = .returned 0 → ∀ rank < size, ∃ ending, s.life rank = .reaped ending
  reaped : ∀ rank ending, s.life rank = .reaped ending → ending = .exited 0 ∨ s.report.isSome
  failure : s.launcher = .returned 1 → (∃ rank < size, s.life rank = .unborn) ∨
    (leader = true → ∀ rank, (s.life rank).isAlive → s.terminated rank = true)
  report : ∀ report, s.report = some report → s.launcher = .returned 1 ∧ ∃ rank < size,
    s.life rank = .reaped report.ending ∧ report.ending ≠ .exited 0 ∧ report.pid = s.pid rank ∧
      report.rank = if s.procPid rank = 0 then -1 else (rank : Int)

theorem supervised_start (several : 0 < size) (zeroed : Nat → Process) (mem : Memory) :
    (start size several zeroed mem).Supervised leader where
  linked := fun _ returned => by cases returned
  success := fun returned => by cases returned
  reaped := fun _ _ reaped => by cases reaped
  failure := fun returned => by cases returned
  report := fun _ reported => by cases reported

/-- A child does something, or ends. -/
theorem Supervised.goto (supervised : s.Supervised leader) (alive : (s.life rank).isAlive) (stays : life.isChild)
    {procPid : Nat → Nat} (kept : ∀ other, other ≠ rank → procPid other = s.procPid other) {sys : Sys}
    {barrier : Barrier size} {met : Nat → Nat} :
    Supervised leader { s.goto rank life with procPid := procPid, sys := sys, barrier := barrier, met := met } where
  linked := supervised.linked
  success := fun returned other valid => by
    obtain ⟨ending, reaped⟩ := supervised.success returned other valid
    have another : other ≠ rank := fun same => by
      rw [← same, reaped] at alive
      cases alive
    exact ⟨ending, by simpa [another] using reaped⟩
  reaped := fun other ending reaped => by
    by_cases same : other = rank
    · subst same
      have wasReaped : life = .reaped ending := by simpa using reaped
      rw [wasReaped] at stays
      cases stays
    · exact supervised.reaped other ending (by simpa [same] using reaped)
  failure := fun returned => by
    rcases supervised.failure returned with ⟨other, valid, unborn⟩ | sent
    · have another : other ≠ rank := fun same => by
        rw [← same, unborn] at alive
        cases alive
      exact Or.inl ⟨other, valid, by simpa [another] using unborn⟩
    · refine Or.inr fun leads other otherAlive => ?_
      by_cases same : other = rank
      · exact sent leads other (same ▸ alive)
      · exact sent leads other (by simpa [same] using otherAlive)
  report := fun report reported => by
    obtain ⟨returned, other, valid, reaped, failed, pid, named⟩ := supervised.report report reported
    have another : other ≠ rank := fun same => by
      rw [← same, reaped] at alive
      cases alive
    refine ⟨returned, other, valid, by simpa [another] using reaped, failed, pid, ?_⟩
    rw [named]
    simp only [kept other another]

/-- Before it ends `mpiexec` has nothing to report. -/
theorem Supervised.unreported (supervised : s.Supervised leader) (runs : s.launcher ≠ .returned 1) :
    s.report = none := by
  cases reported : s.report with
  | none => rfl
  | some report => exact absurd (supervised.report report reported).1 runs

/-- Success means that everybody has succeeded. -/
theorem Supervised.succeeded (supervised : s.Supervised leader) (returned : s.launcher = .returned 0)
    (valid : rank < size) : s.life rank = .reaped (.exited 0) := by
  obtain ⟨ending, reaped⟩ := supervised.success returned rank valid
  have quiet := supervised.unreported (by rw [returned]; decide)
  obtain rfl : ending = .exited 0 := (supervised.reaped rank ending reaped).resolve_right (by rw [quiet]; decide)
  exact reaped

/-- As long as there is nothing to report it may wait for a child that has succeeded. -/
theorem Supervised.reap (supervised : s.Supervised leader) (waiting : s.launcher = .waiting) :
    (s.goto rank (.reaped (.exited 0))).Supervised leader where
  linked := supervised.linked
  success := fun returned => by
    rw [goto_launcher, waiting] at returned
    cases returned
  reaped := fun other ending reaped => by
    by_cases same : other = rank
    · subst same
      have success : Life.reaped (.exited 0) = .reaped ending := by simpa using reaped
      exact Or.inl (Life.reaped.inj success).symm
    · exact supervised.reaped other ending (by simpa [same] using reaped)
  failure := fun returned => by
    rw [goto_launcher, waiting] at returned
    cases returned
  report := fun report reported => by
    have returned := (supervised.report report reported).1
    rw [waiting] at returned
    cases returned

/-- `mpiexec` terminates everybody, when all children have been started and it has nothing to report before. -/
theorem Supervised.cleanup (supervised : s.Supervised leader) (waiting : s.launcher = .waiting) :
    (s.cleanup leader).Supervised leader where
  linked := fun status returned => by
    obtain rfl := Launcher.returned.inj returned
    exact ⟨Or.inr rfl, rfl⟩
  success := fun returned => by cases returned
  reaped := supervised.reaped
  failure := fun _ => Or.inr fun leads other alive => by
    have alive : (s.life other).isAlive = true := alive
    simp [Job.cleanup, leads, alive]
  report := fun report reported => by
    have returned := (supervised.report report reported).1
    rw [waiting] at returned
    cases returned

/-- No step breaks it. -/
theorem Supervised.step (supervised : s.Supervised leader) (up : s.StartsUp)
    (stepped : s.step vm leader program label = .ok s') : s'.Supervised leader := by
  cases transition_of_step stepped with
  | fork rank pid forking valid positive fresh =>
      have quiet := supervised.unreported (by rw [forking]; exact Launcher.noConfusion)
      exact
        { linked := fun status returned => by cases returned
          success := fun returned => by cases returned
          reaped := fun other ending reaped => by
            have another : other ≠ rank := fun same => by simp [same] at reaped
            exact supervised.reaped other ending (by simpa [another] using reaped)
          failure := fun returned => by cases returned
          report := fun _ reported => nomatch quiet.symm.trans reported }
  | forkFails rank forking valid =>
      have quiet := supervised.unreported (by rw [forking]; exact Launcher.noConfusion)
      have unborn := ((up.staffed.forking rank forking).2 rank).mpr le_rfl
      exact
        { linked := fun status returned => by
            obtain rfl := Launcher.returned.inj returned
            exact ⟨Or.inr rfl, rfl⟩
          success := fun returned => by cases returned
          reaped := supervised.reaped
          failure := fun _ => Or.inl ⟨rank, valid, unborn⟩
          report := fun _ reported => nomatch quiet.symm.trans reported }
  | watch forking =>
      have quiet := supervised.unreported (by rw [forking]; exact Launcher.noConfusion)
      exact
        { linked := fun status returned => by cases returned
          success := fun returned => by cases returned
          reaped := supervised.reaped
          failure := fun returned => by cases returned
          report := fun _ reported => nomatch quiet.symm.trans reported }
  | reap rank waiting ended =>
      exact supervised.reap waiting
  | reapFailed rank ending waiting ended failed =>
      have born : s.life rank ≠ .unborn := by rw [ended]; exact Life.noConfusion
      exact
        { linked := fun status returned => by
            obtain rfl := Launcher.returned.inj returned
            exact ⟨Or.inr rfl, rfl⟩
          success := fun returned => by cases returned
          reaped := fun _ _ _ => Or.inr rfl
          failure := fun _ => Or.inr fun leads other alive => by
            have alive : (Function.update s.life rank (.reaped ending) other).isAlive = true := alive
            simp [Job.cleanup, leads, alive]
          report := fun report reported => by
            obtain rfl := Option.some.inj reported
            refine ⟨rfl, rank, up.staffed.valid born, ?_, failed, rfl, up.findRank born⟩
            simp [Job.cleanup] }
  | childless waiting nobody =>
      have quiet := supervised.unreported (by rw [waiting]; exact Launcher.noConfusion)
      exact
        { linked := fun status returned => by
            obtain rfl := Launcher.returned.inj returned
            exact ⟨Or.inl rfl, rfl⟩
          success := fun _ rank valid => by
            have born := up.staffed.waiting waiting rank valid
            have gone := nobody rank valid
            cases life : s.life rank <;> rw [life] at born gone <;>
              first | exact ⟨_, rfl⟩ | exact absurd rfl born | cases gone
          reaped := supervised.reaped
          failure := fun returned => by cases returned
          report := fun _ reported => nomatch quiet.symm.trans reported }
  | interrupt waiting => exact supervised.cleanup waiting
  | map rank outside linked => exact supervised.goto (Life.alive_of_outside outside) rfl (fun _ _ => rfl)
  | mapFails rank outside => exact supervised.goto (Life.alive_of_outside outside) rfl (fun _ _ => rfl)
  | construct rank mapped =>
      exact supervised.goto (by rw [mapped]; rfl) rfl (fun other another => by simp [another])
  | enter rank valid absent constructed => exact supervised.goto (by rw [constructed]; rfl) rfl (fun _ _ => rfl)
  | entered rank entering absent => exact supervised.goto (by rw [entering]; rfl) rfl (fun _ _ => rfl)
  | perform event sys running absent performed => exact { supervised with }
  | barrier rank valid absent running returned => exact supervised.goto (by rw [running]; rfl) rfl (fun _ _ => rfl)
  | finalize rank valid absent running returned => exact supervised.goto (by rw [running]; rfl) rfl (fun _ _ => rfl)
  | finalized rank finalizing absent => exact supervised.goto (by rw [finalizing]; rfl) rfl (fun _ _ => rfl)
  | exit rank code alive absent => exact supervised.goto alive rfl (fun _ _ => rfl)
  | kill rank signal alive => exact supervised.goto alive rfl (fun _ _ => rfl)

theorem Supervised.run {history : List (Sys × Event)} (supervised : s.Supervised leader) (up : s.StartsUp)
    (run : RunsBy vm leader program meets s history s') : s'.Supervised leader := by
  induction run with
  | refl => exact supervised
  | tail label before _ stepped ih => exact ih.step (up.run before) stepped

end Job

open Job

/-- In every run of a job, whatever the children do and however they end: `mpiexec` returns 0 only when all children
    have been started and have ended with status 0; when it has returned the file is removed; when it has returned 1
    it has failed to start them all, and `MPI_Init` never returns `MPI_SUCCESS` in those it has started, or it has
    sent a `SIGTERM` to all that have not ended (if it leads its process group); and the child that it reports is one
    that has failed, with its rank if it has constructed its `process` and -1 if not. -/
theorem mpiexec_reports {size : Nat} {vm : (Nat → Bool) → ProcessVm} {leader : Bool} {program : Program}
    {meets : Job size → JobStep → Prop} {zeroed : Nat → Process} {mem : Memory} {history : List (Sys × Event)}
    {s : Job size} (several : 0 < size)
    (run : RunsBy vm leader program meets (Job.start size several zeroed mem) history s) :
    (s.launcher = .returned 0 → ∀ rank < size, s.life rank = .reaped (.exited 0)) ∧
      (∀ status, s.launcher = .returned status → (status = 0 ∨ status = 1) ∧ s.linked = false) ∧
      (s.launcher = .returned 1 → ((∃ rank < size, s.life rank = .unborn) ∧ ∀ rank, ¬ (s.life rank).isInside) ∨
        (leader = true → ∀ rank, (s.life rank).isAlive → s.terminated rank = true)) ∧
      (∀ report, s.report = some report → s.launcher = .returned 1 ∧ ∃ rank < size,
        s.life rank = .reaped report.ending ∧ report.ending ≠ .exited 0 ∧ report.pid = s.pid rank ∧
          report.rank = if s.procPid rank = 0 then -1 else (rank : Int)) ∧
      (∀ rank ending, s.life rank = .reaped ending → ending ≠ .exited 0 → ∃ report, s.report = some report) := by
  have origin := startsUp_start several zeroed mem
  have up := origin.run run
  have supervised : s.Supervised leader := (supervised_start several zeroed mem).run origin run
  refine ⟨fun returned rank valid => supervised.succeeded returned valid, supervised.linked,
    fun returned => ?failure, supervised.report, fun rank ending reaped failed => ?reported⟩
  case failure =>
    rcases supervised.failure returned with ⟨rank, valid, unborn⟩ | sent
    · refine Or.inl ⟨⟨rank, valid, unborn⟩, fun other inside => ?_⟩
      exact up.inside other inside rank valid (up.staffed.early rank (by rw [unborn]; rfl))
    · exact Or.inr sent
  case reported =>
    exact Option.isSome_iff_exists.mp ((supervised.reaped rank ending reaped).resolve_left failed)

/-- Rank 1 is killed before it has called `MPI_Init`, while rank 0 is in `MPI_Init`. -/
theorem mpiexec_reports_killed :
    ∃ s : Job 2, s.launcher = .returned 1 ∧ s.terminated 0 = true ∧
      ∃ report, s.report = some report ∧ report.pid = 8 ∧ report.rank = -1 := by
  have runs : ∃ s : Job 2, s.launcher = .returned 1 ∧ s.life 0 = .mapped ∧ s.life 1 = .reaped (.signaled 11) ∧
      s.pid 1 = 8 ∧ s.procPid 1 = 0 ∧
      Runs (fun _ => copyingVm) true (fun _ _ => none)
        (Job.start 2 (by decide) (fun _ => Process.new) fun _ => 0) [] s := by
    refine ⟨_, ?_, ?_, ?_, ?_, ?_, .tail (.reap 1) (.tail (.kill 1 11) (.tail (.map 0)
      (.tail .watch (.tail (.fork (some 8)) (.tail (.fork (some 7)) .refl trivial (by rfl)) trivial (by rfl))
      trivial (by rfl)) trivial (by rfl)) trivial (by rfl)) trivial (by rfl)⟩
    all_goals rfl
  obtain ⟨s, returned, first, second, pid, absent, run⟩ := runs
  obtain ⟨_, _, failure, reports, reported⟩ := mpiexec_reports (by decide) run
  obtain ⟨report, some⟩ := reported 1 _ second (by decide)
  refine ⟨s, returned, ?_, report, some, ?_⟩
  · rcases failure returned with ⟨⟨_ | _ | rank, valid, unborn⟩, _⟩ | sent
    · rw [first] at unborn
      cases unborn
    · rw [second] at unborn
      cases unborn
    · omega
    · exact sent rfl 0 (by rw [first]; rfl)
  · obtain ⟨_, (_ | _ | rank), valid, reaped, _, number, named⟩ := reports report some
    · rw [first] at reaped
      cases reaped
    · exact ⟨number.trans pid, named.trans (if_pos absent)⟩
    · omega

end Umpi
