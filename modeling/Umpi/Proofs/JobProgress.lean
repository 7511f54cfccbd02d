/-
Module: Umpi.Proofs.JobProgress
Layer: Proofs
Purpose: Whole jobs do not deadlock. The children make their collective calls and their calls of `MPI_Barrier` in the
  same order, and finalize when they have finished; then in a state in which nobody goes on `mpiexec` has ended with
  status 0, or a message has no counterpart. The child that is furthest behind, among those that are not at the
  barrier, waits for nobody.
Imports: Umpi.Proofs.Launcher, Umpi.Proofs.Lifetime, Umpi.Proofs.Progress
Trusted boundary: none
Main exports: Job.Scripted, Job.Stuck, Job.Paced, Job.Smooth, jobs_never_deadlock
Open obligations: none
-/
import Umpi.Proofs.Launcher
import Umpi.Proofs.Lifetime
import Umpi.Proofs.Progress

namespace Umpi

open Foundation

namespace Job

variable {size : Nat} {vm : (Nat → Bool) → ProcessVm} {leader : Bool} {program : Program} {calls : Nat}
  {places : Nat → Nat}

/-- Nothing fails from outside, and every child follows the same script: its call number `k` of `MPI_Barrier` comes
    before its collective call number `places k`, it finalizes when it has made all calls and has waited for all
    requests, and it ends with status 0. Messages may come anywhere in between. -/
def Scripted (program : Program) (calls : Nat) (places : Nat → Nat) (s : Job size) : JobStep → Prop
  | .fork forked => forked ≠ none
  | .interrupt | .mapFails _ | .kill _ _ => False
  | .perform (.collective (.call rank)) => ¬ (s.met rank < calls ∧ (s.sys.ranks rank).pos = places (s.met rank))
  | .barrier rank => s.met rank < calls ∧ (s.sys.ranks rank).pos = places (s.met rank)
  | .finalize rank => s.met rank = calls ∧ s.sys.Retired program rank
  | .exit rank code => s.life rank = .finalized ∧ code = 0
  | _ => True

/-- The steps that somebody has to take: messages and tests are not, and a child may make its next call only when it
    holds no request. -/
def Due (s : Job size) : JobStep → Prop
  | .perform (.collective label) => OneAtATime s.sys label
  | .perform _ => False
  | _ => True

/-- Nobody can take a step that follows the script. -/
def Stuck (vm : (Nat → Bool) → ProcessVm) (leader : Bool) (program : Program) (calls : Nat) (places : Nat → Nat)
    (s : Job size) : Prop :=
  ∀ label, s.Scripted program calls places label → s.Due label → s.step vm leader program label = .blocked

variable {s s' : Job size} {label : JobStep} {rank : Nat} {life : Life}

theorem Scripted.regular (scripted : s.Scripted program calls places label) : s.Regular calls label := by
  cases label with
  | barrier rank => exact scripted.1
  | finalize rank => exact scripted.1
  | exit rank code => exact scripted.1
  | kill rank signal => exact scripted
  | _ => trivial

/-- Where the children are in their programs: before the place of their next barrier, behind that of the latest, and
    in no call when they are at one. -/
structure Paced (program : Program) (calls : Nat) (places : Nat → Nat) (s : Job size) : Prop where
  behind : ∀ rank, s.met rank < calls → (s.sys.ranks rank).pos ≤ places (s.met rank)
  past : ∀ rank, 0 < s.met rank → places (s.met rank - 1) ≤ (s.sys.ranks rank).pos
  idle : ∀ rank, s.life rank ≠ .running ∨ s.Waits rank → (s.sys.ranks rank).cont = []
  retired : ∀ rank, (s.life rank).isLate → program rank (s.sys.ranks rank).pos = none

theorem paced_start (several : 0 < size) (zeroed : Nat → Process) (mem : Memory) :
    (start size several zeroed mem).Paced program calls places where
  behind := fun _ _ => Nat.zero_le _
  past := fun _ more => absurd more (lt_irrefl 0)
  idle := fun _ _ => rfl
  retired := fun _ late => by cases late

/-- A child goes from one place to another without touching the barrier. -/
theorem Paced.goto (paced : s.Paced program calls places) (idle : (s.sys.ranks rank).cont = [])
    (retired : life.isLate → program rank (s.sys.ranks rank).pos = none) :
    (s.goto rank life).Paced program calls places where
  behind := paced.behind
  past := paced.past
  idle := fun other reason => by
    by_cases own : other = rank
    · exact own ▸ idle
    · exact paced.idle other (reason.imp (fun elsewhere => by simpa [own] using elsewhere) id)
  retired := fun other late => by
    by_cases own : other = rank
    · subst own
      exact retired (by simpa using late)
    · exact paced.retired other (by simpa [own] using late)

/-- A child comes to the barrier. -/
theorem Paced.arrive (paced : s.Paced program calls places) (valid : rank < size) (absent : ¬ s.Waits rank)
    (idle : (s.sys.ranks rank).cont = [])
    (retired : life.isLate → program rank (s.sys.ranks rank).pos = none) :
    (s.arrive rank valid absent life).Paced program calls places where
  behind := paced.behind
  past := paced.past
  idle := fun other reason => by
    by_cases own : other = rank
    · exact own ▸ idle
    · refine paced.idle other (reason.imp (fun elsewhere => by simpa [Job.arrive, own] using elsewhere) fun waits => ?_)
      rcases Barrier.arrive_cases valid absent with waiting | ⟨waiting, _⟩
      · have listed : other ∈ rank :: s.barrier.waiting := waiting ▸ waits
        exact (List.mem_cons.mp listed).resolve_left own
      · have listed : other ∈ ([] : List Nat) := waiting ▸ waits
        exact absurd listed List.not_mem_nil
  retired := fun other late => by
    by_cases own : other = rank
    · subst own
      exact retired (by simpa [Job.arrive] using late)
    · exact paced.retired other (by simpa [Job.arrive, own] using late)

/-- Somebody does something with the others, and makes no collective call before a barrier that is due. -/
theorem Paced.perform (paced : s.Paced program calls places) {event : Event} {sys : Sys}
    (running : s.life event.caller = .running) (absent : ¬ s.Waits event.caller)
    (scripted : event = .collective (.call event.caller) →
      ¬ (s.met event.caller < calls ∧ (s.sys.ranks event.caller).pos = places (s.met event.caller)))
    {peer : ProcessVm} (performed : s.sys.perform peer program event = .ok sys) :
    Paced program calls places { s with sys := sys } where
  behind := fun rank fewer => by
    have before := paced.behind rank fewer
    rcases Sys.perform_pos performed rank with same | ⟨calls_, next, _⟩
    · exact same.le.trans before
    · have own : event.caller = rank := by rw [calls_]; rfl
      subst own
      have place := not_and.mp (scripted calls_) fewer
      exact next.le.trans (Nat.lt_of_le_of_ne before place)
  past := fun rank some => by
    have before := paced.past rank some
    rcases Sys.perform_pos performed rank with same | ⟨_, next, _⟩
    · exact before.trans same.ge
    · exact (before.trans (Nat.le_succ _)).trans next.ge
  idle := fun rank reason => by
    have another : rank ≠ event.caller := fun own =>
      reason.elim (fun outside => outside (own ▸ running)) fun waits => absent (own ▸ waits)
    obtain ⟨state, ranks, _⟩ := Sys.perform_ranks performed
    simpa [ranks, another] using paced.idle rank reason
  retired := fun rank late => by
    have another : rank ≠ event.caller := fun own => by
      have lives : s.life rank = .running := own ▸ running
      have late : (s.life rank).isLate := late
      rw [lives] at late
      cases late
    obtain ⟨state, ranks, _⟩ := Sys.perform_ranks performed
    simpa [ranks, another] using paced.retired rank late

/-- No step of the script breaks it. -/
theorem Paced.step (paced : s.Paced program calls places) (up : s.StartsUp)
    (ordered : ∀ number, places number ≤ places (number + 1)) (scripted : s.Scripted program calls places label)
    (stepped : s.step vm leader program label = .ok s') : s'.Paced program calls places := by
  have elsewhere : ∀ {rank : Nat}, s.life rank ≠ .running → (s.sys.ranks rank).cont = [] :=
    fun outside => paced.idle _ (Or.inl outside)
  cases transition_of_step stepped with
  | fork rank pid forking valid positive fresh =>
      have unborn := ((up.staffed.forking rank forking).2 rank).mpr le_rfl
      have moved : (s.goto rank .born).Paced program calls places :=
        paced.goto (elsewhere (by rw [unborn]; decide)) (fun late => by cases late)
      exact { moved with }
  | forkFails rank forking valid => exact absurd rfl scripted
  | watch forking => exact { paced with }
  | reap rank waiting ended =>
      exact paced.goto (elsewhere (by rw [ended]; decide)) (fun _ => paced.retired rank (by rw [ended]; rfl))
  | reapFailed rank ending waiting ended failed =>
      have moved : (s.goto rank (.reaped ending)).Paced program calls places :=
        paced.goto (elsewhere (by rw [ended]; exact Life.noConfusion))
          (fun _ => paced.retired rank (by rw [ended]; rfl))
      exact { moved with }
  | childless waiting nobody => exact { paced with }
  | interrupt waiting => exact absurd scripted id
  | map rank outside linked =>
      exact paced.goto (elsewhere (Life.not_running_of_outside outside)) (fun late => by cases late)
  | mapFails rank outside => exact absurd scripted id
  | construct rank mapped =>
      have moved : (s.goto rank .constructed).Paced program calls places :=
        paced.goto (elsewhere (by rw [mapped]; decide)) (fun late => by cases late)
      exact { moved with }
  | enter rank valid absent constructed =>
      exact paced.arrive valid absent (elsewhere (by rw [constructed]; decide)) (fun late => by cases late)
  | entered rank entering absent => exact paced.goto (elsewhere (by rw [entering]; decide)) (fun late => by cases late)
  | perform event sys running absent performed =>
      exact paced.perform running absent (fun own => own ▸ scripted) performed
  | barrier rank valid absent running returned =>
      have arrived : (s.arrive rank valid absent .running).Paced program calls places :=
        paced.arrive valid absent returned (fun late => by cases late)
      obtain ⟨more, place⟩ := scripted
      refine { arrived with behind := fun other fewer => ?_, past := fun other some => ?_ }
      · by_cases own : other = rank
        · subst own
          simpa [Job.arrive, place] using ordered (s.met other)
        · have before : s.met other < calls := by simpa [own] using fewer
          simpa [Job.arrive, own] using paced.behind other before
      · by_cases own : other = rank
        · subst own
          simp [Job.arrive, place]
        · have before : 0 < s.met other := by simpa [own] using some
          simpa [Job.arrive, own] using paced.past other before
  | finalize rank valid absent running returned =>
      exact paced.arrive valid absent returned (fun _ => scripted.2.ended)
  | finalized rank finalizing absent =>
      exact paced.goto (elsewhere (by rw [finalizing]; decide))
        (fun _ => paced.retired rank (by rw [finalizing]; rfl))
  | exit rank code alive absent =>
      have finalized : s.life rank = .finalized := scripted.1
      exact paced.goto (elsewhere (by rw [finalized]; decide))
        (fun _ => paced.retired rank (by rw [finalized]; rfl))
  | kill rank signal alive => exact absurd scripted id

theorem Paced.run {history : List (Sys × Event)} (paced : s.Paced program calls places) (up : s.StartsUp)
    (ordered : ∀ number, places number ≤ places (number + 1))
    (run : RunsBy vm leader program (Scripted program calls places) s history s') : s'.Paced program calls places := by
  induction run with
  | refl => exact paced
  | tail label before scripted stepped ih => exact ih.step (up.run before) ordered scripted stepped

/-- Nothing has gone wrong. -/
structure Smooth (s : Job size) : Prop where
  succeeded : ∀ rank ending, s.life rank = .ended ending → ending = .exited 0
  status : ∀ status, s.launcher = .returned status → status = 0
  linked : (∀ status, s.launcher ≠ .returned status) → s.linked = true

theorem smooth_start (several : 0 < size) (zeroed : Nat → Process) (mem : Memory) :
    (start size several zeroed mem).Smooth where
  succeeded := fun _ _ ended => by cases ended
  status := fun _ returned => by cases returned
  linked := fun _ => rfl

/-- A child goes from one place to another. -/
theorem Smooth.goto (smooth : s.Smooth) (succeeds : ∀ ending, life = .ended ending → ending = .exited 0) :
    (s.goto rank life).Smooth where
  succeeded := fun other ending ended => by
    by_cases own : other = rank
    · subst own
      exact succeeds ending (by simpa using ended)
    · exact smooth.succeeded other ending (by simpa [own] using ended)
  status := smooth.status
  linked := smooth.linked

theorem Smooth.step (smooth : s.Smooth) (scripted : s.Scripted program calls places label)
    (stepped : s.step vm leader program label = .ok s') : s'.Smooth := by
  have moves : ∀ {rank : Nat} {life : Life}, (∀ ending, life ≠ .ended ending) → (s.goto rank life).Smooth :=
    fun lives => smooth.goto fun ending ended => absurd ended (lives ending)
  cases transition_of_step stepped with
  | fork rank pid forking valid positive fresh =>
      have moved : (s.goto rank .born).Smooth := moves fun _ => Life.noConfusion
      refine ⟨moved.succeeded, nofun, fun _ => smooth.linked fun status => ?_⟩
      rw [forking]
      exact Launcher.noConfusion
  | forkFails rank forking valid => exact absurd rfl scripted
  | watch forking =>
      refine ⟨smooth.succeeded, nofun, fun _ => smooth.linked fun status => ?_⟩
      rw [forking]
      exact Launcher.noConfusion
  | reapFailed rank ending waiting ended failed => exact absurd (smooth.succeeded rank ending ended) failed
  | childless waiting nobody =>
      refine ⟨smooth.succeeded, fun status returned => ?_, fun runs => absurd rfl (runs 0)⟩
      exact (Launcher.returned.inj returned).symm
  | interrupt waiting => exact absurd scripted id
  | kill rank signal alive => exact absurd scripted id
  | exit rank code alive absent =>
      obtain ⟨_, rfl⟩ := scripted
      exact smooth.goto fun ending ended => (Life.ended.inj ended).symm
  | perform event sys running absent performed => exact { smooth with }
  | construct rank mapped =>
      have moved : (s.goto rank .constructed).Smooth := moves fun _ => Life.noConfusion
      exact { moved with }
  | enter rank valid absent constructed =>
      have moved : (s.goto rank .entering).Smooth := moves fun _ => Life.noConfusion
      exact { moved with }
  | barrier rank valid absent running returned =>
      have moved : (s.goto rank .running).Smooth := moves fun _ => Life.noConfusion
      exact { moved with }
  | finalize rank valid absent running returned =>
      have moved : (s.goto rank .finalizing).Smooth := moves fun _ => Life.noConfusion
      exact { moved with }
  | reap rank waiting ended => exact moves fun _ => Life.noConfusion
  | map rank outside linked => exact moves fun _ => Life.noConfusion
  | mapFails rank outside => exact absurd scripted id
  | entered rank entering absent => exact moves fun _ => Life.noConfusion
  | finalized rank finalizing absent => exact moves fun _ => Life.noConfusion

theorem Smooth.run {history : List (Sys × Event)} (smooth : s.Smooth)
    (run : RunsBy vm leader program (Scripted program calls places) s history s') : s'.Smooth := by
  induction run with
  | refl => exact smooth
  | tail label _ scripted stepped ih => exact ih.step scripted stepped

/-- Whoever is at the barrier is further in its program than those who have not come to it: it has met one barrier
    more, or has finished. -/
theorem Paced.pos_le (paced : s.Paced program calls places) (together : s.Synchronous calls)
    (ordered : ∀ number, places number ≤ places (number + 1)) (valid : rank < size)
    (running : s.life rank = .running) (absent : ¬ s.Waits rank) {other : Nat} (otherValid : other < size)
    (waits : s.Waits other)
    (listed : ∀ pos < (s.sys.ranks rank).pos, program other pos ≠ none) :
    (s.sys.ranks rank).pos ≤ (s.sys.ranks other).pos := by
  obtain ⟨era, counts⟩ := together.counts
  have own : s.arrivals rank = s.met rank + 1 := by simp only [arrivals, running]
  rw [counts.of_absent valid absent] at own
  have arrived := counts.of_waiting otherValid waits
  by_cases late : (s.life other).isLate
  · by_contra ahead
    exact listed _ (Nat.lt_of_not_le ahead) (paced.retired other late)
  · have most := arrivals_of_early late
    have later : s.met rank < s.met other := by omega
    have fewer : s.met rank < calls := later.trans_le (together.bounded other)
    calc (s.sys.ranks rank).pos ≤ places (s.met rank) := paced.behind rank fewer
      _ ≤ places (s.met other - 1) := monotone_nat_of_le_succ ordered (by omega)
      _ ≤ (s.sys.ranks other).pos := paced.past other (by omega)

/-! ### Nobody goes on -/

/-- `mpiexec` has started everybody. -/
theorem Stuck.launcher (stuck : s.Stuck vm leader program calls places) (smooth : s.Smooth) (up : s.StartsUp) :
    s.launcher = .returned 0 ∨ s.launcher = .waiting := by
  cases launcher : s.launcher with
  | forking next =>
      obtain ⟨bound, _⟩ := up.staffed.forking next launcher
      rcases Nat.lt_or_eq_of_le bound with more | rfl
      · -- there is a number that no other child has
        obtain ⟨pid, fresh⟩ := Infinite.exists_notMem_finset (insert 0 ((Finset.range next).image s.pid))
        have forks := stuck (.fork (some pid)) (Option.some_ne_none pid) trivial
        simp only [Finset.mem_insert, Finset.mem_image, Finset.mem_range, not_or] at fresh
        simp only [step, launcher, if_neg (Nat.not_le_of_lt more)] at forks
        rw [if_neg (not_or.mpr fresh)] at forks
        cases forks
      · have watches := stuck .watch trivial trivial
        simp [step, launcher] at watches
  | waiting => exact Or.inr rfl
  | returned status =>
      obtain rfl := smooth.status status launcher
      exact Or.inl rfl

/-- A child that is not at the barrier communicates, or has been waited for. -/
theorem Stuck.lives (stuck : s.Stuck vm leader program calls places) (smooth : s.Smooth) (up : s.StartsUp)
    (waiting : s.launcher = .waiting) (valid : rank < size) (absent : ¬ s.Waits rank) :
    s.life rank = .running ∨ ∃ ending, s.life rank = .reaped ending := by
  have linked : s.linked = true := smooth.linked fun status => by rw [waiting]; exact Launcher.noConfusion
  cases life : s.life rank with
  | running => exact Or.inl rfl
  | reaped ending => exact Or.inr ⟨ending, rfl⟩
  | unborn => exact absurd life (up.staffed.waiting waiting rank valid)
  | born =>
      have maps := stuck (.map rank) trivial trivial
      simp [step, life, Life.isOutside, linked] at maps
  | failed =>
      have maps := stuck (.map rank) trivial trivial
      simp [step, life, Life.isOutside, linked] at maps
  | mapped =>
      have constructs := stuck (.construct rank) trivial trivial
      simp [step, life] at constructs
  | constructed =>
      have enters := stuck (.enter rank) trivial trivial
      simp [step, life, valid, absent] at enters
  | entering =>
      have enters := stuck (.entered rank) trivial trivial
      simp [step, life, absent] at enters
  | finalizing =>
      have finalizes := stuck (.finalized rank) trivial trivial
      simp [step, life, absent] at finalizes
  | finalized =>
      have exits := stuck (.exit rank 0) ⟨life, rfl⟩ trivial
      simp [step, life, absent, Life.isAlive] at exits
  | ended ending =>
      obtain rfl := smooth.succeeded rank ending life
      have reaps := stuck (.reap rank) trivial trivial
      simp [step, waiting, life] at reaps

/-- Conversely nothing happens when `mpiexec` has returned and no child is left. -/
theorem stuck_of_over {status : Nat} (returned : s.launcher = .returned status)
    (empty : ∀ rank, (s.life rank).isChild = false) : s.Stuck vm leader program calls places := by
  have elsewhere : ∀ rank life, life.isChild = true → s.life rank ≠ life := by
    rintro rank _ child rfl
    rw [empty rank] at child
    cases child
  have dead : ∀ rank, (s.life rank).isAlive = false := by
    intro rank
    have gone := empty rank
    cases life : s.life rank <;> rw [life] at gone <;> first | rfl | cases gone
  have indoors : ∀ rank, (s.life rank).isOutside = false := fun rank =>
    Bool.eq_false_iff.mpr fun outside => absurd (Life.alive_of_outside outside) (Bool.eq_false_iff.mp (dead rank))
  intro label _ _
  cases label with
  | fork forked | watch | reap rank | childless | interrupt => simp [step, returned]
  | map rank | mapFails rank => simp [step, indoors rank]
  | construct rank => simp [step, elsewhere rank .mapped rfl]
  | enter rank => simp [step, elsewhere rank .constructed rfl]
  | entered rank => simp [step, elsewhere rank .entering rfl]
  | perform event => simp [step, elsewhere event.caller .running rfl]
  | barrier rank | finalize rank => simp [step, elsewhere rank .running rfl]
  | finalized rank => simp [step, elsewhere rank .finalizing rfl]
  | exit rank code | kill rank signal => simp [step, dead rank]

/-- What a child that communicates would do next in its program has to wait. -/
theorem Stuck.blocked (stuck : s.Stuck vm leader program calls places) (running : s.life rank = .running)
    (absent : ¬ s.Waits rank) {label : Label} (actor : label.actor = rank)
    (scripted : s.Scripted program calls places (.perform (.collective label))) (alone : OneAtATime s.sys label) :
    s.sys.step (vm s.alive) program label = .blocked := by
  have performs := stuck (.perform (.collective label)) scripted alone
  have free : s.life (Event.caller (.collective label)) = .running ∧ ¬ s.Waits (Event.caller (.collective label)) := by
    rw [show Event.caller (.collective label) = rank from actor]
    exact ⟨running, absent⟩
  simp only [step, if_pos free] at performs
  cases outcome : s.sys.perform (vm s.alive) program (.collective label) with
  | blocked => exact outcome
  | _ =>
      rw [outcome] at performs
      cases performs

/-- It is in no call, and no barrier is due. -/
theorem Stuck.between (stuck : s.Stuck vm leader program calls places) (running : s.life rank = .running)
    (valid : rank < size) (absent : ¬ s.Waits rank) :
    (s.sys.ranks rank).cont = [] ∧ ¬ (s.met rank < calls ∧ (s.sys.ranks rank).pos = places (s.met rank)) := by
  have acts := stuck.blocked running absent (show (Label.act rank).actor = rank from rfl) trivial trivial
  have returned := Sys.returned_of_blocked acts
  refine ⟨returned, fun due => ?_⟩
  have arrives := stuck (.barrier rank) due trivial
  simp [step, running, valid, absent, returned] at arrives

/-- So it cannot go on with its program. -/
theorem Stuck.sys (stuck : s.Stuck vm leader program calls places) (running : s.life rank = .running)
    (valid : rank < size) (absent : ¬ s.Waits rank) : s.sys.Stuck (vm s.alive) program rank := by
  intro label actor alone
  refine stuck.blocked running absent actor ?scripted alone
  cases label with
  | call self =>
      obtain rfl : self = rank := actor
      exact (stuck.between running valid absent).2
  | act self => trivial
  | wait self id => trivial

/-- As long as `mpiexec` waits somebody has not ended, and nobody has then. -/
theorem Stuck.unreaped (stuck : s.Stuck vm leader program calls places) (smooth : s.Smooth) (up : s.StartsUp)
    (together : s.Synchronous calls) (waiting : s.launcher = .waiting) (valid : rank < size)
    (ending : WaitStatus) : s.life rank ≠ .reaped ending := by
  intro reaped
  have empty : ∀ other < size, (s.life other).isChild = false := by
    intro other otherValid
    obtain ⟨late, absent⟩ := together.all_late valid (by rw [reaped]; rfl) otherValid
    rcases stuck.lives smooth up waiting otherValid absent with running | ⟨ending, gone⟩
    · rw [running] at late
      cases late
    · rw [gone]
      rfl
  have ends := stuck .childless trivial trivial
  simp only [step, if_pos (And.intro waiting empty)] at ends
  cases ends

end Job

open Job

/-- Jobs of at least two children whose programs list the same collective calls at the same positions, with calls of
    `MPI_Barrier` at the same places of the programs, blocking calls and not, and any messages: in every run without
    an error, when nobody can take a step `mpiexec` has returned 0 after all children have ended with status 0, or
    somebody waits for a message that has no counterpart. -/
theorem jobs_never_deadlock {size : Nat} {vm : (Nat → Bool) → ProcessVm} {leader : Bool} {program : Program}
    {calls : Nat} {places : Nat → Nat} {zeroed : Nat → Process} {mem : Memory} {history : List (Sys × Event)}
    {s : Job size} (several : 2 ≤ size) (limit : size ≤ 10000)
    (alike : ∀ rank < size, ∀ pos,
      (program rank pos).map Call.operation = (program 0 pos).map Call.operation)
    (agree : ∀ rank < size, ∀ pos,
      (program rank pos).map Call.reducesInPlace = (program 0 pos).map Call.reducesInPlace)
    (ordered : ∀ number, places number ≤ places (number + 1))
    (reached : ∀ number < calls, ∀ pos < places number, program 0 pos ≠ none)
    (run : RunsBy vm leader program (Scripted program calls places)
      (Job.start size (Nat.zero_lt_of_lt several) zeroed mem) history s)
    (clean : s.sys.Clean) (stuck : s.Stuck vm leader program calls places) :
    (s.launcher = .returned 0 ∧ ∀ rank < size, s.life rank = .reaped (.exited 0)) ∨
      ∃ rank < size, ∃ id ∈ (s.sys.ranks rank).requests, s.sys.Unpaired id := by
  have someone : 0 < size := Nat.zero_lt_of_lt several
  have origin := startsUp_start someone zeroed mem
  obtain ⟨up, together, talks⟩ := regular_runs someone (run.weaken fun _ scripted _ => scripted.regular)
  have paced : s.Paced program calls places := (paced_start someone zeroed mem).run origin ordered run
  have smooth := (smooth_start someone zeroed mem).run run
  have supervised : s.Supervised leader := (supervised_start someone zeroed mem).run origin run
  rcases stuck.launcher smooth up with returned | waiting
  · exact Or.inl ⟨returned, fun rank valid => supervised.succeeded returned valid⟩
  refine Or.inr ?_
  by_contra paired
  -- whoever is not at the barrier communicates
  have runs : ∀ rank < size, ¬ s.Waits rank → s.life rank = .running := fun rank valid absent =>
    (stuck.lives smooth up waiting valid absent).resolve_right fun ⟨ending, reaped⟩ =>
      stuck.unreaped smooth up together waiting valid ending reaped
  have returned : ∀ rank < size, (s.sys.ranks rank).cont = [] := by
    intro rank valid
    by_cases waits : s.Waits rank
    · exact paced.idle rank (Or.inr waits)
    · exact (stuck.between (runs rank valid waits) valid waits).1
  -- the one that is furthest behind among them
  obtain ⟨first, firstValid, firstAbsent⟩ := s.barrier.exists_absent
  have listed : first ∈ (Finset.range size).filter (¬ s.Waits ·) := by simp [firstValid, firstAbsent]
  obtain ⟨last, lastListed, furthest⟩ := Finset.exists_min_image ((Finset.range size).filter (¬ s.Waits ·))
    (fun rank => (s.sys.ranks rank).pos) ⟨first, listed⟩
  obtain ⟨valid, absent⟩ : last < size ∧ ¬ s.Waits last := by simpa using lastListed
  have running := runs last valid absent
  have blocked := stuck.sys running valid absent
  obtain ⟨between, early⟩ := stuck.between running valid absent
  have sysRuns := talks.after trivial (up.inside last (by rw [running]; rfl))
  have tended := runs_tended several limit alike agree sysRuns clean
  have waited : (s.sys.ranks last).requests = [] := by
    by_contra holds
    obtain ⟨id, held⟩ := List.exists_mem_of_ne_nil _ holds
    obtain ⟨owner, busy⟩ := blocked.busy held
    rcases tended.busy_cases alike agree returned valid held busy with unpaired | ⟨other, otherValid, behind⟩
    · exact paired ⟨last, valid, id, held, unpaired⟩
    · rw [owner] at behind
      have waits : s.Waits other := by
        by_contra outside
        have least := furthest other (by simp [otherValid, outside])
        omega
      refine absurd behind (Nat.not_lt_of_le ?_)
      refine paced.pos_le together ordered valid running absent otherValid waits fun pos earlier nothing => ?_
      have operations := (alike last valid pos).trans (alike other otherValid pos).symm
      rw [nothing, Option.map_none, Option.map_eq_none_iff] at operations
      exact sysRuns.called (fun _ => rfl) last pos earlier operations
  have ended := blocked.ended tended.tickets valid waited
  rcases Nat.lt_or_eq_of_le (together.bounded last) with fewer | all
  · -- its next barrier comes within its program
    have before : (s.sys.ranks last).pos < places (s.met last) :=
      Nat.lt_of_le_of_ne (paced.behind last fewer) fun place => early ⟨fewer, place⟩
    have operations := alike last valid (s.sys.ranks last).pos
    rw [ended, Option.map_none, eq_comm, Option.map_eq_none_iff] at operations
    exact reached (s.met last) fewer _ before operations
  · have finalizes := stuck (.finalize last) ⟨all, between, waited, ended⟩ trivial
    simp [step, running, valid, absent, between] at finalizes

/-- Two children broadcast a character and then meet at a barrier. When nobody can go on the job has succeeded. -/
theorem jobs_never_deadlock_bcastChar :
    ∃ history, ∃ s : Job 2,
      RunsBy (fun _ => copyingVm) true (once bcastChar) (Scripted (once bcastChar) 1 fun _ => 1)
        (Job.start 2 (by decide) (fun _ => Process.new) fun _ => 0) history s ∧
      s.Stuck (fun _ => copyingVm) true (once bcastChar) 1 (fun _ => 1) ∧ history.length = 5 ∧
      s.launcher = .returned 0 ∧ ∀ rank < 2, s.life rank = .reaped (.exited 0) := by
  have runs : ∃ history, ∃ s : Job 2, s.launcher = .returned 0 ∧ (∀ rank, (s.life rank).isChild = false) ∧
      s.sys.Clean ∧ (∀ rank, (s.sys.ranks rank).requests = []) ∧ history.length = 5 ∧
      RunsBy (fun _ => copyingVm) true (once bcastChar) (Scripted (once bcastChar) 1 fun _ => 1)
        (Job.start 2 (by decide) (fun _ => Process.new) fun _ => 0) history s := by
    refine ⟨_, _, ?returned, ?empty, ?clean, ?waited, ?length,
      .tail .childless (.tail (.reap 1) (.tail (.reap 0) (.tail (.exit 1 0) (.tail (.exit 0 0)
        (.tail (.finalized 1) (.tail (.finalized 0) (.tail (.finalize 1) (.tail (.finalize 0)
        (.tail (.barrier 1) (.tail (.barrier 0)
        (.tail (.perform (.collective (.wait 1 0))) (.tail (.perform (.collective (.wait 0 0)))
        (.tail (.perform (.collective (.act 1))) (.tail (.perform (.collective (.call 1)))
        (.tail (.perform (.collective (.call 0))) (.tail (.entered 1) (.tail (.entered 0)
        (.tail (.enter 1) (.tail (.enter 0) (.tail (.construct 1) (.tail (.construct 0)
        (.tail (.map 1) (.tail (.map 0) (.tail .watch (.tail (.fork (some 8)) (.tail (.fork (some 7)) .refl
        nofun (by rfl)) nofun (by rfl)) trivial (by rfl)) trivial (by rfl)) trivial (by rfl))
        trivial (by rfl)) trivial (by rfl)) trivial (by rfl)) trivial (by rfl)) trivial (by rfl)) trivial (by rfl))
        (fun due => absurd due.2 (by decide)) (by rfl)) (fun due => absurd due.2 (by decide)) (by rfl))
        trivial (by rfl)) trivial (by rfl)) trivial (by rfl))
        ⟨by decide, by rfl⟩ (by rfl)) ⟨by decide, by rfl⟩ (by rfl))
        ⟨by rfl, by rfl, by rfl, by rfl⟩ (by rfl)) ⟨by rfl, by rfl, by rfl, by rfl⟩ (by rfl))
        trivial (by rfl)) trivial (by rfl)) ⟨by rfl, by rfl⟩ (by rfl)) ⟨by rfl, by rfl⟩ (by rfl))
        trivial (by rfl)) trivial (by rfl)) trivial (by rfl)⟩
    case returned => rfl
    case length => rfl
    case empty => rintro (_ | _ | rank) <;> rfl
    case waited => rintro (_ | _ | rank) <;> rfl
    case clean =>
      rintro (_ | _ | rank)
      · decide
      · decide
      · rintro ret ⟨⟩
  obtain ⟨history, s, returned, empty, clean, waited, length, run⟩ := runs
  have stuck : s.Stuck (fun _ => copyingVm) true (once bcastChar) 1 (fun _ => 1) := stuck_of_over returned empty
  have reached : ∀ number < 1, ∀ pos < 1, once bcastChar 0 pos ≠ none := by
    rintro _ _ (_ | pos) before
    · exact Option.some_ne_none _
    · omega
  have ended := (jobs_never_deadlock le_rfl (by decide) (fun _ _ _ => rfl) (fun _ _ _ => rfl) (fun _ => le_rfl)
    reached run clean stuck).resolve_right fun ⟨rank, _, id, held, _⟩ =>
      absurd (waited rank ▸ held) List.not_mem_nil
  exact ⟨history, s, run, stuck, length, ended⟩

end Umpi
