/-
Module: Umpi.Model.Job
Layer: Model
Purpose: A whole job, from `mpiexec` to its exit status. `mpiexec` makes the shared segment and forks the processes;
  each of them maps the segment, constructs its own `process`, meets the others at the barrier, communicates,
  meets them again in `MPI_Finalize` and ends; `mpiexec` waits for them, and terminates all others when one has
  failed. A system call of `MPI_Init` may fail: it returns `MPI_FAIL`, and the child goes on without the others. A
  step is what one process does next, so a run is any interleaving.
Imports: Umpi.Foundation.Barrier, Umpi.Model.Runtime
Trusted boundary: human-reviewed spec
Main exports: WaitStatus, Life, Launcher, Job, Job.start, JobStep, Job.step, Job.Runs
Open obligations: none
-/
import Umpi.Foundation.Barrier
import Umpi.Model.Runtime

namespace Umpi

open Foundation

/-- How a process has ended, as `wait` reports it: by `exit` with a status, or by a signal. -/
inductive WaitStatus where
  | exited (status : Nat)
  | signaled (signal : Nat)
deriving Repr, DecidableEq

/-- What `WEXITSTATUS` gives for a process that has called `exit(code)`. -/
def WaitStatus.ofExit (code : Int) : WaitStatus := .exited (code % 256).toNat

/-- Where a child of `mpiexec` is. -/
inductive Life where
  /-- Not forked yet. -/
  | unborn
  /-- Forked. It has not opened the segment yet. -/
  | born
  /-- `MPI_Init` has returned `MPI_FAIL`: `umpi` is null. -/
  | failed
  /-- In `MPI_Init`, with the segment mapped. -/
  | mapped
  /-- In the constructor of `umpi`, after `shared->init`. -/
  | constructed
  /-- In the constructor of `umpi`, at the barrier. -/
  | entering
  /-- `MPI_Init` has returned `MPI_SUCCESS`: `umpi` is set. -/
  | running
  /-- In the destructor of `umpi`, at the barrier. -/
  | finalizing
  /-- `MPI_Finalize` has returned: `umpi` is null, and the segment is unmapped. The program does not call `MPI_Init`
      again. -/
  | finalized
  /-- It has ended, and `mpiexec` has not waited for it. -/
  | ended (ending : WaitStatus)
  /-- `wait` has returned it. -/
  | reaped (ending : WaitStatus)
deriving Repr, DecidableEq

/-- There is such a process, which has not ended. -/
def Life.isAlive : Life → Bool
  | unborn | ended _ | reaped _ => false
  | _ => true

/-- The process has ended. -/
def Life.isOver : Life → Bool
  | ended _ | reaped _ => true
  | _ => false

/-- `wait` would wait for the process, or return it. -/
def Life.isChild : Life → Bool
  | unborn | reaped _ => false
  | _ => true

/-- The child may call `MPI_Init`: it has not yet, or in vain. -/
def Life.isOutside : Life → Bool
  | born | failed => true
  | _ => false

/-- Where `main` of `mpiexec` is. -/
inductive Launcher where
  /-- At the head of the `for` loop. -/
  | forking (rank : Nat)
  /-- In the `while` loop, with `cleanup` as the handler of `SIGTERM` and `SIGINT`. -/
  | waiting
  | returned (status : Nat)
deriving Repr, DecidableEq

/-- What `mpiexec` says of the child that makes it terminate the others. -/
structure Report where
  rank : Int
  pid : Nat
  ending : WaitStatus
deriving Repr, DecidableEq

/-- `mpiexec`, its children and the segment. `linked` says whether the file of the segment exists, `pid` what `fork`
    has returned, `procPid` the field `pid_` of every `process` in the segment, and `terminated` who has been sent
    a `SIGTERM`. The last field is not in the source: it counts the calls of `MPI_Barrier`. -/
structure Job (size : Nat) where
  launcher : Launcher
  linked : Bool
  pid : Nat → Nat
  report : Option Report
  terminated : Nat → Bool
  life : Nat → Life
  procPid : Nat → Nat
  sys : Sys
  barrier : Barrier size
  met : Nat → Nat

/-- Who takes a step, and which. -/
inductive JobStep where
  /-- `mpiexec` forks the next child; `none` when `fork` fails. -/
  | fork (pid : Option Nat)
  /-- `mpiexec` leaves the `for` loop. -/
  | watch
  /-- `wait` returns the child of this rank. -/
  | reap (rank : Nat)
  /-- `wait` fails, because there are no children. -/
  | childless
  /-- `mpiexec` gets a `SIGTERM` or `SIGINT`. -/
  | interrupt
  /-- `MPI_Init` finds the file of the segment and maps it. -/
  | map (rank : Nat)
  /-- `gethostname`, `open`, `mmap` or `close` fails in `MPI_Init`, which returns `MPI_FAIL`. -/
  | mapFails (rank : Nat)
  /-- `shared->init`. -/
  | construct (rank : Nat)
  /-- The child arrives at the barrier of `MPI_Init`. -/
  | enter (rank : Nat)
  /-- `MPI_Init` returns `MPI_SUCCESS`. -/
  | entered (rank : Nat)
  /-- A child that is in `MPI_Init` no more does something with the others. -/
  | perform (event : Event)
  /-- `MPI_Barrier` on `MPI_COMM_WORLD`. -/
  | barrier (rank : Nat)
  /-- The child arrives at the barrier of `MPI_Finalize`. -/
  | finalize (rank : Nat)
  /-- `MPI_Finalize` returns. -/
  | finalized (rank : Nat)
  /-- The child returns from `main`, calls `exit`, or calls `MPI_Abort` on `MPI_COMM_WORLD`. -/
  | exit (rank : Nat) (code : Int)
  /-- A signal ends the child. -/
  | kill (rank : Nat) (signal : Nat)

/-- `shared::find_rank`: the first `process` with this `pid_`. -/
def findRank (size : Nat) (procPid : Nat → Nat) (pid : Nat) : Int :=
  match (List.range size).find? fun i => procPid i = pid with
  | some i => i
  | none => -1

namespace Job

variable {size : Nat}

/-- `mpiexec` has made the segment: the slots are constructed, the processes are zero bytes, which mean nothing as
    objects of `class process`. -/
def start (size : Nat) (several : 0 < size) (zeroed : Nat → Process) (mem : Memory) : Job size :=
  { launcher := .forking 0
    linked := true
    pid := fun _ => 0
    report := none
    terminated := fun _ => false
    life := fun _ => .unborn
    procPid := fun _ => 0
    sys :=
      { Sys.init size mem with
        world :=
          { World.start size mem with procs := fun rank => if rank < size then zeroed rank else Process.new } }
    barrier := .opened several
    met := fun _ => 0 }

def goto (s : Job size) (rank : Nat) (life : Life) : Job size :=
  { s with life := Function.update s.life rank life }

/-- `cleanup`. The signal is for the process group of `mpiexec`, which is that of its children if `mpiexec` leads
    it. -/
def cleanup (leader : Bool) (s : Job size) : Job size :=
  { s with
    launcher := .returned 1
    linked := false
    terminated := fun rank => s.terminated rank || (leader && (s.life rank).isAlive) }

/-- Whether the process of a rank has not ended: nobody can copy to or from the memory of one that has. -/
def alive (s : Job size) (rank : Nat) : Bool := !(s.life rank).isOver

/-- The child is in `MPI_Barrier`, `MPI_Init` or `MPI_Finalize`, and has to wait for others. -/
abbrev Waits (s : Job size) (rank : Nat) : Prop := rank ∈ s.barrier.waiting

/-- `barrier.wait()`, by a child that goes on with what `life` says when the barrier opens. -/
def arrive (s : Job size) (rank : Nat) (valid : rank < size) (absent : ¬ s.Waits rank) (life : Life) : Job size :=
  { s.goto rank life with barrier := s.barrier.arrive rank valid absent }

/-- One step. `vm` is `process_vm_readv` and `process_vm_writev`, which depend on the processes that exist, and
    `leader` says whether `mpiexec` leads its process group. When the file of the segment is gone `MPI_Init` cannot
    open it, and can only fail. A child whose `MPI_Init` has failed may call it again, or end: all other calls that it
    makes return `MPI_FAIL` at once, because `umpi` is null. -/
def step (vm : (Nat → Bool) → ProcessVm) (leader : Bool) (program : Program) (s : Job size) :
    JobStep → Outcome (Job size)
  | .fork forked =>
      match s.launcher with
      | .forking rank =>
          if size ≤ rank then .blocked
          else
            match forked with
            | none => .ok { s with launcher := .returned 1, linked := false }
            | some pid =>
                -- the new process gets a number that no other child has
                if pid = 0 ∨ ∃ other < rank, s.pid other = pid then .blocked
                else
                  .ok
                    { s.goto rank .born with
                      launcher := .forking (rank + 1)
                      pid := Function.update s.pid rank pid }
      | _ => .blocked
  | .watch => if s.launcher = .forking size then .ok { s with launcher := .waiting } else .blocked
  | .reap rank =>
      match s.launcher, s.life rank with
      | .waiting, .ended ending =>
          let reaped := s.goto rank (.reaped ending)
          if ending = .exited 0 then .ok reaped
          else
            .ok
              { reaped.cleanup leader with
                report := some { rank := findRank size s.procPid (s.pid rank), pid := s.pid rank, ending := ending } }
      | _, _ => .blocked
  | .childless =>
      if s.launcher = .waiting ∧ ∀ rank < size, (s.life rank).isChild = false then
        .ok { s with launcher := .returned 0, linked := false }
      else .blocked
  | .interrupt => if s.launcher = .waiting then .ok (s.cleanup leader) else .blocked
  | .map rank => if (s.life rank).isOutside ∧ s.linked then .ok (s.goto rank .mapped) else .blocked
  | .mapFails rank => if (s.life rank).isOutside then .ok (s.goto rank .failed) else .blocked
  | .construct rank =>
      if s.life rank = .mapped then
        .ok
          { s.goto rank .constructed with
            procPid := Function.update s.procPid rank (s.pid rank)
            sys :=
              { s.sys with
                world :=
                  { s.sys.world.setProc rank Process.new with
                    ticket := Function.update s.sys.world.ticket rank 0 } } }
      else .blocked
  | .enter rank =>
      if free : rank < size ∧ ¬ s.Waits rank then
        if s.life rank = .constructed then .ok (s.arrive rank free.1 free.2 .entering) else .blocked
      else .blocked
  | .entered rank =>
      if s.life rank = .entering ∧ ¬ s.Waits rank then .ok (s.goto rank .running) else .blocked
  | .perform event =>
      if s.life event.caller = .running ∧ ¬ s.Waits event.caller then do
        let sys ← s.sys.perform (vm s.alive) program event
        pure { s with sys := sys }
      else .blocked
  | .barrier rank =>
      if free : rank < size ∧ ¬ s.Waits rank then
        if s.life rank = .running ∧ (s.sys.ranks rank).cont = [] then
          .ok { s.arrive rank free.1 free.2 .running with met := Function.update s.met rank (s.met rank + 1) }
        else .blocked
      else .blocked
  | .finalize rank =>
      if free : rank < size ∧ ¬ s.Waits rank then
        if s.life rank = .running ∧ (s.sys.ranks rank).cont = [] then
          .ok (s.arrive rank free.1 free.2 .finalizing)
        else .blocked
      else .blocked
  | .finalized rank =>
      if s.life rank = .finalizing ∧ ¬ s.Waits rank then .ok (s.goto rank .finalized) else .blocked
  | .exit rank code =>
      if (s.life rank).isAlive ∧ ¬ s.Waits rank then .ok (s.goto rank (.ended (.ofExit code))) else .blocked
  | .kill rank signal =>
      if (s.life rank).isAlive then .ok (s.goto rank (.ended (.signaled signal))) else .blocked

/-- The event of a step that communicates, with the state of the system before it. -/
def recorded (s : Job size) : JobStep → List (Sys × Event)
  | .perform event => [(s.sys, event)]
  | _ => []

/-- `s'` follows from `s` by steps that satisfy a condition on the state before each; `history` has the events among
    them, the latest first. -/
inductive RunsBy (vm : (Nat → Bool) → ProcessVm) (leader : Bool) (program : Program)
    (meets : Job size → JobStep → Prop) (s : Job size) : List (Sys × Event) → Job size → Prop where
  | refl : RunsBy vm leader program meets s [] s
  | tail {history : List (Sys × Event)} {s' s'' : Job size} (label : JobStep)
      (before : RunsBy vm leader program meets s history s') (condition : meets s' label)
      (step : s'.step vm leader program label = .ok s'') :
      RunsBy vm leader program meets s (s'.recorded label ++ history) s''

/-- `s'` follows from `s` by any steps. -/
abbrev Runs (vm : (Nat → Bool) → ProcessVm) (leader : Bool) (program : Program) (s : Job size) :
    List (Sys × Event) → Job size → Prop :=
  RunsBy vm leader program (fun _ _ => True) s

end Job

end Umpi
