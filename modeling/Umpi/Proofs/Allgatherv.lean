/-
Module: Umpi.Proofs.Allgatherv
Layer: Proofs
Purpose: `MPI_Allgatherv` gathers the same data everywhere and returns on all ranks, in every order of the steps.
  The barrier keeps the ranks within one round of each other; what can be where at a given time is
  `Line.Allowed`, and every step keeps `Gathering.Underway`.
Imports: Umpi.Proofs.RoundCalls
Trusted boundary: none
Main exports: Gathering.Phased, Gathering.Underway, Gathering.Underway.step_cases, AllgathervSound,
  mpiAllgatherv_gathers, mpiAllgatherv_returns
Open obligations: none
-/
import Umpi.Proofs.RoundCalls

namespace Umpi

open Foundation Sys

/-! ### The phases of the barrier -/

/-- What a rank has done when it is at a line. -/
def Line.progress (n : Nat) : Line → Progress
  | begins root | calls root => { joined := root, delivered := root, waited := root }
  | inside root => { joined := root + 1, delivered := root, waited := root }
  | called root | waits root => { joined := root + 1, delivered := root + 1, waited := root }
  | returned _ => { joined := n, delivered := n, waited := n }

/-- How many steps a rank has left at most. -/
def Line.left (n : Nat) : Line → Nat
  | begins root => 5 * (n - root) + 1
  | calls root => 5 * (n - root)
  | inside root => 5 * (n - root) - 1
  | called root => 5 * (n - root) - 2
  | waits root => 5 * (n - root) - 3
  | returned _ => 0

/-- Can a rank be at a line, waiting at the barrier or not, when the barrier has opened `era` times? The
    barrier opens once in every round: before the call of every rank but the root, and after the root's. -/
def Line.Allowed (n era rank : Nat) (waiting : Prop) : Line → Prop
  | begins root => ¬ waiting ∧ root = era
  | calls root =>
      root < n ∧ ((waiting ∧ rank ≠ root ∧ root = era) ∨ (¬ waiting ∧ rank ≠ root ∧ root + 1 = era) ∨
        (¬ waiting ∧ rank = root ∧ root = era))
  | inside root => root < n ∧ ¬ waiting ∧ rank ≠ root ∧ root + 1 = era
  | called root =>
      root < n ∧ ¬ waiting ∧ ((rank ≠ root ∧ root + 1 = era) ∨ (rank = root ∧ root = era))
  | waits root => root < n ∧ ((waiting ∧ rank = root ∧ root = era) ∨ (¬ waiting ∧ root + 1 = era))
  | returned ret => ¬ waiting ∧ era = n ∧ ret = mpiSuccess

namespace Line.Allowed

variable {n era rank : Nat} {waiting waiting' : Prop} {line : Line}

/-- When the barrier opens, those who wait there go on in the next era. -/
theorem release (allowed : line.Allowed n era rank waiting) (waits : waiting) (goes : ¬ waiting') :
    line.Allowed n (era + 1) rank waiting' := by
  cases line <;> simp [Line.Allowed, waits, goes] at allowed ⊢ <;> omega

theorem congr (allowed : line.Allowed n era rank waiting) (same : waiting ↔ waiting') :
    line.Allowed n era rank waiting' := by
  rwa [propext same] at allowed

/-- Nobody is more than a round behind. -/
theorem era_le (allowed : line.Allowed n era rank waiting) : era ≤ (line.progress n).joined + 1 := by
  cases line <;> simp only [Line.Allowed, Line.progress] at allowed ⊢ <;> omega

/-- Only the root of the next round can have joined it. -/
theorem joined_le (allowed : line.Allowed n era rank waiting) :
    (line.progress n).joined ≤ era ∨ (rank = era ∧ (line.progress n).joined = era + 1) := by
  cases line <;> simp only [Line.Allowed, Line.progress] at allowed ⊢ <;> omega

/-- The root of a round has joined it when the barrier has opened. -/
theorem root_joined (allowed : line.Allowed n era rank waiting) (own : rank + 1 = era) :
    rank < (line.progress n).joined := by
  cases line <;> simp only [Line.Allowed, Line.progress] at allowed ⊢ <;> omega

/-- Whoever waits at the barrier is in the loop, and has nothing left to deliver. -/
theorem waiting_lt (allowed : line.Allowed n era rank waiting) (waits : waiting) : era < n := by
  cases line <;> simp [Line.Allowed, waits] at allowed <;> omega

theorem waiting_le (allowed : line.Allowed n era rank waiting) (waits : waiting) :
    era ≤ (line.progress n).delivered := by
  cases line <;> simp [Line.Allowed, Line.progress, waits] at allowed ⊢ <;> omega

/-- The barrier opens once in every round, and nobody is ahead of the loop. -/
theorem delivered_le (allowed : line.Allowed n era rank waiting) (range : era ≤ n) :
    (line.progress n).delivered ≤ n := by
  cases line <;> simp only [Line.Allowed, Line.progress] at allowed ⊢ <;> omega

end Line.Allowed

namespace Gathering

variable {n era : Nat} {s : Gathering n}

/-- The barrier has opened `era` times, and everybody is where it can be then. -/
structure Phased (era : Nat) (s : Gathering n) : Prop where
  range : era ≤ n
  allowed : ∀ rank < n, (s.line rank).Allowed n era rank (rank ∈ s.barrier.waiting)

/-- The progress of all ranks. -/
def progress (s : Gathering n) (rank : Nat) : Progress := (s.line rank).progress n

@[simp] theorem goto_sys (s : Gathering n) (self : Nat) (line : Line) : (s.goto self line).sys = s.sys := rfl

@[simp] theorem goto_barrier (s : Gathering n) (self : Nat) (line : Line) :
    (s.goto self line).barrier = s.barrier := rfl

@[simp] theorem goto_line_self (s : Gathering n) (self : Nat) (line : Line) :
    (s.goto self line).line self = line := Function.update_self ..

theorem goto_line_of_ne (s : Gathering n) {self rank : Nat} (line : Line) (other : rank ≠ self) :
    (s.goto self line).line rank = s.line rank := Function.update_of_ne other ..

theorem progress_goto (s : Gathering n) (self : Nat) (line : Line) :
    (s.goto self line).progress = Function.update s.progress self (line.progress n) := by
  funext rank
  by_cases own : rank = self
  · subst own
    simp [progress]
  · simp [progress, goto, own]

namespace Phased

/-- A step that does not involve the barrier. -/
theorem goto (phased : Phased era s) {self : Nat} {line : Line} (absent : self ∉ s.barrier.waiting)
    (allowed : line.Allowed n era self False) : Phased era (s.goto self line) where
  range := phased.range
  allowed := by
    intro rank valid
    by_cases own : rank = self
    · subst own
      rw [goto_line_self]
      exact allowed.congr ⟨False.elim, absent⟩
    · rw [goto_line_of_ne s line own]
      exact phased.allowed rank valid

/-- A rank arrives at the barrier: it waits, or the next era begins. -/
theorem arrive (phased : Phased era s) {self : Nat} {line : Line} (valid : self < n)
    (absent : self ∉ s.barrier.waiting) (small : era < n) (allowed : line.Allowed n era self True) :
    Phased era ({ s with barrier := s.barrier.arrive self valid absent }.goto self line) ∨
      Phased (era + 1) ({ s with barrier := s.barrier.arrive self valid absent }.goto self line) := by
  rcases Barrier.arrive_cases valid absent with waits | ⟨opens, everybody⟩
  · refine Or.inl ⟨phased.range, fun rank rankValid => ?_⟩
    rw [goto_barrier, waits]
    by_cases own : rank = self
    · subst own
      rw [goto_line_self]
      exact allowed.congr (by simp)
    · rw [goto_line_of_ne _ line own]
      exact (phased.allowed rank rankValid).congr (by simp [own])
  · refine Or.inr ⟨small, fun rank rankValid => ?_⟩
    rw [goto_barrier, opens]
    by_cases own : rank = self
    · subst own
      rw [goto_line_self]
      exact allowed.release trivial List.not_mem_nil
    · rw [goto_line_of_ne _ line own]
      exact (phased.allowed rank rankValid).release ((everybody rank rankValid).resolve_left own)
        List.not_mem_nil

end Phased

/-! ### Steps -/

/-- All that holds while the ranks are on their way through `MPI_Allgatherv`. -/
structure Underway (send : Nat → Option Buffer) (recv : Nat → BlockVector) {n : Nat} (t : Nat) (origin : Sys)
    (era : Nat) (cookie : Nat → Nat) (done : List (Nat × Nat)) (s : Gathering n) : Prop where
  phased : s.Phased era
  slots : RoundSlots send recv n t origin.world era (fun rank => (s.progress rank).joined)
    (fun rank => (s.progress rank).delivered) cookie s.sys.world
  ranks : RoundRanks send recv n t s.progress cookie s.sys.ranks
  data : RoundData send recv n t origin.world.mem (fun rank => (s.progress rank).delivered) done s.sys.world.mem
  heard : Heard n s.progress

section Underway

variable {vm : ProcessVm} {args : Nat → AllgathervArgs} {send : Nat → Option Buffer}
  {recv : Nat → BlockVector} {n t era : Nat} {origin : Sys} {cookie : Nat → Nat} {done : List (Nat × Nat)}
  {s : Gathering n}

/-- Everybody may begin. -/
theorem Underway.start {sys : Sys} (ready : sys.Ready n t) (unlocked : ∀ turn, (sys.world.slots turn).mutex = none)
    (idle : ∀ turn, (sys.world.slots turn).box = []) (several : 0 < n) :
    Underway send recv t sys 0 id [] (start sys several) where
  phased := ⟨Nat.zero_le n, fun rank _ => ⟨List.not_mem_nil, rfl⟩⟩
  slots := RoundSlots.start ready unlocked idle
  ranks :=
    { pos := fun rank _ => by simp [Gathering.start, progress, Line.progress, ready.idle]
      cont := fun rank _ => by simp [Gathering.start, progress, Line.progress, ready.idle]
      requests := fun rank _ => by simp [Gathering.start, progress, Line.progress, ready.idle]
      clean := fun rank ret returned => by simp [Gathering.start, ready.idle, RankState.new] at returned }
  data :=
    { memory := rfl
      once := List.nodup_nil
      covered := by simp [Gathering.start, progress, Line.progress] }
  heard := fun _ _ impossible => absurd impossible (Nat.not_lt_zero _)

/-- A rank other than the root has joined, or the root has, before the barrier opens again. -/
theorem Underway.joined_le (underway : Underway send recv t origin era cookie done s) {rank : Nat}
    (valid : rank < n) : (s.progress rank).joined ≤ era + 1 := by
  have ahead := (underway.phased.allowed rank valid).joined_le
  unfold progress
  omega

/-- What a step does that changes the line of a rank, but not its progress. -/
theorem Underway.goto (underway : Underway send recv t origin era cookie done s) {self : Nat} {line : Line}
    (absent : self ∉ s.barrier.waiting) (allowed : line.Allowed n era self False)
    (same : line.progress n = s.progress self) :
    Underway send recv t origin era cookie done (s.goto self line) := by
  have progressed : (s.goto self line).progress = s.progress := by
    rw [progress_goto, same, Function.update_eq_self]
  exact
    { phased := underway.phased.goto absent allowed
      slots := by
        rw [progressed]
        exact underway.slots
      ranks := by
        rw [progressed]
        exact underway.ranks
      data := by
        rw [progressed]
        exact underway.data
      heard := by
        rw [progressed]
        exact underway.heard }

/-- A rank arrives at the barrier. -/
theorem Underway.arrive (underway : Underway send recv t origin era cookie done s) {self : Nat} (line : Line)
    (valid : self < n) (absent : self ∉ s.barrier.waiting) (small : era < n)
    (allowed : line.Allowed n era self True) (same : line.progress n = s.progress self) :
    ∃ era', Underway send recv t origin era' cookie done
      ({ s with barrier := s.barrier.arrive self valid absent }.goto self line) := by
  have progressed : ({ s with barrier := s.barrier.arrive self valid absent }.goto self line).progress =
      s.progress := by
    rw [progress_goto, same]
    exact Function.update_eq_self self s.progress
  rcases underway.phased.arrive valid absent small allowed with waits | opens
  · refine ⟨era, { phased := waits, slots := ?_, ranks := ?_, data := ?_, heard := ?_ }⟩
    · rw [progressed]
      exact underway.slots
    · rw [progressed]
      exact underway.ranks
    · rw [progressed]
      exact underway.data
    · rw [progressed]
      exact underway.heard
  · refine ⟨era + 1, { phased := opens, slots := ?_, ranks := ?_, data := ?_, heard := ?_ }⟩
    · rw [progressed]
      refine underway.slots.release fun rank rankValid => ?_
      have behind := (opens.allowed rank rankValid).era_le
      have joined : (({ s with barrier := s.barrier.arrive self valid absent }.goto self line).line
          rank).progress n = s.progress rank := congrFun progressed rank
      rw [joined] at behind
      omega
    · rw [progressed]
      exact underway.ranks
    · rw [progressed]
      exact underway.data
    · rw [progressed]
      exact underway.heard

end Underway

section Steps

variable {vm : ProcessVm} {args : Nat → AllgathervArgs} {send : Nat → Option Buffer}
  {recv : Nat → BlockVector} {n t era : Nat} {origin : Sys} {cookie : Nat → Nat} {done : List (Nat × Nat)}
  {s : Gathering n} {self root : Nat}

/-- A step of a rank has brought it to a later line, and all is well. -/
structure Advanced (send : Nat → Option Buffer) (recv : Nat → BlockVector) (t : Nat) (origin : Sys)
    (s : Gathering n) (actor : Nat) (s' : Gathering n) : Prop where
  underway : ∃ era cookie done, Underway send recv t origin era cookie done s'
  later : (s'.line actor).left n < (s.line actor).left n
  others : ∀ rank ≠ actor, s'.line rank = s.line rank

theorem Advanced.of_goto (mid : Gathering n) {line : Line} {cookie' : Nat → Nat} {era' : Nat}
    {done' : List (Nat × Nat)} (lines : mid.line = s.line)
    (underway : Underway send recv t origin era' cookie' done' (mid.goto self line))
    (later : line.left n < (s.line self).left n) : Advanced send recv t origin s self (mid.goto self line) where
  underway := ⟨era', cookie', done', underway⟩
  later := by rwa [goto_line_self]
  others := fun rank other => by rw [goto_line_of_ne mid line other, lines]

/-- A rank that has more to do in `MPI_Igatherv`. -/
theorem proceed_of_cont {state : RankState} (here : s.sys.ranks self = state) (more : state.cont ≠ []) :
    s.proceed self root = s.goto self (.inside root) := by
  rw [proceed, here, if_pos more]

/-- A rank that has returned from `MPI_Igatherv`. -/
theorem proceed_of_returned {state : RankState} (here : s.sys.ranks self = state) (none : state.cont = [])
    {rets : List Int} (success : state.rets = mpiSuccess :: rets) :
    s.proceed self root = s.goto self (.called root) := by
  rw [proceed, here, if_neg (not_not.mpr none), ret, here, success]
  rfl

namespace Underway

variable (underway : Underway send recv t origin era cookie done s)

include underway

theorem idle (valid : self < n) (nothing : (s.progress self).delivered = (s.progress self).joined) :
    (s.sys.ranks self).cont = [] := by
  rw [underway.ranks.cont self valid, nothing]
  simp

/-- The loop condition, and the barrier before the call. -/
theorem begins_steps (arguments : AllgathervArguments args send recv n) (valid : self < n)
    (absent : self ∉ s.barrier.waiting) (line : s.line self = .begins root) :
    ∃ s', s.step vm args self = .ok s' ∧ Advanced send recv t origin s self s' := by
  have allowed := underway.phased.allowed self valid
  have progressed : s.progress self = { joined := root, delivered := root, waited := root } := by
    rw [progress, line]
    rfl
  rw [line] at allowed
  obtain ⟨_, rfl⟩ := allowed
  have range := underway.phased.range
  have free : self < n ∧ self ∉ s.barrier.waiting := ⟨valid, absent⟩
  have world := (arguments.passes self valid).comm
  by_cases last : n ≤ root
  · obtain rfl : root = n := by omega
    refine ⟨s.goto self (.returned mpiSuccess), ?_, Advanced.of_goto s rfl (underway.goto absent ?_ ?_) ?_⟩
    · rw [step, dif_pos free]
      simp [line, underway.slots.size]
    · exact ⟨not_false, rfl, rfl⟩
    · rw [progressed]
      rfl
    · rw [line]
      simp [Line.left]
  · have more : root < n := by omega
    have later : (Line.calls root).left n < (s.line self).left n := by
      rw [line]
      simp [Line.left]
    have notDone : ¬ s.sys.world.size ≤ root := by
      rw [underway.slots.size]
      exact last
    by_cases own : root = self
    · subst own
      refine ⟨s.goto root (.calls root), ?_, Advanced.of_goto s rfl (underway.goto absent ?_ ?_) later⟩
      · rw [step, dif_pos free]
        simp only [line, if_neg notDone, ne_eq, not_true_eq_false, if_false]
      · exact ⟨more, Or.inr (Or.inr ⟨not_false, rfl, rfl⟩)⟩
      · rw [progressed]
        rfl
    · obtain ⟨era', arrived⟩ := underway.arrive (.calls root) valid absent more
        ⟨more, Or.inl ⟨trivial, Ne.symm own, rfl⟩⟩ (by rw [progressed]; rfl)
      refine ⟨_, ?_, Advanced.of_goto { s with barrier := s.barrier.arrive self valid absent } rfl
        arrived later⟩
      rw [step, dif_pos free]
      simp only [line, if_neg notDone, ne_eq, own, not_false_eq_true, if_true, mpiBarrier, world,
        not_true_eq_false, if_false]

/-- The barrier after the root's call. -/
theorem called_steps (arguments : AllgathervArguments args send recv n) (valid : self < n)
    (absent : self ∉ s.barrier.waiting) (line : s.line self = .called root) :
    ∃ s', s.step vm args self = .ok s' ∧ Advanced send recv t origin s self s' := by
  have allowed := underway.phased.allowed self valid
  have progressed : s.progress self = { joined := root + 1, delivered := root + 1, waited := root } := by
    rw [progress, line]
    rfl
  rw [line] at allowed
  obtain ⟨more, _, place⟩ := allowed
  have free : self < n ∧ self ∉ s.barrier.waiting := ⟨valid, absent⟩
  have world := (arguments.passes self valid).comm
  have later : (Line.waits root).left n < (s.line self).left n := by
    rw [line]
    simp only [Line.left]
    omega
  by_cases own : root = self
  · subst own
    obtain rfl : root = era := by omega
    obtain ⟨era', arrived⟩ := underway.arrive (.waits root) valid absent more
      ⟨more, Or.inl ⟨trivial, rfl, rfl⟩⟩ (by rw [progressed]; rfl)
    refine ⟨_, ?_, Advanced.of_goto { s with barrier := s.barrier.arrive root valid absent } rfl
      arrived later⟩
    rw [step, dif_pos free]
    simp only [line, if_true, mpiBarrier, world, ne_eq, not_true_eq_false, if_false]
    rfl
  · refine ⟨s.goto self (.waits root), ?_, Advanced.of_goto s rfl (underway.goto absent ?_ ?_) later⟩
    · rw [step, dif_pos free]
      simp only [line, if_neg own]
    · exact ⟨more, Or.inr ⟨not_false, by omega⟩⟩
    · rw [progressed]
      rfl

end Underway

/-- The state after a call of `MPI_Igatherv` has released the slot. -/
def entered (s : Gathering n) (self : Nat) (w : World) (frame : Frame) : Gathering n :=
  { s with
    sys :=
      { world := w
        ranks := Function.update s.sys.ranks self ((s.sys.ranks self).enter frame)
        joins := s.sys.record w self } }

/-- A rank calls `MPI_Igatherv`. -/
theorem step_calls (valid : self < n) (absent : self ∉ s.barrier.waiting) (line : s.line self = .calls root)
    (size : s.sys.world.size = n) (idle : (s.sys.ranks self).cont = []) {call : Call}
    (round : (args self).round self root = .ok call) {w : World} {frame : Frame}
    (returned : call.enter vm s.sys.world self = .ok (w, frame)) :
    s.step vm args self = .ok ((s.entered self w frame).proceed self root) := by
  have accepted : ¬ (s.sys.world.size ≤ self ∨ (s.sys.ranks self).cont ≠ []) := by
    rw [size, idle]
    simp [valid]
  rw [step, dif_pos ⟨valid, absent⟩]
  simp only [line, round, Outcome.ok_bind, Sys.step, if_neg accepted, returned, Outcome.pure_eq]
  rfl

/-- What is known of the other ranks' progress when one has moved to another line. -/
theorem progress_of_goto (mid : Gathering n) (lines : mid.line = s.line) (line : Line) :
    (mid.goto self line).progress = Function.update s.progress self (line.progress n) := by
  rw [progress_goto]
  have same : mid.progress = s.progress := by
    funext rank
    rw [progress, progress, lines]
  rw [same]

theorem joined_update (progress : Nat → Progress) (after : Progress) :
    (fun rank => (Function.update progress self after rank).joined) =
      Function.update (fun rank => (progress rank).joined) self after.joined := by
  funext rank
  by_cases own : rank = self
  · subst own
    simp
  · simp [own]

theorem delivered_update (progress : Nat → Progress) (after : Progress) :
    (fun rank => (Function.update progress self after rank).delivered) =
      Function.update (fun rank => (progress rank).delivered) self after.delivered := by
  funext rank
  by_cases own : rank = self
  · subst own
    simp
  · simp [own]

/-- Nobody delivers in a round before joining it. -/
theorem delivered_le (s : Gathering n) (rank : Nat) : (s.progress rank).delivered ≤ (s.progress rank).joined := by
  unfold progress
  cases s.line rank <;> simp [Line.progress]

namespace Underway

variable (underway : Underway send recv t origin era cookie done s)

include underway

/-- When a rank is about to join its own round nobody else has. -/
theorem nobody (valid : self < n) (line : s.line self = .calls self) :
    self = era ∧ ∀ rank < n, (s.progress rank).joined ≤ self := by
  have allowed := underway.phased.allowed self valid
  rw [line] at allowed
  obtain ⟨_, place⟩ := allowed
  obtain rfl : self = era := by omega
  refine ⟨rfl, fun rank rankValid => ?_⟩
  rcases (underway.phased.allowed rank rankValid).joined_le with behind | ⟨rfl, _⟩
  · exact behind
  · rw [progress, line]
    exact le_rfl

/-- The root calls `MPI_Igatherv`. -/
theorem root_calls (ready : origin.Ready n t) (arguments : AllgathervArguments args send recv n)
    (copies : CopiesAll vm) (several : 2 ≤ n) (limit : n ≤ 10000) (valid : self < n)
    (absent : self ∉ s.barrier.waiting) (line : s.line self = .calls self) :
    ∃ s', s.step vm args self = .ok s' ∧ Advanced send recv t origin s self s' := by
  have progressed : s.progress self = { joined := self, delivered := self, waited := self } := by
    rw [progress, line]
    rfl
  obtain ⟨rfl, nobody⟩ := underway.nobody valid line
  have near : ∀ other < n, other < (s.progress other).joined → self ≤ other + 1 → other ≠ self →
      slotAt t other ≠ slotAt t self := by
    intro other otherValid opened current different
    have behind := nobody other otherValid
    obtain rfl : self = other + 1 := by omega
    exact slotAt_succ_ne t other
  obtain ⟨call, round, same⟩ := (arguments.passes self valid).round
    (fun buffer sends => (arguments.sendValid self valid buffer sends).2) (arguments.recvGiven self valid) self
  obtain ⟨⟨w, frame⟩, returned, id, cont, request, success, mem, slots⟩ := underway.slots.returns arguments
    valid valid (by rw [progressed]) near (underway.slots.rootJoins vm ready arguments copies several limit
      valid (by rw [progressed]) (by rw [progressed]) (fun rank _ => delivered_le s rank) nobody)
  simp only at cont request success mem slots
  have idle := underway.idle valid (by rw [progressed])
  have requests : (s.sys.ranks self).requests = [] := by
    rw [underway.ranks.requests self valid, progressed]
    simp
  have stepped : s.step vm args self = .ok ((s.entered self w frame).proceed self self) :=
    step_calls valid absent line underway.slots.size idle round ((same vm s.sys.world).trans returned)
  have rets : ((s.sys.ranks self).enter frame).rets = mpiSuccess :: (s.sys.ranks self).rets := by
    simp [RankState.enter, cont, success]
  have proceeds : (s.entered self w frame).proceed self self = (s.entered self w frame).goto self (.called self) :=
    proceed_of_returned (Function.update_self ..) cont rets
  rw [proceeds] at stepped
  have after : ((s.entered self w frame).goto self (.called self)).progress =
      Function.update s.progress self ((Line.called self).progress n) := progress_of_goto _ rfl _
  refine ⟨_, stepped, Advanced.of_goto (s.entered self w frame) rfl
    ({ phased := ?_, slots := ?_, ranks := ?_, data := ?_, heard := ?_ } : Underway send recv t origin self
      (Function.update cookie self id) (done ++ [(self, self)]) _) ?_⟩
  · have moved : Phased self (s.goto self (.called self)) :=
      underway.phased.goto absent ⟨valid, not_false, Or.inr ⟨rfl, rfl⟩⟩
    exact ⟨moved.range, moved.allowed⟩
  · rw [after, joined_update, delivered_update]
    exact slots
  · rw [after]
    refine (underway.ranks.rename fun rank rankValid root early => ?_).update
      (by simp [underway.ranks.pos self valid, progressed, Line.progress]) ?_ ?_ ?_
    · have behind := nobody rank rankValid
      exact Function.update_of_ne (by omega) _ _
    · simpa [Line.progress] using cont
    · simp [Line.progress, request, requests]
    · intro ret member
      rw [rets] at member
      rcases List.mem_cons.mp member with rfl | earlier
      · rfl
      · exact underway.ranks.clean self ret earlier
  · have delivers := underway.data.deliver valid
      (show (s.progress self).delivered = self by rw [progressed])
    rw [after, delivered_update]
    rw [← mem] at delivers
    exact delivers
  · rw [after]
    exact underway.heard.update (by simp [progressed, Line.progress]) fun waited => absurd waited (lt_irrefl self)
  · rw [line]
    simp only [Line.left]
    omega

/-- Another rank calls `MPI_Igatherv`. -/
theorem member_calls (arguments : AllgathervArguments args send recv n) (limit : n ≤ 10000) (valid : self < n)
    (absent : self ∉ s.barrier.waiting) (notRoot : self ≠ root) (line : s.line self = .calls root) :
    ∃ s', s.step vm args self = .ok s' ∧ Advanced send recv t origin s self s' := by
  have allowed := underway.phased.allowed self valid
  rw [line] at allowed
  obtain ⟨rootValid, place⟩ := allowed
  obtain rfl : root + 1 = era := by
    rcases place with ⟨waits, _⟩ | ⟨_, _, same⟩ | ⟨_, own, _⟩
    · exact absurd waits absent
    · exact same
    · exact absurd own notRoot
  have progressed : s.progress self = { joined := root, delivered := root, waited := root } := by
    rw [progress, line]
    rfl
  have opened : root < (s.progress root).joined := (underway.phased.allowed root rootValid).root_joined rfl
  have near : ∀ other < n, other < (s.progress other).joined → root + 1 ≤ other + 1 → other ≠ root →
      slotAt t other ≠ slotAt t root := by
    intro other otherValid otherOpened current different
    have ahead := underway.joined_le otherValid
    obtain rfl : other = root + 1 := by omega
    exact (slotAt_succ_ne t root).symm
  obtain ⟨call, round, same⟩ := (arguments.passes self valid).round
    (fun buffer sends => (arguments.sendValid self valid buffer sends).2) (arguments.recvGiven self valid) root
  obtain ⟨⟨w, frame⟩, returned, cont, request, mem, slots⟩ := underway.slots.returns arguments
    valid rootValid (by rw [progressed]) near (underway.slots.memberJoins vm arguments limit
      valid rootValid notRoot (by rw [progressed]) opened rfl fun rank rankValid => underway.joined_le rankValid)
  simp only at cont request mem slots
  have idle := underway.idle valid (by rw [progressed])
  have requests : (s.sys.ranks self).requests = [] := by
    rw [underway.ranks.requests self valid, progressed]
    simp
  have stepped : s.step vm args self = .ok ((s.entered self w frame).proceed self root) :=
    step_calls valid absent line underway.slots.size idle round ((same vm s.sys.world).trans returned)
  have more : ((s.sys.ranks self).enter frame).cont ≠ [] := by simp [cont]
  have proceeds : (s.entered self w frame).proceed self root = (s.entered self w frame).goto self (.inside root) :=
    proceed_of_cont (Function.update_self ..) more
  rw [proceeds] at stepped
  have after : ((s.entered self w frame).goto self (.inside root)).progress =
      Function.update s.progress self ((Line.inside root).progress n) := progress_of_goto _ rfl _
  refine ⟨_, stepped, Advanced.of_goto (s.entered self w frame) rfl
    ({ phased := ?_, slots := ?_, ranks := ?_, data := ?_, heard := ?_ } : Underway send recv t origin (root + 1)
      cookie done _) ?_⟩
  · have moved : Phased (root + 1) (s.goto self (.inside root)) :=
      underway.phased.goto absent ⟨rootValid, not_false, notRoot, rfl⟩
    exact ⟨moved.range, moved.allowed⟩
  · have same : Function.update (fun rank => (s.progress rank).delivered) self
        ((Line.inside root).progress n).delivered = fun rank => (s.progress rank).delivered := by
      rw [Function.update_eq_self_iff, progressed]
      rfl
    rw [after, joined_update, delivered_update, same]
    exact slots
  · rw [after]
    refine underway.ranks.update (by simp [underway.ranks.pos self valid, progressed, Line.progress]) ?_ ?_ ?_
    · simpa [Line.progress] using cont
    · simp [Line.progress, request, requests]
    · have rets : ((s.sys.ranks self).enter frame).rets = (s.sys.ranks self).rets := by
        simp [RankState.enter, cont]
      rw [rets]
      exact underway.ranks.clean self
  · have same : Function.update (fun rank => (s.progress rank).delivered) self
        ((Line.inside root).progress n).delivered = fun rank => (s.progress rank).delivered := by
      rw [Function.update_eq_self_iff, progressed]
      rfl
    rw [after, delivered_update, same]
    show RoundData send recv n t origin.world.mem _ done w.mem
    rw [mem]
    exact underway.data
  · rw [after]
    exact underway.heard.update (by simp [progressed, Line.progress]) fun waited => Or.inl (by
      simpa [progressed, Line.progress] using waited)
  · rw [line]
    simp only [Line.left]
    omega

/-- It delivers its data, and returns from `MPI_Igatherv`. -/
theorem inside_steps (arguments : AllgathervArguments args send recv n) (copies : CopiesAll vm)
    (limit : n ≤ 10000) (valid : self < n) (absent : self ∉ s.barrier.waiting)
    (line : s.line self = .inside root) :
    ∃ s', s.step vm args self = .ok s' ∧ Advanced send recv t origin s self s' := by
  have allowed := underway.phased.allowed self valid
  rw [line] at allowed
  obtain ⟨rootValid, _, notRoot, rfl⟩ := allowed
  have progressed : s.progress self = { joined := root + 1, delivered := root, waited := root } := by
    rw [progress, line]
    rfl
  have opened : root < (s.progress root).joined := (underway.phased.allowed root rootValid).root_joined rfl
  have cont : (s.sys.ranks self).cont = [(roundPlan send recv n t root).pull self (cookie root)] := by
    rw [underway.ranks.cont self valid, progressed]
    simp
  obtain ⟨moved, performs, slots⟩ := underway.slots.deliver arguments copies limit valid rootValid notRoot
    (by rw [progressed]) opened le_rfl
  have finished : (s.sys.ranks self).advance ((roundPlan send recv n t root).pull self (cookie root)).moved []
      moved.ret =
        { s.sys.ranks self with cont := [], todo := [], rets := mpiSuccess :: (s.sys.ranks self).rets } := by
    simp [performs.ret, RankState.advance]
  let sys : Sys :=
    { s.sys with
      world := moved.world
      ranks := Function.update s.sys.ranks self
        { s.sys.ranks self with cont := [], todo := [], rets := mpiSuccess :: (s.sys.ranks self).rets } }
  have acted : s.sys.step vm (fun _ _ => none) (.act self) = .ok sys := by
    rw [act_steps cont performs.exec, finished]
  have proceeds : ({ s with sys := sys } : Gathering n).proceed self root =
      ({ s with sys := sys } : Gathering n).goto self (.called root) :=
    proceed_of_returned (Function.update_self ..) rfl rfl
  have stepped : s.step vm args self = .ok (({ s with sys := sys } : Gathering n).goto self (.called root)) := by
    rw [step, dif_pos ⟨valid, absent⟩]
    simp only [line, acted, Outcome.ok_bind, Outcome.pure_eq, proceeds]
  have after : (({ s with sys := sys } : Gathering n).goto self (.called root)).progress =
      Function.update s.progress self ((Line.called root).progress n) := progress_of_goto _ rfl _
  refine ⟨_, stepped, Advanced.of_goto { s with sys := sys } rfl
    ({ phased := ?_, slots := ?_, ranks := ?_, data := ?_, heard := ?_ } : Underway send recv t origin (root + 1)
      cookie (done ++ [(root, self)]) _) ?_⟩
  · have moved : Phased (root + 1) (s.goto self (.called root)) :=
      underway.phased.goto absent ⟨rootValid, not_false, Or.inl ⟨notRoot, rfl⟩⟩
    exact ⟨moved.range, moved.allowed⟩
  · have same : Function.update (fun rank => (s.progress rank).joined) self
        ((Line.called root).progress n).joined = fun rank => (s.progress rank).joined := by
      rw [Function.update_eq_self_iff, progressed]
      rfl
    rw [after, joined_update, delivered_update, same]
    exact slots
  · rw [after]
    refine underway.ranks.update ?_ ?_ ?_ ?_
    · simp [underway.ranks.pos self valid, progressed, Line.progress]
    · simp [Line.progress]
    · simp [underway.ranks.requests self valid, progressed, Line.progress]
    · exact List.forall_mem_cons.mpr ⟨rfl, underway.ranks.clean self⟩
  · have delivers := underway.data.deliver valid
      (show (s.progress self).delivered = root by rw [progressed])
    rw [after, delivered_update]
    rw [← performs.mem] at delivers
    exact delivers
  · rw [after]
    exact underway.heard.update (by simp [progressed, Line.progress]) fun waited => Or.inl (by
      simpa [progressed, Line.progress] using waited)
  · rw [line]
    simp only [Line.left]
    omega

/-- It waits for the root's cookie. -/
theorem waits_steps (valid : self < n) (absent : self ∉ s.barrier.waiting) (line : s.line self = .waits root)
    (free : self = root → awaited n (fun rank => (s.progress rank).delivered) root = 0) :
    ∃ s', s.step vm args self = .ok s' ∧ Advanced send recv t origin s self s' := by
  have allowed := underway.phased.allowed self valid
  rw [line] at allowed
  obtain ⟨rootValid, place⟩ := allowed
  obtain rfl : root + 1 = era := by
    rcases place with ⟨waits, _⟩ | ⟨_, same⟩
    · exact absurd waits absent
    · exact same
  have progressed : s.progress self = { joined := root + 1, delivered := root + 1, waited := root } := by
    rw [progress, line]
    rfl
  have opened : root < (s.progress root).joined := (underway.phased.allowed root rootValid).root_joined rfl
  have requests : (s.sys.ranks self).requests = [cookie root] := by
    rw [underway.ranks.requests self valid, progressed]
    simp
  have idle := underway.idle valid (by rw [progressed])
  have ready : (s.sys.world.cookies (cookie root)).Ready self := by
    intro owner
    rw [underway.slots.owner rootValid opened] at owner
    rw [underway.slots.busy root rootValid opened]
    exact_mod_cast free owner.symm
  have err := underway.slots.errors root rootValid opened
  let sys : Sys :=
    { s.sys with
      world := s.sys.world.finalize (cookie root)
      ranks := Function.update s.sys.ranks self
        { s.sys.ranks self with requests := [], rets := mpiSuccess :: (s.sys.ranks self).rets } }
  have waited : s.sys.step vm (fun _ _ => none) (.wait self (cookie root)) = .ok sys := by
    rw [Sys.step, if_pos ⟨idle, by simp [requests], ready⟩, err, RankState.leave, requests]
    simp [sys, mpiSuccess]
  have ret : ({ s with sys := sys } : Gathering n).ret self = mpiSuccess := by
    simp [Gathering.ret, sys]
  have stepped : s.step vm args self = .ok (({ s with sys := sys } : Gathering n).goto self (.begins (root + 1))) := by
    rw [step, dif_pos ⟨valid, absent⟩]
    simp only [line, requests, waited, Outcome.ok_bind, Outcome.pure_eq, ret, onSuccess, if_true]
  have after : (({ s with sys := sys } : Gathering n).goto self (.begins (root + 1))).progress =
      Function.update s.progress self ((Line.begins (root + 1)).progress n) := progress_of_goto _ rfl _
  refine ⟨_, stepped, Advanced.of_goto { s with sys := sys } rfl
    ({ phased := ?_, slots := ?_, ranks := ?_, data := ?_, heard := ?_ } : Underway send recv t origin (root + 1)
      cookie done _) ?_⟩
  · have moved : Phased (root + 1) (s.goto self (.begins (root + 1))) :=
      underway.phased.goto absent ⟨not_false, rfl⟩
    exact ⟨moved.range, moved.allowed⟩
  · have joins : Function.update (fun rank => (s.progress rank).joined) self
        ((Line.begins (root + 1)).progress n).joined = fun rank => (s.progress rank).joined := by
      rw [Function.update_eq_self_iff, progressed]
      rfl
    have delivers : Function.update (fun rank => (s.progress rank).delivered) self
        ((Line.begins (root + 1)).progress n).delivered = fun rank => (s.progress rank).delivered := by
      rw [Function.update_eq_self_iff, progressed]
      rfl
    rw [after, joined_update, delivered_update, joins, delivers]
    exact underway.slots.finalize rootValid opened
  · rw [after]
    refine underway.ranks.update ?_ ?_ ?_ ?_
    · simp [underway.ranks.pos self valid, progressed, Line.progress]
    · simp [idle, Line.progress]
    · simp [Line.progress]
    · exact List.forall_mem_cons.mpr ⟨rfl, underway.ranks.clean self⟩
  · have delivers : Function.update (fun rank => (s.progress rank).delivered) self
        ((Line.begins (root + 1)).progress n).delivered = fun rank => (s.progress rank).delivered := by
      rw [Function.update_eq_self_iff, progressed]
      rfl
    rw [after, delivered_update, delivers]
    exact underway.data
  · rw [after]
    refine underway.heard.update (by simp [progressed, Line.progress]) fun waited => ?_
    by_cases own : self = root
    · refine Or.inr fun rank rankValid => ?_
      by_cases same : rank = self
      · rw [same, progressed]
        exact waited
      · rw [own] at same ⊢
        exact delivered_of_awaited (free own) rankValid same
    · refine Or.inl ?_
      simp only [Line.progress, progressed] at waited ⊢
      omega
  · rw [line]
    simp only [Line.left]
    omega

end Underway

end Steps

/-! ### Runs -/

section Runs

variable {vm : ProcessVm} {args : Nat → AllgathervArgs} {send : Nat → Option Buffer}
  {recv : Nat → BlockVector} {n t era : Nat} {origin : Sys} {cookie : Nat → Nat} {done : List (Nat × Nat)}
  {s s' : Gathering n} {self root : Nat}

/-- Why a rank takes no step: it waits at the barrier, it has returned, or it is the root of a round and still
    waits for the data of somebody. -/
structure Held (s : Gathering n) (root : Nat) : Prop where
  why : root ∈ s.barrier.waiting ∨ (∃ ret, s.line root = .returned ret) ∨
    s.line root = .waits root ∧ ∃ rank < n, rank ≠ root ∧ (s.progress rank).delivered ≤ root

theorem held_blocks (valid : self < n) (held : s.Held self)
    (underway : Underway send recv t origin era cookie done s) : s.step vm args self = .blocked := by
  by_cases absent : self ∈ s.barrier.waiting
  · exact dif_neg fun free => free.2 absent
  rw [step, dif_pos ⟨valid, absent⟩]
  rcases held.why with waits | ⟨ret, returned⟩ | ⟨line, late⟩
  · exact absurd waits absent
  · simp only [returned]
  · have progressed : s.progress self = { joined := self + 1, delivered := self + 1, waited := self } := by
      rw [progress, line]
      rfl
    have opened : self < (s.progress self).joined := by
      rw [progressed]
      exact Nat.lt_succ_self self
    have requests : (s.sys.ranks self).requests = [cookie self] := by
      rw [underway.ranks.requests self valid, progressed]
      simp
    have waits : ¬ (s.sys.world.cookies (cookie self)).Ready self := by
      intro ready
      have busy := ready (underway.slots.owner valid opened)
      rw [underway.slots.busy self valid opened, Int.natCast_eq_zero] at busy
      obtain ⟨rank, rankValid, other, before⟩ := late
      exact absurd (delivered_of_awaited busy rankValid other) (Nat.not_lt_of_le before)
    have blocked : s.sys.step vm (fun _ _ => none) (.wait self (cookie self)) = .blocked :=
      if_neg fun possible => waits possible.2.2
    simp only [line, requests, blocked, Outcome.blocked_bind]

/-- Every rank takes its next step, or is held. -/
theorem Underway.step_cases (underway : Underway send recv t origin era cookie done s) (ready : origin.Ready n t)
    (arguments : AllgathervArguments args send recv n) (copies : CopiesAll vm) (several : 2 ≤ n)
    (limit : n ≤ 10000) (valid : self < n) :
    (∃ s', s.step vm args self = .ok s' ∧ Advanced send recv t origin s self s') ∨ s.Held self := by
  by_cases absent : self ∈ s.barrier.waiting
  · exact Or.inr ⟨Or.inl absent⟩
  cases line : s.line self with
  | begins root => exact Or.inl (underway.begins_steps arguments valid absent line)
  | calls root =>
      by_cases own : self = root
      · subst own
        exact Or.inl (underway.root_calls ready arguments copies several limit valid absent line)
      · exact Or.inl (underway.member_calls arguments limit valid absent own line)
  | inside root => exact Or.inl (underway.inside_steps arguments copies limit valid absent line)
  | called root => exact Or.inl (underway.called_steps arguments valid absent line)
  | waits root =>
      by_cases free : self = root → awaited n (fun rank => (s.progress rank).delivered) root = 0
      · exact Or.inl (underway.waits_steps valid absent line free)
      · push Not at free
        obtain ⟨rfl, late⟩ := free
        exact Or.inr ⟨Or.inr (Or.inr ⟨line, exists_of_awaited late⟩)⟩
  | returned ret => exact Or.inr ⟨Or.inr (Or.inl ⟨ret, line⟩)⟩

/-- A step that is taken leads on. -/
theorem Underway.advanced (underway : Underway send recv t origin era cookie done s) (ready : origin.Ready n t)
    (arguments : AllgathervArguments args send recv n) (copies : CopiesAll vm) (several : 2 ≤ n)
    (limit : n ≤ 10000) (stepped : s.step vm args self = .ok s') :
    self < n ∧ Advanced send recv t origin s self s' := by
  by_cases valid : self < n
  · refine ⟨valid, ?_⟩
    rcases underway.step_cases ready arguments copies several limit valid with ⟨_, known, advanced⟩ | held
    · obtain rfl := Outcome.ok.inj (known.symm.trans stepped)
      exact advanced
    · rw [held_blocks valid held underway] at stepped
      cases stepped
  · have outside : s.step vm args self = .blocked := dif_neg fun free => valid free.1
    rw [outside] at stepped
    cases stepped

/-- All is well in every reachable state. -/
theorem underway_of_reaches (ready : origin.Ready n t)
    (unlocked : ∀ turn, (origin.world.slots turn).mutex = none)
    (idle : ∀ turn, (origin.world.slots turn).box = [])
    (arguments : AllgathervArguments args send recv n) (copies : CopiesAll vm) (several : 2 ≤ n)
    (limit : n ≤ 10000) (reached : Reaches vm args (start origin (by omega)) s) :
    ∃ era cookie done, Underway send recv t origin era cookie done s := by
  induction reached with
  | refl => exact ⟨0, id, [], Underway.start ready unlocked idle (by omega)⟩
  | tail self before stepped ih =>
      obtain ⟨_, _, _, underway⟩ := ih
      exact (underway.advanced ready arguments copies several limit stepped).2.underway

/-- If everybody is held, everybody has returned. -/
theorem Underway.returned_of_held (underway : Underway send recv t origin era cookie done s)
    (held : ∀ rank < n, s.Held rank) : ∀ rank < n, ∃ ret, s.line rank = .returned ret := by
  have allowed := underway.phased.allowed
  -- nobody can be late when all others wait at the barrier
  have settled : ∀ rank < n, rank ∈ s.barrier.waiting ∨ ∃ ret, s.line rank = .returned ret := by
    intro self valid
    rcases (held self valid).why with waits | returned | ⟨line, rank, rankValid, other, late⟩
    · exact Or.inl waits
    · exact Or.inr returned
    · by_cases absent : self ∈ s.barrier.waiting
      · exact Or.inl absent
      exfalso
      have here := allowed self valid
      rw [line] at here
      obtain ⟨_, place⟩ := here
      have current : self + 1 = era := place.elim (fun waits => absurd waits.1 absent) fun free => free.2
      rcases (held rank rankValid).why with waits | ⟨ret, returned⟩ | ⟨line', _⟩
      · have early := (allowed rank rankValid).waiting_le waits
        unfold progress at late
        omega
      · rw [progress, returned] at late
        exact absurd valid (Nat.not_lt_of_le late)
      · have there := allowed rank rankValid
        rw [line'] at there
        rw [progress, line'] at late
        simp only [Line.progress] at late
        obtain ⟨_, place'⟩ := there
        omega
  obtain ⟨absent, absentValid, notWaiting⟩ := s.barrier.exists_absent
  obtain ⟨ret, returned⟩ := (settled absent absentValid).resolve_left notWaiting
  have ended := allowed absent absentValid
  rw [returned] at ended
  intro rank valid
  refine (settled rank valid).resolve_left fun waits => ?_
  exact absurd ended.2.1 ((allowed rank valid).waiting_lt waits).ne

/-- How many steps all ranks together have left at most. -/
def left (s : Gathering n) : Nat := ∑ rank ∈ Finset.range n, (s.line rank).left n

theorem Advanced.left_lt (advanced : Advanced send recv t origin s self s') (valid : self < n) :
    s'.left < s.left := by
  refine Finset.sum_lt_sum (fun rank _ => ?_) ⟨self, Finset.mem_range.mpr valid, advanced.later⟩
  by_cases own : rank = self
  · subst own
    exact advanced.later.le
  · rw [advanced.others rank own]

theorem left_start (sys : Sys) (several : 0 < n) : (start sys several).left = n * (5 * n + 1) := by
  simp [left, start, Line.left]

/-- Every step of a run uses up one of the steps that were left. -/
theorem Underway.run_length (ready : origin.Ready n t) (arguments : AllgathervArguments args send recv n)
    (copies : CopiesAll vm) (several : 2 ≤ n) (limit : n ≤ 10000) {ranks : List Nat} {s : Gathering n} {era : Nat}
    {cookie : Nat → Nat} {done : List (Nat × Nat)} (underway : Underway send recv t origin era cookie done s)
    (ran : s.run vm args ranks = .ok s') : ranks.length + s'.left ≤ s.left := by
  induction ranks generalizing s era cookie done with
  | nil =>
      obtain rfl := Outcome.ok.inj ran
      simp
  | cons self ranks ih =>
      obtain ⟨next, stepped, rest⟩ := Outcome.bind_eq_ok.mp ran
      obtain ⟨valid, advanced⟩ := underway.advanced ready arguments copies several limit stepped
      obtain ⟨_, _, _, onward⟩ := advanced.underway
      have shorter := advanced.left_lt valid
      have remaining := ih onward rest
      rw [List.length_cons]
      omega

/-- The barrier has opened for the last time when somebody has returned. -/
theorem Underway.ended (underway : Underway send recv t origin era cookie done s) {ret : Int} (valid : self < n)
    (returned : s.line self = .returned ret) : era = n ∧ ret = mpiSuccess := by
  have allowed := underway.phased.allowed self valid
  rw [returned] at allowed
  exact allowed.2

/-- A rank that has returned has everybody's contribution. -/
theorem Underway.holds (underway : Underway send recv t origin era cookie done s)
    (arguments : AllgathervArguments args send recv n) {ret : Int} (valid : self < n)
    (returned : s.line self = .returned ret) {rank : Nat} (rankValid : rank < n) :
    Holds s.sys.world.mem ((recv self).block self rank)
      (readAll origin.world.mem (allgathervSource send recv rank)) := by
  have waited : (s.progress self).waited = n := by
    rw [progress, returned]
    rfl
  refine underway.data.holds arguments (fun other otherValid => ?_) valid rankValid ?_
  · exact (underway.phased.allowed other otherValid).delivered_le underway.phased.range
  · exact underway.heard self valid (by omega) rank rankValid

/-- When everybody has returned, all slots are idle and everybody has the same ticket. -/
theorem Underway.idle_of_returned (underway : Underway send recv t origin era cookie done s)
    (everybody : ∀ rank < n, ∃ ret, s.line rank = .returned ret) (several : 0 < n) :
    (∀ rank < n, s.sys.world.ticket rank = ticketAt t n) ∧ ∀ turn, (s.sys.world.slots turn).box = [] := by
  have joined : ∀ rank < n, (s.progress rank).joined = n := by
    intro rank valid
    obtain ⟨ret, returned⟩ := everybody rank valid
    rw [progress, returned]
    rfl
  obtain ⟨_, returned⟩ := everybody 0 several
  obtain ⟨rfl, _⟩ := underway.ended several returned
  refine ⟨fun rank valid => ?_, fun turn => ?_⟩
  · rw [underway.slots.ticket rank valid, joined rank valid]
  · refine (underway.slots.release fun rank valid => (joined rank valid).ge).idle turn ?_
    intro root valid _ late
    omega

/-- The states that a run leads to are reached. -/
theorem reaches_of_run {n : Nat} {vm : ProcessVm} {args : Nat → AllgathervArgs} {s s' s'' : Gathering n}
    {ranks : List Nat} (before : Reaches vm args s s') (ran : s'.run vm args ranks = .ok s'') :
    Reaches vm args s s'' := by
  induction ranks generalizing s' with
  | nil =>
      obtain rfl := Outcome.ok.inj ran
      exact before
  | cons self ranks ih =>
      obtain ⟨next, stepped, rest⟩ := Outcome.bind_eq_ok.mp ran
      exact ih (before.tail self stepped) rest

end Runs

end Gathering

/-! ### What the ranks get -/

/-- How it is in the midst of an `MPI_Allgatherv`. -/
structure AllgathervSound (vm : ProcessVm) (args : Nat → AllgathervArgs) (send : Nat → Option Buffer)
    (recv : Nat → BlockVector) {n : Nat} (origin : Sys) (s : Gathering n) : Prop where
  /-- Every step is defined, unless the rank has to wait. -/
  defined : ∀ rank, (∃ s', s.step vm args rank = .ok s') ∨ s.step vm args rank = .blocked
  /-- No call and no wait has failed. -/
  clean : s.sys.Clean
  successful : ∀ rank < n, ∀ ret, s.line rank = .returned ret → ret = mpiSuccess
  /-- A rank that has returned has the contributions of all ranks, whatever the others are still doing. -/
  gathered : ∀ self < n, ∀ ret, s.line self = .returned ret → ∀ rank < n,
    Holds s.sys.world.mem ((recv self).block self rank)
      (readAll origin.world.mem (allgathervSource send recv rank))
  /-- Nothing else is written. -/
  untouched : ∀ location, (∀ root < n, ∀ rank < n, location ∉ (recv root).block root rank) →
    s.sys.world.mem location = origin.world.mem location

/-- Rank 0 has its character in place, and rank 1 sends it from another place. -/
def charToGather (rank : Nat) : Option Buffer :=
  if rank = 0 then none else some { buf := .addr 8, count := 1, datatype := Datatype.mpiChar }

def charsAllgathered (rank : Nat) : AllgathervArgs where
  sendbuf := if rank = 0 then .inPlace else .addr 8
  sendcount := 1
  sendtype := some Datatype.mpiChar.iovec
  recvbuf := .addr 0
  recvcounts := some fun _ => 1
  displs := some fun other => if other = 0 then 1 else 0
  recvtype := some Datatype.mpiChar.iovec
  comm := .world

/-- Every byte of every rank has its own value. -/
def numbered (loc : Loc) : UInt8 :=
  match loc.region with
  | .heap rank => UInt8.ofNat (16 * rank + loc.addr.toNat)
  | _ => 0

theorem charsAllgathered_arguments : AllgathervArguments charsAllgathered charToGather (charsToReceive 0) 2 where
  passes := by
    intro rank valid
    exact
      { inPlace := fun none => by
          by_cases first : rank = 0
          · simp [charsAllgathered, first]
          · simp [charToGather, first] at none
        given := fun buffer sends => by
          by_cases first : rank = 0
          · simp [charToGather, first] at sends
          · simp only [charToGather, first, if_false, Option.some.injEq] at sends
            subst sends
            simp [charsAllgathered, first]
        recvbuf := rfl
        recvcounts := rfl
        displs := by
          refine congrArg some (funext fun other => ?_)
          simp only [charsToReceive]
          split <;> rfl
        recvtype := rfl
        comm := rfl }
  sendValid := by
    intro rank valid buffer sends
    by_cases first : rank = 0
    · simp [charToGather, first] at sends
    · simp only [charToGather, first, if_false, Option.some.injEq] at sends
      subst sends
      exact ⟨⟨(by decide : 1 < 2 ^ 31), (by decide : 1 * Datatype.mpiChar.len < 2 ^ 63), by simp⟩, by simp⟩
  recvGiven := fun _ _ => ⟨0, rfl⟩
  counts := fun _ _ _ _ _ _ => rfl
  displs := fun _ _ _ _ _ _ => rfl
  elements := fun _ _ => (by decide : 2 < 2 ^ 31)
  bytes := fun _ _ => (by decide : 2 * Datatype.mpiChar.len < 2 ^ 63)
  inside := by
    intro rank _ other _
    show (if other = 0 then 1 else 0) + 1 ≤ 2
    split <;> decide
  disjoint := by
    intro rank _ one oneValid other otherValid different
    simp only [BlockVector.Apart, charsToReceive]
    split <;> split <;> omega
  agree := by
    intro rank _ owner _
    by_cases first : rank = 0
    · subst first
      rfl
    · simp only [allgathervBytes, charToGather, first, if_false]
      rfl
  apart := by
    intro rank valid buffer sends other otherValid
    obtain rfl : rank = 1 := by
      by_contra first
      obtain rfl : rank = 0 := by omega
      cases sends
    obtain rfl := Option.some.inj sends
    have blocks : other = 0 ∨ other = 1 := by omega
    rcases blocks with rfl | rfl <;> exact List.disjoint_left.mpr (by decide)

/-- If all ranks pass the same counts and displacements, and every block ends within as many elements as are
    contributed, `MPI_Allgatherv` leaves every rank the contributions of all ranks, in every order of the steps. Which
    ranks pass `MPI_IN_PLACE` makes no difference. -/
theorem mpiAllgatherv_gathers {vm : ProcessVm} (copies : CopiesAll vm) {args : Nat → AllgathervArgs}
    {send : Nat → Option Buffer} {recv : Nat → BlockVector} {n t : Nat} {origin : Sys} (ready : origin.Ready n t)
    (unlocked : ∀ turn, (origin.world.slots turn).mutex = none)
    (idle : ∀ turn, (origin.world.slots turn).box = []) (several : 2 ≤ n) (limit : n ≤ 10000)
    (arguments : AllgathervArguments args send recv n) {s : Gathering n}
    (reached : Gathering.Reaches vm args (.start origin (by omega)) s) :
    AllgathervSound vm args send recv origin s := by
  obtain ⟨era, cookie, done, underway⟩ :=
    Gathering.underway_of_reaches ready unlocked idle arguments copies several limit reached
  exact
    { defined := by
        intro rank
        by_cases valid : rank < n
        · rcases underway.step_cases ready arguments copies several limit valid with ⟨s', stepped, _⟩ | held
          · exact Or.inl ⟨s', stepped⟩
          · exact Or.inr (Gathering.held_blocks valid held underway)
        · exact Or.inr (dif_neg fun free => valid free.1)
      clean := underway.ranks.clean
      successful := fun rank valid ret returned => (underway.ended valid returned).2
      gathered := fun self valid ret returned rank rankValid =>
        underway.holds arguments valid returned rankValid
      untouched := fun location outside => underway.data.untouched arguments
        (fun rank valid => (underway.phased.allowed rank valid).delivered_le underway.phased.range) outside }

/-- The two characters arrive on both ranks. -/
theorem chars_allgathered :
    ∃ s, (Gathering.start (n := 2) (Sys.init 2 numbered) (by decide)).run copyingVm charsAllgathered
        [1, 0, 0, 0, 1, 1, 1, 1, 1, 1, 1, 0, 0, 0, 0, 1, 1, 0, 0, 0] = .ok s ∧
      AllgathervSound copyingVm charsAllgathered charToGather (charsToReceive 0) (Sys.init 2 numbered) s ∧
      (∀ rank < 2, s.line rank = .returned mpiSuccess) ∧
      s.sys.world.mem { region := .heap 0, addr := 0 } = 24 ∧
      s.sys.world.mem { region := .heap 1, addr := 1 } = 1 := by
  have ran : ∃ s, (Gathering.start (n := 2) (Sys.init 2 numbered) (by decide)).run copyingVm charsAllgathered
      [1, 0, 0, 0, 1, 1, 1, 1, 1, 1, 1, 0, 0, 0, 0, 1, 1, 0, 0, 0] = .ok s ∧
      (∀ rank < 2, s.line rank = .returned mpiSuccess) ∧
      s.sys.world.mem { region := .heap 0, addr := 0 } = 24 ∧
      s.sys.world.mem { region := .heap 1, addr := 1 } = 1 :=
    ⟨_, rfl, by decide +kernel, by decide +kernel, by decide +kernel⟩
  obtain ⟨s, ran, lines, one, other⟩ := ran
  exact ⟨s, ran, mpiAllgatherv_gathers copyingVm_copies (ready_init 2 numbered) (fun _ => rfl) (fun _ => rfl) le_rfl
    (by decide) charsAllgathered_arguments (Gathering.reaches_of_run .refl ran), lines, one, other⟩

/-- With such arguments `MPI_Allgatherv` returns `MPI_SUCCESS` on all ranks, in every order of the steps: a run has at
    most `n * (5 * n + 1)` steps, somebody can take a step as long as not everybody has returned, and then the slots
    are as they were for the next operation. -/
theorem mpiAllgatherv_returns {vm : ProcessVm} (copies : CopiesAll vm) {args : Nat → AllgathervArgs}
    {send : Nat → Option Buffer} {recv : Nat → BlockVector} {n t : Nat} {origin : Sys} (ready : origin.Ready n t)
    (unlocked : ∀ turn, (origin.world.slots turn).mutex = none)
    (idle : ∀ turn, (origin.world.slots turn).box = []) (several : 2 ≤ n) (limit : n ≤ 10000)
    (arguments : AllgathervArguments args send recv n) :
    (∀ ranks s, (Gathering.start (n := n) origin (by omega)).run vm args ranks = .ok s →
      ranks.length ≤ n * (5 * n + 1)) ∧
    ∀ s : Gathering n, Gathering.Reaches vm args (.start origin (by omega)) s →
      (∃ rank < n, ∃ s', s.step vm args rank = .ok s') ∨
      (∀ rank < n, s.line rank = .returned mpiSuccess) ∧
        (∀ rank < n, s.sys.world.ticket rank = ticketAt t n) ∧
        ∀ turn, (s.sys.world.slots turn).mutex = none ∧ (s.sys.world.slots turn).box = [] := by
  refine ⟨fun ranks s ran => ?_, fun s reached => ?_⟩
  · have positive : 0 < n := by omega
    have underway : Gathering.Underway send recv t origin 0 id [] (.start origin positive) :=
      .start ready unlocked idle positive
    have steps := underway.run_length ready arguments copies several limit ran
    rw [Gathering.left_start] at steps
    omega
  · obtain ⟨era, cookie, done, underway⟩ :=
      Gathering.underway_of_reaches ready unlocked idle arguments copies several limit reached
    by_cases held : ∀ rank < n, s.Held rank
    · have everybody := underway.returned_of_held held
      obtain ⟨tickets, boxes⟩ := underway.idle_of_returned everybody (by omega)
      refine Or.inr ⟨fun rank valid => ?_, tickets, fun turn => ⟨underway.slots.unlocked turn, boxes turn⟩⟩
      obtain ⟨ret, returned⟩ := everybody rank valid
      rw [returned, (underway.ended valid returned).2]
    · push Not at held
      obtain ⟨rank, valid, free⟩ := held
      rcases underway.step_cases ready arguments copies several limit valid with ⟨s', stepped, _⟩ | impossible
      · exact Or.inl ⟨rank, valid, s', stepped⟩
      · exact absurd impossible free

/-- Two ranks return after at most 22 steps. -/
theorem chars_allgather_returns :
    (∀ ranks s, (Gathering.start (n := 2) (Sys.init 2 numbered) (by decide)).run copyingVm charsAllgathered ranks =
      .ok s → ranks.length ≤ 22) ∧
    ∀ s : Gathering 2, Gathering.Reaches copyingVm charsAllgathered (.start (Sys.init 2 numbered) (by decide)) s →
      (∃ rank < 2, ∃ s', s.step copyingVm charsAllgathered rank = .ok s') ∨
      (∀ rank < 2, s.line rank = .returned mpiSuccess) ∧
        (∀ rank < 2, s.sys.world.ticket rank = 2) ∧
        ∀ turn, (s.sys.world.slots turn).mutex = none ∧ (s.sys.world.slots turn).box = [] :=
  mpiAllgatherv_returns copyingVm_copies (ready_init 2 numbered) (fun _ => rfl) (fun _ => rfl) le_rfl (by decide)
    charsAllgathered_arguments

end Umpi
