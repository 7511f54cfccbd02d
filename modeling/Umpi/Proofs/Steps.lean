/-
Module: Umpi.Proofs.Steps
Layer: Proofs
Purpose: The steps of the system taken apart: what must hold for a call, an action or a wait to be
  possible, and the state it leads to. Returned values are only ever added, so a state reached without
  an error has been reached through states without an error.
Imports: Umpi.Model.System, Umpi.Proofs.Transfers
Trusted boundary: none
Main exports: Sys.step_call, Sys.step_act, Sys.step_wait, Sys.Clean.of_step, Sys.reaches_of_run,
  Sys.ready_init
Open obligations: none
-/
import Umpi.Model.System
import Umpi.Proofs.Transfers

namespace Umpi

namespace RankState

variable (rank : RankState) (frame : Frame) (moved : List Nat) (rest : List Action) (ret err : Int)
  (id : Nat)

@[simp] theorem new_pos : RankState.new.pos = 0 := rfl
@[simp] theorem new_cont : RankState.new.cont = [] := rfl
@[simp] theorem new_todo : RankState.new.todo = [] := rfl
@[simp] theorem new_requests : RankState.new.requests = [] := rfl

@[simp] theorem enter_pos : (rank.enter frame).pos = rank.pos + 1 := rfl
@[simp] theorem enter_cont : (rank.enter frame).cont = frame.cont := rfl
@[simp] theorem enter_todo : (rank.enter frame).todo = frame.todo := rfl
@[simp] theorem enter_requests :
    (rank.enter frame).requests = frame.request.toList ++ rank.requests := rfl

@[simp] theorem advance_pos : (rank.advance moved rest ret).pos = rank.pos := by
  unfold advance
  split
  · rfl
  · split <;> rfl

@[simp] theorem advance_requests : (rank.advance moved rest ret).requests = rank.requests := by
  unfold advance
  split
  · rfl
  · split <;> rfl

/-- After a success the rest remains. -/
theorem advance_cont_of_success : (rank.advance moved rest mpiSuccess).cont = rest := by
  unfold advance
  rw [if_neg (not_not.mpr rfl)]
  split
  case isTrue empty => exact empty.symm
  case isFalse => rfl

/-- After the last action nothing remains, whatever it has returned. -/
theorem advance_cont (goesOn : ret = mpiSuccess ∨ rest = []) : (rank.advance moved rest ret).cont = rest := by
  rcases goesOn with success | last
  · rw [success]
    exact rank.advance_cont_of_success moved rest
  · unfold advance
    rw [if_pos last]
    split <;> exact last.symm

@[simp] theorem leave_pos : (rank.leave id err).pos = rank.pos := rfl
@[simp] theorem leave_cont : (rank.leave id err).cont = rank.cont := rfl
@[simp] theorem leave_todo : (rank.leave id err).todo = rank.todo := rfl
@[simp] theorem leave_requests : (rank.leave id err).requests = rank.requests.erase id := rfl

/-- An error ends the call, otherwise the rest remains. -/
theorem mem_of_mem_advance_cont {action : Action} (member : action ∈ (rank.advance moved rest ret).cont) :
    action ∈ rest := by
  unfold advance at member
  split at member
  · cases member
  · split at member
    · cases member
    · exact member

theorem enter_rets_suffix : rank.rets <:+ (rank.enter frame).rets := by
  unfold enter
  simp only
  split
  · exact List.suffix_cons _ _
  · exact List.suffix_refl _

theorem advance_rets_suffix : rank.rets <:+ (rank.advance moved rest ret).rets := by
  unfold advance
  split
  · exact List.suffix_cons _ _
  · split
    · exact List.suffix_cons _ _
    · exact List.suffix_refl _

end RankState

/-- A transfer leaves the slots alone. -/
theorem Action.exec_slots {vm : ProcessVm} {w : World} {self : Nat} {action : Action} {done : Transferred}
    (performed : action.exec vm w self = .ok done) : done.world.slots = w.slots := by
  cases action with
  | moveToPending id =>
      obtain rfl := Outcome.ok.inj performed
      rfl
  | writeToOwner id buf iovec count seek skip =>
      obtain ⟨seek, _, rest⟩ := Outcome.bind_eq_ok.mp performed
      obtain ⟨skip, _, written⟩ := Outcome.bind_eq_ok.mp rest
      exact (writeToOwner_touches written).slots
  | readFromOwner id buf iovec size count seek skip =>
      obtain ⟨seek, _, rest⟩ := Outcome.bind_eq_ok.mp performed
      obtain ⟨skip, _, read⟩ := Outcome.bind_eq_ok.mp rest
      exact (readFromOwner_touches read).slots
  | readIgnored id buf iovec size count =>
      obtain ⟨moved, read, last⟩ := Outcome.bind_eq_ok.mp performed
      obtain rfl := Outcome.ok.inj last
      exact (readFromOwner_touches read).slots
  | reduce op invec inoutvec count iovec =>
      obtain rfl := Outcome.ok.inj performed
      rfl

namespace Sys

variable {vm : ProcessVm} {program : Program} {s s' : Sys} {self id : Nat}

/-- A rank can make its next call when it is in none, and the call gets through its critical section. -/
theorem step_call (stepped : s.step vm program (.call self) = .ok s') :
    ∃ call w frame, self < s.world.size ∧ (s.ranks self).cont = [] ∧
      program self (s.ranks self).pos = some call ∧ call.enter vm s.world self = .ok (w, frame) ∧
      s' =
        { world := w
          ranks := Function.update s.ranks self ((s.ranks self).enter frame)
          joins := s.record w self } := by
  simp only [step] at stepped
  split at stepped
  · cases stepped
  case isFalse free =>
    obtain ⟨valid, idle⟩ := not_or.mp free
    split at stepped
    · cases stepped
    case h_2 call listed =>
      obtain ⟨⟨w, frame⟩, entered, same⟩ := Outcome.bind_eq_ok.mp stepped
      exact ⟨call, w, frame, Nat.lt_of_not_le valid, not_not.mp idle, listed, entered,
        (Outcome.ok.inj same).symm⟩

/-- A rank that is in a call performs its next action. -/
theorem step_act (stepped : s.step vm program (.act self) = .ok s') :
    ∃ action rest done, (s.ranks self).cont = action :: rest ∧
      action.exec vm s.world self = .ok done ∧
      s' =
        { s with
          world := done.world
          ranks := Function.update s.ranks self
            ((s.ranks self).advance action.moved rest done.ret) } := by
  simp only [step] at stepped
  split at stepped
  · cases stepped
  case h_2 action rest todo =>
    obtain ⟨done, performed, same⟩ := Outcome.bind_eq_ok.mp stepped
    exact ⟨action, rest, done, todo, performed, (Outcome.ok.inj same).symm⟩

/-- A rank that is in no call returns from a wait when the cookie is ready. -/
theorem step_wait (stepped : s.step vm program (.wait self id) = .ok s') :
    (s.ranks self).cont = [] ∧ id ∈ (s.ranks self).requests ∧ (s.world.cookies id).Ready self ∧
      s' =
        { s with
          world := s.world.finalize id
          ranks := Function.update s.ranks self
            ((s.ranks self).leave id (s.world.cookies id).err) } := by
  simp only [step] at stepped
  split at stepped
  case isTrue possible =>
    exact ⟨possible.1, possible.2.1, possible.2.2, (Outcome.ok.inj stepped).symm⟩
  case isFalse => cases stepped

/-- Returned values are never forgotten. -/
theorem step_rets {label : Label} (stepped : s.step vm program label = .ok s') (rank : Nat) :
    (s.ranks rank).rets <:+ (s'.ranks rank).rets := by
  cases label with
  | call self =>
      obtain ⟨call, w, frame, _, _, _, _, rfl⟩ := step_call stepped
      by_cases own : rank = self
      · subst own
        simpa using RankState.enter_rets_suffix _ _
      · simp [own]
  | act self =>
      obtain ⟨action, rest, done, _, _, rfl⟩ := step_act stepped
      by_cases own : rank = self
      · subst own
        simpa using RankState.advance_rets_suffix _ _ _ _
      · simp [own]
  | wait self id =>
      obtain ⟨_, _, _, rfl⟩ := step_wait stepped
      by_cases own : rank = self
      · subst own
        simp [RankState.leave]
      · simp [own]

/-- Nothing had failed before. -/
theorem Clean.of_step {label : Label} (clean : s'.Clean) (stepped : s.step vm program label = .ok s') :
    s.Clean := fun rank ret returned => clean rank ret ((step_rets stepped rank).subset returned)

/-- Every prefix of a run is a run. -/
theorem Reaches.head {label : Label} {s'' : Sys} (stepped : s.step vm program label = .ok s')
    (reaches : Reaches vm program s' s'') : Reaches vm program s s'' := by
  induction reaches with
  | refl => exact .tail label .refl stepped
  | tail next _ step ih => exact .tail next ih step

/-- Every run is one without a condition on its steps. -/
theorem Reaches.unconditional (reaches : Reaches vm program s s') :
    ReachesBy vm program (fun _ _ => True) s s' := by
  induction reaches with
  | refl => exact .refl
  | tail label _ step ih => exact .tail label ih trivial step

/-- And every run with a condition on its steps is a run. -/
theorem ReachesBy.reaches {meets : Sys → Label → Prop} (reaches : ReachesBy vm program meets s s') :
    Reaches vm program s s' := by
  induction reaches with
  | refl => exact .refl
  | tail label _ _ step ih => exact .tail label ih step

theorem ReachesBy.head {meets : Sys → Label → Prop} {label : Label} {s'' : Sys}
    (condition : meets s label) (stepped : s.step vm program label = .ok s')
    (reaches : ReachesBy vm program meets s' s'') : ReachesBy vm program meets s s'' := by
  induction reaches with
  | refl => exact .tail label .refl condition stepped
  | tail next _ condition step ih => exact .tail next ih condition step

/-- Listed steps that meet the condition in every state are a run of such steps. -/
theorem reachesBy_of_run {meets : Sys → Label → Prop} {labels : List Label}
    (met : ∀ label ∈ labels, ∀ s, meets s label) (ran : s.run vm program labels = .ok s') :
    ReachesBy vm program meets s s' := by
  induction labels generalizing s with
  | nil =>
      obtain rfl := Outcome.ok.inj ran
      exact .refl
  | cons label labels ih =>
      obtain ⟨next, stepped, rest⟩ := Outcome.bind_eq_ok.mp ran
      exact (ih (fun other member => met other (List.mem_cons_of_mem label member)) rest).head
        (met label List.mem_cons_self s) stepped

/-- Perform the listed steps as long as they meet the condition. -/
def runBy (vm : ProcessVm) (program : Program) (meets : Sys → Label → Prop)
    [∀ s label, Decidable (meets s label)] (s : Sys) : List Label → Outcome Sys
  | [] => .ok s
  | label :: labels =>
      if meets s label then do
        let next ← s.step vm program label
        next.runBy vm program meets labels
      else .blocked

theorem reachesBy_of_runBy {meets : Sys → Label → Prop} [∀ s label, Decidable (meets s label)]
    {labels : List Label} (ran : s.runBy vm program meets labels = .ok s') :
    ReachesBy vm program meets s s' := by
  induction labels generalizing s with
  | nil =>
      obtain rfl := Outcome.ok.inj ran
      exact .refl
  | cons label labels ih =>
      rw [runBy] at ran
      split at ran
      case isTrue condition =>
        obtain ⟨next, stepped, rest⟩ := Outcome.bind_eq_ok.mp ran
        exact (ih rest).head condition stepped
      case isFalse => cases ran

/-- Listed steps that can be performed are a run. -/
theorem reaches_of_run {labels : List Label} (ran : s.run vm program labels = .ok s') :
    Reaches vm program s s' := by
  induction labels generalizing s with
  | nil =>
      obtain rfl := Outcome.ok.inj ran
      exact .refl
  | cons label labels ih =>
      obtain ⟨next, stepped, rest⟩ := Outcome.bind_eq_ok.mp ran
      exact (ih rest).head stepped

/-- What can be decided of a state in which everything is complete. -/
theorem Complete.of_checks {n : Nat} (size : s.world.size = n)
    (called : ∀ rank < n, (s.ranks rank).pos = 1)
    (returned : ∀ rank < n, (s.ranks rank).cont.isEmpty = true)
    (ready : ∀ rank < n, ∀ id ∈ (s.ranks rank).requests, (s.world.cookies id).Ready rank) : s.Complete where
  called := fun rank valid => called rank (size ▸ valid)
  returned := fun rank valid => List.isEmpty_iff.mp (returned rank (size ▸ valid))
  ready := fun rank valid => ready rank (size ▸ valid)

/-- The state after `MPI_Init` is one in which an operation can start. -/
theorem ready_init (n : Nat) (mem : Memory) : (init n mem).Ready n 0 where
  size := rfl
  ticket := fun _ _ => rfl
  mutex := rfl
  box := rfl
  idle := fun _ => rfl
  free := fun _ _ member => by simp [init, World.start, Process.new] at member
  apart := fun _ _ _ => by simp [init, World.start, Process.new]

end Sys

end Umpi
