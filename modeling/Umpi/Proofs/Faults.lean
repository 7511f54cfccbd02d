/-
Module: Umpi.Proofs.Faults
Layer: Proofs
Purpose: Runs in which system calls fail, compared with runs in which none does. A failed transfer makes its call
  return an error, or leaves one in a cookie that somebody waits for; only the system calls of `umpi_copy` can fail
  without a trace. `Outcome.Agrees` compares a step with the same step when nothing fails, and a run whose calls of
  `umpi_copy` all work and in which nobody sees an error is a run in which nothing fails at all.
Imports: Umpi.Model.Scratch, Umpi.Proofs.Completion, Umpi.Proofs.Deliveries, Umpi.Proofs.Unrooted
Trusted boundary: none
Main exports: CopyCall.Works, Call.copies, CopiesWork, Outcome.Agrees, Call.enter_agrees, Sys.Faultless,
  Sys.Spoiled, Delivers.reachesBy, RootedPlan.Sound.exchanged_of_success, UnrootedPlan.Sound.followed_of_success
Open obligations: none
-/
import Umpi.Model.Scratch
import Umpi.Proofs.Completion
import Umpi.Proofs.Deliveries
import Umpi.Proofs.Unrooted

namespace Umpi

open Sys

/-! ### The calls of `umpi_copy` -/

/-- If the call of `umpi_copy` gets as far as `process_vm_writev`, that does not fail. -/
def CopyCall.Works (vm : ProcessVm) (copy : CopyCall) : Prop :=
  copy.Accepted → ¬ (copy.readIovec.contiguous && copy.writeIovec.contiguous) →
    vm copy.source copy.target = copyingVm copy.source copy.target

instance (vm : ProcessVm) (copy : CopyCall) : Decidable (copy.Works vm) :=
  inferInstanceAs (Decidable (_ → _ → _))

/-- The call of `umpi_copy` that a step of a reduction is, if it is one. -/
def ScratchStep.copied : ScratchStep → Option CopyCall
  | copy args => some args
  | reduce _ _ _ _ _ => none

/-- A whole buffer is copied. -/
def CopyCall.whole (readBuf writeBuf : Loc) (count : Int) (iovec : Iovec) : CopyCall :=
  { readBuf := readBuf, readIovec := iovec, readCount := count, readSkip := 0
    writeBuf := writeBuf, writeIovec := iovec, writeCount := count, writeSeek := 0 }

/-- The calls of `umpi_copy` by a rank that has claimed its slot for an allreduce. -/
def allreduceCopies (w : World) (self turn : Nat) (sendbuf : Pointer) (recvbuf : Loc) (count : Int)
    (iovec : Iovec) (op : UmpiOp) : List CopyCall :=
  if sendbuf = .inPlace then (allreduceSteps w turn recvbuf count iovec op).filterMap ScratchStep.copied
  else if w.joinedFirst turn then [.whole (sendbuf.loc self) recvbuf count iovec]
  else []

/-- The calls of `umpi_copy` that a collective call by `self` makes, if its arguments are accepted. -/
def Call.copies (w : World) (self : Nat) : Call → List CopyCall
  | bcast _ _ _ _ _ => []
  | allgather sendbuf sendcount sendtype recvbuf recvcount recvtype _ =>
      match sendtype, recvtype with
      | some sendIovec, some recvIovec =>
          if (w.claimed self).joinedFirst (w.turnOf self) ∧ sendbuf ≠ .inPlace then
            [⟨sendbuf.loc self, sendIovec, sendcount, 0, recvbuf.loc self, recvIovec, recvcount, self * recvcount⟩]
          else []
      | _, _ => []
  | allreduce sendbuf recvbuf count datatype op _ =>
      match datatype, op with
      | some iovec, some op =>
          allreduceCopies (w.claimed self) self (w.turnOf self) sendbuf (recvbuf.loc self) count iovec op
      | _, _ => []
  | blockingAllreduce sendbuf recvbuf count datatype op _ =>
      match datatype, op with
      | some iovec, some op =>
          if w.size = 1 then
            if sendbuf ≠ .inPlace then [.whole (sendbuf.loc self) (recvbuf.loc self) count iovec] else []
          else allreduceCopies (w.claimed self) self (w.turnOf self) sendbuf (recvbuf.loc self) count iovec op
      | _, _ => []
  | exscan sendbuf recvbuf count datatype _ _ =>
      match datatype with
      | some iovec =>
          if self ≠ 0 ∧ sendbuf ≠ .inPlace then [.whole (sendbuf.loc self) (recvbuf.loc self) count iovec] else []
      | none => []
  | scan sendbuf recvbuf count datatype _ _ =>
      match datatype with
      | some iovec => if sendbuf ≠ .inPlace then [.whole (sendbuf.loc self) (recvbuf.loc self) count iovec] else []
      | none => []
  | gather sendbuf sendcount sendtype recvbuf recvcount recvtype root _ =>
      match sendtype, recvtype with
      | some sendIovec, some recvIovec =>
          if (self : Int) = root ∧ sendbuf ≠ .inPlace then
            [⟨sendbuf.loc self, sendIovec, sendcount, 0, recvbuf.loc self, recvIovec, recvcount, self * recvcount⟩]
          else []
      | _, _ => []
  | gatherv sendbuf sendcount sendtype recvbuf recvcounts displs recvtype root _ =>
      match sendtype, recvcounts, displs, recvtype with
      | some sendIovec, some recvcounts, some displs, some recvIovec =>
          if (self : Int) = root ∧ sendbuf ≠ .inPlace then
            [⟨sendbuf.loc self, sendIovec, sendcount, 0, recvbuf.loc self, recvIovec, recvcounts self,
              displs self⟩]
          else []
      | _, _, _, _ => []
  | scatter sendbuf sendcount sendtype recvbuf recvcount recvtype root _ =>
      match sendtype, recvtype with
      | some sendIovec, some recvIovec =>
          if (self : Int) = root ∧ recvbuf ≠ .inPlace then
            [⟨sendbuf.loc self, sendIovec, sendcount, self * sendcount, recvbuf.loc self, recvIovec, recvcount, 0⟩]
          else []
      | _, _ => []

/-- No system call of an `umpi_copy` fails in the step. -/
def CopiesWork (program : Program) (vm : ProcessVm) (s : Sys) (label : Label) : Prop :=
  ∀ self call, label = .call self → program self (s.ranks self).pos = some call →
    ∀ copy ∈ call.copies s.world self, copy.Works vm

/-- An `umpi_copy` that works does what it does when nothing fails. -/
theorem CopyCall.Works.copy_eq {vm : ProcessVm} {copy : CopyCall} (works : copy.Works vm) (w : World) :
    w.copy vm copy.readBuf copy.readIovec copy.readCount copy.readSkip copy.writeBuf copy.writeIovec
        copy.writeCount copy.writeSeek =
      w.copy copyingVm copy.readBuf copy.readIovec copy.readCount copy.readSkip copy.writeBuf copy.writeIovec
        copy.writeCount copy.writeSeek := by
  unfold World.copy umpiCopy
  dsimp only
  split
  · rfl
  case isFalse enough =>
    split
    · rfl
    case isFalse scattered =>
      have same := works enough scattered
      simp only [CopyCall.source, CopyCall.target, CopyCall.total] at same
      rw [same]

theorem CopyCall.Works.whole_eq {vm : ProcessVm} {readBuf writeBuf : Loc} {count : Int} {iovec : Iovec}
    (works : (CopyCall.whole readBuf writeBuf count iovec).Works vm) (w : World) :
    w.copy vm readBuf iovec count 0 writeBuf iovec count 0 =
      w.copy copyingVm readBuf iovec count 0 writeBuf iovec count 0 := works.copy_eq w

/-! ### The same operation with other system calls -/

namespace Outcome

variable {α β : Type}

/-- The outcomes of the same operation with different system calls: they are the same, or one of them is that
    something has failed. -/
def Agrees (failed : α → Prop) (x y : Outcome α) : Prop :=
  x = y ∨ (∃ value, x = ok value ∧ failed value) ∨ ∃ value, y = ok value ∧ failed value

theorem Agrees.rfl {failed : α → Prop} {x : Outcome α} : Agrees failed x x := Or.inl (Eq.refl x)

/-- Operations may begin in the same way. -/
theorem agrees_bind {failed : β → Prop} {first : Outcome α} {next next' : α → Outcome β}
    (agrees : ∀ value, first = ok value → Agrees failed (next value) (next' value)) :
    Agrees failed (first >>= next) (first >>= next') := by
  cases first with
  | ok value => exact agrees value (Eq.refl _)
  | blocked => exact Agrees.rfl
  | exited => exact Agrees.rfl
  | undefined fault => exact Agrees.rfl

/-- An operation may go on after a part that agrees, if it fails when that part fails. -/
theorem Agrees.bind {failed : α → Prop} {failed' : β → Prop} {first first' : Outcome α} {next : α → Outcome β}
    (agrees : Agrees failed first first')
    (stops : ∀ value, failed value → ∃ result, next value = ok result ∧ failed' result) :
    Agrees failed' (first >>= next) (first' >>= next) := by
  rcases agrees with same | ⟨value, returned, error⟩ | ⟨value, returned, error⟩
  · rw [same]
    exact Agrees.rfl
  · obtain ⟨result, last, fails⟩ := stops value error
    exact Or.inr (Or.inl ⟨result, by rw [returned, ok_bind, last], fails⟩)
  · obtain ⟨result, last, fails⟩ := stops value error
    exact Or.inr (Or.inr ⟨result, by rw [returned, ok_bind, last], fails⟩)

end Outcome

open Outcome

section Agreement

variable {vm : ProcessVm} {w : World}

/-- A transfer has failed. -/
def Transferred.Failed (done : Transferred) : Prop := done.ret ≠ mpiSuccess

/-- The system calls of two transfers of the same bytes return the same, or one of them has failed. -/
theorem agrees_finish (mid : Int → World) {id : Nat} (totalBytes moved moved' : Int) :
    Agrees Transferred.Failed
      (.ok ((mid moved).finishTransfer id (if totalBytes ≠ moved then mpiFail else mpiSuccess) moved))
      (.ok ((mid moved').finishTransfer id (if totalBytes ≠ moved' then mpiFail else mpiSuccess) moved')) := by
  by_cases whole : totalBytes = moved
  · by_cases whole' : totalBytes = moved'
    · rw [← whole, ← whole']
      exact Agrees.rfl
    · exact Or.inr (Or.inr ⟨_, rfl, by simp [Transferred.Failed, World.finishTransfer, whole', mpiFail, mpiSuccess]⟩)
  · exact Or.inr (Or.inl ⟨_, rfl, by simp [Transferred.Failed, World.finishTransfer, whole, mpiFail, mpiSuccess]⟩)

theorem writeToOwner_agrees {id : Nat} {buf : Loc} {iovec : Iovec} {count seek skip : Int} :
    Agrees Transferred.Failed (w.writeToOwner vm id buf iovec count seek skip)
      (w.writeToOwner copyingVm id buf iovec count seek skip) := by
  unfold World.writeToOwner
  dsimp only
  split
  · exact Agrees.rfl
  · split
    · exact Agrees.rfl
    · exact agrees_finish (fun moved => { w.setCookie id _ with mem := moveBytes _ _ _ moved }) _ _ _

theorem readFromOwner_agrees {id : Nat} {buf : Loc} {iovec : Iovec} {size count seek skip : Int} :
    Agrees Transferred.Failed (w.readFromOwner vm id buf iovec size count seek skip)
      (w.readFromOwner copyingVm id buf iovec size count seek skip) := by
  unfold World.readFromOwner
  dsimp only
  split
  · exact Agrees.rfl
  · generalize (if count ≠ 0 then count
      else int32 (sizeT (((w.cookies id).size - skip) * (w.cookies id).iovec.len) / iovec.len : Nat)) = asked
    split
    · exact Agrees.rfl
    · exact agrees_finish (fun moved => { w with mem := moveBytes _ _ _ moved }) _ _ _

/-- An action whose result the call looks at. -/
theorem Action.exec_agrees {self : Nat} {action : Action} (checked : action.Checked) :
    Agrees Transferred.Failed (action.exec vm w self) (action.exec copyingVm w self) := by
  cases action with
  | moveToPending id => exact Agrees.rfl
  | writeToOwner id buf iovec count seek skip =>
      exact agrees_bind fun _ _ => agrees_bind fun _ _ => writeToOwner_agrees
  | readFromOwner id buf iovec size count seek skip =>
      exact agrees_bind fun _ _ => agrees_bind fun _ _ => readFromOwner_agrees
  | readIgnored id buf iovec size count => exact checked.elim
  | reduce op invec inoutvec count iovec => exact Agrees.rfl

/-! ### Calls -/

/-- A call has returned an error. -/
def Frame.Fails (frame : Frame) : Prop := frame.cont = [] ∧ frame.ret ≠ mpiSuccess

/-- The critical section of a call has ended with an error. -/
def CallFails (result : World × Frame) : Prop := result.2.Fails

theorem callFails_failed {ret : Int} (error : ret ≠ mpiSuccess) (w : World) : CallFails (w, Frame.failed ret) :=
  ⟨rfl, error⟩

variable {self turn : Nat}

section Allgather

variable {sendbuf : Pointer} {sendcount recvcount : Int} {sendtype : MpiDatatype} {recvbuf : Loc} {recvtype : Iovec}

theorem allgatherContribute_agrees {root : Nat} :
    Agrees Transferred.Failed
      (allgatherContribute vm w self root sendbuf sendcount sendtype recvbuf recvcount recvtype)
      (allgatherContribute copyingVm w self root sendbuf sendcount sendtype recvbuf recvcount recvtype) := by
  unfold allgatherContribute
  refine agrees_bind fun _ _ => ?_
  split
  · exact agrees_bind fun _ _ => writeToOwner_agrees
  · exact agrees_bind fun _ _ => writeToOwner_agrees

theorem allgatherFirst_agrees
    (works : sendbuf ≠ .inPlace → ∀ sendIovec, sendtype = some sendIovec →
      CopyCall.Works vm ⟨sendbuf.loc self, sendIovec, sendcount, 0, recvbuf, recvtype, recvcount, self * recvcount⟩) :
    allgatherFirst vm w self sendbuf sendcount sendtype recvbuf recvcount recvtype =
      allgatherFirst copyingVm w self sendbuf sendcount sendtype recvbuf recvcount recvtype := by
  unfold allgatherFirst
  split
  · rfl
  case isFalse outOfPlace =>
    cases sendtype with
    | none => rfl
    | some sendIovec =>
        simp only [deref, Outcome.ok_bind]
        by_cases range : IsInt (self * recvcount)
        · rw [mulInt_eq_ok.mpr ⟨range, rfl⟩, Outcome.ok_bind, Outcome.ok_bind,
            (works outOfPlace sendIovec rfl).copy_eq]
        · rw [mulInt, if_neg range]
          rfl

theorem allgatherRequest_agrees
    (works : w.joinedFirst turn → sendbuf ≠ .inPlace → ∀ sendIovec, sendtype = some sendIovec →
      CopyCall.Works vm ⟨sendbuf.loc self, sendIovec, sendcount, 0, recvbuf, recvtype, recvcount, self * recvcount⟩) :
    Agrees CallFails (allgatherRequest vm w self turn sendbuf sendcount sendtype recvbuf recvcount recvtype)
      (allgatherRequest copyingVm w self turn sendbuf sendcount sendtype recvbuf recvcount recvtype) := by
  unfold allgatherRequest
  split
  case isTrue first =>
    rw [allgatherFirst_agrees (works first)]
    exact Agrees.rfl
  case isFalse =>
    split
    · exact Agrees.rfl
    · exact allgatherContribute_agrees.bind fun contribution error =>
        ⟨_, if_pos error, callFails_failed error contribution.world⟩

end Allgather

section Allreduce

variable {sendbuf : Pointer} {recvbuf : Loc} {count : Int} {iovec : Iovec} {op : UmpiOp}

theorem allreduceAccumulate_agrees
    (works : ∀ copy ∈ allreduceCopies w self turn sendbuf recvbuf count iovec op, copy.Works vm) :
    Agrees (fun result => result.2 ≠ mpiSuccess)
      (allreduceAccumulate vm w self turn sendbuf recvbuf count iovec op)
      (allreduceAccumulate copyingVm w self turn sendbuf recvbuf count iovec op) := by
  unfold allreduceCopies at works
  unfold allreduceAccumulate
  dsimp only
  by_cases inPlace : sendbuf = .inPlace
  · simp only [if_pos inPlace] at works ⊢
    by_cases first : w.joinedFirst turn
    · simp only [if_pos first]
      have leaves : (CopyCall.whole recvbuf (Umpi.sendbuf turn) count iovec).Works vm :=
        works _ (by simp [allreduceSteps, first, ScratchStep.copied, CopyCall.whole])
      rw [leaves.whole_eq]
      exact Agrees.rfl
    · simp only [if_neg first]
      cases left : (w.slots turn).iovec with
      | none => exact Agrees.rfl
      | some layout =>
          have fetches : CopyCall.Works vm ⟨Umpi.sendbuf turn, layout, (w.slots turn).count, 0,
              Umpi.recvbuf turn, iovec, count, 0⟩ := by
            refine works _ ?_
            by_cases last : w.joinedLast turn <;> simp [allreduceSteps, first, left, last, ScratchStep.copied]
          simp only [deref, Outcome.ok_bind]
          rw [fetches.copy_eq]
          by_cases last : w.joinedLast turn
          · simp only [if_neg (not_not.mpr last)]
            exact Agrees.rfl
          · simp only [if_pos last]
            have leaves : (CopyCall.whole (Umpi.recvbuf turn) (Umpi.sendbuf turn) count iovec).Works vm :=
              works _ (by simp [allreduceSteps, first, left, last, ScratchStep.copied, CopyCall.whole])
            rw [leaves.whole_eq]
            exact Agrees.rfl
  · simp only [if_neg inPlace] at works ⊢
    by_cases first : w.joinedFirst turn
    · simp only [if_pos first] at works ⊢
      rw [(works _ (List.mem_singleton_self _)).whole_eq]
      exact Agrees.rfl
    · simp only [if_neg first]
      split
      · exact Agrees.rfl
      · exact readFromOwner_agrees.bind fun done error => ⟨(done.world, done.ret), if_pos error, error⟩

theorem allreduceRequest_agrees
    (works : ∀ copy ∈ allreduceCopies w self turn sendbuf recvbuf count iovec op, copy.Works vm) :
    Agrees CallFails (allreduceRequest vm w self turn sendbuf recvbuf count iovec op)
      (allreduceRequest copyingVm w self turn sendbuf recvbuf count iovec op) := by
  refine (allreduceAccumulate_agrees works).bind fun result error => ?_
  obtain ⟨mid, ret⟩ := result
  exact ⟨_, if_pos error, callFails_failed error mid⟩

end Allreduce

/-- What is done before the slot is claimed does not depend on system calls. -/
theorem agrees_claimed {next next' : Nat × World → Outcome (World × Frame)}
    (agrees : Agrees CallFails (next (w.turnOf self, w.claimed self)) (next' (w.turnOf self, w.claimed self))) :
    Agrees CallFails (w.getCurrentSlot self >>= next) (w.getCurrentSlot self >>= next') := by
  refine agrees_bind fun entry entered => ?_
  obtain ⟨turn, claimed⟩ := entry
  obtain ⟨rfl, rfl, _⟩ := getCurrentSlot_eq_ok entered
  exact agrees

section EntryPoints

variable {sendbuf recvbuf : Pointer} {sendcount recvcount count root : Int} {sendtype recvtype datatype : MpiDatatype}
  {op : Option UmpiOp} {comm : MpiComm}

theorem allgather_agrees
    (works : ∀ copy ∈ (Call.allgather sendbuf sendcount sendtype recvbuf recvcount recvtype comm).copies w self,
      copy.Works vm) :
    Agrees CallFails (mpiIallgather vm w self sendbuf sendcount sendtype recvbuf recvcount recvtype comm)
      (mpiIallgather copyingVm w self sendbuf sendcount sendtype recvbuf recvcount recvtype comm) := by
  unfold mpiIallgather
  split
  · exact Agrees.rfl
  · refine agrees_bind fun recvIovec typed => agrees_bind fun _ _ => ?_
    split
    · exact Agrees.rfl
    · refine agrees_claimed (allgatherRequest_agrees fun first outOfPlace sendIovec sendTyped => ?_)
      cases recvtype with
      | none => cases typed
      | some iovec =>
          obtain rfl := Outcome.ok.inj typed
          apply works
          simp [Call.copies, sendTyped, first, outOfPlace]

theorem allreduce_agrees
    (works : ∀ copy ∈ (Call.allreduce sendbuf recvbuf count datatype op comm).copies w self, copy.Works vm) :
    Agrees CallFails (mpiIallreduce vm w self sendbuf recvbuf count datatype op comm)
      (mpiIallreduce copyingVm w self sendbuf recvbuf count datatype op comm) := by
  unfold mpiIallreduce
  split
  case h_1 iovec op =>
    split
    · exact Agrees.rfl
    · split
      · exact Agrees.rfl
      · exact agrees_claimed (allreduceRequest_agrees works)
  case h_2 => exact Agrees.rfl

theorem blockingAllreduce_agrees
    (works : ∀ copy ∈ (Call.blockingAllreduce sendbuf recvbuf count datatype op comm).copies w self, copy.Works vm) :
    Agrees CallFails (mpiAllreduce vm w self sendbuf recvbuf count datatype op comm)
      (mpiAllreduce copyingVm w self sendbuf recvbuf count datatype op comm) := by
  unfold mpiAllreduce
  split
  case h_1 iovec op =>
    split
    · exact Agrees.rfl
    · by_cases alone : w.size = 1
      · simp only [if_pos alone]
        by_cases outOfPlace : sendbuf ≠ .inPlace
        · simp only [if_pos outOfPlace]
          have listed : CopyCall.whole (sendbuf.loc self) (recvbuf.loc self) count iovec ∈
              (Call.blockingAllreduce sendbuf recvbuf count (some iovec) (some op) comm).copies w self := by
            simp [Call.copies, alone, outOfPlace]
          rw [(works _ listed).whole_eq]
          exact Agrees.rfl
        · simp only [if_neg outOfPlace]
          exact Agrees.rfl
      · simp only [if_neg alone]
        apply allreduce_agrees
        simpa only [Call.copies, if_neg alone] using works
  case h_2 => exact Agrees.rfl

theorem exscan_agrees
    (works : ∀ copy ∈ (Call.exscan sendbuf recvbuf count datatype op comm).copies w self, copy.Works vm) :
    Agrees CallFails (mpiIexscan vm w self sendbuf recvbuf count datatype op comm)
      (mpiIexscan copyingVm w self sendbuf recvbuf count datatype op comm) := by
  unfold mpiIexscan
  split
  case h_1 iovec op =>
    split
    · exact Agrees.rfl
    · split
      · exact Agrees.rfl
      · refine agrees_claimed ?_
        unfold exscanRequest
        by_cases moves : self ≠ 0 ∧ sendbuf ≠ .inPlace
        · have listed : CopyCall.whole (sendbuf.loc self) (recvbuf.loc self) count iovec ∈
              (Call.exscan sendbuf recvbuf count (some iovec) (some op) comm).copies w self := by
            simp [Call.copies, moves]
          simp only [if_pos moves, (works _ listed).whole_eq (w.claimed self)]
          exact Agrees.rfl
        · simp only [if_neg moves]
          exact Agrees.rfl
  case h_2 => exact Agrees.rfl

theorem scan_agrees
    (works : ∀ copy ∈ (Call.scan sendbuf recvbuf count datatype op comm).copies w self, copy.Works vm) :
    Agrees CallFails (mpiIscan vm w self sendbuf recvbuf count datatype op comm)
      (mpiIscan copyingVm w self sendbuf recvbuf count datatype op comm) := by
  unfold mpiIscan
  split
  case h_1 iovec op =>
    split
    · exact Agrees.rfl
    · split
      · exact Agrees.rfl
      · refine agrees_claimed ?_
        unfold scanRequest
        by_cases moves : sendbuf ≠ .inPlace
        · have listed : CopyCall.whole (sendbuf.loc self) (recvbuf.loc self) count iovec ∈
              (Call.scan sendbuf recvbuf count (some iovec) (some op) comm).copies w self := by
            simp [Call.copies, moves]
          simp only [if_pos moves, (works _ listed).whole_eq (w.claimed self)]
          exact Agrees.rfl
        · simp only [if_neg moves]
          exact Agrees.rfl
  case h_2 => exact Agrees.rfl

theorem gather_agrees
    (works : ∀ copy ∈ (Call.gather sendbuf sendcount sendtype recvbuf recvcount recvtype root comm).copies w self,
      copy.Works vm) :
    Agrees CallFails (mpiIgather vm w self sendbuf sendcount sendtype recvbuf recvcount recvtype root comm)
      (mpiIgather copyingVm w self sendbuf sendcount sendtype recvbuf recvcount recvtype root comm) := by
  unfold mpiIgather
  split
  · exact Agrees.rfl
  · refine agrees_claimed ?_
    by_cases isRoot : (self : Int) = root
    · simp only [if_pos isRoot]
      split
      · exact Agrees.rfl
      case h_2 recvIovec =>
        refine agrees_bind fun _ _ => ?_
        split
        · exact Agrees.rfl
        · split
          · exact Agrees.rfl
          case isFalse outOfPlace =>
            cases sendtype with
            | none => exact Agrees.rfl
            | some sendIovec =>
                have listed : CopyCall.mk (sendbuf.loc self) sendIovec sendcount 0 (recvbuf.loc self) recvIovec
                    recvcount (self * recvcount) ∈ (Call.gather sendbuf sendcount (some sendIovec) recvbuf
                      recvcount (some recvIovec) root comm).copies w self := by
                  simp [Call.copies, isRoot, outOfPlace]
                refine agrees_bind fun _ typed => agrees_bind fun _ computed => ?_
                obtain rfl := Outcome.ok.inj typed
                obtain ⟨_, rfl⟩ := mulInt_eq_ok.mp computed
                rw [(works _ listed).copy_eq]
                exact Agrees.rfl
    · simp only [if_neg isRoot]
      exact Agrees.rfl

theorem gatherv_agrees {recvcounts displs : Option (Nat → Int)}
    (works : ∀ copy ∈
      (Call.gatherv sendbuf sendcount sendtype recvbuf recvcounts displs recvtype root comm).copies w self,
      copy.Works vm) :
    Agrees CallFails (mpiIgatherv vm w self sendbuf sendcount sendtype recvbuf recvcounts displs recvtype root comm)
      (mpiIgatherv copyingVm w self sendbuf sendcount sendtype recvbuf recvcounts displs recvtype root comm) := by
  unfold mpiIgatherv
  split
  · exact Agrees.rfl
  · refine agrees_claimed ?_
    by_cases isRoot : (self : Int) = root
    · simp only [if_pos isRoot]
      split
      case h_1 recvcounts displs recvIovec =>
        refine agrees_bind fun _ _ => ?_
        split
        · exact Agrees.rfl
        · split
          · exact Agrees.rfl
          case isFalse outOfPlace =>
            cases sendtype with
            | none => exact Agrees.rfl
            | some sendIovec =>
                have listed : CopyCall.mk (sendbuf.loc self) sendIovec sendcount 0 (recvbuf.loc self) recvIovec
                    (recvcounts self) (displs self) ∈ (Call.gatherv sendbuf sendcount (some sendIovec) recvbuf
                      (some recvcounts) (some displs) (some recvIovec) root comm).copies w self := by
                  simp [Call.copies, isRoot, outOfPlace]
                refine agrees_bind fun _ typed => ?_
                obtain rfl := Outcome.ok.inj typed
                rw [(works _ listed).copy_eq]
                exact Agrees.rfl
      · exact Agrees.rfl
    · simp only [if_neg isRoot]
      exact Agrees.rfl

theorem scatter_agrees
    (works : ∀ copy ∈ (Call.scatter sendbuf sendcount sendtype recvbuf recvcount recvtype root comm).copies w self,
      copy.Works vm) :
    Agrees CallFails (mpiIscatter vm w self sendbuf sendcount sendtype recvbuf recvcount recvtype root comm)
      (mpiIscatter copyingVm w self sendbuf sendcount sendtype recvbuf recvcount recvtype root comm) := by
  unfold mpiIscatter
  split
  · exact Agrees.rfl
  · refine agrees_claimed ?_
    by_cases isRoot : (self : Int) = root
    · simp only [if_pos isRoot]
      split
      · exact Agrees.rfl
      case h_2 sendIovec =>
        refine agrees_bind fun _ _ => ?_
        split
        · exact Agrees.rfl
        · split
          · exact Agrees.rfl
          case isFalse outOfPlace =>
            cases recvtype with
            | none => exact Agrees.rfl
            | some recvIovec =>
                have listed : CopyCall.mk (sendbuf.loc self) sendIovec sendcount (self * sendcount)
                    (recvbuf.loc self) recvIovec recvcount 0 ∈ (Call.scatter sendbuf sendcount (some sendIovec)
                      recvbuf recvcount (some recvIovec) root comm).copies w self := by
                  simp [Call.copies, isRoot, outOfPlace]
                refine agrees_bind fun _ typed => agrees_bind fun _ computed => ?_
                obtain rfl := Outcome.ok.inj typed
                obtain ⟨_, rfl⟩ := mulInt_eq_ok.mp computed
                rw [(works _ listed).copy_eq]
                exact Agrees.rfl
    · simp only [if_neg isRoot]
      exact Agrees.rfl

end EntryPoints

/-- The critical section of a call whose copies work ends as it does when nothing fails, or an error is returned. -/
theorem Call.enter_agrees {call : Call} (works : ∀ copy ∈ call.copies w self, copy.Works vm) :
    Agrees CallFails (call.enter vm w self) (call.enter copyingVm w self) := by
  cases call with
  | bcast buf count datatype root comm => exact Agrees.rfl
  | allgather sendbuf sendcount sendtype recvbuf recvcount recvtype comm => exact allgather_agrees works
  | allreduce sendbuf recvbuf count datatype op comm => exact allreduce_agrees works
  | blockingAllreduce sendbuf recvbuf count datatype op comm => exact blockingAllreduce_agrees works
  | exscan sendbuf recvbuf count datatype op comm => exact exscan_agrees works
  | scan sendbuf recvbuf count datatype op comm => exact scan_agrees works
  | gather sendbuf sendcount sendtype recvbuf recvcount recvtype root comm => exact gather_agrees works
  | gatherv sendbuf sendcount sendtype recvbuf recvcounts displs recvtype root comm => exact gatherv_agrees works
  | scatter sendbuf sendcount sendtype recvbuf recvcount recvtype root comm => exact scatter_agrees works

end Agreement

/-! ### Errors that stay -/

/-- Everybody has called, and a rank still has to wait for a cookie that carries an error. -/
def Sys.Tainted (s : Sys) : Prop :=
  (∀ rank < s.world.size, (s.ranks rank).pos = 1) ∧
    ∃ rank < s.world.size, ∃ id ∈ (s.ranks rank).requests, (s.world.cookies id).err ≠ 0

/-- Somebody has seen an error, or will. -/
def Sys.Spoiled (s : Sys) : Prop := ¬ s.Clean ∨ s.Tainted

section Spoiling

variable {calls : Nat → Call} {vm : ProcessVm} {s s' : Sys} {label : Label}

/-- An action neither changes who is there nor takes an error back. -/
theorem Action.exec_keeps {w : World} {self : Nat} {action : Action} {done : Transferred}
    (performed : action.exec vm w self = .ok done) :
    done.world.size = w.size ∧ ∀ id, (w.cookies id).err ≠ 0 → (done.world.cookies id).err ≠ 0 := by
  rcases Action.exec_cases performed with ⟨id, _, moved, _⟩ | ⟨_, midway⟩
  · rw [moved]
    exact ⟨rfl, fun _ error => error⟩
  · exact ⟨midway.size, midway.err⟩

/-- The error of a cookie stays until its wait returns it. -/
theorem Sys.Tainted.step (tainted : s.Tainted) (stepped : s.step vm (once calls) label = .ok s') : s'.Spoiled := by
  obtain ⟨called, rank, valid, id, listed, error⟩ := tainted
  cases label with
  | call self =>
      -- everybody has made the one call
      obtain ⟨call, w, frame, inRange, _, next, _⟩ := step_call stepped
      rw [once, called self inRange] at next
      cases next
  | act self =>
      obtain ⟨action, rest, done, _, performed, rfl⟩ := step_act stepped
      obtain ⟨size, errors⟩ := Action.exec_keeps performed
      refine Or.inr ⟨fun other inRange => ?_, rank, size ▸ valid, id, ?_, errors id error⟩
      · have before := called other (size ▸ inRange)
        by_cases own : other = self
        · subst own
          simpa using before
        · simpa [own] using before
      · by_cases own : rank = self
        · subst own
          simpa using listed
        · simpa [own] using listed
  | wait self other =>
      obtain ⟨_, _, _, rfl⟩ := step_wait stepped
      by_cases seen : rank = self ∧ id = other
      · obtain ⟨rfl, rfl⟩ := seen
        refine Or.inl fun clean => error ?_
        exact clean rank _ (by simp [RankState.leave])
      · refine Or.inr ⟨fun third inRange => ?_, rank, valid, id, ?_, ?_⟩
        · have before := called third inRange
          by_cases own : third = self
          · subst own
            simpa using before
          · simpa [own] using before
        · by_cases own : rank = self
          · subst own
            have different : id ≠ other := fun same => seen ⟨rfl, same⟩
            simpa using (List.mem_erase_of_ne different).mpr listed
          · simpa [own] using listed
        · by_cases same : id = other
          · subst same
            simpa using error
          · simpa [same] using error

theorem Sys.Spoiled.step (spoiled : s.Spoiled) (stepped : s.step vm (once calls) label = .ok s') : s'.Spoiled := by
  rcases spoiled with seen | tainted
  · exact Or.inl fun clean => seen (clean.of_step stepped)
  · exact tainted.step stepped

/-- When everybody has returned from everything an error has been seen. -/
theorem Sys.Spoiled.not_clean (spoiled : s.Spoiled) (finished : s.Finished) : ¬ s.Clean := by
  rcases spoiled with seen | ⟨_, rank, valid, id, listed, _⟩
  · exact seen
  · rw [(finished rank valid).2.2] at listed
    cases listed

end Spoiling

/-! ### Runs in which nobody sees an error -/

/-- A result that is ignored is that of a read through a cookie for which the rank itself still has to wait, when
    everybody has called, and that does not fail unless its system call does. -/
def Sys.IgnoresSafely (s : Sys) : Prop :=
  ∀ self id buf iovec size count rest, (s.ranks self).cont = .readIgnored id buf iovec size count :: rest →
    self < s.world.size ∧ (∀ rank < s.world.size, (s.ranks rank).pos = 1) ∧ id ∈ (s.ranks self).requests ∧
      ∃ done, s.world.readFromOwner copyingVm id buf iovec size count 0 0 = .ok done ∧ done.ret = mpiSuccess

/-- What is known of a state in which nothing has failed: if nothing fails in the next step either, that step
    returns no error. -/
structure Sys.Faultless (program : Program) (s : Sys) : Prop where
  call : ∀ self call w frame, self < s.world.size → program self (s.ranks self).pos = some call →
    call.enter copyingVm s.world self = .ok (w, frame) → frame.ret = mpiSuccess
  act : ∀ self action rest done, (s.ranks self).cont = action :: rest →
    action.exec copyingVm s.world self = .ok done → done.ret = mpiSuccess
  ignored : s.IgnoresSafely

section Simulation

variable {calls : Nat → Call} {vm : ProcessVm} {origin s s' : Sys} {label : Label}

/-- A call whose copies work does what it does when nothing fails, or returns an error. -/
theorem Sys.Faultless.call_step {self : Nat} (faultless : s.Faultless (once calls))
    (works : CopiesWork (once calls) vm s (.call self)) (stepped : s.step vm (once calls) (.call self) = .ok s') :
    s.step copyingVm (once calls) (.call self) = .ok s' ∨ s'.Spoiled := by
  obtain ⟨call, w, frame, valid, idle, listed, entered, rfl⟩ := step_call stepped
  rcases call.enter_agrees (works self call rfl listed) with same | ⟨result, returned, error⟩ | failed
  · left
    have free : ¬ (s.world.size ≤ self ∨ (s.ranks self).cont ≠ []) := by simp [idle, valid]
    rw [entered] at same
    simp only [step, if_neg free, listed, ← same, Outcome.ok_bind, Outcome.pure_eq]
  · obtain rfl := Outcome.ok.inj (entered.symm.trans returned)
    obtain ⟨nothing, error⟩ := error
    refine Or.inr (Or.inl fun clean => error ?_)
    exact clean self frame.ret (by simp [RankState.enter, show frame.cont = [] from nothing])
  · obtain ⟨⟨w', frame'⟩, returned, _, error⟩ := failed
    exact absurd (faultless.call self call w' frame' valid listed returned) error

/-- An action does what it does when nothing fails, or returns an error or leaves one. -/
theorem Sys.Faultless.act_step {self : Nat} (faultless : s.Faultless (once calls))
    (stepped : s.step vm (once calls) (.act self) = .ok s') :
    s.step copyingVm (once calls) (.act self) = .ok s' ∨ s'.Spoiled := by
  obtain ⟨action, rest, done, todo, performed, rfl⟩ := step_act stepped
  by_cases checked : action.Checked
  · have agrees : Agrees Transferred.Failed (action.exec vm s.world self) (action.exec copyingVm s.world self) :=
      Action.exec_agrees checked
    rcases agrees with same | ⟨done', performed', error⟩ | ⟨done', performed', error⟩
    · exact Or.inl (act_steps todo (same ▸ performed))
    · obtain rfl := Outcome.ok.inj (performed.symm.trans performed')
      refine Or.inr (Or.inl fun clean => error ?_)
      refine clean self done.ret ?_
      simp [RankState.advance, show done.ret ≠ mpiSuccess from error]
    · exact absurd (faultless.act self action rest done' todo performed') error
  · cases action with
    | readIgnored id buf iovec size count =>
        obtain ⟨valid, called, listed, done', read', success⟩ :=
          faultless.ignored self id buf iovec size count rest todo
        have agrees : Agrees Transferred.Failed (s.world.readFromOwner vm id buf iovec size count 0 0)
            (s.world.readFromOwner copyingVm id buf iovec size count 0 0) := readFromOwner_agrees
        rcases agrees with same | ⟨failed, read, error⟩ | ⟨failed, read, error⟩
        · refine Or.inl (act_steps todo ?_)
          rw [← performed, Action.exec, Action.exec, same]
        · -- the call does not look at the error, but it is left in the cookie
          rw [Action.exec, read, Outcome.ok_bind] at performed
          obtain rfl := Outcome.ok.inj performed
          have size : failed.world.size = s.world.size := (readFromOwner_touches read).size
          refine Or.inr (Or.inr ⟨fun rank inRange => ?_, self, size ▸ valid, id, ?_, ?_⟩)
          · have before := called rank (size ▸ inRange)
            by_cases own : rank = self
            · subst own
              simpa using before
            · simpa [own] using before
          · simpa using listed
          · exact (readFromOwner_failed read).2 error
        · obtain rfl := Outcome.ok.inj (read'.symm.trans read)
          exact absurd success error
    | moveToPending id => exact absurd trivial checked
    | writeToOwner id buf iovec count seek skip => exact absurd trivial checked
    | readFromOwner id buf iovec size count seek skip => exact absurd trivial checked
    | reduce op invec inoutvec count iovec => exact absurd trivial checked

/-- A step whose copies work does what it does when nothing fails, or somebody sees an error or will. -/
theorem Sys.Faultless.step (faultless : s.Faultless (once calls)) (works : CopiesWork (once calls) vm s label)
    (stepped : s.step vm (once calls) label = .ok s') :
    s.step copyingVm (once calls) label = .ok s' ∨ s'.Spoiled := by
  cases label with
  | call self => exact faultless.call_step works stepped
  | act self => exact faultless.act_step stepped
  | wait self id => exact Or.inl stepped

/-- A run whose copies all work is one in which nothing fails, or somebody has seen an error or will. -/
theorem Delivers.faultless_or_spoiled {meets : Sys → Label → Prop} {failed : Nat → Prop}
    (faultless : ∀ s, ReachesBy copyingVm (once calls) meets origin s → s.Faultless (once calls))
    (run : Delivers (once calls) (fun vm s label => CopiesWork (once calls) vm s label ∧ meets s label) origin
      failed s) :
    ReachesBy copyingVm (once calls) meets origin s ∨ s.Spoiled := by
  induction run with
  | refl => exact Or.inl .refl
  | tail vm label _ condition stepped ih =>
      rcases ih with reached | spoiled
      · exact ((faultless _ reached).step condition.1 stepped).imp_left fun same =>
          reached.tail label condition.2 same
      · exact Or.inr (spoiled.step stepped)

/-- A run whose copies all work, and in which nobody has seen an error when everybody has returned, is one in
    which nothing fails. -/
theorem Delivers.reachesBy {meets : Sys → Label → Prop} {failed : Nat → Prop}
    (faultless : ∀ s, ReachesBy copyingVm (once calls) meets origin s → s.Faultless (once calls))
    (run : Delivers (once calls) (fun vm s label => CopiesWork (once calls) vm s label ∧ meets s label) origin
      failed s)
    (finished : s.Finished) (clean : s.Clean) : ReachesBy copyingVm (once calls) meets origin s :=
  (run.faultless_or_spoiled faultless).resolve_right fun spoiled => spoiled.not_clean finished clean

end Simulation

/-! ### Plans -/

/-- Where every result is looked at none is ignored. -/
theorem Sys.ignoresSafely_of_checked {s : Sys}
    (checked : ∀ rank, ∀ action ∈ (s.ranks rank).cont, action.Checked) : s.IgnoresSafely := by
  intro self id buf iovec size count rest todo
  have looked : (Action.readIgnored id buf iovec size count).Checked :=
    checked self _ (todo ▸ List.mem_cons_self)
  exact looked.elim

section RootedPlans

variable {plan : RootedPlan} {calls : Nat → Call} {n root t : Nat} {early : Nat → Prop} {origin s : Sys}

/-- What is left to do is checked if the plan is. -/
theorem Transferring.checked {turn : Nat} {mem : Memory} {past before done : List Nat} {made : Nat → Nat}
    (transferring : Transferring plan n root turn early mem past before done made s)
    (ledger : Ledger (.rooted root) n t origin plan.offer past made s) (checked : plan.Checked) (rank : Nat) :
    ∀ action ∈ (s.ranks rank).cont, action.Checked := by
  intro action listed
  have joined : rank ∈ past := by
    by_contra absent
    rw [ledger.idle rank absent] at listed
    cases listed
  by_cases isRoot : rank = root
  · subst isRoot
    obtain ⟨rest, serving, _⟩ := transferring.serving joined
    rcases serving with all | ⟨other, others, _, first⟩
    · rw [all] at listed
      exact serveRanks_checked checked rest action listed
    · rw [first] at listed
      rcases List.mem_cons.mp listed with rfl | later
      · exact checked.push _ _
      · exact serveRanks_checked checked others action later
  · by_cases late : root ∈ past ∧ rank ∉ before
    · rw [transferring.pulling rank joined isRoot late.1 late.2] at listed
      split at listed
      · cases listed
      · rw [List.mem_singleton.mp listed]
        exact checked.pull _ _
    · rw [transferring.waiting rank joined isRoot fun rootIn => not_not.mp fun after => late ⟨rootIn, after⟩]
        at listed
      cases listed

/-- As long as nothing fails an operation with a root goes as planned. -/
theorem RootedPlan.Exchanged.faultless (exchanged : plan.Exchanged n root t early origin s)
    (sound : plan.Sound copyingVm calls n root (t % umpiOutstandingCollectiveOperations) early)
    (checked : plan.Checked) (ready : origin.Ready n t) (suits : (Schedule.rooted root).Suits n)
    (small : n + 1 < 2 ^ 15) : s.Faultless (once calls) := by
  obtain ⟨past, before, done, made, ledger, transferring⟩ := exchanged
  exact
    { call := by
        intro self call w frame valid listed entered
        obtain ⟨absent, rfl⟩ := ledger.absent_of_call listed
        rw [ledger.standing.size] at valid
        have arriving := ledger.arriving ready suits.several (fun _ => suits) (by omega) valid absent
        have turn : s.world.turnOf self = t % umpiOutstandingCollectiveOperations := by
          rw [World.turnOf, ledger.ticket self valid absent]
        by_cases isRoot : self = root
        · subst isRoot
          obtain ⟨_, _, _, _, joined⟩ := (sound.root past s.world made arriving turn).of_ok entered
          exact joined.settles.ret
        · obtain ⟨_, joined⟩ := (sound.member past s.world self made isRoot arriving turn).of_ok entered
          exact joined.settles.ret
      act := by
        intro self action rest moved todo performed
        by_cases isRoot : self = root
        · subst isRoot
          obtain ⟨moved', performed', success, _⟩ := transferring.rootActs ledger sound todo
          obtain rfl := Outcome.ok.inj (performed.symm.trans performed')
          exact success
        · obtain ⟨moved', performed', success, _⟩ := transferring.memberActs ledger sound isRoot todo
          obtain rfl := Outcome.ok.inj (performed.symm.trans performed')
          exact success
      ignored := ignoresSafely_of_checked (transferring.checked ledger checked) }

/-- An operation with a root that everybody has been told has succeeded has gone as planned. -/
theorem RootedPlan.Sound.exchanged_of_success {meets : Sys → Label → Prop} {failed : Nat → Prop}
    (sound : plan.Sound copyingVm calls n root (t % umpiOutstandingCollectiveOperations) early)
    (checked : plan.Checked) (ready : origin.Ready n t) (suits : (Schedule.rooted root).Suits n)
    (small : n + 1 < 2 ^ 15)
    (allows : ∀ s, meets s (.call root) → ∀ rank, (s.ranks rank).pos ≠ 0 → early rank)
    (run : Delivers (once calls) (fun vm s label => CopiesWork (once calls) vm s label ∧ meets s label) origin
      failed s)
    (finished : s.Finished) (clean : s.Clean) : plan.Exchanged n root t early origin s := by
  have exchanged : ∀ s, ReachesBy copyingVm (once calls) meets origin s → plan.Exchanged n root t early origin s :=
    fun s reached => sound.exchanged ready suits small allows reached
  refine exchanged s (run.reachesBy (fun mid reached => ?_) finished clean)
  exact (exchanged mid reached).faultless sound checked ready suits small

end RootedPlans

section UnrootedPlans

variable {plan : UnrootedPlan} {calls : Nat → Call} {n t : Nat} {origin s : Sys}

/-- What is left to do is checked if the errands are. -/
theorem UnrootedPlan.Followed.checked (followed : plan.Followed n t origin s)
    (checked : ∀ past, ∀ errand ∈ plan.errands past, ∀ made, (errand.action made).Checked) (rank : Nat) :
    ∀ action ∈ (s.ranks rank).cont, action.Checked := by
  obtain ⟨past, made, gathered, done, rest, _, underway⟩ := followed
  intro action listed
  rw [underway.cont rank] at listed
  split at listed
  · obtain ⟨errand, remaining, rfl⟩ := List.mem_map.mp listed
    have planned : errand ∈ plan.left n past := underway.split ▸ List.mem_append_right done remaining
    unfold UnrootedPlan.left at planned
    split at planned
    · exact checked past errand planned made
    · cases planned
  · cases listed

/-- As long as nothing fails an operation without a root goes as planned. -/
theorem UnrootedPlan.Followed.faultless (followed : plan.Followed n t origin s)
    (sound : plan.Sound copyingVm calls n (t % umpiOutstandingCollectiveOperations)) (ready : origin.Ready n t)
    (suits : plan.schedule.Suits n) (small : n + 1 < 2 ^ 15) (ignored : s.IgnoresSafely) :
    s.Faultless (once calls) := by
  obtain ⟨past, made, gathered, done, rest, ledger, underway⟩ := followed
  exact
    { call := by
        intro self call w frame valid listed entered
        obtain ⟨absent, rfl⟩ := ledger.absent_of_call listed
        rw [ledger.standing.size] at valid
        have arriving := ledger.arriving ready suits.several (fun _ => suits) (by omega) valid absent
        have turn : s.world.turnOf self = t % umpiOutstandingCollectiveOperations := by
          rw [World.turnOf, ledger.ticket self valid absent]
        have partly : past.length < n := arriving.joining.length_le
        have stage : plan.stage past s.world.mem := by
          rw [underway.memory, (underway.nothing_done partly).1]
          exact underway.stage
        obtain ⟨_, _, _, _, _, joined⟩ :=
          (sound.arrives past s.world self made arriving turn stage underway.agreed
            (underway.offers ledger suits partly)).of_ok entered
        exact joined.settles.ret
      act := by
        intro self action rest moved todo performed
        obtain ⟨moved', performed', success, _⟩ := underway.act ledger sound todo
        obtain rfl := Outcome.ok.inj (performed.symm.trans performed')
        exact success
      ignored := ignored }

/-- An operation without a root that everybody has been told has succeeded has gone as planned. -/
theorem UnrootedPlan.Sound.followed_of_success {meets : Sys → Label → Prop} {failed : Nat → Prop}
    (sound : plan.Sound copyingVm calls n (t % umpiOutstandingCollectiveOperations)) (ready : origin.Ready n t)
    (suits : plan.schedule.Suits n) (small : n + 1 < 2 ^ 15)
    (follows : ∀ s, Reaches copyingVm (once calls) origin s → plan.Followed n t origin s)
    (ignored : ∀ s, Reaches copyingVm (once calls) origin s → s.IgnoresSafely)
    (run : Delivers (once calls) (fun vm s label => CopiesWork (once calls) vm s label ∧ meets s label) origin
      failed s)
    (finished : s.Finished) (clean : s.Clean) : plan.Followed n t origin s := by
  refine follows s (run.reachesBy (fun mid reached => ?_) finished clean).reaches
  exact (follows mid reached.reaches).faultless sound ready suits small (ignored mid reached.reaches)

end UnrootedPlans

end Umpi
