/-
Module: Umpi.Proofs.Scratch
Layer: Proofs
Purpose: Reductions stay in the scratch buffers of their slot. Each rank checks only its own `count * stride`,
  but the layout it finds in the slot was checked by the rank that left it there, and the number of elements it
  reads out of another rank's buffer is limited by the size check against its own count.
Imports: Umpi.Proofs.SlotData, Umpi.Proofs.Bounds, Umpi.Model.Scratch
Trusted boundary: none
Main exports: allreduceAccumulate_steps, Action.exec_hands, Sys.call_moves, Sys.act_moves, Guarded, LeavesGuarded,
  Call.enter_kept, reductions_stay_in_scratch
Open obligations: none
-/
import Umpi.Proofs.SlotData
import Umpi.Proofs.Bounds
import Umpi.Model.Scratch

namespace Umpi

open Foundation

/-! ### The sides are the ones that the functions use -/

/-- `umpi_copy` moves bytes of the source side to the target side, unless its check refuses. -/
theorem CopyCall.run_cases (vm : ProcessVm) (copy : CopyCall) (mem : Memory) :
    copy.run vm mem = mem ∨
      copy.Accepted ∧ ∃ moved, copy.run vm mem = moveBytes mem copy.source copy.target moved := by
  unfold CopyCall.run CopyCall.Accepted CopyCall.source CopyCall.target CopyCall.total umpiCopy
  simp only
  split
  · exact Or.inl rfl
  · next accepted =>
    refine Or.inr ⟨accepted, ?_⟩
    split
    · next basic =>
      obtain ⟨basic, basic'⟩ := Bool.and_eq_true_iff.mp basic
      rw [Iovec.contiguous_eq_not_scattered, Bool.not_eq_true'] at basic basic'
      refine ⟨(sizeT (copy.readCount * copy.readIovec.len) : Nat), ?_⟩
      unfold sideIov
      rw [if_neg (by simp [basic]), if_neg (by simp [basic'])]
    · exact ⟨_, rfl⟩

/-- In place, `allreduce_request` does to memory what its steps do. -/
theorem allreduceAccumulate_steps {vm : ProcessVm} {w w' : World} {self turn : Nat} {recvbuf : Loc} {count ret : Int}
    {iovec : Iovec} {op : UmpiOp}
    (accumulated : allreduceAccumulate vm w self turn .inPlace recvbuf count iovec op = .ok (w', ret)) :
    w'.mem = (allreduceSteps w turn recvbuf count iovec op).foldl (ScratchStep.run vm) w.mem := by
  unfold allreduceAccumulate at accumulated
  unfold allreduceSteps
  simp only [if_true] at accumulated
  split at accumulated
  case isTrue first =>
    obtain ⟨rfl, _⟩ := Prod.mk.inj (Outcome.ok.inj accumulated)
    simp only [if_pos first]
    rfl
  case isFalse later =>
    simp only [if_neg later]
    cases left : (w.slots turn).iovec with
    | none =>
        rw [left] at accumulated
        split at accumulated <;> cases accumulated
    | some layout =>
        rw [left] at accumulated
        split at accumulated
        case isTrue notLast =>
          obtain ⟨rfl, _⟩ := Prod.mk.inj (Outcome.ok.inj accumulated)
          simp only [if_pos notLast]
          rfl
        case isFalse last =>
          obtain ⟨rfl, _⟩ := Prod.mk.inj (Outcome.ok.inj accumulated)
          simp only [if_neg last]
          rfl

theorem readFromOwner_mem {vm : ProcessVm} {w : World} {id : Nat} {buf : Loc} {iovec : Iovec}
    {size count seek skip asked : Int}
    {done : Transferred} (read : w.readFromOwner vm id buf iovec size count seek skip = .ok done)
    (counted : asked = if count ≠ 0 then count
      else int32 (sizeT (((w.cookies id).size - skip) * (w.cookies id).iovec.len) / iovec.len : Nat)) :
    done.world.mem = w.mem ∨
      ¬ sizeT (size * iovec.len) < sizeT (seek * iovec.len + sizeT (asked * iovec.len)) ∧
        ∃ owned moved, done.world.mem =
          moveBytes w.mem owned (sideIov buf iovec seek (seek + asked) (sizeT (asked * iovec.len))) moved := by
  unfold World.readFromOwner at read
  simp only at read
  rw [← counted] at read
  by_cases divides : count = 0 ∧ iovec.len = 0
  · rw [if_pos divides] at read
    cases read
  · rw [if_neg divides] at read
    split at read
    · obtain rfl := Outcome.ok.inj read
      exact Or.inl rfl
    · next passes =>
      obtain rfl := Outcome.ok.inj read
      exact Or.inr ⟨(not_or.mp passes).2, _, _, rfl⟩

/-- A transfer moves bytes between the side that is handed over and the one of the owner. -/
theorem Action.exec_hands {vm : ProcessVm} {w : World} {self : Nat} {action : Action} {done : Transferred}
    (performed : action.exec vm w self = .ok done) :
    done.world.mem = w.mem ∨ (∃ op invec inoutvec count iovec, action = .reduce op invec inoutvec count iovec) ∨
      ∃ buf side owned moved, action.Hands w self buf side ∧
        (done.world.mem = moveBytes w.mem side owned moved ∨ done.world.mem = moveBytes w.mem owned side moved) := by
  cases action with
  | moveToPending id =>
      obtain rfl := Outcome.ok.inj performed
      exact Or.inl rfl
  | writeToOwner id buf iovec count seek skip =>
      obtain ⟨start, _, next⟩ := Outcome.bind_eq_ok.mp performed
      obtain ⟨first, evaluated, wrote⟩ := Outcome.bind_eq_ok.mp next
      unfold World.writeToOwner at wrote
      simp only at wrote
      split at wrote
      · obtain rfl := Outcome.ok.inj wrote
        exact Or.inl rfl
      · split at wrote
        · cases wrote
        · obtain rfl := Outcome.ok.inj wrote
          exact Or.inr (Or.inr ⟨buf, _, _, _, .write evaluated, Or.inl rfl⟩)
  | readFromOwner id buf iovec size count seek skip =>
      obtain ⟨first, evaluated, next⟩ := Outcome.bind_eq_ok.mp performed
      obtain ⟨skipped, evaluated', read⟩ := Outcome.bind_eq_ok.mp next
      rcases readFromOwner_mem read rfl with refused | ⟨fits, owned, moved, mem⟩
      · exact Or.inl refused
      · exact Or.inr (Or.inr ⟨buf, _, owned, moved, .read evaluated evaluated' rfl fits, Or.inr mem⟩)
  | readIgnored id buf iovec size count =>
      obtain ⟨first, read, same⟩ := Outcome.bind_eq_ok.mp performed
      obtain rfl := Outcome.ok.inj same
      rcases readFromOwner_mem read rfl with refused | ⟨fits, owned, moved, mem⟩
      · exact Or.inl refused
      · exact Or.inr (Or.inr ⟨buf, _, owned, moved, .readIgnored rfl fits, Or.inr mem⟩)
  | reduce op invec inoutvec count iovec =>
      exact Or.inr (Or.inl ⟨op, invec, inoutvec, count, iovec, rfl⟩)

section Handed

variable {vm : ProcessVm} {program : Program} {s s' : Sys} {self : Nat}

/-- So does the rest of the request, which leaves memory alone. -/
theorem allreduceRequest_steps (w : World) (turn : Nat) (recvbuf : Loc) (count : Int) (iovec : Iovec) (op : UmpiOp) :
    (allreduceRequest vm w self turn .inPlace recvbuf count iovec op).Ensures fun result =>
      result.1.mem = (allreduceSteps w turn recvbuf count iovec op).foldl (ScratchStep.run vm) w.mem := by
  refine .bind fun result accumulated => ?_
  have steps := allreduceAccumulate_steps accumulated
  refine .ite (.ok steps) fun _ => ?_
  dsimp only
  split
  · refine .ok ?_
    simpa [World.createInBox, World.unlock] using steps
  · split
    · exact .undefined _
    · exact .ok steps

/-- `MPI_Iallreduce` in place on a slot, if it gets as far as that. -/
theorem mpiIallreduce_steps (w : World) (recvbuf : Pointer) (count : Int) (iovec : Iovec) (op : UmpiOp) :
    (mpiIallreduce vm w self .inPlace recvbuf count (some iovec) (some op) .world).Ensures fun result =>
      result.1.mem = w.mem ∨
        ∃ turn entered, tooLongInPlace .inPlace count iovec = false ∧ w.getCurrentSlot self = .ok (turn, entered) ∧
          result.1.mem =
            (allreduceSteps entered turn (recvbuf.loc self) count iovec op).foldl (ScratchStep.run vm) w.mem := by
  refine .ite (.ok (Or.inl rfl)) fun _ => .ite (.ok (Or.inl rfl)) fun short => .bind fun claimed entered => ?_
  intro result requested
  have steps := allreduceRequest_steps _ _ _ _ _ _ result requested
  obtain ⟨turn, mid⟩ := claimed
  obtain ⟨_, rfl, _⟩ := getCurrentSlot_eq_ok entered
  exact Or.inr ⟨turn, _, by simpa using short, entered, steps⟩

/-- An allreduce in place moves bytes between the sides that it hands over, and applies its operation. -/
theorem Sys.call_moves (stepped : s.step vm program (.call self) = .ok s') {call : Call} {recvbuf : Pointer}
    {count : Int} {iovec : Iovec} {op : UmpiOp} (called : program self (s.ranks self).pos = some call)
    (inPlace : call.InPlace recvbuf count iovec op) :
    ∃ steps : List ScratchStep, s'.world.mem = steps.foldl (ScratchStep.run vm) s.world.mem ∧
      ∀ copy, .copy copy ∈ steps → ∀ mem, copy.run vm mem = mem ∨
        ∃ moved, copy.run vm mem = moveBytes mem copy.source copy.target moved ∧
          s.Hands program (.call self) copy.readBuf copy.source ∧
            s.Hands program (.call self) copy.writeBuf copy.target := by
  obtain ⟨call', w, frame, _, _, listed, entered, rfl⟩ := Sys.step_call stepped
  obtain rfl := Option.some.inj (called.symm.trans listed)
  have steps : w.mem = s.world.mem ∨ ∃ turn mid, tooLongInPlace .inPlace count iovec = false ∧
      s.world.getCurrentSlot self = .ok (turn, mid) ∧
        w.mem = (allreduceSteps mid turn (recvbuf.loc self) count iovec op).foldl (ScratchStep.run vm)
          s.world.mem := by
    rcases inPlace with rfl | rfl
    · exact mpiIallreduce_steps s.world recvbuf count iovec op _ entered
    · have blocking : (mpiAllreduce vm s.world self .inPlace recvbuf count (some iovec) (some op) .world).Ensures _ :=
        .ite (.ok (Or.inl rfl)) fun _ => .ite (.ok (Or.inl rfl)) fun _ =>
          mpiIallreduce_steps s.world recvbuf count iovec op
      exact blocking _ entered
  rcases steps with same | ⟨turn, mid, short, claimed, steps⟩
  · exact ⟨[], same, fun copy impossible => nomatch impossible⟩
  · refine ⟨_, steps, fun copy made mem => ?_⟩
    rcases copy.run_cases vm mem with refused | ⟨accepted, moved, run⟩
    · exact Or.inl refused
    · exact Or.inr ⟨moved, run, .source called inPlace short claimed made accepted,
        .target called inPlace short claimed made accepted⟩

/-- A transfer of an operation moves bytes from or to the side that it hands over. -/
theorem Sys.act_moves (stepped : s.step vm program (.act self) = .ok s') :
    s'.world.mem = s.world.mem ∨
      (∃ op invec inoutvec count iovec rest, (s.ranks self).cont = .reduce op invec inoutvec count iovec :: rest) ∨
      ∃ buf side owned moved, s.Hands program (.act self) buf side ∧
        (s'.world.mem = moveBytes s.world.mem side owned moved ∨
          s'.world.mem = moveBytes s.world.mem owned side moved) := by
  obtain ⟨action, rest, done, next, performed, rfl⟩ := Sys.step_act stepped
  rcases Action.exec_hands performed with same | ⟨op, invec, inoutvec, count, iovec, rfl⟩ |
    ⟨buf, side, owned, moved, hands, run⟩
  · exact Or.inl same
  · exact Or.inr (Or.inl ⟨op, invec, inoutvec, count, iovec, rest, next⟩)
  · exact Or.inr (Or.inr ⟨buf, side, owned, moved, .act next hands, run⟩)

end Handed

/-! ### What a guarded layout can reach -/

/-- A layout that has passed the check of a reduction. -/
structure Guarded (iovec : Iovec) (count : Int) : Prop extends Elements iovec count where
  short : count * iovec.stride ≤ umpiMaxInPlaceLen

namespace Guarded

variable {iovec : Iovec} {count : Int}

/-- A side of at most `count` elements, or of at most their bytes when it is a single segment. -/
theorem side (guarded : Guarded iovec count) (buf : Loc) {hi : Int} {total : Nat}
    (elements : iovec.scattered → hi ≤ count)
    (bytes : (total : Int) ≤ count * iovec.len) :
    ∀ location ∈ iovLocs (sideIov buf iovec 0 hi total),
      location.region = buf.region ∧ buf.addr ≤ location.addr ∧ location.addr < buf.addr + umpiMaxInPlaceLen := by
  have nonneg := guarded.nonneg
  have short := guarded.short
  intro location listed
  have wellFormed := guarded.wellFormed
  cases wellFormed with
  | basic kind length notScattered bounded =>
      rw [iovLocs_sideIov_basic notScattered] at listed
      obtain ⟨i, below, rfl⟩ := List.mem_map.mp listed
      have inside := List.mem_range.mp below
      rw [Iovec.len_basic notScattered] at bytes
      rw [Iovec.stride_basic notScattered bounded] at short
      refine ⟨rfl, ?_, ?_⟩
      · rw [Loc.shift_addr]
        omega
      · rw [Loc.shift_addr]
        omega
  | scattered strideBytes parts inside bounded =>
      rw [iovLocs_sideIov_scattered] at listed
      obtain ⟨j, below, element⟩ := mem_streamLocs_iff.mp listed
      obtain ⟨region, low, high⟩ := mem_elementLocs (.scattered _ _ inside bounded) element
      have few := elements rfl
      rw [Iovec.stride_ofSegments] at low high short
      have strideNonneg : 0 ≤ strideBytes := by
        have spread : (0 + (j : Int) + 1) * strideBytes = (0 + (j : Int)) * strideBytes + strideBytes := by ring
        omega
      have before : 0 ≤ (0 + (j : Int)) * strideBytes := Int.mul_nonneg (by omega) strideNonneg
      have behind : (0 + (j : Int) + 1) * strideBytes ≤ count * strideBytes :=
        Int.mul_le_mul_of_nonneg_right (by omega) strideNonneg
      exact ⟨region, by omega, by omega⟩

/-- All `count` elements. -/
theorem whole (guarded : Guarded iovec count) (buf : Loc) :
    ∀ location ∈ iovLocs (sideIov buf iovec 0 (0 + count) (sizeT (count * iovec.len))),
      location.region = buf.region ∧ buf.addr ≤ location.addr ∧ location.addr < buf.addr + umpiMaxInPlaceLen :=
  guarded.side buf (fun _ => by omega) (sizeT_le (Int.mul_nonneg guarded.nonneg (by omega)))

/-- As many elements as another rank has data for. Only a number that passes the check against `count` is read. -/
theorem asked (guarded : Guarded iovec count) (buf : Loc) {owned : Int} {len : Nat}
    (fits : ¬ sizeT (count * iovec.len) <
      sizeT (0 * iovec.len + sizeT (int32 (sizeT (owned * len) / iovec.len : Nat) * iovec.len))) :
    ∀ location ∈ iovLocs (sideIov buf iovec 0 (0 + int32 (sizeT (owned * len) / iovec.len : Nat))
        (sizeT (int32 (sizeT (owned * len) / iovec.len : Nat) * iovec.len))),
      location.region = buf.region ∧ buf.addr ≤ location.addr ∧ location.addr < buf.addr + umpiMaxInPlaceLen := by
  have data := sizeT_lt (owned * len)
  generalize sizeT (owned * len) = bytes at *
  have room := sizeT_le (Int.mul_nonneg guarded.nonneg (by omega : (0 : Int) ≤ iovec.len))
  have narrowed : int32 (bytes / iovec.len : Nat) ≤ (bytes / iovec.len : Nat) := int32_le (Int.natCast_nonneg _)
  generalize int32 (bytes / iovec.len : Nat) = number at *
  rw [Int.zero_mul, Int.zero_add, sizeT_natCast (sizeT_lt _)] at fits
  refine guarded.side buf (fun _ => ?_) (by omega)
  by_cases negative : number < 0
  · have nonneg := guarded.nonneg
    omega
  · -- the quotient has not wrapped, so neither does its product
    have product : number * (iovec.len : Int) ≤ bytes := by
      have quotient : ((bytes / iovec.len : Nat) : Int) * iovec.len ≤ bytes := by
        exact_mod_cast Nat.div_mul_le_self bytes iovec.len
      exact (Int.mul_le_mul_of_nonneg_right narrowed (by omega)).trans quotient
    have exact : (sizeT (number * iovec.len) : Int) = number * iovec.len :=
      sizeT_of_range (Int.mul_nonneg (by omega) (by omega)) (by omega)
    have less : number * (iovec.len : Int) ≤ count * iovec.len := by omega
    have few := Int.le_of_mul_le_mul_right less (by exact_mod_cast guarded.lenPos)
    omega

end Guarded

/-! ### Every call keeps the layouts guarded -/

/-- The layout that a slot holds has been checked by the rank that left it, or nobody has left one. -/
def Collect.Guarded (slot : Collect) : Prop :=
  ∀ layout, slot.iovec = some layout → Umpi.Guarded layout slot.count

/-- What an action does with a scratch buffer: whole elements of a guarded layout from the start, or as many as
    there are. -/
def Action.Guarded : Action → Prop
  | writeToOwner _ buf iovec count _ skip => buf.Scratch → skip = .elems 0 ∧ Umpi.Guarded iovec count
  | readFromOwner _ buf iovec size count seek _ => buf.Scratch → seek = .elems 0 ∧ count = 0 ∧ Umpi.Guarded iovec size
  | readIgnored _ buf _ _ _ => ¬ buf.Scratch
  | _ => True

/-- The layouts in the slots. -/
def World.Guarded (w : World) : Prop := ∀ turn, (w.slots turn).Guarded

/-- The layouts in the slots and what a call still has to do. -/
structure LeavesGuarded (result : World × Frame) : Prop where
  slots : result.1.Guarded
  cont : ∀ action ∈ result.2.cont, action.Guarded

@[simp] theorem Pointer.not_scratch (pointer : Pointer) (self : Nat) : ¬ (pointer.loc self).Scratch := by
  rintro ⟨turn, same | same⟩
  · cases pointer <;> cases same
  · cases pointer <;> cases same

namespace World.Guarded

variable {w w' : World} {turn self : Nat}

theorem of_slots (guarded : w.Guarded) (slots : w'.slots = w.slots) : w'.Guarded := by
  intro turn
  rw [slots]
  exact guarded turn

theorem setSlot (guarded : w.Guarded) {slot : Collect} (own : slot.Guarded) : (w.setSlot turn slot).Guarded := by
  intro other
  by_cases same : other = turn
  · rw [same, World.setSlot_slots, Function.update_self]
    exact own
  · rw [World.setSlot_slots, Function.update_of_ne same]
    exact guarded other

theorem unlock (guarded : w.Guarded) (turn : Nat) : (w.unlock turn).Guarded := guarded.setSlot (guarded turn)

theorem setBox (guarded : w.Guarded) (turn : Nat) (box : List Nat) : (w.setBox turn box).Guarded :=
  guarded.setSlot (guarded turn)

theorem createInBox (guarded : w.Guarded) (self turn : Nat) (cookie : Cookie) :
    (w.createInBox self turn cookie).2.Guarded := by
  have created : (w.createRequest self cookie).2.Guarded := guarded.of_slots (World.createRequest_slots ..)
  exact created.setSlot (created turn)

theorem claimed (guarded : w.Guarded) (self : Nat) : (w.claimed self).Guarded := by
  intro other
  have own : (w.slots (w.turnOf self)).Guarded := guarded (w.turnOf self)
  by_cases same : other = w.turnOf self
  · rw [same]
    simp only [World.claimed, World.turnOf, World.setSlot_slots, Function.update_self]
    exact own
  · rw [World.turnOf] at same
    simp only [World.claimed, World.setSlot_slots]
    rw [Function.update_of_ne same]
    exact guarded other

end World.Guarded

section Calls

variable {vm : ProcessVm} {turn self : Nat} {w : World}

theorem LeavesGuarded.failed {mid : World} (guarded : mid.Guarded) (ret : Int) :
    LeavesGuarded (mid, Frame.failed ret) where
  slots := guarded
  cont := fun action member => by cases member

theorem LeavesGuarded.created {mid : World} {cookie : Cookie} {frame : Frame} (guarded : mid.Guarded)
    (cont : ∀ action ∈ frame.cont, action.Guarded) :
    LeavesGuarded ((mid.createInBox self turn cookie).2.unlock turn, frame) where
  slots := (guarded.createInBox self turn cookie).unlock turn
  cont := cont

theorem memberRequest_kept (guarded : w.Guarded) (buf : Loc) (iovec : Iovec) (count : Int) (root : Nat)
    {transfer : Nat → Action} (own : ∀ id, (transfer id).Guarded) :
    LeavesGuarded (memberRequest w self turn buf iovec count root transfer) := by
  unfold memberRequest
  split
  case h_1 id _ =>
    have alone : ∀ action ∈ [transfer id], action.Guarded := by
      intro action member
      rw [List.mem_singleton.mp member]
      exact own id
    have joined : (w.join id).Guarded := guarded.of_slots rfl
    by_cases last : (w.join id).joinedLast turn = true
    · simp only [if_pos last]
      have moved : ((w.join id).moveToPending id).Guarded := joined.of_slots rfl
      exact ⟨(moved.setBox turn _).unlock turn, alone⟩
    · simp only [if_neg last]
      exact ⟨joined.unlock turn, alone⟩
  case h_2 => exact .created guarded fun action member => by cases member

theorem rootRequest_kept (guarded : w.Guarded) (buf : Loc) (iovec : Iovec) (size count : Int) {transfer : Nat → Action}
    (own : ∀ id, (transfer id).Guarded) :
    (rootRequest w self turn buf iovec size count transfer).Ensures LeavesGuarded := by
  have served : ∀ todo : List Nat, ∀ action ∈ todo.flatMap fun id => [.moveToPending id, transfer id],
      action.Guarded := by
    intro todo action member
    obtain ⟨id, _, either⟩ := List.mem_flatMap.mp member
    rcases List.mem_cons.mp either with rfl | transfers
    · trivial
    · rw [List.mem_singleton.mp transfers]
      exact own id
  unfold rootRequest
  dsimp only
  split
  case isTrue =>
    split
    case h_1 borrow _ =>
      have joined : ((w.setBox turn []).join borrow).Guarded := (guarded.setBox turn []).of_slots rfl
      exact .ok ⟨joined.unlock turn, served _⟩
    case h_2 => exact .undefined _
  case isFalse => exact .ok (.created (guarded.setBox turn []) (served _))

theorem allgatherFirst_slots {sendbuf : Pointer} {sendcount : Int} {sendtype : MpiDatatype} {recvbuf : Loc}
    {recvcount : Int} {recvtype : Iovec} :
    (allgatherFirst vm w self sendbuf sendcount sendtype recvbuf recvcount recvtype).Ensures fun mid =>
      mid.slots = w.slots :=
  .ite (.ok rfl) fun _ => .bind fun _ _ => .bind fun _ _ => .ok rfl

theorem allgatherSpread_guarded {recvbuf : Pointer} {recvtype : Iovec} {size : Int} (todo : List Nat) :
    ∀ action ∈ allgatherSpread (recvbuf.loc self) recvtype size todo, action.Guarded := by
  cases todo with
  | nil => exact fun action impossible => by cases impossible
  | cons root others =>
      intro action member
      simp only [allgatherSpread, List.mem_cons, List.mem_flatMap, List.not_mem_nil, or_false] at member
      rcases member with rfl | rfl | ⟨id, _, rfl | rfl⟩
      · trivial
      · exact recvbuf.not_scratch self
      · trivial
      · exact fun scratch => absurd scratch (recvbuf.not_scratch self)

theorem allgatherRequest_kept (guarded : w.Guarded) {sendbuf recvbuf : Pointer} {sendcount recvcount : Int}
    {sendtype : MpiDatatype} {recvtype : Iovec} :
    (allgatherRequest vm w self turn sendbuf sendcount sendtype (recvbuf.loc self) recvcount
      recvtype).Ensures LeavesGuarded := by
  unfold allgatherRequest
  refine .ite ?_ fun _ => ?_
  · refine .bind fun mid first => .bind fun size _ => .ok ?_
    have after : mid.Guarded := guarded.of_slots (allgatherFirst_slots mid first)
    exact .created after fun action impossible => by cases impossible
  · split
    · exact .undefined _
    · refine .bind fun done contributed => ?_
      obtain ⟨_, slots⟩ : Within turn w done.world ∧ done.world.slots = w.slots :=
        allgatherContribute_within done contributed
      have after : done.world.Guarded := guarded.of_slots slots
      refine .ite (.ok (.failed after _)) fun _ => ?_
      by_cases last : done.world.joinedLast turn = true
      · rw [if_neg (not_not.mpr last)]
        refine .bind fun size _ => .ok ?_
        exact ⟨((after.setBox turn []).of_slots rfl).unlock turn, allgatherSpread_guarded _⟩
      · rw [if_pos last]
        exact .bind fun size _ => .ok (.created after fun action impossible => by cases impossible)

/-- In place, the first ranks leave the layout that they have checked. -/
theorem allreduceAccumulate_kept (guarded : w.Guarded) {sendbuf : Pointer} {recvbuf : Loc} {count : Int} {iovec : Iovec}
    {op : UmpiOp} (short : sendbuf = .inPlace → Guarded iovec count) :
    (allreduceAccumulate vm w self turn sendbuf recvbuf count iovec op).Ensures fun result => result.1.Guarded := by
  unfold allreduceAccumulate
  dsimp only
  by_cases inPlace : sendbuf = .inPlace
  · rw [if_pos inPlace]
    have left : (w.setSlot turn { w.slots turn with iovec := some iovec, count := count }).Guarded :=
      guarded.setSlot fun layout same => Option.some.inj same ▸ short inPlace
    exact .ite (.ok (left.of_slots rfl)) fun _ => .ite (.bind fun _ _ => .ok (left.of_slots rfl))
      fun _ => .bind fun _ _ => .ok (guarded.of_slots rfl)
  · rw [if_neg inPlace]
    refine .ite (.ok (guarded.of_slots rfl)) fun _ => ?_
    split
    · exact .undefined _
    · refine .bind fun done read => ?_
      have after : done.world.Guarded := guarded.of_slots (readFromOwner_touches read).slots
      exact .ite (.ok after) fun _ => .ok (after.of_slots rfl)

theorem allreduceRequest_kept (guarded : w.Guarded) {sendbuf recvbuf : Pointer} {count : Int} {iovec : Iovec}
    {op : UmpiOp} (short : sendbuf = .inPlace → Guarded iovec count) :
    (allreduceRequest vm w self turn sendbuf (recvbuf.loc self) count iovec op).Ensures LeavesGuarded := by
  refine .bind fun result accumulated => ?_
  have after : result.1.Guarded := allreduceAccumulate_kept guarded short result accumulated
  refine .ite (.ok (.failed after _)) fun _ => ?_
  by_cases last : result.1.joinedLast turn = true
  · dsimp only
    rw [if_neg (not_not.mpr last)]
    split
    · exact .undefined _
    · refine .ok ⟨((after.setBox turn []).of_slots rfl).unlock turn, ?_⟩
      intro action member
      obtain ⟨id, _, either⟩ := List.mem_flatMap.mp member
      simp only [List.mem_cons, List.not_mem_nil, or_false] at either
      rcases either with rfl | rfl
      · trivial
      · exact fun scratch => absurd scratch (recvbuf.not_scratch self)
  · dsimp only
    rw [if_pos last]
    exact .ok (.created after fun action impossible => by cases impossible)

theorem exscanLoop_guarded {count : Int} {iovec : Iovec} {op : UmpiOp} (short : Guarded iovec count) (todo : List Nat) :
    ∀ action ∈ exscanLoop turn count iovec op todo, action.Guarded := by
  induction todo with
  | nil => exact fun action impossible => by cases impossible
  | cons id rest ih =>
      intro action member
      simp only [exscanLoop, List.mem_append, List.mem_cons, List.not_mem_nil, or_false] at member
      rcases member with ((rfl | rfl | rfl) | last) | later
      · trivial
      · exact fun _ => ⟨rfl, rfl, short⟩
      · exact fun _ => ⟨rfl, short⟩
      · split at last
        · cases last
        · obtain rfl := List.mem_singleton.mp last
          trivial
      · exact ih action later

theorem scanLoop_guarded {count : Int} {iovec : Iovec} {op : UmpiOp} (short : Guarded iovec count) (todo : List Nat) :
    ∀ action ∈ scanLoop turn count iovec op todo, action.Guarded := by
  intro action member
  obtain ⟨id, _, either⟩ := List.mem_flatMap.mp member
  simp only [List.mem_cons, List.not_mem_nil, or_false] at either
  rcases either with rfl | rfl | rfl | rfl
  · trivial
  · exact fun _ => ⟨rfl, rfl, short⟩
  · trivial
  · exact fun _ => ⟨rfl, short⟩

/-- What exscan and scan do once they have their input. -/
theorem climb_kept {mid : World} {cookie : Cookie} {count : Int} {iovec : Iovec} {loop : List Nat → List Action}
    (guarded : mid.Guarded) (short : Guarded iovec count) (own : ∀ todo, ∀ action ∈ loop todo, action.Guarded) :
    (if ¬ (mid.createInBox self turn cookie).2.joinedLast turn = true then
        .ok ((mid.createInBox self turn cookie).2.unlock turn, Frame.done (mid.createInBox self turn cookie).1 [])
      else ladder (mid.createInBox self turn cookie).2 turn (mid.createInBox self turn cookie).1 count iovec
        loop).Ensures LeavesGuarded := by
  have created := guarded.createInBox self turn cookie
  by_cases last : (mid.createInBox self turn cookie).2.joinedLast turn = true
  · rw [if_neg (not_not.mpr last)]
    unfold ladder
    dsimp only
    split
    · exact .undefined _
    · refine .ok ⟨(created.setBox turn []).unlock turn, ?_⟩
      intro action member
      simp only [List.mem_cons] at member
      rcases member with rfl | rfl | later
      · trivial
      · exact fun _ => ⟨rfl, rfl, short⟩
      · exact own _ action later
  · rw [if_pos last]
    exact .ok (.created guarded fun action impossible => by cases impossible)

theorem exscanRequest_kept (guarded : w.Guarded) {sendbuf : Pointer} {recvbuf : Loc} {count : Int} {iovec : Iovec}
    {op : UmpiOp} (elements : Elements iovec count) :
    (exscanRequest vm w self turn sendbuf recvbuf count iovec op).Ensures LeavesGuarded := by
  refine .ite (.ok (.failed guarded _)) fun short => ?_
  have layout : Guarded iovec count := ⟨elements, Int.not_lt.mp short⟩
  refine climb_kept ?_ layout (exscanLoop_guarded layout)
  split
  · exact guarded.of_slots rfl
  · exact guarded

theorem scanRequest_kept (guarded : w.Guarded) {sendbuf : Pointer} {recvbuf : Loc} {count : Int} {iovec : Iovec}
    {op : UmpiOp} (elements : Elements iovec count) :
    (scanRequest vm w self turn sendbuf recvbuf count iovec op).Ensures LeavesGuarded := by
  refine .ite (.ok (.failed guarded _)) fun short => ?_
  have layout : Guarded iovec count := ⟨elements, Int.not_lt.mp short⟩
  refine climb_kept ?_ layout (scanLoop_guarded layout)
  split
  · exact guarded.of_slots rfl
  · exact guarded

/-- What is left to show once the slot has been claimed. -/
theorem LeavesGuarded.claimed (guarded : w.Guarded) {next : Nat × World → Outcome (World × Frame)}
    (kept : (w.claimed self).Guarded → (next (w.turnOf self, w.claimed self)).Ensures LeavesGuarded) :
    (w.getCurrentSlot self >>= next).Ensures LeavesGuarded := by
  refine .bind fun value entered => ?_
  obtain ⟨turn, claimed⟩ := value
  obtain ⟨rfl, rfl, _⟩ := getCurrentSlot_eq_ok entered
  exact kept (guarded.claimed self)

theorem mpiIallreduce_kept (guarded : w.Guarded) {sendbuf recvbuf : Pointer} {count : Int} {datatype : MpiDatatype}
    {op : Option UmpiOp} {comm : MpiComm} (elements : ∀ iovec, datatype = some iovec → Elements iovec count) :
    (mpiIallreduce vm w self sendbuf recvbuf count datatype op comm).Ensures LeavesGuarded := by
  unfold mpiIallreduce
  split
  · next iovec op =>
    refine .ite (.ok (.failed guarded _)) fun _ => .ite (.ok (.failed guarded _)) fun short =>
      .claimed guarded fun entered => allreduceRequest_kept entered fun inPlace => ⟨elements iovec rfl, ?_⟩
    simpa [tooLongInPlace, inPlace] using short
  · exact .ok (.failed guarded _)

theorem rootGatherRequest_kept (guarded : w.Guarded) {recvbuf : Pointer} {recvcount : Int} {recvtype : Iovec} :
    (rootGatherRequest w self turn (recvbuf.loc self) recvcount recvtype).Ensures LeavesGuarded :=
  .bind fun _ _ => rootRequest_kept guarded _ _ _ _ fun _ scratch => absurd scratch (recvbuf.not_scratch self)

theorem rootGathervRequest_kept (guarded : w.Guarded) {recvbuf : Pointer} {recvcounts displs : Nat → Int}
    {recvtype : Iovec} :
    (rootGathervRequest w self turn (recvbuf.loc self) recvcounts displs recvtype).Ensures LeavesGuarded := by
  have entered : (w.setSlot turn { w.slots turn with displs := displs }).Guarded := guarded.setSlot (guarded turn)
  refine .bind fun total _ => rootRequest_kept entered _ _ _ _ fun id => ?_
  exact fun scratch => absurd scratch (recvbuf.not_scratch self)

theorem rootScatterRequest_kept (guarded : w.Guarded) {sendbuf : Pointer} {sendcount : Int} {sendtype : Iovec} :
    (rootScatterRequest w self turn (sendbuf.loc self) sendcount sendtype).Ensures LeavesGuarded :=
  .bind fun _ _ => rootRequest_kept guarded _ _ _ _ fun _ scratch => absurd scratch (sendbuf.not_scratch self)

/-- What the root copies before its request changes no slot. -/
theorem LeavesGuarded.afterCopy {request : World → Outcome (World × Frame)}
    (kept : ∀ mid : World, mid.Guarded → (request mid).Ensures LeavesGuarded) (guarded : w.Guarded) {mid : World}
    (slots : mid.slots = w.slots) : (request mid).Ensures LeavesGuarded :=
  kept mid (guarded.of_slots slots)

/-- Every collective call. -/
theorem Call.enter_kept (vm : ProcessVm) (guarded : w.Guarded) (self : Nat) {call : Call} (reduction : call.Reduction) :
    (call.enter vm w self).Ensures LeavesGuarded := by
  cases call with
  | bcast buf count datatype root comm =>
      refine .ite (.ok (.failed guarded _)) fun _ => .bind fun iovec _ => .claimed guarded fun entered => ?_
      refine .ite (rootRequest_kept entered _ _ _ _ fun _ scratch => absurd scratch (buf.not_scratch self)) fun _ =>
        .ok (memberRequest_kept entered _ _ _ _ fun _ scratch => absurd scratch (buf.not_scratch self))
  | allgather sendbuf sendcount sendtype recvbuf recvcount recvtype comm =>
      exact .ite (.ok (.failed guarded _)) fun _ => .bind fun iovec _ => .bind fun differ _ =>
        .ite (.ok (.failed guarded _)) fun _ => .claimed guarded fun entered => allgatherRequest_kept entered
  | allreduce sendbuf recvbuf count datatype op comm =>
      refine mpiIallreduce_kept guarded fun iovec same => ?_
      subst same
      exact reduction
  | blockingAllreduce sendbuf recvbuf count datatype op comm =>
      show (mpiAllreduce vm w self sendbuf recvbuf count datatype op comm).Ensures _
      unfold mpiAllreduce
      split
      · refine .ite (.ok (.failed guarded _)) fun _ => .ite (.ok ?_) fun _ =>
          mpiIallreduce_kept guarded fun iovec same => ?_
        · refine ⟨guarded.of_slots ?_, fun action impossible => by cases impossible⟩
          split <;> rfl
        · obtain rfl := Option.some.inj same
          exact reduction
      · exact .ok (.failed guarded _)
  | exscan sendbuf recvbuf count datatype op comm =>
      show (mpiIexscan vm w self sendbuf recvbuf count datatype op comm).Ensures _
      unfold mpiIexscan
      split
      · exact .ite (.ok (.failed guarded _)) fun _ => .ite (.ok (.failed guarded _)) fun _ => .claimed guarded
          fun entered => exscanRequest_kept entered reduction
      · exact .ok (.failed guarded _)
  | scan sendbuf recvbuf count datatype op comm =>
      show (mpiIscan vm w self sendbuf recvbuf count datatype op comm).Ensures _
      unfold mpiIscan
      split
      · exact .ite (.ok (.failed guarded _)) fun _ => .ite (.ok (.failed guarded _)) fun _ => .claimed guarded
          fun entered => scanRequest_kept entered reduction
      · exact .ok (.failed guarded _)
  | gather sendbuf sendcount sendtype recvbuf recvcount recvtype root comm =>
      refine .ite (.ok (.failed guarded _)) fun _ => .claimed guarded fun entered => .ite ?_ fun _ =>
        .bind fun iovec _ => .ok (memberRequest_kept entered _ _ _ _ fun _ scratch =>
          absurd scratch (sendbuf.not_scratch self))
      split
      · exact .ok (.failed entered _)
      · refine .bind fun differ _ => .ite (.ok (.failed entered _)) fun _ => ?_
        exact .ite (rootGatherRequest_kept entered) fun _ => .bind fun iovec _ => .bind fun block _ =>
          LeavesGuarded.afterCopy (fun _ copied => rootGatherRequest_kept copied) entered rfl
  | gatherv sendbuf sendcount sendtype recvbuf recvcounts displs recvtype root comm =>
      refine .ite (.ok (.failed guarded _)) fun _ => .claimed guarded fun entered => .ite ?_ fun _ =>
        .bind fun iovec _ => .ok (memberRequest_kept entered _ _ _ _ fun _ scratch =>
          absurd scratch (sendbuf.not_scratch self))
      split
      · refine .bind fun differ _ => .ite (.ok (.failed entered _)) fun _ => ?_
        exact .ite (rootGathervRequest_kept entered) fun _ => .bind fun iovec _ =>
          LeavesGuarded.afterCopy (fun _ copied => rootGathervRequest_kept copied) entered rfl
      · exact .ok (.failed entered _)
  | scatter sendbuf sendcount sendtype recvbuf recvcount recvtype root comm =>
      refine .ite (.ok (.failed guarded _)) fun _ => .claimed guarded fun entered => .ite ?_ fun _ =>
        .bind fun iovec _ => .ok (memberRequest_kept entered _ _ _ _ fun _ scratch =>
          absurd scratch (recvbuf.not_scratch self))
      split
      · exact .ok (.failed entered _)
      · refine .bind fun differ _ => .ite (.ok (.failed entered _)) fun _ => ?_
        exact .ite (rootScatterRequest_kept entered) fun _ => .bind fun iovec _ => .bind fun block _ =>
          LeavesGuarded.afterCopy (fun _ copied => rootScatterRequest_kept copied) entered rfl

end Calls

/-! ### Every run -/

/-- The layouts in the slots and the actions that are left. -/
structure Sys.Guarded (s : Sys) : Prop where
  slots : s.world.Guarded
  cont : ∀ rank, ∀ action ∈ (s.ranks rank).cont, action.Guarded

section Runs

variable {vm : ProcessVm} {program : Program} {s s' : Sys}

theorem Sys.Guarded.init (n : Nat) (mem : Memory) : (Sys.init n mem).Guarded where
  slots := fun _ layout impossible => nomatch impossible
  cont := fun _ action member => by cases member

/-- A step leaves the layouts in the slots and the actions that are left guarded. -/
theorem Sys.Guarded.step (reductions : ∀ rank pos call, program rank pos = some call → call.Reduction)
    (guarded : s.Guarded) {label : Label} (stepped : s.step vm program label = .ok s') : s'.Guarded := by
  cases label with
  | call self =>
      obtain ⟨call, w, frame, _, _, called, entered, rfl⟩ := Sys.step_call stepped
      have kept : LeavesGuarded (w, frame) := Call.enter_kept vm guarded.slots self
        (reductions self _ call called) _ entered
      refine ⟨kept.slots, fun rank action member => ?_⟩
      by_cases own : rank = self
      · subst own
        simp only [Function.update_self, RankState.enter_cont] at member
        exact kept.cont action member
      · simp only [Function.update_of_ne own] at member
        exact guarded.cont rank action member
  | act self =>
      obtain ⟨action, rest, done, todo, performed, rfl⟩ := Sys.step_act stepped
      refine ⟨guarded.slots.of_slots (Action.exec_slots performed), fun rank action' member => ?_⟩
      by_cases own : rank = self
      · subst own
        simp only [Function.update_self] at member
        have later := RankState.mem_of_mem_advance_cont _ _ _ _ member
        exact guarded.cont rank action' (by rw [todo]; exact List.mem_cons_of_mem _ later)
      · simp only [Function.update_of_ne own] at member
        exact guarded.cont rank action' member
  | wait self id =>
      obtain ⟨_, _, _, rfl⟩ := Sys.step_wait stepped
      refine ⟨guarded.slots.of_slots rfl, fun rank action member => ?_⟩
      by_cases own : rank = self
      · subst own
        simp only [Function.update_self, RankState.leave_cont] at member
        exact guarded.cont rank action member
      · simp only [Function.update_of_ne own] at member
        exact guarded.cont rank action member

theorem Sys.Guarded.reaches (reductions : ∀ rank pos call, program rank pos = some call → call.Reduction)
    (guarded : s.Guarded) (run : s.Reaches vm program s') : s'.Guarded := by
  induction run with
  | refl => exact guarded
  | tail label _ stepped ih => exact ih.step reductions stepped

/-- The copies of an allreduce in place. -/
theorem allreduceSteps_stay {w : World} (guarded : w.Guarded) {turn : Nat} {recvbuf : Loc} {count : Int}
    {iovec : Iovec} (short : Guarded iovec count) {op : UmpiOp} {copy : CopyCall}
    (made : .copy copy ∈ allreduceSteps w turn recvbuf count iovec op) (accepted : copy.Accepted) :
    StaysInScratch copy.readBuf copy.source ∧ StaysInScratch copy.writeBuf copy.target := by
  -- all copies write `count` elements of the caller's layout, and read them or the elements that the slot records
  have sides : (copy.writeIovec = iovec ∧ copy.writeCount = count ∧ copy.writeSeek = 0) ∧ copy.readSkip = 0 ∧
      (copy.readIovec = iovec ∧ copy.readCount = count ∨
        (w.slots turn).iovec = some copy.readIovec ∧ copy.readCount = (w.slots turn).count) := by
    unfold allreduceSteps at made
    simp only at made
    split at made
    · simp only [List.mem_singleton, ScratchStep.copy.injEq] at made
      subst made
      exact ⟨⟨rfl, rfl, rfl⟩, rfl, Or.inl ⟨rfl, rfl⟩⟩
    · split at made
      · cases made
      case h_2 layout left =>
        split at made
        · simp only [List.mem_cons, ScratchStep.copy.injEq, List.not_mem_nil, or_false] at made
          rcases made with made | made | made
          · subst made
            exact ⟨⟨rfl, rfl, rfl⟩, rfl, Or.inr ⟨left, rfl⟩⟩
          · cases made
          · subst made
            exact ⟨⟨rfl, rfl, rfl⟩, rfl, Or.inl ⟨rfl, rfl⟩⟩
        · simp only [List.mem_cons, ScratchStep.copy.injEq, List.not_mem_nil, or_false] at made
          rcases made with made | made
          · subst made
            exact ⟨⟨rfl, rfl, rfl⟩, rfl, Or.inr ⟨left, rfl⟩⟩
          · cases made
  obtain ⟨⟨writeIovec, writeCount, writeSeek⟩, readSkip, layout⟩ := sides
  constructor
  · unfold CopyCall.source CopyCall.total
    rw [readSkip]
    rcases layout with ⟨readIovec, readCount⟩ | ⟨readIovec, readCount⟩
    · rw [readIovec, readCount]
      exact fun _ => short.whole copy.readBuf
    · rw [readCount]
      exact fun _ => (guarded turn copy.readIovec readIovec).whole copy.readBuf
  · unfold CopyCall.Accepted at accepted
    unfold CopyCall.target
    rw [writeIovec, writeCount] at accepted
    rw [writeIovec, writeCount, writeSeek]
    have room := sizeT_le (Int.mul_nonneg short.nonneg (by omega : (0 : Int) ≤ iovec.len))
    exact fun _ => short.side copy.writeBuf (fun _ => by omega) (by omega)

end Runs

/-- Whatever ranks do and in whatever order, the parts of the scratch buffers that a step copies from or to end before
    `UMPI_MAX_IN_PLACE_LEN`. -/
theorem reductions_stay_in_scratch {n : Nat} {mem : Memory} {vm : ProcessVm} {program : Program}
    (reductions : ∀ rank pos call, program rank pos = some call → call.Reduction) {s : Sys}
    (run : (Sys.init n mem).Reaches vm program s) {label : Label} {buf : Loc} {side : List Iov}
    (hands : s.Hands program label buf side) : StaysInScratch buf side := by
  have guarded := (Sys.Guarded.init n mem).reaches reductions run
  have layout : ∀ {self call recvbuf count iovec op}, program self (s.ranks self).pos = some call →
      call.InPlace recvbuf count iovec op → tooLongInPlace .inPlace count iovec = false → Guarded iovec count := by
    intro self call recvbuf count iovec op called inPlace short
    have elements : Elements iovec count := by
      have reduction := reductions self _ call called
      rcases inPlace with rfl | rfl <;> exact reduction
    refine ⟨elements, ?_⟩
    simpa [tooLongInPlace] using short
  cases hands with
  | source called inPlace short entered made accepted =>
      obtain ⟨_, rfl, _⟩ := getCurrentSlot_eq_ok entered
      exact (allreduceSteps_stay (guarded.slots.claimed _) (layout called inPlace short) made accepted).1
  | target called inPlace short entered made accepted =>
      obtain ⟨_, rfl, _⟩ := getCurrentSlot_eq_ok entered
      exact (allreduceSteps_stay (guarded.slots.claimed _) (layout called inPlace short) made accepted).2
  | act next hands =>
      have own := guarded.cont _ _ (by rw [next]; exact List.mem_cons_self)
      intro scratch
      cases hands with
      | write evaluated =>
          obtain ⟨rfl, short⟩ := own scratch
          obtain rfl := Outcome.ok.inj evaluated
          exact short.whole buf
      | read evaluated evaluated' counted fits =>
          obtain ⟨rfl, rfl, short⟩ := own scratch
          obtain rfl := Outcome.ok.inj evaluated
          rw [if_neg (not_not.mpr rfl)] at counted
          rw [counted] at fits ⊢
          exact short.asked buf fits
      | readIgnored counted fits => exact absurd scratch own

/-- Three ranks reduce two integers in place. -/
private def reduceThree : Program := fun _ _ =>
  some (.allreduce .inPlace (.addr 0) 2 (some Datatype.mpiInt.iovec) (some { func := fun _ inout => inout }) .world)

/-- Two integers are copied from the first scratch buffer to the second. -/
private def fetchTwo : CopyCall :=
  { readBuf := sendbuf 0, readIovec := Datatype.mpiInt.iovec, readCount := 2, readSkip := 0
    writeBuf := recvbuf 0, writeIovec := Datatype.mpiInt.iovec, writeCount := 2, writeSeek := 0 }

/-- The second of them fetches what the first has left. -/
theorem reductions_stay_in_scratch_second :
    ∃ s, (Sys.init 3 fun _ => 0).Reaches copyingVm reduceThree s ∧
      s.Hands reduceThree (.call 1) (recvbuf 0) (sideIov (recvbuf 0) Datatype.mpiInt.iovec 0 (0 + 2) 8) ∧
      StaysInScratch (recvbuf 0) (sideIov (recvbuf 0) Datatype.mpiInt.iovec 0 (0 + 2) 8) := by
  have reductions : ∀ rank pos call, reduceThree rank pos = some call → call.Reduction := by
    intro rank pos call called
    obtain rfl := Option.some.inj called
    exact ⟨Datatype.mpiInt.wellFormed, by decide, by decide⟩
  obtain ⟨s, run, fetched⟩ : ∃ s, (Sys.init 3 fun _ => 0).Reaches copyingVm reduceThree s ∧
      s.Hands reduceThree (.call 1) fetchTwo.writeBuf fetchTwo.target := by
    refine ⟨_, .tail (.call 0) .refl rfl, ?_⟩
    refine .target rfl (Or.inl rfl) rfl rfl ?_ (by decide)
    exact List.mem_cons_self
  exact ⟨s, run, fetched, reductions_stay_in_scratch reductions run fetched⟩

end Umpi
