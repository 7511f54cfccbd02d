/-
Module: Umpi.Proofs.Effort
Layer: Proofs
Purpose: How many steps calls cost. A collective call may leave a rank with a loop over all cookies of its slot, but
  somebody has paid for each of these cookies when it was put there. What the cookies in the slots, the actions that
  are left and the requests that are held will cost at most is the potential: it grows by a constant with a call, and
  every other step takes at least one off it. This holds in every run, with errors and without.
Imports: Umpi.Proofs.SlotData, Umpi.Proofs.Successes, Umpi.Proofs.Progress
Trusted boundary: none
Main exports: Affordable, Call.enter_affordable, Sys.unspent, Sys.perform_unspent, steps_amortized
Open obligations: none
-/
import Umpi.Proofs.SlotData
import Umpi.Proofs.Successes
import Umpi.Proofs.Progress

namespace Umpi

open Foundation

/-! ### What a call leaves to do -/

/-- A call pays for the cookie it leaves, and for one action; the other actions have been paid for with the cookies
    it takes. -/
def Affordable (turn : Nat) (w : World) (result : World × Frame) : Prop :=
  result.2.cont.length + 4 * (result.1.slots turn).box.length ≤ 4 * (w.slots turn).box.length + 5

section Requests

variable {vm : ProcessVm} {turn self : Nat} {w mid : World} {result : World × Frame}

theorem Affordable.congr (affordable : Affordable turn mid result) (same : (mid.slots turn).box = (w.slots turn).box) :
    Affordable turn w result := by
  unfold Affordable at affordable ⊢
  rwa [same] at affordable

/-- An error. -/
theorem Affordable.failed (same : (mid.slots turn).box = (w.slots turn).box) (ret : Int) :
    Affordable turn w (mid, Frame.failed ret) := by
  simp only [Affordable, Frame.failed, same, List.length_nil]
  omega

/-- A cookie is left in the box. -/
theorem Affordable.created {cookie : Cookie} {frame : Frame}
    (price : frame.cont.length + 4 * (mid.slots turn).box.length ≤ 4 * (w.slots turn).box.length + 1) :
    Affordable turn w ((mid.createInBox self turn cookie).2.unlock turn, frame) := by
  simp only [Affordable, World.unlock, World.createInBox, World.setSlot_slots, World.createRequest_slots,
    Function.update_self, List.length_append, List.length_singleton]
  omega

/-- The slot is left without cookies. -/
theorem Affordable.emptied {frame : Frame} (empty : (mid.slots turn).box = [])
    (price : frame.cont.length ≤ 4 * (w.slots turn).box.length + 5) : Affordable turn w (mid, frame) := by
  simp only [Affordable, empty, List.length_nil]
  omega

/-- A loop that takes each cookie and moves data through it. -/
theorem length_served (transfer : Nat → Action) (todo : List Nat) :
    (todo.flatMap fun id => [.moveToPending id, transfer id]).length = 2 * todo.length := by
  simp [List.length_flatMap, Nat.mul_comm]

theorem memberRequest_affordable (buf : Loc) (iovec : Iovec) (count : Int) (root : Nat) (transfer : Nat → Action) :
    Affordable turn w (memberRequest w self turn buf iovec count root transfer) := by
  unfold memberRequest
  split
  case h_1 id _ =>
    have shorter : ((w.slots turn).box.erase id).length ≤ (w.slots turn).box.length := List.length_erase_le
    simp only [Affordable, World.unlock, World.setSlot_slots, Function.update_self, Frame.done, List.length_singleton]
    split
    · simp only [World.setBox, World.setSlot_slots, Function.update_self, World.join_slots]
      omega
    · simp only [World.join_slots]
      omega
  case h_2 => exact .created (by simp [Frame.done])

theorem rootRequest_affordable (buf : Loc) (iovec : Iovec) (size count : Int) (transfer : Nat → Action) :
    (rootRequest w self turn buf iovec size count transfer).Ensures (Affordable turn w) := by
  have served := length_served transfer (w.slots turn).box
  unfold rootRequest
  dsimp only
  split
  case isTrue =>
    split
    case h_1 => exact .ok (.emptied (by simp [World.unlock, World.setBox]) (by dsimp only; omega))
    case h_2 => exact .undefined _
  case isFalse =>
    refine .ok (.created ?_)
    simp only [served, World.setBox, World.setSlot_slots, Function.update_self, List.length_nil]
    omega

theorem rootGatherRequest_affordable (recvbuf : Loc) (recvcount : Int) (recvtype : Iovec) :
    (rootGatherRequest w self turn recvbuf recvcount recvtype).Ensures (Affordable turn w) :=
  .bind fun _ _ => rootRequest_affordable _ _ _ _ _

theorem rootGathervRequest_affordable (recvbuf : Loc) (recvcounts displs : Nat → Int) (recvtype : Iovec) :
    (rootGathervRequest w self turn recvbuf recvcounts displs recvtype).Ensures (Affordable turn w) := by
  refine .bind fun total _ result requested => ?_
  refine Affordable.congr (rootRequest_affordable _ _ _ _ _ result requested) ?_
  simp

theorem rootScatterRequest_affordable (sendbuf : Loc) (sendcount : Int) (sendtype : Iovec) :
    (rootScatterRequest w self turn sendbuf sendcount sendtype).Ensures (Affordable turn w) :=
  .bind fun _ _ => rootRequest_affordable _ _ _ _ _

theorem length_allgatherSpread (recvbuf : Loc) (recvtype : Iovec) (size : Int) (todo : List Nat) :
    (allgatherSpread recvbuf recvtype size todo).length = 2 * todo.length := by
  cases todo with
  | nil => rfl
  | cons root others =>
      have served := length_served (fun id => .writeToOwner id recvbuf recvtype size (.elems 0) (.elems 0)) others
      simp only [allgatherSpread, List.length_cons, served]
      omega

theorem allgatherRequest_affordable {sendbuf : Pointer} {recvbuf : Loc} {sendcount recvcount : Int}
    {sendtype : MpiDatatype} {recvtype : Iovec} :
    (allgatherRequest vm w self turn sendbuf sendcount sendtype recvbuf recvcount recvtype).Ensures
      (Affordable turn w) := by
  have spread := length_allgatherSpread recvbuf recvtype
  unfold allgatherRequest
  refine .ite ?_ fun _ => ?_
  · refine .bind fun mid first => .bind fun size _ => .ok (.created ?_)
    have same : mid.slots = w.slots := by
      unfold allgatherFirst at first
      split at first
      · rw [Outcome.ok.inj first]
      · obtain ⟨_, _, rest⟩ := Outcome.bind_eq_ok.mp first
        obtain ⟨_, _, copied⟩ := Outcome.bind_eq_ok.mp rest
        rw [← Outcome.ok.inj copied]
        rfl
    simp [same, Frame.done]
  · split
    · exact .undefined _
    · refine .bind fun done contributed => ?_
      obtain ⟨_, same⟩ : Within turn w done.world ∧ done.world.slots = w.slots :=
        allgatherContribute_within done contributed
      refine .ite (.ok (.failed (by rw [same]) _)) fun _ => .ite ?_ fun _ => ?_
      · exact .bind fun size _ => .ok (.created (by simp [same, Frame.done]))
      · refine .bind fun size _ => .ok (.emptied (by simp [World.unlock, World.setBox]) ?_)
        simp only [spread, same]
        omega

theorem allreduceAccumulate_box {sendbuf : Pointer} {recvbuf : Loc} {count : Int} {iovec : Iovec} {op : UmpiOp} :
    (allreduceAccumulate vm w self turn sendbuf recvbuf count iovec op).Ensures fun result =>
      (result.1.slots turn).box = (w.slots turn).box := by
  unfold allreduceAccumulate
  dsimp only
  refine .ite (.ite (.ok ?_) fun _ => .ite (.bind fun layout _ => .ok ?_) fun _ => .bind fun layout _ => .ok ?_)
    fun _ => .ite (.ok ?_) fun _ => ?_
  · simp [World.copy]
  · simp [World.copy, World.reduce]
  · rfl
  · rfl
  · split
    · exact .undefined _
    · refine .bind fun done read => ?_
      have same : done.world.slots = w.slots := (readFromOwner_touches read).slots
      refine .ite (.ok ?_) fun _ => .ok ?_
      · simp only [same]
      · simp only [World.reduce, same]

theorem allreduceRequest_affordable {sendbuf : Pointer} {recvbuf : Loc} {count : Int} {iovec : Iovec}
    {op : UmpiOp} :
    (allreduceRequest vm w self turn sendbuf recvbuf count iovec op).Ensures (Affordable turn w) := by
  refine .bind fun result accumulated => ?_
  have same : (result.1.slots turn).box = (w.slots turn).box := allreduceAccumulate_box result accumulated
  refine .ite (.ok (.failed same _)) fun _ => .ite (.ok (.created (by simp [same, Frame.done]))) fun _ => ?_
  dsimp only
  split
  · exact .undefined _
  · refine .ok (.emptied (by simp [World.unlock, World.setBox]) ?_)
    have served := length_served (fun id => .writeToOwner id recvbuf iovec count (.elems 0) (.elems 0))
      (result.1.slots turn).box
    rw [same] at served
    simp only [same, served]
    omega

theorem length_exscanLoop_le (turn : Nat) (count : Int) (iovec : Iovec) (op : UmpiOp) (todo : List Nat) :
    (exscanLoop turn count iovec op todo).length ≤ 4 * todo.length := by
  induction todo with
  | nil => exact Nat.zero_le _
  | cons id rest ih =>
      simp only [exscanLoop, List.length_append, List.length_cons, List.length_nil]
      split
      · simp only [List.length_nil]
        omega
      · simp only [List.length_cons, List.length_nil]
        omega

theorem length_scanLoop (turn : Nat) (count : Int) (iovec : Iovec) (op : UmpiOp) (todo : List Nat) :
    (scanLoop turn count iovec op todo).length = 4 * todo.length := by
  simp [scanLoop, List.length_flatMap, Nat.mul_comm]

/-- The last rank of a scan takes the cookies of all, its own among them. -/
theorem climb_affordable {cookie : Cookie} {count : Int} {iovec : Iovec} {loop : List Nat → List Action}
    (same : (mid.slots turn).box = (w.slots turn).box) (cheap : ∀ todo, (loop todo).length ≤ 4 * todo.length) :
    (if ¬ (mid.createInBox self turn cookie).2.joinedLast turn = true then
        .ok ((mid.createInBox self turn cookie).2.unlock turn, Frame.done (mid.createInBox self turn cookie).1 [])
      else ladder (mid.createInBox self turn cookie).2 turn (mid.createInBox self turn cookie).1 count iovec
        loop).Ensures (Affordable turn w) := by
  refine .ite (.ok (.created (by simp [same, Frame.done]))) fun _ => ?_
  have grown : ((mid.createInBox self turn cookie).2.slots turn).box.length = (w.slots turn).box.length + 1 := by
    simp [World.createInBox, same]
  unfold ladder
  dsimp only
  split
  · exact .undefined _
  case h_2 first rest sorted =>
    have count := congrArg List.length sorted
    rw [List.length_mergeSort, grown, List.length_cons] at count
    have loops := cheap rest
    refine .ok (.emptied (by simp [World.unlock, World.setBox]) ?_)
    simp only [List.length_cons]
    omega

theorem exscanRequest_affordable {sendbuf : Pointer} {recvbuf : Loc} {count : Int} {iovec : Iovec} {op : UmpiOp} :
    (exscanRequest vm w self turn sendbuf recvbuf count iovec op).Ensures (Affordable turn w) := by
  refine .ite (.ok (.failed rfl _)) fun _ => climb_affordable ?_ (length_exscanLoop_le _ _ _ _)
  split <;> rfl

theorem scanRequest_affordable {sendbuf : Pointer} {recvbuf : Loc} {count : Int} {iovec : Iovec} {op : UmpiOp} :
    (scanRequest vm w self turn sendbuf recvbuf count iovec op).Ensures (Affordable turn w) := by
  refine .ite (.ok (.failed rfl _)) fun _ => climb_affordable ?_ fun todo => (length_scanLoop _ _ _ _ todo).le
  split <;> rfl

/-- What is left to show once the slot has been claimed: claiming leaves its box alone. -/
theorem Affordable.claimed {next : Nat × World → Outcome (World × Frame)}
    (affordable : (next (w.turnOf self, w.claimed self)).Ensures (Affordable (w.turnOf self) (w.claimed self))) :
    (w.getCurrentSlot self >>= next).Ensures (Affordable (w.turnOf self) w) := by
  refine .bind fun value entered => ?_
  obtain ⟨turn, claimed⟩ := value
  obtain ⟨rfl, rfl, _, _⟩ := getCurrentSlot_eq_ok entered
  refine fun result returned => (affordable result returned).congr ?_
  simp [World.claimed, World.turnOf]

theorem Affordable.rejected (turn : Nat) (w : World) (ret : Int) : Affordable turn w (w, Frame.failed ret) :=
  .failed rfl ret

theorem mpiIallreduce_affordable {sendbuf recvbuf : Pointer} {count : Int} {datatype : MpiDatatype}
    {op : Option UmpiOp} {comm : MpiComm} :
    (mpiIallreduce vm w self sendbuf recvbuf count datatype op comm).Ensures (Affordable (w.turnOf self) w) := by
  unfold mpiIallreduce
  split
  · exact .ite (.ok (.rejected ..)) fun _ => .ite (.ok (.rejected ..)) fun _ =>
      .claimed allreduceRequest_affordable
  · exact .ok (.rejected ..)

/-- Every collective call. -/
theorem Call.enter_affordable (vm : ProcessVm) (w : World) (self : Nat) (call : Call) :
    (call.enter vm w self).Ensures (Affordable (w.turnOf self) w) := by
  cases call with
  | bcast buf count datatype root comm =>
      exact .ite (.ok (.rejected ..)) fun _ => .bind fun iovec _ => .claimed
        (.ite (rootRequest_affordable _ _ _ _ _) fun _ => .ok (memberRequest_affordable ..))
  | allgather sendbuf sendcount sendtype recvbuf recvcount recvtype comm =>
      exact .ite (.ok (.rejected ..)) fun _ => .bind fun iovec _ => .bind fun differ _ =>
        .ite (.ok (.rejected ..)) fun _ => .claimed allgatherRequest_affordable
  | allreduce => exact mpiIallreduce_affordable
  | blockingAllreduce sendbuf recvbuf count datatype op comm =>
      show (mpiAllreduce vm w self sendbuf recvbuf count datatype op comm).Ensures _
      unfold mpiAllreduce
      split
      · refine .ite (.ok (.rejected ..)) fun _ => .ite (.ok ?_) fun _ => mpiIallreduce_affordable
        simp only [Affordable, List.length_nil]
        split <;> simp [World.copy]
      · exact .ok (.rejected ..)
  | exscan sendbuf recvbuf count datatype op comm =>
      show (mpiIexscan vm w self sendbuf recvbuf count datatype op comm).Ensures _
      unfold mpiIexscan
      split
      · exact .ite (.ok (.rejected ..)) fun _ => .ite (.ok (.rejected ..)) fun _ =>
          .claimed exscanRequest_affordable
      · exact .ok (.rejected ..)
  | scan sendbuf recvbuf count datatype op comm =>
      show (mpiIscan vm w self sendbuf recvbuf count datatype op comm).Ensures _
      unfold mpiIscan
      split
      · exact .ite (.ok (.rejected ..)) fun _ => .ite (.ok (.rejected ..)) fun _ =>
          .claimed scanRequest_affordable
      · exact .ok (.rejected ..)
  | gather sendbuf sendcount sendtype recvbuf recvcount recvtype root comm =>
      refine .ite (.ok (.rejected ..)) fun _ => .claimed (.ite ?_ fun _ =>
        .bind fun iovec _ => .ok (memberRequest_affordable ..))
      split
      · exact .ok (.rejected ..)
      · refine .bind fun differ _ => .ite (.ok (.rejected ..)) fun _ => ?_
        refine .ite (rootGatherRequest_affordable _ _ _) fun _ => .bind fun iovec _ => .bind fun block _ => ?_
        exact fun result requested => Affordable.congr (rootGatherRequest_affordable _ _ _ result requested) rfl
  | gatherv sendbuf sendcount sendtype recvbuf recvcounts displs recvtype root comm =>
      refine .ite (.ok (.rejected ..)) fun _ => .claimed (.ite ?_ fun _ =>
        .bind fun iovec _ => .ok (memberRequest_affordable ..))
      split
      · refine .bind fun differ _ => .ite (.ok (.rejected ..)) fun _ => ?_
        refine .ite (rootGathervRequest_affordable _ _ _ _) fun _ => .bind fun iovec _ => ?_
        exact fun result requested => Affordable.congr (rootGathervRequest_affordable _ _ _ _ result requested) rfl
      · exact .ok (.rejected ..)
  | scatter sendbuf sendcount sendtype recvbuf recvcount recvtype root comm =>
      refine .ite (.ok (.rejected ..)) fun _ => .claimed (.ite ?_ fun _ =>
        .bind fun iovec _ => .ok (memberRequest_affordable ..))
      split
      · exact .ok (.rejected ..)
      · refine .bind fun differ _ => .ite (.ok (.rejected ..)) fun _ => ?_
        refine .ite (rootScatterRequest_affordable _ _ _) fun _ => .bind fun iovec _ => .bind fun block _ => ?_
        exact fun result requested => Affordable.congr (rootScatterRequest_affordable _ _ _ result requested) rfl

end Requests

/-! ### The potential -/

/-- The cookies in the boxes of all slots. -/
def World.boxed (w : World) : Nat :=
  ∑ turn ∈ Finset.range umpiOutstandingCollectiveOperations, (w.slots turn).box.length

/-- The steps a rank has before it without another call. -/
def RankState.load (rank : RankState) : Nat := rank.cont.length + rank.requests.length

/-- What has been paid for and not been spent, as far as the first `count` ranks are concerned. -/
def Sys.unspent (count : Nat) (s : Sys) : Nat := 4 * s.world.boxed + ∑ rank ∈ Finset.range count, (s.ranks rank).load

/-- A collective call. -/
def Event.isCall : Event → Bool
  | collective (.call _) => true
  | _ => false

/-- A point-to-point call. -/
def Event.isPost : Event → Bool
  | recv _ _ _ _ _ _ _ | send _ _ _ _ _ _ _ => true
  | _ => false

def Event.isTest : Event → Bool
  | test _ _ => true
  | _ => false

/-- What an event pays for, itself included. -/
def Event.charge (event : Event) : Nat :=
  (if event.isCall then 7 else 0) + (if event.isPost then 3 else 0) + if event.isTest then 1 else 0

section Potential

open Sys

variable {vm : ProcessVm} {program : Program} {w w' : World} {s s' : Sys} {self count : Nat}

theorem World.boxed_congr (same : ∀ turn, (w'.slots turn).box = (w.slots turn).box) : w'.boxed = w.boxed :=
  Finset.sum_congr rfl fun turn _ => congrArg List.length (same turn)

/-- Only one box has changed. -/
theorem World.boxed_of_slot {turn : Nat} (valid : turn < umpiOutstandingCollectiveOperations)
    (others : ∀ other ≠ turn, (w'.slots other).box = (w.slots other).box) :
    w'.boxed + (w.slots turn).box.length = w.boxed + (w'.slots turn).box.length := by
  have member : turn ∈ Finset.range umpiOutstandingCollectiveOperations := Finset.mem_range.mpr valid
  have rest : ∑ other ∈ (Finset.range umpiOutstandingCollectiveOperations).erase turn, (w'.slots other).box.length =
      ∑ other ∈ (Finset.range umpiOutstandingCollectiveOperations).erase turn, (w.slots other).box.length :=
    Finset.sum_congr rfl fun other listed => congrArg List.length (others other (Finset.ne_of_mem_erase listed))
  unfold World.boxed
  rw [← Finset.add_sum_erase _ _ member, ← Finset.add_sum_erase _ _ member, rest]
  omega

/-- Only the caller's own state counts. -/
theorem Sys.unspent_of_update {state : RankState} {charge : Nat} (among : self < count)
    (ranks : s'.ranks = Function.update s.ranks self state)
    (spent : 4 * s'.world.boxed + state.load + 1 ≤ 4 * s.world.boxed + (s.ranks self).load + charge) :
    s'.unspent count + 1 ≤ s.unspent count + charge := by
  have total := sum_update RankState.load s.ranks among state
  unfold Sys.unspent
  rw [ranks]
  omega

theorem RankState.load_enter_le (rank : RankState) (idle : rank.cont = []) (frame : Frame) :
    (rank.enter frame).load ≤ rank.load + frame.cont.length + 1 := by
  have single : frame.request.toList.length ≤ 1 := by cases frame.request <;> simp
  simp only [RankState.load, RankState.enter, idle, List.length_append, List.length_nil]
  omega

theorem RankState.load_advance_lt {rank : RankState} {action : Action} {rest : List Action}
    (todo : rank.cont = action :: rest) (moved : List Nat) (ret : Int) :
    (rank.advance moved rest ret).load < rank.load := by
  simp only [RankState.load, todo, List.length_cons, RankState.advance]
  split
  · simp
  · split
    · simp
    · dsimp only
      omega

theorem Sys.unspent_leave {id charge : Nat} (among : self < count) (listed : id ∈ (s.ranks self).requests) :
    (s.leave self id).unspent count + 1 ≤ s.unspent count + charge := by
  have same : (s.leave self id).world.boxed = s.world.boxed :=
    World.boxed_congr fun turn => by simp [Sys.leave, World.finalize]
  refine Sys.unspent_of_update among rfl ?_
  have fewer := List.length_erase_of_mem listed
  have some := List.length_pos_of_mem listed
  rw [same]
  simp only [RankState.load, RankState.leave]
  omega

/-- What a point-to-point call leaves to do: one action at most, and no cookie in a slot. -/
def Brief (w : World) (called : World × Frame) : Prop :=
  called.1.size = w.size ∧ called.1.slots = w.slots ∧ called.2.cont.length ≤ 1

theorem mpiIrecv_brief {buf : Pointer} {count : Int} {datatype : MpiDatatype} {source tag : Int}
    {comm : MpiComm} : Brief w (mpiIrecv w self buf count datatype source tag comm) := by
  unfold mpiIrecv
  split
  · exact ⟨rfl, rfl, Nat.zero_le _⟩
  · split
    · exact ⟨rfl, rfl, Nat.zero_le _⟩
    · unfold recvRequest
      dsimp only
      split
      · exact ⟨rfl, rfl, le_rfl⟩
      · exact ⟨by simp, by simp, Nat.zero_le _⟩

theorem mpiIssend_brief {buf : Pointer} {count : Int} {datatype : MpiDatatype} {dest tag : Int}
    {comm : MpiComm} : Brief w (mpiIssend w self buf count datatype dest tag comm) := by
  unfold mpiIssend
  split
  · exact ⟨rfl, rfl, Nat.zero_le _⟩
  · split
    · exact ⟨rfl, rfl, Nat.zero_le _⟩
    · unfold sendRequest
      dsimp only
      split
      · exact ⟨rfl, rfl, le_rfl⟩
      · exact ⟨by simp, by simp, Nat.zero_le _⟩

theorem Sys.unspent_post {called : World × Frame} (among : self < count) (posted : s.post self called = .ok s')
    (brief : Brief s.world called) :
    s'.unspent count + 1 ≤ s.unspent count + 3 := by
  obtain ⟨valid, idle, rfl⟩ := post_cases posted
  obtain ⟨_, slots, short⟩ := brief
  refine Sys.unspent_of_update among rfl ?_
  have same : called.1.boxed = s.world.boxed := World.boxed_congr fun turn => by rw [slots]
  have load : ((s.ranks self).post called.2).load = ((s.ranks self).enter called.2).load := rfl
  have grown := (s.ranks self).load_enter_le idle called.2
  dsimp only
  rw [same, load]
  omega

/-- Every event takes one off the potential, after it has paid for what it adds. -/
theorem Sys.perform_unspent {event : Event} (performed : s.perform vm program event = .ok s')
    (among : event.caller < count) : s'.unspent count + 1 ≤ s.unspent count + event.charge := by
  cases event with
  | collective label =>
      have stepped : s.step vm program label = .ok s' := performed
      cases label with
      | call self =>
          obtain ⟨call, w, frame, valid, idle, listed, entered, rfl⟩ := step_call stepped
          have affordable := call.enter_affordable vm s.world self _ entered
          have others : ∀ other ≠ s.world.turnOf self, (w.slots other).box = (s.world.slots other).box := by
            intro other different
            rcases call.enter_entry vm s.world self _ entered with ⟨_, _, slots, _⟩ | ⟨_, _, leaves⟩
            · rw [slots]
            · rw [leaves.within.others other different, claimed_slots_of_ne _ _ different]
          have inRange : s.world.turnOf self < umpiOutstandingCollectiveOperations := Nat.mod_lt _ (by decide)
          have boxed := World.boxed_of_slot inRange others
          have grown := (s.ranks self).load_enter_le idle frame
          unfold Affordable at affordable
          have own : self < count := among
          have charge : (Event.collective (.call self)).charge = 7 := rfl
          refine Sys.unspent_of_update own rfl ?_
          dsimp only at affordable ⊢
          omega
      | act self =>
          obtain ⟨action, rest, done, todo, acted, rfl⟩ := step_act stepped
          have same : done.world.boxed = s.world.boxed := by
            rcases Action.exec_cases acted with ⟨id, _, moved, _⟩ | ⟨_, midway⟩
            · exact World.boxed_congr fun turn => by simp [moved, World.moveToPending]
            · refine World.boxed_congr fun turn => ?_
              have control := congrArg Collect.box (midway.slots turn)
              exact control
          have fewer := RankState.load_advance_lt todo action.moved done.ret
          have own : self < count := among
          refine Sys.unspent_of_update own rfl ?_
          dsimp only
          rw [same]
          omega
      | wait self id =>
          obtain ⟨_, listed, _, rfl⟩ := step_wait stepped
          have own : self < count := among
          exact Sys.unspent_leave own listed
  | recv self buf count datatype source tag comm => exact Sys.unspent_post among performed mpiIrecv_brief
  | send self buf count datatype dest tag comm => exact Sys.unspent_post among performed mpiIssend_brief
  | test self id =>
      simp only [Sys.perform] at performed
      split at performed
      case isTrue possible =>
        split at performed
        · obtain rfl := Outcome.ok.inj performed
          exact le_rfl
        · obtain rfl := Outcome.ok.inj performed
          exact Sys.unspent_leave among possible.2
      case isFalse => cases performed

/-- Along a run, whatever has been paid for is either spent or left. -/
theorem Sys.Runs.length_le {origin : Sys} {history : List (Sys × Event)} (run : Runs vm program origin history s)
    (among : ∀ entry ∈ history, entry.2.caller < count) :
    history.length + s.unspent count ≤ origin.unspent count + (history.map fun entry => entry.2.charge).sum := by
  induction run with
  | refl => simp
  | tail event _ performed ih =>
      have earlier := ih fun entry listed => among entry (List.mem_cons_of_mem _ listed)
      have paid := Sys.perform_unspent performed (among _ List.mem_cons_self)
      rw [List.length_cons, List.map_cons, List.sum_cons]
      dsimp only
      omega

/-- Nobody comes or goes. -/
theorem Sys.perform_size {event : Event} (performed : s.perform vm program event = .ok s') :
    s'.world.size = s.world.size := by
  have posts : ∀ {self : Nat} {called : World × Frame}, s.post self called = .ok s' → Brief s.world called →
      s'.world.size = s.world.size := by
    intro self called posted brief
    obtain ⟨_, _, rfl⟩ := post_cases posted
    exact brief.1
  cases event with
  | collective label =>
      have stepped : s.step vm program label = .ok s' := performed
      exact step_size stepped
  | recv self buf count datatype source tag comm => exact posts performed mpiIrecv_brief
  | send self buf count datatype dest tag comm => exact posts performed mpiIssend_brief
  | test self id =>
      simp only [Sys.perform] at performed
      split at performed
      · split at performed <;> obtain rfl := Outcome.ok.inj performed <;> rfl
      · cases performed

/-- The calls of a run are those the ranks have made. -/
theorem Sys.Runs.calls_eq {n : Nat} {mem : Memory} {history : List (Sys × Event)}
    (run : Runs vm program (Sys.init n mem) history s) :
    s.world.size = n ∧
      history.countP (fun entry => entry.2.isCall) = ∑ rank ∈ Finset.range n, (s.ranks rank).pos := by
  induction run with
  | refl => exact ⟨rfl, by simp [Sys.init, RankState.new]⟩
  | @tail history s s' event before performed ih =>
      obtain ⟨size, calls⟩ := ih
      refine ⟨(Sys.perform_size performed).trans size, ?_⟩
      rw [List.countP_cons, calls]
      by_cases isCall : ∃ self, event = .collective (.call self)
      · obtain ⟨self, rfl⟩ := isCall
        have stepped : s.step vm program (.call self) = .ok s' := performed
        obtain ⟨call, w, frame, valid, _, _, _, rfl⟩ := step_call stepped
        rw [size] at valid
        have total := sum_update RankState.pos s.ranks valid ((s.ranks self).enter frame)
        have next : ((s.ranks self).enter frame).pos = (s.ranks self).pos + 1 := rfl
        dsimp only at total ⊢
        simp only [Event.isCall, if_true]
        omega
      · have none : event.isCall = false := by
          cases event with
          | collective label =>
              cases label with
              | call self => exact absurd ⟨self, rfl⟩ isCall
              | act => rfl
              | wait => rfl
          | recv => rfl
          | send => rfl
          | test => rfl
        simp only [none, Bool.false_eq_true, if_false, Nat.add_zero]
        refine Finset.sum_congr rfl fun rank _ => ?_
        rcases Sys.perform_pos performed rank with same | ⟨rfl, _⟩
        · exact same.symm
        · exact absurd ⟨rank, rfl⟩ isCall

end Potential

/-- In every run whatever, with errors or without, of ranks that agree on their calls or do not: there are at most
    seven steps for each collective call, three for each point-to-point call and one for each test. So ranks that have
    only so many calls to make do not go on for ever. -/
theorem steps_amortized {vm : ProcessVm} {program : Program} {n : Nat} {mem : Memory} {history : List (Sys × Event)}
    {s : Sys} (run : Sys.Runs vm program (Sys.init n mem) history s) :
    history.length ≤ 7 * history.countP (fun entry => entry.2.isCall) +
        3 * history.countP (fun entry => entry.2.isPost) + history.countP (fun entry => entry.2.isTest) ∧
      ∀ length, (∀ rank < n, program rank length = none) →
        history.countP (fun entry => entry.2.isCall) ≤ n * length := by
  constructor
  · obtain ⟨count, among⟩ : ∃ count, ∀ entry ∈ history, entry.2.caller < count := by
      refine ⟨(history.map fun entry => entry.2.caller).sum + 1, fun entry listed => Nat.lt_succ_of_le ?_⟩
      exact List.single_le_sum (fun _ _ => Nat.zero_le _) _ (List.mem_map_of_mem listed)
    have spent := run.length_le among
    have start : (Sys.init n mem).unspent count = 0 := by
      simp [Sys.unspent, World.boxed, Sys.init, World.start, RankState.load, RankState.new, Collect.new]
    have charged : (history.map fun entry => entry.2.charge).sum =
        7 * history.countP (fun entry => entry.2.isCall) + 3 * history.countP (fun entry => entry.2.isPost) +
          history.countP (fun entry => entry.2.isTest) := by
      clear run among spent
      induction history with
      | nil => rfl
      | cons entry history ih =>
          rw [List.map_cons, List.sum_cons, ih, List.countP_cons, List.countP_cons, List.countP_cons, Event.charge]
          split <;> split <;> split <;> omega
    omega
  · intro length ended
    rw [run.calls_eq.2]
    calc ∑ rank ∈ Finset.range n, (s.ranks rank).pos
      _ ≤ ∑ _rank ∈ Finset.range n, length := by
        refine Finset.sum_le_sum fun rank listed => ?_
        by_contra further
        exact run.called (fun _ => rfl) rank length (Nat.lt_of_not_le further)
          (ended rank (Finset.mem_range.mp listed))
      _ = n * length := by rw [Finset.sum_const, Finset.card_range, Nat.nsmul_eq_mul]

/-- A broadcast of a character to one other rank: two calls, and five steps. -/
theorem steps_amortized_bcastChar :
    ∃ history s, Sys.Runs copyingVm (once bcastChar) (Sys.init 2 fun _ => 0) history s ∧ history.length = 5 ∧
      (history.length ≤ 7 * history.countP (fun entry => entry.2.isCall) +
          3 * history.countP (fun entry => entry.2.isPost) + history.countP (fun entry => entry.2.isTest) ∧
        ∀ length, (∀ rank < 2, once bcastChar rank length = none) →
          history.countP (fun entry => entry.2.isCall) ≤ 2 * length) := by
  have runs : ∃ history s, Sys.Runs copyingVm (once bcastChar) (Sys.init 2 fun _ => 0) history s ∧
      history.length = 5 :=
    ⟨_, _, .tail (.collective (.wait 1 0)) (.tail (.collective (.wait 0 0)) (.tail (.collective (.act 1))
      (.tail (.collective (.call 1)) (.tail (.collective (.call 0)) .refl (by rfl)) (by rfl)) (by rfl)) (by rfl))
      (by rfl), rfl⟩
  obtain ⟨history, s, run, five⟩ := runs
  exact ⟨history, s, run, five, steps_amortized run⟩

end Umpi
