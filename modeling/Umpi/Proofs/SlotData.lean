/-
Module: Umpi.Proofs.SlotData
Layer: Proofs
Purpose: When the data of a slot belongs to one operation at a time. A slot counts as idle when its box is empty,
  while the ranks that joined last may still have to read `displs_` or to work in the scratch buffers. If every
  rank that finds the slot idle also finds that nobody has such an access left, the accesses to a slot are made in
  the order of its operations, whatever calls the ranks make and whatever fails. Otherwise they are not.
Imports: Umpi.Model.SlotData, Umpi.Proofs.Ledger, Umpi.Proofs.Gatherv
Trusted boundary: none
Main exports: Within, Leaves, Call.enter_entry, Turnover, slot_data_exclusive, slot_data_shared
Open obligations: none
-/
import Umpi.Model.SlotData
import Umpi.Proofs.Ledger
import Umpi.Proofs.Gatherv

namespace Umpi

open Foundation

/-! ### How a call leaves its slot, whatever it finds there -/

/-- Only the data, the box, the record and the mutex of the slot `turn` may have changed. -/
structure Within (turn : Nat) (w w' : World) : Prop where
  size : w'.size = w.size
  ticket : w'.ticket = w.ticket
  others : ∀ other ≠ turn, w'.slots other = w.slots other
  joined : (w'.slots turn).joined = (w.slots turn).joined
  slotTicket : (w'.slots turn).ticket = (w.slots turn).ticket

namespace Within

variable {turn self id : Nat} {w w' w'' : World}

theorem refl (turn : Nat) (w : World) : Within turn w w := ⟨rfl, rfl, fun _ _ => rfl, rfl, rfl⟩

theorem trans (first : Within turn w w') (second : Within turn w' w'') : Within turn w w'' where
  size := second.size.trans first.size
  ticket := second.ticket.trans first.ticket
  others := fun other different => (second.others other different).trans (first.others other different)
  joined := second.joined.trans first.joined
  slotTicket := second.slotTicket.trans first.slotTicket

/-- Most functions do not touch slots. -/
theorem of_slots (size : w'.size = w.size) (ticket : w'.ticket = w.ticket) (slots : w'.slots = w.slots) :
    Within turn w w' where
  size := size
  ticket := ticket
  others := fun _ _ => by rw [slots]
  joined := by rw [slots]
  slotTicket := by rw [slots]

/-- Those that do touch the slot of the call. -/
theorem setSlot {slot : Collect} (joined : slot.joined = (w.slots turn).joined)
    (ticket : slot.ticket = (w.slots turn).ticket) : Within turn w (w.setSlot turn slot) where
  size := rfl
  ticket := rfl
  others := fun other different => by simp [different]
  joined := by simp [joined]
  slotTicket := by simp [ticket]

theorem unlock (turn : Nat) (w : World) : Within turn w (w.unlock turn) := setSlot rfl rfl

theorem setBox (turn : Nat) (w : World) (box : List Nat) : Within turn w (w.setBox turn box) := setSlot rfl rfl

theorem createInBox (w : World) (self turn : Nat) (cookie : Cookie) :
    Within turn w (w.createInBox self turn cookie).2 :=
  (of_slots (World.createRequest_size ..) (World.createRequest_ticket ..) (World.createRequest_slots ..)).trans
    (setSlot rfl rfl)

theorem of_touches (touches : Touches id w w') : Within turn w w' :=
  of_slots touches.size touches.ticket touches.slots

/-- The last rank takes all cookies, joins one of them and lets the slot go. -/
theorem takeAll (turn : Nat) (w : World) (id : Nat) :
    Within turn w (((w.setBox turn []).join id).unlock turn) :=
  have joins : Within turn w ((w.setBox turn []).join id) := (setBox turn w []).trans (of_slots rfl rfl rfl)
  joins.trans (.unlock turn _)

end Within

/-- After a call the slot is still held, or somebody else can see that it is in use, or everybody has joined. What
    the call still has to do concerns its own slot. -/
structure Leaves (turn : Nat) (w : World) (result : World × Frame) : Prop where
  within : Within turn w result.1
  marked : (result.1.slots turn).mutex = none →
    (result.1.slots turn).box ≠ [] ∨ (w.slots turn).joined = w.size
  own : ∀ action ∈ result.2.cont, ∀ access ∈ action.accesses, access.turn = turn

/-- What holds of the result of an operation that returns. -/
def Outcome.Ensures {α : Type} (outcome : Outcome α) (post : α → Prop) : Prop :=
  ∀ value, outcome = .ok value → post value

namespace Outcome.Ensures

variable {α β : Type} {post : β → Prop}

theorem ok {value : β} (holds : post value) : (Outcome.ok value).Ensures post := by
  intro result same
  obtain rfl := Outcome.ok.inj same
  exact holds

theorem undefined (fault : Fault) : (Outcome.undefined fault : Outcome β).Ensures post := by
  intro result same
  cases same

theorem bind {first : Outcome α} {next : α → Outcome β}
    (ensures : ∀ value, first = .ok value → (next value).Ensures post) : (first >>= next).Ensures post := by
  intro result same
  obtain ⟨value, returned, rest⟩ := Outcome.bind_eq_ok.mp same
  exact ensures value returned result rest

theorem ite {condition : Prop} [Decidable condition] {yes no : Outcome β} (left : yes.Ensures post)
    (right : ¬ condition → no.Ensures post) : (if condition then yes else no).Ensures post := by
  split
  case isTrue => exact left
  case isFalse otherwise => exact right otherwise

end Outcome.Ensures

section Leaving

variable {vm : ProcessVm} {turn self : Nat} {w : World}

/-- The buffers of a rank are not in a slot. -/
@[simp] theorem Pointer.access_loc (pointer : Pointer) (self : Nat) (writes : Bool) :
    (pointer.loc self).access writes = [] := by
  cases pointer <;> rfl

@[simp] theorem access_sendbuf (turn : Nat) (writes : Bool) :
    (sendbuf turn).access writes = [{ turn := turn, field := .sendbuf, writes := writes }] := rfl

@[simp] theorem access_recvbuf (turn : Nat) (writes : Bool) :
    (recvbuf turn).access writes = [{ turn := turn, field := .recvbuf, writes := writes }] := rfl

/-- An error with the mutex held. -/
theorem Leaves.failed {mid : World} (within : Within turn w mid) (held : (mid.slots turn).mutex ≠ none)
    (ret : Int) : Leaves turn w (mid, Frame.failed ret) where
  within := within
  marked := fun released => absurd released held
  own := fun action member => by cases member

/-- A cookie is left in the box. -/
theorem Leaves.created {mid : World} {cookie : Cookie} {frame : Frame} (within : Within turn w mid)
    (own : ∀ action ∈ frame.cont, ∀ access ∈ action.accesses, access.turn = turn) :
    Leaves turn w ((mid.createInBox self turn cookie).2.unlock turn, frame) where
  within := (within.trans (.createInBox mid self turn cookie)).trans (.unlock turn _)
  marked := by
    intro _
    refine Or.inl ?_
    simp [World.unlock, World.createInBox]
  own := own

/-- The last rank may leave the box empty. -/
theorem Leaves.last {mid : World} {frame : Frame} (within : Within turn w mid)
    (last : (w.slots turn).joined = w.size)
    (own : ∀ action ∈ frame.cont, ∀ access ∈ action.accesses, access.turn = turn) :
    Leaves turn w (mid, frame) where
  within := within
  marked := fun _ => Or.inr last
  own := own

/-- What moves data only changes nothing that a later part of the call looks at. -/
theorem Leaves.after {mid : World} {result : World × Frame} (leaves : Leaves turn mid result)
    (within : Within turn w mid) : Leaves turn w result where
  within := within.trans leaves.within
  marked := by
    intro released
    rw [← within.joined, ← within.size]
    exact leaves.marked released
  own := leaves.own

theorem joined_of_last {mid : World} (within : Within turn w mid) (last : mid.joinedLast turn = true) :
    (w.slots turn).joined = w.size := by
  rw [← within.joined, ← within.size]
  simpa [World.joinedLast] using last

theorem memberRequest_leaves (buf : Loc) (iovec : Iovec) (count : Int) (root : Nat) {transfer : Nat → Action}
    (own : ∀ id, ∀ access ∈ (transfer id).accesses, access.turn = turn) :
    Leaves turn w (memberRequest w self turn buf iovec count root transfer) := by
  unfold memberRequest
  split
  case h_1 id found =>
    have listed : id ∈ (w.slots turn).box := by
      unfold World.rootCookie at found
      exact List.mem_of_mem_head? (Option.mem_def.mpr (Option.filter_eq_some_iff.mp found).1)
    have alone : ∀ action ∈ [transfer id], ∀ access ∈ action.accesses, access.turn = turn := by
      intro action member
      rw [List.mem_singleton.mp member]
      exact own id
    by_cases last : (w.join id).joinedLast turn = true
    · simp only [if_pos last]
      refine Leaves.last ?_ (joined_of_last (.of_slots rfl rfl rfl) last) alone
      exact (((Within.of_slots rfl rfl rfl : Within turn w ((w.join id).moveToPending id)).trans
        (.setBox turn _ _)).trans (.unlock turn _))
    · simp only [if_neg last]
      refine
        { within := (Within.of_slots rfl rfl rfl : Within turn w (w.join id)).trans (.unlock turn _)
          marked := fun _ => Or.inl ?_
          own := alone }
      simp only [World.unlock, World.setSlot_slots, Function.update_self, World.join_slots]
      exact List.ne_nil_of_mem listed
  case h_2 => exact .created (.refl turn w) fun action member => by cases member

theorem rootRequest_leaves (buf : Loc) (iovec : Iovec) (size count : Int) {transfer : Nat → Action}
    (own : ∀ id, ∀ access ∈ (transfer id).accesses, access.turn = turn) :
    (rootRequest w self turn buf iovec size count transfer).Ensures (Leaves turn w) := by
  have served : ∀ todo : List Nat, ∀ action ∈ todo.flatMap fun id => [.moveToPending id, transfer id],
      ∀ access ∈ action.accesses, access.turn = turn := by
    intro todo action member
    obtain ⟨id, _, either⟩ := List.mem_flatMap.mp member
    rcases List.mem_cons.mp either with rfl | transfers
    · exact fun access impossible => by cases impossible
    · rw [List.mem_singleton.mp transfers]
      exact own id
  unfold rootRequest
  dsimp only
  split
  case isTrue last =>
    split
    case h_1 borrow _ =>
      exact .ok (.last (.takeAll turn w borrow) (joined_of_last (.setBox turn w []) last) (served _))
    case h_2 => exact .undefined _
  case isFalse => exact .ok (.created (.setBox turn w []) (served _))

/-- The middle part of an allgather moves data only. -/
theorem allgatherContribute_within {root : Nat} {sendbuf : Pointer} {sendcount : Int} {sendtype : MpiDatatype}
    {recvbuf : Loc} {recvcount : Int} {recvtype : Iovec} :
    (allgatherContribute vm w self root sendbuf sendcount sendtype recvbuf recvcount recvtype).Ensures
      fun done => Within turn w done.world ∧ done.world.slots = w.slots := by
  refine .bind fun seek _ => .ite (.bind fun skip _ => ?_) fun _ => .bind fun sendIovec _ => ?_
  · exact fun done written => ⟨.of_touches (writeToOwner_touches written), (writeToOwner_touches written).slots⟩
  · exact fun done written => ⟨.of_touches (writeToOwner_touches written), (writeToOwner_touches written).slots⟩

theorem allgatherFirst_within {sendbuf : Pointer} {sendcount : Int} {sendtype : MpiDatatype} {recvbuf : Loc}
    {recvcount : Int} {recvtype : Iovec} :
    (allgatherFirst vm w self sendbuf sendcount sendtype recvbuf recvcount recvtype).Ensures
      (Within turn w) :=
  .ite (.ok (.refl turn w)) fun _ => .bind fun _ _ => .bind fun _ _ => .ok (.of_slots rfl rfl rfl)

theorem allgatherSpread_own {recvbuf : Pointer} {recvtype : Iovec} {size : Int} (todo : List Nat) :
    ∀ action ∈ allgatherSpread (recvbuf.loc self) recvtype size todo, ∀ access ∈ action.accesses,
      access.turn = turn := by
  cases todo with
  | nil => exact fun action impossible => by cases impossible
  | cons root others =>
      intro action member access accessed
      simp only [allgatherSpread, List.mem_cons, List.mem_flatMap, List.not_mem_nil, or_false] at member
      rcases member with rfl | rfl | ⟨id, _, rfl | rfl⟩ <;>
        simp [Action.accesses, Offset.accesses] at accessed

theorem allgatherRequest_leaves {sendbuf recvbuf : Pointer} {sendcount recvcount : Int}
    {sendtype : MpiDatatype} {recvtype : Iovec} (held : (w.slots turn).mutex ≠ none) :
    (allgatherRequest vm w self turn sendbuf sendcount sendtype (recvbuf.loc self) recvcount
      recvtype).Ensures (Leaves turn w) := by
  unfold allgatherRequest
  refine .ite ?_ fun _ => ?_
  · refine .bind fun mid first => .bind fun size _ => .ok ?_
    exact .created (allgatherFirst_within mid first) fun action impossible => by cases impossible
  · split
    · exact .undefined _
    · refine .bind fun done contributed => ?_
      obtain ⟨within, slots⟩ : Within turn w done.world ∧ done.world.slots = w.slots :=
        allgatherContribute_within done contributed
      refine .ite (.ok (.failed within (by rw [slots]; exact held) _)) fun _ => ?_
      by_cases last : done.world.joinedLast turn = true
      · rw [if_neg (not_not.mpr last)]
        exact .bind fun size _ => .ok
          (.last (within.trans (.takeAll turn done.world _)) (joined_of_last within last) (allgatherSpread_own _))
      · rw [if_pos last]
        exact .bind fun size _ => .ok (.created within fun action impossible => by cases impossible)

theorem allreduceAccumulate_within {sendbuf : Pointer} {recvbuf : Loc} {count : Int} {iovec : Iovec}
    {op : UmpiOp} :
    (allreduceAccumulate vm w self turn sendbuf recvbuf count iovec op).Ensures fun result =>
      Within turn w result.1 ∧ (result.1.slots turn).mutex = (w.slots turn).mutex := by
  unfold allreduceAccumulate
  dsimp only
  refine .ite (.ite (.ok ?_) fun _ => .ite (.bind fun layout _ => .ok ?_) fun _ => .bind fun layout _ => .ok ?_)
    fun _ => .ite (.ok ?_) fun _ => ?_
  · refine ⟨(Within.setSlot ?_ ?_).trans (.of_slots rfl rfl rfl), ?_⟩ <;> simp [World.copy]
  · refine ⟨⟨rfl, rfl, fun other different => ?_, ?_, ?_⟩, ?_⟩
    · simp [World.copy, World.reduce, different]
    · simp [World.copy, World.reduce]
    · simp [World.copy, World.reduce]
    · simp [World.copy, World.reduce]
  · exact ⟨.of_slots rfl rfl rfl, rfl⟩
  · exact ⟨.of_slots rfl rfl rfl, rfl⟩
  · split
    · exact .undefined _
    · refine .bind fun done read => ?_
      have within : Within turn w done.world := .of_touches (readFromOwner_touches read)
      have mutex : (done.world.slots turn).mutex = (w.slots turn).mutex := by
        rw [(readFromOwner_touches read).slots]
      exact .ite (.ok ⟨within, mutex⟩) fun _ => .ok ⟨within.trans (.of_slots rfl rfl rfl), mutex⟩

theorem allreduceRequest_leaves {sendbuf recvbuf : Pointer} {count : Int} {iovec : Iovec} {op : UmpiOp}
    (held : (w.slots turn).mutex ≠ none) :
    (allreduceRequest vm w self turn sendbuf (recvbuf.loc self) count iovec op).Ensures (Leaves turn w) := by
  refine .bind fun result accumulated => ?_
  obtain ⟨within, mutex⟩ := allreduceAccumulate_within result accumulated
  refine .ite (.ok (.failed within (by rw [mutex]; exact held) _)) fun _ => ?_
  by_cases last : result.1.joinedLast turn = true
  · dsimp only
    rw [if_neg (not_not.mpr last)]
    split
    · exact .undefined _
    · refine .ok (.last (within.trans (.takeAll turn result.1 _)) (joined_of_last within last) ?_)
      intro action member access accessed
      obtain ⟨id, _, either⟩ := List.mem_flatMap.mp member
      simp only [List.mem_cons, List.not_mem_nil, or_false] at either
      rcases either with rfl | rfl <;> simp [Action.accesses, Offset.accesses] at accessed
  · dsimp only
    rw [if_pos last]
    exact .ok (.created within fun action impossible => by cases impossible)

/-- The loops of exscan and scan work in the scratch buffers of their own slot. -/
theorem exscanLoop_own {count : Int} {iovec : Iovec} {op : UmpiOp} (todo : List Nat) :
    ∀ action ∈ exscanLoop turn count iovec op todo, ∀ access ∈ action.accesses, access.turn = turn := by
  induction todo with
  | nil => exact fun action impossible => by cases impossible
  | cons id rest ih =>
      intro action member access accessed
      simp only [exscanLoop, List.mem_append, List.mem_cons, List.not_mem_nil, or_false] at member
      rcases member with ((rfl | rfl | rfl) | last) | later
      · cases accessed
      · simp only [Action.accesses, Offset.accesses, access_recvbuf, List.nil_append, List.mem_singleton]
          at accessed
        rw [accessed]
      · simp only [Action.accesses, Offset.accesses, access_sendbuf, List.nil_append, List.mem_singleton]
          at accessed
        rw [accessed]
      · split at last
        · cases last
        · obtain rfl := List.mem_singleton.mp last
          simp only [Action.accesses, access_sendbuf, access_recvbuf, List.cons_append, List.nil_append,
            List.mem_cons, List.not_mem_nil, or_false] at accessed
          rcases accessed with rfl | rfl | rfl <;> rfl
      · exact ih action later access accessed

theorem scanLoop_own {count : Int} {iovec : Iovec} {op : UmpiOp} (todo : List Nat) :
    ∀ action ∈ scanLoop turn count iovec op todo, ∀ access ∈ action.accesses, access.turn = turn := by
  intro action member access accessed
  obtain ⟨id, _, either⟩ := List.mem_flatMap.mp member
  simp only [List.mem_cons, List.not_mem_nil, or_false] at either
  rcases either with rfl | rfl | rfl | rfl
  · cases accessed
  · simp only [Action.accesses, Offset.accesses, access_recvbuf, List.nil_append, List.mem_singleton]
      at accessed
    rw [accessed]
  · simp only [Action.accesses, access_sendbuf, access_recvbuf, List.cons_append, List.nil_append,
      List.mem_cons, List.not_mem_nil, or_false] at accessed
    rcases accessed with rfl | rfl | rfl <;> rfl
  · simp only [Action.accesses, Offset.accesses, access_sendbuf, List.nil_append, List.mem_singleton]
      at accessed
    rw [accessed]

theorem ladder_leaves {request : Nat} {count : Int} {iovec : Iovec} {loop : List Nat → List Action}
    (last : (w.slots turn).joined = w.size)
    (own : ∀ todo, ∀ action ∈ loop todo, ∀ access ∈ action.accesses, access.turn = turn) :
    (ladder w turn request count iovec loop).Ensures (Leaves turn w) := by
  unfold ladder
  dsimp only
  split
  · exact .undefined _
  · refine .ok (.last ((Within.setBox turn w []).trans (.unlock turn _)) last ?_)
    intro action member access accessed
    simp only [List.mem_cons] at member
    rcases member with rfl | rfl | later
    · cases accessed
    · simp only [Action.accesses, Offset.accesses, access_sendbuf, List.nil_append, List.mem_singleton]
        at accessed
      rw [accessed]
    · exact own _ action later access accessed

/-- What exscan and scan do once they have their input: they leave a cookie, and the last one climbs. -/
theorem climb_leaves {mid : World} {cookie : Cookie} {count : Int} {iovec : Iovec}
    {loop : List Nat → List Action} (within : Within turn w mid)
    (own : ∀ todo, ∀ action ∈ loop todo, ∀ access ∈ action.accesses, access.turn = turn) :
    (if ¬ (mid.createInBox self turn cookie).2.joinedLast turn = true then
        .ok ((mid.createInBox self turn cookie).2.unlock turn, Frame.done (mid.createInBox self turn cookie).1 [])
      else ladder (mid.createInBox self turn cookie).2 turn (mid.createInBox self turn cookie).1 count iovec
        loop).Ensures (Leaves turn w) := by
  have created := within.trans (.createInBox mid self turn cookie)
  by_cases last : (mid.createInBox self turn cookie).2.joinedLast turn = true
  · rw [if_neg (not_not.mpr last)]
    refine fun result climbed => (ladder_leaves ?_ own result climbed).after created
    simpa [World.joinedLast] using last
  · rw [if_pos last]
    exact .ok (.created within fun action impossible => by cases impossible)

theorem exscanRequest_leaves {sendbuf : Pointer} {recvbuf : Loc} {count : Int} {iovec : Iovec} {op : UmpiOp}
    (held : (w.slots turn).mutex ≠ none) :
    (exscanRequest vm w self turn sendbuf recvbuf count iovec op).Ensures (Leaves turn w) := by
  refine .ite (.ok (.failed (.refl turn w) held _)) fun _ => ?_
  refine climb_leaves ?_ exscanLoop_own
  split
  · exact .of_slots rfl rfl rfl
  · exact .refl turn w

theorem scanRequest_leaves {sendbuf : Pointer} {recvbuf : Loc} {count : Int} {iovec : Iovec} {op : UmpiOp}
    (held : (w.slots turn).mutex ≠ none) :
    (scanRequest vm w self turn sendbuf recvbuf count iovec op).Ensures (Leaves turn w) := by
  refine .ite (.ok (.failed (.refl turn w) held _)) fun _ => ?_
  refine climb_leaves ?_ scanLoop_own
  split
  · exact .of_slots rfl rfl rfl
  · exact .refl turn w

/-- A call has left all slots alone, with nothing more to do, or it has entered its slot, which was free and idle or
    in the operation of the caller's ticket. -/
def Entry (w : World) (caller : Nat) (result : World × Frame) : Prop :=
  (result.1.size = w.size ∧ result.1.ticket = w.ticket ∧ result.1.slots = w.slots ∧ result.2.cont = []) ∨
    (w.slots (w.turnOf caller)).mutex = none ∧
      ((w.slots (w.turnOf caller)).box ≠ [] →
        (w.slots (w.turnOf caller)).ticket = w.ticket caller) ∧
      Leaves (w.turnOf caller) (w.claimed caller) result

theorem Entry.rejected (w : World) (self : Nat) (ret : Int) : Entry w self (w, Frame.failed ret) :=
  Or.inl ⟨rfl, rfl, rfl, rfl⟩

/-- What is left to show once the slot has been claimed. -/
theorem Entry.claimed {next : Nat × World → Outcome (World × Frame)}
    (leaves : ((w.claimed self).slots (w.turnOf self)).mutex ≠ none →
      (next (w.turnOf self, w.claimed self)).Ensures (Leaves (w.turnOf self) (w.claimed self))) :
    (w.getCurrentSlot self >>= next).Ensures (Entry w self) := by
  refine .bind fun value entered => ?_
  obtain ⟨turn, claimed⟩ := value
  obtain ⟨rfl, rfl, unlocked, mine⟩ := getCurrentSlot_eq_ok entered
  refine fun result returned => Or.inr ⟨unlocked, mine, leaves ?_ result returned⟩
  simp [World.claimed, World.turnOf]

theorem mpiIallreduce_entry {sendbuf recvbuf : Pointer} {count : Int} {datatype : MpiDatatype}
    {op : Option UmpiOp} {comm : MpiComm} :
    (mpiIallreduce vm w self sendbuf recvbuf count datatype op comm).Ensures (Entry w self) := by
  unfold mpiIallreduce
  split
  · exact .ite (.ok (.rejected w self _)) fun _ => .ite (.ok (.rejected w self _)) fun _ =>
      .claimed fun held => allreduceRequest_leaves held
  · exact .ok (.rejected w self _)

/-- A transfer between buffers of ranks has nothing to do with the slot. -/
theorem own_of_none {transfer : Nat → Action} (none : ∀ id, (transfer id).accesses = []) (turn id : Nat) :
    ∀ access ∈ (transfer id).accesses, access.turn = turn := by
  intro access accessed
  rw [none] at accessed
  cases accessed

theorem rootGatherRequest_leaves {recvbuf : Pointer} {recvcount : Int} {recvtype : Iovec} :
    (rootGatherRequest w self turn (recvbuf.loc self) recvcount recvtype).Ensures (Leaves turn w) := by
  refine .bind fun size _ => rootRequest_leaves _ _ _ _ (own_of_none (fun id => ?_) turn)
  simp [Action.accesses, Offset.accesses]

theorem rootGathervRequest_leaves {recvbuf : Pointer} {recvcounts displs : Nat → Int} {recvtype : Iovec} :
    (rootGathervRequest w self turn (recvbuf.loc self) recvcounts displs recvtype).Ensures (Leaves turn w) := by
  refine .bind fun total _ result requested => ?_
  refine Leaves.after (rootRequest_leaves _ _ _ _ (own_of_none (fun id => ?_) turn) result requested)
    (.setSlot rfl rfl)
  simp [Action.accesses, Offset.accesses]

theorem rootScatterRequest_leaves {sendbuf : Pointer} {sendcount : Int} {sendtype : Iovec} :
    (rootScatterRequest w self turn (sendbuf.loc self) sendcount sendtype).Ensures (Leaves turn w) := by
  refine .bind fun size _ => rootRequest_leaves _ _ _ _ (own_of_none (fun id => ?_) turn)
  simp [Action.accesses, Offset.accesses]

/-- What the root copies before its request changes no slot. -/
theorem Leaves.afterCopy {request : World → Outcome (World × Frame)}
    (leaves : ∀ mid : World, (request mid).Ensures (Leaves turn mid)) {mid : World}
    (within : Within turn w mid) : (request mid).Ensures (Leaves turn w) :=
  fun result requested => (leaves mid result requested).after within

/-- Every collective call. -/
theorem Call.enter_entry (vm : ProcessVm) (w : World) (self : Nat) (call : Call) :
    (call.enter vm w self).Ensures (Entry w self) := by
  cases call with
  | bcast buf count datatype root comm =>
      refine .ite (.ok (.rejected w self _)) fun _ => .bind fun iovec _ => .claimed fun held => ?_
      refine .ite (rootRequest_leaves _ _ _ _ (own_of_none (fun _ => ?_) _)) fun _ =>
        .ok (memberRequest_leaves _ _ _ _ (own_of_none (fun _ => ?_) _))
      · simp [Action.accesses, Offset.accesses]
      · simp [Action.accesses, Offset.accesses]
  | allgather sendbuf sendcount sendtype recvbuf recvcount recvtype comm =>
      exact .ite (.ok (.rejected w self _)) fun _ => .bind fun iovec _ => .bind fun differ _ =>
        .ite (.ok (.rejected w self _)) fun _ => .claimed fun held => allgatherRequest_leaves held
  | allreduce => exact mpiIallreduce_entry
  | blockingAllreduce sendbuf recvbuf count datatype op comm =>
      show (mpiAllreduce vm w self sendbuf recvbuf count datatype op comm).Ensures _
      unfold mpiAllreduce
      split
      · refine .ite (.ok (.rejected w self _)) fun _ => .ite (.ok (Or.inl ?_)) fun _ => mpiIallreduce_entry
        split <;> exact ⟨rfl, rfl, rfl, rfl⟩
      · exact .ok (.rejected w self _)
  | exscan sendbuf recvbuf count datatype op comm =>
      show (mpiIexscan vm w self sendbuf recvbuf count datatype op comm).Ensures _
      unfold mpiIexscan
      split
      · exact .ite (.ok (.rejected w self _)) fun _ => .ite (.ok (.rejected w self _)) fun _ =>
          .claimed fun held => exscanRequest_leaves held
      · exact .ok (.rejected w self _)
  | scan sendbuf recvbuf count datatype op comm =>
      show (mpiIscan vm w self sendbuf recvbuf count datatype op comm).Ensures _
      unfold mpiIscan
      split
      · exact .ite (.ok (.rejected w self _)) fun _ => .ite (.ok (.rejected w self _)) fun _ =>
          .claimed fun held => scanRequest_leaves held
      · exact .ok (.rejected w self _)
  | gather sendbuf sendcount sendtype recvbuf recvcount recvtype root comm =>
      refine .ite (.ok (.rejected w self _)) fun _ => .claimed fun held => .ite ?_ fun _ =>
        .bind fun iovec _ => .ok (memberRequest_leaves _ _ _ _ (own_of_none (fun _ => ?_) _))
      · split
        · exact .ok (.failed (.refl _ _) held _)
        · refine .bind fun differ _ => .ite (.ok (.failed (.refl _ _) held _)) fun _ => ?_
          refine .ite rootGatherRequest_leaves fun _ => .bind fun iovec _ => .bind fun block _ => ?_
          exact Leaves.afterCopy (fun _ => rootGatherRequest_leaves) (.of_slots rfl rfl rfl)
      · simp [Action.accesses, Offset.accesses]
  | gatherv sendbuf sendcount sendtype recvbuf recvcounts displs recvtype root comm =>
      refine .ite (.ok (.rejected w self _)) fun _ => .claimed fun held => .ite ?_ fun _ =>
        .bind fun iovec _ => .ok (memberRequest_leaves _ _ _ _ fun id access accessed => ?_)
      · split
        · refine .bind fun differ _ => .ite (.ok (.failed (.refl _ _) held _)) fun _ => ?_
          refine .ite rootGathervRequest_leaves fun _ => .bind fun iovec _ => ?_
          exact Leaves.afterCopy (fun _ => rootGathervRequest_leaves) (.of_slots rfl rfl rfl)
        · exact .ok (.failed (.refl _ _) held _)
      · simp only [Action.accesses, Offset.accesses, Pointer.access_loc, List.append_nil,
          List.mem_singleton] at accessed
        rw [accessed]
  | scatter sendbuf sendcount sendtype recvbuf recvcount recvtype root comm =>
      refine .ite (.ok (.rejected w self _)) fun _ => .claimed fun held => .ite ?_ fun _ =>
        .bind fun iovec _ => .ok (memberRequest_leaves _ _ _ _ (own_of_none (fun _ => ?_) _))
      · split
        · exact .ok (.failed (.refl _ _) held _)
        · refine .bind fun differ _ => .ite (.ok (.failed (.refl _ _) held _)) fun _ => ?_
          refine .ite rootScatterRequest_leaves fun _ => .bind fun iovec _ => .bind fun block _ => ?_
          exact Leaves.afterCopy (fun _ => rootScatterRequest_leaves) (.of_slots rfl rfl rfl)
      · simp [Action.accesses, Offset.accesses]

end Leaving

/-- A call accesses its own slot only. -/
theorem Call.accesses_turn (call : Call) (w : World) (self turn : Nat) :
    ∀ access ∈ call.accesses w self turn, access.turn = turn := by
  have reduced : ∀ sendbuf, ∀ access ∈ allreduceAccesses w turn sendbuf, access.turn = turn := by
    intro sendbuf access accessed
    unfold allreduceAccesses at accessed
    dsimp only at accessed
    split at accessed
    · cases accessed
    · split at accessed
      · simp only [List.mem_cons, List.not_mem_nil, or_false] at accessed
        rcases accessed with rfl | rfl | rfl | rfl | rfl <;> rfl
      · rcases List.mem_append.mp accessed with early | late
        · simp only [List.mem_cons, List.not_mem_nil, or_false] at early
          rcases early with rfl | rfl | rfl | rfl | rfl <;> rfl
        · split at late
          · cases late
          · simp only [List.mem_cons, List.not_mem_nil, or_false] at late
            rcases late with rfl | rfl | rfl | rfl | rfl | rfl | rfl <;> rfl
  intro access accessed
  cases call with
  | gatherv =>
      simp only [Call.accesses] at accessed
      split at accessed
      · rw [List.mem_singleton.mp accessed]
      · cases accessed
  | allreduce => exact reduced _ access accessed
  | blockingAllreduce => exact reduced _ access accessed
  | bcast | allgather | exscan | scan | gather | scatter => cases accessed

/-! ### Slots and their operations -/

/-- An idle slot waits for the operation one round of slots after its latest one. -/
def lag (past : List Nat) : Nat := if past = [] then umpiOutstandingCollectiveOperations else 0

/-- The slot `turn` is in the operation number `position`, which the ranks of `past` have joined, or nobody has joined
    it yet. Its latest operation is the only one that still makes accesses to its data. -/
structure Shift (n turn position : Nat) (past : List Nat) (s : Traced) : Prop where
  mine : position % umpiOutstandingCollectiveOperations = turn
  joining : Schedule.Joining n past
  partly : past.length < n
  joined : ∀ rank < n, rank ∈ past ↔ position < s.entered rank
  ahead : ∀ rank < n, s.entered rank ≤ position + umpiOutstandingCollectiveOperations
  behind : ∀ rank < n, position < s.entered rank + umpiOutstandingCollectiveOperations
  /-- An idle slot cannot be taken for one in this operation, ... -/
  idle : (s.sys.world.slots turn).mutex = none → past = [] → (s.sys.world.slots turn).box ≠ [] →
    (s.sys.world.slots turn).ticket ≠ position % 2 ^ 32
  /-- ... and a slot in this operation not for an idle one. -/
  busy : (s.sys.world.slots turn).mutex = none → past ≠ [] → (s.sys.world.slots turn).box ≠ [] ∧
    (s.sys.world.slots turn).ticket = position % 2 ^ 32 ∧ (s.sys.world.slots turn).joined = past.length
  events : ∀ event ∈ s.log, event.turn = turn → event.operation + lag past ≤ position
  pending : ∀ rank, ∀ action ∈ (s.sys.ranks rank).cont, ∀ access ∈ action.accesses, access.turn = turn →
    ∃ operation, s.entered rank = operation + 1 ∧ operation + lag past = position

/-- All slots are in some operation, and the accesses to each have been made in the order of its operations. -/
structure Turnover (n : Nat) (s : Traced) : Prop where
  size : s.sys.world.size = n
  ticket : ∀ rank, s.sys.world.ticket rank = s.entered rank % 2 ^ 32
  turns : ∀ rank, ∀ action ∈ (s.sys.ranks rank).cont, ∀ access ∈ action.accesses,
    access.turn < umpiOutstandingCollectiveOperations
  ordered : ∀ turn, (s.log.filter fun event => event.turn = turn).Pairwise fun later earlier =>
    earlier.operation ≤ later.operation
  slots : ∀ turn < umpiOutstandingCollectiveOperations, ∃ position past, Shift n turn position past s

section Turnover

variable {vm : ProcessVm} {program : Program} {n turn position self : Nat} {past : List Nat} {s s' : Traced}

theorem Turnover.start (mem : Memory) (some : 0 < n) : Turnover n (Traced.init n mem) where
  size := rfl
  ticket := fun _ => rfl
  turns := fun _ action impossible => by cases impossible
  ordered := fun _ => List.Pairwise.nil
  slots := by
    intro turn valid
    refine ⟨turn, [], ?_⟩
    exact
      { mine := Nat.mod_eq_of_lt valid
        joining := ⟨List.nodup_nil, fun _ member => absurd member List.not_mem_nil⟩
        partly := some
        joined := fun _ _ => by simp [Traced.init]
        ahead := fun _ _ => Nat.zero_le _
        behind := fun _ _ => by simpa [Traced.init] using valid
        idle := fun _ _ used => absurd rfl used
        busy := fun _ impossible => absurd rfl impossible
        events := fun event impossible => by cases impossible
        pending := fun _ action impossible => by cases impossible }

/-- What decides who may enter a slot. -/
theorem Collect.fields_of_control {slot slot' : Collect} (same : slot'.control = slot.control) :
    slot'.mutex = slot.mutex ∧ slot'.box = slot.box ∧ slot'.ticket = slot.ticket ∧
      slot'.joined = slot.joined :=
  ⟨(congrArg Collect.mutex same :), (congrArg Collect.box same :), (congrArg Collect.ticket same :),
    (congrArg Collect.joined same :)⟩

/-- A step that leaves the slot alone. Its rank has entered another one, if any. -/
theorem Shift.frame (shift : Shift n turn position past s)
    (control : (s'.sys.world.slots turn).control = (s.sys.world.slots turn).control)
    (entered : ∀ rank < n, s'.entered rank = s.entered rank ∨
      s'.entered rank = s.entered rank + 1 ∧ s.entered rank % umpiOutstandingCollectiveOperations ≠ turn)
    (events : ∀ event ∈ s'.log, event.turn = turn → event.operation + lag past ≤ position)
    (pending : ∀ rank, ∀ action ∈ (s'.sys.ranks rank).cont, ∀ access ∈ action.accesses, access.turn = turn →
      action ∈ (s.sys.ranks rank).cont ∧ s'.entered rank = s.entered rank) :
    Shift n turn position past s' where
  mine := shift.mine
  joining := shift.joining
  partly := shift.partly
  joined := by
    intro rank valid
    rw [shift.joined rank valid]
    have mine := shift.mine
    rcases entered rank valid with same | ⟨next, elsewhere⟩
    · rw [same]
    · have different : position ≠ s.entered rank := fun same => elsewhere (same ▸ mine)
      omega
  ahead := by
    intro rank valid
    have before := shift.ahead rank valid
    have mine := shift.mine
    simp only [umpiOutstandingCollectiveOperations] at *
    rcases entered rank valid with same | ⟨next, elsewhere⟩ <;> omega
  behind := by
    intro rank valid
    have before := shift.behind rank valid
    rcases entered rank valid with same | ⟨next, _⟩ <;> omega
  idle := by
    obtain ⟨mutex, box, ticket, _⟩ := Collect.fields_of_control control
    rw [mutex, box, ticket]
    exact shift.idle
  busy := by
    obtain ⟨mutex, box, ticket, joined⟩ := Collect.fields_of_control control
    rw [mutex, box, ticket, joined]
    exact shift.busy
  events := events
  pending := by
    intro rank action member access accessed own
    obtain ⟨before, same⟩ := pending rank action member access accessed own
    rw [same]
    exact shift.pending rank action before access accessed own

/-- A rank that gets into the slot is at its operation, and has not joined it yet. -/
theorem Shift.arrives (shift : Shift n turn position past s) (valid : self < n)
    (ticket : s.sys.world.ticket self = s.entered self % 2 ^ 32) (here : s.sys.world.turnOf self = turn)
    (unlocked : (s.sys.world.slots turn).mutex = none)
    (own : (s.sys.world.slots turn).box ≠ [] →
      (s.sys.world.slots turn).ticket = s.sys.world.ticket self) :
    s.entered self = position ∧ self ∉ past ∧ ((s.sys.world.slots turn).box = [] ↔ past = []) := by
  have ahead := shift.ahead self valid
  have behind := shift.behind self valid
  have joined := shift.joined self valid
  have mine := shift.mine
  rw [World.turnOf, ticket] at here
  rw [ticket] at own
  simp only [umpiOutstandingCollectiveOperations] at *
  by_cases nobody : past = []
  · have early : ¬ position < s.entered self := by
      rw [← joined, nobody]
      exact List.not_mem_nil
    have same : s.entered self = position := by omega
    refine ⟨same, by rw [nobody]; exact List.not_mem_nil, fun _ => nobody, fun _ => ?_⟩
    by_contra used
    exact shift.idle unlocked nobody used (by rw [own used, same])
  · obtain ⟨used, stamped, _⟩ := shift.busy unlocked nobody
    have same := own used
    rw [stamped] at same
    have here : s.entered self = position := by omega
    exact ⟨here, fun member => by have := joined.mp member; omega, fun empty => absurd empty used,
      fun none => absurd none nobody⟩

/-- A rank enters the slot. If it is the last one the slot waits for its next operation. -/
theorem Shift.join (shift : Shift n turn position past s) (size : s.sys.world.size = n) (valid : self < n)
    (absent : self ∉ past) (here : s.sys.world.turnOf self = turn)
    (ticket : s.sys.world.ticket self = position % 2 ^ 32) (arrived : s.entered self = position)
    (unlocked : (s.sys.world.slots turn).mutex = none)
    (empty : (s.sys.world.slots turn).box = [] ↔ past = [])
    (vacant : past = [] → ∀ rank, ∀ action ∈ (s.sys.ranks rank).cont, ∀ access ∈ action.accesses,
      access.turn ≠ turn)
    {frame : Frame} (leaves : Leaves turn (s.sys.world.claimed self) (s'.sys.world, frame))
    (counted : s'.entered = Function.update s.entered self (position + 1))
    (conts : ∀ rank ≠ self, (s'.sys.ranks rank).cont = (s.sys.ranks rank).cont)
    (events : ∀ event ∈ s'.log, event.turn = turn → event ∈ s.log ∨ event.operation = position) :
    ∃ position' past', Shift n turn position' past' s' := by
  subst here
  have joining : Schedule.Joining n (self :: past) :=
    { nodup := List.nodup_cons.mpr ⟨absent, shift.joining.nodup⟩
      bound := by
        intro rank member
        rcases List.mem_cons.mp member with rfl | earlier
        · exact valid
        · exact shift.joining.bound rank earlier }
  have claimedJoined : ((s.sys.world.claimed self).slots (s.sys.world.turnOf self)).joined =
      (self :: past).length := by
    by_cases first : past = []
    · have idle : (s.sys.world.slots (s.sys.world.ticket self % umpiOutstandingCollectiveOperations)).box =
          [] := empty.mpr first
      simp [World.claimed, World.turnOf, idle, first]
    · have used : (s.sys.world.slots (s.sys.world.ticket self % umpiOutstandingCollectiveOperations)).box ≠
          [] := mt empty.mp first
      have joined : (s.sys.world.slots (s.sys.world.ticket self %
          umpiOutstandingCollectiveOperations)).joined = past.length := (shift.busy unlocked first).2.2
      simp [World.claimed, World.turnOf, used, joined]
  have claimedTicket : ((s.sys.world.claimed self).slots (s.sys.world.turnOf self)).ticket =
      position % 2 ^ 32 := by
    rw [← ticket]
    simp [World.claimed, World.turnOf]
  have others : ∀ rank ≠ self, s'.entered rank = s.entered rank := by
    intro rank other
    rw [counted, Function.update_of_ne other]
  have mine : s'.entered self = position + 1 := by rw [counted, Function.update_self]
  -- whatever is still to be done is done for this operation
  have pending : ∀ rank, ∀ action ∈ (s'.sys.ranks rank).cont, ∀ access ∈ action.accesses,
      access.turn = s.sys.world.turnOf self → s'.entered rank = position + 1 := by
    intro rank action member access accessed own
    by_cases same : rank = self
    · rw [same, mine]
    · rw [conts rank same] at member
      by_cases first : past = []
      · exact absurd own (vacant first rank action member access accessed)
      · obtain ⟨operation, entered, exactly⟩ := shift.pending rank action member access accessed own
        rw [lag, if_neg first] at exactly
        rw [others rank same, entered, ← exactly]
  have before : ∀ event ∈ s'.log, event.turn = s.sys.world.turnOf self → event.operation ≤ position := by
    intro event member own
    rcases events event member own with old | new
    · have bounded := shift.events event old own
      omega
    · exact new.le
  have length : past.length + 1 ≤ n := joining.length_le
  by_cases full : past.length + 1 = n
  · refine ⟨position + umpiOutstandingCollectiveOperations, [], ?_⟩
    exact
      { mine := (Nat.add_mod_right _ _).trans shift.mine
        joining := ⟨List.nodup_nil, fun _ member => absurd member List.not_mem_nil⟩
        partly := Nat.zero_lt_of_lt shift.partly
        joined := by
          intro rank inRange
          refine iff_of_false List.not_mem_nil ?_
          have ahead := shift.ahead rank inRange
          by_cases own : rank = self
          · rw [own, mine]
            simp [umpiOutstandingCollectiveOperations]
          · rw [others rank own]
            omega
        ahead := by
          intro rank inRange
          have ahead := shift.ahead rank inRange
          by_cases own : rank = self
          · rw [own, mine]
            simp only [umpiOutstandingCollectiveOperations]
            omega
          · rw [others rank own]
            omega
        behind := by
          intro rank inRange
          by_cases own : rank = self
          · rw [own, mine]
            omega
          · have earlier : rank ∈ past :=
              (List.mem_cons.mp (joining.mem_of_full full inRange)).resolve_left own
            have joined := (shift.joined rank inRange).mp earlier
            rw [others rank own]
            omega
        idle := by
          intro _ _ _
          rw [leaves.within.slotTicket, claimedTicket]
          simp only [umpiOutstandingCollectiveOperations]
          omega
        busy := fun _ impossible => absurd rfl impossible
        events := by
          intro event member own
          have bounded := before event member own
          rw [lag, if_pos rfl]
          omega
        pending := by
          intro rank action member access accessed own
          exact ⟨position, pending rank action member access accessed own, by rw [lag, if_pos rfl]⟩ }
  · refine ⟨position, self :: past, ?_⟩
    exact
      { mine := shift.mine
        joining := joining
        partly := lt_of_le_of_ne length full
        joined := by
          intro rank inRange
          by_cases own : rank = self
          · rw [own, mine]
            simp
          · rw [others rank own, List.mem_cons]
            exact (or_iff_right own).trans (shift.joined rank inRange)
        ahead := by
          intro rank inRange
          have ahead := shift.ahead rank inRange
          by_cases own : rank = self
          · rw [own, mine]
            simp [umpiOutstandingCollectiveOperations]
          · rw [others rank own]
            exact ahead
        behind := by
          intro rank inRange
          have behind := shift.behind rank inRange
          by_cases own : rank = self
          · rw [own, mine]
            omega
          · rw [others rank own]
            exact behind
        idle := fun _ impossible => by cases impossible
        busy := by
          intro released _
          refine ⟨?_, leaves.within.slotTicket.trans claimedTicket, leaves.within.joined.trans claimedJoined⟩
          refine (leaves.marked released).resolve_right fun last => full ?_
          rw [claimedJoined] at last
          have all : ((self :: past).length : Int) = (s.sys.world.size : Nat) := last
          rw [size] at all
          exact_mod_cast all
        events := by
          intro event member own
          rw [lag, if_neg (List.cons_ne_nil _ _)]
          exact before event member own
        pending := by
          intro rank action member access accessed own
          refine ⟨position, pending rank action member access accessed own, ?_⟩
          rw [lag, if_neg (List.cons_ne_nil _ _)]
          exact Nat.add_zero position }

/-! ### Steps -/

/-- A traced step is a step together with its accesses. -/
theorem Traced.step_cases {label : Label} (stepped : s.step vm program label = .ok s') :
    ∃ next, s.sys.step vm program label = .ok next ∧
      s' =
        { sys := next
          entered := s.counted next
          log := ((s.sys.accesses program next label).map fun access =>
            { toAccess := access, operation := s.operation label : SlotEvent }).reverse ++ s.log } := by
  obtain ⟨next, made, same⟩ := Outcome.bind_eq_ok.mp stepped
  exact ⟨next, made, (Outcome.ok.inj same).symm⟩

/-- A call accesses the slot it has entered. -/
theorem Sys.turn_of_accesses {sys next : Sys} {access : Access}
    (accessed : access ∈ sys.accesses program next (.call self)) :
    access.turn = sys.world.turnOf self ∧ next.world.ticket self ≠ sys.world.ticket self := by
  unfold Sys.accesses at accessed
  dsimp only at accessed
  split at accessed
  case h_1 call turn claimed _ got =>
    split at accessed
    case isTrue entered =>
      obtain ⟨rfl, _, _, _⟩ := getCurrentSlot_eq_ok got
      exact ⟨call.accesses_turn _ _ _ access accessed, entered.1⟩
    case isFalse => cases accessed
  case h_2 => cases accessed

/-- Accesses on behalf of an operation that is no earlier than those before. -/
theorem ordered_append {new log : List SlotEvent} {operation : Nat}
    (ordered : (log.filter fun event => event.turn = turn).Pairwise fun later earlier =>
      earlier.operation ≤ later.operation)
    (same : ∀ event ∈ new, event.operation = operation)
    (bounded : (∃ event ∈ new, event.turn = turn) → ∀ event ∈ log, event.turn = turn →
      event.operation ≤ operation) :
    ((new.reverse ++ log).filter fun event => event.turn = turn).Pairwise fun later earlier =>
      earlier.operation ≤ later.operation := by
  rw [List.filter_append, List.pairwise_append]
  refine ⟨?_, ordered, ?_⟩
  · refine List.pairwise_of_forall_mem_list ?_
    intro first member second member'
    rw [same first (List.mem_reverse.mp (List.mem_of_mem_filter member)),
      same second (List.mem_reverse.mp (List.mem_of_mem_filter member'))]
  · intro later member earlier member'
    obtain ⟨isNew, own⟩ := List.mem_filter.mp member
    obtain ⟨isOld, own'⟩ := List.mem_filter.mp member'
    rw [same later (List.mem_reverse.mp isNew)]
    exact bounded ⟨later, List.mem_reverse.mp isNew, by simpa using own⟩ earlier isOld (by simpa using own')

/-- A rank makes a call that does not get into its slot. -/
theorem Turnover.reject (turnover : Turnover n s) {w' : World} {frame : Frame} {joins : Nat → List Join}
    (idle : (s.sys.ranks self).cont = []) (size : w'.size = s.sys.world.size)
    (ticket : w'.ticket = s.sys.world.ticket) (slots : w'.slots = s.sys.world.slots) (nothing : frame.cont = []) :
    Turnover n
      { sys :=
          { world := w'
            ranks := Function.update s.sys.ranks self ((s.sys.ranks self).enter frame)
            joins := joins }
        entered := s.entered
        log := s.log } := by
  have conts : ∀ rank, ((Function.update s.sys.ranks self ((s.sys.ranks self).enter frame)) rank).cont =
      (s.sys.ranks rank).cont := by
    intro rank
    by_cases own : rank = self
    · subst own
      simp [idle, nothing]
    · simp [own]
  exact
    { size := size.trans turnover.size
      ticket := fun rank => (congrFun ticket rank).trans (turnover.ticket rank)
      turns := fun rank action member => turnover.turns rank action (conts rank ▸ member)
      ordered := turnover.ordered
      slots := by
        intro turn valid
        obtain ⟨position, past, shift⟩ := turnover.slots turn valid
        refine ⟨position, past, shift.frame (congrArg Collect.control (congrFun slots turn))
          (fun _ _ => Or.inl rfl) shift.events ?_⟩
        exact fun rank action member _ _ _ => ⟨conts rank ▸ member, rfl⟩ }

/-- A rank makes a call that enters its slot. -/
theorem Turnover.enter (turnover : Turnover n s) {w' : World} {frame : Frame} {joins : Nat → List Join}
    {new : List SlotEvent} (valid : self < n) (idle : (s.sys.ranks self).cont = [])
    (unlocked : (s.sys.world.slots (s.sys.world.turnOf self)).mutex = none)
    (own : (s.sys.world.slots (s.sys.world.turnOf self)).box ≠ [] →
      (s.sys.world.slots (s.sys.world.turnOf self)).ticket = s.sys.world.ticket self)
    (leaves : Leaves (s.sys.world.turnOf self) (s.sys.world.claimed self) (w', frame))
    (vacated : (s.sys.world.slots (s.sys.world.turnOf self)).box = [] → ∀ rank,
      ∀ action ∈ (s.sys.ranks rank).cont, ∀ access ∈ action.accesses,
        access.turn ≠ s.sys.world.turnOf self)
    (turns : ∀ event ∈ new, event.turn = s.sys.world.turnOf self)
    (operations : ∀ event ∈ new, event.operation = s.entered self) :
    Turnover n
      { sys :=
          { world := w'
            ranks := Function.update s.sys.ranks self ((s.sys.ranks self).enter frame)
            joins := joins }
        entered := Function.update s.entered self (s.entered self + 1)
        log := new.reverse ++ s.log } := by
  have turnValid : s.sys.world.turnOf self < umpiOutstandingCollectiveOperations :=
    Nat.mod_lt _ (by decide)
  obtain ⟨position, past, shift⟩ := turnover.slots _ turnValid
  have ticket := turnover.ticket self
  obtain ⟨arrived, absent, empty⟩ := shift.arrives valid ticket rfl unlocked own
  have conts : ∀ rank ≠ self, ((Function.update s.sys.ranks self ((s.sys.ranks self).enter frame))
      rank).cont = (s.sys.ranks rank).cont := by
    intro rank other
    simp [other]
  have events : ∀ event ∈ new.reverse ++ s.log, event ∈ s.log ∨
      event.turn = s.sys.world.turnOf self ∧ event.operation = position := by
    intro event member
    rcases List.mem_append.mp member with isNew | old
    · have isNew := List.mem_reverse.mp isNew
      exact Or.inr ⟨turns event isNew, (operations event isNew).trans arrived⟩
    · exact Or.inl old
  exact
    { size := leaves.within.size.trans turnover.size
      ticket := by
        intro rank
        refine (congrFun leaves.within.ticket rank).trans ?_
        by_cases same : rank = self
        · subst same
          simp [World.claimed, ticket]
        · simp [World.claimed, same, turnover.ticket]
      turns := by
        intro rank action member access accessed
        by_cases same : rank = self
        · subst same
          simp only [Function.update_self, RankState.enter_cont] at member
          rw [leaves.own action member access accessed]
          exact turnValid
        · exact turnover.turns rank action (conts rank same ▸ member) access accessed
      ordered := by
        intro turn
        refine ordered_append (turnover.ordered turn) operations ?_
        rintro ⟨event, isNew, here⟩ old listed there
        have bounded := shift.events old listed (there.trans (here.symm.trans (turns event isNew)))
        omega
      slots := by
        intro turn inRange
        by_cases here : turn = s.sys.world.turnOf self
        · subst here
          refine shift.join turnover.size valid absent rfl (by rw [ticket, arrived]) arrived unlocked empty
            (fun first => vacated (empty.mpr first)) leaves (by rw [arrived]) conts ?_
          exact fun event member _ => (events event member).imp_right And.right
        · obtain ⟨position', past', shift'⟩ := turnover.slots turn inRange
          refine ⟨position', past', shift'.frame ?_ ?_ ?_ ?_⟩
          · have kept : w'.slots turn = (s.sys.world.claimed self).slots turn := leaves.within.others turn here
            show (w'.slots turn).control = (s.sys.world.slots turn).control
            rw [kept, claimed_slots_of_ne _ _ here]
          · intro rank _
            by_cases same : rank = self
            · subst same
              refine Or.inr ⟨by simp, ?_⟩
              rw [arrived, shift.mine]
              exact Ne.symm here
            · exact Or.inl (by simp [same])
          · intro event member there
            refine shift'.events event ((events event member).resolve_right fun own => here ?_) there
            exact there.symm.trans own.1
          · intro rank action member access accessed there
            by_cases same : rank = self
            · subst same
              simp only [Function.update_self, RankState.enter_cont] at member
              exact absurd (there.symm.trans (leaves.own action member access accessed)) here
            · exact ⟨conts rank same ▸ member, by simp [same]⟩ }

/-- A rank performs an action. -/
theorem Turnover.act (turnover : Turnover n s) {action : Action} {rest : List Action} {done : Transferred}
    (todo : (s.sys.ranks self).cont = action :: rest)
    (performed : action.exec vm s.sys.world self = .ok done) :
    Turnover n
      { sys :=
          { s.sys with
            world := done.world
            ranks := Function.update s.sys.ranks self
              ((s.sys.ranks self).advance action.moved rest done.ret) }
        entered := s.entered
        log := ((action.accesses.map fun access =>
          { toAccess := access, operation := s.entered self - 1 : SlotEvent }).reverse ++ s.log) } := by
  have next : action ∈ (s.sys.ranks self).cont := todo ▸ List.mem_cons_self
  have conts : ∀ rank, ∀ later ∈ ((Function.update s.sys.ranks self
      ((s.sys.ranks self).advance action.moved rest done.ret)) rank).cont,
      later ∈ (s.sys.ranks rank).cont := by
    intro rank later member
    by_cases own : rank = self
    · subst own
      rw [Function.update_self, RankState.advance] at member
      rw [todo]
      split at member
      · cases member
      · split at member
        · cases member
        · exact List.mem_cons_of_mem action member
    · rwa [Function.update_of_ne own] at member
  obtain ⟨size, ticket, control⟩ : done.world.size = s.sys.world.size ∧
      done.world.ticket = s.sys.world.ticket ∧
      ∀ turn, (done.world.slots turn).control = (s.sys.world.slots turn).control := by
    rcases Action.exec_cases performed with ⟨id, rfl, moved, _⟩ | ⟨_, midway⟩
    · rw [moved]
      exact ⟨rfl, rfl, fun _ => rfl⟩
    · exact ⟨midway.size, midway.ticket, midway.slots⟩
  -- the events of the action belong to the latest operation of their slot
  have latest : ∀ turn position past, Shift n turn position past s →
      (∃ event ∈ action.accesses.map fun access =>
        { toAccess := access, operation := s.entered self - 1 : SlotEvent }, event.turn = turn) →
      s.entered self - 1 + lag past = position := by
    rintro turn position past shift ⟨event, isNew, here⟩
    obtain ⟨access, accessed, rfl⟩ := List.mem_map.mp isNew
    obtain ⟨operation, entered, exactly⟩ := shift.pending self action next access accessed here
    rw [entered, Nat.add_sub_cancel]
    exact exactly
  exact
    { size := size.trans turnover.size
      ticket := fun rank => (congrFun ticket rank).trans (turnover.ticket rank)
      turns := fun rank later member => turnover.turns rank later (conts rank later member)
      ordered := by
        intro turn
        have same : ∀ event ∈ action.accesses.map fun access =>
            { toAccess := access, operation := s.entered self - 1 : SlotEvent },
            event.operation = s.entered self - 1 := by
          intro event isNew
          obtain ⟨access, _, rfl⟩ := List.mem_map.mp isNew
          rfl
        refine ordered_append (turnover.ordered turn) same ?_
        intro some old listed there
        have some' := some
        obtain ⟨event, isNew, here⟩ := some
        obtain ⟨access, accessed, rfl⟩ := List.mem_map.mp isNew
        have valid : turn < umpiOutstandingCollectiveOperations :=
          here ▸ turnover.turns self action next access accessed
        obtain ⟨position, past, shift⟩ := turnover.slots turn valid
        have bounded := shift.events old listed there
        have exactly := latest turn position past shift some'
        omega
      slots := by
        intro turn valid
        obtain ⟨position, past, shift⟩ := turnover.slots turn valid
        refine ⟨position, past, shift.frame (control turn) (fun _ _ => Or.inl rfl) ?_ ?_⟩
        · intro event member there
          rcases List.mem_append.mp member with isNew | old
          · have isNew := List.mem_reverse.mp isNew
            have exactly := latest turn position past shift ⟨event, isNew, there⟩
            obtain ⟨access, _, rfl⟩ := List.mem_map.mp isNew
            exact exactly.le
          · exact shift.events event old there
        · exact fun rank later member _ _ _ => ⟨conts rank later member, rfl⟩ }

/-- A rank that keeps its ticket has entered no slot. -/
theorem Traced.counted_eq {next : Sys} (ticket : next.world.ticket = s.sys.world.ticket) :
    s.counted next = s.entered := by
  funext rank
  rw [Traced.counted, ticket, if_pos rfl]

/-- A step that finds the slot it takes over vacated. -/
theorem Turnover.step {label : Label} (turnover : Turnover n s) (vacated : s.Vacated label)
    (stepped : s.step vm program label = .ok s') : Turnover n s' := by
  obtain ⟨next, made, rfl⟩ := Traced.step_cases stepped
  cases label with
  | call self =>
      obtain ⟨call, w, frame, valid, idle, listed, called, rfl⟩ := Sys.step_call made
      rw [turnover.size] at valid
      rcases call.enter_entry vm s.sys.world self (w, frame) called with
        ⟨size, ticket, slots, nothing⟩ | ⟨unlocked, own, leaves⟩
      · have none : s.sys.accesses program
            { world := w
              ranks := Function.update s.sys.ranks self ((s.sys.ranks self).enter frame)
              joins := s.sys.record w self } (.call self) = [] := by
          refine List.eq_nil_iff_forall_not_mem.mpr fun access accessed => ?_
          exact (Sys.turn_of_accesses accessed).2 (congrFun ticket self)
        rw [none, Traced.counted_eq ticket]
        exact turnover.reject idle size ticket slots nothing
      · have counted : s.counted
            { world := w
              ranks := Function.update s.sys.ranks self ((s.sys.ranks self).enter frame)
              joins := s.sys.record w self } =
            Function.update s.entered self (s.entered self + 1) := by
          funext rank
          have ticket := congrFun leaves.within.ticket rank
          by_cases same : rank = self
          · subst same
            have moved : (w.ticket rank) ≠ s.sys.world.ticket rank := by
              rw [ticket, turnover.ticket]
              simp only [World.claimed, Function.update_self, turnover.ticket]
              omega
            simp [Traced.counted, moved]
          · have kept : w.ticket rank = s.sys.world.ticket rank := by
              rw [ticket]
              simp [World.claimed, same]
            simp [Traced.counted, kept, same]
        rw [counted]
        refine turnover.enter valid idle unlocked own leaves (vacated self rfl) ?_ ?_
        · intro event isNew
          obtain ⟨access, accessed, rfl⟩ := List.mem_map.mp isNew
          exact (Sys.turn_of_accesses accessed).1
        · intro event isNew
          obtain ⟨access, _, rfl⟩ := List.mem_map.mp isNew
          rfl
  | act self =>
      obtain ⟨action, rest, done, todo, performed, rfl⟩ := Sys.step_act made
      have ticket : done.world.ticket = s.sys.world.ticket := by
        rcases Action.exec_cases performed with ⟨id, rfl, moved, _⟩ | ⟨_, midway⟩
        · rw [moved]
          rfl
        · exact midway.ticket
      have accesses : ((s.sys.ranks self).cont.head?.map Action.accesses).getD [] = action.accesses := by
        rw [todo]
        rfl
      rw [Traced.counted_eq ticket]
      simp only [Sys.accesses, accesses]
      exact turnover.act todo performed
  | wait self id =>
      obtain ⟨_, _, _, rfl⟩ := Sys.step_wait made
      have conts : ∀ rank, ((Function.update s.sys.ranks self
          ((s.sys.ranks self).leave id (s.sys.world.cookies id).err)) rank).cont =
          (s.sys.ranks rank).cont := by
        intro rank
        by_cases own : rank = self <;> simp [own]
      have counted : s.counted
          { s.sys with
            world := s.sys.world.finalize id
            ranks := Function.update s.sys.ranks self
              ((s.sys.ranks self).leave id (s.sys.world.cookies id).err) } = s.entered :=
        Traced.counted_eq (s.sys.world.finalize_ticket id)
      rw [counted]
      exact
        { size := turnover.size
          ticket := turnover.ticket
          turns := fun rank action member => turnover.turns rank action (conts rank ▸ member)
          ordered := turnover.ordered
          slots := by
            intro turn valid
            obtain ⟨position, past, shift⟩ := turnover.slots turn valid
            refine ⟨position, past, shift.frame rfl (fun _ _ => Or.inl rfl) shift.events ?_⟩
            exact fun rank action member _ _ _ => ⟨conts rank ▸ member, rfl⟩ }

/-- Accesses in the order of their operations. -/
theorem Turnover.exclusive (turnover : Turnover n s) : s.Exclusive := by
  intro later earlier event split _ wrote
  have ordered := turnover.ordered event.turn
  rw [split, List.filter_append, List.pairwise_append] at ordered
  have sorted := ordered.2.1
  rw [List.filter_cons_of_pos (by simp), List.pairwise_cons] at sorted
  obtain ⟨bounded, sorted⟩ := sorted
  -- the writers of one field are among those who access the slot
  have among : (earlier.filter fun other => other.turn = event.turn ∧ other.field = event.field ∧
      other.writes) = (earlier.filter fun other => other.turn = event.turn).filter fun other =>
        other.field = event.field ∧ other.writes := by
    rw [List.filter_filter]
    refine List.filter_congr fun other _ => ?_
    simp only [Bool.decide_and, Bool.and_comm]
  have descending : (Traced.writers earlier event.turn event.field).Pairwise fun first second =>
      second ≤ first := by
    rw [Traced.writers, among]
    exact List.pairwise_map.mpr (sorted.filter _)
  have atMost : ∀ operation ∈ Traced.writers earlier event.turn event.field,
      operation ≤ event.operation := by
    intro operation member
    rw [Traced.writers, among] at member
    obtain ⟨other, listed, rfl⟩ := List.mem_map.mp member
    exact bounded other (List.mem_of_mem_filter listed)
  cases list : Traced.writers earlier event.turn event.field with
  | nil =>
      rw [list] at wrote
      cases wrote
  | cons latest before =>
      rw [list] at wrote descending atMost
      have below := atMost latest List.mem_cons_self
      rcases List.mem_cons.mp wrote with same | older
      · rw [same]
        rfl
      · have above := (List.pairwise_cons.mp descending).1 _ older
        rw [List.head?_cons, Nat.le_antisymm below above]

/-- In every run, whatever the ranks call and whatever fails: if everybody who finds a slot idle finds that nobody has
    an access to its data left to make, the data of every slot belongs to one operation at a time. -/
theorem slot_data_exclusive {mem : Memory} (several : 2 ≤ n)
    (run : Traced.ReachesBy vm program Traced.Vacated (Traced.init n mem) s) : s.Exclusive := by
  have turnover : Turnover n s := by
    induction run with
    | refl => exact Turnover.start mem (by omega)
    | tail label _ condition stepped ih => exact ih.step condition stepped
  exact turnover.exclusive

end Turnover

/-- A gatherv in which the root comes first: rank 1 reads its displacement while the root is still the only one who
    has written any. -/
theorem slot_data_exclusive_gatherv :
    ∃ s, (Traced.init 2 sevens).run copyingVm
        (fun rank _ => some (gathervCalls charToSend (charsToReceive 0) 0 rank)) [.call 0, .call 1, .act 1] = .ok s ∧
      s.Exclusive := by
  have runs : ∃ first second s, (Traced.init 2 sevens).step copyingVm
        (fun rank _ => some (gathervCalls charToSend (charsToReceive 0) 0 rank)) (.call 0) = .ok first ∧
      first.step copyingVm (fun rank _ => some (gathervCalls charToSend (charsToReceive 0) 0 rank)) (.call 1) =
        .ok second ∧
      (second.step copyingVm (fun rank _ => some (gathervCalls charToSend (charsToReceive 0) 0 rank)) (.act 1) =
          .ok s ∧
        (first.sys.world.slots 0).box ≠ [] ∧ first.sys.world.ticket 1 = 0) ∧
      (Traced.init 2 sevens).run copyingVm
        (fun rank _ => some (gathervCalls charToSend (charsToReceive 0) 0 rank)) [.call 0, .call 1, .act 1] = .ok s :=
    ⟨_, _, _, rfl, rfl, ⟨rfl, by decide, by decide⟩, rfl⟩
  obtain ⟨first, second, s, root, member, ⟨acted, boxed, ticket⟩, ran⟩ := runs
  refine ⟨s, ran, slot_data_exclusive le_rfl (.tail (.act 1) (.tail (.call 1) (.tail (.call 0) .refl ?_ root) ?_ member)
    ?_ acted)⟩
  · -- nobody is in a call yet
    intro rank own turn idle other action todo
    cases todo
  · -- the root's cookie is in the box
    intro rank own turn idle
    obtain rfl := Label.call.inj own
    simp only [turn, ticket] at idle
    exact absurd idle boxed
  · intro rank own
    cases own

/-- Rank 1 has joined the first gatherv but has not read `displs_` when the root is sixteen operations ahead and has
    written the displacements of the next operation in the same slot. -/
theorem slot_data_shared :
    ∃ s, (Traced.init 2 sevens).run copyingVm
        (fun rank _ => some (gathervCalls charToSend (charsToReceive 0) 0 rank))
        ([.call 0, .call 1] ++ List.replicate 16 (.call 0) ++ [.act 1]) = .ok s ∧
      (∀ rank < 2, ∀ ret ∈ (s.sys.ranks rank).rets, ret = mpiSuccess) ∧ ¬ s.Exclusive := by
  refine ⟨_, rfl, by decide, ?_⟩
  intro exclusive
  have latest := exclusive [] _ _ rfl rfl (by decide)
  revert latest
  decide

end Umpi
