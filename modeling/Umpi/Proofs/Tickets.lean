/-
Module: Umpi.Proofs.Tickets
Layer: Proofs
Purpose: Collective calls are paired by their position in the program. The ranks run programs of any length
  over the sixteen slots, with several operations in flight. `Tickets` is the invariant: for every slot it
  names the position of the operation the slot is in (or waits for), bounds how far a rank may be from it,
  and says that the slot is as this operation's schedule leaves it. A ticket is a position modulo `2 ^ 32`,
  and the bounds make it as good as the position itself.
Imports: Umpi.Proofs.Places
Trusted boundary: none
Main exports: PairedByPosition, Tickets, Tickets.enter, Tickets.exists_join, collective_calls_paired
Open obligations: none
-/
import Umpi.Proofs.Places

namespace Umpi

open Foundation Sys

/-! ### Calls that get into their slot -/

/-- If `outcome` is that of an accepted call then `first` has returned. -/
def Passes {α : Type} (first : Outcome α) (outcome : Outcome (World × Frame)) : Prop :=
  ∀ result, outcome = .ok result → result.2.Accepted → ∃ value, first = .ok value

namespace Passes

variable {α β : Type} {first : Outcome α}

theorem failed (w : World) : Passes first (.ok (w, Frame.failed mpiFail)) := by
  intro result same accepted
  obtain rfl := Outcome.ok.inj same
  exact absurd accepted (Frame.not_accepted_failed mpiFail_ne_mpiSuccess)

theorem through (next : α → Outcome (World × Frame)) : Passes first (first >>= next) := by
  intro result same _
  obtain ⟨value, returned, _⟩ := Outcome.bind_eq_ok.mp same
  exact ⟨value, returned⟩

theorem bind {other : Outcome β} {next : β → Outcome (World × Frame)}
    (passes : ∀ value, Passes first (next value)) : Passes first (other >>= next) := by
  intro result same accepted
  obtain ⟨value, _, rest⟩ := Outcome.bind_eq_ok.mp same
  exact passes value result rest accepted

theorem ite {condition : Prop} [Decidable condition] {yes no : Outcome (World × Frame)}
    (left : Passes first yes) (right : Passes first no) :
    Passes first (if condition then yes else no) := by
  split
  · exact left
  · exact right

end Passes

theorem mpiIallreduce_passes (vm : ProcessVm) (w : World) (self : Nat) (sendbuf recvbuf : Pointer)
    (count : Int) (datatype : MpiDatatype) (op : Option UmpiOp) (comm : MpiComm) :
    Passes (w.getCurrentSlot self) (mpiIallreduce vm w self sendbuf recvbuf count datatype op comm) := by
  unfold mpiIallreduce
  split
  · exact .ite (.failed w) (.ite (.failed w) (.through _))
  · exact .failed w

/-- An accepted call has entered its slot, unless it is an `MPI_Allreduce` of a single process. -/
theorem Call.enter_passes (vm : ProcessVm) (w : World) (self : Nat) (call : Call) (several : w.size ≠ 1) :
    Passes (w.getCurrentSlot self) (call.enter vm w self) := by
  cases call with
  | bcast => exact .ite (.failed w) (.bind fun _ => .through _)
  | allgather => exact .ite (.failed w) (.bind fun _ => .bind fun _ => .ite (.failed w) (.through _))
  | allreduce => exact mpiIallreduce_passes _ _ _ _ _ _ _ _ _
  | blockingAllreduce sendbuf recvbuf count datatype op comm =>
      show Passes _ (mpiAllreduce vm w self sendbuf recvbuf count datatype op comm)
      rw [mpiAllreduce_eq several]
      exact mpiIallreduce_passes _ _ _ _ _ _ _ _ _
  | exscan sendbuf recvbuf count datatype op comm =>
      show Passes _ (mpiIexscan vm w self sendbuf recvbuf count datatype op comm)
      unfold mpiIexscan
      split
      · exact .ite (.failed w) (.ite (.failed w) (.through _))
      · exact .failed w
  | scan sendbuf recvbuf count datatype op comm =>
      show Passes _ (mpiIscan vm w self sendbuf recvbuf count datatype op comm)
      unfold mpiIscan
      split
      · exact .ite (.failed w) (.ite (.failed w) (.through _))
      · exact .failed w
  | gather => exact .ite (.failed w) (.through _)
  | gatherv => exact .ite (.failed w) (.through _)
  | scatter => exact .ite (.failed w) (.through _)

/-- It finds its own ticket in a slot that is not idle. -/
theorem Call.ticket_of_enter {vm : ProcessVm} {w w' : World} {self : Nat} {call : Call} {frame : Frame}
    (several : w.size ≠ 1) (entered : call.enter vm w self = .ok (w', frame)) (accepted : frame.Accepted)
    (busy : (w.slots (w.turnOf self)).box ≠ []) :
    (w.slots (w.turnOf self)).ticket = w.ticket self := by
  obtain ⟨⟨turn, claimed⟩, got⟩ := call.enter_passes vm w self several _ entered accepted
  obtain ⟨rfl, _, _, mine⟩ := getCurrentSlot_eq_ok got
  exact mine busy

/-! ### The record of joins -/

/-- The record that the ranks of `past`, the latest first, leave with their calls number `pos`. -/
def recordOf (n pos : Nat) : List Nat → List Join
  | [] => []
  | rank :: past => recordOf n pos past ++ [{ rank := rank, pos := pos, last := past.length + 1 = n }]

section Records

variable {n pos : Nat} {past : List Nat}

@[simp] theorem length_recordOf : (recordOf n pos past).length = past.length := by
  induction past with
  | nil => rfl
  | cons rank past ih => simp [recordOf, ih]

@[simp] theorem map_rank_recordOf : (recordOf n pos past).map Join.rank = past.reverse := by
  induction past with
  | nil => rfl
  | cons rank past ih => simp [recordOf, ih]

theorem recordOf_ne_nil (someone : past ≠ []) : recordOf n pos past ≠ [] := by
  rw [← List.length_pos_iff, length_recordOf]
  exact List.length_pos_iff.mpr someone

theorem pos_of_mem_recordOf {join : Join} (member : join ∈ recordOf n pos past) : join.pos = pos := by
  induction past with
  | nil => cases member
  | cons rank past ih =>
      rcases List.mem_append.mp member with earlier | now
      · exact ih earlier
      · rw [List.mem_singleton.mp now]

/-- Only the rank that completes the operation is the last one. -/
theorem countP_last_recordOf (bounded : past.length ≤ n) (several : 0 < n) :
    (recordOf n pos past).countP Join.last = if past.length = n then 1 else 0 := by
  induction past with
  | nil =>
      have notFull : ¬ 0 = n := by omega
      simp [recordOf, notFull]
  | cons rank past ih =>
      have short : past.length + 1 ≤ n := bounded
      have notFull : past.length ≠ n := by omega
      rw [recordOf, List.countP_append, ih (by omega), if_neg notFull]
      by_cases last : past.length + 1 = n <;> simp [last]

end Records

/-! ### The invariant -/

/-- The calls recorded for a slot belong together. -/
structure PairedByPosition (n : Nat) (s : Sys) (turn : Nat) : Prop where
  /-- Between two critical sections the box is empty exactly when nobody or everybody has joined. -/
  idle : (s.world.slots turn).mutex = none →
    ((s.world.slots turn).box = [] ↔ (s.joins turn).length = 0 ∨ (s.joins turn).length = n)
  samePosition : ∀ join ∈ s.joins turn, ∀ other ∈ s.joins turn, join.pos = other.pos
  distinct : ((s.joins turn).map Join.rank).Nodup
  counted : s.joins turn ≠ [] → (s.world.slots turn).joined = (s.joins turn).length
  /-- `joined_last()` has held for nobody yet, or for exactly one rank if everybody has joined. -/
  last : (s.joins turn).countP Join.last = if (s.joins turn).length = n then 1 else 0

/-- The slot `turn` is in the operation at `position` of the program, which the ranks of `past` have
    joined, or nobody has joined it yet. -/
structure Stage (program : Program) (n turn position : Nat) (past : List Nat) (made : Nat → Nat)
    (s : Sys) : Prop where
  mine : position % umpiOutstandingCollectiveOperations = turn
  joining : Schedule.Joining n past
  partly : past.length < n
  /-- Who has joined is who is past the position, ... -/
  joined : ∀ rank < n, rank ∈ past ↔ position < (s.ranks rank).pos
  /-- ... by at most one round of slots, ... -/
  ahead : ∀ rank < n, (s.ranks rank).pos ≤ position + umpiOutstandingCollectiveOperations
  /-- ... and nobody is a round of slots behind. -/
  behind : ∀ rank < n, position < (s.ranks rank).pos + umpiOutstandingCollectiveOperations
  unlocked : (s.world.slots turn).mutex = none
  idle : past = [] → (s.world.slots turn).box = []
  standing : past ≠ [] → ∃ rank < n, ∃ call, program rank position = some call ∧
    call.schedule.Suits n ∧ Standing call.schedule n past s.world turn made
  ticket : past ≠ [] → (s.world.slots turn).ticket = position % 2 ^ 32
  record : past ≠ [] → s.joins turn = recordOf n position past
  /-- An idle slot has never been used, or keeps the record of its latest complete operation. -/
  complete : past = [] → s.joins turn = [] ∨
    ∃ order before, Schedule.Joining n order ∧ order.length = n ∧
      s.joins turn = recordOf n before order ∧ (s.world.slots turn).joined = n

/-- All ranks have tickets that count their calls, and every slot is at some stage. -/
structure Tickets (program : Program) (n : Nat) (s : Sys) : Prop where
  size : s.world.size = n
  placed : Placed s
  ticket : ∀ rank, s.world.ticket rank = (s.ranks rank).pos % 2 ^ 32
  slots : ∀ turn < umpiOutstandingCollectiveOperations,
    ∃ position past made, Stage program n turn position past made s

/-- Ranks of one operation see the same slot, also if they disagree on `MPI_IN_PLACE`. -/
theorem Standing.of_operation {n : Nat} {past : List Nat} {w : World} {turn : Nat} {made : Nat → Nat}
    {call other : Call} (same : call.operation = other.operation)
    (standing : Standing call.schedule n past w turn made) :
    Standing other.schedule n past w turn made := by
  have boxes : call.schedule.box n past = other.schedule.box n past := by
    unfold Call.schedule
    rw [same]
    cases other.operation <;> rfl
  exact
    { size := standing.size
      box := boxes ▸ standing.box
      joined := standing.joined
      src := boxes ▸ standing.src }

/-- A slot nobody has joined suits every schedule. -/
theorem Standing.of_idle {schedule : Schedule} {n : Nat} {w : World} {turn : Nat} (made : Nat → Nat)
    (size : w.size = n) (idle : (w.slots turn).box = []) : Standing schedule n [] w turn made := by
  have empty : schedule.box n [] = [] := by cases schedule <;> simp [Schedule.box]
  exact
    { size := size
      box := by rw [empty, idle, List.map_nil]
      joined := fun impossible => absurd rfl impossible
      src := by simp [empty] }

namespace Stage

variable {program : Program} {n turn position : Nat} {past : List Nat} {made : Nat → Nat} {s s' : Sys}

/-- The box is empty exactly when nobody has joined yet. -/
theorem box_eq_nil (stage : Stage program n turn position past made s) :
    (s.world.slots turn).box = [] ↔ past = [] := by
  refine ⟨fun empty => ?_, stage.idle⟩
  by_contra some
  obtain ⟨_, _, call, _, _, standing⟩ := stage.standing some
  rw [standing.box, List.map_eq_nil_iff] at empty
  exact some ((Schedule.box_eq_nil stage.partly).mp empty)

/-- What a stage says about the calls of its slot. -/
theorem paired (stage : Stage program n turn position past made s) : PairedByPosition n s turn := by
  have several : 0 < n := Nat.zero_lt_of_lt stage.partly
  by_cases idle : past = []
  · have empty := stage.idle idle
    rcases stage.complete idle with unused | ⟨order, before, joining, full, record, joined⟩
    · exact
        { idle := fun _ => by simp [empty, unused]
          samePosition := by simp [unused]
          distinct := by simp [unused]
          counted := fun impossible => absurd unused impossible
          last := by simp [unused, several.ne] }
    · exact
        { idle := fun _ => by simp [empty, record, full]
          samePosition := by
            intro join member other member'
            rw [record] at member member'
            rw [pos_of_mem_recordOf member, pos_of_mem_recordOf member']
          distinct := by simpa [record] using joining.nodup
          counted := fun _ => by simp [record, full, joined]
          last := by rw [record, countP_last_recordOf full.le several, length_recordOf] }
  · have record := stage.record idle
    obtain ⟨_, _, call, _, _, standing⟩ := stage.standing idle
    exact
      { idle := fun _ => by
          rw [stage.box_eq_nil, record, length_recordOf, List.length_eq_zero_iff]
          exact ⟨Or.inl, fun either => either.resolve_right stage.partly.ne⟩
        samePosition := by
          intro join member other member'
          rw [record] at member member'
          rw [pos_of_mem_recordOf member, pos_of_mem_recordOf member']
        distinct := by simpa [record] using stage.joining.nodup
        counted := fun _ => by rw [record, length_recordOf, standing.joined idle]
        last := by rw [record, countP_last_recordOf stage.partly.le several, length_recordOf] }

/-- A step that leaves the slot and its cookies alone, made by a rank that is not at this position. -/
theorem frame (stage : Stage program n turn position past made s)
    (size : s'.world.size = s.world.size)
    (control : (s'.world.slots turn).control = (s.world.slots turn).control)
    (stable : ∀ id ∈ (s.world.slots turn).box,
      (s'.world.cookies id).stable = (s.world.cookies id).stable)
    (pos : ∀ rank < n, (s'.ranks rank).pos = (s.ranks rank).pos ∨
      (s'.ranks rank).pos = (s.ranks rank).pos + 1 ∧
        (s.ranks rank).pos % umpiOutstandingCollectiveOperations ≠ turn)
    (joins : s'.joins turn = s.joins turn) : Stage program n turn position past made s' where
  mine := stage.mine
  joining := stage.joining
  partly := stage.partly
  joined := by
    intro rank inRange
    rw [stage.joined rank inRange]
    have mine := stage.mine
    rcases pos rank inRange with same | ⟨next, elsewhere⟩
    · rw [same]
    · have different : position ≠ (s.ranks rank).pos := fun same => elsewhere (same ▸ mine)
      omega
  ahead := by
    intro rank inRange
    have before := stage.ahead rank inRange
    have mine := stage.mine
    simp only [umpiOutstandingCollectiveOperations] at *
    rcases pos rank inRange with same | ⟨next, elsewhere⟩ <;> omega
  behind := by
    intro rank inRange
    have before := stage.behind rank inRange
    rcases pos rank inRange with same | ⟨next, _⟩ <;> omega
  unlocked := (congrArg Collect.mutex control).trans stage.unlocked
  idle := fun idle => (congrArg Collect.box control).trans (stage.idle idle)
  standing := by
    intro busy
    obtain ⟨rank, inRange, call, listed, suits, standing⟩ := stage.standing busy
    refine ⟨rank, inRange, call, listed, suits, ?_⟩
    exact
      { size := size.trans standing.size
        box := (congrArg Collect.box control).trans standing.box
        joined := fun nonempty => (congrArg Collect.joined control).trans (standing.joined nonempty)
        src := by
          intro other inBox
          have listed : made other ∈ (s.world.slots turn).box := by
            rw [standing.box]
            exact List.mem_map_of_mem inBox
          exact (Cookie.src_of_stable (stable _ listed)).trans (standing.src other inBox) }
  ticket := fun busy => (congrArg Collect.ticket control).trans (stage.ticket busy)
  record := fun busy => joins.trans (stage.record busy)
  complete := by
    intro idle
    rw [joins]
    refine (stage.complete idle).imp_right ?_
    rintro ⟨order, before, joining, full, record, joined⟩
    exact ⟨order, before, joining, full, record, (congrArg Collect.joined control).trans joined⟩

/-- A rank that finds its own ticket in the slot, or an idle slot, is at the slot's position: tickets
    that agree modulo `2 ^ 32` belong to positions that agree, because nobody is further away than a
    round of slots. -/
theorem position_eq (stage : Stage program n turn position past made s) {self : Nat} (valid : self < n)
    (own : (s.ranks self).pos % umpiOutstandingCollectiveOperations = turn)
    (mine : (s.world.slots turn).box ≠ [] →
      (s.world.slots turn).ticket = (s.ranks self).pos % 2 ^ 32) :
    position = (s.ranks self).pos := by
  have residue := stage.mine
  have ahead := stage.ahead self valid
  have behind := stage.behind self valid
  have joined := stage.joined self valid
  simp only [umpiOutstandingCollectiveOperations] at *
  by_cases idle : past = []
  · have notPast : ¬ position < (s.ranks self).pos := by
      rw [← joined, idle]
      exact List.not_mem_nil
    omega
  · have ticket := mine (mt stage.box_eq_nil.mp idle)
    rw [stage.ticket idle] at ticket
    omega

end Stage

namespace Tickets

variable {program : Program} {n : Nat} {s s' : Sys}

theorem start (program : Program) (mem : Memory) (several : 0 < n) :
    Tickets program n (Sys.init n mem) where
  size := rfl
  placed :=
    { exclusive :=
        { nodup := fun place => by cases place <;> exact List.nodup_nil
          disjoint := fun place _ _ a held => by cases place <;> cases held }
      allocated := fun place a held => by cases place <;> cases held
      moves := fun _ => List.Perm.refl _ }
  ticket := fun _ => rfl
  slots := by
    intro turn valid
    exact ⟨turn, [], id,
      { mine := Nat.mod_eq_of_lt valid
        joining := ⟨List.nodup_nil, fun _ member => nomatch member⟩
        partly := several
        joined := fun rank _ => iff_of_false List.not_mem_nil (Nat.not_lt_zero _)
        ahead := fun rank _ => Nat.zero_le _
        behind := fun rank _ => valid.trans_le (Nat.le_add_left _ _)
        unlocked := rfl
        idle := fun _ => rfl
        standing := fun impossible => absurd rfl impossible
        ticket := fun impossible => absurd rfl impossible
        record := fun impossible => absurd rfl impossible
        complete := fun _ => Or.inl rfl }⟩

/-- A step that is no call leaves all slots at their stages. -/
theorem update (tickets : Tickets program n s) (placed : Placed s')
    (size : s'.world.size = s.world.size) (ticket : s'.world.ticket = s.world.ticket)
    (control : ∀ turn, (s'.world.slots turn).control = (s.world.slots turn).control)
    (stable : ∀ id, (s'.world.cookies id).stable = (s.world.cookies id).stable)
    (pos : ∀ rank, (s'.ranks rank).pos = (s.ranks rank).pos) (joins : s'.joins = s.joins) :
    Tickets program n s' where
  size := size.trans tickets.size
  placed := placed
  ticket := fun rank => by rw [ticket, tickets.ticket, pos]
  slots := by
    intro turn valid
    obtain ⟨position, past, made, stage⟩ := tickets.slots turn valid
    exact ⟨position, past, made, stage.frame size (control turn) (fun id _ => stable id)
      (fun rank _ => Or.inl (pos rank)) (congrFun joins turn)⟩

/-- The slot of a rank's next call is given by its position, also when the ticket has wrapped around. -/
theorem turnOf_eq (tickets : Tickets program n s) (self : Nat) :
    s.world.turnOf self = (s.ranks self).pos % umpiOutstandingCollectiveOperations := by
  rw [World.turnOf, tickets.ticket, umpiOutstandingCollectiveOperations]
  omega

section Entering

variable {vm : ProcessVm} {self : Nat} {past : List Nat} {made made' : Nat → Nat} {call : Call}
  {mid w' : World} {offer : Offer} {cont : List Action} {frame : Frame}

/-- The rank whose call is next finds the slot as its schedule needs it. -/
theorem arriving (tickets : Tickets program n s) (several : 2 ≤ n) (limit : n ≤ 10000)
    (alike : ∀ rank < n, ∀ pos,
      (program rank pos).map Call.operation = (program 0 pos).map Call.operation)
    (valid : self < n) (listed : program self (s.ranks self).pos = some call)
    (stage : Stage program n (s.world.turnOf self) (s.ranks self).pos past made s) :
    Arriving call.schedule n past s.world self made where
  standing := by
    by_cases first : past = []
    · subst first
      exact Standing.of_idle made tickets.size (stage.idle rfl)
    · obtain ⟨rank, inRange, other, listed', _, standing⟩ := stage.standing first
      have same := (alike rank inRange (s.ranks self).pos).trans (alike self valid _).symm
      rw [listed, listed'] at same
      exact standing.of_operation (Option.some.inj same)
  joining :=
    { nodup := List.nodup_cons.mpr
        ⟨fun joined => lt_irrefl _ ((stage.joined self valid).mp joined), stage.joining.nodup⟩
      bound := by
        intro rank member
        rcases List.mem_cons.mp member with rfl | earlier
        · exact valid
        · exact stage.joining.bound rank earlier }
  several := Or.inl several
  fresh := by
    intro rank inBox
    have nonempty : past ≠ [] := by
      rintro rfl
      cases schedules : call.schedule <;> simp [schedules, Schedule.box] at inBox
    obtain ⟨rank', inRange, other, listed', _, standing⟩ := stage.standing nonempty
    have same := (alike rank' inRange (s.ranks self).pos).trans (alike self valid _).symm
    rw [listed, listed'] at same
    have held : made rank ∈ s.holds (.box (s.world.turnOf self)) := by
      show made rank ∈ (s.world.slots (s.world.turnOf self)).box
      rw [(standing.of_operation (Option.some.inj same)).box]
      exact List.mem_map_of_mem inBox
    unfold World.newName
    cases free : (s.world.procs self).free with
    | nil => exact (tickets.placed.allocated _ _ held).ne
    | cons id rest =>
        rintro rfl
        have held' : made rank ∈ s.holds (.free self) := by
          show made rank ∈ (s.world.procs self).free
          rw [free]
          exact List.mem_cons_self
        exact tickets.placed.exclusive.disjoint (.box _) (.free self) (by simp) held held'
  small := by omega

/-- The slot's record grows by the newcomer, or starts with it. -/
theorem record_eq (tickets : Tickets program n s)
    (stage : Stage program n (s.world.turnOf self) (s.ranks self).pos past made s)
    (entered : Entered call.schedule n past s.world self mid offer cont (w', frame) made made')
    (standing : Standing call.schedule n (self :: past) w' (s.world.turnOf self) made') :
    s.record w' self =
      Function.update s.joins (s.world.turnOf self) (recordOf n (s.ranks self).pos (self :: past)) := by
  have ticket : w'.ticket self = (s.world.ticket self + 1) % 2 ^ 32 := by
    have same : w'.ticket = (s.world.claimed self).ticket :=
      entered.settles.ticket.trans entered.midway.ticket
    rw [same]
    simp [World.claimed]
  have moved : w'.ticket self ≠ s.world.ticket self := by
    rw [ticket, tickets.ticket]
    omega
  have last : w'.joinedLast (s.world.turnOf self) = decide (past.length + 1 = n) := by
    rw [World.joinedLast, standing.joined (by simp), standing.size, Bool.eq_iff_iff]
    simp only [beq_iff_eq, decide_eq_true_eq, List.length_cons]
    omega
  have before : (if (s.world.slots (s.world.turnOf self)).box = [] then [] else
      s.joins (s.world.turnOf self)) = recordOf n (s.ranks self).pos past := by
    by_cases first : past = []
    · rw [if_pos (stage.idle first), first]
      rfl
    · rw [if_neg (mt stage.box_eq_nil.mp first), stage.record first]
  unfold Sys.record
  simp only [if_neg moved]
  rw [recordOf, ← before, ← last]
  rfl

/-- The newcomer's slot while somebody is still missing. -/
theorem enter_partly (tickets : Tickets program n s) (valid : self < n)
    (listed : program self (s.ranks self).pos = some call) (suits : call.schedule.Suits n)
    (stage : Stage program n (s.world.turnOf self) (s.ranks self).pos past made s)
    (joining : Schedule.Joining n (self :: past)) (short : past.length + 1 < n)
    (entered : Entered call.schedule n past s.world self mid offer cont (w', frame) made made')
    (standing : Standing call.schedule n (self :: past) w' (s.world.turnOf self) made') :
    Stage program n (s.world.turnOf self) (s.ranks self).pos (self :: past) made'
      { world := w'
        ranks := Function.update s.ranks self ((s.ranks self).enter frame)
        joins := s.record w' self } where
  mine := stage.mine
  joining := joining
  partly := short
  joined := by
    intro rank inRange
    by_cases own : rank = self
    · subst own
      simp
    · simpa [own] using stage.joined rank inRange
  ahead := by
    intro rank inRange
    by_cases own : rank = self
    · subst own
      simp [umpiOutstandingCollectiveOperations]
    · simpa [own] using stage.ahead rank inRange
  behind := by
    intro rank inRange
    by_cases own : rank = self
    · subst own
      simp only [Function.update_self, RankState.enter_pos]
      omega
    · simpa [own] using stage.behind rank inRange
  unlocked := by rw [entered.settles.slot]
  idle := fun impossible => nomatch impossible
  standing := fun _ => ⟨self, valid, call, listed, suits, standing⟩
  ticket := by
    intro _
    have claimed : (mid.slots (s.world.turnOf self)).ticket =
        ((s.world.claimed self).slots (s.world.turnOf self)).ticket :=
      (congrArg Collect.ticket (entered.midway.slots _) :)
    rw [entered.settles.slot, ← tickets.ticket]
    refine claimed.trans ?_
    simp [World.claimed, World.turnOf]
  record := fun _ => by simp [tickets.record_eq stage entered standing]
  complete := fun impossible => nomatch impossible

/-- The newcomer's slot when everybody has joined waits for the operation one round of slots later. -/
theorem enter_full (tickets : Tickets program n s)
    (stage : Stage program n (s.world.turnOf self) (s.ranks self).pos past made s)
    (joining : Schedule.Joining n (self :: past)) (full : past.length + 1 = n)
    (entered : Entered call.schedule n past s.world self mid offer cont (w', frame) made made')
    (standing : Standing call.schedule n (self :: past) w' (s.world.turnOf self) made') :
    Stage program n (s.world.turnOf self) ((s.ranks self).pos + umpiOutstandingCollectiveOperations) []
      made'
      { world := w'
        ranks := Function.update s.ranks self ((s.ranks self).enter frame)
        joins := s.record w' self } where
  mine := (Nat.add_mod_right _ _).trans stage.mine
  joining := ⟨List.nodup_nil, fun _ member => nomatch member⟩
  partly := Nat.zero_lt_of_lt stage.partly
  joined := by
    intro rank inRange
    refine iff_of_false List.not_mem_nil ?_
    by_cases own : rank = self
    · subst own
      simp [umpiOutstandingCollectiveOperations]
    · have ahead := stage.ahead rank inRange
      simpa [own] using ahead
  ahead := by
    intro rank inRange
    by_cases own : rank = self
    · subst own
      simp only [Function.update_self, RankState.enter_pos, umpiOutstandingCollectiveOperations]
      omega
    · have ahead := stage.ahead rank inRange
      simp only [Function.update_of_ne own]
      omega
  behind := by
    intro rank inRange
    by_cases own : rank = self
    · subst own
      simp
    · have earlier : rank ∈ past :=
        (List.mem_cons.mp (joining.mem_of_full full inRange)).resolve_left own
      have past := (stage.joined rank inRange).mp earlier
      simp only [Function.update_of_ne own]
      omega
  unlocked := by rw [entered.settles.slot]
  idle := fun _ => by
    have everyone : (self :: past).length = n := full
    rw [standing.box, Schedule.box_full everyone, List.map_nil]
  standing := fun impossible => absurd rfl impossible
  ticket := fun impossible => absurd rfl impossible
  record := fun impossible => absurd rfl impossible
  complete := by
    refine fun _ => Or.inr ⟨self :: past, (s.ranks self).pos, joining, full, ?_, ?_⟩
    · simp [tickets.record_eq stage entered standing]
    · rw [standing.joined (by simp), List.length_cons, full]

/-- The other slots are where they were. -/
theorem enter_other (tickets : Tickets program n s) {turn position : Nat}
    {other : List Nat} {names : Nat → Nat}
    (stage : Stage program n turn position other names s) (elsewhere : turn ≠ s.world.turnOf self)
    (own : Stage program n (s.world.turnOf self) (s.ranks self).pos past made s)
    (entered : Entered call.schedule n past s.world self mid offer cont (w', frame) made made')
    (standing : Standing call.schedule n (self :: past) w' (s.world.turnOf self) made') :
    Stage program n turn position other names
      { world := w'
        ranks := Function.update s.ranks self ((s.ranks self).enter frame)
        joins := s.record w' self } := by
  refine stage.frame ?_ ?_ ?_ ?_ ?_
  · exact entered.settles.size.trans entered.midway.size
  · have kept : w'.slots turn = mid.slots turn := entered.settles.otherSlots turn elsewhere
    have claimed : (s.world.claimed self).slots turn = s.world.slots turn := by
      have different : turn ≠ s.world.ticket self % umpiOutstandingCollectiveOperations := elsewhere
      simp [World.claimed, different]
    show (w'.slots turn).control = (s.world.slots turn).control
    rw [kept, entered.midway.slots, claimed]
  · -- the new cookie is not one that is in a box
    intro id inBox
    have held : id ∈ s.holds (.box turn) := inBox
    refine (entered.oldCookie fun makes same => ?_).1
    rcases entered.newName makes with old | new
    · rw [← same] at old
      exact tickets.placed.exclusive.disjoint (.box turn) (.free self) (by simp) held old
    · have small := tickets.placed.allocated _ _ held
      omega
  · intro rank inRange
    by_cases same : rank = self
    · subst same
      refine Or.inr ⟨by simp, ?_⟩
      rw [← tickets.turnOf_eq]
      exact Ne.symm elsewhere
    · exact Or.inl (by simp [same])
  · show s.record w' self turn = s.joins turn
    rw [tickets.record_eq own entered standing, Function.update_of_ne elsewhere]

/-- A call that is accepted joins the operation at its position. -/
theorem exists_entered (tickets : Tickets program n s) (several : 2 ≤ n) (limit : n ≤ 10000)
    (alike : ∀ rank < n, ∀ pos,
      (program rank pos).map Call.operation = (program 0 pos).map Call.operation)
    (valid : self < n) (listed : program self (s.ranks self).pos = some call)
    (called : call.enter vm s.world self = .ok (w', frame)) (accepted : frame.Accepted) :
    ∃ past made mid offer cont made',
      Stage program n (s.world.turnOf self) (s.ranks self).pos past made s ∧ call.schedule.Suits n ∧
        Arriving call.schedule n past s.world self made ∧
          Entered call.schedule n past s.world self mid offer cont (w', frame) made made' := by
  obtain ⟨position, past, made, stage⟩ := tickets.slots (s.world.turnOf self) (Nat.mod_lt _ (by decide))
  have severalWorld : s.world.size ≠ 1 := by
    rw [tickets.size]
    omega
  obtain rfl := stage.position_eq valid (tickets.turnOf_eq self).symm fun busy => by
    rw [Call.ticket_of_enter severalWorld called accepted busy, tickets.ticket]
  have arriving := tickets.arriving several limit alike valid listed stage
  obtain ⟨suits, mid, offer, cont, made', entered⟩ :=
    (call.enter_joins vm arriving).of_ok called accepted
  exact ⟨past, made, mid, offer, cont, made', stage, suits, arriving, entered⟩

/-- It leaves its join with the slot. -/
theorem exists_join (tickets : Tickets program n s) (several : 2 ≤ n) (limit : n ≤ 10000)
    (alike : ∀ rank < n, ∀ pos,
      (program rank pos).map Call.operation = (program 0 pos).map Call.operation)
    (valid : self < n) (listed : program self (s.ranks self).pos = some call)
    (called : call.enter vm s.world self = .ok (w', frame)) (accepted : frame.Accepted) :
    ∃ join ∈ s.record w' self ((s.ranks self).pos % umpiOutstandingCollectiveOperations),
      join.rank = self ∧ join.pos = (s.ranks self).pos := by
  obtain ⟨past, made, mid, offer, cont, made', stage, suits, arriving, entered⟩ :=
    tickets.exists_entered several limit alike valid listed called accepted
  have standing := entered.standing arriving suits
  rw [tickets.record_eq stage entered standing, ← tickets.turnOf_eq, Function.update_self, recordOf]
  exact ⟨_, List.mem_append_right _ List.mem_cons_self, rfl, rfl⟩

/-- A rank makes its next call. -/
theorem enter (tickets : Tickets program n s) (several : 2 ≤ n) (limit : n ≤ 10000)
    (alike : ∀ rank < n, ∀ pos,
      (program rank pos).map Call.operation = (program 0 pos).map Call.operation)
    (valid : self < n) (idle : (s.ranks self).cont = [])
    (listed : program self (s.ranks self).pos = some call)
    (called : call.enter vm s.world self = .ok (w', frame)) (accepted : frame.Accepted) :
    Tickets program n
      { world := w'
        ranks := Function.update s.ranks self ((s.ranks self).enter frame)
        joins := s.record w' self } := by
  obtain ⟨past, made, mid, offer, cont, made', stage, suits, arriving, entered⟩ :=
    tickets.exists_entered several limit alike valid listed called accepted
  have joining := arriving.joining
  have standing := entered.standing arriving suits
  refine { size := ?_, placed := ?_, ticket := ?_, slots := ?_ }
  · exact standing.size
  · exact tickets.placed.enter idle arriving.standing suits joining entered _
  · intro rank
    have same : w'.ticket = (s.world.claimed self).ticket :=
      entered.settles.ticket.trans entered.midway.ticket
    show w'.ticket rank = _
    rw [same]
    by_cases own : rank = self
    · subst own
      simp [World.claimed, tickets.ticket]
    · simp [World.claimed, own, tickets.ticket]
  · intro turn turnValid
    by_cases own : turn = s.world.turnOf self
    · subst own
      have bounded : past.length + 1 ≤ n := joining.length_le
      by_cases full : past.length + 1 = n
      · exact ⟨_, _, _, tickets.enter_full stage joining full entered standing⟩
      · exact ⟨_, _, _, tickets.enter_partly valid listed suits stage joining (by omega) entered standing⟩
    · obtain ⟨position, other, names, stage'⟩ := tickets.slots turn turnValid
      exact ⟨_, _, _, tickets.enter_other stage' own stage entered standing⟩

end Entering

/-- A rank performs an action. -/
theorem act {vm : ProcessVm} (tickets : Tickets program n s) {self : Nat} {action : Action}
    {rest : List Action} {done : Transferred} (todo : (s.ranks self).cont = action :: rest)
    (performed : action.exec vm s.world self = .ok done) (goesOn : done.ret = mpiSuccess ∨ rest = []) :
    Tickets program n
      { s with
        world := done.world
        ranks := Function.update s.ranks self
          ((s.ranks self).advance action.moved rest done.ret) } := by
  have placed := tickets.placed.act todo performed goesOn
  have pos : ∀ rank, ((Function.update s.ranks self ((s.ranks self).advance action.moved rest
      done.ret)) rank).pos = (s.ranks rank).pos := by
    intro rank
    by_cases own : rank = self <;> simp [own]
  rcases Action.exec_cases performed with ⟨id, rfl, moved, _⟩ | ⟨_, midway⟩
  · rw [moved] at placed ⊢
    exact tickets.update placed rfl rfl (fun _ => rfl) (fun _ => rfl) pos rfl
  · exact tickets.update placed midway.size midway.ticket midway.slots midway.stable pos rfl

/-- A rank returns from a wait. -/
theorem leave (tickets : Tickets program n s) (self id : Nat) (err : Int) :
    Tickets program n
      { s with
        world := s.world.finalize id
        ranks := Function.update s.ranks self ((s.ranks self).leave id err) } := by
  refine tickets.update (tickets.placed.leave id err) rfl rfl (fun _ => rfl) ?_ ?_ rfl
  · intro other
    by_cases same : other = id <;> simp [same, Cookie.stable]
  · intro rank
    by_cases own : rank = self <;> simp [own]

end Tickets

/-- Every state reached without an error is one of the invariant. -/
theorem reaches_tickets {vm : ProcessVm} {program : Program} {n : Nat} {mem : Memory} {s : Sys}
    (several : 2 ≤ n) (limit : n ≤ 10000)
    (alike : ∀ rank < n, ∀ pos,
      (program rank pos).map Call.operation = (program 0 pos).map Call.operation)
    (run : Reaches vm program (Sys.init n mem) s) (clean : s.Clean) : Tickets program n s := by
  induction run with
  | refl => exact Tickets.start program mem (by omega)
  | tail label _ stepped ih =>
      have tickets := ih (clean.of_step stepped)
      cases label with
      | call self =>
          obtain ⟨call, w, frame, valid, idle, listed, entered, rfl⟩ := step_call stepped
          rw [tickets.size] at valid
          refine tickets.enter several limit alike valid idle listed entered fun finished => ?_
          refine clean self frame.ret ?_
          simp [RankState.enter, finished]
      | act self =>
          obtain ⟨action, rest, done, todo, performed, rfl⟩ := step_act stepped
          refine tickets.act todo performed (Or.inl ?_)
          by_contra failure
          refine failure (clean self done.ret ?_)
          simp [RankState.advance, failure]
      | wait self id =>
          obtain ⟨_, _, _, rfl⟩ := step_wait stepped
          exact tickets.leave self id _

/-- In every run without an error, of programs of any length, the calls that meet in a slot have the same
    position in the program of their rank, and the slot counts them correctly. Every further call that is accepted
    is one of those that meet in the slot of its position. -/
theorem collective_calls_paired (vm : ProcessVm) {program : Program} {n : Nat} {mem : Memory} {s : Sys}
    (several : 2 ≤ n) (limit : n ≤ 10000)
    (alike : ∀ rank < n, ∀ pos,
      (program rank pos).map Call.operation = (program 0 pos).map Call.operation)
    (run : Reaches vm program (Sys.init n mem) s) (clean : s.Clean) :
    (∀ turn < umpiOutstandingCollectiveOperations, PairedByPosition n s turn) ∧
      ∀ self s', s.step vm program (.call self) = .ok s' → s'.Clean →
        ∃ join ∈ s'.joins ((s.ranks self).pos % umpiOutstandingCollectiveOperations),
          join.rank = self ∧ join.pos = (s.ranks self).pos := by
  have tickets := reaches_tickets several limit alike run clean
  constructor
  · intro turn valid
    obtain ⟨position, past, made, stage⟩ := tickets.slots turn valid
    exact stage.paired
  · intro self s' stepped after
    obtain ⟨call, w, frame, valid, _, listed, entered, rfl⟩ := step_call stepped
    rw [tickets.size] at valid
    refine tickets.exists_join several limit alike valid listed entered fun finished => after self frame.ret ?_
    simp [RankState.enter, finished]

/-- Two ranks that broadcast one character again and again. -/
def bcastForever (_ _ : Nat) : Option Call :=
  some (.bcast (.addr 0) 1 (some Datatype.mpiChar.iovec) 0 .world)

/-- Rank 0 starts its second broadcast while rank 1 is still in the first. -/
theorem collective_calls_paired_bcastForever :
    ∃ s, (Sys.init 2 fun _ => 0).run copyingVm bcastForever [.call 0, .call 0, .call 1] = .ok s ∧
      (∀ turn < umpiOutstandingCollectiveOperations, PairedByPosition 2 s turn) ∧
      ∀ self s', s.step copyingVm bcastForever (.call self) = .ok s' → s'.Clean →
        ∃ join ∈ s'.joins ((s.ranks self).pos % umpiOutstandingCollectiveOperations),
          join.rank = self ∧ join.pos = (s.ranks self).pos := by
  have runs : ∃ s, (Sys.init 2 fun _ => 0).run copyingVm bcastForever [.call 0, .call 0, .call 1] =
      .ok s ∧ s.Clean := by
    refine ⟨_, rfl, ?_⟩
    rintro (_ | _ | rank)
    · decide
    · decide
    · rintro ret ⟨⟩
  obtain ⟨s, ran, clean⟩ := runs
  exact ⟨s, ran, collective_calls_paired copyingVm le_rfl (by decide) (fun _ _ _ => rfl)
    (reaches_of_run ran) clean⟩

end Umpi
