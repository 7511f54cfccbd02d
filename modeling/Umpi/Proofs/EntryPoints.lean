/-
Module: Umpi.Proofs.EntryPoints
Layer: Proofs
Purpose: What each entry point from `MPI_Ibcast` to `MPI_Iscan` does when its call is the next to join an
  operation (`Arriving`): it is rejected, or it enters the slot as its schedule says (`Entered`), with
  the data moved under the mutex and the remaining actions given exactly. `Conforms` forgets the latter,
  and `Call.enter_joins` states it for every call.
Imports: Umpi.Proofs.Requests
Trusted boundary: none
Main exports: Arriving, Entered, Conforms, Operation.schedule, Call.schedule, Call.enter_joins, and for
  every entry point what it does when it is accepted
Open obligations: none
-/
import Umpi.Proofs.Requests

namespace Umpi

open Foundation

/-- The slot a rank's next collective call uses. -/
def World.turnOf (w : World) (self : Nat) : Nat := w.ticket self % umpiOutstandingCollectiveOperations

/-- Rank `caller` is about to join an operation that the ranks of `past` have joined. -/
structure Arriving (schedule : Schedule) (n : Nat) (past : List Nat) (w : World) (caller : Nat)
    (made : Nat → Nat) : Prop where
  standing : Standing schedule n past w (w.turnOf caller) made
  joining : Schedule.Joining n (caller :: past)
  several : 2 ≤ n ∨ schedule = .ladder
  fresh : ∀ rank ∈ schedule.box n past, made rank ≠ w.newName caller
  small : n ≤ 2 ^ 15

/-- Rank `caller` has joined as its schedule says. `mid` is the state after the data it moved while it
    held the mutex. -/
structure Entered (schedule : Schedule) (n : Nat) (past : List Nat) (w : World) (caller : Nat)
    (mid : World) (offer : Offer) (cont : List Action) (result : World × Frame) (made made' : Nat → Nat) :
    Prop where
  midway : Midway (w.claimed caller) mid ((schedule.now past).map made)
  settles : Settles mid result.1 result.2 caller (w.turnOf caller)
    (schedule.settlement n past caller offer cont) made made'
  script : Script cont ((schedule.later n past caller).map made')
    ((schedule.taken n past caller).map made')

/-- Rank `self` has joined as its schedule says, whatever data it has moved. -/
def Conforms (schedule : Schedule) (n : Nat) (past : List Nat) (w : World) (self : Nat)
    (result : World × Frame) (made : Nat → Nat) : Prop :=
  ∃ mid offer cont made', Entered schedule n past w self mid offer cont result made made'

section Arriving

variable {schedule : Schedule} {n : Nat} {past : List Nat} {w : World} {self : Nat} {made : Nat → Nat}

namespace Arriving

theorem size (arriving : Arriving schedule n past w self made) : w.size = n := arriving.standing.size

theorem claimed (arriving : Arriving schedule n past w self made) :
    Claimed schedule n past (w.claimed self) (w.turnOf self) made :=
  arriving.standing.claimed arriving.joining.length_le rfl

/-- The new name is still unused after the slot has been claimed and data has been moved. -/
theorem freshMid (arriving : Arriving schedule n past w self made) {mid : World} {now : Option Nat}
    (midway : Midway (w.claimed self) mid now) :
    ∀ rank ∈ schedule.box n past, made rank ≠ mid.newName self := by
  rw [midway.newName]
  exact arriving.fresh

/-- Names made before do not depend on what the caller makes. -/
theorem map_earlier (arriving : Arriving schedule n past w self made) {made' : Nat → Nat}
    (others : ∀ rank ≠ self, made' rank = made rank) :
    past.reverse.map made' = past.reverse.map made :=
  map_made_of_notMem others fun inside => arriving.joining.fresh (List.mem_reverse.mp inside)

end Arriving

namespace Entered

variable {mid : World} {offer : Offer} {cont : List Action} {result : World × Frame} {made' : Nat → Nat}

/-- The cookie a rank makes is the one it offers. -/
theorem newCookie (entered : Entered schedule n past w self mid offer cont result made made') {k : Int}
    (makes : schedule.num n past self = some k) :
    made' self = w.newName self ∧ result.1.cookies (made' self) = offer.cookie self k := by
  have created := entered.settles.created (offer.cookie self k) (by simp [Schedule.settlement, makes])
  exact ⟨created.1.trans (entered.midway.newName self), created.2.1⟩

/-- Another cookie keeps its fixed fields, and is notified if it is the one the rank goes through. -/
theorem oldCookie (entered : Entered schedule n past w self mid offer cont result made made') {id : Nat}
    (old : (schedule.num n past self).isSome → id ≠ made' self) :
    (result.1.cookies id).stable = (w.cookies id).stable ∧
    ((schedule.now past).map made ≠ some id →
      (result.1.cookies id).busy = (w.cookies id).busy ∧
      (result.1.cookies id).notified = (w.cookies id).notified) ∧
    ((schedule.now past).map made = some id →
      (result.1.cookies id).busy = int16 ((w.cookies id).busy - 1) ∧
      (result.1.cookies id).notified = (w.cookies id).notified + 1) := by
  have kept := entered.settles.cookies id fun makes => old (by
    simpa [Schedule.settlement, Option.isSome_iff_ne_none] using makes)
  refine ⟨?_, fun untouched => ?_, fun touched => ?_⟩
  · exact (congrArg Cookie.stable kept).trans (entered.midway.stable id)
  · have same : mid.cookies id = w.cookies id := entered.midway.others id untouched
    rw [kept, same]
    exact ⟨rfl, rfl⟩
  · rw [kept]
    exact ⟨entered.midway.busy id touched, entered.midway.notified id touched⟩

/-- A cookie that is not gone through while the mutex is held changes its usage count only. -/
theorem untouched (entered : Entered schedule n past w self mid offer cont result made made') {id : Nat}
    (old : (schedule.num n past self).isSome → id ≠ made' self)
    (notNow : (schedule.now past).map made ≠ some id) :
    result.1.cookies id = { w.cookies id with used := (result.1.cookies id).used } := by
  have kept := entered.settles.cookies id fun makes => old (by
    simpa [Schedule.settlement, Option.isSome_iff_ne_none] using makes)
  have same : mid.cookies id = w.cookies id := entered.midway.others id notNow
  rwa [same] at kept

/-- Every cookie but the new one is used by the rank that joins if it waits for it. -/
theorem used (entered : Entered schedule n past w self mid offer cont result made made') {id : Nat}
    (old : (schedule.num n past self).isSome → id ≠ made' self) :
    (result.1.cookies id).used =
      if made' (schedule.request n past self) = id then int16 ((w.cookies id).used + 1)
      else (w.cookies id).used := by
  have before : (mid.cookies id).used = (w.cookies id).used :=
    (congrArg Cookie.used (entered.midway.fixed id) :)
  have request : result.2.request = some (made' (schedule.request n past self)) := entered.settles.request
  have changed := entered.settles.used id fun makes => old (by
    simpa [Schedule.settlement, Option.isSome_iff_ne_none] using makes)
  simp only [request, Option.some.injEq] at changed
  rw [changed, before]

/-- Only the caller's free list is used. -/
theorem free (entered : Entered schedule n past w self mid offer cont result made made') {rank : Nat}
    (other : rank ≠ self) : (result.1.procs rank).free = (w.procs rank).free := by
  have before : (mid.procs rank).free = (w.procs rank).free := entered.midway.free rank
  cases makes : schedule.num n past self with
  | none =>
      have kept := entered.settles.kept (by simp [Schedule.settlement, makes])
      exact (kept.2.2 rank).trans before
  | some k =>
      have created := entered.settles.created (offer.cookie self k) (by simp [Schedule.settlement, makes])
      rw [created.2.2.2 rank, createRequest_free_of_ne other, before]

/-- Names are never given back to the allocator. -/
theorem next (entered : Entered schedule n past w self mid offer cont result made made') :
    w.next ≤ result.1.next := by
  have before : mid.next = w.next := entered.midway.next
  cases makes : schedule.num n past self with
  | none =>
      have kept := entered.settles.kept (by simp [Schedule.settlement, makes])
      omega
  | some k =>
      have created := entered.settles.created (offer.cookie self k) (by simp [Schedule.settlement, makes])
      have grown := le_createRequest_next mid self (offer.cookie self k)
      omega

/-- A new cookie is taken from the caller's free list, or its name is new. -/
theorem newName (entered : Entered schedule n past w self mid offer cont result made made')
    (makes : (schedule.num n past self).isSome) :
    made' self ∈ (w.procs self).free ∨ w.next ≤ made' self ∧ made' self < result.1.next := by
  obtain ⟨k, makes⟩ := Option.isSome_iff_exists.mp makes
  have created := entered.settles.created (offer.cookie self k) (by simp [Schedule.settlement, makes])
  have next : mid.next = w.next := entered.midway.next
  have free : (mid.procs self).free = (w.procs self).free := entered.midway.free self
  rw [created.1, created.2.2.1, ← next, ← free]
  exact newName_cases mid self (offer.cookie self k)

/-- Without a new cookie the caller's free list stays as it is. -/
theorem free_kept (entered : Entered schedule n past w self mid offer cont result made made')
    (makes : schedule.num n past self = none) : (result.1.procs self).free = (w.procs self).free := by
  have kept := entered.settles.kept (by simp [Schedule.settlement, makes])
  exact (kept.2.2 self).trans (entered.midway.free self)

/-- A new cookie leaves the caller's free list, or the free list is empty and its name is the next one. -/
theorem free_taken (entered : Entered schedule n past w self mid offer cont result made made') {k : Int}
    (makes : schedule.num n past self = some k) :
    (w.procs self).free = made' self :: (result.1.procs self).free ∨
      (w.procs self).free = [] ∧ (result.1.procs self).free = [] ∧ made' self = w.next ∧
        result.1.next = w.next + 1 := by
  have created := entered.settles.created (offer.cookie self k) (by simp [Schedule.settlement, makes])
  have next : mid.next = w.next := entered.midway.next
  have free : (mid.procs self).free = (w.procs self).free := entered.midway.free self
  rw [created.1, created.2.2.1, created.2.2.2 self, ← next, ← free]
  exact createRequest_free_self mid self (offer.cookie self k)

/-- The slot's record of what was made, and the frame's list of what is to be transferred. -/
theorem made_eq (entered : Entered schedule n past w self mid offer cont result made made') :
    (result.1.slots (w.turnOf self)).made =
      (if (w.slots (w.turnOf self)).box = [] then [] else (w.slots (w.turnOf self)).made) ++
        (schedule.num n past self).toList.map fun _ => made' self := by
  have before : (mid.slots (w.turnOf self)).made = ((w.claimed self).slots (w.turnOf self)).made :=
    (congrArg Collect.made (entered.midway.slots (w.turnOf self)) :)
  have claimed : ((w.claimed self).slots (w.turnOf self)).made =
      if (w.slots (w.turnOf self)).box = [] then [] else (w.slots (w.turnOf self)).made := by
    by_cases idle : (w.slots (w.turnOf self)).box = [] <;>
      simp only [World.turnOf] at idle <;> simp [World.claimed, World.turnOf, idle]
  rw [entered.settles.slot, before, claimed]
  cases makes : schedule.num n past self <;> simp [Schedule.settlement, makes]

/-- The slot after the caller has left it. -/
theorem standing (entered : Entered schedule n past w self mid offer cont result made made')
    (arriving : Arriving schedule n past w self made) (suits : schedule.Suits n) :
    Standing schedule n (self :: past) result.1 (w.turnOf self) made' where
  size := entered.settles.size.trans (entered.midway.size.trans arriving.size)
  box := by
    rw [entered.settles.slot]
    rfl
  joined := by
    intro _
    rw [entered.settles.slot]
    exact (entered.midway.joined _).trans arriving.claimed.joined
  src := by
    intro rank inBox
    have before : rank ∈ schedule.box n past ++ (schedule.num n past self).toList.map fun _ => self :=
      (Schedule.box_conserved arriving.joining suits).mem_iff.mpr (List.mem_append_left _ inBox)
    rcases List.mem_append.mp before with old | new
    · have joined := Schedule.numOf_of_mem_box arriving.joining.tail suits old
      obtain ⟨k, makes⟩ := Option.isSome_iff_exists.mp joined
      have other : rank ≠ self := fun same =>
        arriving.joining.fresh (same ▸ Schedule.mem_of_numOf makes)
      have apart : (schedule.num n past self).isSome → made rank ≠ made' self := by
        intro makesNew
        obtain ⟨l, makesNew⟩ := Option.isSome_iff_exists.mp makesNew
        rw [(entered.newCookie makesNew).1]
        exact arriving.fresh rank old
      rw [entered.settles.madeOthers rank other]
      exact (Cookie.src_of_stable (entered.oldCookie apart).1).trans (arriving.standing.src rank old)
    · obtain ⟨k, makes, rfl⟩ := List.mem_map.mp new
      rw [(entered.newCookie (Option.mem_toList.mp makes)).2]
      have valid := arriving.joining.bound self List.mem_cons_self
      exact offer.cookie_src (valid.trans_le arriving.small) k

end Entered

/-- An operation that enters a slot, seen from its caller. -/
theorem enter_yields {next : Nat × World → Outcome (World × Frame)} {post : World × Frame → Prop}
    (entered : (next (w.turnOf self, w.claimed self)).Yields post) :
    (w.getCurrentSlot self >>= next).Yields post :=
  Outcome.yields_bind (getCurrentSlot_yields fun _ _ => entered)

end Arriving

/-! ### Bcast, gather, gatherv and scatter -/

section Rooted

variable {n root : Nat} {past : List Nat} {w mid : World} {self : Nat} {made : Nat → Nat}

/-- A rank other than the root enters. -/
theorem memberRequest_entered (claimed : Claimed (.rooted root) n past (w.claimed self) (w.turnOf self) made)
    (joining : Schedule.Joining n (self :: past)) (rootValid : root < n) (member : self ≠ root) (buf : Loc)
    (iovec : Iovec) (count : Int) {transfer : Nat → Action}
    (through : ∀ id, (transfer id).transfer = some id) :
    ∃ made', Entered (.rooted root) n past w self (w.claimed self)
      { buf := buf, iovec := iovec, size := count, count := count }
      (if root ∈ past then [transfer (made root)] else [])
      (memberRequest (w.claimed self) self (w.turnOf self) buf iovec count root transfer) made made' := by
  obtain ⟨made', settles⟩ := memberRequest_settles claimed joining rootValid member buf iovec count
    transfer
  refine ⟨made', { midway := Midway.refl _, settles := settles, script := ?_ }⟩
  simp only [Schedule.later, Schedule.taken, if_neg member]
  by_cases joined : root ∈ past
  · rw [if_pos joined, if_pos joined, List.map_singleton, settles.madeOthers root (Ne.symm member)]
    exact Script.single (through _)
  · rw [if_neg joined, if_neg joined]
    exact Script.nil

/-- The root enters, possibly after it has moved data. -/
theorem rootRequest_entered (arriving : Arriving (.rooted root) n past w root made)
    (midway : Midway (w.claimed root) mid none) (buf : Loc) (iovec : Iovec) (size count : Int)
    {transfer : Nat → Action} (through : ∀ id, (transfer id).transfer = some id) :
    (rootRequest mid root (w.turnOf root) buf iovec size count transfer).Yields fun result =>
      ∃ made', Entered (.rooted root) n past w root mid
        { buf := buf, iovec := iovec, size := size, count := count }
        (serve transfer (past.reverse.map made)) result made made' := by
  have several : 2 ≤ n := arriving.several.resolve_right (by simp)
  refine (rootRequest_settles (arriving.claimed.midway midway) arriving.joining several buf iovec size
    count transfer).mono ?_
  rintro result ⟨made', settles⟩
  refine ⟨made', { midway := midway, settles := settles, script := ?_ }⟩
  simp only [Schedule.later, Schedule.taken, if_true]
  rw [arriving.map_earlier settles.madeOthers]
  exact Script.serve through _

section Bcast

variable {buf : Pointer} {count : Int} {iovec : Iovec} {comm : MpiComm}

/-- The root of a bcast writes to the ranks that came before it. -/
theorem mpiIbcast_root (arriving : Arriving (.rooted root) n past w root made)
    (bufGiven : ¬ (buf = .null ∧ count ≠ 0)) (world : comm = .world) :
    (mpiIbcast w root buf count (some iovec) root comm).Yields fun result =>
      ∃ made', Entered (.rooted root) n past w root (w.claimed root)
        { buf := buf.loc root, iovec := iovec, size := count, count := count }
        (serve (fun id => .writeToOwner id (buf.loc root) iovec count (.elems 0) (.elems 0))
          (past.reverse.map made)) result made made' := by
  have rootValid : root < w.size := by
    rw [arriving.size]
    exact arriving.joining.bound root List.mem_cons_self
  have accepted : ¬ ((buf = .null ∧ count ≠ 0) ∨ some iovec = none ∨ (root : Int) < 0 ∨
      (w.size : Int) ≤ root ∨ comm ≠ .world) := by
    simp only [bufGiven, world, reduceCtorEq, not_true_eq_false, ne_eq, false_or, or_false, not_or]
    omega
  unfold mpiIbcast
  rw [if_neg accepted]
  refine Outcome.yields_bind (enter_yields ?_)
  simp only [if_true]
  exact rootRequest_entered arriving (Midway.refl _) _ _ _ _ fun _ => rfl

/-- Another rank of a bcast reads from the root, or lets the root write. -/
theorem mpiIbcast_member (arriving : Arriving (.rooted root) n past w self made) (rootValid : root < n)
    (member : self ≠ root) (bufGiven : ¬ (buf = .null ∧ count ≠ 0)) (world : comm = .world) :
    (mpiIbcast w self buf count (some iovec) root comm).Yields fun result =>
      ∃ made', Entered (.rooted root) n past w self (w.claimed self)
        { buf := buf.loc self, iovec := iovec, size := count, count := count }
        (if root ∈ past then
          [.readFromOwner (made root) (buf.loc self) iovec count count (.elems 0) (.elems 0)]
        else []) result made made' := by
  have accepted : ¬ ((buf = .null ∧ count ≠ 0) ∨ some iovec = none ∨ (root : Int) < 0 ∨
      (w.size : Int) ≤ root ∨ comm ≠ .world) := by
    simp only [bufGiven, world, reduceCtorEq, not_true_eq_false, ne_eq, false_or, or_false, not_or,
      arriving.size]
    omega
  unfold mpiIbcast
  rw [if_neg accepted]
  refine Outcome.yields_bind (enter_yields ?_)
  have notRoot : ¬ (self : Int) = root := by exact_mod_cast member
  simp only [if_neg notRoot]
  have through : ∀ id, (Action.readFromOwner id (buf.loc self) iovec count count (.elems 0)
      (.elems 0)).transfer = some id := fun _ => rfl
  exact memberRequest_entered arriving.claimed arriving.joining rootValid member _ _ _ through

end Bcast

/-- A rank whose own data agrees with what it is to receive passes the check. -/
theorem mismatch_eq {sendbuf : Pointer} {sendcount recvcount : Int} {sendtype : MpiDatatype}
    {sendIovec recvIovec : Iovec} (sendTyped : sendbuf ≠ .inPlace → sendtype = some sendIovec)
    (bytesAgree : sendbuf ≠ .inPlace → bytesDiffer sendcount sendIovec recvcount recvIovec = false) :
    mismatch sendbuf sendcount sendtype recvcount recvIovec = .ok false := by
  unfold mismatch
  by_cases inPlace : sendbuf = .inPlace
  · rw [if_pos inPlace]
  · rw [if_neg inPlace, sendTyped inPlace, deref, Outcome.ok_bind, bytesAgree inPlace]
    rfl

section Gather

variable {vm : ProcessVm} {sendbuf recvbuf : Pointer} {sendcount recvcount : Int}
  {sendtype recvtype : MpiDatatype} {recvIovec sendIovec : Iovec} {comm : MpiComm}

/-- The state after the root of a gather has put its own block in place. -/
def gatherOwn (vm : ProcessVm) (w : World) (root : Nat) (sendbuf : Pointer) (sendcount : Int)
    (sendIovec : Iovec) (recvbuf : Loc) (recvcount : Int) (recvIovec : Iovec) : World :=
  if sendbuf = .inPlace then w
  else
    w.copy vm (sendbuf.loc root) sendIovec sendcount 0 recvbuf recvIovec recvcount (root * recvcount)

theorem gatherOwn_midway {recvLoc : Loc} : Midway w
    (gatherOwn vm w root sendbuf sendcount sendIovec recvLoc recvcount recvIovec) none := by
  unfold gatherOwn
  split
  · exact Midway.refl w
  · exact Midway.copy _ _ _ _ _ _ _ _ _ _

/-- The root of a gather reads from the ranks that came before it. -/
theorem rootGatherRequest_entered (arriving : Arriving (.rooted root) n past w root made)
    (midway : Midway (w.claimed root) mid none) (recvLoc : Loc) (recvcount : Int) (recvIovec : Iovec) :
    (rootGatherRequest mid root (w.turnOf root) recvLoc recvcount recvIovec).Yields fun result =>
      IsInt (recvcount * n) ∧ ∃ made', Entered (.rooted root) n past w root mid
        { buf := recvLoc, iovec := recvIovec, size := recvcount * n, count := recvcount }
        (serve (fun id => .readFromOwner id recvLoc recvIovec (recvcount * n) recvcount
          (.elems (mid.cookies id).src) (.elems 0)) (past.reverse.map made)) result made made' := by
  unfold rootGatherRequest
  refine Outcome.yields_bind (Outcome.mulInt_yields fun range => ?_)
  rw [midway.size, show (w.claimed root).size = n from arriving.size] at range ⊢
  exact (rootRequest_entered arriving midway _ _ _ _ fun _ => rfl).mono fun _ entered => ⟨range, entered⟩

/-- The root of a gather whose arguments are accepted. -/
theorem mpiIgather_root (arriving : Arriving (.rooted root) n past w root made)
    (sendGiven : ¬ (sendbuf = .null ∧ sendcount ≠ 0))
    (sendTyped : sendbuf ≠ .inPlace → sendtype = some sendIovec)
    (recvGiven : ¬ (recvbuf = .null ∧ recvcount ≠ 0))
    (bytesAgree : sendbuf ≠ .inPlace → bytesDiffer sendcount sendIovec recvcount recvIovec = false)
    (world : comm = .world) :
    (mpiIgather vm w root sendbuf sendcount sendtype recvbuf recvcount (some recvIovec) root
      comm).Yields fun result =>
      IsInt (recvcount * n) ∧ ∃ made', Entered (.rooted root) n past w root
        (gatherOwn vm (w.claimed root) root sendbuf sendcount sendIovec (recvbuf.loc root) recvcount
          recvIovec)
        { buf := recvbuf.loc root, iovec := recvIovec, size := recvcount * n, count := recvcount }
        (serve (fun id => .readFromOwner id (recvbuf.loc root) recvIovec (recvcount * n) recvcount
          (.elems (w.cookies id).src) (.elems 0)) (past.reverse.map made)) result made made' := by
  have rootValid : root < w.size := by
    rw [arriving.size]
    exact arriving.joining.bound root List.mem_cons_self
  have accepted : ¬ ((sendbuf = .null ∧ sendcount ≠ 0) ∨ (sendbuf ≠ .inPlace ∧ sendtype = none) ∨
      (root : Int) < 0 ∨ (w.size : Int) ≤ root ∨ comm ≠ .world) := by
    rintro (noBuf | ⟨outOfPlace, noType⟩ | low | high | other)
    · exact sendGiven noBuf
    · rw [sendTyped outOfPlace] at noType
      cases noType
    · omega
    · omega
    · exact other world
  have src : ∀ id, ((w.claimed root).cookies id).src = (w.cookies id).src := fun _ => rfl
  unfold mpiIgather
  rw [if_neg accepted]
  refine enter_yields ?_
  simp only [if_true]
  simp only [mismatch_eq sendTyped bytesAgree, Outcome.ok_bind, Bool.false_eq_true, or_false,
    if_neg recvGiven]
  have moved : Midway (w.claimed root) (gatherOwn vm (w.claimed root) root sendbuf sendcount sendIovec
    (recvbuf.loc root) recvcount recvIovec) none := gatherOwn_midway
  have requested := rootGatherRequest_entered arriving moved (recvbuf.loc root) recvcount recvIovec
  by_cases inPlace : sendbuf = .inPlace
  · rw [if_pos inPlace]
    simp only [gatherOwn, if_pos inPlace] at requested ⊢
    exact requested
  · rw [if_neg inPlace, sendTyped inPlace, deref, Outcome.ok_bind]
    refine Outcome.yields_bind (Outcome.mulInt_yields fun _ => ?_)
    simp only [gatherOwn, if_neg inPlace] at requested ⊢
    exact requested

/-- Another rank of a gather writes to the root, or lets the root read. -/
theorem mpiIgather_member (arriving : Arriving (.rooted root) n past w self made) (rootValid : root < n)
    (member : self ≠ root) (sendGiven : ¬ (sendbuf = .null ∧ sendcount ≠ 0)) (world : comm = .world) :
    (mpiIgather vm w self sendbuf sendcount (some sendIovec) recvbuf recvcount recvtype root
      comm).Yields fun result =>
      ∃ made', Entered (.rooted root) n past w self (w.claimed self)
        { buf := sendbuf.loc self, iovec := sendIovec, size := sendcount, count := sendcount }
        (if root ∈ past then
          [.writeToOwner (made root) (sendbuf.loc self) sendIovec sendcount .countTimesRank (.elems 0)]
        else []) result made made' := by
  have accepted : ¬ ((sendbuf = .null ∧ sendcount ≠ 0) ∨
      (sendbuf ≠ .inPlace ∧ (some sendIovec : MpiDatatype) = none) ∨ (root : Int) < 0 ∨
      (w.size : Int) ≤ root ∨ comm ≠ .world) := by
    simp only [sendGiven, world, reduceCtorEq, not_true_eq_false, ne_eq, false_or, or_false, not_or,
      and_false, arriving.size]
    omega
  have notRoot : ¬ (self : Int) = root := by exact_mod_cast member
  unfold mpiIgather
  rw [if_neg accepted]
  refine enter_yields ?_
  simp only [if_neg notRoot, deref, Outcome.ok_bind]
  have through : ∀ id, (Action.writeToOwner id (sendbuf.loc self) sendIovec sendcount .countTimesRank
      (.elems 0)).transfer = some id := fun _ => rfl
  exact memberRequest_entered arriving.claimed arriving.joining rootValid member _ _ _ through

end Gather

section Gatherv

variable {vm : ProcessVm} {sendbuf recvbuf : Pointer} {sendcount : Int}
  {sendtype recvtype : MpiDatatype} {recvcounts displs : Nat → Int} {recvIovec sendIovec : Iovec}
  {comm : MpiComm}

/-- The state after the root of a gatherv has put its own block in place and published `displs`. -/
def gathervOwn (vm : ProcessVm) (w : World) (root turn : Nat) (sendbuf : Pointer) (sendcount : Int)
    (sendIovec : Iovec) (recvbuf : Loc) (recvcounts displs : Nat → Int) (recvIovec : Iovec) : World :=
  let w :=
    if sendbuf = .inPlace then w
    else
      w.copy vm (sendbuf.loc root) sendIovec sendcount 0 recvbuf recvIovec (recvcounts root) (displs root)
  w.setSlot turn { w.slots turn with displs := displs }

theorem gathervOwn_midway {turn : Nat} {recvLoc : Loc} : Midway w
    (gathervOwn vm w root turn sendbuf sendcount sendIovec recvLoc recvcounts displs recvIovec) none := by
  unfold gathervOwn
  split
  · exact Midway.setSlot rfl
  · exact (Midway.copy _ _ _ _ _ _ _ _ _ _).trans_data (Midway.setSlot rfl)

theorem totalcount_yields {post : Int → Prop} (count : Nat)
    (returned : ∀ total, totalcount recvcounts count = .ok total → post total) :
    (totalcount recvcounts count).Yields post := by
  refine Outcome.Yields.of_returned ?_ returned
  clear returned
  induction count with
  | zero => trivial
  | succ count ih =>
      exact Outcome.yields_bind (ih.mono fun _ _ => Outcome.addInt_yields fun _ => trivial)

/-- The root of a gatherv whose arguments are accepted. -/
theorem mpiIgatherv_root (arriving : Arriving (.rooted root) n past w root made)
    (sendGiven : ¬ (sendbuf = .null ∧ sendcount ≠ 0))
    (sendTyped : sendbuf ≠ .inPlace → sendtype = some sendIovec) (recvGiven : recvbuf ≠ .null)
    (bytesAgree : sendbuf ≠ .inPlace → bytesDiffer sendcount sendIovec (recvcounts root) recvIovec = false)
    (world : comm = .world) :
    (mpiIgatherv vm w root sendbuf sendcount sendtype recvbuf (some recvcounts) (some displs)
      (some recvIovec) root comm).Yields fun result =>
      ∃ total, totalcount recvcounts n = .ok total ∧ ∃ made', Entered (.rooted root) n past w root
        (gathervOwn vm (w.claimed root) root (w.turnOf root) sendbuf sendcount sendIovec
          (recvbuf.loc root) recvcounts displs recvIovec)
        { buf := recvbuf.loc root, iovec := recvIovec, size := total, count := 0 }
        (serve (fun id => .readFromOwner id (recvbuf.loc root) recvIovec total
          (recvcounts (w.cookies id).src.toNat) (.elems (displs (w.cookies id).src.toNat)) (.elems 0))
          (past.reverse.map made)) result made made' := by
  have rootValid : root < w.size := by
    rw [arriving.size]
    exact arriving.joining.bound root List.mem_cons_self
  have accepted : ¬ ((sendbuf = .null ∧ sendcount ≠ 0) ∨ (sendbuf ≠ .inPlace ∧ sendtype = none) ∨
      (root : Int) < 0 ∨ (w.size : Int) ≤ root ∨ comm ≠ .world) := by
    rintro (noBuf | ⟨outOfPlace, noType⟩ | low | high | other)
    · exact sendGiven noBuf
    · rw [sendTyped outOfPlace] at noType
      cases noType
    · omega
    · omega
    · exact other world
  have moved : Midway (w.claimed root) (gathervOwn vm (w.claimed root) root (w.turnOf root) sendbuf
    sendcount sendIovec (recvbuf.loc root) recvcounts displs recvIovec) none := gathervOwn_midway
  unfold mpiIgatherv
  rw [if_neg accepted]
  refine enter_yields ?_
  simp only [if_true, mismatch_eq sendTyped bytesAgree, Outcome.ok_bind, Bool.false_eq_true, or_false,
    if_neg recvGiven]
  have size : (w.claimed root).size = n := arriving.size
  by_cases inPlace : sendbuf = .inPlace
  · rw [if_pos inPlace]
    unfold rootGathervRequest
    rw [size]
    refine Outcome.yields_bind (totalcount_yields n fun total sum => ?_)
    have requested := rootRequest_entered arriving moved (recvbuf.loc root) recvIovec total 0
      (fun id => (rfl : (Action.readFromOwner id (recvbuf.loc root) recvIovec total
        (recvcounts (w.cookies id).src.toNat) (.elems (displs (w.cookies id).src.toNat))
        (.elems 0)).transfer = some id))
    simp only [gathervOwn, if_pos inPlace] at requested ⊢
    exact requested.mono fun _ entered => ⟨total, sum, entered⟩
  · rw [if_neg inPlace, sendTyped inPlace, deref, Outcome.ok_bind]
    unfold rootGathervRequest
    have sizeCopy : ((w.claimed root).copy vm (sendbuf.loc root) sendIovec sendcount 0 (recvbuf.loc root)
        recvIovec (recvcounts root) (displs root)).size = n := size
    rw [sizeCopy]
    refine Outcome.yields_bind (totalcount_yields n fun total sum => ?_)
    have requested := rootRequest_entered arriving moved (recvbuf.loc root) recvIovec total 0
      (fun id => (rfl : (Action.readFromOwner id (recvbuf.loc root) recvIovec total
        (recvcounts (w.cookies id).src.toNat) (.elems (displs (w.cookies id).src.toNat))
        (.elems 0)).transfer = some id))
    simp only [gathervOwn, if_neg inPlace] at requested ⊢
    exact requested.mono fun _ entered => ⟨total, sum, entered⟩

/-- Another rank of a gatherv writes to the root, or lets the root read. -/
theorem mpiIgatherv_member (standing : Standing (.rooted root) n past w (w.turnOf self) made)
    (joining : Schedule.Joining n (self :: past)) (rootValid : root < n) (member : self ≠ root)
    (sendGiven : ¬ (sendbuf = .null ∧ sendcount ≠ 0)) (world : comm = .world)
    {counts offsets : Option (Nat → Int)} :
    (mpiIgatherv vm w self sendbuf sendcount (some sendIovec) recvbuf counts offsets recvtype root
      comm).Yields fun result =>
      ∃ made', Entered (.rooted root) n past w self (w.claimed self)
        { buf := sendbuf.loc self, iovec := sendIovec, size := sendcount, count := sendcount }
        (if root ∈ past then
          [.writeToOwner (made root) (sendbuf.loc self) sendIovec sendcount (.displs (w.turnOf self))
            (.elems 0)]
        else []) result made made' := by
  have accepted : ¬ ((sendbuf = .null ∧ sendcount ≠ 0) ∨
      (sendbuf ≠ .inPlace ∧ (some sendIovec : MpiDatatype) = none) ∨ (root : Int) < 0 ∨
      (w.size : Int) ≤ root ∨ comm ≠ .world) := by
    simp only [sendGiven, world, reduceCtorEq, not_true_eq_false, ne_eq, false_or, or_false, not_or,
      and_false, standing.size]
    omega
  have notRoot : ¬ (self : Int) = root := by exact_mod_cast member
  unfold mpiIgatherv
  rw [if_neg accepted]
  refine enter_yields ?_
  simp only [if_neg notRoot, deref, Outcome.ok_bind]
  have through : ∀ id, (Action.writeToOwner id (sendbuf.loc self) sendIovec sendcount
      (.displs (w.turnOf self)) (.elems 0)).transfer = some id := fun _ => rfl
  exact memberRequest_entered (standing.claimed joining.length_le rfl) joining rootValid member _ _ _ through

end Gatherv

section Scatter

variable {vm : ProcessVm} {sendbuf recvbuf : Pointer} {sendcount recvcount : Int}
  {sendtype recvtype : MpiDatatype} {recvIovec sendIovec : Iovec} {comm : MpiComm}

/-- The state after the root of a scatter has taken its own block. -/
def scatterOwn (vm : ProcessVm) (w : World) (root : Nat) (sendbuf : Loc) (sendcount : Int)
    (sendIovec : Iovec) (recvbuf : Pointer) (recvcount : Int) (recvIovec : Iovec) : World :=
  if recvbuf = .inPlace then w
  else
    w.copy vm sendbuf sendIovec sendcount (root * sendcount) (recvbuf.loc root) recvIovec recvcount 0

theorem scatterOwn_midway {sendLoc : Loc} : Midway w
    (scatterOwn vm w root sendLoc sendcount sendIovec recvbuf recvcount recvIovec) none := by
  unfold scatterOwn
  split
  · exact Midway.refl w
  · exact Midway.copy _ _ _ _ _ _ _ _ _ _

theorem rootScatterRequest_entered (arriving : Arriving (.rooted root) n past w root made)
    (midway : Midway (w.claimed root) mid none) (sendLoc : Loc) (sendcount : Int) (sendIovec : Iovec) :
    (rootScatterRequest mid root (w.turnOf root) sendLoc sendcount sendIovec).Yields fun result =>
      IsInt (sendcount * n) ∧ ∃ made', Entered (.rooted root) n past w root mid
        { buf := sendLoc, iovec := sendIovec, size := sendcount * n, count := sendcount }
        (serve (fun id => .writeToOwner id sendLoc sendIovec sendcount (.elems 0)
          (.product sendcount (mid.cookies id).src)) (past.reverse.map made)) result made made' := by
  unfold rootScatterRequest
  refine Outcome.yields_bind (Outcome.mulInt_yields fun range => ?_)
  rw [midway.size, show (w.claimed root).size = n from arriving.size] at range ⊢
  exact (rootRequest_entered arriving midway _ _ _ _ fun _ => rfl).mono fun _ entered => ⟨range, entered⟩

/-- The root of a scatter writes to the ranks that came before it. -/
theorem mpiIscatter_root (arriving : Arriving (.rooted root) n past w root made)
    (recvGiven : ¬ (recvbuf = .null ∧ recvcount ≠ 0))
    (recvTyped : recvbuf ≠ .inPlace → recvtype = some recvIovec)
    (sendGiven : ¬ (sendbuf = .null ∧ sendcount ≠ 0))
    (bytesAgree : recvbuf ≠ .inPlace → bytesDiffer recvcount recvIovec sendcount sendIovec = false)
    (world : comm = .world) :
    (mpiIscatter vm w root sendbuf sendcount (some sendIovec) recvbuf recvcount recvtype root
      comm).Yields fun result =>
      IsInt (sendcount * n) ∧ ∃ made', Entered (.rooted root) n past w root
        (scatterOwn vm (w.claimed root) root (sendbuf.loc root) sendcount sendIovec recvbuf recvcount
          recvIovec)
        { buf := sendbuf.loc root, iovec := sendIovec, size := sendcount * n, count := sendcount }
        (serve (fun id => .writeToOwner id (sendbuf.loc root) sendIovec sendcount (.elems 0)
          (.product sendcount (w.cookies id).src)) (past.reverse.map made)) result made made' := by
  have rootValid : root < w.size := by
    rw [arriving.size]
    exact arriving.joining.bound root List.mem_cons_self
  have accepted : ¬ ((recvbuf = .null ∧ recvcount ≠ 0) ∨ (recvbuf ≠ .inPlace ∧ recvtype = none) ∨
      (root : Int) < 0 ∨ (w.size : Int) ≤ root ∨ comm ≠ .world) := by
    rintro (noBuf | ⟨outOfPlace, noType⟩ | low | high | other)
    · exact recvGiven noBuf
    · rw [recvTyped outOfPlace] at noType
      cases noType
    · omega
    · omega
    · exact other world
  unfold mpiIscatter
  rw [if_neg accepted]
  refine enter_yields ?_
  simp only [if_true, mismatch_eq recvTyped bytesAgree, Outcome.ok_bind, Bool.false_eq_true, or_false,
    if_neg sendGiven]
  have moved : Midway (w.claimed root) (scatterOwn vm (w.claimed root) root (sendbuf.loc root) sendcount
    sendIovec recvbuf recvcount recvIovec) none := scatterOwn_midway
  have requested := rootScatterRequest_entered arriving moved (sendbuf.loc root) sendcount sendIovec
  by_cases inPlace : recvbuf = .inPlace
  · rw [if_pos inPlace]
    simp only [scatterOwn, if_pos inPlace] at requested ⊢
    exact requested
  · rw [if_neg inPlace, recvTyped inPlace, deref, Outcome.ok_bind]
    refine Outcome.yields_bind (Outcome.mulInt_yields fun _ => ?_)
    simp only [scatterOwn, if_neg inPlace] at requested ⊢
    exact requested

/-- Another rank of a scatter reads its block, or lets the root write it. -/
theorem mpiIscatter_member (arriving : Arriving (.rooted root) n past w self made) (rootValid : root < n)
    (member : self ≠ root) (recvGiven : ¬ (recvbuf = .null ∧ recvcount ≠ 0)) (world : comm = .world) :
    (mpiIscatter vm w self sendbuf sendcount sendtype recvbuf recvcount (some recvIovec) root
      comm).Yields fun result =>
      ∃ made', Entered (.rooted root) n past w self (w.claimed self)
        { buf := recvbuf.loc self, iovec := recvIovec, size := recvcount, count := recvcount }
        (if root ∈ past then
          [.readFromOwner (made root) (recvbuf.loc self) recvIovec recvcount recvcount (.elems 0)
            .countTimesRank]
        else []) result made made' := by
  have accepted : ¬ ((recvbuf = .null ∧ recvcount ≠ 0) ∨
      (recvbuf ≠ .inPlace ∧ (some recvIovec : MpiDatatype) = none) ∨ (root : Int) < 0 ∨
      (w.size : Int) ≤ root ∨ comm ≠ .world) := by
    simp only [recvGiven, world, reduceCtorEq, not_true_eq_false, ne_eq, false_or, or_false, not_or,
      and_false, arriving.size]
    omega
  have notRoot : ¬ (self : Int) = root := by exact_mod_cast member
  unfold mpiIscatter
  rw [if_neg accepted]
  refine enter_yields ?_
  simp only [if_neg notRoot, deref, Outcome.ok_bind]
  have through : ∀ id, (Action.readFromOwner id (recvbuf.loc self) recvIovec recvcount recvcount
      (.elems 0) .countTimesRank).transfer = some id := fun _ => rfl
  exact memberRequest_entered arriving.claimed arriving.joining rootValid member _ _ _ through

end Scatter

end Rooted

/-! ### Allgather -/

section Allgather

variable {vm : ProcessVm} {n : Nat} {past : List Nat} {w : World} {self : Nat} {made : Nat → Nat}
  {sendbuf recvbuf : Pointer} {sendcount recvcount : Int} {sendtype : MpiDatatype}
  {recvIovec sendIovec : Iovec} {comm : MpiComm}

/-- An allgather whose arguments are accepted enters its slot. -/
theorem mpiIallgather_eq (sendGiven : ¬ (sendbuf = .null ∧ sendcount ≠ 0))
    (sendTyped : sendbuf ≠ .inPlace → sendtype = some sendIovec)
    (recvGiven : ¬ (recvbuf = .null ∧ recvcount ≠ 0))
    (bytesAgree : sendbuf ≠ .inPlace → bytesDiffer sendcount sendIovec recvcount recvIovec = false)
    (world : comm = .world) :
    mpiIallgather vm w self sendbuf sendcount sendtype recvbuf recvcount (some recvIovec) comm =
      (w.getCurrentSlot self >>= fun slot =>
        allgatherRequest vm slot.2 self slot.1 sendbuf sendcount sendtype (recvbuf.loc self) recvcount
          recvIovec) := by
  have accepted : ¬ ((sendbuf = .null ∧ sendcount ≠ 0) ∨ (sendbuf ≠ .inPlace ∧ sendtype = none) ∨
      (recvbuf = .null ∧ recvcount ≠ 0) ∨ (some recvIovec : MpiDatatype) = none) := by
    rintro (noBuf | ⟨outOfPlace, noType⟩ | noBuf | noType)
    · exact sendGiven noBuf
    · rw [sendTyped outOfPlace] at noType
      cases noType
    · exact recvGiven noBuf
    · cases noType
  unfold mpiIallgather
  rw [if_neg accepted]
  simp [deref, mismatch_eq sendTyped bytesAgree, world]

/-- The first rank of an allgather puts its own block in place. -/
theorem mpiIallgather_first (arriving : Arriving .collecting n [] w self made)
    (sendGiven : ¬ (sendbuf = .null ∧ sendcount ≠ 0))
    (sendTyped : sendbuf ≠ .inPlace → sendtype = some sendIovec)
    (recvGiven : ¬ (recvbuf = .null ∧ recvcount ≠ 0))
    (bytesAgree : sendbuf ≠ .inPlace → bytesDiffer sendcount sendIovec recvcount recvIovec = false)
    (world : comm = .world) :
    (mpiIallgather vm w self sendbuf sendcount sendtype recvbuf recvcount (some recvIovec)
      comm).Yields fun result =>
      ∃ mid made',
        allgatherFirst vm (w.claimed self) self sendbuf sendcount sendtype (recvbuf.loc self) recvcount
          recvIovec = .ok mid ∧
        IsInt (recvcount * n) ∧
        Entered .collecting n [] w self mid
          { buf := recvbuf.loc self, iovec := recvIovec, size := recvcount * n, count := recvcount } []
          result made made' := by
  have several : 2 ≤ n := arriving.several.resolve_right (by simp)
  rw [mpiIallgather_eq sendGiven sendTyped recvGiven bytesAgree world]
  refine enter_yields ((allgatherRequest_first arriving.claimed
    (arriving.joining.bound self List.mem_cons_self) several).mono ?_)
  rintro result ⟨mid, made', moved, range, settles⟩
  have more : 0 + 1 ≠ n := by omega
  refine ⟨mid, made', moved, range, allgatherFirst_midway moved, settles, ?_⟩
  simp only [Schedule.later, Schedule.taken, List.length_nil, if_neg more]
  exact Script.nil

/-- A later rank of an allgather writes its block to the first one, and the last one spreads the result. -/
theorem mpiIallgather_next (arriving : Arriving .collecting n past w self made) {first : Nat}
    (earliest : past.getLast? = some first) (sendGiven : ¬ (sendbuf = .null ∧ sendcount ≠ 0))
    (sendTyped : sendbuf ≠ .inPlace → sendtype = some sendIovec)
    (recvGiven : ¬ (recvbuf = .null ∧ recvcount ≠ 0))
    (bytesAgree : sendbuf ≠ .inPlace → bytesDiffer sendcount sendIovec recvcount recvIovec = false)
    (world : comm = .world) :
    (mpiIallgather vm w self sendbuf sendcount sendtype recvbuf recvcount (some recvIovec)
      comm).Yields fun result =>
      ∃ done,
        allgatherContribute vm (w.claimed self) self (made first) sendbuf sendcount sendtype
          (recvbuf.loc self) recvcount recvIovec = .ok done ∧
        (done.ret ≠ mpiSuccess → result = (done.world, Frame.failed done.ret)) ∧
        (done.ret = mpiSuccess → IsInt (recvcount * n) ∧ ∃ made',
          Entered .collecting n past w self done.world
            { buf := recvbuf.loc self, iovec := recvIovec, size := recvcount * n, count := recvcount }
            (if past.length + 1 = n then
              allgatherSpread (recvbuf.loc self) recvIovec (recvcount * n) (past.reverse.map made)
            else []) result made made') := by
  rw [mpiIallgather_eq sendGiven sendTyped recvGiven bytesAgree world]
  refine enter_yields ((allgatherRequest_next arriving.claimed arriving.joining earliest).mono ?_)
  rintro result ⟨done, moved, failed, succeeded⟩
  refine ⟨done, moved, failed, fun success => ?_⟩
  obtain ⟨range, made', settles⟩ := succeeded success
  have midway : Midway (w.claimed self) done.world ((Schedule.collecting.now past).map made) := by
    rw [Schedule.now, earliest]
    exact allgatherContribute_midway moved
  refine ⟨range, made', midway, settles, ?_⟩
  simp only [Schedule.later, Schedule.taken]
  by_cases last : past.length + 1 = n
  · simp only [if_pos last]
    rw [arriving.map_earlier settles.madeOthers]
    exact script_allgatherSpread _ _ _ _
  · simp only [if_neg last]
    exact Script.nil

end Allgather

/-! ### Allreduce -/

section Allreduce

variable {vm : ProcessVm} {n : Nat} {past : List Nat} {w : World} {self : Nat} {made : Nat → Nat}
  {sendbuf recvbuf : Pointer} {count : Int} {iovec : Iovec} {op : UmpiOp} {comm : MpiComm}

/-- A rank of an allreduce adds its input to the total, and the last one passes the result on. -/
theorem mpiIallreduce_enters (arriving : Arriving (.chain (sendbuf = .inPlace)) n past w self made)
    (bufsGiven : ¬ ((sendbuf = .null ∨ recvbuf = .null) ∧ count ≠ 0)) (world : comm = .world)
    (fits : tooLongInPlace sendbuf count iovec = false) :
    (mpiIallreduce vm w self sendbuf recvbuf count (some iovec) (some op) comm).Yields fun result =>
      ∃ mid ret,
        allreduceAccumulate vm (w.claimed self) self (w.turnOf self) sendbuf (recvbuf.loc self) count
          iovec op = .ok (mid, ret) ∧
        (ret ≠ mpiSuccess → result = (mid, Frame.failed ret)) ∧
        (ret = mpiSuccess → ∃ made',
          Entered (.chain (sendbuf = .inPlace)) n past w self mid
            { buf := recvbuf.loc self, iovec := iovec, size := count, count := count }
            (if past.length + 1 = n then
              serve (fun id => .writeToOwner id (recvbuf.loc self) iovec count (.elems 0) (.elems 0))
                (past.reverse.map made)
            else []) result made made') := by
  have several : 2 ≤ n := arriving.several.resolve_right (by simp)
  have accepted : ¬ (((sendbuf = .null ∨ recvbuf = .null) ∧ count ≠ 0) ∨ comm ≠ .world) := by
    simp [bufsGiven, world]
  unfold mpiIallreduce
  simp only [if_neg accepted, fits, Bool.false_eq_true, if_false]
  refine enter_yields ((allreduceRequest_settles arriving.claimed arriving.joining several).mono ?_)
  rintro result ⟨mid, ret, moved, failed, succeeded⟩
  refine ⟨mid, ret, moved, failed, fun success => ?_⟩
  obtain ⟨made', settles⟩ := succeeded success
  refine ⟨made', allreduceAccumulate_midway arriving.claimed arriving.joining.length_le moved, settles, ?_⟩
  simp only [Schedule.later, Schedule.taken]
  by_cases last : past.length + 1 = n
  · simp only [if_pos last]
    rw [arriving.map_earlier settles.madeOthers]
    exact Script.serve (fun _ => rfl) _
  · simp only [if_neg last]
    exact Script.nil

/-- With more than one process the blocking call starts as the nonblocking one. -/
theorem mpiAllreduce_eq (several : w.size ≠ 1) (datatype : MpiDatatype) (op : Option UmpiOp) :
    mpiAllreduce vm w self sendbuf recvbuf count datatype op comm =
      mpiIallreduce vm w self sendbuf recvbuf count datatype op comm := by
  unfold mpiAllreduce
  cases datatype with
  | none => rfl
  | some iovec =>
      cases op with
      | none => rfl
      | some op =>
          simp only [if_neg several]
          split
          case isTrue rejected => simp only [mpiIallreduce, if_pos rejected]
          case isFalse => rfl

end Allreduce

/-! ### Scan and exscan -/

section Ladder

variable {vm : ProcessVm} {n : Nat} {past : List Nat} {w : World} {self : Nat} {made : Nat → Nat}
  {sendbuf recvbuf : Pointer} {count : Int} {iovec : Iovec} {op : UmpiOp} {comm : MpiComm}

/-- What is left of the two ladders' fresh-name condition. -/
theorem Arriving.freshLadder (arriving : Arriving .ladder n past w self made) :
    ∀ rank ∈ past, made rank ≠ (w.claimed self).newName self := by
  have notFull : past.length ≠ n := Nat.ne_of_lt arriving.joining.length_le
  intro rank member
  exact arriving.fresh rank (by simpa [Schedule.box, notFull] using member)

/-- A rank of an exscan leaves its cookie, and the last one climbs them all. -/
theorem mpiIexscan_enters (arriving : Arriving .ladder n past w self made)
    (bufsGiven : ¬ ((sendbuf = .null ∨ (self ≠ 0 ∧ recvbuf = .null)) ∧ count ≠ 0)) (world : comm = .world)
    (fits : ¬ umpiMaxInPlaceLen < count * iovec.stride) :
    (mpiIexscan vm w self sendbuf recvbuf count (some iovec) (some op) comm).Yields fun result =>
      ∃ made', Entered .ladder n past w self
        (exscanInput vm (w.claimed self) self sendbuf (recvbuf.loc self) count iovec)
        { buf := if self ≠ 0 then recvbuf.loc self else sendbuf.loc self
          iovec := iovec
          size := count
          count := count }
        (if past.length + 1 = n then
          climbing (w.turnOf self) count iovec (exscanLoop (w.turnOf self) count iovec op)
            ((Schedule.climb past self).map made')
        else []) result made made' := by
  have accepted : ¬ (((sendbuf = .null ∨ (self ≠ 0 ∧ recvbuf = .null)) ∧ count ≠ 0) ∨ comm ≠ .world) := by
    simp only [world, ne_eq, not_true_eq_false, or_false]
    exact bufsGiven
  have short : tooLongInPlace sendbuf count iovec = false := by
    rw [tooLongInPlace, decide_eq_false_iff_not]
    exact fun long => fits long.2
  unfold mpiIexscan
  simp only [if_neg accepted, short, Bool.false_eq_true, if_false]
  refine enter_yields ((exscanRequest_settles arriving.claimed arriving.freshLadder arriving.joining
    arriving.small).mono ?_)
  rintro result (⟨long, _⟩ | ⟨_, made', settles⟩)
  · exact absurd long fits
  · exact ⟨made', exscanInput_midway, settles, script_climbing (script_exscanLoop _ _ _ _) made'⟩

/-- A rank of a scan leaves its cookie, and the last one climbs them all. -/
theorem mpiIscan_enters (arriving : Arriving .ladder n past w self made)
    (bufsGiven : ¬ ((sendbuf = .null ∨ recvbuf = .null) ∧ count ≠ 0)) (world : comm = .world)
    (fits : ¬ umpiMaxInPlaceLen < count * iovec.stride) :
    (mpiIscan vm w self sendbuf recvbuf count (some iovec) (some op) comm).Yields fun result =>
      ∃ made', Entered .ladder n past w self
        (scanInput vm (w.claimed self) self sendbuf (recvbuf.loc self) count iovec)
        { buf := recvbuf.loc self, iovec := iovec, size := count, count := count }
        (if past.length + 1 = n then
          climbing (w.turnOf self) count iovec (scanLoop (w.turnOf self) count iovec op)
            ((Schedule.climb past self).map made')
        else []) result made made' := by
  have accepted : ¬ (((sendbuf = .null ∨ recvbuf = .null) ∧ count ≠ 0) ∨ comm ≠ .world) := by
    simp only [world, ne_eq, not_true_eq_false, or_false]
    exact bufsGiven
  have short : tooLongInPlace sendbuf count iovec = false := by
    rw [tooLongInPlace, decide_eq_false_iff_not]
    exact fun long => fits long.2
  unfold mpiIscan
  simp only [if_neg accepted, short, Bool.false_eq_true, if_false]
  refine enter_yields ((scanRequest_settles arriving.claimed arriving.freshLadder arriving.joining
    arriving.small).mono ?_)
  rintro result (⟨long, _⟩ | ⟨_, made', settles⟩)
  · exact absurd long fits
  · exact ⟨made', scanInput_midway, settles, script_climbing (script_scanLoop _ _ _ _) made'⟩

end Ladder

/-! ### Every call -/

/-- The schedule of an operation. -/
def Operation.schedule (inPlace : Bool) : Operation → Schedule
  | bcast root => .rooted root.toNat
  | gather root => .rooted root.toNat
  | gatherv root => .rooted root.toNat
  | scatter root => .rooted root.toNat
  | allgather => .collecting
  | allreduce => .chain inPlace
  | exscan => .ladder
  | scan => .ladder

/-- Does a rank of an allreduce pass `MPI_IN_PLACE`? -/
def Call.reducesInPlace : Call → Bool
  | allreduce sendbuf _ _ _ _ _ => sendbuf = .inPlace
  | blockingAllreduce sendbuf _ _ _ _ _ => sendbuf = .inPlace
  | _ => false

/-- The schedule a call follows. Ranks of one allreduce may follow different ones. -/
def Call.schedule (call : Call) : Schedule := call.operation.schedule call.reducesInPlace

/-- Unless a call returns with an error while it holds the mutex or before, its frame is that of a
    success. -/
def Frame.Accepted (frame : Frame) : Prop := frame.cont = [] → frame.ret = mpiSuccess

theorem Frame.not_accepted_failed {ret : Int} (failure : ret ≠ mpiSuccess) :
    ¬ (Frame.failed ret).Accepted := fun accepted => failure (accepted rfl)

section Conforming

variable {n : Nat} {past : List Nat} {w : World} {self : Nat} {made : Nat → Nat}

/-- What an accepted call does in its slot: it joins as the schedule says, and a root it names exists. -/
def Joins (schedule : Schedule) (n : Nat) (past : List Nat) (w : World) (self : Nat) (made : Nat → Nat)
    (result : World × Frame) : Prop :=
  result.2.Accepted → schedule.Suits n ∧ Conforms schedule n past w self result made

theorem joins_failed {schedule : Schedule} (w' : World) {ret : Int} (failure : ret ≠ mpiSuccess) :
    Joins schedule n past w self made (w', Frame.failed ret) :=
  fun accepted => absurd accepted (Frame.not_accepted_failed failure)

/-- A call that is rejected by its first check. -/
theorem joins_rejected {schedule : Schedule} (w' : World) :
    Joins schedule n past w self made (w', Frame.failed mpiFail) :=
  joins_failed w' mpiFail_ne_mpiSuccess

theorem suits_rooted {root : Nat} (arriving : Arriving (.rooted root) n past w self made)
    (rootValid : root < n) : (Schedule.rooted root).Suits n where
  several := arriving.several
  rootValid := by
    rintro other same
    cases same
    exact rootValid

theorem joins_bcast {vm : ProcessVm} {buf : Pointer} {count : Int} {datatype : MpiDatatype} {root : Int}
    {comm : MpiComm} (arriving : Arriving (.rooted root.toNat) n past w self made) :
    ((Call.bcast buf count datatype root comm).enter vm w self).Yields
      (Joins (.rooted root.toNat) n past w self made) := by
  show (mpiIbcast w self buf count datatype root comm).Yields _
  by_cases accepted : (buf = .null ∧ count ≠ 0) ∨ datatype = none ∨ root < 0 ∨ (w.size : Int) ≤ root ∨
      comm ≠ .world
  · unfold mpiIbcast
    rw [if_pos accepted]
    exact joins_rejected w
  · simp only [not_or, not_not, not_lt, not_le] at accepted
    obtain ⟨bufGiven, typed, low, high, world⟩ := accepted
    obtain ⟨root, rfl⟩ := Int.eq_ofNat_of_zero_le low
    obtain ⟨iovec, rfl⟩ := Option.ne_none_iff_exists'.mp typed
    have rootValid : root < n := by
      rw [arriving.size] at high
      exact_mod_cast high
    rw [Int.toNat_natCast] at arriving ⊢
    have suits := suits_rooted arriving rootValid
    by_cases isRoot : self = root
    · subst isRoot
      refine (mpiIbcast_root arriving bufGiven world).mono ?_
      exact fun result ⟨made', entered⟩ _ => ⟨suits, _, _, _, made', entered⟩
    · refine (mpiIbcast_member arriving rootValid isRoot bufGiven world).mono ?_
      exact fun result ⟨made', entered⟩ _ => ⟨suits, _, _, _, made', entered⟩

/-- The check of the byte counts returns once the types are known. -/
theorem mismatch_returns {sendbuf : Pointer} {sendtype : MpiDatatype} {sendIovec : Iovec}
    (sendTyped : sendbuf ≠ .inPlace → sendtype = some sendIovec) (sendcount recvcount : Int)
    (recvIovec : Iovec) :
    mismatch sendbuf sendcount sendtype recvcount recvIovec =
      .ok (decide (sendbuf ≠ .inPlace) && bytesDiffer sendcount sendIovec recvcount recvIovec) := by
  unfold mismatch
  by_cases inPlace : sendbuf = .inPlace
  · simp [inPlace]
  · simp [inPlace, sendTyped inPlace, deref]

/-- A datatype that may only be missing together with its buffer. -/
theorem typed_of_accepted {buf : Pointer} {datatype : MpiDatatype}
    (accepted : ¬ (buf ≠ .inPlace ∧ datatype = none)) :
    ∃ iovec, buf ≠ .inPlace → datatype = some iovec := by
  cases datatype with
  | none => exact ⟨[], fun outOfPlace => absurd ⟨outOfPlace, rfl⟩ accepted⟩
  | some iovec => exact ⟨iovec, fun _ => rfl⟩

theorem joins_gather {vm : ProcessVm} {sendbuf recvbuf : Pointer} {sendcount recvcount : Int}
    {sendtype recvtype : MpiDatatype} {root : Int} {comm : MpiComm}
    (arriving : Arriving (.rooted root.toNat) n past w self made) :
    ((Call.gather sendbuf sendcount sendtype recvbuf recvcount recvtype root comm).enter vm w self).Yields
      (Joins (.rooted root.toNat) n past w self made) := by
  show (mpiIgather vm w self sendbuf sendcount sendtype recvbuf recvcount recvtype root comm).Yields _
  by_cases rejected : (sendbuf = .null ∧ sendcount ≠ 0) ∨ (sendbuf ≠ .inPlace ∧ sendtype = none) ∨
      root < 0 ∨ (w.size : Int) ≤ root ∨ comm ≠ .world
  · unfold mpiIgather
    rw [if_pos rejected]
    exact joins_rejected w
  · have accepted := rejected
    rw [not_or, not_or, not_or, not_or, not_lt, not_le, not_not] at accepted
    obtain ⟨sendGiven, typed, low, high, world⟩ := accepted
    obtain ⟨sendIovec, sendTyped⟩ := typed_of_accepted typed
    obtain ⟨root, rfl⟩ := Int.eq_ofNat_of_zero_le low
    have rootValid : root < n := by
      rw [arriving.size] at high
      exact_mod_cast high
    rw [Int.toNat_natCast] at arriving ⊢
    have suits := suits_rooted arriving rootValid
    by_cases isRoot : self = root
    · subst isRoot
      cases recvtype with
      | none =>
          unfold mpiIgather
          rw [if_neg rejected]
          refine enter_yields ?_
          simp only [if_true]
          exact joins_rejected _
      | some recvIovec =>
          by_cases second : (recvbuf = .null ∧ recvcount ≠ 0) ∨
              (decide (sendbuf ≠ .inPlace) && bytesDiffer sendcount sendIovec recvcount recvIovec) = true
          · unfold mpiIgather
            rw [if_neg rejected]
            refine enter_yields ?_
            simp only [if_true, mismatch_returns sendTyped, Outcome.ok_bind, if_pos second]
            exact joins_rejected _
          · rw [not_or] at second
            refine (mpiIgather_root arriving sendGiven sendTyped second.1 (fun outOfPlace => ?_)
              world).mono fun result ⟨_, made', entered⟩ _ => ⟨suits, _, _, _, made', entered⟩
            simpa [outOfPlace] using second.2
    · cases sendtype with
      | none =>
          have notRoot : ¬ (self : Int) = root := by exact_mod_cast isRoot
          unfold mpiIgather
          rw [if_neg rejected]
          refine enter_yields ?_
          simp only [if_neg notRoot]
          exact Outcome.yields_bind (Outcome.deref_yields fun _ impossible => nomatch impossible)
      | some sendIovec =>
          refine (mpiIgather_member arriving rootValid isRoot sendGiven world).mono ?_
          exact fun result ⟨made', entered⟩ _ => ⟨suits, _, _, _, made', entered⟩

theorem joins_gatherv {vm : ProcessVm} {sendbuf recvbuf : Pointer} {sendcount : Int}
    {recvcounts displs : Option (Nat → Int)} {sendtype recvtype : MpiDatatype} {root : Int}
    {comm : MpiComm} (arriving : Arriving (.rooted root.toNat) n past w self made) :
    ((Call.gatherv sendbuf sendcount sendtype recvbuf recvcounts displs recvtype root
      comm).enter vm w self).Yields (Joins (.rooted root.toNat) n past w self made) := by
  show (mpiIgatherv vm w self sendbuf sendcount sendtype recvbuf recvcounts displs recvtype root
    comm).Yields _
  by_cases rejected : (sendbuf = .null ∧ sendcount ≠ 0) ∨ (sendbuf ≠ .inPlace ∧ sendtype = none) ∨
      root < 0 ∨ (w.size : Int) ≤ root ∨ comm ≠ .world
  · unfold mpiIgatherv
    rw [if_pos rejected]
    exact joins_rejected w
  · have accepted := rejected
    rw [not_or, not_or, not_or, not_or, not_lt, not_le, not_not] at accepted
    obtain ⟨sendGiven, typed, low, high, world⟩ := accepted
    obtain ⟨sendIovec, sendTyped⟩ := typed_of_accepted typed
    obtain ⟨root, rfl⟩ := Int.eq_ofNat_of_zero_le low
    have rootValid : root < n := by
      rw [arriving.size] at high
      exact_mod_cast high
    rw [Int.toNat_natCast] at arriving ⊢
    have suits := suits_rooted arriving rootValid
    by_cases isRoot : self = root
    · subst isRoot
      by_cases given : ∃ counts offsets recvIovec, recvcounts = some counts ∧ displs = some offsets ∧
          recvtype = some recvIovec
      · obtain ⟨counts, offsets, recvIovec, rfl, rfl, rfl⟩ := given
        by_cases second : recvbuf = .null ∨
            (decide (sendbuf ≠ .inPlace) && bytesDiffer sendcount sendIovec (counts self) recvIovec) = true
        · unfold mpiIgatherv
          rw [if_neg rejected]
          refine enter_yields ?_
          simp only [if_true, mismatch_returns sendTyped, Outcome.ok_bind, if_pos second]
          exact joins_rejected _
        · rw [not_or] at second
          refine (mpiIgatherv_root arriving sendGiven sendTyped second.1 (fun outOfPlace => ?_)
            world).mono fun result ⟨_, _, made', entered⟩ _ => ⟨suits, _, _, _, made', entered⟩
          simpa [outOfPlace] using second.2
      · unfold mpiIgatherv
        rw [if_neg rejected]
        refine enter_yields ?_
        simp only [if_true]
        split
        case h_1 => exact absurd ⟨_, _, _, rfl, rfl, rfl⟩ given
        case h_2 => exact joins_rejected _
    · cases sendtype with
      | none =>
          have notRoot : ¬ (self : Int) = root := by exact_mod_cast isRoot
          unfold mpiIgatherv
          rw [if_neg rejected]
          refine enter_yields ?_
          simp only [if_neg notRoot]
          exact Outcome.yields_bind (Outcome.deref_yields fun _ impossible => nomatch impossible)
      | some sendIovec =>
          refine (mpiIgatherv_member arriving.standing arriving.joining rootValid isRoot sendGiven world).mono ?_
          exact fun result ⟨made', entered⟩ _ => ⟨suits, _, _, _, made', entered⟩

theorem joins_scatter {vm : ProcessVm} {sendbuf recvbuf : Pointer} {sendcount recvcount : Int}
    {sendtype recvtype : MpiDatatype} {root : Int} {comm : MpiComm}
    (arriving : Arriving (.rooted root.toNat) n past w self made) :
    ((Call.scatter sendbuf sendcount sendtype recvbuf recvcount recvtype root comm).enter vm w self).Yields
      (Joins (.rooted root.toNat) n past w self made) := by
  show (mpiIscatter vm w self sendbuf sendcount sendtype recvbuf recvcount recvtype root comm).Yields _
  by_cases rejected : (recvbuf = .null ∧ recvcount ≠ 0) ∨ (recvbuf ≠ .inPlace ∧ recvtype = none) ∨
      root < 0 ∨ (w.size : Int) ≤ root ∨ comm ≠ .world
  · unfold mpiIscatter
    rw [if_pos rejected]
    exact joins_rejected w
  · have accepted := rejected
    rw [not_or, not_or, not_or, not_or, not_lt, not_le, not_not] at accepted
    obtain ⟨recvGiven, typed, low, high, world⟩ := accepted
    obtain ⟨recvIovec, recvTyped⟩ := typed_of_accepted typed
    obtain ⟨root, rfl⟩ := Int.eq_ofNat_of_zero_le low
    have rootValid : root < n := by
      rw [arriving.size] at high
      exact_mod_cast high
    rw [Int.toNat_natCast] at arriving ⊢
    have suits := suits_rooted arriving rootValid
    by_cases isRoot : self = root
    · subst isRoot
      cases sendtype with
      | none =>
          unfold mpiIscatter
          rw [if_neg rejected]
          refine enter_yields ?_
          simp only [if_true]
          exact joins_rejected _
      | some sendIovec =>
          by_cases second : (sendbuf = .null ∧ sendcount ≠ 0) ∨
              (decide (recvbuf ≠ .inPlace) && bytesDiffer recvcount recvIovec sendcount sendIovec) = true
          · unfold mpiIscatter
            rw [if_neg rejected]
            refine enter_yields ?_
            simp only [if_true, mismatch_returns recvTyped, Outcome.ok_bind, if_pos second]
            exact joins_rejected _
          · rw [not_or] at second
            refine (mpiIscatter_root arriving recvGiven recvTyped second.1 (fun outOfPlace => ?_)
              world).mono fun result ⟨_, made', entered⟩ _ => ⟨suits, _, _, _, made', entered⟩
            simpa [outOfPlace] using second.2
    · cases recvtype with
      | none =>
          have notRoot : ¬ (self : Int) = root := by exact_mod_cast isRoot
          unfold mpiIscatter
          rw [if_neg rejected]
          refine enter_yields ?_
          simp only [if_neg notRoot]
          exact Outcome.yields_bind (Outcome.deref_yields fun _ impossible => nomatch impossible)
      | some recvIovec =>
          refine (mpiIscatter_member arriving rootValid isRoot recvGiven world).mono ?_
          exact fun result ⟨made', entered⟩ _ => ⟨suits, _, _, _, made', entered⟩

/-- Only operations with a root need one that exists. -/
theorem suits_unrooted {schedule : Schedule} (arriving : Arriving schedule n past w self made)
    (unrooted : ∀ root, schedule ≠ .rooted root) : schedule.Suits n where
  several := arriving.several
  rootValid := fun root same => absurd same (unrooted root)

theorem joins_allgather {vm : ProcessVm} {sendbuf recvbuf : Pointer} {sendcount recvcount : Int}
    {sendtype recvtype : MpiDatatype} {comm : MpiComm}
    (arriving : Arriving .collecting n past w self made) :
    ((Call.allgather sendbuf sendcount sendtype recvbuf recvcount recvtype comm).enter vm w self).Yields
      (Joins .collecting n past w self made) := by
  show (mpiIallgather vm w self sendbuf sendcount sendtype recvbuf recvcount recvtype comm).Yields _
  have suits := suits_unrooted arriving fun _ => by simp
  by_cases rejected : (sendbuf = .null ∧ sendcount ≠ 0) ∨ (sendbuf ≠ .inPlace ∧ sendtype = none) ∨
      (recvbuf = .null ∧ recvcount ≠ 0) ∨ recvtype = none
  · unfold mpiIallgather
    rw [if_pos rejected]
    exact joins_rejected w
  · have accepted := rejected
    rw [not_or, not_or, not_or] at accepted
    obtain ⟨sendGiven, typed, recvGiven, recvTyped⟩ := accepted
    obtain ⟨sendIovec, sendTyped⟩ := typed_of_accepted typed
    obtain ⟨recvIovec, rfl⟩ := Option.ne_none_iff_exists'.mp recvTyped
    by_cases second :
        (decide (sendbuf ≠ .inPlace) && bytesDiffer sendcount sendIovec recvcount recvIovec) = true ∨
          comm ≠ .world
    · unfold mpiIallgather
      rw [if_neg rejected]
      simp only [deref, mismatch_returns sendTyped, Outcome.ok_bind, if_pos second]
      exact joins_rejected w
    · rw [not_or, not_not] at second
      have bytesAgree : sendbuf ≠ .inPlace →
          bytesDiffer sendcount sendIovec recvcount recvIovec = false :=
        fun outOfPlace => by simpa [outOfPlace] using second.1
      by_cases first : past = []
      · subst first
        refine (mpiIallgather_first arriving sendGiven sendTyped recvGiven bytesAgree second.2).mono ?_
        exact fun result ⟨mid, made', _, _, entered⟩ _ => ⟨suits, _, _, _, made', entered⟩
      · refine (mpiIallgather_next arriving (List.getLast?_eq_some_getLast first) sendGiven sendTyped
          recvGiven bytesAgree second.2).mono ?_
        rintro result ⟨done, _, failed, succeeded⟩
        by_cases success : done.ret = mpiSuccess
        · obtain ⟨_, made', entered⟩ := succeeded success
          exact fun _ => ⟨suits, _, _, _, made', entered⟩
        · rw [failed success]
          exact joins_failed _ success

theorem joins_allreduce {vm : ProcessVm} {sendbuf recvbuf : Pointer} {count : Int} {datatype : MpiDatatype}
    {op : Option UmpiOp} {comm : MpiComm}
    (arriving : Arriving (.chain (sendbuf = .inPlace)) n past w self made) :
    ((Call.allreduce sendbuf recvbuf count datatype op comm).enter vm w self).Yields
      (Joins (.chain (sendbuf = .inPlace)) n past w self made) := by
  show (mpiIallreduce vm w self sendbuf recvbuf count datatype op comm).Yields _
  have suits := suits_unrooted arriving fun _ => by simp
  cases datatype with
  | none => exact joins_rejected w
  | some iovec =>
      cases op with
      | none => exact joins_rejected w
      | some op =>
          by_cases rejected : ((sendbuf = .null ∨ recvbuf = .null) ∧ count ≠ 0) ∨ comm ≠ .world
          · simp only [mpiIallreduce, if_pos rejected]
            exact joins_rejected w
          · by_cases long : tooLongInPlace sendbuf count iovec = true
            · simp only [mpiIallreduce, if_neg rejected, if_pos long]
              exact joins_rejected w
            · rw [not_or, not_not] at rejected
              refine (mpiIallreduce_enters arriving rejected.1 rejected.2 (by simpa using long)).mono ?_
              rintro result ⟨mid, ret, _, failed, succeeded⟩
              by_cases success : ret = mpiSuccess
              · obtain ⟨made', entered⟩ := succeeded success
                exact fun _ => ⟨suits, _, _, _, made', entered⟩
              · rw [failed success]
                exact joins_failed _ success

theorem joins_exscan {vm : ProcessVm} {sendbuf recvbuf : Pointer} {count : Int} {datatype : MpiDatatype}
    {op : Option UmpiOp} {comm : MpiComm} (arriving : Arriving .ladder n past w self made) :
    ((Call.exscan sendbuf recvbuf count datatype op comm).enter vm w self).Yields
      (Joins .ladder n past w self made) := by
  show (mpiIexscan vm w self sendbuf recvbuf count datatype op comm).Yields _
  have suits := suits_unrooted arriving fun _ => by simp
  cases datatype with
  | none => exact joins_rejected w
  | some iovec =>
      cases op with
      | none => exact joins_rejected w
      | some op =>
          by_cases rejected : ((sendbuf = .null ∨ (self ≠ 0 ∧ recvbuf = .null)) ∧ count ≠ 0) ∨
              comm ≠ .world
          · simp only [mpiIexscan, if_pos rejected]
            exact joins_rejected w
          · by_cases fits : umpiMaxInPlaceLen < count * iovec.stride
            · by_cases short : tooLongInPlace sendbuf count iovec = true
              · simp only [mpiIexscan, if_neg rejected, if_pos short]
                exact joins_rejected w
              · simp only [mpiIexscan, if_neg rejected, if_neg short]
                refine enter_yields ?_
                simp only [exscanRequest, if_pos fits]
                exact joins_rejected _
            · rw [not_or, not_not] at rejected
              refine (mpiIexscan_enters arriving rejected.1 rejected.2 fits).mono ?_
              exact fun result ⟨made', entered⟩ _ => ⟨suits, _, _, _, made', entered⟩

theorem joins_scan {vm : ProcessVm} {sendbuf recvbuf : Pointer} {count : Int} {datatype : MpiDatatype}
    {op : Option UmpiOp} {comm : MpiComm} (arriving : Arriving .ladder n past w self made) :
    ((Call.scan sendbuf recvbuf count datatype op comm).enter vm w self).Yields
      (Joins .ladder n past w self made) := by
  show (mpiIscan vm w self sendbuf recvbuf count datatype op comm).Yields _
  have suits := suits_unrooted arriving fun _ => by simp
  cases datatype with
  | none => exact joins_rejected w
  | some iovec =>
      cases op with
      | none => exact joins_rejected w
      | some op =>
          by_cases rejected : ((sendbuf = .null ∨ recvbuf = .null) ∧ count ≠ 0) ∨ comm ≠ .world
          · simp only [mpiIscan, if_pos rejected]
            exact joins_rejected w
          · by_cases fits : umpiMaxInPlaceLen < count * iovec.stride
            · by_cases short : tooLongInPlace sendbuf count iovec = true
              · simp only [mpiIscan, if_neg rejected, if_pos short]
                exact joins_rejected w
              · simp only [mpiIscan, if_neg rejected, if_neg short]
                refine enter_yields ?_
                simp only [scanRequest, if_pos fits]
                exact joins_rejected _
            · rw [not_or, not_not] at rejected
              refine (mpiIscan_enters arriving rejected.1 rejected.2 fits).mono ?_
              exact fun result ⟨made', entered⟩ _ => ⟨suits, _, _, _, made', entered⟩

/-- Every collective call that is accepted joins its slot as the schedule says, and no call looks at an
    empty list. -/
theorem Call.enter_joins (vm : ProcessVm) (call : Call)
    (arriving : Arriving call.schedule n past w self made) :
    (call.enter vm w self).Yields (Joins call.schedule n past w self made) := by
  cases call with
  | bcast => exact joins_bcast arriving
  | allgather => exact joins_allgather arriving
  | allreduce => exact joins_allreduce arriving
  | blockingAllreduce sendbuf recvbuf count datatype op comm =>
      have several : 2 ≤ n := arriving.several.resolve_right
        (by simp [Call.schedule, Call.operation, Operation.schedule])
      show (mpiAllreduce vm w self sendbuf recvbuf count datatype op comm).Yields _
      rw [mpiAllreduce_eq (by rw [arriving.size]; omega)]
      exact joins_allreduce arriving
  | exscan => exact joins_exscan arriving
  | scan => exact joins_scan arriving
  | gather => exact joins_gather arriving
  | gatherv => exact joins_gatherv arriving
  | scatter => exact joins_scatter arriving

end Conforming

end Umpi
