/-
Module: Umpi.Proofs.Requests
Layer: Proofs
Purpose: The critical sections of allgather, allreduce, exscan and scan, specified like those of the rooted
  operations: data may be moved first (`Midway`), then the slot is settled as the operation's schedule
  says. `Script` states which cookies the remaining actions of a call go through.
Imports: Umpi.Proofs.Entering
Trusted boundary: none
Main exports: Action.transfer, Script, Standing, allgatherRequest_first, allgatherRequest_next,
  allreduceRequest_settles, exscanRequest_settles, scanRequest_settles
Open obligations: none
-/
import Umpi.Proofs.Entering

namespace Umpi

open Foundation

/-! ### The actions after the unlock -/

/-- The cookie an action transfers data through, and so notifies. -/
def Action.transfer : Action → Option Nat
  | writeToOwner id _ _ _ _ _ => some id
  | readFromOwner id _ _ _ _ _ _ => some id
  | readIgnored id _ _ _ _ => some id
  | _ => none

/-- A transfer takes nothing out of the local list. -/
theorem Action.moved_of_transfer {action : Action} {id : Nat} (transfers : action.transfer = some id) :
    action.moved = [] := by
  cases action <;> simp [transfer] at transfers <;> rfl

/-- Every cookie is gone through after it has been taken out of the local list. -/
def MovesFirst : List Action → Prop
  | [] => True
  | action :: rest => (∀ id ∈ action.moved, id ∈ rest.filterMap Action.transfer) ∧ MovesFirst rest

theorem MovesFirst.append {cont cont' : List Action} (first : MovesFirst cont) (second : MovesFirst cont') :
    MovesFirst (cont ++ cont') := by
  induction cont with
  | nil => exact second
  | cons action cont ih =>
      refine ⟨fun id moved => ?_, ih first.2⟩
      rw [List.append_eq, List.filterMap_append]
      exact List.mem_append_left _ (first.1 id moved)

/-- The actions go through the cookies `later` in this order, and take the cookies `taken` out of the
    local list before. -/
structure Script (cont : List Action) (later taken : List Nat) : Prop where
  transfers : cont.filterMap Action.transfer = later
  moves : (cont.flatMap Action.moved).Perm taken
  order : MovesFirst cont

namespace Script

theorem nil : Script [] [] [] where
  transfers := rfl
  moves := List.Perm.refl _
  order := trivial

/-- A single transfer. -/
theorem single {action : Action} {id : Nat} (transfers : action.transfer = some id) :
    Script [action] [id] [] where
  transfers := by simp [transfers]
  moves := by simp [Action.moved_of_transfer transfers]
  order := by simp [MovesFirst, Action.moved_of_transfer transfers]

variable {cont cont' : List Action} {later later' taken taken' : List Nat}

theorem append (first : Script cont later taken) (second : Script cont' later' taken') :
    Script (cont ++ cont') (later ++ later') (taken ++ taken') where
  transfers := by rw [List.filterMap_append, first.transfers, second.transfers]
  moves := by
    rw [List.flatMap_append]
    exact first.moves.append second.moves
  order := first.order.append second.order

/-- Taking a cookie out of the list and going through it. -/
theorem moveThen (id : Nat) {action : Action} (transfers : action.transfer = some id) :
    Script [.moveToPending id, action] [id] [id] where
  transfers := by
    have notTransfer : (Action.moveToPending id).transfer = none := rfl
    simp [notTransfer, transfers]
  moves := by
    show ([id] ++ (action.moved ++ [])).Perm [id]
    rw [Action.moved_of_transfer transfers]
    exact List.Perm.refl _
  order := by
    have moved : (Action.moveToPending id).moved = [id] := rfl
    simp [MovesFirst, moved, Action.moved_of_transfer transfers, transfers]

/-- The same actions for every cookie of a list. -/
theorem flatMap {actions : Nat → List Action} {through taking : Nat → List Nat}
    (each : ∀ id, Script (actions id) (through id) (taking id)) (ids : List Nat) :
    Script (ids.flatMap actions) (ids.flatMap through) (ids.flatMap taking) := by
  induction ids with
  | nil => exact nil
  | cons id ids ih =>
      simp only [List.flatMap_cons]
      exact (each id).append ih

/-- Serving every cookie once. -/
theorem serve {transfer : Nat → Action} (through : ∀ id, (transfer id).transfer = some id)
    (ids : List Nat) : Script (serve transfer ids) ids ids := by
  have each := flatMap (fun id => moveThen id (through id)) ids
  simpa [Umpi.serve] using each

end Script

/-- An allgather's last rank goes through every cookie once. -/
theorem script_allgatherSpread (recvbuf : Loc) (recvtype : Iovec) (size : Int) (ids : List Nat) :
    Script (allgatherSpread recvbuf recvtype size ids) ids ids := by
  cases ids with
  | nil => exact Script.nil
  | cons first others =>
      have head : Script [.moveToPending first, .readIgnored first recvbuf recvtype size size] [first]
          [first] := Script.moveThen first rfl
      have rest := Script.serve (fun id => (rfl :
        (Action.writeToOwner id recvbuf recvtype size (.elems 0) (.elems 0)).transfer = some id)) others
      exact head.append rest

/-- A scan goes through the cookie of every rank but the first twice. -/
theorem script_scanLoop (turn : Nat) (count : Int) (iovec : Iovec) (op : UmpiOp) (ids : List Nat) :
    Script (scanLoop turn count iovec op ids) (ids.flatMap fun id => [id, id]) ids := by
  have each : ∀ id, Script
      [.moveToPending id,
        .readFromOwner id (recvbuf turn) iovec count 0 (.elems 0) (.elems 0),
        .reduce op (recvbuf turn) (sendbuf turn) count iovec,
        .writeToOwner id (sendbuf turn) iovec count (.elems 0) (.elems 0)] [id, id] [id] :=
    fun id =>
      { transfers := rfl
        moves := List.Perm.refl _
        order := by simp [MovesFirst, Action.moved, Action.transfer] }
  simpa [scanLoop] using Script.flatMap each ids

/-- So does an exscan. -/
theorem script_exscanLoop (turn : Nat) (count : Int) (iovec : Iovec) (op : UmpiOp) (ids : List Nat) :
    Script (exscanLoop turn count iovec op ids) (ids.flatMap fun id => [id, id]) ids := by
  induction ids with
  | nil => exact Script.nil
  | cons id rest ih =>
      have head : Script
          [.moveToPending id,
            .readFromOwner id (recvbuf turn) iovec count 0 (.elems 0) (.elems 0),
            .writeToOwner id (sendbuf turn) iovec count (.elems 0) (.elems 0)] [id, id] [id] :=
        { transfers := rfl
          moves := List.Perm.refl _
          order := by simp [MovesFirst, Action.moved, Action.transfer] }
      have reduction : Script
          (if rest = [] then [] else [.reduce op (recvbuf turn) (sendbuf turn) count iovec]) [] [] := by
        split
        · exact Script.nil
        · exact { transfers := rfl, moves := List.Perm.refl _, order := by simp [MovesFirst, Action.moved] }
      exact (head.append reduction).append ih

/-! ### The slot before a call -/

/-- The slot of an operation that the ranks of `past` have joined, between two critical sections. -/
structure Standing (schedule : Schedule) (n : Nat) (past : List Nat) (w : World) (turn : Nat)
    (made : Nat → Nat) : Prop where
  size : w.size = n
  box : (w.slots turn).box = (schedule.box n past).map made
  joined : past ≠ [] → (w.slots turn).joined = past.length
  src : ∀ rank ∈ schedule.box n past, (w.cookies (made rank)).src = rank

section Claiming

variable {schedule : Schedule} {n : Nat} {past : List Nat} {w w' : World} {self turn : Nat}
  {made : Nat → Nat}

/-- The next rank finds the slot as the earlier ones have left it. -/
theorem Standing.claimed (standing : Standing schedule n past w turn made) (short : past.length < n)
    (mine : w.ticket self % umpiOutstandingCollectiveOperations = turn) :
    Claimed schedule n past (w.claimed self) turn made where
  size := standing.size
  box := by simpa [World.claimed, mine] using standing.box
  joined := by
    by_cases first : past = []
    · have empty : (w.slots turn).box = [] := by
        rw [standing.box, (Schedule.box_eq_nil short).mpr first, List.map_nil]
      simp [World.claimed, mine, empty, first]
    · have busy : (w.slots turn).box ≠ [] := by
        rw [standing.box]
        exact fun empty => first ((Schedule.box_eq_nil short).mp (List.map_eq_nil_iff.mp empty))
      simp [World.claimed, mine, busy, standing.joined first]
  src := standing.src

/-- Moving data leaves the slot claimed. -/
theorem Claimed.midway (claimed : Claimed schedule n past w turn made) {now : Option Nat}
    (midway : Midway w w' now) : Claimed schedule n past w' turn made where
  size := midway.size.trans claimed.size
  box := (midway.box turn).trans claimed.box
  joined := (midway.joined turn).trans claimed.joined
  src := fun rank member => by
    have same : (w'.cookies (made rank)).src = (w.cookies (made rank)).src :=
      (congrArg Cookie.src (midway.fixed (made rank)) :)
    rw [same, claimed.src rank member]

/-- The first rank always leaves a cookie, and so does a later one that is not the last. -/
theorem createInBox_settles_all (claimed : Claimed schedule n past w turn made)
    (joining : Schedule.Joining n (self :: past)) (all : schedule.box n past = past.reverse)
    (offer : Offer) (num : Int)
    (settlement : schedule.settlement n past self offer [] =
      { cookie := some (offer.cookie self num)
        box := past.reverse ++ [self]
        taken := []
        retired := none
        request := self
        cont := [] }) :
    ∃ made', Settles w ((w.createInBox self turn (offer.cookie self num)).2.unlock turn)
      (Frame.done (w.createInBox self turn (offer.cookie self num)).1 []) self turn
      (schedule.settlement n past self offer []) made made' := by
  have box := claimed.box
  rw [all] at box
  have absent : self ∉ past.reverse := fun inside => joining.fresh (List.mem_reverse.mp inside)
  have nothing : ([] : List Nat) = ([] : List Nat).map made := rfl
  rw [settlement]
  exact ⟨_, createInBox_settles (offer.cookie self num) [] box absent nothing (by simp)⟩

end Claiming

/-! ### Allgather -/

section Allgather

variable {vm : ProcessVm} {n : Nat} {past : List Nat} {w : World} {self turn : Nat} {made : Nat → Nat}
  {sendbuf : Pointer} {sendcount : Int} {sendtype : MpiDatatype} {recvbuf : Loc} {recvcount : Int}
  {recvtype : Iovec}

theorem allgatherFirst_midway {mid : World}
    (moved : allgatherFirst vm w self sendbuf sendcount sendtype recvbuf recvcount recvtype = .ok mid) :
    Midway w mid none := by
  unfold allgatherFirst at moved
  split at moved
  · obtain rfl := Outcome.ok.inj moved
    exact Midway.refl w
  · obtain ⟨sendIovec, _, rest⟩ := Outcome.bind_eq_ok.mp moved
    obtain ⟨block, _, last⟩ := Outcome.bind_eq_ok.mp rest
    obtain rfl := Outcome.ok.inj last
    exact Midway.copy _ _ _ _ _ _ _ _ _ _

theorem allgatherContribute_midway {root : Nat} {done : Transferred}
    (moved : allgatherContribute vm w self root sendbuf sendcount sendtype recvbuf recvcount recvtype =
      .ok done) :
    Midway w done.world (some root) := by
  unfold allgatherContribute at moved
  obtain ⟨seek, _, rest⟩ := Outcome.bind_eq_ok.mp moved
  split at rest
  · obtain ⟨skip, _, written⟩ := Outcome.bind_eq_ok.mp rest
    exact Midway.of_touches (writeToOwner_touches written)
  · obtain ⟨sendIovec, _, written⟩ := Outcome.bind_eq_ok.mp rest
    exact Midway.of_touches (writeToOwner_touches written)

theorem allgatherFirst_safe :
    (allgatherFirst vm w self sendbuf sendcount sendtype recvbuf recvcount recvtype).Yields
      fun _ => True := by
  unfold allgatherFirst
  split
  · trivial
  · exact Outcome.yields_bind (Outcome.deref_yields fun _ _ =>
      Outcome.yields_bind (Outcome.mulInt_yields fun _ => trivial))

theorem allgatherContribute_safe {root : Nat} :
    (allgatherContribute vm w self root sendbuf sendcount sendtype recvbuf recvcount recvtype).Yields
      fun _ => True := by
  unfold allgatherContribute
  refine Outcome.yields_bind (Outcome.mulInt_yields fun _ => ?_)
  split
  · exact Outcome.yields_bind (Outcome.mulInt_yields fun _ =>
      Outcome.writeToOwner_yields fun _ _ => trivial)
  · exact Outcome.yields_bind (Outcome.deref_yields fun _ _ =>
      Outcome.writeToOwner_yields fun _ _ => trivial)

/-- The first rank of an allgather. -/
theorem allgatherRequest_first (claimed : Claimed .collecting n [] w turn made) (valid : self < n)
    (several : 2 ≤ n) :
    (allgatherRequest vm w self turn sendbuf sendcount sendtype recvbuf recvcount recvtype).Yields
      fun result => ∃ mid made',
        allgatherFirst vm w self sendbuf sendcount sendtype recvbuf recvcount recvtype = .ok mid ∧
        IsInt (recvcount * n) ∧
        Settles mid result.1 result.2 self turn
          (Schedule.collecting.settlement n [] self
            { buf := recvbuf, iovec := recvtype, size := recvcount * n, count := recvcount } [])
          made made' := by
  have joining : Schedule.Joining n [self] := ⟨by simp, by simpa using valid⟩
  have first : w.joinedFirst turn = true := by rw [claimed.joinedFirst]; rfl
  have more : 0 + 1 ≠ n := by omega
  unfold allgatherRequest
  rw [if_pos first]
  refine Outcome.yields_bind (allgatherFirst_safe.of_returned fun mid moved => ?_)
  have claimedMid := claimed.midway (allgatherFirst_midway moved)
  refine Outcome.yields_bind (Outcome.mulInt_yields fun range => ?_)
  rw [claimedMid.size] at range ⊢
  obtain ⟨made', settled⟩ := createInBox_settles_all claimedMid joining (by simp [Schedule.box])
    { buf := recvbuf, iovec := recvtype, size := recvcount * n, count := recvcount }
    n (by simp [Schedule.settlement, Schedule.num, Schedule.box, Schedule.taken,
      Schedule.retired, Schedule.request, more])
  exact ⟨mid, made', moved, range, settled⟩

/-- A later rank of an allgather. -/
theorem allgatherRequest_next (claimed : Claimed .collecting n past w turn made)
    (joining : Schedule.Joining n (self :: past)) {first : Nat} (earliest : past.getLast? = some first) :
    (allgatherRequest vm w self turn sendbuf sendcount sendtype recvbuf recvcount recvtype).Yields
      fun result => ∃ done,
        allgatherContribute vm w self (made first) sendbuf sendcount sendtype recvbuf recvcount recvtype =
          .ok done ∧
        (done.ret ≠ mpiSuccess → result = (done.world, Frame.failed done.ret)) ∧
        (done.ret = mpiSuccess → IsInt (recvcount * n) ∧ ∃ made',
          Settles done.world result.1 result.2 self turn
            (Schedule.collecting.settlement n past self
              { buf := recvbuf, iovec := recvtype, size := recvcount * n, count := recvcount }
              (if past.length + 1 = n then
                allgatherSpread recvbuf recvtype (recvcount * n) (past.reverse.map made)
              else []))
            made made') := by
  have notFull : past.length ≠ n := Nat.ne_of_lt joining.length_le
  have nonempty : past ≠ [] := by rintro rfl; simp at earliest
  have all : Schedule.collecting.box n past = past.reverse := by simp [Schedule.box, notFull]
  have later : ¬ w.joinedFirst turn = true := by rw [claimed.joinedFirst]; simpa using nonempty
  obtain ⟨others, order⟩ : ∃ others, past.reverse = first :: others := by
    obtain ⟨init, rfl⟩ := List.getLast?_eq_some_iff.mp earliest
    exact ⟨init.reverse, by simp⟩
  have box : (w.slots turn).box = made first :: others.map made := by
    rw [claimed.box, all, order, List.map_cons]
  have request : Schedule.collecting.request n past self = if past.length + 1 = n then first else self := by
    rw [Schedule.request, List.getLastD_eq_getLast?, earliest, Option.getD_some]
  unfold allgatherRequest
  rw [if_neg later, box]
  refine Outcome.yields_bind (allgatherContribute_safe.of_returned fun done moved => ?_)
  have claimedMid := claimed.midway (allgatherContribute_midway moved)
  by_cases failed : done.ret = mpiSuccess
  · rw [if_neg (not_not.mpr failed), claimedMid.joinedLast]
    by_cases last : past.length + 1 = n
    · simp only [last, decide_true, not_true_eq_false, if_false, if_true]
      refine Outcome.yields_bind (Outcome.mulInt_yields fun range => ?_)
      rw [claimedMid.size] at range ⊢
      refine ⟨done, moved, fun impossible => absurd failed impossible, fun _ => ⟨range, made, ?_⟩⟩
      have own : ((done.world.slots turn).box) = past.reverse.map made := by
        rw [claimedMid.box, all]
      have settlement : ∀ offer cont, Schedule.collecting.settlement n past self offer cont =
          { cookie := none
            box := []
            taken := past.reverse
            retired := none
            request := first
            cont := cont } := by
        intro offer cont
        simp [Schedule.settlement, Schedule.num, Schedule.box, Schedule.taken, Schedule.retired, request,
          nonempty, last]
      rw [settlement, own]
      refine settles_of_join (made first) rfl rfl none _ ?_ ?_ ?_ ?_ ?_ ?_ ?_ ?_ ?_ ?_
      · simp [World.setBox, World.unlock]
      · simp [World.setBox, World.unlock]
      · simp [World.setBox, World.unlock]
      · simp [World.setBox, World.unlock]
      · intro rank
        simp [World.setBox, World.unlock]
      · simp [World.setBox, World.unlock]
      · intro other different
        simp [World.setBox, World.unlock, different]
      · simp [World.unlock]
      · intro rank
        simp [World.setBox, World.unlock]
      · intro rank
        simp [World.setBox, World.unlock]
    · simp only [last, decide_false, Bool.false_eq_true, not_false_eq_true, if_true, if_false]
      refine Outcome.yields_bind (Outcome.mulInt_yields fun range => ?_)
      rw [claimedMid.size] at range ⊢
      obtain ⟨made', settled⟩ := createInBox_settles_all claimedMid joining all
        { buf := recvbuf, iovec := recvtype, size := recvcount * n, count := recvcount }
        1 (by simp [Schedule.settlement, Schedule.num, Schedule.box, Schedule.taken,
          Schedule.retired, Schedule.request, nonempty, last])
      exact ⟨done, moved, fun impossible => absurd failed impossible, fun _ => ⟨range, made', settled⟩⟩
  · rw [if_pos failed]
    exact ⟨done, moved, fun _ => rfl, fun success => absurd success failed⟩

end Allgather

/-! ### Allreduce -/

section Allreduce

variable {vm : ProcessVm} {n : Nat} {past : List Nat} {w : World} {self turn : Nat} {made : Nat → Nat}
  {sendbuf : Pointer} {recvbuf : Loc} {count : Int} {iovec : Iovec} {op : UmpiOp}

/-- Only without `MPI_IN_PLACE` does adding to the total go through a cookie: the previous rank's. -/
theorem allreduceAccumulate_midway
    (claimed : Claimed (.chain (sendbuf = .inPlace)) n past w turn made) (short : past.length < n)
    {mid : World} {ret : Int}
    (moved : allreduceAccumulate vm w self turn sendbuf recvbuf count iovec op = .ok (mid, ret)) :
    Midway w mid (((Schedule.chain (sendbuf = .inPlace)).now past).map made) := by
  unfold allreduceAccumulate at moved
  by_cases inPlace : sendbuf = .inPlace
  · simp only [inPlace, if_true, decide_true, Schedule.now, Option.map_none] at moved ⊢
    split at moved
    · obtain ⟨rfl, _⟩ := Prod.mk.inj (Outcome.ok.inj moved)
      have stored : Midway w (w.setSlot turn { w.slots turn with iovec := some iovec, count := count }) none :=
        Midway.setSlot rfl
      exact stored.trans_data (Midway.copy _ _ _ _ _ _ _ _ _ _)
    · split at moved
      · obtain ⟨layout, _, moved⟩ := Outcome.bind_eq_ok.mp moved
        obtain ⟨rfl, _⟩ := Prod.mk.inj (Outcome.ok.inj moved)
        have added := (Midway.copy vm w (Umpi.sendbuf turn) layout (w.slots turn).count 0
          (Umpi.recvbuf turn) iovec count 0).trans_data
          (Midway.reduce _ op recvbuf (Umpi.recvbuf turn) count iovec)
        have stored := added.trans_data (Midway.setSlot
          (rfl : ({ w.slots turn with iovec := some iovec, count := count } : Collect).control =
            (w.slots turn).control))
        exact stored.trans_data (Midway.copy _ _ _ _ _ _ _ _ _ _)
      · obtain ⟨layout, _, moved⟩ := Outcome.bind_eq_ok.mp moved
        obtain ⟨rfl, _⟩ := Prod.mk.inj (Outcome.ok.inj moved)
        exact (Midway.copy vm w _ _ _ _ _ _ _ _).trans_data (Midway.reduce _ _ _ _ _ _)
  · have notFull : past.length ≠ n := Nat.ne_of_lt short
    simp only [inPlace, if_false, decide_false] at moved ⊢
    rw [claimed.joinedFirst] at moved
    cases past with
    | nil =>
        simp only [decide_true, if_true] at moved
        obtain ⟨rfl, _⟩ := Prod.mk.inj (Outcome.ok.inj moved)
        exact Midway.copy _ _ _ _ _ _ _ _ _ _
    | cons previous past =>
        have box : (w.slots turn).box.getLast? = some (made previous) := by
          rw [claimed.box]
          simp [Schedule.box, List.length_cons ▸ notFull]
        simp only [reduceCtorEq, decide_false, Bool.false_eq_true, if_false, box] at moved
        obtain ⟨done, read, rest⟩ := Outcome.bind_eq_ok.mp moved
        have touched := Midway.of_touches (readFromOwner_touches read)
        split at rest
        · obtain ⟨rfl, _⟩ := Prod.mk.inj (Outcome.ok.inj rest)
          exact touched
        · obtain ⟨rfl, _⟩ := Prod.mk.inj (Outcome.ok.inj rest)
          exact touched.trans_data (Midway.reduce _ _ _ _ _ _)

theorem allreduceAccumulate_safe {inPlace : Bool} (claimed : Claimed (.chain inPlace) n past w turn made)
    (short : past.length < n) :
    (allreduceAccumulate vm w self turn sendbuf recvbuf count iovec op).Yields fun _ => True := by
  have notFull : past.length ≠ n := Nat.ne_of_lt short
  unfold allreduceAccumulate
  simp only
  split
  · split
    · trivial
    · split
      · exact Outcome.yields_bind (Outcome.deref_yields fun _ _ => trivial)
      · exact Outcome.yields_bind (Outcome.deref_yields fun _ _ => trivial)
  · rw [claimed.joinedFirst]
    cases past with
    | nil => trivial
    | cons previous past =>
        have box : (w.slots turn).box.getLast? = some (made previous) := by
          rw [claimed.box]
          simp [Schedule.box, List.length_cons ▸ notFull]
        simp only [reduceCtorEq, decide_false, Bool.false_eq_true, if_false, box]
        refine Outcome.yields_bind (Outcome.readFromOwner_yields fun done _ => ?_)
        split <;> trivial

/-- A rank of an allreduce adds its input to the total; the last one passes the result on. -/
theorem allreduceRequest_settles
    (claimed : Claimed (.chain (sendbuf = .inPlace)) n past w turn made)
    (joining : Schedule.Joining n (self :: past)) (several : 2 ≤ n) :
    (allreduceRequest vm w self turn sendbuf recvbuf count iovec op).Yields
      fun result => ∃ mid ret,
        allreduceAccumulate vm w self turn sendbuf recvbuf count iovec op = .ok (mid, ret) ∧
        (ret ≠ mpiSuccess → result = (mid, Frame.failed ret)) ∧
        (ret = mpiSuccess → ∃ made',
          Settles mid result.1 result.2 self turn
            ((Schedule.chain (sendbuf = .inPlace)).settlement n past self
              { buf := recvbuf, iovec := iovec, size := count, count := count }
              (if past.length + 1 = n then
                serve (fun id => .writeToOwner id recvbuf iovec count (.elems 0) (.elems 0))
                  (past.reverse.map made)
              else []))
            made made') := by
  have short : past.length < n := joining.length_le
  have notFull : past.length ≠ n := Nat.ne_of_lt short
  have all : (Schedule.chain (sendbuf = .inPlace)).box n past = past.reverse := by
    simp [Schedule.box, notFull]
  unfold allreduceRequest
  refine Outcome.yields_bind ((allreduceAccumulate_safe claimed short).of_returned ?_)
  rintro ⟨mid, ret⟩ moved
  have claimedMid := claimed.midway (allreduceAccumulate_midway claimed short moved)
  by_cases failed : ret = mpiSuccess
  · simp only [if_neg (not_not.mpr failed), claimedMid.joinedLast]
    by_cases last : past.length + 1 = n
    · obtain ⟨latest, rest, rfl⟩ : ∃ latest rest, past = latest :: rest :=
        List.exists_cons_of_ne_nil (by rintro rfl; simp at last; omega)
      have own : (mid.slots turn).box = (latest :: rest).reverse.map made := by rw [claimedMid.box, all]
      have borrowed : ((latest :: rest).reverse.map made).getLast? = some (made latest) := by simp
      have settlement : ∀ offer cont,
          (Schedule.chain (sendbuf = .inPlace)).settlement n (latest :: rest) self offer cont =
            { cookie := none
              box := []
              taken := (latest :: rest).reverse
              retired := none
              request := latest
              cont := cont } := by
        intro offer cont
        rw [List.length_cons] at last
        simp [Schedule.settlement, Schedule.num, Schedule.box, Schedule.taken, Schedule.retired,
          Schedule.request, last]
      simp only [last, decide_true, not_true_eq_false, if_false, if_true, own, borrowed]
      refine ⟨mid, ret, moved, fun impossible => absurd failed impossible, fun _ => ⟨made, ?_⟩⟩
      rw [settlement]
      refine settles_of_join (made latest) rfl rfl none _ ?_ ?_ ?_ ?_ ?_ ?_ ?_ ?_ ?_ ?_
      · simp [World.setBox, World.unlock]
      · simp [World.setBox, World.unlock]
      · simp [World.setBox, World.unlock]
      · simp [World.setBox, World.unlock]
      · intro rank
        simp [World.setBox, World.unlock]
      · simp [World.setBox, World.unlock]
      · intro other different
        simp [World.setBox, World.unlock, different]
      · simp [World.unlock]
      · intro rank
        simp [World.setBox, World.unlock]
      · intro rank
        simp [World.setBox, World.unlock]
    · simp only [last, decide_false, Bool.false_eq_true, not_false_eq_true, if_true, if_false]
      obtain ⟨made', settled⟩ := createInBox_settles_all claimedMid joining all
        { buf := recvbuf, iovec := iovec, size := count, count := count }
        (if sendbuf = .inPlace then 1 else 2) (by
          by_cases inPlace : sendbuf = .inPlace <;>
            simp [Schedule.settlement, Schedule.num, Schedule.box, Schedule.taken, Schedule.retired,
              Schedule.request, inPlace, last])
      exact ⟨mid, ret, moved, fun impossible => absurd failed impossible, fun _ => ⟨made', settled⟩⟩
  · simp only [if_pos failed]
    exact ⟨mid, ret, moved, fun _ => rfl, fun success => absurd success failed⟩

end Allreduce

/-! ### Scan and exscan -/

section Ladder

variable {vm : ProcessVm} {n : Nat} {past : List Nat} {w : World} {self turn : Nat} {made : Nat → Nat}

/-- What the last rank of a scan or exscan does with the cookies in the order of their ranks. -/
def climbing (turn : Nat) (count : Int) (iovec : Iovec) (loop : List Nat → List Action) :
    List Nat → List Action
  | [] => []
  | first :: rest =>
      .moveToPending first ::
        .readFromOwner first (sendbuf turn) iovec count 0 (.elems 0) (.elems 0) :: loop rest

/-- Both ladders go through the first cookie once and through the others twice. -/
theorem script_climbing {count : Int} {iovec : Iovec} {loop : List Nat → List Action}
    (loopScript : ∀ ids, Script (loop ids) (ids.flatMap fun id => [id, id]) ids) (made' : Nat → Nat) :
    Script
      (if past.length + 1 = n then
        climbing turn count iovec loop ((Schedule.climb past self).map made')
      else [])
      ((Schedule.ladder.later n past self).map made') ((Schedule.ladder.taken n past self).map made') := by
  by_cases last : past.length + 1 = n
  · have perm : (Schedule.climb past self).Perm (past.reverse ++ [self]) := List.mergeSort_perm _ _
    simp only [Schedule.later, Schedule.taken, if_pos last]
    cases order : Schedule.climb past self with
    | nil =>
        rw [order] at perm
        simpa using perm.length_eq
    | cons first rest =>
        rw [order] at perm
        have head : Script
            [.moveToPending (made' first),
              .readFromOwner (made' first) (sendbuf turn) iovec count 0 (.elems 0) (.elems 0)]
            [made' first] [made' first] := Script.moveThen _ rfl
        have both := head.append (loopScript (rest.map made'))
        refine { transfers := ?_, moves := both.moves.trans (perm.map made'), order := both.order }
        refine both.transfers.trans ?_
        simp [List.map_flatMap, List.flatMap_map]
  · simp only [Schedule.later, Schedule.taken, if_neg last]
    exact Script.nil

/-- Sorting cookies by `src_` sorts their makers. -/
theorem mergeSort_src {cookies : Nat → Cookie} {ranks : List Nat}
    (src : ∀ rank ∈ ranks, (cookies (made rank)).src = rank) :
    ((ranks.map made).mergeSort fun left right => (cookies left).src ≤ (cookies right).src) =
      (ranks.mergeSort fun left right => left ≤ right).map made := by
  refine (List.map_mergeSort fun left inLeft right inRight => ?_).symm
  simp [src left inLeft, src right inRight]

/-- A rank of a scan or exscan leaves its cookie; the last one takes them all. -/
theorem ladder_settles (claimed : Claimed .ladder n past w turn made)
    (fresh : ∀ rank ∈ past, made rank ≠ w.newName self)
    (joining : Schedule.Joining n (self :: past)) (small : n ≤ 2 ^ 15) (offer : Offer) (count : Int)
    (iovec : Iovec) (loop : List Nat → List Action) {cookie : Cookie}
    (offered : cookie = offer.cookie self (if self ≠ 0 then 2 else 1)) :
    Outcome.Yields
      (if ¬ (w.createInBox self turn cookie).2.joinedLast turn then
        .ok ((w.createInBox self turn cookie).2.unlock turn,
          Frame.done (w.createInBox self turn cookie).1 [])
      else
        Umpi.ladder (w.createInBox self turn cookie).2 turn (w.createInBox self turn cookie).1 count iovec
          loop)
      fun result => ∃ made',
        Settles w result.1 result.2 self turn
          (Schedule.ladder.settlement n past self offer
            (if past.length + 1 = n then
              climbing turn count iovec loop ((Schedule.climb past self).map made')
            else []))
          made made' := by
  subst offered
  have short : past.length < n := joining.length_le
  have notFull : past.length ≠ n := Nat.ne_of_lt short
  have narrow : self < 2 ^ 15 := (joining.bound self List.mem_cons_self).trans_le small
  have all : Schedule.ladder.box n past = past.reverse := by simp [Schedule.box, notFull]
  have absent : self ∉ past.reverse := fun inside => joining.fresh (List.mem_reverse.mp inside)
  have box := claimed.box
  rw [all] at box
  let num : Int := if self ≠ 0 then 2 else 1
  let id := (w.createInBox self turn (offer.cookie self num)).1
  let after := (w.createInBox self turn (offer.cookie self num)).2
  let made' := Function.update made self (w.newName self)
  have nothing : ([] : List Nat) = ([] : List Nat).map made := rfl
  have settled : Settles w (after.unlock turn) (Frame.done id []) self turn
      { cookie := some (offer.cookie self num)
        box := past.reverse ++ [self]
        taken := []
        retired := none
        request := self
        cont := [] } made made' :=
    createInBox_settles (offer.cookie self num) [] box absent nothing (by simp)
  have joined : after.joinedLast turn = decide (past.length + 1 = n) := by
    rw [← claimed.joinedLast]
    simp [after, World.joinedLast, World.createInBox]
  have settlement : ∀ cont, Schedule.ladder.settlement n past self offer cont =
      { cookie := some (offer.cookie self num)
        box := if past.length + 1 = n then [] else past.reverse ++ [self]
        taken := if past.length + 1 = n then past.reverse ++ [self] else []
        retired := none
        request := self
        cont := cont } := by
    intro cont
    simp [Schedule.settlement, Schedule.num, Schedule.box, Schedule.taken, Schedule.retired,
      Schedule.request, num]
  simp only [settlement]
  by_cases last : past.length + 1 = n
  · have full : ¬ ¬ after.joinedLast turn = true := by simp [joined, last]
    have taken : (after.slots turn).box = (past.reverse ++ [self]).map made' := by
      have unlocked := (congrArg Collect.box settled.slot :)
      simpa [World.unlock] using unlocked
    have src : ∀ rank ∈ past.reverse ++ [self], (after.cookies (made' rank)).src = rank := by
      intro rank member
      by_cases own : rank = self
      · subst own
        exact (congrArg Cookie.src (settled.created _ rfl).2.1).trans (offer.cookie_src narrow num)
      · have earlier : rank ∈ past.reverse := by simpa [own] using member
        have other : made rank ≠ made' self := by
          rw [(settled.created _ rfl).1]
          exact fresh rank (List.mem_reverse.mp earlier)
        rw [settled.madeOthers rank own]
        exact (congrArg Cookie.src (settled.cookies _ fun _ => other)).trans
          (claimed.src rank (all ▸ earlier))
    have sorted := mergeSort_src src
    show Outcome.Yields (if ¬ after.joinedLast turn = true then .ok (after.unlock turn, Frame.done id [])
      else Umpi.ladder after turn id count iovec loop) _
    rw [if_neg full]
    unfold Umpi.ladder
    have cookies : ((after.setBox turn []).unlock turn).cookies = after.cookies := rfl
    have climbs : ((past.reverse ++ [self]).mergeSort fun left right => left ≤ right) =
        Schedule.climb past self := rfl
    simp only [last, if_true, cookies, taken, sorted, climbs]
    obtain ⟨first, rest, order⟩ := List.exists_cons_of_ne_nil
      (List.ne_nil_of_mem (Schedule.mem_climb.mpr (Or.inl rfl) : self ∈ Schedule.climb past self))
    have takes := settled.takeAll (climbing turn count iovec loop ((Schedule.climb past self).map made'))
    have unlocked : (after.unlock turn).setBox turn [] = (after.setBox turn []).unlock turn := by
      simp [World.unlock, World.setBox, World.setSlot]
    have own : ((after.unlock turn).slots turn).box = (past.reverse ++ [self]).map made' := by
      rw [← taken]
      simp [World.unlock]
    rw [unlocked, own] at takes
    rw [order] at takes ⊢
    exact ⟨made', takes⟩
  · have notFull : ¬ after.joinedLast turn = true := by simp [joined, last]
    show Outcome.Yields (if ¬ after.joinedLast turn = true then .ok (after.unlock turn, Frame.done id [])
      else Umpi.ladder after turn id count iovec loop) _
    rw [if_pos notFull]
    simp only [last, if_false]
    exact ⟨made', settled⟩

variable {vm : ProcessVm} {sendbuf : Pointer} {recvbuf : Loc} {count : Int} {iovec : Iovec} {op : UmpiOp}

/-- The state after a rank of an exscan has brought its input into its receive buffer. -/
def exscanInput (vm : ProcessVm) (w : World) (self : Nat) (sendbuf : Pointer) (recvbuf : Loc) (count : Int)
    (iovec : Iovec) : World :=
  if self ≠ 0 ∧ sendbuf ≠ .inPlace then
    w.copy vm (sendbuf.loc self) iovec count 0 recvbuf iovec count 0
  else w

theorem exscanInput_midway : Midway w (exscanInput vm w self sendbuf recvbuf count iovec) none := by
  unfold exscanInput
  split
  · exact Midway.copy _ _ _ _ _ _ _ _ _ _
  · exact Midway.refl w

/-- The state after a rank of a scan has brought its input into its receive buffer. -/
def scanInput (vm : ProcessVm) (w : World) (self : Nat) (sendbuf : Pointer) (recvbuf : Loc) (count : Int)
    (iovec : Iovec) : World :=
  if sendbuf ≠ .inPlace then w.copy vm (sendbuf.loc self) iovec count 0 recvbuf iovec count 0 else w

theorem scanInput_midway : Midway w (scanInput vm w self sendbuf recvbuf count iovec) none := by
  unfold scanInput
  split
  · exact Midway.copy _ _ _ _ _ _ _ _ _ _
  · exact Midway.refl w

theorem exscanRequest_settles (claimed : Claimed .ladder n past w turn made)
    (fresh : ∀ rank ∈ past, made rank ≠ w.newName self) (joining : Schedule.Joining n (self :: past))
    (small : n ≤ 2 ^ 15) :
    (exscanRequest vm w self turn sendbuf recvbuf count iovec op).Yields fun result =>
      (umpiMaxInPlaceLen < count * iovec.stride ∧ result = (w, Frame.failed mpiFail)) ∨
      (¬ umpiMaxInPlaceLen < count * iovec.stride ∧ ∃ made',
        Settles (exscanInput vm w self sendbuf recvbuf count iovec) result.1 result.2 self turn
          (Schedule.ladder.settlement n past self
            { buf := if self ≠ 0 then recvbuf else sendbuf.loc self
              iovec := iovec
              size := count
              count := count }
            (if past.length + 1 = n then
              climbing turn count iovec (exscanLoop turn count iovec op)
                ((Schedule.climb past self).map made')
            else []))
          made made') := by
  unfold exscanRequest
  by_cases long : umpiMaxInPlaceLen < count * iovec.stride
  · rw [if_pos long]
    exact Or.inl ⟨long, rfl⟩
  · rw [if_neg long]
    have midway : Midway w (exscanInput vm w self sendbuf recvbuf count iovec) none := exscanInput_midway
    have freshMid : ∀ rank ∈ past,
        made rank ≠ (exscanInput vm w self sendbuf recvbuf count iovec).newName self := by
      rw [midway.newName]
      exact fresh
    refine (ladder_settles (claimed.midway midway) freshMid joining small
      { buf := if self ≠ 0 then recvbuf else sendbuf.loc self
        iovec := iovec
        size := count
        count := count } count iovec (exscanLoop turn count iovec op) rfl).mono ?_
    exact fun result settled => Or.inr ⟨long, settled⟩

theorem scanRequest_settles (claimed : Claimed .ladder n past w turn made)
    (fresh : ∀ rank ∈ past, made rank ≠ w.newName self) (joining : Schedule.Joining n (self :: past))
    (small : n ≤ 2 ^ 15) :
    (scanRequest vm w self turn sendbuf recvbuf count iovec op).Yields fun result =>
      (umpiMaxInPlaceLen < count * iovec.stride ∧ result = (w, Frame.failed mpiFail)) ∨
      (¬ umpiMaxInPlaceLen < count * iovec.stride ∧ ∃ made',
        Settles (scanInput vm w self sendbuf recvbuf count iovec) result.1 result.2 self turn
          (Schedule.ladder.settlement n past self
            { buf := recvbuf, iovec := iovec, size := count, count := count }
            (if past.length + 1 = n then
              climbing turn count iovec (scanLoop turn count iovec op)
                ((Schedule.climb past self).map made')
            else []))
          made made') := by
  unfold scanRequest
  by_cases long : umpiMaxInPlaceLen < count * iovec.stride
  · rw [if_pos long]
    exact Or.inl ⟨long, rfl⟩
  · rw [if_neg long]
    have midway : Midway w (scanInput vm w self sendbuf recvbuf count iovec) none := scanInput_midway
    have freshMid : ∀ rank ∈ past,
        made rank ≠ (scanInput vm w self sendbuf recvbuf count iovec).newName self := by
      rw [midway.newName]
      exact fresh
    refine (ladder_settles (claimed.midway midway) freshMid joining small
      { buf := recvbuf, iovec := iovec, size := count, count := count } count iovec
      (scanLoop turn count iovec op) rfl).mono ?_
    exact fun result settled => Or.inr ⟨long, settled⟩

end Ladder

end Umpi
