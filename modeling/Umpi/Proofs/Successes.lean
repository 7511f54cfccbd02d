/-
Module: Umpi.Proofs.Successes
Layer: Proofs
Purpose: What it means that everybody has been told of success. Whatever system calls fail, a collective in which
  every call and every wait has returned `MPI_SUCCESS` has moved the data it is for, unless it was one of the calls
  of `umpi_copy` that failed: their return value is dropped everywhere. What else is needed is what the collectives
  need when nothing fails.
Imports: Umpi.Proofs.Allgather, Umpi.Proofs.Allreduce, Umpi.Proofs.Bcast, Umpi.Proofs.Faults, Umpi.Proofs.Gatherv,
  Umpi.Proofs.Scans, Umpi.Proofs.Scatter, Umpi.Proofs.SlotData
Trusted boundary: none
Main exports: gatherv_fits, Collective, Collective.Valid, Collective.Delivered, Collective.Undisturbed,
  success_moves_data, success_without_data
Open obligations: none
-/
import Umpi.Proofs.Allgather
import Umpi.Proofs.Allreduce
import Umpi.Proofs.Bcast
import Umpi.Proofs.Faults
import Umpi.Proofs.Gatherv
import Umpi.Proofs.Scans
import Umpi.Proofs.Scatter
import Umpi.Proofs.SlotData

namespace Umpi

open Foundation Sys

/-! ### Calls that are refused -/

section Refused

variable {calls : Nat → Call} {meets : ProcessVm → Sys → Label → Prop} {origin s : Sys} {failed : Nat → Prop}
  {rank n t : Nat}

/-- A rank whose call is refused has not made it, or has seen the error. -/
theorem Delivers.pos_eq_zero (ready : origin.Ready n t)
    (refused : ∀ vm w w' frame, (calls rank).enter vm w rank = .ok (w', frame) → frame.Fails)
    (run : Delivers (once calls) meets origin failed s) (clean : s.Clean) : (s.ranks rank).pos = 0 := by
  induction run with
  | refl => rw [ready.idle]; rfl
  | tail vm label _ _ stepped ih =>
      have before := ih (clean.of_step stepped)
      cases label with
      | call self =>
          obtain ⟨call, w, frame, _, _, listed, entered, rfl⟩ := step_call stepped
          by_cases own : rank = self
          · subst own
            rw [once, if_pos before, Option.some.injEq] at listed
            subst listed
            obtain ⟨nothing, error⟩ := refused vm _ w frame entered
            refine absurd (clean rank frame.ret ?_) error
            simp [RankState.enter, nothing]
          · simpa [own] using before
      | act self =>
          obtain ⟨_, _, _, _, _, rfl⟩ := step_act stepped
          by_cases own : rank = self
          · subst own
            simpa using before
          · simpa [own] using before
      | wait self id =>
          obtain ⟨_, _, _, rfl⟩ := step_wait stepped
          by_cases own : rank = self
          · subst own
            simpa using before
          · simpa [own] using before

/-- Nobody comes or goes. -/
theorem step_size {vm : ProcessVm} {program : Program} {s' : Sys} {label : Label}
    (stepped : s.step vm program label = .ok s') : s'.world.size = s.world.size := by
  cases label with
  | call self =>
      obtain ⟨call, w, frame, _, _, _, entered, rfl⟩ := step_call stepped
      rcases call.enter_entry vm s.world self _ entered with ⟨size, _⟩ | ⟨_, _, leaves⟩
      · exact size
      · exact leaves.within.size
  | act self =>
      obtain ⟨_, _, _, _, performed, rfl⟩ := step_act stepped
      exact (Action.exec_keeps performed).1
  | wait self id =>
      obtain ⟨_, _, _, rfl⟩ := step_wait stepped
      rfl

theorem Delivers.size (run : Delivers (once calls) meets origin failed s) : s.world.size = origin.world.size := by
  induction run with
  | refl => rfl
  | tail vm label _ _ stepped ih => exact (step_size stepped).trans ih

/-- So everybody has made a call that is not refused. -/
theorem Delivers.not_refused (ready : origin.Ready n t) (populated : 0 < n)
    (run : Delivers (once calls) meets origin failed s) (finished : s.Finished) (clean : s.Clean) :
    ¬ ∀ vm w w' frame, (calls 0).enter vm w 0 = .ok (w', frame) → frame.Fails := by
  intro refused
  have called := (finished 0 (by rwa [run.size, ready.size])).1
  rw [run.pos_eq_zero ready refused clean] at called
  cases called

theorem failed_fails : (Frame.failed mpiFail).Fails := ⟨rfl, mpiFail_ne_mpiSuccess⟩

variable {reduction : Reduction} {vm : ProcessVm} {w w' : World} {frame : Frame}

theorem Reduction.exceeds (long : ¬ reduction.Short) :
    (umpiMaxInPlaceLen : Int) < reduction.count * reduction.datatype.iovec.stride := not_le.mp long

/-- A scan of more than the scratch buffers hold is refused. -/
theorem scan_refused (long : ¬ reduction.Short)
    (entered : (reduction.scanCalls rank).enter vm w rank = .ok (w', frame)) : frame.Fails := by
  change mpiIscan vm w rank (reduction.send rank) (reduction.recv rank) reduction.count
    (some reduction.datatype.iovec) (some reduction.op) .world = _ at entered
  simp only [mpiIscan] at entered
  split at entered
  · obtain ⟨_, rfl⟩ := Prod.mk.inj (Outcome.ok.inj entered)
    exact failed_fails
  · split at entered
    · obtain ⟨_, rfl⟩ := Prod.mk.inj (Outcome.ok.inj entered)
      exact failed_fails
    · obtain ⟨⟨turn, claimed⟩, _, last⟩ := Outcome.bind_eq_ok.mp entered
      rw [scanRequest, if_pos (Reduction.exceeds long)] at last
      obtain ⟨_, rfl⟩ := Prod.mk.inj (Outcome.ok.inj last)
      exact failed_fails

/-- So is an exscan. -/
theorem exscan_refused (long : ¬ reduction.Short)
    (entered : (reduction.exscanCalls rank).enter vm w rank = .ok (w', frame)) : frame.Fails := by
  change mpiIexscan vm w rank (reduction.send rank) (reduction.recv rank) reduction.count
    (some reduction.datatype.iovec) (some reduction.op) .world = _ at entered
  simp only [mpiIexscan] at entered
  split at entered
  · obtain ⟨_, rfl⟩ := Prod.mk.inj (Outcome.ok.inj entered)
    exact failed_fails
  · split at entered
    · obtain ⟨_, rfl⟩ := Prod.mk.inj (Outcome.ok.inj entered)
      exact failed_fails
    · obtain ⟨⟨turn, claimed⟩, _, last⟩ := Outcome.bind_eq_ok.mp entered
      rw [exscanRequest, if_pos (Reduction.exceeds long)] at last
      obtain ⟨_, rfl⟩ := Prod.mk.inj (Outcome.ok.inj last)
      exact failed_fails

/-- `MPI_Iallreduce` by every rank. -/
def Reduction.iallreduceCalls (reduction : Reduction) (rank : Nat) : Call :=
  .allreduce (reduction.send rank) (reduction.recv rank) reduction.count (some reduction.datatype.iovec)
    (some reduction.op) .world

/-- And an allreduce in place. -/
theorem allreduce_refused (long : ¬ reduction.Short) (inPlace : reduction.send rank = .inPlace)
    (entered : (reduction.iallreduceCalls rank).enter vm w rank = .ok (w', frame)) : frame.Fails := by
  change mpiIallreduce vm w rank (reduction.send rank) (reduction.recv rank) reduction.count
    (some reduction.datatype.iovec) (some reduction.op) .world = _ at entered
  have tooLong : tooLongInPlace (reduction.send rank) reduction.count reduction.datatype.iovec = true := by
    rw [tooLongInPlace, decide_eq_true_iff]
    exact ⟨inPlace, Reduction.exceeds long⟩
  simp only [mpiIallreduce, tooLong, if_true, ite_self, Outcome.ok.injEq, Prod.mk.injEq] at entered
  rw [← entered.2]
  exact failed_fails

end Refused

/-- The arguments of an allreduce of any number of elements. -/
structure Reduction.Allreducible (reduction : Reduction) (n : Nat) (inPlace : Bool) : Prop where
  valid : reduction.Valid n
  receives : ∀ rank < n, reduction.Receives rank
  alike : ∀ rank < n, reduction.send rank = .inPlace ↔ inPlace = true
  apart : ∀ rank < n, reduction.send rank ≠ .inPlace →
    (reduction.view ((reduction.send rank).loc rank)).Disjoint (reduction.view (reduction.target rank))
  combines : reduction.op.Combines reduction.datatype.iovec

theorem Reduction.Allreducible.arguments {reduction : Reduction} {n : Nat} {inPlace : Bool}
    (allreducible : reduction.Allreducible n inPlace) (short : inPlace = true → reduction.Short) :
    AllreduceArguments reduction n inPlace where
  valid := allreducible.valid
  receives := allreducible.receives
  alike := allreducible.alike
  short := short
  apart := allreducible.apart

/-! ### Blocks that end too late -/

/-- While nobody has seen an error in a gatherv: the ranks of `past` have joined, and a rank whose block ends too
    late still has its transfer ahead of it. -/
structure Owing (send : Nat → Buffer) (recv : Nat → BlockVector) (n root turn : Nat) (past : List Nat)
    (made : Nat → Nat) (s : Sys) : Prop where
  range : root ∈ past → (recv root).total n < 2 ^ 31
  agreed : root ∈ past → (s.world.slots turn).displs = fun other => ((recv root).displs other : Int)
  owed : ∀ rank ∈ past, rank ≠ root → root ∈ past →
    (recv root).total n < (recv root).displs rank + (recv root).counts rank →
    ((gathervPlan send recv n root turn).pull rank (made root) ∈ (s.ranks rank).cont ∧
      ((Schedule.rooted root).numOf n root past).isSome) ∨
    ((gathervPlan send recv n root turn).push rank (made rank) ∈ (s.ranks root).cont ∧
      ((Schedule.rooted root).numOf n rank past).isSome)

section Owing

variable {send : Nat → Buffer} {recv : Nat → BlockVector} {n root t : Nat} {origin s s' : Sys} {past : List Nat}
  {made made' : Nat → Nat} {self : Nat} {vm : ProcessVm}

/-- What a cookie of the operation shows. -/
theorem Ledger.shows {schedule : Schedule} {offers : Nat → Offer}
    (ledger : Ledger schedule n t origin offers past made s) {rank : Nat}
    (makes : (schedule.numOf n rank past).isSome) : (s.world.cookies (made rank)).Shows (offers rank) := by
  obtain ⟨k, makes⟩ := Option.isSome_iff_exists.mp makes
  have stable := ledger.cookies rank k makes
  exact
    { buf := Cookie.buf_of_stable stable
      iovec := Cookie.iovec_of_stable stable
      size := Cookie.size_of_stable stable }

/-- A rank other than the root joins. -/
theorem Owing.memberJoins {w' : World} {frame : Frame}
    (owing : Owing send recv n root (s.world.turnOf self) past made s)
    (joining : Schedule.Joining n (self :: past)) (suits : (Schedule.rooted root).Suits n) (notRoot : self ≠ root)
    (entered : Entered (.rooted root) n past s.world self (s.world.claimed self)
      ((gathervPlan send recv n root (s.world.turnOf self)).offer self)
      (if root ∈ past then [(gathervPlan send recv n root (s.world.turnOf self)).pull self (made root)] else [])
      (w', frame) made made')
    (joins : Nat → List Join) :
    Owing send recv n root (s.world.turnOf self) (self :: past) made'
      { world := w'
        ranks := Function.update s.ranks self ((s.ranks self).enter frame)
        joins := joins } := by
  have others := entered.settles.madeOthers
  have rootJoined : root ∈ self :: past → root ∈ past := fun joined =>
    (List.mem_cons.mp joined).resolve_left (Ne.symm notRoot)
  refine { range := fun joined => owing.range (rootJoined joined), agreed := fun joined => ?_, owed := ?_ }
  · dsimp only
    rw [entered.settles.slot, ← owing.agreed (rootJoined joined)]
    simp [World.claimed, World.turnOf]
  · intro rank member other joined late
    have rootIn := rootJoined joined
    have makesRoot : ((Schedule.rooted root).numOf n root (self :: past)).isSome := by
      rw [Ledger.numOf_other (Ne.symm notRoot)]
      refine Schedule.numOf_of_mem_box joining.tail suits ?_
      rw [Schedule.box, if_neg (Nat.ne_of_lt joining.length_le), if_pos rootIn]
      exact List.mem_singleton_self root
    by_cases own : rank = self
    · subst own
      have cont : frame.cont = if root ∈ past then
          [(gathervPlan send recv n root (s.world.turnOf rank)).pull rank (made root)] else [] :=
        entered.settles.cont
      refine Or.inl ⟨?_, makesRoot⟩
      rw [others root (Ne.symm notRoot)]
      simp [cont, rootIn]
    · rw [others root (Ne.symm notRoot), others rank own, Ledger.numOf_other own]
      simp only [Function.update_of_ne own, Function.update_of_ne (Ne.symm notRoot)]
      rcases owing.owed rank ((List.mem_cons.mp member).resolve_left own) other rootIn late with pulls | pushes
      · exact Or.inl ⟨pulls.1, makesRoot⟩
      · exact Or.inr pushes

/-- The root joins. -/
theorem Owing.rootJoins {mid w' : World} {frame : Frame} (joining : Schedule.Joining n (root :: past))
    (suits : (Schedule.rooted root).Suits n) (range : (recv root).total n < 2 ^ 31)
    (agreed : (mid.slots (s.world.turnOf root)).displs = fun other => ((recv root).displs other : Int))
    (entered : Entered (.rooted root) n past s.world root mid
      ((gathervPlan send recv n root (s.world.turnOf root)).offer root)
      (serveRanks (gathervPlan send recv n root (s.world.turnOf root)).push made past.reverse) (w', frame) made
      made')
    (joins : Nat → List Join) :
    Owing send recv n root (s.world.turnOf root) (root :: past) made'
      { world := w'
        ranks := Function.update s.ranks root ((s.ranks root).enter frame)
        joins := joins } := by
  refine { range := fun _ => range, agreed := fun _ => ?_, owed := ?_ }
  · dsimp only
    rw [entered.settles.slot]
    exact agreed
  · intro rank member other _ _
    have sooner : rank ∈ past := (List.mem_cons.mp member).resolve_left other
    have cont : frame.cont =
        serveRanks (gathervPlan send recv n root (s.world.turnOf root)).push made past.reverse :=
      entered.settles.cont
    refine Or.inr ⟨?_, ?_⟩
    · rw [entered.settles.madeOthers rank other]
      simp only [Function.update_self, RankState.enter_cont, cont]
      refine List.mem_flatMap.mpr ⟨rank, List.mem_reverse.mpr sooner, ?_⟩
      exact List.mem_cons_of_mem _ (List.mem_singleton_self _)
    · rw [Ledger.numOf_other other]
      refine Schedule.numOf_of_mem_box joining.tail suits ?_
      rw [Schedule.box, if_neg (Nat.ne_of_lt joining.length_le), if_neg joining.fresh]
      exact List.mem_reverse.mpr sooner

/-- An action that is not the next one of its rank stays to be done. -/
theorem mem_cont_advance {action next : Action} {rest : List Action} {done : Transferred} {rank : Nat} {world : World}
    (listed : action ∈ (s.ranks rank).cont) (todo : (s.ranks self).cont = next :: rest)
    (success : done.ret = mpiSuccess) (other : rank = self → action ≠ next) :
    action ∈ (({ s with
      world := world
      ranks := Function.update s.ranks self ((s.ranks self).advance next.moved rest done.ret) } : Sys).ranks
        rank).cont := by
  by_cases own : rank = self
  · subst own
    rw [todo] at listed
    simp only [Function.update_self, success, RankState.advance_cont_of_success]
    exact (List.mem_cons.mp listed).resolve_left (other rfl)
  · simpa [own] using listed

/-- A rank performs an action that does not fail. -/
theorem Owing.act {turn : Nat} {action : Action} {rest : List Action} {done : Transferred}
    (owing : Owing send recv n root turn past made s)
    (ledger : Ledger (.rooted root) n t origin (gathervPlan send recv n root turn).offer past made s)
    (arguments : GathervArguments send recv n root) (todo : (s.ranks self).cont = action :: rest)
    (performed : action.exec vm s.world self = .ok done) (success : done.ret = mpiSuccess) :
    Owing send recv n root turn past made
      { s with
        world := done.world
        ranks := Function.update s.ranks self ((s.ranks self).advance action.moved rest done.ret) } := by
  -- what is performed is not a transfer that is refused
  have accepted : ∀ w id, action.exec vm s.world self ≠ .ok (World.finishTransfer w id mpiFail 0) := by
    intro w id refused
    obtain rfl := Outcome.ok.inj (performed.symm.trans refused)
    exact absurd success (by decide : mpiFail ≠ mpiSuccess)
  refine { range := owing.range, agreed := fun joined => ?_, owed := ?_ }
  · dsimp only
    rw [Action.exec_slots performed]
    exact owing.agreed joined
  · intro rank member other joined late
    have valid := ledger.joining.bound rank member
    rcases owing.owed rank member other joined late with ⟨listed, makes⟩ | ⟨listed, makes⟩
    · refine Or.inl ⟨mem_cont_advance listed todo success ?_, makes⟩
      rintro rfl rfl
      have shows := ledger.shows makes
      simp only [gathervPlan, if_true] at shows
      exact accepted _ _
        (gathervPull_refused arguments valid other late shows.iovec shows.size (owing.agreed joined))
    · refine Or.inr ⟨mem_cont_advance listed todo success ?_, makes⟩
      rintro rfl rfl
      have shows := ledger.shows makes
      simp only [gathervPlan, if_neg other] at shows
      exact accepted _ _ (gathervPush_refused arguments valid other late shows.iovec shows.size)

/-- A rank returns from a wait. -/
theorem Owing.leave {turn id : Nat} {err : Int} (owing : Owing send recv n root turn past made s) :
    Owing send recv n root turn past made
      { s with
        world := s.world.finalize id
        ranks := Function.update s.ranks self ((s.ranks self).leave id err) } where
  range := owing.range
  agreed := owing.agreed
  owed := by
    have cont : ∀ rank, ((Function.update s.ranks self ((s.ranks self).leave id err)) rank).cont =
        (s.ranks rank).cont := by
      intro rank
      by_cases own : rank = self <;> simp [own]
    intro rank member other joined late
    dsimp only
    rw [cont, cont]
    exact owing.owed rank member other joined late

/-- The ledger of a gatherv in which nobody has seen an error, and what is owed. -/
def OwingIn (send : Nat → Buffer) (recv : Nat → BlockVector) (n root t : Nat) (origin s : Sys) : Prop :=
  ∃ past made, Ledger (.rooted root) n t origin
      (gathervPlan send recv n root (t % umpiOutstandingCollectiveOperations)).offer past made s ∧
    Owing send recv n root (t % umpiOutstandingCollectiveOperations) past made s

/-- A step after which nobody has seen an error. -/
theorem OwingIn.step {label : Label} (owing : OwingIn send recv n root t origin s)
    (arguments : GathervArguments send recv n root) (ready : origin.Ready n t)
    (suits : (Schedule.rooted root).Suits n) (small : n + 1 < 2 ^ 15)
    (stepped : s.step vm (once (gathervCalls send recv root)) label = .ok s') (clean : s'.Clean) :
    OwingIn send recv n root t origin s' := by
  obtain ⟨past, made, ledger, owing⟩ := owing
  cases label with
  | call self =>
      obtain ⟨call, w, frame, valid, _, listed, entered, rfl⟩ := step_call stepped
      obtain ⟨absent, rfl⟩ := ledger.absent_of_call listed
      rw [ledger.standing.size] at valid
      have arriving := ledger.arriving ready suits.several (fun _ => suits) (by omega) valid absent
      have turn : s.world.turnOf self = t % umpiOutstandingCollectiveOperations := by
        rw [World.turnOf, ledger.ticket self valid absent]
      unfold OwingIn
      rw [← turn] at ledger owing ⊢
      by_cases isRoot : self = root
      · subst isRoot
        obtain ⟨range, made', joined⟩ := (gathervPlan_root (arguments.sendValid self valid) arguments.recvGiven
          (arguments.agree self valid) arriving rfl).of_ok entered
        have after := ledger.enter ready suits small valid absent joined (s.record w self)
        rw [Function.update_eq_self] at after
        exact ⟨_, made', after, Owing.rootJoins arriving.joining suits range (by simp [gathervOwn]) joined _⟩
      · obtain ⟨made', joined⟩ := (gathervPlan_member arguments.rootValid (arguments.sendValid self valid) isRoot
          arriving.standing arriving.joining rfl).of_ok entered
        have after := ledger.enter ready suits small valid absent joined (s.record w self)
        rw [Function.update_eq_self] at after
        exact ⟨_, made', after, owing.memberJoins arriving.joining suits isRoot joined _⟩
  | act self =>
      obtain ⟨action, rest, done, todo, performed, rfl⟩ := step_act stepped
      have success : done.ret = mpiSuccess := by
        by_contra error
        exact error (clean self done.ret (by simp [RankState.advance, error]))
      exact ⟨past, made, ledger.act suits small todo performed (Or.inl success),
        owing.act ledger arguments todo performed success⟩
  | wait self id =>
      obtain ⟨_, held, _, rfl⟩ := step_wait stepped
      exact ⟨past, made, ledger.leave _ held, owing.leave⟩

/-- Whatever fails, if everybody has been told of success every block but the root's own ends in time. -/
theorem gatherv_fits {meets : ProcessVm → Sys → Label → Prop} {failed : Nat → Prop} (ready : origin.Ready n t)
    (several : 2 ≤ n) (limit : n ≤ 10000) (arguments : GathervArguments send recv n root)
    (run : Delivers (once (gathervCalls send recv root)) meets origin failed s) (finished : s.Finished)
    (clean : s.Clean) : GathervFits recv n root := by
  have suits := Schedule.Suits.of_root several arguments.rootValid
  have owingIn : OwingIn send recv n root t origin s := by
    clear finished
    induction run with
    | refl =>
        refine ⟨[], id, Ledger.start ready id, ?_⟩
        exact
          { range := fun impossible => by cases impossible
            agreed := fun impossible => by cases impossible
            owed := fun _ impossible => by cases impossible }
    | tail vm label _ _ stepped ih =>
        exact (ih (clean.of_step stepped)).step arguments ready suits (by omega) stepped clean
  obtain ⟨past, made, ledger, owing⟩ := owingIn
  have size := ledger.standing.size
  have everyone : ∀ rank < n, rank ∈ past := fun rank valid =>
    ledger.joining.mem_of_full (ledger.length_of_complete finished.complete) valid
  have rootIn := everyone root arguments.rootValid
  refine ⟨owing.range rootIn, fun rank valid notRoot => ?_⟩
  by_contra late
  have returned : ∀ other < n, (s.ranks other).cont = [] := fun other inRange =>
    (finished other (size.symm ▸ inRange)).2.1
  rcases owing.owed rank (everyone rank valid) notRoot rootIn (Nat.lt_of_not_le late) with
    ⟨listed, _⟩ | ⟨listed, _⟩
  · rw [returned rank valid] at listed
    cases listed
  · rw [returned root arguments.rootValid] at listed
    cases listed

end Owing

/-! ### The read that is ignored -/

section Ignored

variable {send recv : Nat → Buffer} {sendtype : Nat → MpiDatatype} {n rank t : Nat} {vm : ProcessVm}
  {origin s : Sys}

/-- A rank that ignores the result of a read has to wait for the cookie it reads from. -/
theorem allgatherRequest_waits {w w' : World} {frame : Frame} {turn : Nat} {sendbuf : Pointer}
    {sendcount recvcount : Int} {datatype : MpiDatatype} {recvbuf : Loc} {recvtype : Iovec}
    (requested : allgatherRequest vm w rank turn sendbuf sendcount datatype recvbuf recvcount recvtype =
      .ok (w', frame))
    {id : Nat} {buf : Loc} {iovec : Iovec} {size count : Int}
    (listed : Action.readIgnored id buf iovec size count ∈ frame.cont) : frame.request = some id := by
  unfold allgatherRequest at requested
  split at requested
  · obtain ⟨_, _, rest⟩ := Outcome.bind_eq_ok.mp requested
    obtain ⟨_, _, last⟩ := Outcome.bind_eq_ok.mp rest
    obtain ⟨_, rfl⟩ := Prod.mk.inj (Outcome.ok.inj last)
    cases listed
  · split at requested
    · cases requested
    case h_2 root others box =>
      obtain ⟨contribution, contributed, rest⟩ := Outcome.bind_eq_ok.mp requested
      have same : (contribution.world.slots turn).box = (w.slots turn).box :=
        (allgatherContribute_midway contributed).box turn
      dsimp only at rest
      split at rest
      · obtain ⟨_, rfl⟩ := Prod.mk.inj (Outcome.ok.inj rest)
        cases listed
      · split at rest
        · obtain ⟨_, _, last⟩ := Outcome.bind_eq_ok.mp rest
          obtain ⟨_, rfl⟩ := Prod.mk.inj (Outcome.ok.inj last)
          cases listed
        · obtain ⟨_, _, last⟩ := Outcome.bind_eq_ok.mp rest
          obtain ⟨_, rfl⟩ := Prod.mk.inj (Outcome.ok.inj last)
          simp only [same, box, allgatherSpread, List.mem_cons, List.mem_flatMap, List.not_mem_nil,
            reduceCtorEq, false_or, or_false, and_false, exists_false, Action.readIgnored.injEq] at listed
          rw [listed.1]

theorem allgatherCalls_wait {w w' : World} {frame : Frame}
    (entered : (allgatherCalls send recv sendtype rank).enter vm w rank = .ok (w', frame))
    {id : Nat} {buf : Loc} {iovec : Iovec} {size count : Int}
    (listed : Action.readIgnored id buf iovec size count ∈ frame.cont) : frame.request = some id := by
  change mpiIallgather vm w rank (send rank).buf (send rank).count (sendtype rank) (recv rank).buf
    (recv rank).count (some (recv rank).datatype.iovec) .world = _ at entered
  unfold mpiIallgather at entered
  split at entered
  · obtain ⟨_, rfl⟩ := Prod.mk.inj (Outcome.ok.inj entered)
    cases listed
  · obtain ⟨_, _, rest⟩ := Outcome.bind_eq_ok.mp entered
    obtain ⟨_, _, rest⟩ := Outcome.bind_eq_ok.mp rest
    split at rest
    · obtain ⟨_, rfl⟩ := Prod.mk.inj (Outcome.ok.inj rest)
      cases listed
    · obtain ⟨_, _, requested⟩ := Outcome.bind_eq_ok.mp rest
      exact allgatherRequest_waits requested listed

/-- So it is in every state: it cannot wait before it has read. -/
theorem allgather_requests (ready : origin.Ready n t)
    (run : Reaches vm (once (allgatherCalls send recv sendtype)) origin s) (rank : Nat)
    {id : Nat} {buf : Loc} {iovec : Iovec} {size count : Int}
    (listed : Action.readIgnored id buf iovec size count ∈ (s.ranks rank).cont) :
    id ∈ (s.ranks rank).requests := by
  induction run with
  | refl =>
      rw [ready.idle] at listed
      cases listed
  | tail label _ stepped ih =>
      cases label with
      | call self =>
          obtain ⟨call, w, frame, _, _, next, entered, rfl⟩ := step_call stepped
          by_cases own : rank = self
          · subst own
            have called : call = allgatherCalls send recv sendtype rank := by
              unfold once at next
              split at next
              · exact (Option.some.inj next).symm
              · cases next
            subst called
            simp only [Function.update_self, RankState.enter_cont] at listed
            simp [allgatherCalls_wait entered listed]
          · simp only [Function.update_of_ne own] at listed ⊢
            exact ih listed
      | act self =>
          obtain ⟨action, rest, done, todo, _, rfl⟩ := step_act stepped
          by_cases own : rank = self
          · subst own
            simp only [Function.update_self, RankState.advance_requests] at listed ⊢
            refine ih ?_
            rw [todo]
            exact List.mem_cons_of_mem action (RankState.mem_of_mem_advance_cont _ _ _ _ listed)
          · simp only [Function.update_of_ne own] at listed ⊢
            exact ih listed
      | wait self other =>
          obtain ⟨idle, _, _, rfl⟩ := step_wait stepped
          by_cases own : rank = self
          · subst own
            simp only [Function.update_self, RankState.leave_cont, idle] at listed
            cases listed
          · simp only [Function.update_of_ne own] at listed ⊢
            exact ih listed

/-- An allgather ignores the result of a read that works, and that leaves an error where somebody waits if its
    system call fails. -/
theorem allgather_ignoresSafely {mem : Memory} (arguments : AllgatherArguments send recv sendtype n)
    (ready : origin.Ready n t) (followed : (allgatherPlan send recv n mem).Followed n t origin s)
    (run : Reaches vm (once (allgatherCalls send recv sendtype)) origin s) : s.IgnoresSafely := by
  obtain ⟨past, made, gathered, done, rest, ledger, underway⟩ := followed
  intro self id buf iovec size count actions todo
  have listed : Action.readIgnored id buf iovec size count ∈ (s.ranks self).cont := by
    rw [todo]
    exact List.mem_cons_self
  have requested := allgather_requests ready run self listed
  obtain ⟨before, errand, errands, rfl, full, rfl, action, _⟩ := underway.last_of_cont ledger.joining todo
  have joined := ledger.joining
  have sizeEq := ledger.standing.size
  have selfValid : self < n := joined.bound self List.mem_cons_self
  have planned : errand ∈ allgatherErrands recv n self before.reverse := by
    have split := underway.split
    rw [UnrootedPlan.left_of_full _ full] at split
    have member : errand ∈ (allgatherPlan send recv n mem).errands (self :: before) := by
      rw [split]
      exact List.mem_append_right done List.mem_cons_self
    exact member
  refine ⟨sizeEq.symm ▸ selfValid, fun other inRange => ?_, requested, ?_⟩
  · rw [ledger.pos other, if_pos (joined.mem_of_full full (sizeEq ▸ inRange))]
  · cases order : before.reverse with
    | nil =>
        rw [order] at planned
        cases planned
    | cons root others =>
        have rootJoined : root ∈ before := List.mem_reverse.mp (order ▸ List.mem_cons_self)
        have rootValid : root < n := joined.bound root (List.mem_cons_of_mem self rootJoined)
        rw [order, allgatherErrands, List.mem_cons, List.mem_cons] at planned
        rcases planned with rfl | rfl | later
        · cases action
        · have other : root ≠ self := fun same => joined.fresh (same ▸ rootJoined)
          have several : 2 ≤ n := by
            have populated := List.length_pos_of_mem rootJoined
            have partly : before.length < n := joined.length_le
            omega
          obtain ⟨k, makes⟩ := Option.isSome_iff_exists.mp (Schedule.numOf_of_mem_box joined.tail
            (Schedule.suits_collecting several) (Schedule.mem_box_collecting joined.length_le rootJoined))
          have shows := Underway.shown ledger root k ((Ledger.numOf_other other).trans makes)
          obtain ⟨done', read, success, _⟩ := collect_reads copyingVm_copies arguments selfValid rootValid shows
          injection action with sameId sameBuf sameIovec sameSize sameCount
          subst sameId sameBuf sameIovec sameSize sameCount
          exact ⟨done', read, success⟩
        · obtain ⟨third, _, step⟩ := List.mem_flatMap.mp later
          simp only [List.mem_cons, List.not_mem_nil, or_false] at step
          rcases step with rfl | rfl <;> cases action

end Ignored

/-! ### Rooted collectives -/

section Rooted

variable {n root t : Nat} {origin s : Sys} {failed : Nat → Prop} {meets : Sys → Label → Prop}

/-- A bcast that has succeeded everywhere. -/
theorem bcast_of_success {buffers : Nat → Buffer} (arguments : BcastArguments buffers n root)
    (ready : origin.Ready n t) (several : 2 ≤ n) (limit : n ≤ 10000)
    (run : Delivers (once (bcastCalls buffers root))
      (fun vm s label => CopiesWork (once (bcastCalls buffers root)) vm s label ∧ meets s label) origin failed s)
    (finished : s.Finished) (clean : s.Clean) :
    ∀ rank < n, Holds s.world.mem ((buffers rank).view rank)
      (readAll origin.world.mem ((buffers root).view root)) := by
  have suits := Schedule.Suits.of_root several arguments.rootValid
  have sound := bcastPlan_sound copyingVm_copies arguments (t % umpiOutstandingCollectiveOperations)
  have exchanged := sound.exchanged_of_success ⟨fun _ _ => trivial, fun _ _ => trivial⟩ ready suits (by omega)
    (fun _ _ _ _ => trivial) run finished clean
  intro rank valid
  exact bcast_received arguments exchanged
    (exchanged.delivered arguments.rootValid (bcastPlan_independent arguments) finished.complete valid)

/-- A gather that has succeeded everywhere, if the root was in time or the blocks are empty. -/
theorem gather_of_success {send recv : Nat → Buffer} (arguments : GatherArguments send recv n root)
    (ready : origin.Ready n t) (several : 2 ≤ n) (limit : n ≤ 10000)
    (run : Delivers (once (gatherCalls send recv root))
      (fun vm s label => CopiesWork (once (gatherCalls send recv root)) vm s label ∧
        ((recv root).count = 0 ∨ RootInTime recv root s label)) origin failed s)
    (finished : s.Finished) (clean : s.Clean) :
    ∀ rank < n, Holds s.world.mem (gatherBlock recv root rank)
      (readAll origin.world.mem (gatherSource send recv root rank)) := by
  intro rank valid
  by_cases empty : (recv root).count = 0
  · have nothing : gatherBlock recv root rank = [] := by simp [gatherBlock, Buffer.elements, empty, streamLocs]
    rw [nothing]
    rfl
  · have suits := Schedule.Suits.of_root several arguments.rootValid
    have sound := gatherPlan_sound copyingVm_copies arguments (t % umpiOutstandingCollectiveOperations)
    have exchanged := sound.exchanged_of_success ⟨fun _ _ => trivial, fun _ _ => trivial⟩ ready suits (by omega)
      (fun _ inTime _ called => readInPlace_of_rootInTime (inTime.resolve_left empty) called) run finished clean
    obtain ⟨placed, untouched⟩ := gather_placed arguments exchanged finished.complete
    unfold gatherSource
    split
    case isTrue contributes => exact placed rank valid contributes
    case isFalse inPlace =>
      obtain rfl : rank = root := by
        by_contra other
        exact inPlace (contributes_of_ne other)
      refine Holds.of_readAll (readAll_congr fun location inside => untouched location fun other _ contributes => ?_)
      have different : rank ≠ other := fun same => inPlace (same ▸ contributes)
      exact gatherBlock_disjoint different inside

/-- A gatherv that has succeeded everywhere. -/
theorem gatherv_of_success {send : Nat → Buffer} {recv : Nat → BlockVector}
    (arguments : GathervArguments send recv n root) (ready : origin.Ready n t) (several : 2 ≤ n)
    (limit : n ≤ 10000)
    (run : Delivers (once (gathervCalls send recv root))
      (fun vm s label => CopiesWork (once (gathervCalls send recv root)) vm s label ∧ meets s label) origin
      failed s)
    (finished : s.Finished) (clean : s.Clean) :
    ∀ rank < n, Holds s.world.mem ((recv root).block root rank)
      (readAll origin.world.mem (gathervSource send recv root rank)) := by
  have suits := Schedule.Suits.of_root several arguments.rootValid
  -- a block that ends too late would have been refused
  have fits := gatherv_fits ready several limit arguments run finished clean
  have sound := gathervPlan_sound copyingVm_copies arguments fits (t % umpiOutstandingCollectiveOperations)
  have exchanged := sound.exchanged_of_success (gathervPlan_checked _) ready suits (by omega)
    (fun _ _ _ _ => trivial) run finished clean
  intro rank valid
  unfold gathervSource
  split
  case isTrue contributes => exact gatherv_placed arguments exchanged finished.complete valid contributes
  case isFalse inPlace =>
    obtain rfl : rank = root := by
      by_contra other
      exact inPlace (contributes_of_ne other)
    refine Holds.of_readAll (readAll_congr fun location inside => ?_)
    refine gatherv_untouched exchanged fun other inRange contributes => ?_
    have different : rank ≠ other := fun same => inPlace (same ▸ contributes)
    exact (recv rank).block_disjoint rank (arguments.disjoint rank valid other inRange different) inside

/-- A scatter that has succeeded everywhere. -/
theorem scatter_of_success {send recv : Nat → Buffer} (arguments : ScatterArguments send recv n root)
    (ready : origin.Ready n t) (several : 2 ≤ n) (limit : n ≤ 10000)
    (run : Delivers (once (scatterCalls send recv root))
      (fun vm s label => CopiesWork (once (scatterCalls send recv root)) vm s label ∧ meets s label) origin
      failed s)
    (finished : s.Finished) (clean : s.Clean) :
    ∀ rank < n, Holds s.world.mem (scatterTarget send recv root rank)
      (readAll origin.world.mem (scatterBlock send root rank)) := by
  have suits := Schedule.Suits.of_root several arguments.rootValid
  have sound := scatterPlan_sound copyingVm_copies arguments (t % umpiOutstandingCollectiveOperations)
  have exchanged := sound.exchanged_of_success ⟨fun _ _ => trivial, fun _ _ => trivial⟩ ready suits (by omega)
    (fun _ _ _ _ => trivial) run finished clean
  intro rank valid
  unfold scatterTarget
  split
  case isTrue takes => exact scatter_received arguments exchanged finished.complete valid takes
  case isFalse inPlace =>
    obtain rfl : rank = root := by
      by_contra other
      exact inPlace (takesBlock_of_ne other)
    refine Holds.of_readAll (readAll_congr fun location inside => ?_)
    refine scatter_untouched exchanged fun other inRange takes received => ?_
    exact view_disjoint_scatterSource arguments inRange takes received (scatterBlock_subset arguments.rootValid inside)

end Rooted

/-! ### Collectives without a root -/

section Unrooted

variable {n t : Nat} {origin s : Sys} {failed : Nat → Prop} {meets : Sys → Label → Prop} {reduction : Reduction}

/-- An allgather that has succeeded everywhere. -/
theorem allgather_of_success {send recv : Nat → Buffer} {sendtype : Nat → MpiDatatype}
    (arguments : AllgatherArguments send recv sendtype n) (ready : origin.Ready n t) (several : 2 ≤ n)
    (limit : n ≤ 10000)
    (run : Delivers (once (allgatherCalls send recv sendtype))
      (fun vm s label => CopiesWork (once (allgatherCalls send recv sendtype)) vm s label ∧ meets s label) origin
      failed s)
    (finished : s.Finished) (clean : s.Clean) :
    ∀ rank < n, ∀ other < n, readAll s.world.mem (gatherBlock recv rank other) =
      readAll origin.world.mem (allgatherSource send recv other) := by
  have follows : ∀ s, Reaches copyingVm (once (allgatherCalls send recv sendtype)) origin s →
      (allgatherPlan send recv n origin.world.mem).Followed n t origin s := fun s reached =>
    allgather_followed copyingVm_copies arguments ready several limit reached
  have followed := (allgatherPlan_sound copyingVm_copies arguments several).followed_of_success ready
    (Schedule.suits_collecting several) (by omega) follows
    (fun s reached => allgather_ignoresSafely arguments ready (follows s reached) reached) run finished clean
  exact allgather_blocks arguments several followed finished.complete

/-- Every result of an allreduce is looked at. -/
theorem allreducePlan_checked {inPlace : Bool} {turn : Nat} {mem : Memory} (past : List Nat) :
    ∀ errand ∈ (allreducePlan reduction inPlace n turn mem).errands past, ∀ made, (errand.action made).Checked := by
  cases past with
  | nil => exact fun _ impossible => absurd impossible List.not_mem_nil
  | cons last before =>
      intro errand member made
      obtain ⟨rank, _, step⟩ := List.mem_flatMap.mp member
      simp only [List.mem_cons, List.not_mem_nil, or_false] at step
      rcases step with rfl | rfl
      · trivial
      · trivial

/-- With several ranks `MPI_Iallreduce` follows the plan of `MPI_Allreduce`. -/
theorem iallreducePlan_sound {vm : ProcessVm} (copies : CopiesAll vm) {inPlace : Bool} {turn : Nat} {mem : Memory}
    (arguments : AllreduceArguments reduction n inPlace) (adds : reduction.Adds n mem) (several : 2 ≤ n) :
    (allreducePlan reduction inPlace n turn mem).Sound vm reduction.iallreduceCalls n turn := by
  have sound : (allreducePlan reduction inPlace n turn mem).Sound vm reduction.allreduceCalls n turn :=
    allreducePlan_sound copies arguments adds several
  refine { arrives := fun past w caller made arriving here staged agreed offers => ?_, runs := sound.runs }
  have notAlone : w.size ≠ 1 := by
    rw [arriving.size]
    omega
  have arrives := sound.arrives past w caller made arriving here staged agreed offers
  change (mpiAllreduce vm w caller (reduction.send caller) (reduction.recv caller) reduction.count
    (some reduction.datatype.iovec) (some reduction.op) .world).Yields _ at arrives
  rwa [mpiAllreduce_eq notAlone] at arrives

/-- An allreduce that has succeeded everywhere. -/
theorem allreduce_of_success {inPlace : Bool} (allreducible : reduction.Allreducible n inPlace)
    (ready : origin.Ready n t) (several : 2 ≤ n) (limit : n ≤ 10000)
    (run : Delivers (once reduction.iallreduceCalls)
      (fun vm s label => CopiesWork (once reduction.iallreduceCalls) vm s label ∧ meets s label) origin failed s)
    (finished : s.Finished) (clean : s.Clean) : Allreduced reduction n origin.world.mem s.world.mem := by
  have arguments : AllreduceArguments reduction n inPlace := by
    refine allreducible.arguments fun scratch => ?_
    -- too many elements in place would have been refused
    by_contra long
    have inPlace := (allreducible.alike 0 (by omega)).mpr scratch
    exact run.not_refused ready (by omega) finished clean fun _ _ _ _ => allreduce_refused long inPlace
  have adds : reduction.Adds n origin.world.mem := Reduction.adds_of_combines allreducible.combines n _
  have sound : (allreducePlan reduction inPlace n (t % umpiOutstandingCollectiveOperations) origin.world.mem).Sound
      copyingVm reduction.iallreduceCalls n (t % umpiOutstandingCollectiveOperations) :=
    iallreducePlan_sound copyingVm_copies arguments adds several
  have follows : ∀ s, Reaches copyingVm (once reduction.iallreduceCalls) origin s →
      (allreducePlan reduction inPlace n (t % umpiOutstandingCollectiveOperations) origin.world.mem).Followed n t
        origin s := fun s reached => allreduce_followed ready several limit sound reached
  have followed := sound.followed_of_success ready (Schedule.suits_chain inPlace several) (by omega) follows
    (fun s reached => ignoresSafely_of_checked ((follows s reached).checked allreducePlan_checked)) run finished clean
  exact allreduced_of_followed arguments adds several followed finished.complete

/-- Every result of a scan or an exscan is looked at. -/
theorem ladderPlan_checked {rungs : Rungs} {turn : Nat} {loop : List Nat → List Errand} {mem : Memory}
    (loops : ∀ ranks : List Nat, (∀ rank ∈ ranks, rank < n) →
      ∀ errand ∈ loop ranks, reduction.IsErrand rungs turn n errand) (past : List Nat) :
    ∀ errand ∈ (ladderPlan reduction rungs n turn loop mem).errands past, ∀ made,
      (errand.action made).Checked := by
  intro errand member made
  have bounded : ∀ rank ∈ List.range n, rank < n := fun _ => List.mem_range.mp
  cases Reduction.isErrand_of_mem_climb loops bounded errand member with
  | retire => trivial
  | fetch => trivial
  | deliver => trivial
  | combine => trivial

/-- A scan or an exscan that has succeeded everywhere has gone as planned. -/
theorem ladder_followed_of_success {rungs : Rungs} {loop : List Nat → List Errand} {calls : Nat → Call}
    (sound : (ladderPlan reduction rungs n (t % umpiOutstandingCollectiveOperations) loop
      origin.world.mem).Sound copyingVm calls n (t % umpiOutstandingCollectiveOperations))
    (loops : ∀ ranks : List Nat, (∀ rank ∈ ranks, rank < n) →
      ∀ errand ∈ loop ranks, reduction.IsErrand rungs (t % umpiOutstandingCollectiveOperations) n errand)
    (ready : origin.Ready n t) (limit : n ≤ 10000)
    (run : Delivers (once calls) (fun vm s label => CopiesWork (once calls) vm s label ∧ meets s label) origin
      failed s)
    (finished : s.Finished) (clean : s.Clean) :
    (ladderPlan reduction rungs n (t % umpiOutstandingCollectiveOperations) loop origin.world.mem).Followed n t
      origin s := by
  have follows : ∀ s, Reaches copyingVm (once calls) origin s →
      (ladderPlan reduction rungs n (t % umpiOutstandingCollectiveOperations) loop origin.world.mem).Followed n t
        origin s := fun s reached => ladder_followed sound ready limit reached
  exact sound.followed_of_success ready (Schedule.suits_ladder n) (by omega) follows
    (fun s reached => ignoresSafely_of_checked ((follows s reached).checked (ladderPlan_checked loops))) run
    finished clean

/-- A scan that has succeeded everywhere. -/
theorem scan_of_success (valid : reduction.Valid n) (receives : ∀ rank < n, reduction.Receives rank)
    (ready : origin.Ready n t) (populated : 1 ≤ n) (limit : n ≤ 10000)
    (run : Delivers (once reduction.scanCalls)
      (fun vm s label => CopiesWork (once reduction.scanCalls) vm s label ∧ meets s label) origin failed s)
    (finished : s.Finished) (clean : s.Clean) :
    ∀ rank < n, ∀ i < reduction.count, reduction.value s.world.mem (reduction.target rank) i =
      foldUpTo reduction.op.func (reduction.input origin.world.mem i) rank := by
  have short : reduction.Short := by
    by_contra long
    exact run.not_refused ready populated finished clean fun _ _ _ _ => scan_refused long
  have sound := scanPlan_sound copyingVm_copies valid short receives (t % umpiOutstandingCollectiveOperations)
    origin.world.mem
  exact scan_folds valid short receives populated (ladder_followed_of_success sound
    (fun _ => Reduction.isErrand_of_mem_scan) ready limit run finished clean) finished.complete

/-- An exscan that has succeeded everywhere, if what is added up for rank 0 is its input. -/
theorem exscan_of_success (valid : reduction.Valid n)
    (receives : ∀ rank < n, rank ≠ 0 → reduction.Receives rank) (ready : origin.Ready n t) (populated : 1 ≤ n)
    (limit : n ≤ 10000)
    (shows : reduction.send 0 ≠ .inPlace ∨ ∀ i < reduction.count,
      reduction.value origin.world.mem (Pointer.loc 0 .inPlace) i = reduction.input origin.world.mem i 0)
    (run : Delivers (once reduction.exscanCalls)
      (fun vm s label => CopiesWork (once reduction.exscanCalls) vm s label ∧ meets s label) origin failed s)
    (finished : s.Finished) (clean : s.Clean) :
    ∀ rank < n, 0 < rank → ∀ i < reduction.count, reduction.value s.world.mem (reduction.target rank) i =
      foldUpTo reduction.op.func (reduction.input origin.world.mem i) (rank - 1) := by
  have short : reduction.Short := by
    by_contra long
    exact run.not_refused ready populated finished clean fun _ _ _ _ => exscan_refused long
  have sound := exscanPlan_sound copyingVm_copies valid short receives (t % umpiOutstandingCollectiveOperations)
    origin.world.mem
  have folds := exscan_folds valid short receives populated (ladder_followed_of_success sound
    (fun _ => Reduction.isErrand_of_mem_exscan) ready limit run finished clean) finished.complete
  intro rank inRange later i below
  rw [folds rank inRange later i below]
  exact exscan_folds_inputs shows below (rank - 1)

end Unrooted

/-! ### All collectives -/

/-- A nonblocking collective with the arguments of all ranks. -/
inductive Collective where
  | bcast (buffers : Nat → Buffer) (root : Nat)
  | gather (send recv : Nat → Buffer) (root : Nat)
  | gatherv (send : Nat → Buffer) (recv : Nat → BlockVector) (root : Nat)
  | scatter (send recv : Nat → Buffer) (root : Nat)
  | allgather (send recv : Nat → Buffer) (sendtype : Nat → MpiDatatype)
  | allreduce (reduction : Reduction) (inPlace : Bool)
  | scan (reduction : Reduction)
  | exscan (reduction : Reduction)

namespace Collective

/-- The call of a rank. -/
def calls : Collective → Nat → Call
  | bcast buffers root => bcastCalls buffers root
  | gather send recv root => gatherCalls send recv root
  | gatherv send recv root => gathervCalls send recv root
  | scatter send recv root => scatterCalls send recv root
  | allgather send recv sendtype => allgatherCalls send recv sendtype
  | allreduce reduction _ => reduction.iallreduceCalls
  | scan reduction => reduction.scanCalls
  | exscan reduction => reduction.exscanCalls

/-- Arguments of the ranks that belong together. They may still be refused. -/
def Valid (n : Nat) : Collective → Prop
  | bcast buffers root => BcastArguments buffers n root
  | gather send recv root => GatherArguments send recv n root
  | gatherv send recv root => GathervArguments send recv n root
  | scatter send recv root => ScatterArguments send recv n root
  | allgather send recv sendtype => AllgatherArguments send recv sendtype n
  | allreduce reduction inPlace => reduction.Allreducible n inPlace
  | scan reduction => reduction.Valid n ∧ ∀ rank < n, reduction.Receives rank
  | exscan reduction => reduction.Valid n ∧ ∀ rank < n, rank ≠ 0 → reduction.Receives rank

/-- The root of a gather comes in time for its own blocks, unless these are empty. -/
def InTime : Collective → Sys → Label → Prop
  | gather _ recv root, s, label => (recv root).count = 0 ∨ RootInTime recv root s label
  | _, _, _ => True

/-- What an exscan adds up for rank 0 is its input. -/
def Shows (mem : Memory) : Collective → Prop
  | exscan reduction => reduction.send 0 ≠ .inPlace ∨ ∀ i < reduction.count,
      reduction.value mem (Pointer.loc 0 .inPlace) i = reduction.input mem i 0
  | _ => True

/-- What the collective is for: `mem'` has the results for the inputs in `mem`. -/
def Delivered (n : Nat) (mem mem' : Memory) : Collective → Prop
  | bcast buffers root =>
      ∀ rank < n, Holds mem' ((buffers rank).view rank) (readAll mem ((buffers root).view root))
  | gather send recv root =>
      ∀ rank < n, Holds mem' (gatherBlock recv root rank) (readAll mem (gatherSource send recv root rank))
  | gatherv send recv root =>
      ∀ rank < n, Holds mem' ((recv root).block root rank) (readAll mem (gathervSource send recv root rank))
  | scatter send recv root =>
      ∀ rank < n, Holds mem' (scatterTarget send recv root rank) (readAll mem (scatterBlock send root rank))
  | allgather send recv _ =>
      ∀ rank < n, ∀ other < n,
        readAll mem' (gatherBlock recv rank other) = readAll mem (allgatherSource send recv other)
  | allreduce reduction _ => Allreduced reduction n mem mem'
  | scan reduction =>
      ∀ rank < n, ∀ i < reduction.count, reduction.value mem' (reduction.target rank) i =
        foldUpTo reduction.op.func (reduction.input mem i) rank
  | exscan reduction =>
      ∀ rank < n, 0 < rank → ∀ i < reduction.count, reduction.value mem' (reduction.target rank) i =
        foldUpTo reduction.op.func (reduction.input mem i) (rank - 1)

/-- No system call of an `umpi_copy` fails in the step, and the root of a gather is in time. -/
def Undisturbed (collective : Collective) (vm : ProcessVm) (s : Sys) (label : Label) : Prop :=
  CopiesWork (once collective.calls) vm s label ∧ collective.InTime s label

end Collective

/-- In every run of a collective in which any system call may fail but those of `umpi_copy`: when every rank has
    called and waited and been told of success each time, the results are where they belong. -/
theorem success_moves_data (collective : Collective) {n t : Nat} {origin s : Sys} {failed : Nat → Prop}
    (valid : collective.Valid n) (ready : origin.Ready n t) (several : 2 ≤ n) (limit : n ≤ 10000)
    (shows : collective.Shows origin.world.mem)
    (run : Delivers (once collective.calls) collective.Undisturbed origin failed s) (finished : s.Finished)
    (clean : s.Clean) : collective.Delivered n origin.world.mem s.world.mem := by
  cases collective with
  | bcast buffers root => exact bcast_of_success valid ready several limit run finished clean
  | gather send recv root => exact gather_of_success valid ready several limit run finished clean
  | gatherv send recv root => exact gatherv_of_success valid ready several limit run finished clean
  | scatter send recv root => exact scatter_of_success valid ready several limit run finished clean
  | allgather send recv sendtype => exact allgather_of_success valid ready several limit run finished clean
  | allreduce reduction inPlace => exact allreduce_of_success valid ready several limit run finished clean
  | scan reduction => exact scan_of_success valid.1 valid.2 ready (by omega) limit run finished clean
  | exscan reduction =>
      exact exscan_of_success valid.1 valid.2 ready (by omega) limit shows run finished clean

/-- The condition on a step of a program in which every rank makes one call. -/
theorem copiesWork_once {calls : Nat → Call} {vm : ProcessVm} {s : Sys} {label : Label}
    (works : ∀ rank, label = .call rank → ∀ copy ∈ (calls rank).copies s.world rank, copy.Works vm) :
    CopiesWork (once calls) vm s label := by
  intro rank call called listed copy member
  obtain rfl : calls rank = call := by
    unfold once at listed
    split at listed
    · exact Option.some.inj listed
    · cases listed
  exact works rank called copy member

/-- Two characters of every rank. There is a gap between those of rank 0. -/
def spacedToSend (rank : Nat) : Buffer :=
  if rank = 0 then { buf := .addr 20, count := 1, datatype := spacedChars }
  else { buf := .addr 20, count := 2, datatype := Datatype.mpiChar }

/-- Every byte is its address. -/
def addresses (location : Loc) : UInt8 := UInt8.ofNat location.addr.toNat

/-- Rank 0 gathers two characters of each rank. -/
def spacedGather : Collective := .gather spacedToSend pairToReceive 0

theorem spacedGather_valid : spacedGather.Valid 2 where
  rootValid := by decide
  sendValid := by
    intro rank _
    unfold spacedToSend
    split
    · exact ⟨(by decide : 1 < 2 ^ 31), (by decide : 1 * spacedChars.len < 2 ^ 63), fun null => by cases null⟩
    · exact ⟨(by decide : 2 < 2 ^ 31), (by decide : 2 * Datatype.mpiChar.len < 2 ^ 63), fun null => by cases null⟩
  recvGiven := fun null => by cases null
  elements := by decide
  bytes := (by decide : 2 * 2 * Datatype.mpiChar.len < 2 ^ 63)
  agree := by decide
  apart := by
    intro _ location sent received
    have here : location ∈ [(⟨.heap 0, 20⟩ : Loc), ⟨.heap 0, 22⟩] := sent
    have there : location ∈ [(⟨.heap 0, 0⟩ : Loc), ⟨.heap 0, 1⟩, ⟨.heap 0, 2⟩, ⟨.heap 0, 3⟩] := received
    revert there
    rcases List.mem_cons.mp here with rfl | here
    · decide
    · rw [List.mem_singleton.mp here]
      decide

/-- The root comes first, and no other step than its call has an `umpi_copy`. -/
theorem spacedGather_undisturbed {vm : ProcessVm} {s : Sys} {label : Label}
    (works : label = .call 0 → vm = copyingVm ∧ ∀ rank, (s.ranks rank).pos = 0) :
    spacedGather.Undisturbed vm s label := by
  refine ⟨copiesWork_once fun rank called copy member => ?_, Or.inr fun called => Or.inr fun rank _ => ?_⟩
  · by_cases isRoot : rank = 0
    · subst isRoot
      obtain ⟨rfl, _⟩ := works called
      exact fun _ _ => rfl
    · simp [spacedGather, Collective.calls, gatherCalls, Call.copies, isRoot] at member
  · exact (works called).2 rank

/-- The system calls of the steps that need none fail, and both blocks are gathered. -/
theorem success_moves_data_spacedGather :
    ∃ failed s, Delivers (once spacedGather.calls) spacedGather.Undisturbed (Sys.init 2 addresses) failed s ∧
      s.Finished ∧ s.Clean ∧ spacedGather.Delivered 2 addresses s.world.mem := by
  have run : ∃ failed s, Delivers (once spacedGather.calls) spacedGather.Undisturbed (Sys.init 2 addresses) failed s ∧
      s.Finished ∧ s.Clean := by
    refine ⟨_, _,
      .tail failingVm (.wait 0 0)
        (.tail failingVm (.wait 1 0)
          (.tail copyingVm (.act 1)
            (.tail failingVm (.call 1)
              (.tail copyingVm (.call 0) .refl ?root (by rfl))
              ?member (by rfl))
            ?write (by rfl))
          ?first (by rfl))
        ?second (by rfl), ?finished, ?clean⟩
    case root => exact spacedGather_undisturbed fun _ => ⟨rfl, fun _ => rfl⟩
    case member => exact spacedGather_undisturbed fun called => by cases called
    case write => exact spacedGather_undisturbed fun called => by cases called
    case first => exact spacedGather_undisturbed fun called => by cases called
    case second => exact spacedGather_undisturbed fun called => by cases called
    case finished => exact .of_checks rfl (by decide) (by decide) (by decide)
    case clean =>
      rintro (_ | _ | rank)
      · decide
      · decide
      · rintro ret ⟨⟩
  obtain ⟨failed, s, delivers, finished, clean⟩ := run
  exact ⟨failed, s, delivers, finished, clean, success_moves_data spacedGather spacedGather_valid (ready_init 2 _)
    le_rfl (by decide) trivial delivers finished clean⟩

/-- The `process_vm_writev` of the root's `umpi_copy` fails. Both calls and both waits return `MPI_SUCCESS`, but the
    root's own block, which should be 20 and 22, is what was in the receive buffer before. -/
theorem success_without_data :
    spacedGather.Valid 2 ∧ ∃ failed s,
      Delivers (once spacedGather.calls) (fun _ => spacedGather.InTime) (Sys.init 2 addresses) failed s ∧
      s.Finished ∧ s.Clean ∧ readAll s.world.mem (gatherBlock pairToReceive 0 0) = [0, 1] ∧
      ¬ spacedGather.Delivered 2 addresses s.world.mem := by
  refine ⟨spacedGather_valid, _, _,
    .tail copyingVm (.wait 0 0)
      (.tail copyingVm (.wait 1 0)
        (.tail copyingVm (.act 1)
          (.tail copyingVm (.call 1)
            (.tail failingVm (.call 0) .refl ?root (by rfl))
            ?member (by rfl))
          ?write (by rfl))
        ?first (by rfl))
      ?second (by rfl), ?finished, ?clean, ?kept, ?missing⟩
  case root => exact Or.inr fun _ => Or.inr fun _ _ => rfl
  case member => exact Or.inr fun called => by cases called
  case write => exact Or.inr fun called => by cases called
  case first => exact Or.inr fun called => by cases called
  case second => exact Or.inr fun called => by cases called
  case finished => exact .of_checks rfl (by decide) (by decide) (by decide)
  case clean =>
    rintro (_ | _ | rank)
    · decide
    · decide
    · rintro ret ⟨⟩
  case kept => decide +kernel
  case missing =>
    intro delivered
    have first := congrFun (delivered 0 (by decide)) ⟨.heap 0, 0⟩
    exact absurd first (by decide +kernel)

end Umpi
