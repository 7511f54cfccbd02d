/-
Module: Umpi.Proofs.Rooted
Layer: Proofs
Purpose: The data of an operation with a root. Every rank but the root has one transfer to make with it: it
  pulls if it comes after the root, and the root pushes if it comes before. A `RootedPlan` gives these
  transfers and the copy each is to perform. `Transferring` is the invariant: memory is what the copies
  made so far leave, and every rank's remaining actions are exactly the transfers it still has to make.
Imports: Umpi.Proofs.Buffers, Umpi.Proofs.Ledger
Trusted boundary: none
Main exports: RootedPlan, RootedPlan.Sound, Transferring, RootedPlan.Sound.exchanged,
  RootedPlan.Exchanged.delivered, RootedPlan.Exchanged.delivered_of_root
Open obligations: none
-/
import Umpi.Proofs.Buffers
import Umpi.Proofs.Ledger

namespace Umpi

open Foundation Sys

/-- What the ranks of an operation with a root offer and copy: `pull rank id` is what `rank` does through
    the root's cookie, and `push rank id` what the root does through the cookie of `rank`. The copy of the
    root is that of its own block. `agreed` is what the transfers need to know of the slot's `displs_`. -/
structure RootedPlan where
  offer : Nat → Offer
  copy : Nat → Copy Loc
  pull : Nat → Nat → Action
  push : Nat → Nat → Action
  agreed : (Nat → Int) → Prop

/-- What the root does with the cookies of the given ranks. -/
def serveRanks (push : Nat → Nat → Action) (made : Nat → Nat) (ranks : List Nat) : List Action :=
  ranks.flatMap fun rank => [.moveToPending (made rank), push rank (made rank)]

/-- The names of the cookies may be looked up first. -/
theorem serve_map (transfer : Nat → Action) (made : Nat → Nat) (ranks : List Nat) :
    serve transfer (ranks.map made) = serveRanks (fun _ => transfer) made ranks :=
  List.flatMap_map ..

theorem serveRanks_congr {push : Nat → Nat → Action} {made made' : Nat → Nat} {ranks : List Nat}
    (same : ∀ rank ∈ ranks, made' rank = made rank) :
    serveRanks push made' ranks = serveRanks push made ranks := by
  unfold serveRanks
  rw [List.flatMap_congr fun rank member => by rw [same rank member]]

/-- The calls and transfers do what the plan says. The root's transfers need to work only for the ranks
    that `early` allows to join before it. -/
structure RootedPlan.Sound (plan : RootedPlan) (vm : ProcessVm) (calls : Nat → Call) (n root turn : Nat)
    (early : Nat → Prop) : Prop where
  pulled : ∀ rank id, (plan.pull rank id).transfer = some id
  pushed : ∀ rank id, (plan.push rank id).transfer = some id
  pull : ∀ rank < n, rank ≠ root → ∀ (w : World) (id : Nat), (w.cookies id).Offers (plan.offer root) →
    plan.agreed (w.slots turn).displs →
    ∃ done, Performs vm (plan.pull rank id) rank (plan.copy rank) w done ∧
      (done.world.cookies id).count = (plan.offer root).count
  push : ∀ rank < n, rank ≠ root → early rank → ∀ (w : World) (id : Nat),
    (w.cookies id).Offers (plan.offer rank) →
    ∃ done, Performs vm (plan.push rank id) root (plan.copy rank) w done
  member : ∀ (past : List Nat) (w : World) (self : Nat) (made : Nat → Nat), self ≠ root →
    Arriving (.rooted root) n past w self made → w.turnOf self = turn →
    ((calls self).enter vm w self).Yields fun result => ∃ made',
      Entered (.rooted root) n past w self (w.claimed self) (plan.offer self)
        (if root ∈ past then [plan.pull self (made root)] else []) result made made'
  root : ∀ (past : List Nat) (w : World) (made : Nat → Nat),
    Arriving (.rooted root) n past w root made → w.turnOf root = turn →
    ((calls root).enter vm w root).Yields fun result => ∃ mid made',
      mid.mem = copyAll w.mem (plan.copy root).source (plan.copy root).target ∧
      plan.agreed (mid.slots turn).displs ∧
      Entered (.rooted root) n past w root mid (plan.offer root)
        (serveRanks plan.push made past.reverse) result made made'

/-- The root still has to serve the ranks of `rest`; it may have taken the first of them out of its list
    already. -/
def RootedPlan.Serving (plan : RootedPlan) (made : Nat → Nat) (rest : List Nat) (cont : List Action) :
    Prop :=
  cont = serveRanks plan.push made rest ∨
    ∃ rank others, rest = rank :: others ∧
      cont = plan.push rank (made rank) :: serveRanks plan.push made others

theorem RootedPlan.Serving.eq_nil {plan : RootedPlan} {made : Nat → Nat} {rest : List Nat}
    (serving : plan.Serving made rest []) : rest = [] := by
  rcases serving with all | ⟨rank, others, _, impossible⟩
  · cases rest with
    | nil => rfl
    | cons rank others => simp [serveRanks] at all
  · cases impossible

/-- How far the transfers have come, when the ranks of `past` have joined, those of `before` before the
    root, and the copies of `done` have been made. -/
structure Transferring (plan : RootedPlan) (n root turn : Nat) (early : Nat → Prop) (mem : Memory)
    (past before done : List Nat) (made : Nat → Nat) (s : Sys) : Prop where
  memory : s.world.mem = copyEach mem plan.copy done
  once : done.Nodup
  joined : ∀ rank ∈ done, rank ∈ past ∧ root ∈ past
  own : root ∈ past → root ∈ done
  agreed : root ∈ past → plan.agreed (s.world.slots turn).displs
  sooner : ∀ rank ∈ before, rank ∈ past ∧ rank ≠ root ∧ early rank ∧
    ((Schedule.rooted root).numOf n rank past).isSome
  /-- A rank that came before the root has nothing to do. -/
  waiting : ∀ rank ∈ past, rank ≠ root → (root ∈ past → rank ∈ before) → (s.ranks rank).cont = []
  /-- A rank that came after the root has its own transfer to do. -/
  pulling : ∀ rank ∈ past, rank ≠ root → root ∈ past → rank ∉ before →
    (s.ranks rank).cont = if rank ∈ done then [] else [plan.pull rank (made root)]
  /-- The cookie it goes through exists. -/
  rootMade : ∀ rank ∈ past, rank ≠ root → root ∈ past → rank ∉ before →
    ((Schedule.rooted root).numOf n root past).isSome
  /-- The root has the transfers of the ranks that came before it to do. -/
  serving : root ∈ past → ∃ rest, plan.Serving made rest (s.ranks root).cont ∧ rest.Nodup ∧
    ∀ rank, rank ∈ rest ↔ rank ∈ before ∧ rank ∉ done
  counts : ∀ rank k, (Schedule.rooted root).numOf n rank past = some k → rank = root ∨ rank ∉ done →
    (s.world.cookies (made rank)).count = (plan.offer rank).count
  /-- The root waits for its own cookie, or everybody came before it. -/
  handle : root ∈ past → ∀ id ∈ (s.ranks root).requests,
    (id = made root ∧ ((Schedule.rooted root).numOf n root past).isSome) ∨
      ∀ rank < n, rank ≠ root → rank ∈ before
  /-- The root has waited for everybody. -/
  waited : root ∈ past → (s.ranks root).requests = [] → ∀ rank < n, rank ∈ done

section Rooted

variable {plan : RootedPlan} {vm : ProcessVm} {calls : Nat → Call} {n root t : Nat} {early : Nat → Prop}
  {origin s : Sys} {past before done : List Nat} {made made' : Nat → Nat} {mem : Memory}

namespace Transferring

theorem start (plan : RootedPlan) (early : Nat → Prop) (idle : ∀ rank, s.ranks rank = RankState.new)
    (turn : Nat) (made : Nat → Nat) :
    Transferring plan n root turn early s.world.mem [] [] [] made s where
  memory := rfl
  once := List.nodup_nil
  joined := fun _ member => nomatch member
  own := fun member => nomatch member
  agreed := fun member => nomatch member
  sooner := fun _ member => nomatch member
  waiting := fun rank _ _ _ => by rw [idle]; rfl
  pulling := fun _ member => nomatch member
  rootMade := fun _ member => nomatch member
  serving := fun member => nomatch member
  counts := fun _ _ impossible => nomatch impossible
  handle := fun member => nomatch member
  waited := fun member => nomatch member

section Joining

variable {self : Nat} {mid w' : World} {frame : Frame} {cont : List Action}

/-- An older cookie keeps its `count_` when a rank joins. -/
theorem enter_count (ledger : Ledger (.rooted root) n t origin plan.offer past made s)
    (ready : origin.Ready n t) (absent : self ∉ past)
    (entered : Entered (.rooted root) n past s.world self mid (plan.offer self) cont (w', frame) made made')
    {rank : Nat} {k : Int} (makes : (Schedule.rooted root).numOf n rank past = some k) :
    (w'.cookies (made' rank)).count = (s.world.cookies (made rank)).count := by
  have other : rank ≠ self := fun same => absent (same ▸ Schedule.mem_of_numOf makes)
  have apart := ledger.enter_apart ready absent entered makes
  have silent : ((Schedule.rooted root).now past).map made ≠ some (made rank) := by simp [Schedule.now]
  rw [entered.settles.madeOthers rank other]
  exact (congrArg Cookie.count (entered.untouched apart silent) :)

/-- The new cookie has the `count_` its rank offers. -/
theorem enter_count_new
    (entered : Entered (.rooted root) n past s.world self mid (plan.offer self) cont (w', frame) made made')
    {k : Int} (makes : (Schedule.rooted root).numOf n self (self :: past) = some k) :
    (w'.cookies (made' self)).count = (plan.offer self).count := by
  rw [Ledger.numOf_self] at makes
  rw [(entered.newCookie makes).2]
  rfl

/-- A rank other than the root joins. -/
theorem memberJoins (transferring : Transferring plan n root (s.world.turnOf self) early mem past before done
      made s)
    (ledger : Ledger (.rooted root) n t origin plan.offer past made s) (ready : origin.Ready n t)
    (joining : Schedule.Joining n (self :: past)) (suits : (Schedule.rooted root).Suits n)
    (notRoot : self ≠ root)
    (entered : Entered (.rooted root) n past s.world self (s.world.claimed self) (plan.offer self)
      (if root ∈ past then [plan.pull self (made root)] else []) (w', frame) made made')
    (joins : Nat → List Join) :
    Transferring plan n root (s.world.turnOf self) early mem (self :: past) before done made'
      { world := w'
        ranks := Function.update s.ranks self ((s.ranks self).enter frame)
        joins := joins } := by
  have absent := joining.fresh
  have short : past.length < n := joining.length_le
  have others := entered.settles.madeOthers
  have rootName : made' root = made root := others root (Ne.symm notRoot)
  have rootJoined : root ∈ self :: past ↔ root ∈ past := by simp [Ne.symm notRoot]
  have beforeOther : ∀ rank ∈ before, rank ≠ self := fun rank member same =>
    absent (same ▸ (transferring.sooner rank member).1)
  have unserved : self ∉ before := fun member => beforeOther self member rfl
  have notDone : self ∉ done := fun member => absent (transferring.joined self member).1
  have contSelf : ((s.ranks self).enter frame).cont =
      if root ∈ past then [plan.pull self (made root)] else [] := entered.settles.cont
  exact
    { memory := entered.settles.mem.trans transferring.memory
      once := transferring.once
      joined := fun rank member =>
        ⟨List.mem_cons_of_mem self (transferring.joined rank member).1,
          rootJoined.mpr (transferring.joined rank member).2⟩
      own := fun joined => transferring.own (rootJoined.mp joined)
      agreed := by
        intro joined
        have same : (w'.slots (s.world.turnOf self)).displs =
            (s.world.slots (s.world.turnOf self)).displs := by
          rw [entered.settles.slot]
          simp [World.claimed, World.turnOf]
        exact same.symm ▸ transferring.agreed (rootJoined.mp joined)
      sooner := by
        intro rank member
        obtain ⟨inPast, other, isEarly, makes⟩ := transferring.sooner rank member
        refine ⟨List.mem_cons_of_mem self inPast, other, isEarly, ?_⟩
        rwa [Ledger.numOf_other (beforeOther rank member)]
      waiting := by
        intro rank member other early
        by_cases own : rank = self
        · subst own
          have noRoot : root ∉ past := fun joined => unserved (early (rootJoined.mpr joined))
          simp only [Function.update_self]
          rw [contSelf, if_neg noRoot]
        · simp only [Function.update_of_ne own]
          exact transferring.waiting rank ((List.mem_cons.mp member).resolve_left own) other fun joined =>
            early (rootJoined.mpr joined)
      pulling := by
        intro rank member other joined late
        have rootIn := rootJoined.mp joined
        by_cases own : rank = self
        · subst own
          simp only [Function.update_self]
          rw [contSelf, if_pos rootIn, if_neg notDone, rootName]
        · simp only [Function.update_of_ne own]
          rw [rootName]
          exact transferring.pulling rank ((List.mem_cons.mp member).resolve_left own) other rootIn late
      rootMade := by
        intro rank _ _ joined _
        rw [Ledger.numOf_other (Ne.symm notRoot)]
        refine Schedule.numOf_of_mem_box joining.tail suits ?_
        rw [Schedule.box, if_neg short.ne, if_pos (rootJoined.mp joined)]
        exact List.mem_singleton_self root
      serving := by
        intro joined
        obtain ⟨rest, serving, nodup, members⟩ := transferring.serving (rootJoined.mp joined)
        refine ⟨rest, ?_, nodup, members⟩
        have names : ∀ rank ∈ rest, made' rank = made rank := fun rank member =>
          others rank (beforeOther rank ((members rank).mp member).1)
        simp only [Function.update_of_ne (Ne.symm notRoot)]
        rcases serving with all | ⟨rank, later, rfl, first⟩
        · exact Or.inl (all.trans (serveRanks_congr names).symm)
        · refine Or.inr ⟨rank, later, rfl, first.trans ?_⟩
          rw [names rank List.mem_cons_self,
            serveRanks_congr fun rank member => names rank (List.mem_cons_of_mem _ member)]
      counts := by
        intro rank k makes counted
        by_cases own : rank = self
        · subst own
          exact enter_count_new entered makes
        · rw [Ledger.numOf_other own] at makes
          exact (enter_count ledger ready absent entered makes).trans
            (transferring.counts rank k makes counted)
      handle := by
        intro joined id listed
        simp only [Function.update_of_ne (Ne.symm notRoot)] at listed
        refine (transferring.handle (rootJoined.mp joined) id listed).imp_left ?_
        rintro ⟨rfl, makes⟩
        exact ⟨rootName.symm, by rwa [Ledger.numOf_other (Ne.symm notRoot)]⟩
      waited := by
        intro joined none
        simp only [Function.update_of_ne (Ne.symm notRoot)] at none
        exact transferring.waited (rootJoined.mp joined) none }

/-- The root joins. -/
theorem rootJoins (transferring : Transferring plan n root (s.world.turnOf root) early mem past before done
      made s)
    (ledger : Ledger (.rooted root) n t origin plan.offer past made s) (ready : origin.Ready n t)
    (joining : Schedule.Joining n (root :: past)) (suits : (Schedule.rooted root).Suits n)
    (allowed : ∀ rank ∈ past, early rank)
    (moved : mid.mem = copyAll s.world.mem (plan.copy root).source (plan.copy root).target)
    (agreed : plan.agreed (mid.slots (s.world.turnOf root)).displs)
    (entered : Entered (.rooted root) n past s.world root mid (plan.offer root)
      (serveRanks plan.push made past.reverse) (w', frame) made made')
    (joins : Nat → List Join) :
    Transferring plan n root (s.world.turnOf root) early mem (root :: past) past [root] made'
      { world := w'
        ranks := Function.update s.ranks root ((s.ranks root).enter frame)
        joins := joins } := by
  have absent := joining.fresh
  have short : past.length < n := joining.length_le
  have others := entered.settles.madeOthers
  have pastOther : ∀ rank ∈ past, rank ≠ root := fun rank member same => absent (same ▸ member)
  have nothing : done = [] :=
    List.eq_nil_iff_forall_not_mem.mpr fun rank member => absent (transferring.joined rank member).2
  have makes : ∀ rank ∈ past, ((Schedule.rooted root).numOf n rank past).isSome := by
    intro rank member
    refine Schedule.numOf_of_mem_box joining.tail suits ?_
    rw [Schedule.box, if_neg short.ne, if_neg absent]
    exact List.mem_reverse.mpr member
  exact
    { memory := by
        have before := transferring.memory
        rw [nothing, copyEach_nil] at before
        exact entered.settles.mem.trans (moved.trans (by rw [before]; rfl))
      once := List.nodup_singleton root
      joined := fun rank member => by simp [List.mem_singleton.mp member]
      own := fun _ => List.mem_singleton_self root
      agreed := fun _ => by
        have same : (w'.slots (s.world.turnOf root)).displs = (mid.slots (s.world.turnOf root)).displs := by
          rw [entered.settles.slot]
        exact same.symm ▸ agreed
      sooner := by
        intro rank member
        refine ⟨List.mem_cons_of_mem root member, pastOther rank member, allowed rank member, ?_⟩
        rw [Ledger.numOf_other (pastOther rank member)]
        exact makes rank member
      waiting := by
        intro rank member other _
        simp only [Function.update_of_ne other]
        exact transferring.waiting rank ((List.mem_cons.mp member).resolve_left other) other fun joined =>
          absurd joined absent
      pulling := fun rank member other _ late =>
        absurd ((List.mem_cons.mp member).resolve_left other) late
      rootMade := fun rank member other _ late =>
        absurd ((List.mem_cons.mp member).resolve_left other) late
      serving := by
        refine fun _ => ⟨past.reverse, Or.inl ?_, List.nodup_reverse.mpr joining.tail.nodup, ?_⟩
        · simp only [Function.update_self]
          have contRoot : ((s.ranks root).enter frame).cont = serveRanks plan.push made past.reverse :=
            entered.settles.cont
          rw [contRoot, serveRanks_congr fun rank member => others rank
            (pastOther rank (List.mem_reverse.mp member))]
        · intro rank
          simp only [List.mem_reverse, List.mem_singleton]
          exact ⟨fun member => ⟨member, pastOther rank member⟩, fun both => both.1⟩
      counts := by
        intro rank k makes _
        by_cases own : rank = root
        · subst own
          exact enter_count_new entered makes
        · rw [Ledger.numOf_other own] at makes
          rw [enter_count ledger ready absent entered makes]
          exact transferring.counts rank k makes (Or.inr (by simp [nothing]))
      handle := by
        intro _ id listed
        have handle : frame.request = some (made' ((Schedule.rooted root).request n past root)) :=
          entered.settles.request
        simp only [Function.update_self, RankState.enter_requests, handle, Option.toList_some,
          ledger.unrequested root absent, List.append_nil, List.mem_singleton] at listed
        by_cases last : past.length + 1 = n
        · refine Or.inr fun rank inRange other => ?_
          exact (List.mem_cons.mp (joining.mem_of_full last inRange)).resolve_left other
        · refine Or.inl ⟨by simpa [Schedule.request, last] using listed, ?_⟩
          rw [Ledger.numOf_self]
          simp [Schedule.num, last]
      waited := by
        intro _ none
        have handle : frame.request = some (made' ((Schedule.rooted root).request n past root)) :=
          entered.settles.request
        simp [RankState.enter, handle] at none }

end Joining

/-- What a transfer finds in a cookie. -/
theorem offers (transferring : Transferring plan n root (t % umpiOutstandingCollectiveOperations) early mem
      past before done made s)
    (ledger : Ledger (.rooted root) n t origin plan.offer past made s) {rank : Nat}
    (makes : ((Schedule.rooted root).numOf n rank past).isSome) (counted : rank = root ∨ rank ∉ done) :
    (s.world.cookies (made rank)).Offers (plan.offer rank) := by
  obtain ⟨k, makes⟩ := Option.isSome_iff_exists.mp makes
  have stable := ledger.cookies rank k makes
  exact
    { buf := Cookie.buf_of_stable stable
      iovec := Cookie.iovec_of_stable stable
      size := Cookie.size_of_stable stable
      count := transferring.counts rank k makes counted }

section Acting

variable {turn self fulfilled : Nat} {action : Action} {rest : List Action} {moved : Transferred}

/-- A transfer through the cookie of `maker`, which is the root's or that of the rank it fulfils, leaves
    the other cookies as they are offered. -/
theorem counts_after (transferring : Transferring plan n root turn early mem past before done made s)
    (ledger : Ledger (.rooted root) n t origin plan.offer past made s)
    (performed : action.exec vm s.world self = .ok moved) {maker : Nat}
    (through : action.transfer = some (made maker))
    (makes : ((Schedule.rooted root).numOf n maker past).isSome)
    (kept : maker = root → (moved.world.cookies (made root)).count = (plan.offer root).count)
    (whose : maker ≠ root → maker = fulfilled) (rank : Nat) (k : Int)
    (makes' : (Schedule.rooted root).numOf n rank past = some k)
    (counted : rank = root ∨ rank ∉ done ++ [fulfilled]) :
    (moved.world.cookies (made rank)).count = (plan.offer rank).count := by
  obtain ⟨l, makes⟩ := Option.isSome_iff_exists.mp makes
  by_cases own : rank = maker
  · subst own
    by_cases isRoot : rank = root
    · subst isRoot
      exact kept rfl
    · have same := whose isRoot
      exact absurd (by simp [same]) (counted.resolve_left isRoot)
  · have apart : made rank ≠ made maker := fun same => own (ledger.distinct rank maker k l makes' makes same)
    rcases Action.exec_cases performed with ⟨id, rfl, _, _⟩ | ⟨_, midway⟩
    · cases through
    · rw [midway.others (made rank) (by rw [through]; simpa using Ne.symm apart)]
      refine transferring.counts rank k makes' (counted.imp_right fun absent => ?_)
      exact fun member => absent (List.mem_append_left _ member)

/-- One more copy has been made. -/
theorem fulfill {s' : Sys} (transferring : Transferring plan n root turn early mem past before done made s)
    (copied : s'.world.mem =
      copyAll s.world.mem (plan.copy fulfilled).source (plan.copy fulfilled).target)
    (slots : s'.world.slots = s.world.slots)
    (requests : ∀ rank, (s'.ranks rank).requests = (s.ranks rank).requests)
    (fresh : fulfilled ∉ done) (inPast : fulfilled ∈ past) (rootIn : root ∈ past)
    (waiting : ∀ rank ∈ past, rank ≠ root → (root ∈ past → rank ∈ before) → (s'.ranks rank).cont = [])
    (pulling : ∀ rank ∈ past, rank ≠ root → root ∈ past → rank ∉ before →
      (s'.ranks rank).cont = if rank ∈ done ++ [fulfilled] then [] else [plan.pull rank (made root)])
    (serving : ∃ rest, plan.Serving made rest (s'.ranks root).cont ∧ rest.Nodup ∧
      ∀ rank, rank ∈ rest ↔ rank ∈ before ∧ rank ∉ done ++ [fulfilled])
    (counts : ∀ rank k, (Schedule.rooted root).numOf n rank past = some k →
      rank = root ∨ rank ∉ done ++ [fulfilled] →
      (s'.world.cookies (made rank)).count = (plan.offer rank).count) :
    Transferring plan n root turn early mem past before (done ++ [fulfilled]) made s' where
  memory := by rw [copied, transferring.memory, copyEach_append_singleton]
  once := by
    rw [List.nodup_append']
    exact ⟨transferring.once, List.nodup_singleton _, by simpa using fresh⟩
  joined := by
    intro rank member
    rcases List.mem_append.mp member with old | new
    · exact transferring.joined rank old
    · rw [List.mem_singleton.mp new]
      exact ⟨inPast, rootIn⟩
  own := fun joined => List.mem_append_left _ (transferring.own joined)
  agreed := fun joined => by
    rw [slots]
    exact transferring.agreed joined
  sooner := transferring.sooner
  waiting := waiting
  pulling := pulling
  rootMade := transferring.rootMade
  serving := fun _ => serving
  counts := counts
  handle := fun joined id listed => transferring.handle joined id (requests root ▸ listed)
  waited := fun joined none rank inRange =>
    List.mem_append_left _ (transferring.waited joined (requests root ▸ none) rank inRange)

/-- A rank that comes after the root does its transfer. -/
theorem memberActs (transferring : Transferring plan n root (t % umpiOutstandingCollectiveOperations) early
      mem past before done made s)
    (ledger : Ledger (.rooted root) n t origin plan.offer past made s)
    (sound : plan.Sound vm calls n root (t % umpiOutstandingCollectiveOperations) early)
    (notRoot : self ≠ root) (todo : (s.ranks self).cont = action :: rest) :
    ∃ moved, action.exec vm s.world self = .ok moved ∧ moved.ret = mpiSuccess ∧
      Transferring plan n root (t % umpiOutstandingCollectiveOperations) early mem past before
        (done ++ [self]) made
        { s with
          world := moved.world
          ranks := Function.update s.ranks self
            ((s.ranks self).advance action.moved rest moved.ret) } := by
  have inPast := ledger.mem_of_cont todo
  have valid := ledger.joining.bound self inPast
  obtain ⟨rootIn, late⟩ : root ∈ past ∧ self ∉ before := by
    by_contra early
    have idle := transferring.waiting self inPast notRoot fun joined =>
      not_not.mp fun late => early ⟨joined, late⟩
    rw [idle] at todo
    cases todo
  have pulls := transferring.pulling self inPast notRoot rootIn late
  rw [todo] at pulls
  have fresh : self ∉ done := by
    intro finished
    rw [if_pos finished] at pulls
    cases pulls
  rw [if_neg fresh] at pulls
  obtain ⟨rfl, rfl⟩ := List.cons.inj pulls
  have makes := transferring.rootMade self inPast notRoot rootIn late
  obtain ⟨moved, performs, kept⟩ := sound.pull self valid notRoot s.world (made root)
    (transferring.offers ledger makes (Or.inl rfl)) (transferring.agreed rootIn)
  refine ⟨moved, performs.exec, performs.ret, ?_⟩
  have advanced : ((s.ranks self).advance (plan.pull self (made root)).moved [] moved.ret).cont = [] := by
    rw [performs.ret]
    exact RankState.advance_cont_of_success _ _ _
  have others : ∀ rank ≠ self, (rank ∈ done ++ [self] ↔ rank ∈ done) := by
    intro rank other
    simp [other]
  refine transferring.fulfill performs.mem performs.slots ?_ fresh inPast rootIn ?_ ?_ ?_ ?_
  · intro rank
    by_cases own : rank = self <;> simp [own]
  · intro rank member other sooner
    by_cases own : rank = self
    · exact absurd (own ▸ sooner rootIn) late
    · simpa [own] using transferring.waiting rank member other sooner
  · intro rank member other joined later
    by_cases own : rank = self
    · subst own
      simpa using advanced
    · simpa [own] using transferring.pulling rank member other joined later
  · obtain ⟨remaining, serving, nodup, members⟩ := transferring.serving rootIn
    refine ⟨remaining, by simpa [Ne.symm notRoot] using serving, nodup, fun rank => ?_⟩
    rw [members]
    by_cases own : rank = self
    · simp [own, late]
    · rw [others rank own]
  · exact transferring.counts_after ledger performs.exec (sound.pulled _ _) makes (fun _ => kept)
      fun impossible => absurd rfl impossible

/-- The root goes on to serve the ranks that came before it. -/
theorem rootActs (transferring : Transferring plan n root (t % umpiOutstandingCollectiveOperations) early
      mem past before done made s)
    (ledger : Ledger (.rooted root) n t origin plan.offer past made s)
    (sound : plan.Sound vm calls n root (t % umpiOutstandingCollectiveOperations) early)
    (todo : (s.ranks root).cont = action :: rest) :
    ∃ moved, action.exec vm s.world root = .ok moved ∧ moved.ret = mpiSuccess ∧ ∃ done',
      Transferring plan n root (t % umpiOutstandingCollectiveOperations) early mem past before done' made
        { s with
          world := moved.world
          ranks := Function.update s.ranks root
            ((s.ranks root).advance action.moved rest moved.ret) } := by
  have rootIn := ledger.mem_of_cont todo
  obtain ⟨remaining, serving, nodup, members⟩ := transferring.serving rootIn
  rw [todo] at serving
  rcases serving with all | ⟨rank, later, rfl, first⟩
  · -- the next cookie is taken out of the list, which moves no data
    cases remaining with
    | nil => cases all
    | cons rank later =>
        have split : serveRanks plan.push made (rank :: later) =
            .moveToPending (made rank) ::
              plan.push rank (made rank) :: serveRanks plan.push made later := rfl
        rw [split] at all
        obtain ⟨rfl, rfl⟩ := List.cons.inj all
        refine ⟨_, rfl, rfl, done, ?_⟩
        exact
          { memory := transferring.memory
            once := transferring.once
            joined := transferring.joined
            own := transferring.own
            agreed := transferring.agreed
            sooner := transferring.sooner
            waiting := fun rank member other => by
              simpa [other] using transferring.waiting rank member other
            pulling := fun rank member other => by
              simpa [other] using transferring.pulling rank member other
            rootMade := transferring.rootMade
            serving := by
              refine fun _ => ⟨rank :: later, Or.inr ⟨rank, later, rfl, ?_⟩, nodup, members⟩
              simp only [Function.update_self]
              exact RankState.advance_cont_of_success _ _ _
            counts := transferring.counts
            handle := fun joined id listed => transferring.handle joined id (by simpa using listed)
            waited := fun joined none => transferring.waited joined (by simpa using none) }
  · obtain ⟨rfl, rfl⟩ := List.cons.inj first
    obtain ⟨sooner, fresh⟩ := (members rank).mp List.mem_cons_self
    obtain ⟨inPast, other, allowed, makes⟩ := transferring.sooner rank sooner
    have valid := ledger.joining.bound rank inPast
    obtain ⟨moved, performs⟩ := sound.push rank valid other allowed s.world (made rank)
      (transferring.offers ledger makes (Or.inr fresh))
    refine ⟨moved, performs.exec, performs.ret, done ++ [rank], ?_⟩
    refine transferring.fulfill performs.mem performs.slots ?_ fresh inPast rootIn ?_ ?_ ?_ ?_
    · intro rank
      by_cases own : rank = root <;> simp [own]
    · intro rank member notRoot isSooner
      simpa [notRoot] using transferring.waiting rank member notRoot isSooner
    · intro other member notRoot joined late
      have different : other ≠ rank := fun same => late (same ▸ sooner)
      simpa [notRoot, different] using transferring.pulling other member notRoot joined late
    · obtain ⟨notLater, nodupLater⟩ := List.nodup_cons.mp nodup
      refine ⟨later, Or.inl ?_, nodupLater, fun other => ?_⟩
      · simp only [Function.update_self, performs.ret]
        exact RankState.advance_cont_of_success _ _ _
      · by_cases same : other = rank
        · simp [same, notLater]
        · have both := members other
          simp only [List.mem_cons, same, false_or] at both
          simpa [same] using both
    · exact transferring.counts_after ledger performs.exec (sound.pushed _ _) makes
        (fun same => absurd same other) fun _ => rfl

end Acting

/-! ### Completion -/

section Completing

variable {turn : Nat}

/-- When every call has returned every copy has been made. -/
theorem complete (transferring : Transferring plan n root turn early mem past before done made s)
    (everyone : ∀ rank < n, rank ∈ past) (rootValid : root < n)
    (idle : ∀ rank < n, (s.ranks rank).cont = []) : ∀ rank < n, rank ∈ done := by
  intro rank valid
  have rootIn := everyone root rootValid
  by_cases isRoot : rank = root
  · exact isRoot ▸ transferring.own rootIn
  · by_cases sooner : rank ∈ before
    · obtain ⟨remaining, serving, _, members⟩ := transferring.serving rootIn
      rw [idle root rootValid] at serving
      have none := serving.eq_nil
      by_contra missing
      have listed := (members rank).mpr ⟨sooner, missing⟩
      rw [none] at listed
      cases listed
    · have pulls := transferring.pulling rank (everyone rank valid) isRoot rootIn sooner
      rw [idle rank valid] at pulls
      by_contra missing
      rw [if_neg missing] at pulls
      cases pulls

/-- When the root has returned from its call and its request is complete, every copy has been made. -/
theorem rootComplete (transferring : Transferring plan n root turn early mem past before done made s)
    (ledger : Ledger (.rooted root) n t origin plan.offer past made s)
    (suits : (Schedule.rooted root).Suits n)
    (pulled : ∀ rank id, (plan.pull rank id).transfer = some id) (rootIn : root ∈ past)
    (idle : (s.ranks root).cont = [])
    (ready : ∀ id ∈ (s.ranks root).requests, (s.world.cookies id).Ready root) :
    ∀ rank < n, rank ∈ done := by
  obtain ⟨remaining, serving, _, members⟩ := transferring.serving rootIn
  rw [idle] at serving
  have none := serving.eq_nil
  have served : ∀ rank ∈ before, rank ∈ done := by
    intro rank sooner
    by_contra missing
    have listed := (members rank).mpr ⟨sooner, missing⟩
    rw [none] at listed
    cases listed
  rcases requests : (s.ranks root).requests with _ | ⟨id, others⟩
  · exact transferring.waited rootIn requests
  · have held : id ∈ (s.ranks root).requests := requests ▸ List.mem_cons_self
    intro rank valid
    by_cases isRoot : rank = root
    · exact isRoot ▸ transferring.own rootIn
    rcases transferring.handle rootIn id held with ⟨rfl, makes⟩ | all
    · -- nobody has a transfer through the root's cookie left, and nobody is expected any more
      obtain ⟨k, makes⟩ := Option.isSome_iff_exists.mp makes
      have finished := ready (made root) held (ledger.owner makes)
      have balance := ledger.busy root k makes
      have so := ledger.notified root k makes
      have expected := Schedule.issued_add_future ledger.joining suits makes
      have nothing : due n s.ranks (made root) = 0 := by omega
      have noFuture : (Schedule.rooted root).future n past root = 0 := by omega
      have full : past.length = n := by
        simp only [Schedule.future, if_true] at noFuture
        have atMost := ledger.joining.length_le
        omega
      have inPast := ledger.joining.mem_of_full full valid
      by_cases sooner : rank ∈ before
      · exact served rank sooner
      · by_contra missing
        have pulls := transferring.pulling rank inPast isRoot rootIn sooner
        rw [if_neg missing] at pulls
        have counted := Finset.sum_eq_zero_iff.mp nothing rank (Finset.mem_range.mpr valid)
        simp [pulls, pulled] at counted
    · exact served rank (all rank valid isRoot)

/-- A rank returns from a wait. -/
theorem leave (transferring : Transferring plan n root turn early mem past before done made s)
    (ledger : Ledger (.rooted root) n t origin plan.offer past made s)
    (suits : (Schedule.rooted root).Suits n)
    (pulled : ∀ rank id, (plan.pull rank id).transfer = some id) {self id : Nat} (err : Int)
    (idle : (s.ranks self).cont = []) (held : id ∈ (s.ranks self).requests)
    (ready : (s.world.cookies id).Ready self) :
    Transferring plan n root turn early mem past before done made
      { s with
        world := s.world.finalize id
        ranks := Function.update s.ranks self ((s.ranks self).leave id err) } := by
  have cont : ∀ rank, ((Function.update s.ranks self ((s.ranks self).leave id err)) rank).cont =
      (s.ranks rank).cont := by
    intro rank
    by_cases own : rank = self <;> simp [own]
  exact
    { memory := transferring.memory
      once := transferring.once
      joined := transferring.joined
      own := transferring.own
      agreed := transferring.agreed
      sooner := transferring.sooner
      waiting := fun rank member other sooner =>
        (cont rank).trans (transferring.waiting rank member other sooner)
      pulling := fun rank member other joined late =>
        (cont rank).trans (transferring.pulling rank member other joined late)
      rootMade := transferring.rootMade
      serving := by
        intro joined
        obtain ⟨remaining, serving, rest⟩ := transferring.serving joined
        exact ⟨remaining, (cont root).symm ▸ serving, rest⟩
      counts := by
        intro rank k makes counted
        rw [← transferring.counts rank k makes counted]
        by_cases same : made rank = id <;> simp [same]
      handle := by
        intro joined other listed
        refine transferring.handle joined other ?_
        by_cases own : root = self
        · subst own
          simp only [Function.update_self, RankState.leave_requests] at listed
          exact List.mem_of_mem_erase listed
        · simpa [own] using listed
      waited := by
        intro joined none
        by_cases own : root = self
        · subst own
          simp only [Function.update_self, RankState.leave_requests] at none
          -- the request was the only one, and it was complete
          refine transferring.rootComplete ledger suits pulled joined idle fun other listed => ?_
          by_cases same : other = id
          · exact same ▸ ready
          · have kept := (List.mem_erase_of_ne same).mpr listed
            rw [none] at kept
            cases kept
        · simp only [Function.update_of_ne own] at none
          exact transferring.waited joined none }

end Completing

end Transferring

/-! ### Runs -/

/-- The operation is under way, and all its transfers so far have been made as planned. -/
def RootedPlan.Exchanged (plan : RootedPlan) (n root t : Nat) (early : Nat → Prop) (origin s : Sys) : Prop :=
  ∃ past before done made, Ledger (.rooted root) n t origin plan.offer past made s ∧
    Transferring plan n root (t % umpiOutstandingCollectiveOperations) early origin.world.mem past before
      done made s

/-- A rank makes its call. -/
theorem RootedPlan.Exchanged.call {meets : Sys → Label → Prop} {s' : Sys} {self : Nat}
    (exchanged : plan.Exchanged n root t early origin s)
    (sound : plan.Sound vm calls n root (t % umpiOutstandingCollectiveOperations) early)
    (ready : origin.Ready n t) (suits : (Schedule.rooted root).Suits n) (small : n + 1 < 2 ^ 15)
    (allows : ∀ s, meets s (.call root) → ∀ rank, (s.ranks rank).pos ≠ 0 → early rank)
    (condition : meets s (.call self)) (stepped : s.step vm (once calls) (.call self) = .ok s') :
    plan.Exchanged n root t early origin s' := by
  obtain ⟨past, before, done, made, ledger, transferring⟩ := exchanged
  obtain ⟨call, w, frame, valid, _, listed, entered, rfl⟩ := step_call stepped
  obtain ⟨absent, rfl⟩ := ledger.absent_of_call listed
  rw [ledger.standing.size] at valid
  have arriving := ledger.arriving ready suits.several (fun _ => suits) (by omega) valid absent
  have turn : s.world.turnOf self = t % umpiOutstandingCollectiveOperations := by
    rw [World.turnOf, ledger.ticket self valid absent]
  rw [← turn] at sound transferring
  unfold RootedPlan.Exchanged
  rw [← turn]
  by_cases isRoot : self = root
  · subst isRoot
    obtain ⟨mid, made', moved, agreed, joined⟩ :=
      (sound.root past s.world made arriving rfl).of_ok entered
    have after := ledger.enter ready suits small valid absent joined (s.record w self)
    rw [Function.update_eq_self] at after
    have allowed : ∀ rank ∈ past, early rank := by
      intro rank member
      refine allows s condition rank ?_
      simp [ledger.pos rank, member]
    exact ⟨_, _, _, made', after, transferring.rootJoins ledger ready arriving.joining suits allowed moved
      agreed joined _⟩
  · obtain ⟨made', joined⟩ := (sound.member past s.world self made isRoot arriving rfl).of_ok entered
    have after := ledger.enter ready suits small valid absent joined (s.record w self)
    rw [Function.update_eq_self] at after
    exact ⟨_, _, _, made', after, transferring.memberJoins ledger ready arriving.joining suits isRoot joined _⟩

/-- In every run in which the ranks that join before the root are allowed to, all transfers are made as
    planned. -/
theorem RootedPlan.Sound.exchanged {meets : Sys → Label → Prop}
    (sound : plan.Sound vm calls n root (t % umpiOutstandingCollectiveOperations) early)
    (ready : origin.Ready n t) (suits : (Schedule.rooted root).Suits n) (small : n + 1 < 2 ^ 15)
    (allows : ∀ s, meets s (.call root) → ∀ rank, (s.ranks rank).pos ≠ 0 → early rank)
    (run : ReachesBy vm (once calls) meets origin s) : plan.Exchanged n root t early origin s := by
  induction run with
  | refl =>
      exact ⟨[], [], [], id, Ledger.start ready id, Transferring.start plan early ready.idle _ id⟩
  | tail label _ condition stepped ih =>
      cases label with
      | call self => exact ih.call sound ready suits small allows condition stepped
      | act self =>
          obtain ⟨past, before, done, made, ledger, transferring⟩ := ih
          obtain ⟨action, rest, moved, todo, performed, rfl⟩ := step_act stepped
          by_cases isRoot : self = root
          · subst isRoot
            obtain ⟨moved', performed', success, done', after⟩ := transferring.rootActs ledger sound todo
            obtain rfl := Outcome.ok.inj (performed.symm.trans performed')
            exact ⟨past, before, done', made, ledger.act suits small todo performed (Or.inl success), after⟩
          · obtain ⟨moved', performed', success, after⟩ :=
              transferring.memberActs ledger sound isRoot todo
            obtain rfl := Outcome.ok.inj (performed.symm.trans performed')
            exact ⟨past, before, _, made, ledger.act suits small todo performed (Or.inl success), after⟩
      | wait self id =>
          obtain ⟨past, before, done, made, ledger, transferring⟩ := ih
          obtain ⟨idle, held, finished, rfl⟩ := step_wait stepped
          exact ⟨past, before, done, made, ledger.leave _ held,
            transferring.leave ledger suits sound.pulled _ idle held finished⟩

namespace RootedPlan.Exchanged

variable (exchanged : plan.Exchanged n root t early origin s)
include exchanged

theorem size : s.world.size = n := by
  obtain ⟨past, before, done, made, ledger, _⟩ := exchanged
  exact ledger.standing.size

/-- Bytes that no copy is made to keep their values, at any time. -/
theorem untouched {location : Loc} (outside : ∀ rank < n, location ∉ (plan.copy rank).target) :
    s.world.mem location = origin.world.mem location := by
  obtain ⟨past, before, done, made, ledger, transferring⟩ := exchanged
  rw [transferring.memory]
  refine copyEach_apply_of_notMem _ _ fun rank member => ?_
  exact outside rank (ledger.joining.bound rank (transferring.joined rank member).1)

/-- When every call has returned every target holds the bytes its source had. -/
theorem delivered (rootValid : root < n) (independent : Independent plan.copy (List.range n))
    (complete : s.Complete) {rank : Nat} (valid : rank < n) :
    Holds s.world.mem (plan.copy rank).target (readAll origin.world.mem (plan.copy rank).source) := by
  have size := exchanged.size
  obtain ⟨past, before, done, made, ledger, transferring⟩ := exchanged
  have everyone : ∀ rank < n, rank ∈ past := by
    intro rank inRange
    by_contra absent
    have before := complete.called rank (size.symm ▸ inRange)
    rw [ledger.pos rank, if_neg absent] at before
    cases before
  have returned : ∀ rank < n, (s.ranks rank).cont = [] := fun rank inRange =>
    complete.returned rank (size.symm ▸ inRange)
  have listed := transferring.complete everyone rootValid returned rank valid
  rw [transferring.memory]
  refine independent.holds_target (fun other member => ?_) transferring.once _ listed
  exact List.mem_range.mpr (ledger.joining.bound other (transferring.joined other member).1)

/-- So they do when the root has returned and its request is complete. -/
theorem delivered_of_root (suits : (Schedule.rooted root).Suits n)
    (pulled : ∀ rank id, (plan.pull rank id).transfer = some id)
    (independent : Independent plan.copy (List.range n)) (called : (s.ranks root).pos = 1)
    (returned : (s.ranks root).cont = [])
    (finished : ∀ id ∈ (s.ranks root).requests, (s.world.cookies id).Ready root)
    {rank : Nat} (valid : rank < n) :
    Holds s.world.mem (plan.copy rank).target (readAll origin.world.mem (plan.copy rank).source) := by
  obtain ⟨past, before, done, made, ledger, transferring⟩ := exchanged
  have rootIn : root ∈ past := by
    by_contra absent
    rw [ledger.pos root, if_neg absent] at called
    cases called
  have listed := transferring.rootComplete ledger suits pulled rootIn returned finished rank valid
  rw [transferring.memory]
  refine independent.holds_target (fun other member => ?_) transferring.once _ listed
  exact List.mem_range.mpr (ledger.joining.bound other (transferring.joined other member).1)

end RootedPlan.Exchanged

end Rooted

end Umpi
