/-
Module: Umpi.Proofs.Scans
Layer: Proofs
Purpose: What `MPI_Iscan` and `MPI_Iexscan` compute. Every rank brings its input to the buffer its cookie shows,
  and the last one climbs the cookies in the order of the ranks, with the total of the ranks behind it in one
  scratch buffer and the input of the next one in the other. `Climbed` is the invariant of this loop. A scan
  leaves every rank the total up to itself. An exscan leaves the total of the ranks before, but rank 0's cookie
  shows `sendbuf` even if that is `MPI_IN_PLACE`, so what is added up then is not its input.
Imports: Umpi.Proofs.Reductions
Trusted boundary: none
Main exports: Rungs, Climbed, ladderPlan, Reduction.scanCalls, Reduction.exscanCalls, iscan_prefixes,
  iexscan_prefixes_iff
Open obligations: none
-/
import Umpi.Proofs.Reductions

namespace Umpi

open Foundation Sys

/-! ### The errands of the last rank -/

/-- The buffers of a scan or an exscan: the one that the cookie of each rank shows, the one with its input when
    it calls, and whether it first moves the input from there. -/
structure Rungs where
  place : Nat → Loc
  inputAt : Nat → Loc
  moves : Nat → Bool

namespace Reduction

/-- The input in `recvbuf_` is added to the total in `sendbuf_`. -/
def combine (reduction : Reduction) (turn : Nat) : Errand where
  action := fun _ => .reduce reduction.op (recvbuf turn) (sendbuf turn) reduction.count reduction.datatype.iovec
  effect := reduction.op.apply (recvbuf turn) (sendbuf turn) reduction.datatype.iovec reduction.count

/-- The loop of `scan_request`. -/
def scanErrands (reduction : Reduction) (rungs : Rungs) (turn : Nat) (ranks : List Nat) : List Errand :=
  ranks.flatMap fun rank =>
    [Errand.retire rank, reduction.fetch rungs.place rank (recvbuf turn), reduction.combine turn,
      reduction.deliver rungs.place rank (sendbuf turn)]

/-- The loop of `exscan_request`. -/
def exscanErrands (reduction : Reduction) (rungs : Rungs) (turn : Nat) : List Nat → List Errand
  | [] => []
  | rank :: rest =>
      [Errand.retire rank, reduction.fetch rungs.place rank (recvbuf turn),
        reduction.deliver rungs.place rank (sendbuf turn)] ++
        (if rest = [] then [] else [reduction.combine turn]) ++ reduction.exscanErrands rungs turn rest

/-- The first cookie is only read, and the loop goes through the others. -/
def climb (reduction : Reduction) (rungs : Rungs) (turn : Nat) (loop : List Nat → List Errand) :
    List Nat → List Errand
  | [] => []
  | first :: rest => Errand.retire first :: reduction.fetch rungs.place first (sendbuf turn) :: loop rest

variable {reduction : Reduction} {rungs : Rungs} {turn n : Nat}

theorem scanErrands_action (made : Nat → Nat) (ranks : List Nat) :
    (reduction.scanErrands rungs turn ranks).map (fun errand => errand.action made) =
      scanLoop turn reduction.count reduction.datatype.iovec reduction.op (ranks.map made) := by
  rw [scanErrands, List.map_flatMap, scanLoop, List.flatMap_map]
  rfl

theorem exscanErrands_action (made : Nat → Nat) (ranks : List Nat) :
    (reduction.exscanErrands rungs turn ranks).map (fun errand => errand.action made) =
      exscanLoop turn reduction.count reduction.datatype.iovec reduction.op (ranks.map made) := by
  induction ranks with
  | nil => rfl
  | cons rank rest ih =>
      rw [exscanErrands, List.map_append, List.map_append, ih]
      conv_rhs => rw [List.map_cons, exscanLoop]
      simp only [List.map_eq_nil_iff]
      split <;> rfl

theorem climb_action {loop : List Nat → List Errand} {actions : List Nat → List Action} (made : Nat → Nat)
    (same : ∀ ranks, (loop ranks).map (fun errand => errand.action made) = actions (ranks.map made))
    (ranks : List Nat) :
    (reduction.climb rungs turn loop ranks).map (fun errand => errand.action made) =
      climbing turn reduction.count reduction.datatype.iovec actions (ranks.map made) := by
  cases ranks with
  | nil => rfl
  | cons first rest =>
      rw [climb, List.map_cons, List.map_cons, same]
      rfl

/-- What an errand of a scan or an exscan can be. -/
inductive IsErrand (reduction : Reduction) (rungs : Rungs) (turn n : Nat) : Errand → Prop where
  | retire (rank : Nat) : IsErrand reduction rungs turn n (Errand.retire rank)
  | fetch (rank : Nat) (valid : rank < n) (scratch : Loc) :
      IsErrand reduction rungs turn n (reduction.fetch rungs.place rank scratch)
  | deliver (rank : Nat) (valid : rank < n) (base : Loc) :
      IsErrand reduction rungs turn n (reduction.deliver rungs.place rank base)
  | combine : IsErrand reduction rungs turn n (reduction.combine turn)

theorem isErrand_of_mem_scan {ranks : List Nat} (valid : ∀ rank ∈ ranks, rank < n) :
    ∀ errand ∈ reduction.scanErrands rungs turn ranks, IsErrand reduction rungs turn n errand := by
  intro errand member
  obtain ⟨rank, listed, step⟩ := List.mem_flatMap.mp member
  simp only [List.mem_cons, List.not_mem_nil, or_false] at step
  rcases step with rfl | rfl | rfl | rfl
  · exact .retire rank
  · exact .fetch rank (valid rank listed) _
  · exact .combine
  · exact .deliver rank (valid rank listed) _

theorem isErrand_of_mem_exscan {ranks : List Nat} (valid : ∀ rank ∈ ranks, rank < n) :
    ∀ errand ∈ reduction.exscanErrands rungs turn ranks, IsErrand reduction rungs turn n errand := by
  induction ranks with
  | nil => exact fun _ member => absurd member List.not_mem_nil
  | cons rank rest ih =>
      have here : rank < n := valid rank List.mem_cons_self
      intro errand member
      rw [exscanErrands, List.mem_append, List.mem_append] at member
      rcases member with (own | shared) | later
      · simp only [List.mem_cons, List.not_mem_nil, or_false] at own
        rcases own with rfl | rfl | rfl
        · exact .retire rank
        · exact .fetch rank here _
        · exact .deliver rank here _
      · split at shared
        · exact absurd shared List.not_mem_nil
        · rw [List.mem_singleton.mp shared]
          exact .combine
      · exact ih (fun other listed => valid other (List.mem_cons_of_mem rank listed)) errand later

theorem isErrand_of_mem_climb {loop : List Nat → List Errand}
    (loops : ∀ ranks : List Nat, (∀ rank ∈ ranks, rank < n) →
      ∀ errand ∈ loop ranks, IsErrand reduction rungs turn n errand)
    {ranks : List Nat} (valid : ∀ rank ∈ ranks, rank < n) :
    ∀ errand ∈ reduction.climb rungs turn loop ranks, IsErrand reduction rungs turn n errand := by
  cases ranks with
  | nil => exact fun _ member => absurd member List.not_mem_nil
  | cons first rest =>
      intro errand member
      rw [climb, List.mem_cons, List.mem_cons] at member
      rcases member with rfl | rfl | later
      · exact .retire first
      · exact .fetch first (valid first List.mem_cons_self) _
      · exact loops rest (fun rank listed => valid rank (List.mem_cons_of_mem first listed)) errand later

end Reduction

/-! ### The loop -/

/-- The buffers of the ranks and the two scratch buffers of the slot do not overlap. -/
structure Rungs.Apart (rungs : Rungs) (reduction : Reduction) (turn n : Nat) : Prop where
  places : ∀ rank < n, ∀ other < n, rank ≠ other →
    (reduction.view (rungs.place rank)).Disjoint (reduction.view (rungs.place other))
  sendbuf : ∀ rank < n, (reduction.view (rungs.place rank)).Disjoint (reduction.view (sendbuf turn))
  recvbuf : ∀ rank < n, (reduction.view (rungs.place rank)).Disjoint (reduction.view (recvbuf turn))
  scratch : (reduction.view (Umpi.sendbuf turn)).Disjoint (reduction.view (Umpi.recvbuf turn))

/-- The loop has gone through the ranks up to `r`: they have their results `y`, and the ranks ahead still have
    their inputs `x`. The total of the ranks up to `sum` is in `sendbuf_`. -/
structure Climbed (reduction : Reduction) (rungs : Rungs) (turn n : Nat) (x y : Nat → Nat → List UInt8)
    (sum r : Nat) (mem : Memory) : Prop where
  total : ∀ i < reduction.count, reduction.value mem (sendbuf turn) i = foldUpTo reduction.op.func (x i) sum
  behind : ∀ rank ≤ r, ∀ i < reduction.count, reduction.value mem (rungs.place rank) i = y i rank
  ahead : ∀ rank, r < rank → rank < n →
    ∀ i < reduction.count, reduction.value mem (rungs.place rank) i = x i rank

section Climbing

variable {reduction : Reduction} {rungs : Rungs} {turn n sum r : Nat} {x y : Nat → Nat → List UInt8}
  {mem : Memory}

/-- The first rank's input starts the total. -/
theorem Climbed.start (apart : rungs.Apart reduction turn n) (populated : 0 < n)
    (inputs : ∀ rank < n, ∀ i < reduction.count, reduction.value mem (rungs.place rank) i = x i rank)
    (first : ∀ i < reduction.count, y i 0 = x i 0) :
    Climbed reduction rungs turn n x y 0 0 ((reduction.fetch rungs.place 0 (sendbuf turn)).effect mem) where
  total := fun i below => (Reduction.value_copyAll mem _ _ below).trans (inputs 0 populated i below)
  behind := by
    intro rank upTo i below
    obtain rfl := Nat.le_zero.mp upTo
    rw [first i below, ← inputs 0 populated i below]
    exact Reduction.value_copyAll_of_disjoint mem _ (apart.sendbuf 0 populated) below
  ahead := fun rank _ valid i below =>
    (Reduction.value_copyAll_of_disjoint mem _ (apart.sendbuf rank valid) below).trans
      (inputs rank valid i below)

/-- Fetching the next input into `recvbuf_` changes nothing else. -/
theorem Climbed.fetch (climbed : Climbed reduction rungs turn n x y sum r mem)
    (apart : rungs.Apart reduction turn n) {rank : Nat} (later : r < rank) (valid : rank < n) :
    Climbed reduction rungs turn n x y sum r ((reduction.fetch rungs.place rank (recvbuf turn)).effect mem) ∧
      ∀ i < reduction.count,
        reduction.value ((reduction.fetch rungs.place rank (recvbuf turn)).effect mem) (recvbuf turn) i = x i rank := by
  refine ⟨?_, fun i below => ?_⟩
  · exact
      { total := fun i below =>
          (Reduction.value_copyAll_of_disjoint mem _ apart.scratch below).trans (climbed.total i below)
        behind := fun other upTo i below =>
          (Reduction.value_copyAll_of_disjoint mem _ (apart.recvbuf other (by omega)) below).trans
            (climbed.behind other upTo i below)
        ahead := fun other after inRange i below =>
          (Reduction.value_copyAll_of_disjoint mem _ (apart.recvbuf other inRange) below).trans
            (climbed.ahead other after inRange i below) }
  · exact (Reduction.value_copyAll mem _ _ below).trans (climbed.ahead rank later valid i below)

/-- The next input is added to the total. -/
theorem Climbed.combine (climbed : Climbed reduction rungs turn n x y sum r mem)
    (apart : rungs.Apart reduction turn n) (inRange : r < n)
    (closed : reduction.op.Closed reduction.datatype.iovec)
    (fetched : ∀ i < reduction.count, reduction.value mem (recvbuf turn) i = x i (sum + 1)) :
    Climbed reduction rungs turn n x y (sum + 1) r ((reduction.combine turn).effect mem) where
  total := by
    intro i below
    have combined := Reduction.value_apply closed mem apart.scratch.symm below
    rw [fetched i below, climbed.total i below] at combined
    exact combined
  behind := fun rank upTo i below =>
    (Reduction.value_apply_of_disjoint mem (apart.sendbuf rank (by omega)) below).trans
      (climbed.behind rank upTo i below)
  ahead := fun rank later valid i below =>
    (Reduction.value_apply_of_disjoint mem (apart.sendbuf rank valid) below).trans
      (climbed.ahead rank later valid i below)

/-- The next rank gets the total as its result, and `recvbuf_` stays as it is. -/
theorem Climbed.deliver (climbed : Climbed reduction rungs turn n x y sum r mem)
    (apart : rungs.Apart reduction turn n) (valid : r + 1 < n)
    (result : ∀ i < reduction.count, y i (r + 1) = foldUpTo reduction.op.func (x i) sum) :
    Climbed reduction rungs turn n x y sum (r + 1)
        ((reduction.deliver rungs.place (r + 1) (sendbuf turn)).effect mem) ∧
      ∀ i < reduction.count,
        reduction.value ((reduction.deliver rungs.place (r + 1) (sendbuf turn)).effect mem) (recvbuf turn) i =
          reduction.value mem (recvbuf turn) i := by
  refine ⟨?_, fun i below => ?_⟩
  · exact
      { total := fun i below =>
          (Reduction.value_copyAll_of_disjoint mem _ (apart.sendbuf (r + 1) valid).symm below).trans
            (climbed.total i below)
        behind := by
          intro rank upTo i below
          by_cases own : rank = r + 1
          · subst own
            rw [result i below, ← climbed.total i below]
            exact Reduction.value_copyAll mem _ _ below
          · rw [← climbed.behind rank (by omega) i below]
            exact Reduction.value_copyAll_of_disjoint mem _ (apart.places rank (by omega) (r + 1) valid own)
              below
        ahead := fun rank later inRange i below =>
          (Reduction.value_copyAll_of_disjoint mem _ (apart.places rank inRange (r + 1) valid (by omega))
            below).trans (climbed.ahead rank (by omega) inRange i below) }
  · exact Reduction.value_copyAll_of_disjoint mem _ (apart.recvbuf (r + 1) valid).symm below

/-- The loop of a scan leaves every rank the total up to itself. -/
theorem Climbed.scan (climbed : Climbed reduction rungs turn n x y r r mem)
    (apart : rungs.Apart reduction turn n) (closed : reduction.op.Closed reduction.datatype.iovec)
    (results : ∀ rank, 0 < rank → ∀ i < reduction.count, y i rank = foldUpTo reduction.op.func (x i) rank)
    (more : Nat) (all : r + 1 + more = n) :
    ∀ rank < n, ∀ i < reduction.count,
      reduction.value (perform (reduction.scanErrands rungs turn (List.range' (r + 1) more)) mem)
        (rungs.place rank) i = y i rank := by
  induction more generalizing r mem with
  | zero => exact fun rank valid i below => climbed.behind rank (by omega) i below
  | succ more ih =>
      have valid : r + 1 < n := by omega
      obtain ⟨fetched, input⟩ := climbed.fetch apart (Nat.lt_succ_self r) valid
      have combined := fetched.combine apart (by omega) closed input
      have delivered := (combined.deliver apart valid (results (r + 1) (Nat.succ_pos r))).1
      have rest := ih delivered (by omega)
      rw [List.range'_succ]
      exact rest

/-- The loop of an exscan leaves every rank the total of the ranks before. -/
theorem Climbed.exscan (climbed : Climbed reduction rungs turn n x y r r mem)
    (apart : rungs.Apart reduction turn n) (closed : reduction.op.Closed reduction.datatype.iovec)
    (results : ∀ rank, ∀ i < reduction.count, y i (rank + 1) = foldUpTo reduction.op.func (x i) rank)
    (more : Nat) (all : r + 1 + more = n) :
    ∀ rank < n, ∀ i < reduction.count,
      reduction.value (perform (reduction.exscanErrands rungs turn (List.range' (r + 1) more)) mem)
        (rungs.place rank) i = y i rank := by
  induction more generalizing r mem with
  | zero => exact fun rank valid i below => climbed.behind rank (by omega) i below
  | succ more ih =>
      have valid : r + 1 < n := by omega
      obtain ⟨fetched, input⟩ := climbed.fetch apart (Nat.lt_succ_self r) valid
      obtain ⟨delivered, kept⟩ := fetched.deliver apart valid (results r)
      rw [List.range'_succ, Reduction.exscanErrands]
      cases more with
      | zero =>
          -- the last rank's input is not added any more
          exact fun rank inRange i below => delivered.behind rank (by omega) i below
      | succ more =>
          have combined := delivered.combine apart valid closed fun i below =>
            (kept i below).trans (input i below)
          have rest := ih combined (by omega)
          rw [List.range'_succ, if_neg (List.cons_ne_nil _ _)]
          rw [List.range'_succ] at rest
          exact rest

end Climbing

/-! ### The plan -/

/-- A rank of a ladder always makes a cookie. -/
theorem Schedule.numOf_ladder {n rank : Nat} {past : List Nat} (joined : rank ∈ past) :
    (Schedule.ladder.numOf n rank past).isSome := by
  induction past with
  | nil => cases joined
  | cons self past ih =>
      rw [Schedule.numOf]
      split
      case isTrue => rfl
      case isFalse other => exact ih ((List.mem_cons.mp joined).resolve_left (Ne.symm other))

/-- The ranks bring their inputs to the buffers of their cookies, and the last one climbs. -/
def ladderPlan (reduction : Reduction) (rungs : Rungs) (n turn : Nat) (loop : List Nat → List Errand)
    (mem : Memory) : UnrootedPlan where
  schedule := .ladder
  offer := fun rank =>
    { buf := rungs.place rank
      iovec := reduction.datatype.iovec
      size := reduction.count
      count := reduction.count }
  stage := fun past mem' =>
    (∀ rank ∈ past, ∀ i < reduction.count,
      reduction.value mem' (rungs.place rank) i = reduction.value mem (rungs.inputAt rank) i) ∧
    ∀ location, (∀ rank ∈ past, location ∉ reduction.view (rungs.place rank)) → mem' location = mem location
  agreed := fun _ _ _ => True
  errands := fun _ => reduction.climb rungs turn loop (List.range n)

/-- Nobody's input is in the way of what the others bring, and who does not move its input has it in place. -/
structure Rungs.Brings (rungs : Rungs) (reduction : Reduction) (n : Nat) : Prop where
  own : ∀ rank, rungs.moves rank = false → rungs.inputAt rank = rungs.place rank
  inputs : ∀ rank < n, ∀ other < n, rank ≠ other →
    (reduction.view (rungs.inputAt rank)).Disjoint (reduction.view (rungs.place other))

section Plan

variable {vm : ProcessVm} {reduction : Reduction} {rungs : Rungs} {n turn : Nat} {loop : List Nat → List Errand}
  {mem : Memory}

/-- One more rank brings its input. -/
theorem ladderPlan_stage (brings : rungs.Brings reduction n) {past : List Nat} {self : Nat}
    (joining : Schedule.Joining n (self :: past)) (apart : rungs.Apart reduction turn n) {mem' : Memory}
    (staged : (ladderPlan reduction rungs n turn loop mem).stage past mem') :
    (ladderPlan reduction rungs n turn loop mem).stage (self :: past)
      (if rungs.moves self then
        copyAll mem' (reduction.view (rungs.inputAt self)) (reduction.view (rungs.place self))
      else mem') := by
  obtain ⟨brought, untouched⟩ := staged
  have valid : self < n := joining.bound self List.mem_cons_self
  have others : ∀ rank ∈ past, rank < n ∧ self ≠ rank := fun rank member =>
    ⟨joining.bound rank (List.mem_cons_of_mem self member), fun same => joining.fresh (same ▸ member)⟩
  -- the input of the rank is still what it was
  have input : ∀ i < reduction.count,
      reduction.value mem' (rungs.inputAt self) i = reduction.value mem (rungs.inputAt self) i := by
    intro i below
    refine Reduction.value_congr (fun location member => untouched location fun rank joined => ?_) below
    exact brings.inputs self valid rank (others rank joined).1 (others rank joined).2 member
  by_cases moves : rungs.moves self
  · rw [if_pos moves]
    refine ⟨fun rank member i below => ?_, fun location outside => ?_⟩
    · rcases List.mem_cons.mp member with rfl | joined
      · exact (Reduction.value_copyAll mem' _ _ below).trans (input i below)
      · rw [← brought rank joined i below]
        exact Reduction.value_copyAll_of_disjoint mem' _
          (apart.places rank (others rank joined).1 self valid (others rank joined).2.symm) below
    · rw [copyAll_apply_of_notMem _ _ (outside self List.mem_cons_self)]
      exact untouched location fun rank joined => outside rank (List.mem_cons_of_mem self joined)
  · rw [if_neg moves]
    refine ⟨fun rank member i below => ?_, fun location outside => ?_⟩
    · rcases List.mem_cons.mp member with rfl | joined
      · rw [← brings.own rank (by simpa using moves)]
        exact input i below
      · exact brought rank joined i below
    · exact untouched location fun rank joined => outside rank (List.mem_cons_of_mem self joined)

/-- An errand works when the cookies show the buffers. -/
theorem Reduction.IsErrand.works (copies : CopiesAll vm) (countRange : reduction.count < 2 ^ 31)
    (bytesRange : reduction.count * reduction.datatype.len < 2 ^ 63) {errand : Errand}
    (isErrand : IsErrand reduction rungs turn n errand) {past : List Nat}
    (joining : Schedule.Joining n past) (full : past.length = n) (w : World) (made : Nat → Nat)
    (shown : (ladderPlan reduction rungs n turn loop mem).Shown n past made w) (self : Nat) :
    ∃ done, (errand.action made).exec vm w self = .ok done ∧ done.ret = mpiSuccess ∧
      done.world.mem = errand.effect w.mem := by
  have shows : ∀ rank < n, (w.cookies (made rank)).Shows
      { buf := rungs.place rank, iovec := reduction.datatype.iovec, size := reduction.count, count := 0 } := by
    intro rank valid
    obtain ⟨k, makes⟩ := Option.isSome_iff_exists.mp
      (Schedule.numOf_ladder (n := n) (joining.mem_of_full full valid))
    have so := shown rank k makes
    exact { buf := so.buf, iovec := so.iovec, size := so.size }
  cases isErrand with
  | retire rank => exact ⟨_, rfl, rfl, rfl⟩
  | fetch rank valid scratch =>
      exact reduction.fetch_works copies countRange bytesRange (shows rank valid) scratch self
  | deliver rank valid base => exact reduction.deliver_works copies bytesRange (shows rank valid) base self
  | combine => exact ⟨_, rfl, rfl, rfl⟩

/-- The calls follow the plan if they bring the input and leave the last rank what it has to do. -/
theorem ladderPlan_sound (copies : CopiesAll vm) (valid : reduction.Valid n) (brings : rungs.Brings reduction n)
    (apart : rungs.Apart reduction turn n) {calls : Nat → Call} {actions : List Nat → List Action}
    (loops : ∀ ranks : List Nat, (∀ rank ∈ ranks, rank < n) →
      ∀ errand ∈ loop ranks, Reduction.IsErrand reduction rungs turn n errand)
    (same : ∀ made ranks, (loop ranks).map (fun errand => errand.action made) = actions (ranks.map made))
    (enters : ∀ (past : List Nat) (w : World) (caller : Nat) (made : Nat → Nat),
      Arriving .ladder n past w caller made → w.turnOf caller = turn →
      ((calls caller).enter vm w caller).Yields fun result => ∃ mid made',
        mid.mem = (if rungs.moves caller then
          copyAll w.mem (reduction.view (rungs.inputAt caller)) (reduction.view (rungs.place caller))
        else w.mem) ∧
        mid.cookies = w.cookies ∧
        Entered .ladder n past w caller mid
          { buf := rungs.place caller
            iovec := reduction.datatype.iovec
            size := reduction.count
            count := reduction.count }
          (if past.length + 1 = n then
            climbing turn reduction.count reduction.datatype.iovec actions
              ((Schedule.climb past caller).map made')
          else []) result made made') :
    (ladderPlan reduction rungs n turn loop mem).Sound vm calls n turn where
  arrives := by
    intro past w caller made arriving here staged _ _
    refine (enters past w caller made arriving here).mono ?_
    rintro result ⟨mid, made', moved, cookies, entered⟩
    have next := ladderPlan_stage brings arriving.joining apart staged
    rw [← moved] at next
    refine ⟨mid, made', next, trivial, fun id => by rw [cookies], ?_⟩
    have left : ((ladderPlan reduction rungs n turn loop mem).left n (caller :: past)).map
        (fun errand => errand.action made') =
        if past.length + 1 = n then
          climbing turn reduction.count reduction.datatype.iovec actions
            ((Schedule.climb past caller).map made')
        else [] := by
      by_cases last : past.length + 1 = n
      · have full : (caller :: past).length = n := last
        rw [UnrootedPlan.left_of_full _ full, if_pos last, Schedule.climb_eq_range arriving.joining last]
        exact Reduction.climb_action made' (same made') (List.range n)
      · have partly : (caller :: past).length < n := lt_of_le_of_ne arriving.joining.length_le last
        rw [UnrootedPlan.left_of_lt _ partly, if_neg last]
        rfl
    rw [left]
    exact entered
  runs := by
    intro last before joining full errand member w made shown
    have isErrand := Reduction.isErrand_of_mem_climb loops (fun rank => List.mem_range.mp) errand member
    exact isErrand.works copies valid.countRange valid.bytesRange joining full w made shown last

end Plan

/-! ### Scan -/

section Results

variable {vm : ProcessVm} {reduction : Reduction} {n t : Nat} {origin s : Sys}

namespace Reduction

/-- Every rank scans. -/
def scanCalls (reduction : Reduction) (rank : Nat) : Call :=
  .scan (reduction.send rank) (reduction.recv rank) reduction.count (some reduction.datatype.iovec)
    (some reduction.op) .world

/-- Every rank excludes itself from the scan. -/
def exscanCalls (reduction : Reduction) (rank : Nat) : Call :=
  .exscan (reduction.send rank) (reduction.recv rank) reduction.count (some reduction.datatype.iovec)
    (some reduction.op) .world

/-- In a scan every cookie shows the receive buffer. -/
def scanRungs (reduction : Reduction) : Rungs where
  place := reduction.target
  inputAt := reduction.source
  moves := fun rank => reduction.send rank ≠ .inPlace

/-- In an exscan the cookie of rank 0 shows its send buffer. -/
def exscanRungs (reduction : Reduction) : Rungs where
  place := fun rank => if rank ≠ 0 then reduction.target rank else (reduction.send rank).loc rank
  inputAt := fun rank => if rank ≠ 0 then reduction.source rank else (reduction.send rank).loc rank
  moves := fun rank => rank ≠ 0 ∧ reduction.send rank ≠ .inPlace

theorem scanRungs_brings (receives : ∀ rank < n, reduction.Receives rank) :
    reduction.scanRungs.Brings reduction n where
  own := fun rank inPlace => source_eq_target (by simpa [scanRungs] using inPlace)
  inputs := fun _ _ other inRange different => reduction.source_disjoint_target different (receives other inRange)

theorem scanRungs_apart (short : reduction.Short) (receives : ∀ rank < n, reduction.Receives rank) (turn : Nat) :
    reduction.scanRungs.Apart reduction turn n where
  places := fun rank valid _ _ different => view_disjoint_of_rank different (receives rank valid)
  sendbuf := fun rank _ => view_disjoint_scratch (reduction.recv rank) rank rfl
  recvbuf := fun rank _ => view_disjoint_scratch (reduction.recv rank) rank rfl
  scratch := view_sendbuf_disjoint short turn

/-- The buffer that the cookie of a rank shows in an exscan. -/
theorem exscan_place (reduction : Reduction) (rank : Nat) :
    reduction.exscanRungs.place rank =
      (if rank ≠ 0 then reduction.recv rank else reduction.send rank).loc rank := by
  unfold exscanRungs
  by_cases first : rank = 0
  · subst first
    rfl
  · simp only [ne_eq, first, not_false_eq_true, if_true]
    rfl

/-- An input of an exscan is in a buffer of its rank, which is missing only when it is empty. -/
theorem exscan_inputAt (valid : reduction.Valid n) (receives : ∀ rank < n, rank ≠ 0 → reduction.Receives rank)
    {rank : Nat} (inRange : rank < n) :
    ∃ pointer : Pointer, reduction.exscanRungs.inputAt rank = pointer.loc rank ∧
      (pointer = .null → reduction.count = 0) := by
  by_cases first : rank = 0
  · subst first
    exact ⟨reduction.send 0, rfl, valid.given 0 inRange⟩
  · obtain ⟨pointer, located, passed⟩ := reduction.source_cases rank
    refine ⟨pointer, (if_pos first).trans located, ?_⟩
    rcases passed with rfl | rfl
    · exact valid.given rank inRange
    · exact receives rank inRange first

theorem exscanRungs_brings (valid : reduction.Valid n)
    (receives : ∀ rank < n, rank ≠ 0 → reduction.Receives rank) : reduction.exscanRungs.Brings reduction n where
  own := by
    intro rank still
    by_cases first : rank = 0
    · subst first
      rfl
    · have inPlace : reduction.send rank = .inPlace := by simpa [exscanRungs, first] using still
      simp only [exscanRungs, ne_eq, first, not_false_eq_true, if_true]
      exact source_eq_target inPlace
  inputs := by
    intro rank inRange other _ different
    obtain ⟨pointer, located, given⟩ := exscan_inputAt valid receives inRange
    rw [located, exscan_place]
    exact view_disjoint_of_rank different given

theorem exscanRungs_apart (valid : reduction.Valid n) (short : reduction.Short)
    (receives : ∀ rank < n, rank ≠ 0 → reduction.Receives rank) (turn : Nat) :
    reduction.exscanRungs.Apart reduction turn n where
  places := by
    intro rank inRange other _ different
    rw [exscan_place, exscan_place]
    refine view_disjoint_of_rank different ?_
    split
    case isTrue later => exact receives rank inRange later
    case isFalse => exact valid.given rank inRange
  sendbuf := by
    intro rank _
    rw [exscan_place]
    exact view_disjoint_scratch _ rank rfl
  recvbuf := by
    intro rank _
    rw [exscan_place]
    exact view_disjoint_scratch _ rank rfl
  scratch := view_sendbuf_disjoint short turn

end Reduction

/-- The calls of a scan follow the plan. -/
theorem scanPlan_sound (copies : CopiesAll vm) (valid : reduction.Valid n) (short : reduction.Short)
    (receives : ∀ rank < n, reduction.Receives rank) (turn : Nat) (mem : Memory) :
    (ladderPlan reduction reduction.scanRungs n turn (reduction.scanErrands reduction.scanRungs turn) mem).Sound
      vm reduction.scanCalls n turn := by
  refine ladderPlan_sound copies valid (Reduction.scanRungs_brings receives)
    (Reduction.scanRungs_apart short receives turn) (fun _ => Reduction.isErrand_of_mem_scan)
    Reduction.scanErrands_action ?_
  intro past w caller made arriving here
  have inRange := arriving.joining.bound caller List.mem_cons_self
  have given : ¬ ((reduction.send caller = .null ∨ reduction.recv caller = .null) ∧
      (reduction.count : Int) ≠ 0) := by
    rintro ⟨missing | missing, some⟩
    · exact some (by exact_mod_cast valid.given caller inRange missing)
    · exact some (by exact_mod_cast receives caller inRange missing)
  refine (mpiIscan_enters arriving given rfl (not_lt.mpr short)).mono ?_
  rintro result ⟨made', entered⟩
  rw [here] at entered
  refine ⟨_, made', ?_, ?_, entered⟩
  · unfold scanInput
    by_cases inPlace : reduction.send caller = .inPlace
    · simp [Reduction.scanRungs, inPlace, World.claimed]
    · have copied := Reduction.copy_mem copies valid.bytesRange (w.claimed caller) ((reduction.send caller).loc caller)
        (reduction.target caller)
      simp only [Reduction.scanRungs, ne_eq, inPlace, not_false_eq_true, if_true, decide_true,
        Reduction.source_eq_send inPlace]
      exact copied
  · unfold scanInput
    split <;> rfl

/-- The calls of an exscan follow the plan. -/
theorem exscanPlan_sound (copies : CopiesAll vm) (valid : reduction.Valid n) (short : reduction.Short)
    (receives : ∀ rank < n, rank ≠ 0 → reduction.Receives rank) (turn : Nat) (mem : Memory) :
    (ladderPlan reduction reduction.exscanRungs n turn
      (reduction.exscanErrands reduction.exscanRungs turn) mem).Sound vm reduction.exscanCalls n turn := by
  refine ladderPlan_sound copies valid (Reduction.exscanRungs_brings valid receives)
    (Reduction.exscanRungs_apart valid short receives turn) (fun _ => Reduction.isErrand_of_mem_exscan)
    Reduction.exscanErrands_action ?_
  intro past w caller made arriving here
  have inRange := arriving.joining.bound caller List.mem_cons_self
  have given : ¬ ((reduction.send caller = .null ∨ (caller ≠ 0 ∧ reduction.recv caller = .null)) ∧
      (reduction.count : Int) ≠ 0) := by
    rintro ⟨missing | ⟨later, missing⟩, some⟩
    · exact some (by exact_mod_cast valid.given caller inRange missing)
    · exact some (by exact_mod_cast receives caller inRange later missing)
  refine (mpiIexscan_enters arriving given rfl (not_lt.mpr short)).mono ?_
  rintro result ⟨made', entered⟩
  rw [here] at entered
  refine ⟨_, made', ?_, ?_, entered⟩
  · unfold exscanInput
    by_cases brings : caller ≠ 0 ∧ reduction.send caller ≠ .inPlace
    · have copied := Reduction.copy_mem copies valid.bytesRange (w.claimed caller) ((reduction.send caller).loc caller)
        (reduction.target caller)
      have moves : reduction.exscanRungs.moves caller = true := decide_eq_true brings
      rw [if_pos brings, if_pos moves]
      simp only [Reduction.exscanRungs, if_pos brings.1, Reduction.source_eq_send brings.2]
      exact copied
    · rw [if_neg brings, if_neg (by simpa [Reduction.exscanRungs] using brings)]
      rfl
  · unfold exscanInput
    split <;> rfl

theorem Schedule.suits_ladder (n : Nat) : Schedule.ladder.Suits n where
  several := Or.inr rfl
  rootValid := fun root impossible => by cases impossible

/-- Every run of calls that follow the plan goes as planned. -/
theorem ladder_followed {rungs : Rungs} {loop : List Nat → List Errand} {calls : Nat → Call}
    (sound : (ladderPlan reduction rungs n (t % umpiOutstandingCollectiveOperations) loop
      origin.world.mem).Sound vm calls n (t % umpiOutstandingCollectiveOperations))
    (ready : origin.Ready n t) (limit : n ≤ 10000) (run : Reaches vm (once calls) origin s) :
    (ladderPlan reduction rungs n (t % umpiOutstandingCollectiveOperations) loop
      origin.world.mem).Followed n t origin s := by
  have start : (ladderPlan reduction rungs n (t % umpiOutstandingCollectiveOperations) loop
      origin.world.mem).stage [] origin.world.mem :=
    ⟨fun _ member => absurd member List.not_mem_nil, fun _ _ => rfl⟩
  exact sound.followed ready (Schedule.suits_ladder n) (by omega) start (fun _ _ => trivial) run

/-- What the last rank of a ladder leaves when it has climbed all cookies. -/
theorem ladder_finished {rungs : Rungs} {loop : List Nat → List Errand} {turn : Nat} {mem : Memory}
    (followed : (ladderPlan reduction rungs n turn loop mem).Followed n t origin s) (populated : 1 ≤ n)
    (complete : s.Complete) :
    ∃ gathered : Memory,
      (∀ rank < n, ∀ i < reduction.count, reduction.value gathered (rungs.place rank) i =
        reduction.value mem (rungs.inputAt rank) i) ∧
      s.world.mem = perform (loop (List.range' 1 (n - 1)))
        ((reduction.fetch rungs.place 0 (sendbuf turn)).effect gathered) := by
  obtain ⟨past, gathered, joining, full, staged, memory⟩ := followed.finished populated complete
  refine ⟨gathered, fun rank valid => staged.1 rank (joining.mem_of_full full valid), ?_⟩
  obtain ⟨more, rfl⟩ := Nat.exists_eq_add_of_le' populated
  rw [memory, ladderPlan, List.range_eq_range', List.range'_succ, Reduction.climb, perform_cons, perform_cons,
    Nat.add_sub_cancel]
  rfl

/-- When every call of a scan has returned every rank has the fold of the inputs up to its own. -/
theorem scan_folds {turn : Nat} {mem : Memory} (valid : reduction.Valid n) (short : reduction.Short)
    (receives : ∀ rank < n, reduction.Receives rank) (populated : 1 ≤ n)
    (followed : (ladderPlan reduction reduction.scanRungs n turn
      (reduction.scanErrands reduction.scanRungs turn) mem).Followed n t origin s) (complete : s.Complete) :
    ∀ rank < n, ∀ i < reduction.count, reduction.value s.world.mem (reduction.target rank) i =
      foldUpTo reduction.op.func (reduction.input mem i) rank := by
  obtain ⟨gathered, inputs, memory⟩ := ladder_finished followed populated complete
  have apart := Reduction.scanRungs_apart short receives turn
  have climbed : Climbed reduction reduction.scanRungs turn n (fun i => reduction.input mem i)
      (fun i => foldUpTo reduction.op.func (reduction.input mem i)) 0 0 _ :=
    Climbed.start apart populated inputs fun _ _ => rfl
  have results := climbed.scan apart valid.closed (fun _ _ _ _ => rfl) (n - 1) (by omega)
  rw [memory]
  exact results

/-- What an exscan adds up for rank 0: its input, or what is stored at `MPI_IN_PLACE` itself. -/
theorem exscan_shown (reduction : Reduction) (mem : Memory) (index rank : Nat) :
    reduction.value mem (reduction.exscanRungs.inputAt rank) index =
      if rank = 0 ∧ reduction.send 0 = .inPlace then reduction.value mem (Pointer.loc 0 .inPlace) index
      else reduction.input mem index rank := by
  by_cases lowest : rank = 0
  · subst lowest
    by_cases inPlace : reduction.send 0 = .inPlace
    · rw [if_pos ⟨rfl, inPlace⟩]
      simp only [Reduction.exscanRungs, ne_eq, not_true_eq_false, if_false, inPlace]
    · rw [if_neg fun both => inPlace both.2, Reduction.input, Reduction.source_eq_send inPlace]
      rfl
  · rw [if_neg fun both => lowest both.1]
    simp only [Reduction.exscanRungs, if_pos lowest]
    rfl

/-- When every call of an exscan has returned every rank but rank 0 has the fold of what is added up for the
    ranks before it. -/
theorem exscan_folds {turn : Nat} {mem : Memory} (valid : reduction.Valid n) (short : reduction.Short)
    (receives : ∀ rank < n, rank ≠ 0 → reduction.Receives rank) (populated : 1 ≤ n)
    (followed : (ladderPlan reduction reduction.exscanRungs n turn
      (reduction.exscanErrands reduction.exscanRungs turn) mem).Followed n t origin s) (complete : s.Complete) :
    ∀ rank < n, 0 < rank → ∀ i < reduction.count, reduction.value s.world.mem (reduction.target rank) i =
      foldUpTo reduction.op.func (fun other => reduction.value mem (reduction.exscanRungs.inputAt other) i)
        (rank - 1) := by
  obtain ⟨gathered, inputs, memory⟩ := ladder_finished followed populated complete
  have apart := Reduction.exscanRungs_apart valid short receives turn
  let shown : Nat → Nat → List UInt8 := fun i rank =>
    reduction.value mem (reduction.exscanRungs.inputAt rank) i
  have climbed : Climbed reduction reduction.exscanRungs turn n shown
      (fun i rank => if rank = 0 then shown i 0 else foldUpTo reduction.op.func (shown i) (rank - 1)) 0 0 _ :=
    Climbed.start apart populated inputs fun _ _ => rfl
  have results := climbed.exscan apart valid.closed (fun _ _ _ => rfl) (n - 1) (by omega)
  rw [← memory] at results
  intro rank inRange later i below
  have result := results rank inRange i below
  rwa [if_neg later.ne', show reduction.exscanRungs.place rank = reduction.target rank from
    if_pos later.ne'] at result

/-- These are the folds of the inputs if what is added up for rank 0 is its input. -/
theorem exscan_folds_inputs {mem : Memory} (condition : reduction.send 0 ≠ .inPlace ∨ ∀ i < reduction.count,
      reduction.value mem (Pointer.loc 0 .inPlace) i = reduction.input mem i 0) {i : Nat}
    (below : i < reduction.count) (rank : Nat) :
    foldUpTo reduction.op.func (fun other => reduction.value mem (reduction.exscanRungs.inputAt other) i) rank =
      foldUpTo reduction.op.func (reduction.input mem i) rank := by
  refine foldUpTo_congr fun place _ => ?_
  rw [exscan_shown]
  split
  case isTrue both =>
    rw [both.1]
    exact condition.resolve_left (not_not.mpr both.2) i below
  case isFalse => rfl

end Results

/-- In every run of `MPI_Iscan`: when every call has returned the receive buffer of every rank holds, element by
    element, the fold of the inputs of the ranks up to it, and every cookie of the operation has been notified
    exactly as often as it was made for. -/
theorem iscan_prefixes {vm : ProcessVm} (copies : CopiesAll vm) {reduction : Reduction} {n t : Nat}
    {origin s : Sys} (ready : origin.Ready n t) (populated : 1 ≤ n) (limit : n ≤ 10000)
    (valid : reduction.Valid n) (short : reduction.Short) (receives : ∀ rank < n, reduction.Receives rank)
    (run : Reaches vm (once reduction.scanCalls) origin s) (complete : s.Complete) :
    (∀ rank < n, ∀ i < reduction.count, reduction.value s.world.mem (reduction.target rank) i =
      foldUpTo reduction.op.func (reduction.input origin.world.mem i) rank) ∧
    ∀ id ∈ (s.world.slots (t % umpiOutstandingCollectiveOperations)).made,
      ((s.world.cookies id).notified : Int) = (s.world.cookies id).num := by
  have sound := scanPlan_sound copies valid short receives (t % umpiOutstandingCollectiveOperations)
    origin.world.mem
  have followed := ladder_followed sound ready limit run
  exact ⟨scan_folds valid short receives populated followed complete,
    followed.notified (Schedule.suits_ladder n) populated complete⟩

/-- In every run of `MPI_Iexscan`: when every call has returned the receive buffer of every rank but rank 0 holds
    the fold of the inputs of the ranks before it, if and only if rank 0 passes a send buffer, or what is stored at
    `MPI_IN_PLACE` itself happens to be the same as its input. -/
theorem iexscan_prefixes_iff {vm : ProcessVm} (copies : CopiesAll vm) {reduction : Reduction} {n t : Nat}
    {origin s : Sys} (ready : origin.Ready n t) (several : 2 ≤ n) (limit : n ≤ 10000)
    (valid : reduction.Valid n) (short : reduction.Short)
    (receives : ∀ rank < n, rank ≠ 0 → reduction.Receives rank)
    (run : Reaches vm (once reduction.exscanCalls) origin s) (complete : s.Complete) :
    (∀ rank < n, 0 < rank → ∀ i < reduction.count, reduction.value s.world.mem (reduction.target rank) i =
      foldUpTo reduction.op.func (reduction.input origin.world.mem i) (rank - 1)) ↔
    (reduction.send 0 ≠ .inPlace ∨ ∀ i < reduction.count,
      reduction.value origin.world.mem (Pointer.loc 0 .inPlace) i = reduction.input origin.world.mem i 0) := by
  have sound := exscanPlan_sound copies valid short receives (t % umpiOutstandingCollectiveOperations)
    origin.world.mem
  have held := exscan_folds valid short receives (by omega) (ladder_followed sound ready limit run) complete
  constructor
  · intro folds
    by_cases outOfPlace : reduction.send 0 ≠ .inPlace
    · exact Or.inl outOfPlace
    · refine Or.inr fun i below => ?_
      rw [not_not] at outOfPlace
      -- rank 1 has what is added up for rank 0
      have first := (held 1 (by omega) Nat.one_pos i below).symm.trans (folds 1 (by omega) Nat.one_pos i below)
      have shown := exscan_shown reduction origin.world.mem i 0
      rw [if_pos ⟨rfl, outOfPlace⟩] at shown
      exact shown.symm.trans first
  · intro condition rank inRange later i below
    rw [held rank inRange later i below]
    exact exscan_folds_inputs condition below (rank - 1)

/-- Two cookies that the later rank has left first change places. -/
theorem ladder_pair {w : World} {turn request later sooner : Nat} {count : Int} {iovec : Iovec}
    {loop : List Nat → List Action} (box : (w.slots turn).box = [later, sooner])
    (order : (w.cookies sooner).src < (w.cookies later).src) :
    ladder w turn request count iovec loop = .ok ((w.setBox turn []).unlock turn,
      { request := some request
        todo := [later, sooner]
        cont := .moveToPending sooner ::
          .readFromOwner sooner (sendbuf turn) iovec count 0 (.elems 0) (.elems 0) :: loop [later]
        ret := mpiSuccess }) := by
  have order' : (((w.setBox turn []).unlock turn).cookies sooner).src <
      (((w.setBox turn []).unlock turn).cookies later).src := order
  unfold ladder
  simp only [box]
  simp [List.mergeSort, List.MergeSort.Internal.splitInTwo, order'.not_ge]

/-- Two ranks with one character each, of which the second is already in place. -/
def charsToScan (op : UmpiOp) : Reduction where
  send := fun rank => if rank = 0 then .addr 8 else .inPlace
  recv := fun _ => .addr 0
  count := 1
  datatype := Datatype.mpiChar
  op := op

theorem charsToScan_valid {op : UmpiOp} (closed : op.Closed Datatype.mpiChar.iovec) (n : Nat) :
    (charsToScan op).Valid n where
  countRange := (by decide : 1 < 2 ^ 31)
  bytesRange := (by decide : 1 * Datatype.mpiChar.len < 2 ^ 63)
  given := by
    intro rank _ null
    simp only [charsToScan] at null
    split at null <;> cases null
  closed := closed

/-- The second rank ends up with the sum of both characters. -/
theorem iscan_prefixes_charsToScan :
    ∃ s, (Sys.init 2 fun location => if location = ⟨.heap 0, 8⟩ then 5 else 7).run copyingVm
        (once (charsToScan sumOp).scanCalls)
        [.call 1, .call 0, .act 0, .act 0, .act 0, .act 0, .act 0, .act 0] = .ok s ∧
      s.Complete ∧ (charsToScan sumOp).value s.world.mem ⟨.heap 1, 0⟩ 0 = [12] := by
  have runs : ∃ s, (Sys.init 2 fun location => if location = ⟨.heap 0, 8⟩ then 5 else 7).run copyingVm
      (once (charsToScan sumOp).scanCalls)
      [.call 1, .call 0, .act 0, .act 0, .act 0, .act 0, .act 0, .act 0] = .ok s ∧
      s.Complete := by
    refine ⟨?s, ?ran, ?complete⟩
    case ran =>
      show ((ladder _ _ _ _ _ _ >>= _) >>= _) = _
      rw [ladder_pair rfl (by decide)]
      rfl
    case complete => exact .of_checks rfl (by decide) (by decide) (by decide)
  obtain ⟨s, ran, complete⟩ := runs
  have results := (iscan_prefixes copyingVm_copies (ready_init 2 _) (by decide) (by decide)
    (charsToScan_valid sumOp_combines.closed 2) (by unfold Reduction.Short; decide) (fun _ _ null => by cases null)
    (reaches_of_run ran) complete).1 1 (by decide) 0 (by decide)
  exact ⟨s, ran, complete, results⟩

/-- The second rank ends up with the character of the first, which passed a send buffer. -/
theorem iexscan_prefixes_charsToScan :
    ∃ s, (Sys.init 2 fun location => if location = ⟨.heap 0, 8⟩ then 5 else 7).run copyingVm
        (once (charsToScan sumOp).exscanCalls)
        [.call 1, .call 0, .act 0, .act 0, .act 0, .act 0, .act 0] = .ok s ∧
      s.Complete ∧ (charsToScan sumOp).value s.world.mem ⟨.heap 1, 0⟩ 0 = [5] := by
  have runs : ∃ s, (Sys.init 2 fun location => if location = ⟨.heap 0, 8⟩ then 5 else 7).run copyingVm
      (once (charsToScan sumOp).exscanCalls)
      [.call 1, .call 0, .act 0, .act 0, .act 0, .act 0, .act 0] = .ok s ∧ s.Complete := by
    refine ⟨?s, ?ran, ?complete⟩
    case ran =>
      show ((ladder _ _ _ _ _ _ >>= _) >>= _) = _
      rw [ladder_pair rfl (by decide)]
      rfl
    case complete => exact .of_checks rfl (by decide) (by decide) (by decide)
  obtain ⟨s, ran, complete⟩ := runs
  have results := (iexscan_prefixes_iff copyingVm_copies (ready_init 2 _) (by decide) (by decide)
    (charsToScan_valid sumOp_combines.closed 2) (by unfold Reduction.Short; decide) (fun _ _ _ null => by cases null)
    (reaches_of_run ran) complete).mpr (Or.inl (by decide)) 1 (by decide) (by decide) 0 (by decide)
  exact ⟨s, ran, complete, results⟩

/-- Two ranks with one character each in place. The first one's is 7, but the second rank ends up with the byte
    that `MPI_IN_PLACE` points to. -/
theorem iexscan_prefixes_inPlace :
    ∃ s, (Sys.init 2 fun location => if location.region = .heap 0 then 7 else 0).run copyingVm
        (once { charsToScan sumOp with send := fun _ => .inPlace : Reduction }.exscanCalls)
        [.call 1, .call 0, .act 0, .act 0, .act 0, .act 0, .act 0] = .ok s ∧
      s.Complete ∧ s.world.mem ⟨.heap 0, 0⟩ = 7 ∧ s.world.mem ⟨.heap 1, 0⟩ = 0 := by
  refine ⟨?s, ?ran, ?complete, ?results⟩
  case ran =>
    show ((ladder _ _ _ _ _ _ >>= _) >>= _) = _
    rw [ladder_pair rfl (by decide)]
    rfl
  case complete => exact .of_checks rfl (by decide) (by decide) (by decide)
  case results => exact ⟨rfl, rfl⟩

end Umpi
