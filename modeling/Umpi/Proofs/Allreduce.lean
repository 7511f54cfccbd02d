/-
Module: Umpi.Proofs.Allreduce
Layer: Proofs
Purpose: What `MPI_Allreduce` computes. The total of the ranks that have joined travels with them. Without
  `MPI_IN_PLACE` it is in the receive buffer of the latest rank, which the next one reads through its cookie. With
  it the total is in `sendbuf_` until the last rank takes it into its receive buffer. `Accumulated` is the
  invariant for both. The last rank then passes the total on to all others.
Imports: Umpi.Proofs.Reductions
Trusted boundary: none
Main exports: Reduction.carrier, Accumulated, Reduction.accumulate, Reduction.allreduceCalls, allreducePlan,
  allreduce_totals
Open obligations: none
-/
import Umpi.Proofs.Reductions

namespace Umpi

open Foundation Sys

/-! ### The total on its way -/

namespace Reduction

/-- The buffer with the total of the ranks that have joined, the latest first. -/
def carrier (reduction : Reduction) (inPlace : Bool) (n turn : Nat) (past : List Nat) : Loc :=
  if inPlace = true ∧ past.length < n then sendbuf turn else reduction.target (past.headD 0)

/-- What a rank does to memory while it joins after the ranks of `past`. -/
def accumulate (reduction : Reduction) (inPlace : Bool) (n turn : Nat) (past : List Nat) (self : Nat)
    (mem : Memory) : Memory :=
  if inPlace = true then
    if past = [] then copyAll mem (reduction.view (reduction.target self)) (reduction.view (sendbuf turn))
    else
      let fetched := copyAll mem (reduction.view (sendbuf turn)) (reduction.view (recvbuf turn))
      if past.length + 1 ≠ n then
        copyAll
          (reduction.op.apply (reduction.target self) (recvbuf turn) reduction.datatype.iovec reduction.count fetched)
          (reduction.view (recvbuf turn)) (reduction.view (sendbuf turn))
      else reduction.op.apply (recvbuf turn) (reduction.target self) reduction.datatype.iovec reduction.count fetched
  else
    match past with
    | [] => copyAll mem (reduction.view (reduction.source self)) (reduction.view (reduction.target self))
    | previous :: _ =>
        reduction.op.apply (reduction.source self) (reduction.target self) reduction.datatype.iovec reduction.count
          (copyAll mem (reduction.view (reduction.target previous)) (reduction.view (reduction.target self)))

end Reduction

/-- The arguments that the ranks of an allreduce pass: either all pass `MPI_IN_PLACE`, with no more elements than
    the scratch buffers hold, or none does. -/
structure AllreduceArguments (reduction : Reduction) (n : Nat) (inPlace : Bool) : Prop where
  valid : reduction.Valid n
  receives : ∀ rank < n, reduction.Receives rank
  alike : ∀ rank < n, reduction.send rank = .inPlace ↔ inPlace = true
  short : inPlace = true → reduction.Short
  /-- A send buffer does not overlap the receive buffer. -/
  apart : ∀ rank < n, reduction.send rank ≠ .inPlace →
    (reduction.view ((reduction.send rank).loc rank)).Disjoint (reduction.view (reduction.target rank))

/-- Memory when the ranks of `past` have joined: the carrier has the total of their inputs, and only their receive
    buffers and the scratch buffers have changed. -/
structure Accumulated (reduction : Reduction) (inPlace : Bool) (n turn : Nat) (mem : Memory) (past : List Nat)
    (mem' : Memory) : Prop where
  sum : past ≠ [] → ∀ i < reduction.count, total reduction.op.func (reduction.input mem i) past =
    some (reduction.value mem' (reduction.carrier inPlace n turn past) i)
  untouched : ∀ location, (∀ rank ∈ past, location ∉ reduction.view (reduction.target rank)) →
    location ∉ reduction.view (sendbuf turn) → location ∉ reduction.view (recvbuf turn) →
    mem' location = mem location

section Accumulating

variable {reduction : Reduction} {inPlace : Bool} {n turn self : Nat} {past : List Nat} {mem mem' : Memory}

/-- Only the receive buffer of the rank and the scratch buffers change. -/
theorem Reduction.accumulate_of_notMem {location : Loc}
    (target : location ∉ reduction.view (reduction.target self))
    (send : location ∉ reduction.view (sendbuf turn)) (recv : location ∉ reduction.view (recvbuf turn)) :
    reduction.accumulate inPlace n turn past self mem location = mem location := by
  unfold Reduction.accumulate
  split
  case isTrue =>
    split
    case isTrue => exact copyAll_apply_of_notMem _ _ send
    case isFalse =>
      dsimp only
      split
      case isTrue =>
        rw [copyAll_apply_of_notMem _ _ send, reduction.op.apply_of_notMem _ _ recv,
          copyAll_apply_of_notMem _ _ recv]
      case isFalse => rw [reduction.op.apply_of_notMem _ _ target, copyAll_apply_of_notMem _ _ recv]
  case isFalse =>
    split
    case h_1 => exact copyAll_apply_of_notMem _ _ target
    case h_2 => rw [reduction.op.apply_of_notMem _ _ target, copyAll_apply_of_notMem _ _ target]

/-- A rank that has not joined still has its input. -/
theorem Accumulated.input (accumulated : Accumulated reduction inPlace n turn mem past mem')
    (arguments : AllreduceArguments reduction n inPlace) (joining : Schedule.Joining n (self :: past)) {i : Nat}
    (below : i < reduction.count) :
    reduction.value mem' (reduction.source self) i = reduction.input mem i self := by
  obtain ⟨pointer, located, -⟩ := reduction.source_cases self
  refine Reduction.value_congr (fun location member => accumulated.untouched location ?_ ?_ ?_) below
  · intro rank joined
    have valid : rank < n := joining.bound rank (List.mem_cons_of_mem self joined)
    have other : self ≠ rank := fun same => joining.fresh (same ▸ joined)
    exact reduction.source_disjoint_target other (arguments.receives rank valid) member
  · rw [located] at member
    exact Reduction.view_disjoint_scratch pointer self rfl member
  · rw [located] at member
    exact Reduction.view_disjoint_scratch pointer self rfl member

/-- The first rank starts the total with its input. -/
theorem Accumulated.start (arguments : AllreduceArguments reduction n inPlace)
    (joining : Schedule.Joining n [self]) (several : 2 ≤ n)
    (accumulated : Accumulated reduction inPlace n turn mem [] mem') {i : Nat} (below : i < reduction.count) :
    reduction.value (reduction.accumulate inPlace n turn [] self mem') (reduction.carrier inPlace n turn [self]) i =
      reduction.input mem i self := by
  have valid : self < n := joining.bound self List.mem_cons_self
  rw [← accumulated.input arguments joining below]
  by_cases scratch : inPlace = true
  · rw [Reduction.carrier, if_pos ⟨scratch, by rw [List.length_singleton]; omega⟩, Reduction.accumulate, if_pos scratch,
      if_pos rfl, Reduction.source_eq_target ((arguments.alike self valid).mpr scratch)]
    exact Reduction.value_copyAll mem' _ _ below
  · rw [Reduction.carrier, if_neg fun both => scratch both.1, Reduction.accumulate, if_neg scratch]
    exact Reduction.value_copyAll mem' _ _ below

/-- A later rank adds its input to the total. -/
theorem Accumulated.add (arguments : AllreduceArguments reduction n inPlace) (adds : reduction.Adds n mem)
    {previous : Nat}
    (joining : Schedule.Joining n (self :: previous :: past))
    (accumulated : Accumulated reduction inPlace n turn mem (previous :: past) mem') {i : Nat}
    (below : i < reduction.count) :
    reduction.value (reduction.accumulate inPlace n turn (previous :: past) self mem')
        (reduction.carrier inPlace n turn (self :: previous :: past)) i =
      reduction.op.func (reduction.input mem i self)
        (reduction.value mem' (reduction.carrier inPlace n turn (previous :: past)) i) := by
  have valid : self < n := joining.bound self List.mem_cons_self
  have partly : (previous :: past).length < n := joining.length_le
  have closed := arguments.valid.closed
  have input := accumulated.input arguments joining below
  by_cases scratch : inPlace = true
  · have inPlaced := (arguments.alike self valid).mpr scratch
    have scratchApart := Reduction.view_sendbuf_disjoint (arguments.short scratch) turn
    have targetApart : (reduction.view (reduction.target self)).Disjoint (reduction.view (recvbuf turn)) :=
      Reduction.view_disjoint_scratch (reduction.recv self) self rfl
    rw [Reduction.source_eq_target inPlaced] at input
    -- the total is fetched into `recvbuf_` first
    have fetched := Reduction.value_copyAll mem' (sendbuf turn) (recvbuf turn) below
    have kept := Reduction.value_copyAll_of_disjoint mem' (reduction.view (sendbuf turn)) targetApart below
    have carried := accumulated.sum (List.cons_ne_nil previous past) i below
    have carrier : reduction.carrier inPlace n turn (previous :: past) = sendbuf turn := if_pos ⟨scratch, partly⟩
    rw [carrier] at carried ⊢
    rw [Reduction.accumulate, if_pos scratch, if_neg (List.cons_ne_nil previous past)]
    by_cases last : (previous :: past).length + 1 = n
    · have full : reduction.carrier inPlace n turn (self :: previous :: past) = reduction.target self :=
        if_neg fun both => absurd last both.2.ne
      rw [full, if_neg (not_not.mpr last), Reduction.value_apply closed _ targetApart.symm below, fetched, kept, input]
      exact (adds i below).comm _ self _ joining.nodup joining.bound carried
    · have more : reduction.carrier inPlace n turn (self :: previous :: past) = sendbuf turn :=
        if_pos ⟨scratch, lt_of_le_of_ne partly last⟩
      rw [more, if_pos last, Reduction.value_copyAll _ _ _ below, Reduction.value_apply closed _ targetApart below,
        fetched, kept, input]
  · have outOfPlace : reduction.send self ≠ .inPlace := fun same => scratch ((arguments.alike self valid).mp same)
    have apart := arguments.apart self valid outOfPlace
    rw [← Reduction.source_eq_send outOfPlace] at apart
    rw [Reduction.carrier, if_neg fun both => scratch both.1, Reduction.carrier, if_neg fun both => scratch both.1,
      Reduction.accumulate, if_neg scratch]
    simp only [List.headD_cons]
    rw [Reduction.value_apply closed _ apart below, Reduction.value_copyAll _ _ _ below,
      Reduction.value_copyAll_of_disjoint _ _ apart below, input]

/-- One more rank joins. -/
theorem Accumulated.join (arguments : AllreduceArguments reduction n inPlace) (adds : reduction.Adds n mem)
    (several : 2 ≤ n) (joining : Schedule.Joining n (self :: past))
    (accumulated : Accumulated reduction inPlace n turn mem past mem') :
    Accumulated reduction inPlace n turn mem (self :: past)
      (reduction.accumulate inPlace n turn past self mem') where
  sum := by
    intro _ i below
    cases past with
    | nil => rw [total_singleton, accumulated.start arguments joining several below]
    | cons previous past =>
        have before := accumulated.sum (List.cons_ne_nil previous past) i below
        rw [total_cons before, accumulated.add arguments adds joining below]
  untouched := by
    intro location targets send recv
    rw [Reduction.accumulate_of_notMem (targets self List.mem_cons_self) send recv]
    exact accumulated.untouched location (fun rank joined => targets rank (List.mem_cons_of_mem self joined)) send recv

end Accumulating

/-! ### The calls -/

section Calls

variable {vm : ProcessVm} {reduction : Reduction} {inPlace : Bool} {n turn self : Nat} {past : List Nat}
  {mem : Memory} {w : World} {made : Nat → Nat}

/-- The first part of `allreduce_request`, when the slot has been claimed. -/
theorem allreduceAccumulate_moves (copies : CopiesAll vm) (arguments : AllreduceArguments reduction n inPlace)
    (claimed : Claimed (.chain inPlace) n past w turn made) (joining : Schedule.Joining n (self :: past))
    (agreed : inPlace = true → past ≠ [] →
      (w.slots turn).iovec = some reduction.datatype.iovec ∧ (w.slots turn).count = reduction.count)
    (shows : ∀ rank ∈ past, (w.cookies (made rank)).Shows
      { buf := reduction.target rank
        iovec := reduction.datatype.iovec
        size := reduction.count
        count := reduction.count }) :
    ∃ mid, allreduceAccumulate vm w self turn (reduction.send self) (reduction.target self) reduction.count
        reduction.datatype.iovec reduction.op = .ok (mid, mpiSuccess) ∧
      mid.mem = reduction.accumulate inPlace n turn past self w.mem ∧
      (inPlace = true →
        (mid.slots turn).iovec = some reduction.datatype.iovec ∧ (mid.slots turn).count = reduction.count) ∧
      ∀ id, (mid.cookies id).count = (w.cookies id).count := by
  have valid : self < n := joining.bound self List.mem_cons_self
  have partly : past.length ≠ n := Nat.ne_of_lt joining.length_le
  have bytesRange := arguments.valid.bytesRange
  unfold allreduceAccumulate Reduction.accumulate
  by_cases scratch : inPlace = true
  · simp only [(arguments.alike self valid).mpr scratch, scratch, if_true, claimed.joinedFirst, claimed.joinedLast]
    by_cases first : past = []
    · simp only [first, decide_true, if_true]
      exact ⟨_, rfl, Reduction.copy_mem copies bytesRange _ _ _, fun _ => by simp [World.copy], fun _ => rfl⟩
    · obtain ⟨layout, amount⟩ := agreed scratch first
      simp only [first, decide_false, Bool.false_eq_true, if_false, layout, amount, deref, Outcome.ok_bind]
      by_cases last : past.length + 1 = n
      · simp only [last, decide_true, not_true_eq_false, ne_eq, if_false]
        refine ⟨_, rfl, ?_, fun _ => ⟨layout, amount⟩, fun _ => rfl⟩
        show reduction.op.apply _ _ _ _ (w.copy _ _ _ _ _ _ _ _ _).mem = _
        rw [Reduction.copy_mem copies bytesRange, Int.toNat_natCast]
      · simp only [last, decide_false, Bool.false_eq_true, not_false_eq_true, ne_eq, if_true]
        refine ⟨_, rfl, ?_, fun _ => by simp [World.copy], fun _ => rfl⟩
        rw [Reduction.copy_mem copies bytesRange]
        show copyAll (reduction.op.apply _ _ _ _ (w.copy _ _ _ _ _ _ _ _ _).mem) _ _ = _
        rw [Reduction.copy_mem copies bytesRange, Int.toNat_natCast]
  · have outOfPlace : reduction.send self ≠ .inPlace := fun same => scratch ((arguments.alike self valid).mp same)
    simp only [if_neg outOfPlace, if_neg scratch, claimed.joinedFirst]
    cases past with
    | nil =>
        simp only [decide_true, if_true, Reduction.source_eq_send outOfPlace]
        exact ⟨_, rfl, Reduction.copy_mem copies bytesRange _ _ _, fun impossible => absurd impossible scratch,
          fun _ => rfl⟩
    | cons previous past =>
        have box : (w.slots turn).box.getLast? = some (made previous) := by
          rw [claimed.box]
          simp [Schedule.box, List.length_cons ▸ partly]
        obtain ⟨done, read, success, moved⟩ := readFromOwner_shown copies rfl (Or.inl rfl)
          (shows previous List.mem_cons_self) rfl bytesRange arguments.valid.countRange (reduction.target self)
        simp only [reduceCtorEq, decide_false, Bool.false_eq_true, if_false, box, read, Outcome.ok_bind, success,
          ne_eq, not_true_eq_false, Reduction.source_eq_send outOfPlace]
        refine ⟨_, rfl, ?_, fun impossible => absurd impossible scratch, readFromOwner_count read⟩
        show reduction.op.apply _ _ _ _ done.world.mem = _
        rw [moved]
        rfl

end Calls

/-! ### The plan -/

namespace Reduction

/-- The loop of `allreduce_request`. -/
def spread (reduction : Reduction) (last : Nat) (ranks : List Nat) : List Errand :=
  ranks.flatMap fun rank =>
    [Errand.retire rank, reduction.deliver reduction.target rank (reduction.target last)]

/-- Every rank takes part in the allreduce. -/
def allreduceCalls (reduction : Reduction) (rank : Nat) : Call :=
  .blockingAllreduce (reduction.send rank) (reduction.recv rank) reduction.count (some reduction.datatype.iovec)
    (some reduction.op) .world

theorem spread_action (reduction : Reduction) (made : Nat → Nat) (last : Nat) (ranks : List Nat) :
    (reduction.spread last ranks).map (fun errand => errand.action made) =
      serve (fun id => .writeToOwner id (reduction.target last) reduction.datatype.iovec reduction.count (.elems 0)
        (.elems 0)) (ranks.map made) := by
  rw [spread, List.map_flatMap, serve, List.flatMap_map]
  rfl

end Reduction

/-- The ranks accumulate the total, and the last one passes it on. -/
def allreducePlan (reduction : Reduction) (inPlace : Bool) (n turn : Nat) (mem : Memory) : UnrootedPlan where
  schedule := .chain inPlace
  offer := fun rank =>
    { buf := reduction.target rank
      iovec := reduction.datatype.iovec
      size := reduction.count
      count := reduction.count }
  stage := Accumulated reduction inPlace n turn mem
  agreed := fun past iovec count => inPlace = true → past ≠ [] →
    iovec = some reduction.datatype.iovec ∧ count = reduction.count
  errands := fun past =>
    match past with
    | [] => []
    | last :: before => reduction.spread last before.reverse

section Plan

variable {vm : ProcessVm} {reduction : Reduction} {inPlace : Bool} {n turn : Nat} {mem : Memory}

/-- Before the last rank joins all cookies are in the box. -/
theorem Schedule.mem_box_chain {past : List Nat} (partly : past.length < n) {rank : Nat} (joined : rank ∈ past) :
    rank ∈ (Schedule.chain inPlace).box n past := by
  simp [Schedule.box, partly.ne, joined]

theorem Schedule.suits_chain (inPlace : Bool) (several : 2 ≤ n) : (Schedule.chain inPlace).Suits n where
  several := Or.inl several
  rootValid := fun root impossible => by cases impossible

/-- The calls follow the plan. -/
theorem allreducePlan_sound (copies : CopiesAll vm) (arguments : AllreduceArguments reduction n inPlace)
    (adds : reduction.Adds n mem) (several : 2 ≤ n) :
    (allreducePlan reduction inPlace n turn mem).Sound vm reduction.allreduceCalls n turn where
  arrives := by
    intro past w caller made arriving here staged agreed offers
    have inRange : caller < n := arriving.joining.bound caller List.mem_cons_self
    have partly : past.length < n := arriving.joining.length_le
    have placed : decide (reduction.send caller = .inPlace) = inPlace := by
      rw [Bool.eq_iff_iff, decide_eq_true_iff]
      exact arguments.alike caller inRange
    have claimed := arriving.claimed
    rw [here] at claimed
    have slot : ((w.claimed caller).slots turn).iovec = (w.slots turn).iovec ∧
        ((w.claimed caller).slots turn).count = (w.slots turn).count := by
      subst here
      simp [World.claimed, World.turnOf]
    have shows : ∀ rank ∈ past, ((w.claimed caller).cookies (made rank)).Shows
        { buf := reduction.target rank
          iovec := reduction.datatype.iovec
          size := reduction.count
          count := reduction.count } := by
      intro rank joined
      have offered := offers rank (Schedule.mem_box_chain partly joined)
      exact { buf := offered.buf, iovec := offered.iovec, size := offered.size }
    obtain ⟨mid, moved, memory, agreed', counted⟩ := allreduceAccumulate_moves copies arguments claimed
      arriving.joining (by rw [slot.1, slot.2]; exact agreed) shows
    have given : ¬ ((reduction.send caller = .null ∨ reduction.recv caller = .null) ∧
        (reduction.count : Int) ≠ 0) := by
      rintro ⟨missing | missing, some⟩
      · exact some (by exact_mod_cast arguments.valid.given caller inRange missing)
      · exact some (by exact_mod_cast arguments.receives caller inRange missing)
    have fits : tooLongInPlace (reduction.send caller) reduction.count reduction.datatype.iovec = false := by
      rw [tooLongInPlace, decide_eq_false_iff_not]
      rintro ⟨scratch, long⟩
      exact absurd (arguments.short ((arguments.alike caller inRange).mp scratch)) (not_le.mpr long)
    show (mpiAllreduce vm w caller (reduction.send caller) (reduction.recv caller) reduction.count
      (some reduction.datatype.iovec) (some reduction.op) .world).Yields _
    rw [mpiAllreduce_eq (by rw [arriving.size]; omega)]
    refine (mpiIallreduce_enters (by rw [placed]; exact arriving) given rfl fits).mono ?_
    rintro result ⟨mid', ret, moved', -, succeeded⟩
    rw [here] at moved'
    obtain ⟨rfl, rfl⟩ := Prod.mk.inj (Outcome.ok.inj (moved.symm.trans moved'))
    obtain ⟨made', entered⟩ := succeeded rfl
    rw [placed] at entered
    refine ⟨mid, made', ?_, fun scratch _ => agreed' scratch, counted, ?_⟩
    · rw [memory]
      exact staged.join arguments adds several arriving.joining
    · have left : ((allreducePlan reduction inPlace n turn mem).left n (caller :: past)).map
          (fun errand => errand.action made') =
          if past.length + 1 = n then
            serve (fun id => .writeToOwner id ((reduction.recv caller).loc caller) reduction.datatype.iovec
              reduction.count (.elems 0) (.elems 0)) (past.reverse.map made)
          else [] := by
        by_cases last : past.length + 1 = n
        · have full : (caller :: past).length = n := last
          rw [UnrootedPlan.left_of_full _ full, if_pos last, ← arriving.map_earlier entered.settles.madeOthers]
          exact reduction.spread_action made' caller past.reverse
        · have more : (caller :: past).length < n := lt_of_le_of_ne arriving.joining.length_le last
          rw [UnrootedPlan.left_of_lt _ more, if_neg last]
          rfl
      rw [left]
      exact entered
  runs := by
    intro last before joining full errand member w made shown
    obtain ⟨rank, listed, step⟩ := List.mem_flatMap.mp member
    have earlier : rank ∈ before := List.mem_reverse.mp listed
    have other : rank ≠ last := fun same => joining.fresh (same ▸ earlier)
    have partly : before.length < n := joining.length_le
    obtain ⟨k, makes⟩ := Option.isSome_iff_exists.mp (Schedule.numOf_of_mem_box joining.tail
      (Schedule.suits_chain inPlace several) (Schedule.mem_box_chain partly earlier))
    have shows := shown rank k ((Ledger.numOf_other other).trans makes)
    simp only [List.mem_cons, List.not_mem_nil, or_false] at step
    rcases step with rfl | rfl
    · exact ⟨_, rfl, rfl, rfl⟩
    · exact reduction.deliver_works copies arguments.valid.bytesRange shows _ last

end Plan

/-! ### The last rank passes the total on -/

section Spreading

variable {reduction : Reduction} {n last : Nat} {ranks : List Nat}

theorem Reduction.perform_spread_cons (reduction : Reduction) (last rank : Nat) (ranks : List Nat) (mem : Memory) :
    perform (reduction.spread last (rank :: ranks)) mem =
      perform (reduction.spread last ranks)
        (copyAll mem (reduction.view (reduction.target last)) (reduction.view (reduction.target rank))) := rfl

/-- Only the receive buffers of the others change. -/
theorem Reduction.spread_of_notMem (mem : Memory) {location : Loc}
    (outside : ∀ rank ∈ ranks, location ∉ reduction.view (reduction.target rank)) :
    perform (reduction.spread last ranks) mem location = mem location := by
  induction ranks generalizing mem with
  | nil => rfl
  | cons rank ranks ih =>
      rw [reduction.perform_spread_cons, ih _ fun other listed => outside other (List.mem_cons_of_mem rank listed)]
      exact copyAll_apply_of_notMem _ _ (outside rank List.mem_cons_self)

/-- Every other rank gets what the last one has. -/
theorem Reduction.value_spread (receives : ∀ rank < n, reduction.Receives rank) (nodup : (last :: ranks).Nodup)
    (valid : ∀ rank ∈ last :: ranks, rank < n) (mem : Memory) {i : Nat} (below : i < reduction.count) :
    ∀ rank ∈ last :: ranks, reduction.value (perform (reduction.spread last ranks) mem) (reduction.target rank) i =
      reduction.value mem (reduction.target last) i := by
  induction ranks generalizing mem with
  | nil =>
      intro rank member
      rw [List.mem_singleton.mp member]
      rfl
  | cons next ranks ih =>
      obtain ⟨fresh, distinct⟩ := List.nodup_cons.mp nodup
      obtain ⟨freshNext, distinctRest⟩ := List.nodup_cons.mp distinct
      have lastNext : last ≠ next := fun same => fresh (same ▸ List.mem_cons_self)
      have rest : (last :: ranks).Nodup :=
        List.nodup_cons.mpr ⟨fun listed => fresh (List.mem_cons_of_mem next listed), distinctRest⟩
      have validRest : ∀ rank ∈ last :: ranks, rank < n := by
        intro rank member
        rcases List.mem_cons.mp member with rfl | listed
        · exact valid rank List.mem_cons_self
        · exact valid rank (List.mem_cons_of_mem last (List.mem_cons_of_mem next listed))
      have validNext : next < n := valid next (List.mem_cons_of_mem last List.mem_cons_self)
      have apart : (reduction.view (reduction.target last)).Disjoint (reduction.view (reduction.target next)) :=
        view_disjoint_of_rank lastNext (receives last (valid last List.mem_cons_self))
      have kept := value_copyAll_of_disjoint mem (reduction.view (reduction.target last)) apart below
      have later := ih rest validRest
        (copyAll mem (reduction.view (reduction.target last)) (reduction.view (reduction.target next)))
      intro rank member
      rw [perform_spread_cons]
      by_cases here : rank = next
      · -- what the next rank has been given is not written over
        subst here
        rw [← value_copyAll mem (reduction.target last) (reduction.target rank) below]
        refine value_congr (fun location inside => spread_of_notMem _ fun other listed => ?_) below
        have different : rank ≠ other := fun same => freshNext (same ▸ listed)
        exact view_disjoint_of_rank different (receives rank validNext) inside
      · have remains : rank ∈ last :: ranks := by
          rcases List.mem_cons.mp member with rfl | listed
          · exact List.mem_cons_self
          · exact List.mem_cons_of_mem last ((List.mem_cons.mp listed).resolve_left here)
        rw [later rank remains, kept]

end Spreading

/-- No send buffer overlaps a receive buffer. -/
theorem AllreduceArguments.send_disjoint {reduction : Reduction} {n : Nat} {inPlace : Bool}
    (arguments : AllreduceArguments reduction n inPlace) {rank : Nat} (valid : rank < n)
    (outOfPlace : reduction.send rank ≠ .inPlace) {other : Nat} (inRange : other < n) :
    (reduction.view ((reduction.send rank).loc rank)).Disjoint (reduction.view (reduction.target other)) := by
  by_cases same : rank = other
  · subst same
    exact arguments.apart rank valid outOfPlace
  · exact Reduction.view_disjoint_of_rank same (arguments.valid.given rank valid)

/-- What an allreduce is for: every receive buffer has the total, and the send buffers are as they were. -/
structure Allreduced (reduction : Reduction) (n : Nat) (mem mem' : Memory) : Prop where
  total : ∀ rank < n, ∀ i < reduction.count, reduction.value mem' (reduction.target rank) i =
    foldUpTo reduction.op.func (reduction.input mem i) (n - 1)
  unchanged : ∀ rank < n, reduction.send rank ≠ .inPlace →
    ∀ location ∈ reduction.view ((reduction.send rank).loc rank), mem' location = mem location

section Results

variable {vm : ProcessVm} {reduction : Reduction} {inPlace : Bool} {n t : Nat} {origin s : Sys}

/-- When everybody has joined the last rank has the total of all, and passes it on. -/
theorem Accumulated.finish {turn : Nat} {mem gathered : Memory} {last : Nat} {before : List Nat}
    (accumulated : Accumulated reduction inPlace n turn mem (last :: before) gathered)
    (arguments : AllreduceArguments reduction n inPlace) (adds : reduction.Adds n mem)
    (joining : Schedule.Joining n (last :: before))
    (full : (last :: before).length = n) :
    Allreduced reduction n mem (perform (reduction.spread last before.reverse) gathered) where
  total := by
    intro rank valid i below
    have nodup : (last :: before.reverse).Nodup :=
      List.nodup_cons.mpr ⟨by rw [List.mem_reverse]; exact joining.fresh, List.nodup_reverse.mpr joining.tail.nodup⟩
    have inRange : ∀ other ∈ last :: before.reverse, other < n := by
      intro other member
      refine joining.bound other ?_
      simpa using member
    have member : rank ∈ last :: before.reverse := by
      simpa using joining.mem_of_full full valid
    have carried := accumulated.sum (List.cons_ne_nil last before) i below
    have all : (last :: before).Perm (List.range (n - 1 + 1)) := by
      rw [Nat.sub_add_cancel (by omega)]
      exact joining.perm_range full
    rw [(adds i below).total_eq_foldUpTo (Nat.sub_one_lt_of_lt valid) all, Option.some.injEq] at carried
    rw [Reduction.value_spread arguments.receives nodup inRange gathered below rank member, carried, Reduction.carrier,
      if_neg fun both => absurd full both.2.ne]
    rfl
  unchanged := by
    intro rank valid outOfPlace location member
    have apart : ∀ other < n, location ∉ reduction.view (reduction.target other) := fun other inRange =>
      arguments.send_disjoint valid outOfPlace inRange member
    rw [Reduction.spread_of_notMem gathered fun other listed => apart other
      (joining.bound other (List.mem_cons_of_mem last (List.mem_reverse.mp listed)))]
    refine accumulated.untouched location (fun other joined => apart other (joining.bound other joined)) ?_ ?_
    · exact Reduction.view_disjoint_scratch (reduction.send rank) rank rfl member
    · exact Reduction.view_disjoint_scratch (reduction.send rank) rank rfl member

/-- Every run of calls that follow the plan goes as planned. -/
theorem allreduce_followed {calls : Nat → Call} (ready : origin.Ready n t) (several : 2 ≤ n) (limit : n ≤ 10000)
    (sound : (allreducePlan reduction inPlace n (t % umpiOutstandingCollectiveOperations) origin.world.mem).Sound
      vm calls n (t % umpiOutstandingCollectiveOperations)) (run : Reaches vm (once calls) origin s) :
    (allreducePlan reduction inPlace n (t % umpiOutstandingCollectiveOperations) origin.world.mem).Followed n t
      origin s := by
  have start : Accumulated reduction inPlace n (t % umpiOutstandingCollectiveOperations) origin.world.mem []
      origin.world.mem :=
    { sum := fun impossible => absurd rfl impossible
      untouched := fun _ _ _ _ => rfl }
  exact sound.followed ready (Schedule.suits_chain inPlace several) (by omega) start
    (fun _ _ _ impossible => absurd rfl impossible) run

/-- When every call has returned the total is everywhere. -/
theorem allreduced_of_followed {turn : Nat} {mem : Memory} (arguments : AllreduceArguments reduction n inPlace)
    (adds : reduction.Adds n mem) (several : 2 ≤ n)
    (followed : (allreducePlan reduction inPlace n turn mem).Followed n t origin s) (complete : s.Complete) :
    Allreduced reduction n mem s.world.mem := by
  obtain ⟨past, gathered, joining, full, staged, memory⟩ := followed.finished (by omega) complete
  obtain ⟨last, before, rfl⟩ : ∃ last before, past = last :: before :=
    List.exists_cons_of_length_pos (by omega)
  rw [memory]
  exact staged.finish arguments adds joining full

/-- In every run of several ranks whose inputs can be added in any order. -/
theorem allreduced_of_adds (copies : CopiesAll vm) (arguments : AllreduceArguments reduction n inPlace)
    (ready : origin.Ready n t) (several : 2 ≤ n) (limit : n ≤ 10000) (adds : reduction.Adds n origin.world.mem)
    (run : Reaches vm (once reduction.allreduceCalls) origin s) (complete : s.Complete) :
    Allreduced reduction n origin.world.mem s.world.mem :=
  allreduced_of_followed arguments adds several
    (allreduce_followed ready several limit (allreducePlan_sound copies arguments adds several) run) complete

/-- In every run of several ranks. -/
theorem allreduced_of_several (copies : CopiesAll vm) (arguments : AllreduceArguments reduction n inPlace)
    (combines : reduction.op.Combines reduction.datatype.iovec) (ready : origin.Ready n t) (several : 2 ≤ n)
    (limit : n ≤ 10000) (run : Reaches vm (once reduction.allreduceCalls) origin s) (complete : s.Complete) :
    Allreduced reduction n origin.world.mem s.world.mem :=
  allreduced_of_adds copies arguments ready several limit (Reduction.adds_of_combines combines n _) run complete

/-- Memory after a single process has copied its input. -/
def Reduction.copied (reduction : Reduction) (mem : Memory) : Memory :=
  if reduction.send 0 = .inPlace then mem
  else copyAll mem (reduction.view (reduction.source 0)) (reduction.view (reduction.target 0))

/-- The state of a process that is alone, before and after its call. -/
structure Alone (reduction : Reduction) (origin s : Sys) : Prop where
  size : s.world.size = 1
  idle : ∀ rank, (s.ranks rank).cont = [] ∧ (s.ranks rank).requests = []
  memory : s.world.mem = if (s.ranks 0).pos = 0 then origin.world.mem else reduction.copied origin.world.mem

/-- A single process copies its input, and returns without a request. -/
theorem allreduce_alone_enters (copies : CopiesAll vm) (arguments : AllreduceArguments reduction 1 inPlace)
    {w : World} (size : w.size = 1) :
    ∃ w', (reduction.allreduceCalls 0).enter vm w 0 =
        .ok (w', { request := none, todo := [], cont := [], ret := mpiSuccess }) ∧ w'.size = 1 ∧
      w'.mem = reduction.copied w.mem := by
  have given : ¬ (((reduction.send 0 = .null ∨ reduction.recv 0 = .null) ∧ (reduction.count : Int) ≠ 0) ∨
      MpiComm.world ≠ .world) := by
    rintro (⟨missing | missing, some⟩ | impossible)
    · exact some (by exact_mod_cast arguments.valid.given 0 Nat.one_pos missing)
    · exact some (by exact_mod_cast arguments.receives 0 Nat.one_pos missing)
    · exact impossible rfl
  show ∃ w', mpiAllreduce vm w 0 (reduction.send 0) (reduction.recv 0) reduction.count
    (some reduction.datatype.iovec) (some reduction.op) .world = _ ∧ _
  simp only [mpiAllreduce, if_neg given, if_pos size, Reduction.copied]
  by_cases scratch : reduction.send 0 = .inPlace
  · simp only [scratch, ne_eq, not_true_eq_false, if_false, if_true]
    exact ⟨w, rfl, size, rfl⟩
  · simp only [scratch, ne_eq, not_false_eq_true, if_true, if_false, Reduction.source_eq_send scratch]
    exact ⟨_, rfl, size, Reduction.copy_mem copies arguments.valid.bytesRange w _ _⟩

/-- Its call moves the input once. -/
theorem Alone.call (copies : CopiesAll vm) (arguments : AllreduceArguments reduction 1 inPlace) {s' : Sys} {self : Nat}
    (alone : Alone reduction origin s) (stepped : s.step vm (once reduction.allreduceCalls) (.call self) = .ok s') :
    Alone reduction origin s' := by
  obtain ⟨call, w, frame, valid, _, listed, entered, rfl⟩ := step_call stepped
  rw [alone.size] at valid
  obtain rfl : self = 0 := by omega
  obtain ⟨first, rfl⟩ : (s.ranks 0).pos = 0 ∧ reduction.allreduceCalls 0 = call := by
    unfold once at listed
    split at listed
    case isTrue first => exact ⟨first, Option.some.inj listed⟩
    case isFalse => cases listed
  obtain ⟨w', entered', size, memory⟩ := allreduce_alone_enters copies arguments alone.size
  obtain ⟨rfl, rfl⟩ := Prod.mk.inj (Outcome.ok.inj (entered.symm.trans entered'))
  have before := alone.memory
  rw [if_pos first] at before
  refine { size := size, idle := fun rank => ?_, memory := ?_ }
  · by_cases own : rank = 0
    · subst own
      simpa [RankState.enter] using (alone.idle 0).2
    · simpa [own] using alone.idle rank
  · simpa [RankState.enter, before] using memory

/-- Every step keeps to that. -/
theorem Alone.of_reaches (copies : CopiesAll vm) (arguments : AllreduceArguments reduction 1 inPlace)
    (ready : origin.Ready 1 t) (run : Reaches vm (once reduction.allreduceCalls) origin s) :
    Alone reduction origin s := by
  induction run with
  | refl =>
      exact
        { size := ready.size
          idle := fun rank => by simp [ready.idle, RankState.new]
          memory := by simp [ready.idle, RankState.new] }
  | tail label _ stepped ih =>
      cases label with
      | call self => exact ih.call copies arguments stepped
      | act self =>
          obtain ⟨action, rest, done, todo, _⟩ := step_act stepped
          rw [(ih.idle self).1] at todo
          cases todo
      | wait self id =>
          obtain ⟨_, held, _⟩ := step_wait stepped
          rw [(ih.idle self).2] at held
          exact absurd held List.not_mem_nil

/-- In every run of a single process. -/
theorem allreduced_of_alone (copies : CopiesAll vm) (arguments : AllreduceArguments reduction 1 inPlace)
    (ready : origin.Ready 1 t) (run : Reaches vm (once reduction.allreduceCalls) origin s) (complete : s.Complete) :
    Allreduced reduction 1 origin.world.mem s.world.mem := by
  have alone := Alone.of_reaches copies arguments ready run
  have called := complete.called 0 (by rw [alone.size]; exact Nat.one_pos)
  have memory := alone.memory
  rw [called, if_neg Nat.one_ne_zero] at memory
  refine { total := fun rank valid i below => ?_, unchanged := fun rank valid outOfPlace location member => ?_ }
  · obtain rfl : rank = 0 := by omega
    rw [memory, Reduction.copied]
    split
    case isTrue scratch =>
      show _ = reduction.value origin.world.mem (reduction.source 0) i
      rw [Reduction.source_eq_target scratch]
    case isFalse => exact Reduction.value_copyAll _ _ _ below
  · obtain rfl : rank = 0 := by omega
    rw [memory, Reduction.copied, if_neg outOfPlace]
    exact copyAll_apply_of_notMem _ _ (arguments.apart 0 Nat.one_pos outOfPlace member)

end Results

/-- In every run of `MPI_Allreduce`, whether all ranks pass `MPI_IN_PLACE` or none does: when every call has
    returned, the receive buffer of every rank holds, element by element, the total of the inputs of all ranks, and
    the send buffers are unchanged. -/
theorem allreduce_totals {vm : ProcessVm} (copies : CopiesAll vm) {reduction : Reduction} {inPlace : Bool}
    {n t : Nat} {origin s : Sys} (ready : origin.Ready n t) (populated : 1 ≤ n) (limit : n ≤ 10000)
    (arguments : AllreduceArguments reduction n inPlace)
    (combines : reduction.op.Combines reduction.datatype.iovec)
    (run : Reaches vm (once reduction.allreduceCalls) origin s) (complete : s.Complete) :
    (∀ rank < n, ∀ i < reduction.count, reduction.value s.world.mem (reduction.target rank) i =
      foldUpTo reduction.op.func (reduction.input origin.world.mem i) (n - 1)) ∧
    ∀ rank < n, reduction.send rank ≠ .inPlace →
      ∀ location ∈ reduction.view ((reduction.send rank).loc rank),
        s.world.mem location = origin.world.mem location := by
  have result : Allreduced reduction n origin.world.mem s.world.mem := by
    by_cases several : 2 ≤ n
    · exact allreduced_of_several copies arguments combines ready several limit run complete
    · obtain rfl : n = 1 := by omega
      exact allreduced_of_alone copies arguments ready run complete
  exact ⟨result.total, result.unchanged⟩

/-- Two ranks that add up one character each. -/
def charsToReduce : Reduction where
  send := fun _ => .addr 8
  recv := fun _ => .addr 0
  count := 1
  datatype := Datatype.mpiChar
  op := sumOp

theorem charsToReduce_arguments (n : Nat) : AllreduceArguments charsToReduce n false where
  valid :=
    { countRange := (by decide : 1 < 2 ^ 31)
      bytesRange := (by decide : 1 * Datatype.mpiChar.len < 2 ^ 63)
      given := fun _ _ null => by cases null
      closed := sumOp_combines.closed }
  receives := fun _ _ null => by cases null
  alike := fun rank _ => by simp [charsToReduce]
  short := fun impossible => by cases impossible
  apart := by
    intro rank _ _ location sent received
    have here : location = ⟨.heap rank, 8⟩ := List.mem_singleton.mp sent
    have there : location = ⟨.heap rank, 0⟩ := List.mem_singleton.mp received
    have same : (8 : Int) = 0 := congrArg Loc.addr (here.symm.trans there)
    exact absurd same (by decide)

/-- The rank that joins first ends up with the sum of both characters. -/
theorem allreduce_totals_charsToReduce :
    ∃ s, (Sys.init 2 fun location => if location.region = .heap 0 then 5 else 7).run copyingVm
        (once charsToReduce.allreduceCalls) [.call 1, .call 0, .act 0, .act 0] = .ok s ∧
      s.Complete ∧ charsToReduce.value s.world.mem ⟨.heap 1, 0⟩ 0 = [12] := by
  have runs : ∃ s, (Sys.init 2 fun location => if location.region = .heap 0 then 5 else 7).run copyingVm
      (once charsToReduce.allreduceCalls) [.call 1, .call 0, .act 0, .act 0] = .ok s ∧ s.Complete :=
    ⟨_, rfl, .of_checks rfl (by decide) (by decide) (by decide)⟩
  obtain ⟨s, ran, complete⟩ := runs
  have results := (allreduce_totals copyingVm_copies (ready_init 2 _) (by decide) (by decide)
    (charsToReduce_arguments 2) sumOp_combines (reaches_of_run ran) complete).1 1 (by decide) 0 (by decide)
  exact ⟨s, ran, complete, results⟩

end Umpi
