/-
Module: Umpi.Proofs.Committing
Layer: Proofs
Purpose: What committing and freeing datatypes does to the arrays. The invariant links the list of committed
  arrays, which all processes share, to the handles of each of them: every handle points to an array that exists,
  a heap array has one handle, and no two committed arrays are equal. Each call is a sequence of the three
  changes whose lemmas come first: a new handle, a published copy, and a handle that drops its heap array.
Imports: Umpi.Model.TypeTable
Trusted boundary: none
Main exports: TypeTable.Sound, TypeTable.Sound.of_runs, TypeTable.Canonical, TypeTable.Keeps,
  committing_is_canonical
Open obligations: none
-/
import Umpi.Model.TypeTable
import Mathlib.Tactic.Common

namespace Umpi

/-! ### The arrays of the constructors -/

/-- An array has as many entries as it records. -/
def Iovec.Stored (iovec : Iovec) : Prop := iovec.size = iovec.length

theorem Iovec.stored_header {recorded len : Nat} {stride : Int} {segments : List UmpiIovec}
    (length : segments.length = recorded) :
    Iovec.Stored ({ dis := UmpiId.scattered.toDis, len := recorded } :: { dis := stride, len := len } ::
      segments) := by
  subst length
  rfl

/-- `operator==` on arrays that record their size compares the entries. -/
theorem Iovec.sameAs_iff {iovec other : Iovec} (stored : iovec.Stored) (stored' : other.Stored) :
    iovec.sameAs other = true ↔ iovec = other := by
  unfold Iovec.Stored at stored stored'
  rw [Iovec.sameAs, stored, stored', Bool.and_eq_true, beq_iff_eq, beq_iff_eq, List.take_length]
  constructor
  · rintro ⟨lengths, entries⟩
    rw [lengths, List.take_length] at entries
    exact entries
  · rintro rfl
    exact ⟨rfl, (List.take_length).symm⟩

/-- The copies fill the entries they were asked for. -/
theorem length_of_copySegments {segments copied : List UmpiIovec} {fuel left : Nat}
    (filled : copySegments segments fuel left = some copied) : copied.length = left := by
  induction fuel generalizing left copied with
  | zero =>
      cases left with
      | zero =>
          obtain rfl : [] = copied := Option.some.inj filled
          rfl
      | succ left => cases filled
  | succ fuel ih =>
      cases left with
      | zero =>
          obtain rfl : [] = copied := Option.some.inj filled
          rfl
      | succ left =>
          unfold copySegments at filled
          by_cases fits : segments.length ≤ left + 1
          · rw [if_pos fits] at filled
            obtain ⟨rest, more, rfl⟩ := Option.map_eq_some_iff.mp filled
            rw [List.length_append, ih more]
            omega
          · rw [if_neg fits] at filled
            cases filled

/-- An array of blocks records its size. -/
theorem stored_of_createBlocks {count : Int} {blocklengths displacements : Nat → Int} {oldLen : Nat → Nat}
    {iovec : Iovec} (made : createBlocks count blocklengths displacements oldLen = .success iovec) :
    iovec.derived = true ∧ iovec.Stored := by
  unfold createBlocks at made
  split at made
  · cases made
  split at made
  · cases made
  split at made
  · cases made
  · obtain rfl := Construction.success.inj made
    exact ⟨rfl, Iovec.stored_header (by simp)⟩

/-- Another extent entry does not change what a scattered array records. -/
theorem stored_set_extent {iovec : Iovec} {entry : UmpiIovec} (notContiguous : ¬ iovec.contiguous = true)
    (stored : iovec.Stored) :
    Iovec.derived ((iovec.take iovec.size).set 1 entry) = true ∧
      Iovec.Stored ((iovec.take iovec.size).set 1 entry) := by
  have scattered : iovec.scattered = true := by
    rw [Iovec.contiguous_eq_not_scattered, Bool.not_eq_true', Bool.not_eq_false] at notContiguous
    exact notContiguous
  have whole : iovec.take iovec.size = iovec := by
    unfold Iovec.Stored at stored
    rw [stored, List.take_length]
  have header : Iovec.id (iovec.set 1 entry) = iovec.id ∧
      (List.getD (iovec.set 1 entry) 0 default).len = (iovec.getD 0 default).len := by
    cases iovec with
    | nil => exact ⟨rfl, rfl⟩
    | cons first rest => exact ⟨rfl, rfl⟩
  have same : Iovec.scattered (iovec.set 1 entry) = true := by
    rw [Iovec.scattered, header.1]
    exact scattered
  have sizes : Iovec.size (iovec.set 1 entry) = iovec.size := by
    unfold Iovec.size
    rw [same, scattered, header.2]
  rw [whole]
  constructor
  · unfold Iovec.derived
    rw [header.1]
    unfold Iovec.scattered at scattered
    rw [scattered, Bool.or_true]
  · unfold Iovec.Stored
    rw [sizes, List.length_set]
    exact stored

/-- Every constructor makes the array of a derived type that records its size. -/
theorem stored_of_run {call : TypeCall} {iovec : Iovec} (made : call.run true true = .success iovec)
    (old : ∀ iovec, call.Uses iovec → iovec.Stored) : iovec.derived = true ∧ iovec.Stored := by
  cases call with
  | contiguous count oldtype =>
      unfold TypeCall.run mpiTypeContiguous at made
      cases oldtype with
      | none => cases made
      | some oldIovec =>
          simp only [not_true_eq_false, or_self, if_false] at made
          split at made
          · obtain rfl := Construction.success.inj made
            exact ⟨rfl, rfl⟩
          · unfold Iovec.repeatScattered at made
            simp only at made
            split at made
            · cases made
            split at made
            · cases made
            split at made
            · cases made
            · rename_i segments filled
              obtain rfl := Construction.success.inj made
              exact ⟨rfl, Iovec.stored_header (length_of_copySegments filled)⟩
  | hindexed count blocklengths displacements oldtype =>
      change mpiTypeCreateHindexed true true count blocklengths displacements oldtype = _ at made
      unfold mpiTypeCreateHindexed at made
      split at made
      · split at made
        · cases made
        split at made
        · cases made
        · exact stored_of_createBlocks made
      · cases made
  | struct count blocklengths displacements types =>
      change mpiTypeCreateStruct true true count blocklengths displacements types = _ at made
      unfold mpiTypeCreateStruct at made
      split at made
      · split at made
        · cases made
        split at made
        · cases made
        · cases made
        · exact stored_of_createBlocks made
      · cases made
  | resized oldtype lb extent =>
      unfold TypeCall.run mpiTypeCreateResized at made
      cases oldtype with
      | none => cases made
      | some oldIovec =>
          have stored : oldIovec.size = oldIovec.length := old oldIovec rfl
          simp only at made
          split at made
          · cases made
          split at made
          · obtain rfl := Construction.success.inj made
            exact ⟨rfl, rfl⟩
          · rename_i contiguous
            obtain rfl := Construction.success.inj made
            exact stored_set_extent contiguous stored

/-! ### The invariant -/

namespace TypeTable

/-- The handles and the arrays of a table fit together. -/
structure Sound (s : TypeTable) : Prop where
  predefined : ∀ kind, s.arrays (.predefined kind) =
    (predefinedLen kind).map fun len => Iovec.basic kind len
  live : ∀ n rank ref, s.handles n = some (rank, ref) →
    ∃ iovec, s.arrays ref = some iovec ∧ iovec.derived = true
  stored : ∀ ref iovec, s.arrays ref = some iovec → iovec.Stored
  /-- A handle that was made points to a committed array or to the heap. -/
  made : ∀ n rank ref, s.handles n = some (rank, ref) →
    (∃ e ∈ s.commited, ref = .pool e) ∨ ∃ h, ref = .heap h
  commitedLive : ∀ e ∈ s.commited, ∃ iovec, s.arrays (.pool e) = some iovec
  distinct : (s.commited.map fun e => s.arrays (.pool e)).Nodup
  /-- A heap array has one handle. -/
  owner : ∀ h n n' rank rank', s.handles n = some (rank, .heap h) → s.handles n' = some (rank', .heap h) →
    n = n'
  owned : ∀ h iovec, s.arrays (.heap h) = some iovec → ∃ n rank, s.handles n = some (rank, .heap h)
  handlesBound : ∀ n, s.nextHandle ≤ n → s.handles n = none
  heapBound : ∀ h, s.nextHeap ≤ h → s.arrays (.heap h) = none ∧ .heap h ∉ s.deleted
  poolBound : ∀ e, s.nextPool ≤ e → s.arrays (.pool e) = none
  deletedHeap : ∀ ref ∈ s.deleted, ∃ h, ref = .heap h ∧ s.arrays ref = none
  deletedOnce : s.deleted.Nodup

namespace Sound

variable {s : TypeTable}

theorem start : Sound TypeTable.start := by
  constructor
  case predefined => exact fun _ => rfl
  case stored =>
    intro ref iovec array
    cases ref with
    | predefined kind =>
        obtain ⟨len, known, rfl⟩ := Option.map_eq_some_iff.mp array
        cases kind with
        | contiguous | scattered => cases known
        | packed | byte | char | unsignedChar | short | unsignedShort | int | unsigned | long | unsignedLong
          | float | double | longDouble => rfl
    | pool e => cases array
    | heap h => cases array
  all_goals simp [TypeTable.start]

/-- A new handle gets an array of its own. -/
theorem construct (sound : Sound s) (rank : Nat) {iovec : Iovec} (derived : iovec.derived = true)
    (stored : iovec.Stored) : Sound (s.construct rank iovec) := by
  have unused := sound.handlesBound s.nextHandle le_rfl
  have fresh := (sound.heapBound s.nextHeap le_rfl).1
  have unpointed : ∀ n rank, s.handles n ≠ some (rank, .heap s.nextHeap) := by
    intro n rank points
    obtain ⟨iovec, array, -⟩ := sound.live n rank _ points
    rw [fresh] at array
    cases array
  constructor
  case predefined =>
    intro kind
    rw [construct_arrays, Function.update_of_ne (by simp)]
    exact sound.predefined kind
  case live =>
    intro n rank' ref points
    by_cases same : n = s.nextHandle
    · subst same
      simp only [construct_handles, Function.update_self, Option.some.injEq, Prod.mk.injEq] at points
      obtain ⟨-, rfl⟩ := points
      exact ⟨iovec, Function.update_self .., derived⟩
    · simp only [construct_handles, Function.update_of_ne same] at points
      obtain ⟨old, array, oldDerived⟩ := sound.live n rank' ref points
      have different : ref ≠ .heap s.nextHeap := by
        rintro rfl
        exact unpointed n rank' points
      exact ⟨old, by rw [construct_arrays, Function.update_of_ne different, array], oldDerived⟩
  case stored =>
    intro ref other array
    by_cases same : ref = .heap s.nextHeap
    · subst same
      simp only [construct_arrays, Function.update_self, Option.some.injEq] at array
      rw [← array]
      exact stored
    · simp only [construct_arrays, Function.update_of_ne same] at array
      exact sound.stored ref other array
  case made =>
    intro n rank' ref points
    by_cases same : n = s.nextHandle
    · subst same
      simp only [construct_handles, Function.update_self, Option.some.injEq, Prod.mk.injEq] at points
      exact Or.inr ⟨s.nextHeap, points.2.symm⟩
    · simp only [construct_handles, Function.update_of_ne same] at points
      exact sound.made n rank' ref points
  case commitedLive =>
    intro e member
    obtain ⟨old, array⟩ := sound.commitedLive e member
    exact ⟨old, by rw [construct_arrays, Function.update_of_ne (by simp), array]⟩
  case distinct => simpa using sound.distinct
  case owner =>
    intro h n n' rank₁ rank₂ points points'
    by_cases same : n = s.nextHandle <;> by_cases same' : n' = s.nextHandle
    · rw [same, same']
    · subst same
      simp only [construct_handles, Function.update_self, Function.update_of_ne same', Option.some.injEq,
        Prod.mk.injEq, ArrayRef.heap.injEq] at points points'
      rw [← points.2] at points'
      exact absurd points' (unpointed n' rank₂)
    · subst same'
      simp only [construct_handles, Function.update_self, Function.update_of_ne same, Option.some.injEq,
        Prod.mk.injEq, ArrayRef.heap.injEq] at points points'
      rw [← points'.2] at points
      exact absurd points (unpointed n rank₁)
    · simp only [construct_handles, Function.update_of_ne same, Function.update_of_ne same'] at points points'
      exact sound.owner h n n' rank₁ rank₂ points points'
  case owned =>
    intro h other array
    by_cases same : h = s.nextHeap
    · subst same
      exact ⟨s.nextHandle, rank, Function.update_self ..⟩
    · have different : ArrayRef.heap h ≠ .heap s.nextHeap := by simpa using same
      simp only [construct_arrays, Function.update_of_ne different] at array
      obtain ⟨n, rank', points⟩ := sound.owned h other array
      have old : n ≠ s.nextHandle := by
        rintro rfl
        rw [unused] at points
        cases points
      exact ⟨n, rank', by rw [construct_handles, Function.update_of_ne old, points]⟩
  case handlesBound =>
    intro n later
    have bound : s.nextHandle + 1 ≤ n := later
    have different : n ≠ s.nextHandle := by omega
    rw [construct_handles, Function.update_of_ne different]
    exact sound.handlesBound n (by omega)
  case heapBound =>
    intro h later
    have bound : s.nextHeap + 1 ≤ h := later
    have different : ArrayRef.heap h ≠ .heap s.nextHeap := by
      simp only [ne_eq, ArrayRef.heap.injEq]
      omega
    obtain ⟨none, undeleted⟩ := sound.heapBound h (by omega)
    exact ⟨by rw [construct_arrays, Function.update_of_ne different, none], undeleted⟩
  case poolBound =>
    intro e later
    rw [construct_arrays, Function.update_of_ne (by simp)]
    exact sound.poolBound e later
  case deletedHeap =>
    intro ref member
    obtain ⟨h, rfl, gone⟩ := sound.deletedHeap ref member
    have different : ArrayRef.heap h ≠ .heap s.nextHeap := by
      intro same
      rw [same] at member
      exact (sound.heapBound s.nextHeap le_rfl).2 member
    exact ⟨h, rfl, by rw [construct_arrays, Function.update_of_ne different, gone]⟩
  case deletedOnce => exact sound.deletedOnce

/-- A copy of an array that no committed one is equal to becomes a committed array. -/
theorem publish (sound : Sound s) {iovec : Iovec} (stored : iovec.Stored)
    (unequal : ∀ e ∈ s.commited, s.arrays (.pool e) ≠ some iovec) : Sound (s.publish iovec) := by
  have whole : iovec.take iovec.size = iovec := by
    unfold Iovec.Stored at stored
    rw [stored, List.take_length]
  have older : ∀ e ∈ s.commited, ArrayRef.pool e ≠ .pool s.nextPool := by
    intro e member same
    obtain ⟨other, target⟩ := sound.commitedLive e member
    rw [same, sound.poolBound s.nextPool le_rfl] at target
    cases target
  have others : ∀ n rank ref, s.handles n = some (rank, ref) → ref ≠ .pool s.nextPool := by
    intro n rank ref points
    rcases sound.made n rank ref points with ⟨e, member, rfl⟩ | ⟨h, rfl⟩
    · exact older e member
    · simp
  constructor
  case predefined =>
    intro kind
    rw [publish_arrays, Function.update_of_ne (by simp)]
    exact sound.predefined kind
  case live =>
    intro n rank ref points
    obtain ⟨old, array, derived⟩ := sound.live n rank ref points
    exact ⟨old, by rw [publish_arrays, Function.update_of_ne (others n rank ref points), array], derived⟩
  case stored =>
    intro ref other array
    by_cases same : ref = .pool s.nextPool
    · subst same
      rw [publish_arrays, Function.update_self, whole] at array
      rw [← Option.some.inj array]
      exact stored
    · rw [publish_arrays, Function.update_of_ne same] at array
      exact sound.stored ref other array
  case made =>
    intro n rank ref points
    rcases sound.made n rank ref points with ⟨e, member, rfl⟩ | heap
    · exact Or.inl ⟨e, List.mem_cons_of_mem _ member, rfl⟩
    · exact Or.inr heap
  case commitedLive =>
    intro e member
    rcases List.mem_cons.mp member with rfl | old
    · exact ⟨iovec, by rw [publish_arrays, Function.update_self, whole]⟩
    · obtain ⟨other, array⟩ := sound.commitedLive e old
      exact ⟨other, by rw [publish_arrays, Function.update_of_ne (older e old), array]⟩
  case distinct =>
    have kept : (s.commited.map fun e =>
        Function.update s.arrays (.pool s.nextPool) (some iovec) (.pool e)) =
          s.commited.map fun e => s.arrays (.pool e) :=
      List.map_congr_left fun e member => Function.update_of_ne (older e member) ..
    rw [publish_commited, publish_arrays, whole, List.map_cons, kept, Function.update_self]
    refine List.nodup_cons.mpr ⟨?_, sound.distinct⟩
    intro listed
    obtain ⟨e, member, equal⟩ := List.mem_map.mp listed
    exact unequal e member equal
  case owner => exact sound.owner
  case owned =>
    intro h other array
    rw [publish_arrays, Function.update_of_ne (by simp)] at array
    exact sound.owned h other array
  case handlesBound => exact sound.handlesBound
  case heapBound =>
    intro h later
    obtain ⟨none, undeleted⟩ := sound.heapBound h later
    exact ⟨by rw [publish_arrays, Function.update_of_ne (by simp), none], undeleted⟩
  case poolBound =>
    intro e later
    have bound : s.nextPool + 1 ≤ e := later
    have different : ArrayRef.pool e ≠ .pool s.nextPool := by
      simp only [ne_eq, ArrayRef.pool.injEq]
      omega
    rw [publish_arrays, Function.update_of_ne different]
    exact sound.poolBound e (by omega)
  case deletedHeap =>
    intro ref member
    obtain ⟨h, rfl, gone⟩ := sound.deletedHeap ref member
    exact ⟨h, rfl, by rw [publish_arrays, Function.update_of_ne (by simp), gone]⟩
  case deletedOnce => exact sound.deletedOnce

/-- A handle drops its heap array: it points to a committed array from now on, or is no more. -/
theorem drop (sound : Sound s) {n rank h : Nat} (points : s.handles n = some (rank, .heap h))
    {field : Option (Nat × ArrayRef)}
    (next : ∀ owner ref, field = some (owner, ref) → ∃ e ∈ s.commited, ref = .pool e ∧
      ∃ iovec, s.arrays (.pool e) = some iovec ∧ iovec.derived = true) :
    Sound (s.drop n (.heap h) field) := by
  have others : ∀ n' owner ref, n' ≠ n → s.handles n' = some (owner, ref) → ref ≠ .heap h := by
    rintro n' owner ref different points' rfl
    exact different (sound.owner h n' n owner rank points' points)
  obtain ⟨old, array, -⟩ := sound.live n rank _ points
  constructor
  case predefined =>
    intro kind
    rw [drop_arrays, Function.update_of_ne (by simp)]
    exact sound.predefined kind
  case live =>
    intro n' owner ref points'
    by_cases same : n' = n
    · rw [drop_handles, same, Function.update_self] at points'
      obtain ⟨e, -, rfl, iovec, target, derived⟩ := next owner ref points'
      exact ⟨iovec, by rw [drop_arrays, Function.update_of_ne (by simp), target], derived⟩
    · rw [drop_handles, Function.update_of_ne same] at points'
      obtain ⟨iovec, target, derived⟩ := sound.live n' owner ref points'
      exact ⟨iovec, by rw [drop_arrays, Function.update_of_ne (others n' owner ref same points'), target],
        derived⟩
  case stored =>
    intro ref iovec array'
    by_cases same : ref = .heap h
    · rw [drop_arrays, same, Function.update_self] at array'
      cases array'
    · rw [drop_arrays, Function.update_of_ne same] at array'
      exact sound.stored ref iovec array'
  case made =>
    intro n' owner ref points'
    by_cases same : n' = n
    · rw [drop_handles, same, Function.update_self] at points'
      obtain ⟨e, member, rfl, -⟩ := next owner ref points'
      exact Or.inl ⟨e, member, rfl⟩
    · rw [drop_handles, Function.update_of_ne same] at points'
      exact sound.made n' owner ref points'
  case commitedLive =>
    intro e member
    obtain ⟨iovec, target⟩ := sound.commitedLive e member
    exact ⟨iovec, by rw [drop_arrays, Function.update_of_ne (by simp), target]⟩
  case distinct => simpa using sound.distinct
  case owner =>
    intro h' n₁ n₂ owner₁ owner₂ points₁ points₂
    have kept : ∀ n' owner, (s.drop n (.heap h) field).handles n' = some (owner, .heap h') →
        s.handles n' = some (owner, .heap h') := by
      intro n' owner points'
      by_cases same : n' = n
      · rw [drop_handles, same, Function.update_self] at points'
        obtain ⟨e, -, impossible, -⟩ := next owner _ points'
        cases impossible
      · rw [drop_handles, Function.update_of_ne same] at points'
        exact points'
    exact sound.owner h' n₁ n₂ owner₁ owner₂ (kept n₁ owner₁ points₁) (kept n₂ owner₂ points₂)
  case owned =>
    intro h' iovec array'
    have different : ArrayRef.heap h' ≠ .heap h := by
      intro same
      rw [drop_arrays, same, Function.update_self] at array'
      cases array'
    rw [drop_arrays, Function.update_of_ne different] at array'
    obtain ⟨n', owner, points'⟩ := sound.owned h' iovec array'
    have other : n' ≠ n := by
      rintro rfl
      rw [points] at points'
      exact different (congrArg Prod.snd (Option.some.inj points')).symm
    exact ⟨n', owner, by rw [drop_handles, Function.update_of_ne other, points']⟩
  case handlesBound =>
    intro n' later
    have unused := sound.handlesBound n' later
    have different : n' ≠ n := by
      rintro rfl
      rw [points] at unused
      cases unused
    rw [drop_handles, Function.update_of_ne different]
    exact unused
  case heapBound =>
    intro h' later
    obtain ⟨none, undeleted⟩ := sound.heapBound h' later
    have different : ArrayRef.heap h' ≠ .heap h := by
      intro same
      rw [same, array] at none
      cases none
    refine ⟨by rw [drop_arrays, Function.update_of_ne different, none], ?_⟩
    rw [drop_deleted]
    exact fun member => (List.mem_cons.mp member).elim different undeleted
  case poolBound =>
    intro e later
    rw [drop_arrays, Function.update_of_ne (by simp)]
    exact sound.poolBound e later
  case deletedHeap =>
    intro ref member
    rcases List.mem_cons.mp member with rfl | earlier
    · exact ⟨h, rfl, by rw [drop_arrays, Function.update_self]⟩
    · obtain ⟨h', rfl, gone⟩ := sound.deletedHeap ref earlier
      refine ⟨h', rfl, ?_⟩
      by_cases same : ArrayRef.heap h' = .heap h
      · rw [drop_arrays, same, Function.update_self]
      · rw [drop_arrays, Function.update_of_ne same, gone]
  case deletedOnce =>
    rw [drop_deleted]
    refine List.nodup_cons.mpr ⟨?_, sound.deletedOnce⟩
    intro member
    obtain ⟨h', same, gone⟩ := sound.deletedHeap _ member
    rw [array] at gone
    cases gone

/-- A handle whose array is committed goes away without it. -/
theorem forget (sound : Sound s) {n rank : Nat} {ref : ArrayRef} (points : s.handles n = some (rank, ref))
    (committed : ref.committed = true) :
    Sound (s.forget n) := by
  have kept : ∀ n' owner ref', Function.update s.handles n none n' = some (owner, ref') →
      s.handles n' = some (owner, ref') := by
    intro n' owner ref' points'
    by_cases same : n' = n
    · rw [same, Function.update_self] at points'
      cases points'
    · rw [Function.update_of_ne same] at points'
      exact points'
  constructor
  case predefined => exact sound.predefined
  case live => exact fun n' owner ref' points' => sound.live n' owner ref' (kept n' owner ref' points')
  case stored => exact sound.stored
  case made => exact fun n' owner ref' points' => sound.made n' owner ref' (kept n' owner ref' points')
  case commitedLive => exact sound.commitedLive
  case distinct => exact sound.distinct
  case owner =>
    intro h n₁ n₂ owner₁ owner₂ points₁ points₂
    exact sound.owner h n₁ n₂ owner₁ owner₂ (kept n₁ owner₁ _ points₁) (kept n₂ owner₂ _ points₂)
  case owned =>
    intro h iovec array
    obtain ⟨n', owner, points'⟩ := sound.owned h iovec array
    have other : n' ≠ n := by
      rintro rfl
      rw [points] at points'
      have heap : ref = .heap h := congrArg Prod.snd (Option.some.inj points')
      rw [heap] at committed
      cases committed
    exact ⟨n', owner, by rw [forget_handles, Function.update_of_ne other, points']⟩
  case handlesBound =>
    intro n' later
    by_cases same : n' = n
    · rw [forget_handles, same, Function.update_self]
    · rw [forget_handles, Function.update_of_ne same]
      exact sound.handlesBound n' later
  case heapBound => exact sound.heapBound
  case poolBound => exact sound.poolBound
  case deletedHeap => exact sound.deletedHeap
  case deletedOnce => exact sound.deletedOnce

end Sound

/-! ### What the calls do -/

/-- What a commit or a free of the handle deletes. -/
def dropped (s : TypeTable) (rank : Nat) (handle : Handle) : List ArrayRef :=
  match s.iovec rank handle with
  | some (.heap h) => [.heap h]
  | some (.pool _) => []
  | some (.predefined _) => []
  | none => []

/-- What a call deletes. -/
def deletes (s : TypeTable) (rank : Nat) : TypeRequest → List ArrayRef
  | .construct _ => []
  | .commit handle => s.dropped rank handle
  | .typeFree handle => s.dropped rank handle

/-- What a call of the process `rank` may change. -/
structure Keeps (s : TypeTable) (rank : Nat) (request : TypeRequest) (s' : TypeTable) : Prop where
  /-- Every other handle points where it did, and what it points to is the same. -/
  others : ∀ rank' handle ref, s.iovec rank' handle = some ref →
    (rank' ≠ rank ∨ request ≠ .commit handle ∧ request ≠ .typeFree handle) →
      s'.iovec rank' handle = some ref ∧ s'.arrays ref = s.arrays ref
  commit : ∀ handle, request = .commit handle →
    s'.denotes rank handle = s.denotes rank handle ∧
      ∃ ref, s'.iovec rank handle = some ref ∧ ref.committed = true
  typeFree : ∀ n, request = .typeFree (.made n) → s'.iovec rank (.made n) = none
  deletes : s'.deleted = s.deletes rank request ++ s.deleted

section Calls

variable {s : TypeTable} {rank : Nat}

theorem iovec_made {n : Nat} {ref : ArrayRef} :
    s.iovec rank (.made n) = some ref ↔ s.handles n = some (rank, ref) := by
  simp only [iovec]
  rcases s.handles n with - | ⟨owner, target⟩
  · simp
  · by_cases same : owner = rank
    · simp [same]
    · simp [same]

theorem iovec_predefined {kind : UmpiId} {ref : ArrayRef}
    (points : s.iovec rank (.predefined kind) = some ref) : ref = .predefined kind := by
  obtain ⟨len, -, same⟩ := Option.map_eq_some_iff.mp points
  exact same.symm

/-- A handle points to an array that exists and records its size. -/
theorem Sound.array_of_iovec (sound : Sound s) {handle : Handle} {ref : ArrayRef}
    (points : s.iovec rank handle = some ref) : ∃ iovec, s.arrays ref = some iovec ∧ iovec.Stored := by
  cases handle with
  | predefined kind =>
      obtain ⟨len, known, rfl⟩ := Option.map_eq_some_iff.mp points
      have array : s.arrays (.predefined kind) = some (Iovec.basic kind len) := by
        rw [sound.predefined, known]
        rfl
      exact ⟨_, array, sound.stored _ _ array⟩
  | made n =>
      obtain ⟨iovec, array, -⟩ := sound.live n rank ref (iovec_made.mp points)
      exact ⟨iovec, array, sound.stored _ _ array⟩

/-- `shared::commit` finds an equal array, or publishes a copy first; then the handle drops its heap array. -/
theorem Sound.commitArray_eq (sound : Sound s) {n h : Nat} (points : s.handles n = some (rank, .heap h)) :
    ∃ t e iovec, s.arrays (.heap h) = some iovec ∧ Sound t ∧ t.handles = s.handles ∧
      t.deleted = s.deleted ∧ (∀ ref array, s.arrays ref = some array → t.arrays ref = some array) ∧
      e ∈ t.commited ∧ t.arrays (.pool e) = some iovec ∧ iovec.derived = true ∧
      s.commitArray rank n (.heap h) = t.drop n (.heap h) (some (rank, .pool e)) := by
  obtain ⟨iovec, array, derived⟩ := sound.live n rank _ points
  have stored := sound.stored _ _ array
  have equal : ∀ e ∈ s.commited, ((s.arrays (.pool e)).getD []).sameAs iovec = true ↔
      s.arrays (.pool e) = some iovec := by
    intro e member
    obtain ⟨other, target⟩ := sound.commitedLive e member
    rw [target, Option.getD_some, Iovec.sameAs_iff (sound.stored _ _ target) stored, Option.some.injEq]
  cases found : s.lookup iovec with
  | some e =>
      have member : e ∈ s.commited := List.mem_of_find?_eq_some found
      have passed := List.find?_some found
      refine ⟨s, e, iovec, array, sound, rfl, rfl, fun _ _ same => same, member, ?_, derived, ?_⟩
      · exact (equal e member).mp passed
      · simp only [commitArray, array, Option.getD_some, found]
  | none =>
      have unequal : ∀ e ∈ s.commited, s.arrays (.pool e) ≠ some iovec := by
        intro e member same
        exact List.find?_eq_none.mp found e member ((equal e member).mpr same)
      have whole : iovec.take iovec.size = iovec := by
        unfold Iovec.Stored at stored
        rw [stored, List.take_length]
      have kept : ∀ ref other, s.arrays ref = some other → (s.publish iovec).arrays ref = some other := by
        intro ref other target
        have different : ref ≠ .pool s.nextPool := by
          rintro rfl
          rw [sound.poolBound s.nextPool le_rfl] at target
          cases target
        rw [publish_arrays, Function.update_of_ne different, target]
      refine ⟨s.publish iovec, s.nextPool, iovec, array, sound.publish stored unequal, rfl, rfl, kept,
        List.mem_cons_self, ?_, derived, ?_⟩
      · rw [publish_arrays, Function.update_self, whole]
      · simp only [commitArray, array, Option.getD_some, found]

/-- Other handles than `n` do not notice that it drops its heap array. -/
theorem Sound.drop_others (sound : Sound s) {t : TypeTable} {n h : Nat} {field : Option (Nat × ArrayRef)}
    (points : s.handles n = some (rank, .heap h)) (handles : t.handles = s.handles)
    (arrays : ∀ ref array, s.arrays ref = some array → t.arrays ref = some array) {rank' : Nat}
    {handle : Handle} {ref : ArrayRef} (points' : s.iovec rank' handle = some ref)
    (other : rank' ≠ rank ∨ handle ≠ .made n) :
    (t.drop n (.heap h) field).iovec rank' handle = some ref ∧
      (t.drop n (.heap h) field).arrays ref = s.arrays ref := by
  obtain ⟨iovec, array, -⟩ := sound.array_of_iovec points'
  cases handle with
  | predefined kind =>
      obtain rfl := iovec_predefined points'
      refine ⟨points', ?_⟩
      rw [drop_arrays, Function.update_of_ne (by simp), array, arrays _ _ array]
  | made n' =>
      have field' := iovec_made.mp points'
      have different : n' ≠ n := by
        rintro rfl
        rw [points] at field'
        have same : rank = rank' := congrArg Prod.fst (Option.some.inj field')
        exact other.elim (fun apart => apart same.symm) fun apart => apart rfl
      have apart : ref ≠ .heap h := by
        rintro rfl
        exact different (sound.owner h n' n rank' rank field' points)
      refine ⟨iovec_made.mpr ?_, ?_⟩
      · rw [drop_handles, Function.update_of_ne different, handles, field']
      · rw [drop_arrays, Function.update_of_ne apart, array, arrays _ _ array]

/-- A call that changes nothing. -/
theorem Keeps.unchanged {request : TypeRequest}
    (commit : ∀ handle, request = .commit handle → ∃ ref, s.iovec rank handle = some ref ∧
      ref.committed = true)
    (typeFree : ∀ n, request = .typeFree (.made n) → s.iovec rank (.made n) = none)
    (deletes : s.deletes rank request = []) : Keeps s rank request s where
  others := fun _ _ _ points _ => ⟨points, rfl⟩
  commit := fun handle same => ⟨rfl, commit handle same⟩
  typeFree := typeFree
  deletes := by rw [deletes, List.nil_append]

/-- A commit. -/
theorem Sound.commit (sound : Sound s) {handle : Handle} {ref : ArrayRef}
    (valid : s.iovec rank handle = some ref) :
    Sound (s.commit rank handle) ∧ Keeps s rank (.commit handle) (s.commit rank handle) := by
  have stays (committed : ref.committed = true) : Keeps s rank (.commit handle) s := by
    refine Keeps.unchanged ?_ (fun _ same => by cases same) ?_
    · rintro _ ⟨⟩
      exact ⟨ref, valid, committed⟩
    · rw [TypeTable.deletes, dropped, valid]
      cases ref with
      | predefined kind => rfl
      | pool e => rfl
      | heap h => cases committed
  cases handle with
  | predefined kind =>
      obtain rfl := iovec_predefined valid
      exact ⟨sound, stays rfl⟩
  | made n =>
      have points := iovec_made.mp valid
      rcases sound.made n rank ref points with ⟨e, -, rfl⟩ | ⟨h, rfl⟩
      · have same : s.commit rank (.made n) = s := by
          simp only [TypeTable.commit, points]
          rfl
        rw [same]
        exact ⟨sound, stays rfl⟩
      · have committed : s.commit rank (.made n) = s.commitArray rank n (.heap h) := by
          simp only [TypeTable.commit, points]
          rfl
        obtain ⟨t, e, iovec, array, soundT, handles, deleted, arrays, member, target, derived, dropped⟩ :=
          sound.commitArray_eq points
        rw [committed, dropped]
        have pointsT : t.handles n = some (rank, .heap h) := by
          rw [handles, points]
        have field : (t.drop n (.heap h) (some (rank, .pool e))).iovec rank (.made n) = some (.pool e) :=
          iovec_made.mpr (by rw [drop_handles, Function.update_self])
        refine ⟨soundT.drop pointsT ?_, ?_, ?_, (fun _ same => by cases same), ?_⟩
        · intro owner ref same
          obtain rfl : .pool e = ref := congrArg Prod.snd (Option.some.inj same)
          exact ⟨e, member, rfl, iovec, target, derived⟩
        · intro rank' handle ref points' other
          refine sound.drop_others points handles arrays points' ?_
          rcases other with apart | ⟨apart, -⟩
          · exact Or.inl apart
          · exact Or.inr fun same => apart (by rw [same])
        · rintro _ ⟨⟩
          refine ⟨?_, .pool e, field, rfl⟩
          rw [denotes, field, denotes, valid, Option.bind_some, Option.bind_some, drop_arrays,
            Function.update_of_ne (by simp), target, array]
        · rw [drop_deleted, deleted, TypeTable.deletes, TypeTable.dropped, valid]
          rfl

/-- A free. -/
theorem Sound.typeFree (sound : Sound s) {handle : Handle} {ref : ArrayRef}
    (valid : s.iovec rank handle = some ref) :
    Sound (s.typeFree rank handle).1 ∧ Keeps s rank (.typeFree handle) (s.typeFree rank handle).1 := by
  cases handle with
  | predefined kind =>
      obtain rfl := iovec_predefined valid
      have same : (s.typeFree rank (.predefined kind)).1 = s := by
        unfold TypeTable.typeFree
        split <;> rfl
      rw [same]
      refine ⟨sound, Keeps.unchanged (fun _ same => by cases same) (fun _ same => by cases same) ?_⟩
      rw [TypeTable.deletes, dropped, valid]
  | made n =>
      have points := iovec_made.mp valid
      obtain ⟨iovec, array, derived⟩ := sound.live n rank ref points
      have denoted : ((s.denotes rank (.made n)).getD []).derived = true := by
        rw [denotes, valid, Option.bind_some, array]
        exact derived
      have gone : ∀ t : TypeTable, t.handles n = none → t.iovec rank (.made n) = none := by
        intro t none
        simp only [TypeTable.iovec, none]
      have freed : (s.typeFree rank (.made n)).1 =
          if ref.committed then s.forget n else s.drop n ref none := by
        unfold TypeTable.typeFree
        rw [if_pos denoted]
        simp only [points]
      rw [freed]
      rcases sound.made n rank ref points with ⟨e, -, rfl⟩ | ⟨h, rfl⟩
      · have shared : (ArrayRef.pool e).committed = true := rfl
        rw [if_pos shared]
        refine ⟨sound.forget points rfl, ?_, (fun _ same => by cases same), ?_, ?_⟩
        · intro rank' handle ref points' other
          refine ⟨?_, rfl⟩
          cases handle with
          | predefined kind => exact points'
          | made n' =>
              have field := iovec_made.mp points'
              have different : n' ≠ n := by
                rintro rfl
                rw [points] at field
                have same : rank = rank' := congrArg Prod.fst (Option.some.inj field)
                exact other.elim (fun apart => apart same.symm) fun apart => apart.2 rfl
              exact iovec_made.mpr (by rw [forget_handles, Function.update_of_ne different, field])
        · rintro _ ⟨⟩
          exact gone _ (by rw [forget_handles, Function.update_self])
        · rw [forget_deleted, TypeTable.deletes, dropped, valid]
          rfl
      · have unshared : ¬ (ArrayRef.heap h).committed = true := Bool.false_ne_true
        rw [if_neg unshared]
        refine ⟨sound.drop points (fun _ _ same => by cases same), ?_, (fun _ same => by cases same), ?_, ?_⟩
        · intro rank' handle ref points' other
          refine sound.drop_others points rfl (fun _ _ same => same) points' ?_
          rcases other with apart | ⟨-, apart⟩
          · exact Or.inl apart
          · exact Or.inr fun same => apart (by rw [same])
        · rintro _ ⟨⟩
          exact gone _ (by rw [drop_handles, Function.update_self])
        · rw [drop_deleted, TypeTable.deletes, dropped, valid]
          rfl

/-- A constructor. -/
theorem Sound.keeps_construct (sound : Sound s) (call : TypeCall) (iovec : Iovec) :
    Keeps s rank (.construct call) (s.construct rank iovec) where
  others := by
    intro rank' handle ref points _
    obtain ⟨old, array, -⟩ := sound.array_of_iovec points
    have different : ref ≠ .heap s.nextHeap := by
      rintro rfl
      rw [(sound.heapBound s.nextHeap le_rfl).1] at array
      cases array
    refine ⟨?_, by rw [construct_arrays, Function.update_of_ne different]⟩
    cases handle with
    | predefined kind => exact points
    | made n =>
        have field := iovec_made.mp points
        have known : n ≠ s.nextHandle := by
          rintro rfl
          rw [sound.handlesBound s.nextHandle le_rfl] at field
          cases field
        exact iovec_made.mpr (by rw [construct_handles, Function.update_of_ne known, field])
  commit := fun _ same => by cases same
  typeFree := fun _ same => by cases same
  deletes := rfl

/-- One call keeps the invariant and leaves alone what is not its own. -/
theorem Sound.step (sound : Sound s) {request : TypeRequest} {s' : TypeTable}
    (step : Step rank s request s') : Sound s' ∧ Keeps s rank request s' := by
  cases step with
  | construct call iovec old made =>
      have stored : ∀ iovec, call.Uses iovec → iovec.Stored := by
        intro used uses
        obtain ⟨handle, denoted⟩ := old used uses
        obtain ⟨ref, -, array⟩ := Option.bind_eq_some_iff.mp denoted
        exact sound.stored ref used array
      obtain ⟨derived, whole⟩ := stored_of_run made stored
      exact ⟨sound.construct rank derived whole, sound.keeps_construct call iovec⟩
  | refuse call old refused =>
      exact ⟨sound, Keeps.unchanged (fun _ same => by cases same) (fun _ same => by cases same) rfl⟩
  | commit handle ref valid => exact sound.commit valid
  | typeFree handle ref valid => exact sound.typeFree valid

end Calls

/-- Every sequence of calls keeps the invariant. -/
theorem Sound.of_runs {s : TypeTable} (run : Runs s) : Sound s := by
  induction run with
  | start => exact Sound.start
  | tail before rank request step ih => exact (ih.step step).1

/-! ### The result -/

/-- The committed arrays are canonical, every heap array has one handle, and nothing has been deleted twice. -/
structure Canonical (s : TypeTable) : Prop where
  /-- `commited_` does not hold two equal arrays. -/
  distinct : (s.commited.map fun e => s.arrays (.pool e)).Nodup
  /-- Committed handles of derived types point to one array exactly when their contents are equal. -/
  shared : ∀ rank rank' handle handle' ref ref' iovec iovec',
    s.iovec rank handle = some ref → s.iovec rank' handle' = some ref' →
    ref.committed = true → ref'.committed = true →
    s.arrays ref = some iovec → s.arrays ref' = some iovec' →
    iovec.derived = true → iovec'.derived = true → (ref = ref' ↔ iovec = iovec')
  /-- A heap array is referred to by one handle. -/
  owned : ∀ h iovec, s.arrays (.heap h) = some iovec →
    ∃! n, ∃ rank, s.handles n = some (rank, .heap h)
  /-- A handle denotes an array. -/
  live : ∀ rank handle ref, s.iovec rank handle = some ref → ∃ iovec, s.arrays ref = some iovec
  /-- Only heap arrays are deleted, each of them once. -/
  deletedHeap : ∀ ref ∈ s.deleted, ref.committed = false ∧ s.arrays ref = none
  deletedOnce : s.deleted.Nodup

/-- A committed array of a derived type is in `commited_`. -/
theorem Sound.mem_commited {s : TypeTable} (sound : Sound s) {rank : Nat} {handle : Handle} {ref : ArrayRef}
    {iovec : Iovec} (points : s.iovec rank handle = some ref) (committed : ref.committed = true)
    (array : s.arrays ref = some iovec) (derived : iovec.derived = true) :
    ∃ e ∈ s.commited, ref = .pool e := by
  cases handle with
  | predefined kind =>
      obtain rfl := iovec_predefined points
      rw [sound.predefined] at array
      obtain ⟨len, known, rfl⟩ := Option.map_eq_some_iff.mp array
      cases kind with
      | contiguous | scattered => cases known
      | packed | byte | char | unsignedChar | short | unsignedShort | int | unsigned | long | unsignedLong
        | float | double | longDouble => cases derived
  | made n =>
      rcases sound.made n rank ref (iovec_made.mp points) with ⟨e, member, rfl⟩ | ⟨h, rfl⟩
      · exact ⟨e, member, rfl⟩
      · cases committed

theorem Sound.canonical {s : TypeTable} (sound : Sound s) : Canonical s where
  distinct := sound.distinct
  shared := by
    intro rank rank' handle handle' ref ref' iovec iovec' points points' committed committed' array array'
      derived derived'
    obtain ⟨e, member, rfl⟩ := sound.mem_commited points committed array derived
    obtain ⟨e', member', rfl⟩ := sound.mem_commited points' committed' array' derived'
    constructor
    · intro same
      rw [same, array'] at array
      exact (Option.some.inj array).symm
    · intro same
      have equal : s.arrays (.pool e) = s.arrays (.pool e') := by rw [array, array', same]
      rw [List.inj_on_of_nodup_map sound.distinct member member' equal]
  owned := by
    intro h iovec array
    obtain ⟨n, rank, points⟩ := sound.owned h iovec array
    refine ⟨n, ⟨rank, points⟩, ?_⟩
    rintro n' ⟨rank', points'⟩
    exact sound.owner h n' n rank' rank points' points
  live := by
    intro rank handle ref points
    obtain ⟨iovec, array, -⟩ := sound.array_of_iovec points
    exact ⟨iovec, array⟩
  deletedHeap := by
    intro ref member
    obtain ⟨h, rfl, gone⟩ := sound.deletedHeap ref member
    exact ⟨rfl, gone⟩
  deletedOnce := sound.deletedOnce

/-- After any sequence of calls the committed arrays are canonical, and the next call, by whichever process, leaves
    all handles but its own alone, keeps what a committed handle denotes, and deletes the heap array of the handle
    it commits or frees and nothing else. -/
theorem committing_is_canonical {s : TypeTable} (run : Runs s) :
    Canonical s ∧ ∀ rank request s', Step rank s request s' → Keeps s rank request s' :=
  ⟨(Sound.of_runs run).canonical, fun _ _ _ step => ((Sound.of_runs run).step step).2⟩

/-- Two processes make a type of two integers each. -/
def twoPairs : TypeTable :=
  (start.construct 0 (Iovec.basic .contiguous 8)).construct 1 (Iovec.basic .contiguous 8)

theorem twoPairs_runs : Runs twoPairs := by
  have first : Runs (start.construct 0 (Iovec.basic .contiguous 8)) := by
    refine .tail .start 0 (.construct (.contiguous 2 (some (Iovec.basic .int 4)))) (.construct _ _ _ ?_ rfl)
    rintro _ ⟨⟩
    exact ⟨.predefined .int, rfl⟩
  refine .tail first 1 (.construct (.contiguous 2 (some (Iovec.basic .int 4)))) (.construct _ _ _ ?_ rfl)
  rintro _ ⟨⟩
  exact ⟨.predefined .int, rfl⟩

/-- Both of them commit their type. -/
def twoCommits : TypeTable := (twoPairs.commit 0 (.made 0)).commit 1 (.made 1)

theorem twoCommits_runs : Runs twoCommits :=
  .tail (.tail twoPairs_runs 0 (.commit (.made 0)) (.commit _ _ (.heap 0) (by decide))) 1
    (.commit (.made 1)) (.commit _ _ (.heap 1) (by decide))

/-- The two processes share one array, and both heap arrays have been deleted. -/
theorem committing_is_canonical_twoCommits :
    Canonical twoCommits ∧ twoCommits.iovec 0 (.made 0) = some (.pool 0) ∧
      twoCommits.iovec 1 (.made 1) = some (.pool 0) ∧ twoCommits.deleted = [.heap 1, .heap 0] :=
  ⟨(committing_is_canonical twoCommits_runs).1, by decide, by decide, by decide⟩

end TypeTable

end Umpi
