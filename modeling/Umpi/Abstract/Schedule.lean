/-
Module: Umpi.Abstract.Schedule
Layer: Abstract
Purpose: Who makes a cookie, who notifies it and who waits for it, in terms of ranks only. A collective
  operation follows one of four schedules. Given the ranks that have joined so far, latest first, a
  schedule says what the next rank does: the number of notifications its own cookie is made for, the
  cookie it notifies at once, the cookies it notifies after the unlock, the cookies that stay in the box,
  and the cookie it waits for. `Schedule.balanced` is the point of it: when everybody has joined, every
  cookie has been promised exactly the number of notifications it was made for.
Imports: Umpi.Foundation.Barrier, Mathlib list permutations and sorting
Trusted boundary: none
Main exports: Schedule, Schedule.box, Schedule.num, Schedule.now, Schedule.later, Schedule.request,
  Schedule.issued, Schedule.numOf, Schedule.balanced, Schedule.issued_le_numOf
Open obligations: none
-/
import Umpi.Foundation.Barrier
import Mathlib.Data.List.Basic
import Mathlib.Data.List.Nodup
import Mathlib.Data.List.Sort
import Mathlib.Data.List.Perm.Basic
import Mathlib.Data.List.Range

namespace Umpi

/-- The schedules of bcast, gather, gatherv and scatter with a root, of allgather, of allreduce, and of
    scan and exscan. -/
inductive Schedule where
  | rooted (root : Nat)
  | collecting
  | chain (inPlace : Bool)
  | ladder
deriving Repr, DecidableEq

namespace Schedule

/-- The ranks whose cookies are in the box once the ranks of `past` have joined. -/
def box (n : Nat) (past : List Nat) : Schedule → List Nat
  | rooted root =>
      if past.length = n then [] else if root ∈ past then [root] else past.reverse
  | _ => if past.length = n then [] else past.reverse

/-- The number of notifications that the cookie of a rank joining after `past` waits for, if it makes
    one. -/
def num (n : Nat) (past : List Nat) (self : Nat) : Schedule → Option Int
  | rooted root =>
      if self = root then
        if past.length + 1 = n then none else some (n - (past.length + 1 : Nat))
      else if root ∈ past then none
      else some 1
  | collecting => if past = [] then some n else if past.length + 1 = n then none else some 1
  | chain inPlace => if past.length + 1 = n then none else some (if inPlace then 1 else 2)
  | ladder => some (if self ≠ 0 then 2 else 1)

/-- The rank whose cookie a rank joining after `past` notifies while it holds the mutex. -/
def now (past : List Nat) : Schedule → Option Nat
  | collecting => past.getLast?
  | chain false => past.head?
  | _ => none

/-- The order in which the last rank of a ladder works through the cookies. -/
def climb (past : List Nat) (self : Nat) : List Nat :=
  (past.reverse ++ [self]).mergeSort fun left right => left ≤ right

/-- The ranks whose cookies a rank joining after `past` notifies after it has released the mutex. -/
def later (n : Nat) (past : List Nat) (self : Nat) : Schedule → List Nat
  | rooted root => if self = root then past.reverse else if root ∈ past then [root] else []
  | ladder =>
      if past.length + 1 = n then
        match climb past self with
        | [] => []
        | first :: rest => first :: rest.flatMap fun rank => [rank, rank]
      else []
  | _ => if past.length + 1 = n then past.reverse else []

/-- The rank whose cookie a rank joining after `past` waits for. -/
def request (n : Nat) (past : List Nat) (self : Nat) : Schedule → Nat
  | rooted root =>
      if self = root then
        if past.length + 1 = n then past.headD self else self
      else if root ∈ past then root
      else self
  | collecting => if past.length + 1 = n then past.getLastD self else self
  | chain _ => if past.length + 1 = n then past.headD self else self
  | ladder => self

/-- The ranks whose cookies a rank joining after `past` takes out of the box into its own list. -/
def taken (n : Nat) (past : List Nat) (self : Nat) : Schedule → List Nat
  | rooted root => if self = root then past.reverse else []
  | ladder => if past.length + 1 = n then past.reverse ++ [self] else []
  | _ => if past.length + 1 = n then past.reverse else []

/-- The rank whose cookie a rank joining after `past` hands to `pending_` while it holds the mutex. -/
def retired (n : Nat) (past : List Nat) (self : Nat) : Schedule → Option Nat
  | rooted root => if self ≠ root ∧ root ∈ past ∧ past.length + 1 = n then some root else none
  | _ => none

variable {n : Nat} {past : List Nat} {schedule : Schedule}

/-- How often the cookie of `rank` has been or will be notified by the ranks of `past`. -/
def issued (schedule : Schedule) (n : Nat) (rank : Nat) : List Nat → Nat
  | [] => 0
  | self :: past =>
      schedule.issued n rank past + (schedule.now past).toList.count rank +
        (schedule.later n past self).count rank

/-- The number of notifications the cookie of `rank` waits for, if `rank` has joined and made one. -/
def numOf (schedule : Schedule) (n : Nat) (rank : Nat) : List Nat → Option Int
  | [] => none
  | self :: past => if self = rank then schedule.num n past self else schedule.numOf n rank past

theorem mem_of_numOf {rank : Nat} {k : Int} (made : schedule.numOf n rank past = some k) :
    rank ∈ past := by
  induction past with
  | nil => simp [numOf] at made
  | cons self past ih =>
      rw [numOf] at made
      split at made
      case isTrue same => exact same ▸ List.mem_cons_self
      case isFalse => exact List.mem_cons_of_mem self (ih made)

/-- What a joining rank notifies has been made before. -/
theorem mem_of_now {rank : Nat} (notified : schedule.now past = some rank) : rank ∈ past := by
  cases schedule with
  | rooted root => simp [now] at notified
  | collecting => exact List.mem_of_getLast? notified
  | chain inPlace =>
      cases inPlace with
      | true => simp [now] at notified
      | false => exact List.mem_of_head? notified
  | ladder => simp [now] at notified

theorem mem_climb {self rank : Nat} : rank ∈ climb past self ↔ rank = self ∨ rank ∈ past := by
  rw [climb, List.mem_mergeSort]
  simp [or_comm]

theorem mem_of_later {self rank : Nat} (notified : rank ∈ schedule.later n past self) :
    rank = self ∨ rank ∈ past := by
  cases schedule with
  | rooted root =>
      simp only [later] at notified
      split at notified
      · exact Or.inr (List.mem_reverse.mp notified)
      · split at notified
        case isTrue joined =>
          rw [List.mem_singleton.mp notified]
          exact Or.inr joined
        case isFalse => simp at notified
  | collecting =>
      simp only [later] at notified
      split at notified
      · exact Or.inr (List.mem_reverse.mp notified)
      · simp at notified
  | chain inPlace =>
      simp only [later] at notified
      split at notified
      · exact Or.inr (List.mem_reverse.mp notified)
      · simp at notified
  | ladder =>
      simp only [later] at notified
      split at notified
      · rw [← mem_climb]
        split at notified
        case h_1 => simp at notified
        case h_2 first rest sorted =>
          rw [sorted]
          rcases List.mem_cons.mp notified with rfl | inRest
          · exact List.mem_cons_self
          · obtain ⟨other, member, twice⟩ := List.mem_flatMap.mp inRest
            have same : rank = other := by simpa using twice
            exact List.mem_cons_of_mem first (same ▸ member)
      · simp at notified

/-- Nobody notifies a rank that has not joined. -/
theorem issued_eq_zero {rank : Nat} (absent : rank ∉ past) : schedule.issued n rank past = 0 := by
  induction past with
  | nil => rfl
  | cons self past ih =>
      obtain ⟨different, absentBefore⟩ := not_or.mp (mt List.mem_cons.mpr absent)
      have notNow : (schedule.now past).toList.count rank = 0 :=
        List.count_eq_zero.mpr fun member =>
          absentBefore (mem_of_now (Option.mem_toList.mp member))
      have notLater : (schedule.later n past self).count rank = 0 :=
        List.count_eq_zero.mpr fun member => (mem_of_later member).elim different absentBefore
      rw [issued, ih absentBefore, notNow, notLater]

/-- The schedule works for a communicator of `n` ranks: a single rank has nobody to wait for, which only
    a ladder allows, and a root is one of the ranks. -/
structure Suits (n : Nat) (schedule : Schedule) : Prop where
  several : 2 ≤ n ∨ schedule = ladder
  rootValid : ∀ root, schedule = rooted root → root < n

theorem Suits.of_root {n root : Nat} (several : 2 ≤ n) (valid : root < n) : Suits n (rooted root) where
  several := Or.inl several
  rootValid := by
    rintro other same
    cases same
    exact valid

/-- The ranks of `past` can have joined a communicator of `n` ranks, each once. -/
structure Joining (n : Nat) (past : List Nat) : Prop where
  nodup : past.Nodup
  bound : ∀ rank ∈ past, rank < n

namespace Joining

theorem length_le (joining : Joining n past) : past.length ≤ n := by
  have inside : past ⊆ List.range n := fun rank member => List.mem_range.mpr (joining.bound rank member)
  simpa using (List.subperm_of_subset joining.nodup inside).length_le

theorem tail {self : Nat} (joining : Joining n (self :: past)) : Joining n past where
  nodup := (List.nodup_cons.mp joining.nodup).2
  bound := fun rank member => joining.bound rank (List.mem_cons_of_mem self member)

theorem fresh {self : Nat} (joining : Joining n (self :: past)) : self ∉ past :=
  (List.nodup_cons.mp joining.nodup).1

/-- When as many ranks have joined as there are, everybody has. -/
theorem perm_range (joining : Joining n past) (full : past.length = n) : past.Perm (List.range n) :=
  Foundation.perm_range_of_full joining.nodup joining.bound full

theorem mem_of_full (joining : Joining n past) (full : past.length = n) {rank : Nat} (valid : rank < n) :
    rank ∈ past :=
  (joining.perm_range full).mem_iff.mpr (List.mem_range.mpr valid)

end Joining

/-- The number of notifications the cookie of `rank` still expects from ranks that have not joined. -/
def future (n : Nat) (past : List Nat) (rank : Nat) : Schedule → Nat
  | rooted root => if rank = root then n - past.length else if root ∈ past then 0 else 1
  | collecting =>
      if past.length = n then 0
      else if past.getLast? = some rank then n - past.length + 1
      else 1
  | chain inPlace =>
      if past.length = n then 0
      else if inPlace then 1
      else if past.head? = some rank then 2
      else 1
  | ladder => if past.length = n then 0 else if rank ≠ 0 then 2 else 1

section Steps

variable {self rank : Nat}

theorem count_reverse_of_mem (joining : Joining n (self :: past)) (member : rank ∈ past) :
    past.reverse.count rank = 1 := by
  rw [List.count_reverse]
  exact List.count_eq_one_of_mem joining.tail.nodup member

theorem count_reverse_self (joining : Joining n (self :: past)) : past.reverse.count self = 0 := by
  rw [List.count_reverse]
  exact List.count_eq_zero.mpr joining.fresh

/-- The last rank of a ladder climbs all ranks in order. -/
theorem climb_eq_range (joining : Joining n (self :: past)) (last : past.length + 1 = n) :
    climb past self = List.range n := by
  have all : (self :: past).Perm (List.range n) := joining.perm_range (by simpa using last)
  have perm : (climb past self).Perm (List.range n) := by
    refine (List.mergeSort_perm _ _).trans (List.Perm.trans ?_ all)
    exact (List.perm_append_singleton self past.reverse).trans ((List.reverse_perm past).cons self)
  have sorted : (climb past self).Pairwise fun left right => left ≤ right :=
    List.pairwise_mergeSort' (fun left right : Nat => left ≤ right) _
  exact perm.eq_of_pairwise' sorted List.pairwise_le_range

/-- In a ladder every rank is visited twice, rank 0 once. -/
theorem count_later_ladder (joining : Joining n (self :: past)) (last : past.length + 1 = n)
    (valid : rank < n) : (ladder.later n past self).count rank = if rank ≠ 0 then 2 else 1 := by
  obtain ⟨m, rfl⟩ : ∃ m, n = m + 1 := ⟨past.length, last.symm⟩
  rw [later, if_pos last, climb_eq_range joining last, List.range_succ_eq_map]
  have twice : ∀ l : List Nat, (l.flatMap fun rank => [rank, rank]).count rank = 2 * l.count rank := by
    intro l
    induction l with
    | nil => rfl
    | cons other l ih =>
        rw [List.flatMap_cons, List.count_append, ih, List.count_cons]
        by_cases same : other = rank
        · simp [same]
          omega
        · simp [same]
  by_cases zero : rank = 0
  · subst zero
    have absent : (List.map Nat.succ (List.range m)).count 0 = 0 :=
      List.count_eq_zero.mpr (by simp)
    simp only [List.count_cons, twice, absent]
    simp
  · have present : (List.map Nat.succ (List.range m)).count rank = 1 := by
      refine List.count_eq_one_of_mem (List.nodup_range.map Nat.succ_injective) ?_
      exact List.mem_map.mpr ⟨rank - 1, List.mem_range.mpr (by omega), by omega⟩
    simp only [List.count_cons, twice, present]
    simp [zero, Ne.symm zero]

/-- A new cookie expects what it was made for, apart from what its own maker will do. -/
theorem future_new (joining : Joining n (self :: past)) (suits : Suits n schedule) {k : Int}
    (made : schedule.num n past self = some k) :
    ((schedule.later n past self).count self + schedule.future n (self :: past) self : Nat) = k := by
  have fresh := joining.fresh
  have short : past.length < n := joining.length_le
  have ownBefore := count_reverse_self joining
  cases schedule with
  | rooted root =>
      simp only [num] at made
      by_cases isRoot : self = root
      · subst isRoot
        rw [if_pos rfl] at made
        split at made
        · cases made
        · obtain rfl := Option.some.inj made
          simp only [later, future, if_true, List.length_cons, ownBefore]
          omega
      · rw [if_neg isRoot] at made
        split at made
        · cases made
        case isFalse absent =>
          obtain rfl := Option.some.inj made
          simp [later, future, isRoot, absent, Ne.symm isRoot]
  | collecting =>
      have several : 2 ≤ n := suits.several.resolve_right (by simp)
      simp only [num] at made
      split at made
      case isTrue first =>
        subst first
        obtain rfl := Option.some.inj made
        have more : 0 + 1 ≠ n := by omega
        simp only [later, future, List.length_nil, List.length_cons, if_neg more, List.getLast?_singleton,
          List.count_nil, if_true]
        omega
      case isFalse later' =>
        split at made
        · cases made
        case isFalse notLast =>
          obtain rfl := Option.some.inj made
          obtain ⟨other, rest, rfl⟩ := List.exists_cons_of_ne_nil later'
          have notFirst : (self :: other :: rest).getLast? ≠ some self := by
            rw [List.getLast?_cons_cons]
            exact fun same => fresh (List.mem_of_getLast? same)
          simp only [later, future, List.length_cons] at *
          rw [if_neg notLast, if_neg notLast, if_neg notFirst]
          rfl
  | chain inPlace =>
      simp only [num] at made
      split at made
      · cases made
      case isFalse notLast =>
        obtain rfl := Option.some.inj made
        cases inPlace <;> simp [later, future, notLast]
  | ladder =>
      simp only [num] at made
      obtain rfl := Option.some.inj made
      by_cases last : past.length + 1 = n
      · rw [count_later_ladder joining last (joining.bound self List.mem_cons_self)]
        by_cases zero : self = 0 <;> simp [future, last, zero]
      · by_cases zero : self = 0 <;> simp [later, future, last, zero]

/-- What a joining rank does to an older cookie is taken from what that cookie expects. -/
theorem future_step (joining : Joining n (self :: past)) (member : rank ∈ past) :
    (schedule.now past).toList.count rank + (schedule.later n past self).count rank +
        schedule.future n (self :: past) rank = schedule.future n past rank := by
  have fresh := joining.fresh
  have short : past.length < n := joining.length_le
  have notFull : past.length ≠ n := by omega
  have different : rank ≠ self := fun same => fresh (same ▸ member)
  have before := count_reverse_of_mem joining member
  cases schedule with
  | rooted root =>
      simp only [now, later, future, Option.toList_none, List.count_nil, List.length_cons]
      by_cases isRoot : self = root
      · subst isRoot
        simp [different, fresh, before]
      · by_cases joined : root ∈ past
        · by_cases same : rank = root
          · subst same
            simp [isRoot, joined]
            omega
          · simp [isRoot, joined, same, Ne.symm same]
        · have other : rank ≠ root := fun same => joined (same ▸ member)
          simp [isRoot, joined, other, Ne.symm isRoot]
  | collecting =>
      have served : (collecting.later n past self).count rank =
          if past.length + 1 = n then 1 else 0 := by
        simp only [later]
        split
        · exact before
        · rfl
      obtain ⟨latest, rest, rfl⟩ := List.exists_cons_of_ne_nil (List.ne_nil_of_mem member)
      obtain ⟨first, isFirst⟩ : ∃ first, (latest :: rest).getLast? = some first :=
        ⟨_, List.getLast?_eq_some_getLast (by simp)⟩
      rw [served]
      simp only [now, future, List.getLast?_cons_cons, isFirst, List.length_cons, Option.some.injEq]
        at notFull short ⊢
      rw [if_neg notFull]
      by_cases last : rest.length + 1 + 1 = n <;> by_cases same : first = rank <;>
        simp [last, same] <;> omega
  | chain inPlace =>
      have served : ((chain inPlace).later n past self).count rank =
          if past.length + 1 = n then 1 else 0 := by
        simp only [later]
        split
        · exact before
        · rfl
      obtain ⟨latest, rest, rfl⟩ := List.exists_cons_of_ne_nil (List.ne_nil_of_mem member)
      rw [served]
      simp only [future, List.length_cons, List.head?_cons, Option.some.injEq] at notFull ⊢
      rw [if_neg notFull]
      cases inPlace with
      | true => by_cases last : rest.length + 1 + 1 = n <;> simp [now, last]
      | false =>
          by_cases last : rest.length + 1 + 1 = n <;> by_cases same : latest = rank <;>
            simp [now, last, same, Ne.symm different]
  | ladder =>
      have valid : rank < n := joining.tail.bound rank member
      simp only [now, future, List.length_cons, if_neg notFull, Option.toList_none, List.count_nil]
      by_cases last : past.length + 1 = n
      · rw [count_later_ladder joining last valid, if_pos last]
        simp
      · simp [later, last]

end Steps

/-- At any time, what has been promised to a cookie and what it still expects add up to the number it
    was made for. -/
theorem issued_add_future (joining : Joining n past) (suits : Suits n schedule) {rank : Nat}
    {k : Int} (made : schedule.numOf n rank past = some k) :
    (schedule.issued n rank past + schedule.future n past rank : Nat) = k := by
  induction past with
  | nil => simp [numOf] at made
  | cons self past ih =>
      rw [numOf] at made
      split at made
      case isTrue same =>
        subst same
        have notNow : (schedule.now past).toList.count self = 0 :=
          List.count_eq_zero.mpr fun member =>
            joining.fresh (mem_of_now (Option.mem_toList.mp member))
        rw [issued, issued_eq_zero joining.fresh, notNow, Nat.zero_add]
        exact future_new joining suits made
      case isFalse other =>
        have old := ih joining.tail made
        have step : (schedule.now past).toList.count rank + (schedule.later n past self).count rank +
              schedule.future n (self :: past) rank = schedule.future n past rank :=
          future_step joining (mem_of_numOf made)
        rw [issued]
        omega

/-- Nothing is expected any more when everybody has joined. -/
theorem future_eq_zero (joining : Joining n past) (full : past.length = n)
    (suits : Suits n schedule) (rank : Nat) :
    schedule.future n past rank = 0 := by
  cases schedule with
  | rooted root =>
      have joined : root ∈ past := joining.mem_of_full full (suits.rootValid root rfl)
      simp [future, full, joined]
  | collecting => simp [future, full]
  | chain inPlace => simp [future, full]
  | ladder => simp [future, full]

/-- When everybody has joined, every cookie has been promised what it was made for. -/
theorem balanced (joining : Joining n past) (full : past.length = n)
    (suits : Suits n schedule)
    {rank : Nat} {k : Int} (made : schedule.numOf n rank past = some k) :
    (schedule.issued n rank past : Int) = k := by
  have total := issued_add_future joining suits made
  rwa [future_eq_zero joining full suits, Nat.add_zero] at total

/-- No cookie is promised more than it was made for. -/
theorem issued_le_numOf (joining : Joining n past) (suits : Suits n schedule) {rank : Nat}
    {k : Int} (made : schedule.numOf n rank past = some k) : (schedule.issued n rank past : Int) ≤ k := by
  have total := issued_add_future joining suits made
  omega

/-- The number of notifications is one that a counter can start with. -/
theorem num_range {self : Nat} (joining : Joining n (self :: past)) {k : Int}
    (made : schedule.num n past self = some k) : 0 ≤ k ∧ k ≤ n + 1 := by
  have short : past.length + 1 ≤ n := joining.length_le
  cases schedule with
  | rooted root =>
      simp only [num] at made
      split at made
      · split at made
        · cases made
        · cases made
          omega
      · split at made
        · cases made
        · cases made
          omega
  | collecting =>
      simp only [num] at made
      split at made
      · cases made
        omega
      · split at made
        · cases made
        · cases made
          omega
  | chain inPlace =>
      simp only [num] at made
      split at made
      · cases made
      · cases made
        split <;> omega
  | ladder =>
      simp only [num] at made
      cases made
      split <;> omega

theorem numOf_le (joining : Joining n past) {rank : Nat} {k : Int}
    (made : schedule.numOf n rank past = some k) : k ≤ n + 1 := by
  induction past with
  | nil => cases made
  | cons self past ih =>
      rw [numOf] at made
      split at made
      case isTrue => exact (num_range joining made).2
      case isFalse => exact ih joining.tail made

/-! ### Where the cookies are -/

section Boxes

variable {self : Nat}

/-- The box is empty only before the first rank and after the last one. -/
theorem box_eq_nil (short : past.length < n) : schedule.box n past = [] ↔ past = [] := by
  have notFull : past.length ≠ n := Nat.ne_of_lt short
  cases schedule with
  | rooted root =>
      simp only [box, if_neg notFull]
      split
      case isTrue joined =>
        have nonempty : past ≠ [] := List.ne_nil_of_mem joined
        simp [nonempty]
      case isFalse => simp
  | collecting => simp [box, notFull]
  | chain inPlace => simp [box, notFull]
  | ladder => simp [box, notFull]

theorem box_full (full : past.length = n) : schedule.box n past = [] := by
  cases schedule <;> simp [box, full]

/-- No cookie is lost: the cookies of the box and the new one are, after the join, in the box, in the
    joining rank's own list, or pending. -/
theorem box_conserved (joining : Joining n (self :: past)) (suits : Suits n schedule) :
    (schedule.box n past ++ (schedule.num n past self).toList.map fun _ => self).Perm
      (schedule.box n (self :: past) ++
        (schedule.taken n past self ++ (schedule.retired n past self).toList)) := by
  have short : past.length < n := joining.length_le
  have notFull : past.length ≠ n := Nat.ne_of_lt short
  have fresh := joining.fresh
  cases schedule with
  | rooted root =>
      by_cases isRoot : self = root
      · subst isRoot
        by_cases last : past.length + 1 = n
        · simp [box, num, taken, retired, notFull, fresh, last]
        · simp only [box, num, taken, retired, if_neg notFull, if_neg fresh, if_neg last, List.length_cons]
          simp
      · by_cases joined : root ∈ past
        · by_cases last : past.length + 1 = n <;>
            simp [box, num, taken, retired, notFull, isRoot, joined, last]
        · have notLast : past.length + 1 ≠ n := fun full =>
            (List.mem_cons.mp (joining.mem_of_full full (suits.rootValid root rfl))).elim
              (fun same => isRoot same.symm) joined
          simp [box, num, taken, retired, notFull, isRoot, joined, notLast, Ne.symm isRoot]
  | collecting =>
      have several : 2 ≤ n := suits.several.resolve_right (by simp)
      by_cases first : past = []
      · subst first
        have more : 0 + 1 ≠ n := by omega
        simp [box, num, taken, retired, more]
      · by_cases last : past.length + 1 = n <;>
          simp [box, num, taken, retired, notFull, first, last]
  | chain inPlace =>
      by_cases last : past.length + 1 = n <;> simp [box, num, taken, retired, notFull, last]
  | ladder =>
      by_cases last : past.length + 1 = n <;> simp [box, num, taken, retired, notFull, last]

/-- The cookies of the box have been made, the new one included. -/
theorem numOf_of_mem_box (joining : Joining n past) (suits : Suits n schedule) {rank : Nat}
    (inBox : rank ∈ schedule.box n past) : (schedule.numOf n rank past).isSome := by
  induction past with
  | nil => cases schedule <;> simp [box] at inBox
  | cons self past ih =>
      have before : rank ∈ schedule.box n past ++ (schedule.num n past self).toList.map fun _ => self :=
        (box_conserved joining suits).mem_iff.mpr (List.mem_append_left _ inBox)
      rw [numOf]
      rcases List.mem_append.mp before with old | new
      · have other : self ≠ rank := by
          rintro rfl
          exact joining.fresh (mem_of_numOf (Option.some_get (ih joining.tail old)).symm)
        rw [if_neg other]
        exact ih joining.tail old
      · obtain ⟨k, made, same⟩ := List.mem_map.mp new
        rw [if_pos same, Option.mem_toList.mp made]
        rfl

/-- A cookie in the box belongs to a rank that has joined. -/
theorem mem_of_box (joining : Joining n past) (suits : Suits n schedule) {rank : Nat}
    (inBox : rank ∈ schedule.box n past) : rank ∈ past := by
  obtain ⟨k, makes⟩ := Option.isSome_iff_exists.mp (numOf_of_mem_box joining suits inBox)
  exact mem_of_numOf makes

/-- A rank waits for a cookie of the box or for its own. -/
theorem request_cases (joining : Joining n (self :: past)) (suits : Suits n schedule) :
    schedule.request n past self ∈ schedule.box n past ∨
      schedule.request n past self = self ∧ (schedule.num n past self).isSome := by
  have notFull : past.length ≠ n := Nat.ne_of_lt joining.length_le
  have fresh := joining.fresh
  by_cases ladders : schedule = ladder
  · subst ladders
    exact Or.inr ⟨rfl, rfl⟩
  have several : 2 ≤ n := suits.several.resolve_right ladders
  by_cases last : past.length + 1 = n
  · obtain ⟨latest, rest, rfl⟩ : ∃ latest rest, past = latest :: rest :=
      List.exists_cons_of_ne_nil (by rintro rfl; simp at last; omega)
    cases schedule with
    | rooted root =>
        by_cases isRoot : self = root
        · subst isRoot
          simp only [request, box, if_true, if_pos last, if_neg notFull, if_neg fresh]
          simp
        · by_cases joined : root ∈ latest :: rest
          · simp only [request, box, if_neg isRoot, if_pos joined, if_neg notFull]
            simp
          · simp only [request, num, if_neg isRoot, if_neg joined]
            simp
    | collecting =>
        simp only [request, box, if_pos last, if_neg notFull]
        refine Or.inl (List.mem_reverse.mpr ?_)
        rw [List.getLastD_eq_getLast?, List.getLast?_eq_some_getLast (by simp)]
        exact List.getLast_mem _
    | chain inPlace =>
        simp only [request, box, if_pos last, if_neg notFull]
        simp
    | ladder => exact absurd rfl ladders
  · cases schedule with
    | rooted root =>
        by_cases isRoot : self = root
        · simp [request, num, isRoot, last]
        · by_cases joined : root ∈ past
          · simp [request, box, notFull, isRoot, joined]
          · simp [request, num, isRoot, joined]
    | collecting =>
        refine Or.inr ⟨by simp [request, last], ?_⟩
        by_cases first : past = [] <;> simp [num, first, last]
    | chain inPlace => exact Or.inr ⟨by simp [request, last], by simp [num, last]⟩
    | ladder => exact absurd rfl ladders

/-- What a joining rank notifies at once is in the box. -/
theorem mem_box_of_now (short : past.length < n) {rank : Nat} (notified : schedule.now past = some rank) :
    rank ∈ schedule.box n past := by
  have notFull : past.length ≠ n := Nat.ne_of_lt short
  have member := mem_of_now notified
  cases schedule with
  | rooted root => simp [now] at notified
  | collecting => simpa [box, notFull] using member
  | chain inPlace => simpa [box, notFull] using member
  | ladder => simp [now] at notified

/-- What a joining rank notifies later was in the box, or is its own cookie. -/
theorem mem_box_of_later (joining : Joining n (self :: past)) {rank : Nat}
    (notified : rank ∈ schedule.later n past self) :
    rank ∈ schedule.box n past ∨ rank = self ∧ (schedule.num n past self).isSome := by
  have notFull : past.length ≠ n := Nat.ne_of_lt joining.length_le
  have fresh := joining.fresh
  have member := mem_of_later notified
  cases schedule with
  | rooted root =>
      by_cases isRoot : self = root
      · subst isRoot
        simp only [later, if_true] at notified
        simp [box, notFull, fresh, List.mem_reverse.mp notified]
      · by_cases joined : root ∈ past
        · simp only [later, if_neg isRoot, if_pos joined, List.mem_singleton] at notified
          simp [box, notFull, joined, notified]
        · simp [later, isRoot, joined] at notified
  | collecting =>
      by_cases last : past.length + 1 = n
      · simp only [later, if_pos last] at notified
        simpa [box, notFull] using Or.inl (List.mem_reverse.mp notified)
      · simp [later, last] at notified
  | chain inPlace =>
      by_cases last : past.length + 1 = n
      · simp only [later, if_pos last] at notified
        simpa [box, notFull] using Or.inl (List.mem_reverse.mp notified)
      · simp [later, last] at notified
  | ladder =>
      rcases member with same | earlier
      · exact Or.inr ⟨same, rfl⟩
      · exact Or.inl (by simpa [box, notFull] using earlier)

/-- A rank that makes a cookie waits for it. -/
theorem request_of_num {k : Int} (makes : schedule.num n past self = some k) :
    schedule.request n past self = self := by
  cases schedule with
  | rooted root =>
      by_cases isRoot : self = root
      · by_cases last : past.length + 1 = n
        · simp [num, isRoot, last] at makes
        · simp [request, isRoot, last]
      · by_cases joined : root ∈ past
        · simp [num, isRoot, joined] at makes
        · simp [request, isRoot, joined]
  | collecting =>
      by_cases first : past = []
      · simp [request, first]
      · by_cases last : past.length + 1 = n
        · simp [num, first, last] at makes
        · simp [request, last]
  | chain inPlace =>
      by_cases last : past.length + 1 = n
      · simp [num, last] at makes
      · simp [request, last]
  | ladder => rfl

/-- A rank that hands a cookie to `pending_` waits for it. -/
theorem request_of_retired {rank : Nat} (retired : schedule.retired n past self = some rank) :
    schedule.request n past self = rank := by
  cases schedule with
  | rooted root =>
      simp only [Schedule.retired] at retired
      split at retired
      case isTrue last =>
        obtain rfl := Option.some.inj retired
        simp [request, last.1, last.2.1]
      case isFalse => cases retired
  | collecting | chain | ladder => cases retired

/-- It is not its own. -/
theorem retired_ne {rank : Nat} (retired : schedule.retired n past self = some rank) : rank ≠ self := by
  cases schedule with
  | rooted root =>
      simp only [Schedule.retired] at retired
      split at retired
      case isTrue last =>
        obtain rfl := Option.some.inj retired
        exact Ne.symm last.1
      case isFalse => cases retired
  | collecting | chain | ladder => cases retired

/-- No cookie is taken twice. -/
theorem taken_nodup (joining : Joining n (self :: past)) : (schedule.taken n past self).Nodup := by
  have earlier : past.reverse.Nodup := List.nodup_reverse.mpr joining.tail.nodup
  have all : (past.reverse ++ [self]).Nodup := by
    rw [← List.reverse_cons]
    exact List.nodup_reverse.mpr joining.nodup
  cases schedule with
  | rooted root =>
      simp only [taken]
      split
      · exact earlier
      · exact List.nodup_nil
  | ladder =>
      simp only [taken]
      split
      · exact all
      · exact List.nodup_nil
  | collecting | chain =>
      simp only [taken]
      split
      · exact earlier
      · exact List.nodup_nil

/-- The cookies a rank takes have been in the box, or it has just made them. -/
theorem mem_box_of_taken (joining : Joining n (self :: past)) (suits : Suits n schedule) {rank : Nat}
    (gone : rank ∈ schedule.taken n past self) :
    rank ∈ schedule.box n past ∨ rank = self ∧ (schedule.num n past self).isSome := by
  have listed := (box_conserved joining suits).mem_iff.mpr
    (List.mem_append_right _ (List.mem_append_left (schedule.retired n past self).toList gone))
  rcases List.mem_append.mp listed with inBox | new
  · exact Or.inl inBox
  · obtain ⟨k, makes, same⟩ := List.mem_map.mp new
    exact Or.inr ⟨same.symm, by rw [Option.mem_toList.mp makes]; rfl⟩

/-- What leaves the box is taken or handed to `pending_`. -/
theorem taken_or_retired (joining : Joining n (self :: past)) (suits : Suits n schedule) {rank : Nat}
    (before : rank ∈ schedule.box n past ∨ rank = self ∧ (schedule.num n past self).isSome)
    (gone : rank ∉ schedule.box n (self :: past)) :
    rank ∈ schedule.taken n past self ∨ schedule.retired n past self = some rank := by
  have listed : rank ∈ schedule.box n past ++ (schedule.num n past self).toList.map fun _ => self := by
    rcases before with inBox | ⟨rfl, new⟩
    · exact List.mem_append_left _ inBox
    · obtain ⟨k, makes⟩ := Option.isSome_iff_exists.mp new
      exact List.mem_append_right _ (by simp [makes])
  rcases List.mem_append.mp ((box_conserved joining suits).mem_iff.mp listed) with inBox | moved
  · exact absurd inBox gone
  · exact (List.mem_append.mp moved).imp_right Option.mem_toList.mp

/-- No cookie is in the box twice. -/
theorem box_nodup (joining : Joining n past) : (schedule.box n past).Nodup := by
  have earlier : past.reverse.Nodup := List.nodup_reverse.mpr joining.nodup
  cases schedule with
  | rooted root =>
      simp only [box]
      split
      · exact List.nodup_nil
      · split
        · exact List.nodup_singleton root
        · exact earlier
  | collecting | chain | ladder =>
      simp only [box]
      split
      · exact List.nodup_nil
      · exact earlier

/-- A joining rank's own cookie is not there yet. -/
theorem notMem_box (joining : Joining n (self :: past)) (suits : Suits n schedule) :
    self ∉ schedule.box n past := fun inBox =>
  joining.fresh (mem_of_box joining.tail suits inBox)

/-- What is taken or handed to `pending_` leaves the box. -/
theorem gone_of_left (joining : Joining n (self :: past)) (suits : Suits n schedule) {rank : Nat}
    (left : rank ∈ schedule.taken n past self ∨ schedule.retired n past self = some rank) :
    (rank ∈ schedule.box n past ∨ rank = self ∧ (schedule.num n past self).isSome) ∧
      rank ∉ schedule.box n (self :: past) := by
  have conserved := box_conserved joining suits
  have moved : rank ∈ schedule.taken n past self ++ (schedule.retired n past self).toList :=
    List.mem_append.mpr (left.imp_right Option.mem_toList.mpr)
  have before : (schedule.box n past ++ (schedule.num n past self).toList.map fun _ => self).Nodup := by
    rw [List.nodup_append']
    refine ⟨box_nodup joining.tail, by cases schedule.num n past self <;> simp, fun other inBox new => ?_⟩
    obtain ⟨k, _, rfl⟩ := List.mem_map.mp new
    exact notMem_box joining suits inBox
  constructor
  · rcases List.mem_append.mp (conserved.mem_iff.mpr (List.mem_append_right _ moved)) with inBox | new
    · exact Or.inl inBox
    · obtain ⟨k, makes, same⟩ := List.mem_map.mp new
      exact Or.inr ⟨same.symm, by rw [Option.mem_toList.mp makes]; rfl⟩
  · exact fun inBox => (List.nodup_append'.mp (conserved.nodup_iff.mp before)).2.2 inBox moved

/-- What is in the box was there before or is the new one. -/
theorem mem_box_cases (joining : Joining n (self :: past)) (suits : Suits n schedule) {rank : Nat}
    (inBox : rank ∈ schedule.box n (self :: past)) :
    rank ∈ schedule.box n past ∨ rank = self ∧ (schedule.num n past self).isSome := by
  rcases List.mem_append.mp ((box_conserved joining suits).mem_iff.mpr (List.mem_append_left _ inBox)) with
    old | new
  · exact Or.inl old
  · obtain ⟨k, makes, same⟩ := List.mem_map.mp new
    exact Or.inr ⟨same.symm, by rw [Option.mem_toList.mp makes]; rfl⟩

/-- A cookie in the box expects something. -/
theorem future_pos (short : past.length < n) {rank : Nat} (inBox : rank ∈ schedule.box n past) :
    0 < schedule.future n past rank := by
  have notFull : past.length ≠ n := Nat.ne_of_lt short
  cases schedule with
  | rooted root =>
      simp only [box, if_neg notFull] at inBox
      simp only [future]
      split
      · omega
      case isFalse other =>
        split at inBox
        · exact absurd (List.mem_singleton.mp inBox) other
        case isFalse absent => simp [absent]
  | collecting =>
      simp only [future, if_neg notFull]
      split <;> omega
  | chain inPlace =>
      simp only [future, if_neg notFull]
      split
      · exact Nat.one_pos
      · split <;> omega
  | ladder =>
      simp only [future, if_neg notFull]
      split <;> omega

/-- A cookie that has left the box expects nothing from ranks that have not joined. -/
theorem future_of_gone {rank : Nat} (joined : rank ∈ past) (suits : Suits n schedule)
    (joining : Joining n past) (gone : rank ∉ schedule.box n past) : schedule.future n past rank = 0 := by
  have listed : rank ∈ past.reverse := List.mem_reverse.mpr joined
  by_cases full : past.length = n
  · exact future_eq_zero joining full suits rank
  · cases schedule with
    | rooted root =>
        by_cases present : root ∈ past
        · have other : rank ≠ root := by
            rintro rfl
            simp [box, full, present] at gone
          simp [future, other, present]
        · simp [box, full, present, joined] at gone
    | collecting => simp [box, full, joined] at gone
    | chain inPlace => simp [box, full, joined] at gone
    | ladder => simp [box, full, joined] at gone

end Boxes

end Schedule

end Umpi
