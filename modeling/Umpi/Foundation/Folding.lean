/-
Module: Umpi.Foundation.Folding
Layer: Foundation
Purpose: Totals of values that arrive one after the other. `total` adds the value of every place to the sum of
  those that came before it, and `foldUpTo` does so in the order of the natural numbers. `Combines` says that
  an operation is closed, commutative and associative on the values of interest only, which is all it takes for
  a total not to depend on the order of arrival. `Accumulates` is weaker and says so of given values: it also
  holds of values that stand for others, if every addition that comes up is that of the values they stand for.
Imports: Mathlib list permutations
Trusted boundary: none
Main exports: total, foldUpTo, Combines, Combines.total_perm, total_range, EveryAddition, Accumulates,
  Accumulates.encoded
Open obligations: none
-/
import Mathlib.Data.List.Nodup
import Mathlib.Data.List.Perm.Basic
import Mathlib.Data.List.Range

namespace Umpi.Foundation

variable {ι α β : Type}

/-- The total of the values of the listed places, of which the latest is the first. There is none before the
    first place has come. -/
def total (f : α → α → α) (x : ι → α) : List ι → Option α
  | [] => none
  | i :: past => some ((total f x past).elim (x i) (f (x i)))

/-- The total of the values `0` up to `r`, added in this order. -/
def foldUpTo (f : α → α → α) (x : Nat → α) : Nat → α
  | 0 => x 0
  | r + 1 => f (x (r + 1)) (foldUpTo f x r)

/-- The operation is closed, commutative and associative on the valid values. -/
structure Combines (valid : α → Prop) (f : α → α → α) : Prop where
  closed : ∀ a b, valid a → valid b → valid (f a b)
  comm : ∀ a b, valid a → valid b → f a b = f b a
  assoc : ∀ a b c, valid a → valid b → valid c → f (f a b) c = f a (f b c)

section Total

variable {valid : α → Prop} {f : α → α → α} {x : ι → α}

/-- The total after the first place. -/
@[simp] theorem total_singleton (f : α → α → α) (x : ι → α) (i : ι) : total f x [i] = some (x i) := rfl

/-- The total when one more place has come. -/
theorem total_cons {past : List ι} {sum : α} (so : total f x past = some sum) (i : ι) :
    total f x (i :: past) = some (f (x i) sum) := by
  rw [total, so]
  rfl

/-- When a place has come there is a total. -/
theorem exists_total {past : List ι} (came : past ≠ []) : ∃ sum, total f x past = some sum := by
  cases past with
  | nil => exact absurd rfl came
  | cons i past => exact ⟨_, rfl⟩

/-- Totals of valid values are valid. -/
theorem total_valid (closed : ∀ a b, valid a → valid b → valid (f a b)) (values : ∀ i, valid (x i))
    {past : List ι} {sum : α} (so : total f x past = some sum) : valid sum := by
  induction past generalizing sum with
  | nil => cases so
  | cons i past ih =>
      rw [total, Option.some.injEq] at so
      rw [← so]
      cases before : total f x past with
      | none => exact values i
      | some earlier => exact closed _ _ (values i) (ih before)

/-- The order of arrival does not matter. -/
theorem Combines.total_perm (combines : Combines valid f) (values : ∀ i, valid (x i)) {past past' : List ι}
    (perm : past.Perm past') : total f x past = total f x past' := by
  induction perm with
  | nil => rfl
  | cons i _ ih => rw [total, total, ih]
  | swap i j past =>
      simp only [total, Option.elim_some, Option.some.injEq]
      cases before : total f x past with
      | none => exact combines.comm _ _ (values j) (values i)
      | some earlier =>
          have earlierValid := total_valid combines.closed values before
          calc
            f (x j) (f (x i) earlier) = f (f (x j) (x i)) earlier :=
              (combines.assoc _ _ _ (values j) (values i) earlierValid).symm
            _ = f (f (x i) (x j)) earlier := by rw [combines.comm _ _ (values j) (values i)]
            _ = f (x i) (f (x j) earlier) := combines.assoc _ _ _ (values i) (values j) earlierValid
  | trans _ _ ih ih' => exact ih.trans ih'

end Total

/-- Places that come in the order of their numbers. -/
theorem total_range (f : α → α → α) (x : Nat → α) (r : Nat) :
    total f x (List.range (r + 1)).reverse = some (foldUpTo f x r) := by
  induction r with
  | zero => rfl
  | succ r ih =>
      rw [List.range_succ, List.reverse_append, List.reverse_singleton, List.singleton_append]
      exact total_cons ih (r + 1)

/-- Every place has come once, in whatever order. -/
theorem Combines.total_eq_foldUpTo {valid : α → Prop} {f : α → α → α} {x : Nat → α}
    (combines : Combines valid f) (values : ∀ i, valid (x i)) {past : List Nat} {r : Nat}
    (all : past.Perm (List.range (r + 1))) : total f x past = some (foldUpTo f x r) := by
  rw [combines.total_perm values (all.trans (List.reverse_perm _).symm), total_range]

/-- Whenever the value of a place is added to the total of other places below `n`, it suits that total. -/
def EveryAddition (suits : α → α → Prop) (f : α → α → α) (x : Nat → α) (n : Nat) : Prop :=
  ∀ past i sum, (i :: past).Nodup → (∀ j ∈ i :: past, j < n) → total f x past = some sum → suits (x i) sum

/-- The values of the places below `n` can be added in any order, and on either side. -/
structure Accumulates (f : α → α → α) (x : Nat → α) (n : Nat) : Prop where
  comm : EveryAddition (fun value sum => f sum value = f value sum) f x n
  perm : ∀ past past' : List Nat, past.Nodup → (∀ j ∈ past, j < n) → past.Perm past' →
    total f x past = total f x past'

section Accumulates

variable {f : α → α → α} {x : Nat → α} {n : Nat}

/-- In particular when the values are added in the order of the natural numbers. -/
theorem EveryAddition.inOrder {suits : α → α → Prop} (every : EveryAddition suits f x n) {r : Nat} (below : r + 1 < n) :
    suits (x (r + 1)) (foldUpTo f x r) := by
  refine every (List.range (r + 1)).reverse (r + 1) _ ?_ ?_ (total_range f x r)
  · refine List.nodup_cons.mpr ⟨fun listed => ?_, List.nodup_reverse.mpr List.nodup_range⟩
    exact lt_irrefl (r + 1) (List.mem_range.mp (List.mem_reverse.mp listed))
  · intro j listed
    rcases List.mem_cons.mp listed with rfl | earlier
    · exact below
    · have := List.mem_range.mp (List.mem_reverse.mp earlier)
      omega

/-- Valid values can be added in any order. -/
theorem Combines.accumulates {valid : α → Prop} (combines : Combines valid f) (values : ∀ i, valid (x i)) (n : Nat) :
    Accumulates f x n where
  comm := fun _ i _ _ _ so => combines.comm _ _ (total_valid combines.closed values so) (values i)
  perm := fun _ _ _ _ perm => combines.total_perm values perm

/-- Every place has come once, in whatever order. -/
theorem Accumulates.total_eq_foldUpTo (accumulates : Accumulates f x n) {past : List Nat} {r : Nat} (below : r < n)
    (all : past.Perm (List.range (r + 1))) : total f x past = some (foldUpTo f x r) := by
  have inOrder : past.Perm (List.range (r + 1)).reverse := all.trans (List.reverse_perm _).symm
  have nodup : past.Nodup := all.nodup_iff.mpr List.nodup_range
  have bound : ∀ j ∈ past, j < n := by
    intro j listed
    have := List.mem_range.mp (all.mem_iff.mp listed)
    omega
  rw [accumulates.perm _ _ nodup bound inOrder, total_range]

/-- The total of values that stand for others stands for the total of those. -/
theorem total_encoded {g : β → β → β} {y : Nat → β} {encode : β → α} (values : ∀ i < n, x i = encode (y i))
    (adds : EveryAddition (fun value sum => f (encode value) (encode sum) = encode (g value sum)) g y n)
    {past : List Nat} (nodup : past.Nodup) (bound : ∀ j ∈ past, j < n) :
    total f x past = (total g y past).map encode := by
  induction past with
  | nil => rfl
  | cons i past ih =>
      have earlier := ih nodup.of_cons fun j listed => bound j (List.mem_cons_of_mem i listed)
      cases before : total g y past with
      | none =>
          rw [total, total, earlier, before]
          exact congrArg some (values i (bound i List.mem_cons_self))
      | some sum =>
          rw [before, Option.map_some] at earlier
          rw [total_cons earlier, total_cons before, values i (bound i List.mem_cons_self),
            adds past i sum nodup bound before]
          rfl

/-- Likewise when the values are added in the order of the natural numbers. -/
theorem foldUpTo_encoded {g : β → β → β} {y : Nat → β} {encode : β → α} {r : Nat}
    (values : ∀ i ≤ r, x i = encode (y i))
    (adds : ∀ i < r, f (encode (y (i + 1))) (encode (foldUpTo g y i)) = encode (g (y (i + 1)) (foldUpTo g y i))) :
    foldUpTo f x r = encode (foldUpTo g y r) := by
  induction r with
  | zero => exact values 0 le_rfl
  | succ r ih =>
      have earlier := ih (fun i below => values i (Nat.le_succ_of_le below))
        fun i below => adds i (Nat.lt_succ_of_lt below)
      rw [foldUpTo, earlier, values (r + 1) le_rfl, adds r (Nat.lt_succ_self r), foldUpTo]

/-- Values that stand for others can be added in any order if the others can. -/
theorem Accumulates.encoded {g : β → β → β} {y : Nat → β} {encode : β → α} (accumulates : Accumulates g y n)
    (values : ∀ i < n, x i = encode (y i))
    (adds : EveryAddition (fun value sum => f (encode value) (encode sum) = encode (g value sum)) g y n)
    (adds' : EveryAddition (fun value sum => f (encode sum) (encode value) = encode (g sum value)) g y n) :
    Accumulates f x n where
  comm := by
    intro past i sum nodup bound so
    rw [total_encoded values adds nodup.of_cons fun j listed => bound j (List.mem_cons_of_mem i listed),
      Option.map_eq_some_iff] at so
    obtain ⟨original, before, rfl⟩ := so
    rw [values i (bound i List.mem_cons_self), adds past i original nodup bound before,
      adds' past i original nodup bound before, accumulates.comm past i original nodup bound before]
  perm := by
    intro past past' nodup bound perm
    have bound' : ∀ j ∈ past', j < n := fun j listed => bound j (perm.mem_iff.mpr listed)
    rw [total_encoded values adds nodup bound, total_encoded values adds (perm.nodup_iff.mp nodup) bound',
      accumulates.perm past past' nodup bound perm]

end Accumulates

/-- Only the values up to `r` matter. -/
theorem foldUpTo_congr {f : α → α → α} {x x' : Nat → α} {r : Nat} (same : ∀ i ≤ r, x i = x' i) :
    foldUpTo f x r = foldUpTo f x' r := by
  induction r with
  | zero => exact same 0 le_rfl
  | succ r ih => rw [foldUpTo, foldUpTo, ih fun i below => same i (by omega), same (r + 1) le_rfl]

/-- Up to a place, the values of valid places give a valid total. -/
theorem foldUpTo_valid {valid : α → Prop} {f : α → α → α} {x : Nat → α}
    (closed : ∀ a b, valid a → valid b → valid (f a b)) (values : ∀ i, valid (x i)) (r : Nat) :
    valid (foldUpTo f x r) :=
  total_valid closed values (total_range f x r)

end Umpi.Foundation
