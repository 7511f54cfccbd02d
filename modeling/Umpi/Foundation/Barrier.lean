/-
Module: Umpi.Foundation.Barrier
Layer: Foundation
Purpose: A barrier that `n` parties use again and again. It holds the parties that are waiting; the last one
  to arrive does not wait but releases the others, and the barrier is empty again.
Imports: none
Trusted boundary: none
Main exports: perm_range_of_full, exists_missing, Barrier, Barrier.arrive, Barrier.arrive_cases, Barrier.Counts,
  Barrier.Counts.arrive
Open obligations: none
-/
import Mathlib.Data.List.Perm.Subperm
import Mathlib.Data.List.Range
import Mathlib.Logic.Function.Basic
import Mathlib.Tactic.Common

namespace Umpi.Foundation

/-! ### Parties -/

section Parties

variable {n : Nat} {parties : List Nat}

/-- As many parties as there are, each once, are all of them. -/
theorem perm_range_of_full (nodup : parties.Nodup) (bound : ∀ party ∈ parties, party < n)
    (full : parties.length = n) : parties.Perm (List.range n) := by
  have inside : parties ⊆ List.range n := fun party member => List.mem_range.mpr (bound party member)
  exact (List.subperm_of_subset nodup inside).perm_of_length_le (by simp [full])

/-- As long as not everybody has come, somebody has not. -/
theorem exists_missing (short : parties.length < n) : ∃ party < n, party ∉ parties := by
  by_contra everybody
  push Not at everybody
  have inside : List.range n ⊆ parties := fun party member => everybody party (List.mem_range.mp member)
  have count := (List.subperm_of_subset List.nodup_range inside).length_le
  rw [List.length_range] at count
  omega

end Parties

/-! ### The barrier -/

/-- The parties that wait at a barrier for `n`. Not everybody can be waiting. -/
structure Barrier (n : Nat) where
  waiting : List Nat
  nodup : waiting.Nodup
  bound : ∀ party ∈ waiting, party < n
  short : waiting.length < n

namespace Barrier

variable {n : Nat}

/-- Nobody is waiting. -/
def opened (several : 0 < n) : Barrier n where
  waiting := []
  nodup := List.nodup_nil
  bound := fun _ member => absurd member List.not_mem_nil
  short := several

/-- A party that is not waiting arrives. -/
def arrive (barrier : Barrier n) (party : Nat) (valid : party < n) (absent : party ∉ barrier.waiting) :
    Barrier n :=
  if full : barrier.waiting.length + 1 = n then opened (Nat.zero_lt_of_lt valid)
  else
    { waiting := party :: barrier.waiting
      nodup := List.nodup_cons.mpr ⟨absent, barrier.nodup⟩
      bound := fun other member =>
        (List.mem_cons.mp member).elim (fun same => same ▸ valid) (barrier.bound other)
      short := by
        have short := barrier.short
        rw [List.length_cons]
        omega }

variable {barrier : Barrier n} {party : Nat}

/-- A party that arrives waits, unless everybody else does: then the barrier opens. -/
theorem arrive_cases (valid : party < n) (absent : party ∉ barrier.waiting) :
    ((barrier.arrive party valid absent).waiting = party :: barrier.waiting) ∨
      ((barrier.arrive party valid absent).waiting = [] ∧
        ∀ other < n, other = party ∨ other ∈ barrier.waiting) := by
  unfold arrive
  split
  case isTrue full =>
    refine Or.inr ⟨rfl, fun other otherValid => List.mem_cons.mp ?_⟩
    have everybody : (party :: barrier.waiting).Perm (List.range n) := by
      refine perm_range_of_full (List.nodup_cons.mpr ⟨absent, barrier.nodup⟩) (fun rank member => ?_) full
      exact (List.mem_cons.mp member).elim (fun same => same ▸ valid) (barrier.bound rank)
    exact everybody.mem_iff.mpr (List.mem_range.mpr otherValid)
  case isFalse => exact Or.inl rfl

/-- Somebody is not waiting. -/
theorem exists_absent (barrier : Barrier n) : ∃ party < n, party ∉ barrier.waiting := exists_missing barrier.short

/-! ### How often the barrier has opened -/

/-- Everybody has arrived as often as the barrier has opened, and whoever is waiting once more. -/
def Counts (barrier : Barrier n) (arrivals : Nat → Nat) (era : Nat) : Prop :=
  ∀ party < n, arrivals party = era + if party ∈ barrier.waiting then 1 else 0

variable {arrivals : Nat → Nat} {era : Nat}

@[simp] theorem opened_waiting (several : 0 < n) : (opened several).waiting = [] := rfl

theorem counts_opened (several : 0 < n) : (opened several).Counts (fun _ => 0) 0 := by
  intro party _
  simp

theorem Counts.of_waiting (counts : barrier.Counts arrivals era) (valid : party < n)
    (waits : party ∈ barrier.waiting) : arrivals party = era + 1 :=
  (counts party valid).trans (by rw [if_pos waits])

theorem Counts.of_absent (counts : barrier.Counts arrivals era) (valid : party < n)
    (absent : party ∉ barrier.waiting) : arrivals party = era :=
  (counts party valid).trans (by rw [if_neg absent, Nat.add_zero])

theorem Counts.era_le (counts : barrier.Counts arrivals era) (valid : party < n) : era ≤ arrivals party :=
  (counts party valid).symm ▸ Nat.le_add_right era _

/-- Only the numbers of the `n` parties count. -/
theorem Counts.congr (counts : barrier.Counts arrivals era) {arrivals' : Nat → Nat}
    (same : ∀ party < n, arrivals' party = arrivals party) : barrier.Counts arrivals' era :=
  fun party valid => (same party valid).trans (counts party valid)

/-- An arrival counts once, whether it opens the barrier or not. -/
theorem Counts.arrive (counts : barrier.Counts arrivals era) (valid : party < n)
    (absent : party ∉ barrier.waiting) :
    ∃ later, era ≤ later ∧
      (barrier.arrive party valid absent).Counts (Function.update arrivals party (arrivals party + 1)) later := by
  have own := counts.of_absent valid absent
  rcases arrive_cases valid absent with waits | ⟨empty, everybody⟩
  · refine ⟨era, le_rfl, fun other otherValid => ?_⟩
    by_cases same : other = party
    · subst same
      simp [waits, own]
    · simp [waits, same, counts other otherValid]
  · refine ⟨era + 1, Nat.le_succ era, fun other otherValid => ?_⟩
    rw [empty, if_neg List.not_mem_nil]
    by_cases same : other = party
    · subst same
      simp [own]
    · have waiting := (everybody other otherValid).resolve_left same
      simp [same, counts.of_waiting otherValid waiting]

end Barrier

end Umpi.Foundation
