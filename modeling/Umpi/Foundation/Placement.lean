/-
Module: Umpi.Foundation.Placement
Layer: Foundation
Purpose: Things that are kept in lists, each thing in at most one list and there at most once. A move
  takes things out of some lists and puts them into others; `Exclusive.rearrange` says that a move which
  adds only new things keeps the placement exclusive. A `Partition` also says which things are held.
Imports: Mathlib list permutations, finite sums
Trusted boundary: none
Main exports: Exclusive, Exclusive.rearrange, Exclusive.eq_of_mem, card_le_sum_length, Partition, Partition.rearrange
Open obligations: none
-/
import Mathlib.Algebra.Order.BigOperators.Group.Finset
import Mathlib.Data.List.Nodup
import Mathlib.Data.List.Lattice
import Mathlib.Data.List.Pairwise
import Mathlib.Data.List.Perm.Subperm

namespace Umpi.Foundation

variable {ι α : Type}

/-- Nothing is held twice, neither by two places nor by one. -/
structure Exclusive (holds : ι → List α) : Prop where
  nodup : ∀ i, (holds i).Nodup
  disjoint : ∀ i j, i ≠ j → (holds i).Disjoint (holds j)

namespace Exclusive

variable {holds holds' : ι → List α}

/-- Whatever is found in two places is found in one. -/
theorem eq_of_mem (exclusive : Exclusive holds) {i j : ι} {a : α} (first : a ∈ holds i)
    (second : a ∈ holds j) : i = j := by
  by_contra different
  exact exclusive.disjoint i j different first second

/-- Several places together hold nothing twice. -/
theorem nodup_flatMap (exclusive : Exclusive holds) {places : List ι} (distinct : places.Nodup) :
    (places.flatMap holds).Nodup := by
  induction places with
  | nil => exact List.nodup_nil
  | cons i places ih =>
      obtain ⟨absent, rest⟩ := List.nodup_cons.mp distinct
      rw [List.flatMap_cons, List.nodup_append']
      refine ⟨exclusive.nodup i, ih rest, fun a first second => ?_⟩
      obtain ⟨j, listed, held⟩ := List.mem_flatMap.mp second
      exact absent (exclusive.eq_of_mem first held ▸ listed)

/-- Moving things between some places, dropping some and adding new ones. -/
theorem rearrange (exclusive : Exclusive holds) (places : List ι) (distinct : places.Nodup)
    (extra : List α) (extraNodup : extra.Nodup) (fresh : ∀ i, ∀ a ∈ extra, a ∉ holds i)
    (same : ∀ i ∉ places, holds' i = holds i)
    (fits : (places.flatMap holds').Subperm (places.flatMap holds ++ extra)) : Exclusive holds' := by
  have before : (places.flatMap holds ++ extra).Nodup := by
    rw [List.nodup_append']
    refine ⟨exclusive.nodup_flatMap distinct, extraNodup, fun a held new => ?_⟩
    obtain ⟨i, _, inside⟩ := List.mem_flatMap.mp held
    exact fresh i a new inside
  have after : (places.flatMap holds').Nodup := by
    obtain ⟨kept, perm, sublist⟩ := fits
    exact perm.nodup_iff.mp (before.sublist sublist)
  have pairs := List.nodup_flatMap.mp after
  -- what a listed place holds now was held by a listed place or is new
  have origin : ∀ i ∈ places, ∀ a ∈ holds' i, ∀ j ∉ places, a ∉ holds j := by
    intro i listed a held j unlisted inside
    have member := fits.subset (List.mem_flatMap.mpr ⟨i, listed, held⟩)
    rcases List.mem_append.mp member with old | new
    · obtain ⟨k, listed', held'⟩ := List.mem_flatMap.mp old
      exact unlisted (exclusive.eq_of_mem held' inside ▸ listed')
    · exact fresh j a new inside
  refine { nodup := fun i => ?_, disjoint := fun i j different a first second => ?_ }
  · by_cases listed : i ∈ places
    · exact pairs.1 i listed
    · rw [same i listed]
      exact exclusive.nodup i
  · by_cases listed : i ∈ places <;> by_cases listed' : j ∈ places
    · have symmetric : Std.Symm (Function.onFun List.Disjoint holds') :=
        ⟨fun _ _ apart => List.Disjoint.symm apart⟩
      exact pairs.2.forall listed listed' different first second
    · rw [same j listed'] at second
      exact origin i listed a first j listed' second
    · rw [same i listed] at first
      exact origin j listed' a second i listed first
    · rw [same i listed] at first
      rw [same j listed'] at second
      exact exclusive.disjoint i j different first second

/-- Taking one thing out of a place and putting it into another. -/
theorem transfer [DecidableEq α] (exclusive : Exclusive holds) {i j : ι} (different : i ≠ j) {a : α}
    (held : a ∈ holds i) (taken : holds' i = (holds i).erase a) (put : (holds' j).Perm (a :: holds j))
    (same : ∀ k, k ≠ i → k ≠ j → holds' k = holds k) : Exclusive holds' := by
  refine exclusive.rearrange [i, j] (by simpa using different) [] List.nodup_nil
    (fun _ b none => absurd none List.not_mem_nil) (fun k unlisted => ?_) ?_
  · obtain ⟨notFirst, notSecond⟩ : k ≠ i ∧ k ≠ j := by simpa using unlisted
    exact same k notFirst notSecond
  · refine List.Perm.subperm ?_
    simp only [List.flatMap_cons, List.flatMap_nil, List.append_nil, taken]
    have together := (put.append_left ((holds i).erase a)).trans List.perm_middle
    exact together.trans ((List.perm_cons_erase held).symm.append_right (holds j))

/-- Putting a new thing into a place. -/
theorem insert (exclusive : Exclusive holds) {j : ι} {a : α} (fresh : ∀ i, a ∉ holds i)
    (put : (holds' j).Perm (a :: holds j)) (same : ∀ k, k ≠ j → holds' k = holds k) : Exclusive holds' := by
  refine exclusive.rearrange [j] (List.nodup_singleton j) [a] (List.nodup_singleton a) ?_
    (fun k unlisted => same k (by simpa using unlisted)) ?_
  · intro i b new
    rw [List.mem_singleton.mp new]
    exact fresh i
  · refine List.Perm.subperm ?_
    simp only [List.flatMap_cons, List.flatMap_nil, List.append_nil]
    exact put.trans (List.perm_append_singleton a (holds j)).symm

end Exclusive

/-- There are no more things than the lists that hold them have room for. -/
theorem card_le_sum_length [DecidableEq α] {holds : ι → List α} {things : Finset α} {places : Finset ι}
    (held : ∀ a ∈ things, ∃ i ∈ places, a ∈ holds i) : things.card ≤ ∑ i ∈ places, (holds i).length := by
  have covered : things ⊆ places.biUnion fun i => (holds i).toFinset := by
    intro a member
    obtain ⟨i, listed, inside⟩ := held a member
    exact Finset.mem_biUnion.mpr ⟨i, listed, List.mem_toFinset.mpr inside⟩
  calc things.card ≤ (places.biUnion fun i => (holds i).toFinset).card := Finset.card_le_card covered
    _ ≤ ∑ i ∈ places, (holds i).toFinset.card := Finset.card_biUnion_le
    _ ≤ ∑ i ∈ places, (holds i).length := Finset.sum_le_sum fun i _ => List.toFinset_card_le (holds i)

/-- Exactly the things of `all` are held, each of them once. -/
structure Partition (holds : ι → List α) (all : α → Prop) : Prop where
  exclusive : Exclusive holds
  mem_iff : ∀ a, (∃ i, a ∈ holds i) ↔ all a

namespace Partition

variable {holds holds' : ι → List α} {all all' : α → Prop}

/-- Whatever is held is one of the things. -/
theorem of_mem (partition : Partition holds all) {i : ι} {a : α} (held : a ∈ holds i) : all a :=
  (partition.mem_iff a).mp ⟨i, held⟩

/-- Each thing is in one place and in no other, and there once. -/
theorem existsUnique_count [DecidableEq α] (partition : Partition holds all) {a : α} (one : all a) :
    ∃ i, (holds i).count a = 1 ∧ ∀ j ≠ i, a ∉ holds j := by
  obtain ⟨i, held⟩ := (partition.mem_iff a).mpr one
  refine ⟨i, List.count_eq_one_of_mem (partition.exclusive.nodup i) held, fun j different other => ?_⟩
  exact different (partition.exclusive.eq_of_mem other held)

/-- Moving things between some places and adding new ones. -/
theorem rearrange (partition : Partition holds all) (places : List ι) (distinct : places.Nodup)
    (extra : List α) (extraNodup : extra.Nodup) (fresh : ∀ a ∈ extra, ¬ all a)
    (grown : ∀ a, all' a ↔ all a ∨ a ∈ extra) (same : ∀ i ∉ places, holds' i = holds i)
    (fits : (places.flatMap holds').Perm (places.flatMap holds ++ extra)) : Partition holds' all' where
  exclusive := partition.exclusive.rearrange places distinct extra extraNodup
    (fun _ a new held => fresh a new (partition.of_mem held)) same fits.subperm
  mem_iff := by
    intro a
    rw [grown, ← partition.mem_iff]
    constructor
    · rintro ⟨i, held⟩
      by_cases listed : i ∈ places
      · have member := fits.mem_iff.mp (List.mem_flatMap.mpr ⟨i, listed, held⟩)
        refine (List.mem_append.mp member).imp_left fun old => ?_
        obtain ⟨j, _, before⟩ := List.mem_flatMap.mp old
        exact ⟨j, before⟩
      · exact Or.inl ⟨i, same i listed ▸ held⟩
    · intro before
      by_cases moved : a ∈ places.flatMap holds ++ extra
      · obtain ⟨i, _, held⟩ := List.mem_flatMap.mp (fits.mem_iff.mpr moved)
        exact ⟨i, held⟩
      · obtain ⟨notListed, notNew⟩ := not_or.mp (mt List.mem_append.mpr moved)
        obtain ⟨i, held⟩ := before.resolve_right notNew
        have unlisted : i ∉ places := fun listed => notListed (List.mem_flatMap.mpr ⟨i, listed, held⟩)
        exact ⟨i, (same i unlisted).symm ▸ held⟩

end Partition

end Umpi.Foundation
