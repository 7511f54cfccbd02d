/-
Module: Umpi.Foundation.FreeList
Layer: Foundation
Purpose: Lists that are threaded through the things they hold, and ranges of addresses that do not overlap.
  `Chain` says which things a list goes through when `link` gives what is stored in each of them;
  it only depends on the links of these things. `Packed` says that ranges lie between two bounds and are
  pairwise disjoint; a range can be added behind the last one.
Imports: Mathlib list permutations
Trusted boundary: none
Main exports: Chain, Chain.unique, Chain.congr, Extent, Extent.Apart, Packed, Packed.perm, Packed.append
Open obligations: none
-/
import Mathlib.Algebra.BigOperators.Group.List.Basic
import Mathlib.Data.List.Pairwise
import Mathlib.Data.List.Perm.Basic

namespace Umpi.Foundation

/-! ### Threaded lists -/

section Threaded

variable {α : Type}

/-- The list that starts at a pointer, if `link` gives the pointer stored in a thing. -/
inductive Chain (link : α → Option α) : Option α → List α → Prop where
  | null : Chain link none []
  | next {a : α} {rest : List α} (tail : Chain link (link a) rest) : Chain link (some a) (a :: rest)

namespace Chain

variable {link link' : α → Option α} {start : Option α} {list list' : List α}

/-- A pointer starts at most one list. -/
theorem unique (first : Chain link start list) (second : Chain link start list') : list = list' := by
  induction first generalizing list' with
  | null =>
      cases second
      rfl
  | next tail ih =>
      cases second with
      | next tail' => rw [ih tail']

/-- Only the links of the things on the list matter. -/
theorem congr (chain : Chain link start list) (same : ∀ a ∈ list, link' a = link a) :
    Chain link' start list := by
  induction chain with
  | null => exact .null
  | @next a rest tail ih =>
      constructor
      rw [same a List.mem_cons_self]
      exact ih fun b listed => same b (List.mem_cons_of_mem a listed)

/-- The first thing and the rest of a list that is not empty. -/
theorem of_ne_nil (chain : Chain link start list) (filled : list ≠ []) :
    ∃ a rest, start = some a ∧ list = a :: rest ∧ Chain link (link a) rest := by
  cases chain with
  | null => exact absurd rfl filled
  | @next a rest tail => exact ⟨a, rest, rfl, rfl, tail⟩

/-- The pointer to a list that goes on, and the list behind its first thing. -/
theorem of_cons {a : α} (chain : Chain link start (a :: list)) :
    start = some a ∧ Chain link (link a) list := by
  cases chain with
  | next tail => exact ⟨rfl, tail⟩

/-- A pointer that is not null points to a thing on the list. -/
theorem head_mem {a : α} (chain : Chain link (some a) list) : a ∈ list := by
  cases chain with
  | next tail => exact List.mem_cons_self

end Chain

end Threaded

/-- Several lists together gain what one of them gains. -/
theorem perm_flatMap_cons {ι β : Type} {indices : List ι} (distinct : indices.Nodup) {i : ι}
    (listed : i ∈ indices) {before after : ι → List β} {b : β} (own : (after i).Perm (b :: before i))
    (others : ∀ j ∈ indices, j ≠ i → after j = before j) :
    (indices.flatMap after).Perm (b :: indices.flatMap before) := by
  induction indices with
  | nil => cases listed
  | cons first rest ih =>
      obtain ⟨absent, nodup⟩ := List.nodup_cons.mp distinct
      simp only [List.flatMap_cons]
      by_cases here : first = i
      · subst here
        have same : rest.flatMap after = rest.flatMap before :=
          List.flatMap_congr fun j member =>
            others j (List.mem_cons_of_mem first member) fun equal => absent (equal ▸ member)
        rw [same, ← List.cons_append]
        exact own.append_right _
      · have later : i ∈ rest := (List.mem_cons.mp listed).resolve_left (Ne.symm here)
        have step := ih nodup later fun j member => others j (List.mem_cons_of_mem first member)
        rw [others first List.mem_cons_self here]
        exact (step.append_left _).trans List.perm_middle

/-! ### Ranges of addresses -/

/-- The addresses from `start` on, `len` of them. -/
structure Extent where
  start : Nat
  len : Nat
deriving Repr, DecidableEq

namespace Extent

/-- One of the two ends before the other starts. -/
def Apart (first second : Extent) : Prop :=
  first.start + first.len ≤ second.start ∨ second.start + second.len ≤ first.start

theorem Apart.symm {first second : Extent} (apart : first.Apart second) : second.Apart first :=
  Or.symm apart

instance : Std.Symm Extent.Apart := ⟨fun _ _ => Apart.symm⟩

/-- An address in one of two ranges that are apart is not in the other. -/
theorem Apart.notMem {first second : Extent} (apart : first.Apart second) {a : Nat}
    (low : first.start ≤ a) (high : a < first.start + first.len) :
    a < second.start ∨ second.start + second.len ≤ a := by
  rcases apart with before | after
  · left
    omega
  · right
    omega

end Extent

/-- Ranges that lie between two bounds and do not overlap. -/
structure Packed (low high : Nat) (extents : List Extent) : Prop where
  apart : extents.Pairwise Extent.Apart
  inside : ∀ extent ∈ extents, low ≤ extent.start ∧ extent.start + extent.len ≤ high

namespace Packed

variable {low high : Nat} {extents extents' : List Extent}

theorem nil : Packed low high [] where
  apart := List.Pairwise.nil
  inside := fun _ listed => absurd listed List.not_mem_nil

/-- The order does not matter. -/
theorem perm (packed : Packed low high extents) (same : extents'.Perm extents) :
    Packed low high extents' where
  apart := (same.pairwise_iff Extent.Apart.symm).mpr packed.apart
  inside := fun extent listed => packed.inside extent (same.mem_iff.mp listed)

/-- A range is added behind all others. -/
theorem carve (packed : Packed low high extents) (order : low ≤ high) (len : Nat) :
    Packed low (high + len) ({ start := high, len := len } :: extents) where
  apart := by
    refine List.Pairwise.cons (fun extent listed => ?_) packed.apart
    exact Or.inr (packed.inside extent listed).2
  inside := by
    intro extent listed
    rcases List.mem_cons.mp listed with rfl | before
    · exact ⟨order, Nat.le_refl _⟩
    · obtain ⟨first, last⟩ := packed.inside extent before
      exact ⟨first, Nat.le_trans last (Nat.le_add_right high len)⟩

end Packed

end Umpi.Foundation
