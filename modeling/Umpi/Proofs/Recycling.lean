/-
Module: Umpi.Proofs.Recycling
Layer: Proofs
Purpose: When a cookie is recycled. As long as the ranks agree on their collective operations and on
  `MPI_IN_PLACE`, a cookie that is in a `free_` list or in the pool is used by nobody. A reduction in which only
  some ranks pass `MPI_IN_PLACE` makes a cookie for too few notifications: its owner leaves it, and it is
  recycled while a transfer through it is still due.
Imports: Umpi.Proofs.Tending, Umpi.Proofs.Notifications
Trusted boundary: none
Main exports: AsleepOn, RecycledUnused, recycled_cookies_unused, recycled_cookie_used
Open obligations: none
-/
import Umpi.Proofs.Tending
import Umpi.Proofs.Notifications

namespace Umpi

open Sys

/-- The rank is in `MPI_Wait` on the cookie and cannot return. -/
def Sys.AsleepOn (s : Sys) (rank id : Nat) : Prop :=
  (s.ranks rank).cont = [] ∧ id ∈ (s.ranks rank).requests ∧ ¬ (s.world.cookies id).Ready rank

/-- What is promised of every cookie that has been allocated, if the cookies of `pool` have been erased. -/
structure RecycledUnused (n : Nat) (pool : List Nat) (s : Sys) : Prop where
  /-- It is in one list, or in the pool. -/
  place : ∀ id < s.world.next, ∃ shelf, (s.shelved pool shelf).count id = 1 ∧
    ∀ other ≠ shelf, id ∉ s.shelved pool other
  /-- `used_` is the number of handles that have not left. -/
  used : ∀ id < s.world.next, (s.world.cookies id).used = held n s.ranks id
  handles : ∀ id, s.Idle pool id → ∀ rank < n, id ∉ (s.ranks rank).requests
  transfers : ∀ id, s.Idle pool id → ∀ rank < n, ∀ action ∈ (s.ranks rank).cont,
    action.transfer ≠ some id
  asleep : ∀ id, s.Idle pool id → ∀ rank < n, ¬ s.AsleepOn rank id

namespace Tended

variable {program : Program} {n : Nat} {pool : List Nat} {s : Sys} {id : Nat}

/-- On every shelf a cookie's `used_` is the number of its handles, and there are not too many. -/
theorem used_eq_held (tended : Tended program n pool s) (several : 2 ≤ n)
    (alike : ∀ rank < n, ∀ pos,
      (program rank pos).map Call.operation = (program 0 pos).map Call.operation)
    (allocated : id < s.world.next) : (s.world.cookies id).used = held n s.ranks id ∧ held n s.ranks id ≤ n := by
  have account : ∀ {expected most}, most ≤ n → Account n s id expected most →
      (s.world.cookies id).used = held n s.ranks id ∧ held n s.ranks id ≤ n :=
    fun few account => ⟨account.used, account.most.trans few⟩
  have idle : s.Idle pool id → (s.world.cookies id).used = held n s.ranks id ∧ held n s.ranks id ≤ n := by
    intro idle
    rw [tended.unused id idle, (tended.spent id (Or.inl idle)).held]
    exact ⟨rfl, Nat.zero_le n⟩
  obtain ⟨shelf, listed⟩ := (tended.shelved.mem_iff id).mpr allocated
  rcases shelf with (turn | rank | rank | rank) | rank | rank | _
  · obtain ⟨_, _, _, _, rank, _, stage, _, counted, inRanks, rfl⟩ := tended.boxed alike listed
    exact account stage.partly.le (counted.account rank inRanks)
  · exact account le_rfl (tended.settled rank id (Or.inl listed))
  · exact account le_rfl (tended.settled rank id (Or.inr listed))
  · exact idle (Or.inl ⟨rank, listed⟩)
  · exact account (by omega) (tended.queued rank id (Or.inl listed))
  · exact account (by omega) (tended.queued rank id (Or.inr listed))
  · exact idle (Or.inr listed)

/-- What the books say about cookies that are idle. -/
theorem recycledUnused (tended : Tended program n pool s) (several : 2 ≤ n)
    (alike : ∀ rank < n, ∀ pos,
      (program rank pos).map Call.operation = (program 0 pos).map Call.operation) :
    RecycledUnused n pool s where
  place := fun _ allocated => tended.shelved.existsUnique_count allocated
  used := fun _ allocated => (tended.used_eq_held several alike allocated).1
  handles := fun id idle _ valid => notMem_of_held_eq_zero (tended.spent id (Or.inl idle)).held valid
  transfers := fun id idle _ valid => notThrough_of_due_eq_zero (tended.spent id (Or.inl idle)).due valid
  asleep := fun id idle _ valid asleep =>
    notMem_of_held_eq_zero (tended.spent id (Or.inl idle)).held valid asleep.2.1

end Tended

/-- In every run without an error, of point-to-point calls by anybody and of collective calls on which the
    ranks agree, a cookie that is recycled is used by nobody. -/
theorem recycled_cookies_unused {vm : ProcessVm} {program : Program} {n : Nat} {mem : Memory}
    {history : List (Sys × Event)} {s : Sys} (several : 2 ≤ n) (limit : n ≤ 10000)
    (alike : ∀ rank < n, ∀ pos,
      (program rank pos).map Call.operation = (program 0 pos).map Call.operation)
    (agree : ∀ rank < n, ∀ pos,
      (program rank pos).map Call.reducesInPlace = (program 0 pos).map Call.reducesInPlace)
    (run : Runs vm program (Sys.init n mem) history s) (clean : s.Clean) :
    RecycledUnused n (Sys.pool history) s :=
  (runs_tended several limit alike agree run clean).recycledUnused several alike

/-- Rank 1 has sent a character to rank 0, both have left the cookie, and it is in the free list of rank 0,
    which has asked first. -/
theorem recycled_cookies_unused_message :
    ∃ history s, Runs copyingVm (fun _ _ => none) (Sys.init 2 fun _ => 0) history s ∧
      (s.world.procs 0).free = [0] ∧ RecycledUnused 2 (Sys.pool history) s := by
  have runs : ∃ history s, Runs copyingVm (fun _ _ => none) (Sys.init 2 fun _ => 0) history s ∧
      (s.world.procs 0).free = [0] ∧ s.Clean := by
    refine ⟨_, _, .tail (.collective (.wait 0 0)) (.tail (.collective (.wait 1 0)) (.tail (.collective (.act 1))
      (.tail (.send 1 (.addr 0) 1 (some Datatype.mpiChar.iovec) 0 7 .world)
        (.tail (.recv 0 (.addr 0) 1 (some Datatype.mpiChar.iovec) 1 7 .world) .refl
          (by rfl)) (by rfl)) (by rfl)) (by rfl)) (by rfl), by decide +kernel, ?_⟩
    rintro (_ | _ | rank)
    · decide
    · decide
    · rintro ret ⟨⟩
  obtain ⟨history, s, run, free, clean⟩ := runs
  exact ⟨history, s, run, free, recycled_cookies_unused le_rfl (by decide) (fun _ _ _ => rfl)
    (fun _ _ _ => rfl) run clean⟩

/-- Only rank 0 passes `MPI_IN_PLACE`. Its cookie, made for one notification, gets one from rank 1 and
    another is due from rank 2 when rank 0 leaves it and it is recycled. -/
theorem recycled_cookie_used :
    (∀ rank < 3, (mixedAllreduce rank).operation = (mixedAllreduce 0).operation) ∧
    ∃ history s, Runs copyingVm (once mixedAllreduce) (Sys.init 3 fun _ => 0) history s ∧ s.Clean ∧
      (s.world.procs 0).free = [0] ∧ (∃ action ∈ (s.ranks 2).cont, action.transfer = some 0) ∧
      ¬ RecycledUnused 3 (Sys.pool history) s := by
  refine ⟨fun _ _ => rfl, _, _,
    .tail (.collective (.wait 0 0)) (.tail (.collective (.act 2)) (.tail (.collective (.call 2))
      (.tail (.collective (.call 1)) (.tail (.collective (.call 0)) .refl
        (by rfl)) (by rfl)) (by rfl)) (by rfl)) (by rfl), ?clean, by decide, ?due, ?used⟩
  case clean =>
    rintro (_ | _ | _ | rank)
    · decide
    · decide
    · decide
    · rintro ret ⟨⟩
  case due => exact ⟨_, List.mem_cons_self, rfl⟩
  case used =>
    intro promised
    exact promised.transfers 0 (Or.inl ⟨0, by decide⟩) 2 (by decide) _ List.mem_cons_self rfl

end Umpi
