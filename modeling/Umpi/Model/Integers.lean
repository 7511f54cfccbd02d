/-
Module: Umpi.Model.Integers
Layer: Model
Purpose: The fixed-width integer conversions the program performs. Program values are mathematical
  integers; a conversion function stands wherever the C++ text converts to a narrower or to an unsigned
  type. A signed `int` product or sum outside the range of `int` is undefined behaviour, so these two
  operations return an `Outcome`, the result type of every modelled operation that can end the program.
Imports: Mathlib integer lemmas and the ring of integers
Trusted boundary: human-reviewed spec
Main exports: Fault, Outcome, int16, int32, ptrdiff, sizeT, mulInt, addInt
Open obligations: none
-/
import Mathlib.Algebra.Ring.Int.Defs
import Mathlib.Algebra.Ring.Nat
import Mathlib.Data.Int.Basic
import Mathlib.Data.Int.DivMod
import Mathlib.Tactic.Common

namespace Umpi

/-- The undefined behaviour of C++ that the modelled code can run into: an `int` result out of range, a
    null handle dereferenced, `front()` or `back()` or `begin()` of an empty list dereferenced, and a
    division by zero. -/
inductive Fault where
  | overflow
  | nullHandle
  | emptyList
  | zeroDivision
deriving Repr, DecidableEq

/-- How an operation can end. Only `ok` lets the program go on: `blocked` waits for a mutex held by
    somebody, `exited` is a call of `std::exit`, `undefined` is undefined behaviour. -/
inductive Outcome (α : Type) where
  | ok (value : α)
  | blocked
  | exited
  | undefined (fault : Fault)
deriving Repr, DecidableEq

namespace Outcome

/-- Sequencing: only a normal result is passed on. -/
def bind {α β : Type} : Outcome α → (α → Outcome β) → Outcome β
  | ok value, next => next value
  | blocked, _ => blocked
  | exited, _ => exited
  | undefined fault, _ => undefined fault

instance : Monad Outcome where
  pure := ok
  bind := bind

@[simp] theorem pure_eq {α : Type} (value : α) : (pure value : Outcome α) = ok value := rfl

@[simp] theorem ok_bind {α β : Type} (value : α) (next : α → Outcome β) :
    (ok value >>= next) = next value := rfl

@[simp] theorem blocked_bind {α β : Type} (next : α → Outcome β) :
    ((blocked : Outcome α) >>= next) = blocked := rfl

@[simp] theorem exited_bind {α β : Type} (next : α → Outcome β) :
    ((exited : Outcome α) >>= next) = exited := rfl

@[simp] theorem undefined_bind {α β : Type} (fault : Fault) (next : α → Outcome β) :
    ((undefined fault : Outcome α) >>= next) = undefined fault := rfl

/-- A sequence ends normally exactly when both parts do. -/
theorem bind_eq_ok {α β : Type} {first : Outcome α} {next : α → Outcome β} {result : β} :
    (first >>= next) = ok result ↔ ∃ value, first = ok value ∧ next value = ok result := by
  cases first <;> simp

/-- Does it end normally, with a value that passes a check? -/
def passes {α : Type} (check : α → Bool) : Outcome α → Bool
  | ok value => check value
  | _ => false

theorem exists_of_passes {α : Type} {check : α → Bool} {outcome : Outcome α}
    (passed : outcome.passes check = true) : ∃ value, outcome = ok value ∧ check value = true := by
  cases outcome with
  | ok value => exact ⟨value, rfl, passed⟩
  | blocked | exited | undefined => cases passed

instance {α : Type} : (outcome : Outcome α) → Decidable (outcome = exited)
  | exited => isTrue rfl
  | ok _ => isFalse fun same => nomatch same
  | blocked => isFalse fun same => nomatch same
  | undefined _ => isFalse fun same => nomatch same

/-- A sequence exits exactly when one of its parts does. -/
theorem bind_eq_exited {α β : Type} {first : Outcome α} {next : α → Outcome β} :
    (first >>= next) = exited ↔ first = exited ∨ ∃ value, first = ok value ∧ next value = exited := by
  cases first <;> simp

end Outcome

/-- Conversion to `int16_t`. -/
def int16 (x : Int) : Int := x.bmod (2 ^ 16)

/-- Conversion to `int`. -/
def int32 (x : Int) : Int := x.bmod (2 ^ 32)

/-- Conversion to `ptrdiff_t` or `ssize_t`. -/
def ptrdiff (x : Int) : Int := x.bmod (2 ^ 64)

/-- Conversion to `size_t`. -/
def sizeT (x : Int) : Nat := (x % 2 ^ 64).toNat

/-- The values of type `int`. -/
def IsInt (x : Int) : Prop := -(2 ^ 31) ≤ x ∧ x < 2 ^ 31

instance (x : Int) : Decidable (IsInt x) := inferInstanceAs (Decidable (_ ∧ _))

/-- The `int` product `x * y`. -/
def mulInt (x y : Int) : Outcome Int := if IsInt (x * y) then .ok (x * y) else .undefined .overflow

/-- The `int` sum `x + y`. -/
def addInt (x y : Int) : Outcome Int := if IsInt (x + y) then .ok (x + y) else .undefined .overflow

theorem int16_of_range {x : Int} (low : -(2 ^ 15) ≤ x) (high : x < 2 ^ 15) : int16 x = x := by
  unfold int16
  apply Int.bmod_eq_of_le <;> omega

theorem int32_of_isInt {x : Int} (range : IsInt x) : int32 x = x := by
  obtain ⟨low, high⟩ := range
  unfold int32
  apply Int.bmod_eq_of_le <;> omega

theorem ptrdiff_of_range {x : Int} (low : -(2 ^ 63) ≤ x) (high : x < 2 ^ 63) : ptrdiff x = x := by
  unfold ptrdiff
  apply Int.bmod_eq_of_le <;> omega

theorem sizeT_of_range {x : Int} (low : 0 ≤ x) (high : x < 2 ^ 64) : (sizeT x : Int) = x := by
  unfold sizeT
  omega

/-- A natural number below the `size_t` bound is not changed by the conversion. -/
theorem sizeT_natCast {n : Nat} (high : n < 2 ^ 64) : sizeT (n : Int) = n := by
  unfold sizeT
  omega

@[simp] theorem sizeT_zero : sizeT 0 = 0 := rfl

theorem mulInt_of_isInt {x y : Int} (range : IsInt (x * y)) : mulInt x y = .ok (x * y) :=
  if_pos range

theorem mulInt_eq_ok {x y result : Int} :
    mulInt x y = .ok result ↔ IsInt (x * y) ∧ x * y = result := by
  unfold mulInt
  split <;> simp [*]

theorem addInt_eq_ok {x y result : Int} :
    addInt x y = .ok result ↔ IsInt (x + y) ∧ x + y = result := by
  unfold addInt
  split <;> simp [*]

end Umpi
