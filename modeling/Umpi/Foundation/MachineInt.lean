/-
Module: Umpi.Foundation.MachineInt
Layer: Foundation
Purpose: Integers of a machine. An `IntFormat` is a number of bytes and whether the integers are signed. `wrap` is
  the conversion to the format, which keeps the residue, and `encode` and `decode` go from integers to their bytes
  in memory, the lowest first, and back. Conversions inside sums and products do not change their residue. A mask of
  high bits rounds down.
Imports: Mathlib integers and tactics
Trusted boundary: none
Main exports: toBytes, ofBytes, IntFormat, IntFormat.InRange, IntFormat.wrap, IntFormat.encode, IntFormat.decode,
  IntFormat.decode_encode, IntFormat.encode_decode, and_highMask
Open obligations: none
-/
import Mathlib.Algebra.Order.Ring.Int
import Mathlib.Tactic.Common
import Mathlib.Tactic.Ring

namespace Umpi.Foundation

/-! ### Bytes of natural numbers -/

/-- The digits of a number to the base 256, the lowest first. -/
def toBytes : Nat → Nat → List UInt8
  | 0, _ => []
  | width + 1, value => UInt8.ofNat value :: toBytes width (value / 256)

/-- The number with these digits to the base 256, the lowest first. -/
def ofBytes : List UInt8 → Nat
  | [] => 0
  | byte :: bytes => byte.toNat + 256 * ofBytes bytes

@[simp] theorem length_toBytes (width value : Nat) : (toBytes width value).length = width := by
  induction width generalizing value with
  | zero => rfl
  | succ width ih => rw [toBytes, List.length_cons, ih]

/-- Digits that do not fit are lost. -/
theorem ofBytes_toBytes (width value : Nat) : ofBytes (toBytes width value) = value % 256 ^ width := by
  induction width generalizing value with
  | zero => rw [pow_zero, Nat.mod_one, toBytes, ofBytes]
  | succ width ih =>
      have lowest : (UInt8.ofNat value).toNat = value % 256 := UInt8.toNat_ofNat'
      rw [toBytes, ofBytes, ih, lowest, pow_succ', Nat.mod_mul]

theorem toBytes_ofBytes (bytes : List UInt8) : toBytes bytes.length (ofBytes bytes) = bytes := by
  induction bytes with
  | nil => rfl
  | cons byte bytes ih =>
      have bound : byte.toNat < 256 := byte.toNat_lt
      have rest : (byte.toNat + 256 * ofBytes bytes) / 256 = ofBytes bytes := by omega
      have lowest : UInt8.ofNat (byte.toNat + 256 * ofBytes bytes) = byte := by
        apply UInt8.toNat_inj.mp
        rw [UInt8.toNat_ofNat']
        omega
      rw [List.length_cons, ofBytes, toBytes, rest, lowest, ih]

theorem ofBytes_lt (bytes : List UInt8) : ofBytes bytes < 256 ^ bytes.length := by
  induction bytes with
  | nil => exact Nat.one_pos
  | cons byte bytes ih =>
      have bound : byte.toNat < 256 := byte.toNat_lt
      rw [ofBytes, List.length_cons, pow_succ']
      omega

/-! ### Formats -/

/-- How a type of integers is stored. -/
structure IntFormat where
  bytes : Nat
  signed : Bool
  positive : 0 < bytes
deriving DecidableEq

namespace IntFormat

/-- The number of integers of the format. -/
def modulus (format : IntFormat) : Nat := 256 ^ format.bytes

/-- The integers of the format. -/
def InRange (format : IntFormat) (x : Int) : Prop :=
  if format.signed then -(format.modulus : Int) ≤ 2 * x ∧ 2 * x < format.modulus
  else 0 ≤ x ∧ x < format.modulus

instance (format : IntFormat) (x : Int) : Decidable (format.InRange x) := by
  unfold InRange
  infer_instance

/-- The conversion of an integer to the format. -/
def wrap (format : IntFormat) (x : Int) : Int :=
  if format.signed then x.bmod format.modulus else x % format.modulus

/-- The bytes of an integer, which is converted first. -/
def encode (format : IntFormat) (x : Int) : List UInt8 := toBytes format.bytes (x % format.modulus).toNat

/-- The integer with these bytes. -/
def decode (format : IntFormat) (bytes : List UInt8) : Int := format.wrap (ofBytes bytes)

variable {format : IntFormat} {x y : Int}

theorem modulus_pos (format : IntFormat) : 0 < format.modulus := Nat.pow_pos (by decide)

/-- There are as many negative integers as others. -/
theorem two_dvd_modulus (format : IntFormat) : 2 ∣ format.modulus :=
  (by decide : 2 ∣ 256).trans (dvd_pow_self 256 format.positive.ne')

theorem wrap_inRange (format : IntFormat) (x : Int) : format.InRange (format.wrap x) := by
  have positive := format.modulus_pos
  unfold InRange wrap
  split
  case isTrue =>
    obtain ⟨half, even⟩ := format.two_dvd_modulus
    have low := Int.le_bmod (x := x) positive
    have high := Int.bmod_lt (x := x) positive
    omega
  case isFalse =>
    exact ⟨Int.emod_nonneg x (by omega), Int.emod_lt_of_pos x (by omega)⟩

theorem wrap_of_inRange (range : format.InRange x) : format.wrap x = x := by
  unfold InRange at range
  unfold wrap
  split
  case isTrue signed =>
    rw [if_pos signed] at range
    exact Int.bmod_eq_of_le_mul_two (by omega) (by omega)
  case isFalse unsigned =>
    rw [if_neg unsigned] at range
    exact Int.emod_eq_of_lt range.1 range.2

/-- A conversion keeps the residue. -/
@[simp] theorem wrap_emod (format : IntFormat) (x : Int) : format.wrap x % format.modulus = x % format.modulus := by
  unfold wrap
  split
  case isTrue => exact Int.bmod_emod
  case isFalse => exact Int.emod_emod_of_dvd x dvd_rfl

/-- Nothing else matters for a conversion. -/
theorem wrap_congr (same : x % format.modulus = y % format.modulus) : format.wrap x = format.wrap y := by
  unfold wrap
  split
  case isTrue => rw [← Int.emod_bmod x, same, Int.emod_bmod]
  case isFalse => exact same

@[simp] theorem wrap_wrap (format : IntFormat) (x : Int) : format.wrap (format.wrap x) = format.wrap x :=
  wrap_of_inRange (format.wrap_inRange x)

theorem wrap_add_wrap (format : IntFormat) (x y : Int) : format.wrap (x + format.wrap y) = format.wrap (x + y) :=
  wrap_congr (by rw [Int.add_emod, wrap_emod, ← Int.add_emod])

theorem wrap_mul_wrap (format : IntFormat) (x y : Int) : format.wrap (x * format.wrap y) = format.wrap (x * y) :=
  wrap_congr (by rw [Int.mul_emod, wrap_emod, ← Int.mul_emod])

@[simp] theorem length_encode (format : IntFormat) (x : Int) : (format.encode x).length = format.bytes :=
  length_toBytes _ _

@[simp] theorem encode_wrap (format : IntFormat) (x : Int) : format.encode (format.wrap x) = format.encode x := by
  rw [encode, wrap_emod, encode]

/-- What has been stored is read back. -/
@[simp] theorem decode_encode (format : IntFormat) (x : Int) : format.decode (format.encode x) = format.wrap x := by
  have positive := format.modulus_pos
  have residue : 0 ≤ x % format.modulus := Int.emod_nonneg x (by omega)
  have below : x % format.modulus < format.modulus := Int.emod_lt_of_pos x (by omega)
  have digits : ofBytes (format.encode x) = (x % format.modulus).toNat := by
    rw [encode, ofBytes_toBytes]
    exact Nat.mod_eq_of_lt ((Int.toNat_lt residue).mpr below)
  rw [decode, digits, Int.toNat_of_nonneg residue]
  exact wrap_congr (Int.emod_emod_of_dvd x dvd_rfl)

/-- What has been read is stored as it was. -/
theorem encode_decode {bytes : List UInt8} (width : bytes.length = format.bytes) :
    format.encode (format.decode bytes) = bytes := by
  have bound : ofBytes bytes < format.modulus := by
    rw [modulus, ← width]
    exact ofBytes_lt bytes
  rw [decode, encode_wrap, encode, Int.emod_eq_of_lt (by omega) (by exact_mod_cast bound), Int.toNat_natCast, ← width,
    toBytes_ofBytes]

theorem decode_inRange (format : IntFormat) (bytes : List UInt8) : format.InRange (format.decode bytes) :=
  format.wrap_inRange _

end IntFormat

/-! ### Masks -/

/-- The mask that clears the lowest `low` of `width` bits rounds down to a multiple of `2 ^ low`. -/
theorem and_highMask {width low v : Nat} (fits : low ≤ width) (small : v < 2 ^ width) :
    v &&& (2 ^ width - 1 - (2 ^ low - 1)) = v / 2 ^ low * 2 ^ low := by
  have positive : 0 < 2 ^ low := Nat.two_pow_pos low
  have below : 2 ^ low - 1 < 2 ^ width :=
    Nat.lt_of_lt_of_le (Nat.sub_lt positive Nat.one_pos) (Nat.pow_le_pow_right (by decide) fits)
  have mask : 2 ^ width - 1 - (2 ^ low - 1) = 2 ^ width - ((2 ^ low - 1) + 1) := by omega
  apply Nat.eq_of_testBit_eq
  intro i
  rw [Nat.testBit_and, mask, Nat.testBit_two_pow_sub_succ below, Nat.testBit_two_pow_sub_one,
    Nat.testBit_mul_two_pow, Nat.testBit_div_two_pow]
  by_cases cleared : i < low
  · simp [cleared, Nat.not_le_of_lt cleared]
  · have kept : low ≤ i := Nat.le_of_not_lt cleared
    by_cases inside : i < width
    · simp [kept, cleared, inside]
    · have zero : v.testBit i = false :=
        Nat.testBit_lt_two_pow (Nat.lt_of_lt_of_le small (Nat.pow_le_pow_right (by decide) (Nat.le_of_not_lt inside)))
      simp [kept, cleared, inside, zero]

end Umpi.Foundation
