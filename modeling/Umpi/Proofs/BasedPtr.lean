/-
Module: Umpi.Proofs.BasedPtr
Layer: Proofs
Purpose: Arithmetic on pointers into the mapping. A `based_ptr` stands for a pointer of every process
  (`toPointer`), and its operators do what pointer arithmetic does there. Sums and differences with a number obey
  the laws of pointers modulo 2^64, whatever wraps. As long as a pointer stays within `ptrdiff_t` its offset is
  the exact one, so it can be compared. The difference of two pointers is exact when it is not negative; the
  unsigned division makes something else of a negative one, unless elements are single bytes.
Imports: Umpi.Model.BasedPtr
Trusted boundary: none
Main exports: BasedPtr.offset, BasedPtr.Stays, BasedPtr.difference_iff, PointerLaws, pointer_laws_iff,
  BasedPtr.toPointer_ofPointer, BasedPtr.toPointer_add, BasedPtr.pooled_bits
Open obligations: none
-/
import Umpi.Model.BasedPtr
import Mathlib.Data.BitVec
import Mathlib.Tactic.Ring

namespace Umpi

namespace BasedPtr

variable {elementSize : Word}

/-! ### Laws that hold whatever wraps -/

@[simp] theorem ptr_add (p : BasedPtr elementSize) (i : Word) : (p + i).ptr = p.ptr + elementSize * i := rfl

@[simp] theorem ptr_sub (p : BasedPtr elementSize) (i : Word) : (p - i).ptr = p.ptr - elementSize * i := rfl

theorem ext {p q : BasedPtr elementSize} (same : p.ptr = q.ptr) : p = q := by
  cases p
  cases q
  exact congrArg BasedPtr.mk same

/-- Two steps are one step. -/
theorem add_add (p : BasedPtr elementSize) (i j : Word) : (p + i) + j = p + (i + j) := by
  apply ext
  simp only [ptr_add]
  ring

/-- A step back undoes a step. -/
theorem add_sub_cancel (p : BasedPtr elementSize) (i : Word) : (p + i) - i = p := by
  apply ext
  simp only [ptr_add, ptr_sub]
  ring

/-- A step back is a step of the opposite number. -/
theorem sub_eq_add_neg (p : BasedPtr elementSize) (i : Word) : p - i = p + (-i) := by
  apply ext
  simp only [ptr_add, ptr_sub]
  ring

theorem preIncrement_eq (p : BasedPtr elementSize) : p.preIncrement = p + (1 : Word) := by
  apply ext
  simp [preIncrement]

theorem preDecrement_eq (p : BasedPtr elementSize) : p.preDecrement = p - (1 : Word) := by
  apply ext
  simp [preDecrement]

theorem add_zero (p : BasedPtr elementSize) : p + (0 : Word) = p := by
  apply ext
  simp

/-- A loop that increments a pointer goes one element further each time. -/
theorem preIncrement_iterate (p : BasedPtr elementSize) (n : Nat) :
    preIncrement^[n] p = p + BitVec.ofNat 64 n := by
  induction n with
  | zero => exact p.add_zero.symm
  | succ n ih =>
      rw [Function.iterate_succ_apply', ih, preIncrement_eq, add_add]
      exact congrArg (p + ·) (BitVec.ofNat_add n 1).symm

/-! ### Pointers of a process -/

/-- In every process a step is one over as many bytes as the elements have. -/
theorem toPointer_add (p : BasedPtr elementSize) (addr i : Word) :
    (p + i).toPointer addr = p.toPointer addr + elementSize * i := by
  simp only [toPointer, ptr_add]
  ring

/-- `p[i]` is where pointer arithmetic has it. -/
theorem index_eq (p : BasedPtr elementSize) (addr i : Word) :
    p.index addr i = p.toPointer addr + elementSize * i :=
  p.toPointer_add addr i

/-- A process that makes a `based_ptr` of a pointer gets the pointer back. -/
theorem toPointer_ofPointer (addr : Word) {ptr : Word} (given : ptr ≠ 0) :
    (ofPointer addr ptr : BasedPtr elementSize).toPointer addr = ptr := by
  simp only [toPointer, ofPointer, if_neg given]
  ring

/-- Another process finds the same place of its own mapping. -/
theorem toPointer_elsewhere (p : BasedPtr elementSize) (addr addr' : Word) :
    p.toPointer addr' - addr' = p.toPointer addr - addr := by
  simp only [toPointer]
  ring

/-- A pointer is null exactly when it was made of a null pointer, if it does not point to the one byte whose
    distance is that of null. -/
theorem toBool_ofPointer {addr ptr : Word} (apart : ptr ≠ addr + nullptr) :
    (ofPointer addr ptr : BasedPtr elementSize).toBool = true ↔ ptr ≠ 0 := by
  by_cases null : ptr = 0
  · simp [ofPointer, toBool, null]
  · have different : ptr - addr ≠ nullptr := fun same => apart (by rw [← same]; ring)
    simp only [ofPointer, toBool, ne_eq, null, not_false_eq_true, iff_true]
    exact bne_iff_ne.mpr different

/-- A pointer may be converted to one of another type and back. -/
theorem convert_convert {otherSize : Word} (p : BasedPtr elementSize) :
    (p.convert : BasedPtr otherSize).convert = p := rfl

/-- The pointers of the memory pool have the bits of a `based_ptr`, and are null when it is. -/
theorem pooled_bits {pointer : Option Nat} (inside : ∀ distance ∈ pointer, distance < 2 ^ 63) :
    (pooled pointer : BasedPtr elementSize).ptr.toNat = pointerBits pointer ∧
      (pooled pointer : BasedPtr elementSize).toBool = pointer.isSome := by
  cases pointer with
  | none => exact ⟨rfl, rfl⟩
  | some distance =>
      have short := inside distance rfl
      have bits : (BitVec.ofNat 64 distance).toNat = distance := by
        rw [BitVec.toNat_ofNat]
        exact Nat.mod_eq_of_lt (by omega)
      refine ⟨bits, ?_⟩
      have different : BitVec.ofNat 64 distance ≠ nullptr := by
        intro same
        have equal := congrArg BitVec.toNat same
        rw [bits] at equal
        simp [nullptr] at equal
        omega
      simpa [pooled, toBool] using different

/-! ### Exact offsets -/

/-- The distance from the start of the mapping, in bytes. -/
def offset (p : BasedPtr elementSize) : Int := p.ptr.toInt

/-- The offset of `p + i`, computed exactly, is a `ptrdiff_t`. -/
def Stays (p : BasedPtr elementSize) (i : Word) : Prop :=
  -(2 ^ 63) ≤ p.offset + elementSize.toNat * i.toInt ∧ p.offset + elementSize.toNat * i.toInt < 2 ^ 63

instance (p : BasedPtr elementSize) (i : Word) : Decidable (p.Stays i) := inferInstanceAs (Decidable (_ ∧ _))

theorem offset_range (p : BasedPtr elementSize) : -(2 ^ 63) ≤ p.offset ∧ p.offset < 2 ^ 63 :=
  ⟨BitVec.le_toInt p.ptr, BitVec.toInt_lt⟩

/-- A pointer that stays within `ptrdiff_t` has the exact offset. -/
theorem offset_add {p : BasedPtr elementSize} {i : Word} (stays : p.Stays i) :
    (p + i).offset = p.offset + elementSize.toNat * i.toInt := by
  obtain ⟨low, high⟩ := stays
  have wrapped : p.ptr + elementSize * i = BitVec.ofInt 64 (p.offset + elementSize.toNat * i.toInt) := by
    rw [BitVec.ofInt_add, BitVec.ofInt_mul, offset, BitVec.ofInt_toInt, BitVec.ofInt_toInt, BitVec.ofInt_natCast,
      BitVec.ofNat_toNat, BitVec.setWidth_eq]
  calc
    (p + i).offset = (BitVec.ofInt 64 (p.offset + elementSize.toNat * i.toInt)).toInt := by
      rw [← wrapped]
      rfl
    _ = (p.offset + elementSize.toNat * i.toInt).bmod (2 ^ 64) := BitVec.toInt_ofInt _
    _ = p.offset + elementSize.toNat * i.toInt := by apply Int.bmod_eq_of_le <;> omega

/-- Pointers are ordered as their offsets are. -/
theorem lt_iff (p q : BasedPtr elementSize) : p.lt q = true ↔ p.offset < q.offset :=
  BitVec.slt_iff_toInt_lt

theorem le_iff (p q : BasedPtr elementSize) : p.le q = true ↔ p.offset ≤ q.offset :=
  BitVec.sle_iff_toInt_le

/-- A pointer comes before another exactly when the step is forward. -/
theorem lt_add_iff {p : BasedPtr elementSize} {i : Word} (sized : 1 ≤ elementSize.toNat) (stays : p.Stays i) :
    p.lt (p + i) = true ↔ 0 < i.toInt := by
  rw [lt_iff, offset_add stays]
  have positive : (0 : Int) < elementSize.toNat := by exact_mod_cast sized
  constructor
  · intro later
    by_contra back
    have nonpos := Int.mul_nonpos_of_nonneg_of_nonpos positive.le (not_lt.mp back)
    omega
  · intro forward
    have step := Int.mul_pos positive forward
    omega

/-! ### Differences -/

/-- The difference of a pointer and one a step before it only depends on the step. -/
theorem difference_add (p : BasedPtr elementSize) (i : Word) :
    (p + i).difference p = elementSize * i / elementSize := by
  have cancelled : p.ptr + elementSize * i - p.ptr = elementSize * i := by ring
  rw [difference, ptr_add, cancelled]

/-- Both ends of a step are within `ptrdiff_t`, so the step is shorter than the address space. -/
theorem step_range {p : BasedPtr elementSize} {i : Word} (stays : p.Stays i) :
    -(2 ^ 64) < elementSize.toNat * i.toInt ∧ elementSize.toNat * i.toInt < 2 ^ 64 := by
  have start := p.offset_range
  have finish := stays
  unfold Stays at finish
  omega

/-- A step that is not back is measured exactly. -/
theorem difference_of_nonneg {p : BasedPtr elementSize} {i : Word} (sized : 1 ≤ elementSize.toNat)
    (stays : p.Stays i) (nonneg : 0 ≤ i.toInt) : (p + i).difference p = i := by
  have steps : i.toInt = i.toNat := by
    rw [BitVec.toInt_eq_toNat_cond]
    split
    case isTrue => rfl
    case isFalse high =>
      rw [BitVec.toInt_eq_toNat_cond, if_neg high] at nonneg
      omega
  have short : elementSize.toNat * i.toNat < 2 ^ 64 := by
    have range := (step_range stays).2
    rw [steps] at range
    exact_mod_cast range
  apply BitVec.eq_of_toNat_eq
  rw [difference_add, BitVec.toNat_udiv, BitVec.toNat_mul, Nat.mod_eq_of_lt short]
  exact Nat.mul_div_cancel_left _ sized

/-- The bits of a step back of `b` elements. -/
theorem toNat_add_of_back {i : Word} {b : Nat} (back : i.toInt = -b) (moved : 0 < b) :
    i.toNat + b = 2 ^ 64 := by
  rw [BitVec.toInt_eq_toNat_cond] at back
  split at back <;> omega

/-- A step back of `b` elements is measured as that many less than fit into the address space. -/
theorem toNat_difference_of_neg {p : BasedPtr elementSize} {i : Word} (sized : 1 ≤ elementSize.toNat)
    (stays : p.Stays i) {b : Nat} (back : i.toInt = -b) (moved : 0 < b) :
    ((p + i).difference p).toNat = 2 ^ 64 / elementSize.toNat - b := by
  have bits := toNat_add_of_back back moved
  have short : elementSize.toNat * b < 2 ^ 64 := by
    have range := (step_range stays).1
    rw [back, Int.mul_neg] at range
    have exact : ((elementSize.toNat * b : Nat) : Int) < 2 ^ 64 := by
      push_cast
      omega
    exact_mod_cast exact
  have positive : 0 < elementSize.toNat * b := Nat.mul_pos sized moved
  -- what is left of the address space behind the step
  have wrapped : elementSize.toNat * i.toNat % 2 ^ 64 = 2 ^ 64 - elementSize.toNat * b := by
    have whole : elementSize.toNat * i.toNat + elementSize.toNat * b = elementSize.toNat * 2 ^ 64 := by
      rw [← Nat.mul_add, bits]
    have split : elementSize.toNat * i.toNat =
        2 ^ 64 - elementSize.toNat * b + 2 ^ 64 * (elementSize.toNat - 1) := by
      obtain ⟨k, size⟩ := Nat.exists_eq_add_of_le' sized
      rw [size] at whole short ⊢
      simp only [Nat.add_sub_cancel]
      omega
    rw [split, Nat.add_mul_mod_self_left, Nat.mod_eq_of_lt (by omega)]
  rw [difference_add, BitVec.toNat_udiv, BitVec.toNat_mul, wrapped, Nat.sub_mul_div]

/-- The difference of two pointers is the step between them exactly when that is not back, or the elements are
    single bytes. -/
theorem difference_iff {p : BasedPtr elementSize} {i : Word} (sized : 1 ≤ elementSize.toNat)
    (stays : p.Stays i) : (p + i).difference p = i ↔ elementSize = 1 ∨ 0 ≤ i.toInt := by
  by_cases nonneg : 0 ≤ i.toInt
  · simp [nonneg, difference_of_nonneg sized stays nonneg]
  · obtain ⟨b, back⟩ := Int.exists_eq_neg_ofNat (not_le.mp nonneg).le
    have moved : 0 < b := by omega
    have bits := toNat_add_of_back back moved
    have low : -(2 ^ 63) ≤ i.toInt := BitVec.le_toInt i
    have measured := toNat_difference_of_neg sized stays back moved
    have single : elementSize = 1 ↔ elementSize.toNat = 1 :=
      ⟨fun one => by rw [one]; rfl, fun one => BitVec.eq_of_toNat_eq one⟩
    simp only [nonneg, or_false]
    rw [single]
    constructor
    · intro exact
      rw [exact] at measured
      have all : 2 ^ 64 / elementSize.toNat = 2 ^ 64 := by
        have atMost : 2 ^ 64 / elementSize.toNat ≤ 2 ^ 64 := Nat.div_le_self _ _
        generalize 2 ^ 64 / elementSize.toNat = quotient at measured atMost ⊢
        omega
      exact (Nat.div_eq_self.mp all).resolve_left (by norm_num)
    · intro one
      apply BitVec.eq_of_toNat_eq
      rw [measured, one, Nat.div_one]
      omega

end BasedPtr

/-! ### The laws of pointers -/

/-- The laws of pointer arithmetic, for a pointer and two numbers of elements. -/
structure PointerLaws {elementSize : Word} (p : BasedPtr elementSize) (i j : Word) : Prop where
  /-- `(p + i) + j == p + (i + j)`. -/
  add_add : (p + i) + j = p + (i + j)
  /-- `(p + i) - i == p`. -/
  add_sub : (p + i) - i = p
  /-- `++p` and `p++` leave `p + 1`, and the latter returns what `p` was. -/
  increment : p.preIncrement = p + (1 : Word) ∧ p.postIncrement = (p, p + (1 : Word))
  /-- `--p` and `p--` leave `p - 1`. -/
  decrement : p.preDecrement = p - (1 : Word) ∧ p.postDecrement = (p, p - (1 : Word))
  /-- `p += i` leaves `p + i`, and `p -= i` leaves `p - i`. -/
  assign : p.addAssign i = p + i ∧ p.subAssign i = p - i
  /-- `(p + i) - p == i`. -/
  difference : (p + i).difference p = i
  /-- `p < p + i` when and only when `i > 0`. -/
  less : p.lt (p + i) = true ↔ 0 < i.toInt

/-- As long as `p + i` stays within `ptrdiff_t`, the laws hold exactly when the elements are single bytes or `i`
    is not negative. Only the difference of pointers can break. -/
theorem pointer_laws_iff {elementSize : Word} (sized : 1 ≤ elementSize.toNat) (p : BasedPtr elementSize)
    (i j : Word) (stays : p.Stays i) : PointerLaws p i j ↔ elementSize = 1 ∨ 0 ≤ i.toInt := by
  rw [← BasedPtr.difference_iff sized stays]
  constructor
  · exact fun laws => laws.difference
  · intro exact
    exact
      { add_add := p.add_add i j
        add_sub := p.add_sub_cancel i
        increment := ⟨p.preIncrement_eq, by rw [BasedPtr.postIncrement, p.preIncrement_eq]⟩
        decrement := ⟨p.preDecrement_eq, by rw [BasedPtr.postDecrement, p.preDecrement_eq]⟩
        assign := ⟨rfl, rfl⟩
        difference := exact
        less := BasedPtr.lt_add_iff sized stays }

/-- A pointer to an element of four bytes, sixteen elements into the mapping. -/
def sixteenthInt : BasedPtr 4 := ⟨64⟩

/-- All laws hold for a step forward and a step back from there. -/
theorem pointer_laws_forward : PointerLaws sixteenthInt 3 (-5) :=
  (pointer_laws_iff (by decide) sixteenthInt 3 (-5) (by decide)).mpr (Or.inr (by decide))

/-- One element back and the difference is a quarter of the address space less one. -/
theorem pointer_laws_fail_back :
    sixteenthInt.toBool = true ∧ sixteenthInt.Stays (-1) ∧
      (sixteenthInt + (-1 : Word)).difference sixteenthInt = 4611686018427387903 ∧
      ¬ PointerLaws sixteenthInt (-1) 0 := by
  refine ⟨by decide, by decide, by decide, fun laws => ?_⟩
  exact absurd laws.difference (by decide)

end Umpi
