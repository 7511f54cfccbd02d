/-
Module: Umpi.Proofs.Predefined
Layer: Proofs
Purpose: Reductions with the predefined operations. Wherever `umpi_generic_op` is defined it has the effect of an
  operation that combines elements one by one, as the reductions assume. Its result is the exact one converted to
  the element type. Conversions keep the residue, so a total does not depend on the order of the additions, and is
  the exact total converted at the end, provided that no addition of the run is undefined.
Imports: Umpi.Model.Operations, Umpi.Proofs.Allreduce, Umpi.Proofs.Scans, Mathlib finite sums
Trusted boundary: none
Main exports: UmpiOp.Performs, umpiGenericOp_eq_apply, PredefinedOp.DefinedOn, allreduce_predefined, scan_predefined
Open obligations: none
-/
import Umpi.Model.Operations
import Umpi.Proofs.Allreduce
import Umpi.Proofs.Scans
import Mathlib.Algebra.Order.BigOperators.Group.Finset

namespace Umpi

open Foundation Sys

/-! ### Arrays of integers -/

section Arrays

variable {id : UmpiId} {format : IntFormat}

/-- An integer type is not scattered, and has few bytes. -/
theorem UmpiId.intFormat_cases (integer : id.intFormat = some format) : id ≠ .scattered ∧ format.bytes ≤ 8 := by
  cases id <;> simp only [UmpiId.intFormat, Option.some.injEq, reduceCtorEq] at integer <;> subst integer <;>
    exact ⟨by decide, by decide⟩

/-- The array of an integer type is not that of a scattered one. -/
theorem toDis_ne_scattered (integer : id.intFormat = some format) : id.toDis ≠ UmpiId.scattered.toDis := by
  intro same
  have equal := congrArg UmpiId.ofDis same
  rw [UmpiId.ofDis_toDis, UmpiId.ofDis_toDis] at equal
  exact (UmpiId.intFormat_cases integer).1 (Option.some.inj equal)

theorem typeMap_basic (integer : id.intFormat = some format) :
    (Iovec.basic id format.bytes).typeMap = (List.range format.bytes).map fun k : Nat => (k : Int) := by
  have other := toDis_ne_scattered integer
  simp only [Iovec.typeMap, Iovec.scattered, Iovec.len, Iovec.contiguous, Iovec.id, Iovec.basic, List.getD_cons_zero,
    beq_iff_eq, other, if_false, bne_iff_ne, ne_eq, not_false_eq_true, if_true]

/-- Elements of an integer type lie side by side. -/
theorem elementLocs_basic (integer : id.intFormat = some format) (base : Loc) (i : Nat) :
    elementLocs base (Iovec.basic id format.bytes) i = arrayLocs base format.bytes i := by
  have few := (UmpiId.intFormat_cases integer).2
  have stride : (Iovec.basic id format.bytes).stride = format.bytes := by
    simp only [Iovec.stride, Iovec.contiguous, Iovec.id, Iovec.basic, List.getD_cons_zero, bne_iff_ne, ne_eq,
      toDis_ne_scattered integer, not_false_eq_true, if_true]
    exact ptrdiff_of_range (by omega) (by omega)
  rw [elementLocs, stride, typeMap_basic integer, List.map_map]
  rfl

/-- The values of an integer type are the byte strings of its length. -/
theorem elementValue_basic_iff (integer : id.intFormat = some format) {value : List UInt8} :
    (Iovec.basic id format.bytes).ElementValue value ↔ value.length = format.bytes := by
  have offsets := typeMap_basic integer
  constructor
  · rintro ⟨byteAt, rfl⟩
    rw [offsets, List.length_map, List.length_map, List.length_range]
  · intro length
    refine ⟨fun offset => value.getD offset.toNat 0, ?_⟩
    rw [offsets, List.map_map]
    refine List.ext_getElem (by simp [length]) fun k below _ => ?_
    simp [below]

end Arrays

/-! ### Results -/

namespace PredefinedOp

/-- The result without a bound on the integers. -/
def ideal : PredefinedOp → Int → Int → Int
  | max => Max.max
  | min => Min.min
  | sum => (· + ·)
  | prod => (· * ·)

/-- The exact result in the element type. -/
def result (op : PredefinedOp) (format : IntFormat) (a b : Int) : Int := format.wrap (op.ideal a b)

/-- The operation on two integers is not undefined. -/
def Defined (op : PredefinedOp) (format : IntFormat) (a b : Int) : Prop := ∃ c, op.operate format a b = .ok c

/-- No addition of an integer to the total of others is undefined. -/
def DefinedOn (op : PredefinedOp) (format : IntFormat) (y : Nat → Int) (n : Nat) : Prop :=
  EveryAddition (op.Defined format) (op.result format) y n

end PredefinedOp

section Arithmetic

variable {op : PredefinedOp} {format : IntFormat} {a b c x : Int}

/-- Arithmetic in the promoted type has the same result in the type itself. -/
theorem arithmetic_promoted (done : arithmetic (promoted format) x = .ok c) : format.wrap c = format.wrap x := by
  unfold arithmetic at done
  split at done
  case isTrue => cases done
  case isFalse defined =>
    obtain rfl := Outcome.ok.inj done
    unfold promoted at defined ⊢
    split
    case isTrue narrow =>
      -- the result is an `int`
      rw [if_pos narrow] at defined
      have range : IntFormat.InRange { bytes := 4, signed := true, positive := by decide } x := by
        by_contra outside
        exact defined ⟨rfl, outside⟩
      rw [IntFormat.wrap_of_inRange range]
    case isFalse => rw [IntFormat.wrap_wrap]

/-- Where the operation is defined its result is the exact one in the element type. -/
theorem PredefinedOp.operate_eq_ok (first : format.InRange a) (second : format.InRange b)
    (done : op.operate format a b = .ok c) : c = op.result format a b := by
  cases op with
  | max =>
      rw [← Outcome.ok.inj done]
      show (if a < b then b else a) = format.wrap (Max.max a b)
      split
      case isTrue less => rw [max_eq_right less.le, IntFormat.wrap_of_inRange second]
      case isFalse notLess => rw [max_eq_left (not_lt.mp notLess), IntFormat.wrap_of_inRange first]
  | min =>
      rw [← Outcome.ok.inj done]
      show (if b < a then b else a) = format.wrap (Min.min a b)
      split
      case isTrue less => rw [min_eq_right less.le, IntFormat.wrap_of_inRange second]
      case isFalse notLess => rw [min_eq_left (not_lt.mp notLess), IntFormat.wrap_of_inRange first]
  | sum | prod =>
      obtain ⟨value, computed, stored⟩ := Outcome.bind_eq_ok.mp done
      rw [← Outcome.ok.inj stored]
      exact arithmetic_promoted computed

/-- On which side an integer is does not matter. -/
theorem PredefinedOp.defined_comm : op.Defined format a b ↔ op.Defined format b a := by
  cases op with
  | max | min => exact ⟨fun _ => ⟨_, rfl⟩, fun _ => ⟨_, rfl⟩⟩
  | sum => simp only [Defined, operate, Int.add_comm a b]
  | prod => simp only [Defined, operate, Int.mul_comm a b]

/-- When the operation is defined. -/
theorem PredefinedOp.defined_iff : op.Defined format a b ↔
    op = .max ∨ op = .min ∨ (promoted format).signed = false ∨ (promoted format).InRange (op.ideal a b) := by
  have arithmetics (x : Int) : (∃ c, (arithmetic (promoted format) x >>= fun result =>
      Outcome.ok (format.wrap result)) = .ok c) ↔
      (promoted format).signed = false ∨ (promoted format).InRange x := by
    unfold arithmetic
    split
    case isTrue undefined => simp [undefined.1, undefined.2]
    case isFalse defined =>
      rw [not_and_not_right] at defined
      refine ⟨fun _ => ?_, fun _ => ⟨_, rfl⟩⟩
      by_cases signed : (promoted format).signed = true
      · exact Or.inr (defined signed)
      · exact Or.inl (Bool.eq_false_iff.mpr signed)
  cases op with
  | max | min => simp [Defined, operate]
  | sum => simpa [Defined, operate, ideal] using arithmetics (a + b)
  | prod => simpa [Defined, operate, ideal] using arithmetics (a * b)

/-- Operations keep to the integers of the type, and the order of additions does not matter. -/
theorem PredefinedOp.combines (op : PredefinedOp) (format : IntFormat) :
    Foundation.Combines format.InRange (op.result format) where
  closed := fun _ _ _ _ => format.wrap_inRange _
  comm := by
    intro a b _ _
    cases op with
    | max => exact congrArg format.wrap (max_comm a b)
    | min => exact congrArg format.wrap (min_comm a b)
    | sum => exact congrArg format.wrap (Int.add_comm a b)
    | prod => exact congrArg format.wrap (Int.mul_comm a b)
  assoc := by
    intro a b c first second third
    cases op with
    | max =>
        have left : format.InRange (Max.max a b) := by rcases max_choice a b with same | same <;> rwa [same]
        have right : format.InRange (Max.max b c) := by rcases max_choice b c with same | same <;> rwa [same]
        simp only [result, ideal, IntFormat.wrap_of_inRange left, IntFormat.wrap_of_inRange right, max_assoc]
    | min =>
        have left : format.InRange (Min.min a b) := by rcases min_choice a b with same | same <;> rwa [same]
        have right : format.InRange (Min.min b c) := by rcases min_choice b c with same | same <;> rwa [same]
        simp only [result, ideal, IntFormat.wrap_of_inRange left, IntFormat.wrap_of_inRange right, min_assoc]
    | sum =>
        simp only [result, ideal]
        rw [Int.add_comm, format.wrap_add_wrap, format.wrap_add_wrap, Int.add_comm, Int.add_assoc]
    | prod =>
        simp only [result, ideal]
        rw [Int.mul_comm, format.wrap_mul_wrap, format.wrap_mul_wrap, Int.mul_comm, Int.mul_assoc]

/-- A total of results is the exact total in the element type. -/
theorem PredefinedOp.foldUpTo_result (op : PredefinedOp) {y : Nat → Int} (values : ∀ i, format.InRange (y i))
    (r : Nat) : foldUpTo (op.result format) y r = format.wrap (foldUpTo op.ideal y r) := by
  induction r with
  | zero => exact (IntFormat.wrap_of_inRange (values 0)).symm
  | succ r ih =>
      rw [foldUpTo, ih, foldUpTo]
      cases op with
      | max =>
          have inside : format.InRange (foldUpTo Max.max y r) :=
            foldUpTo_valid (fun a b first second => by rcases max_choice a b with same | same <;> rwa [same]) values r
          exact congrArg (fun total => format.wrap (Max.max (y (r + 1)) total)) (IntFormat.wrap_of_inRange inside)
      | min =>
          have inside : format.InRange (foldUpTo Min.min y r) :=
            foldUpTo_valid (fun a b first second => by rcases min_choice a b with same | same <;> rwa [same]) values r
          exact congrArg (fun total => format.wrap (Min.min (y (r + 1)) total)) (IntFormat.wrap_of_inRange inside)
      | sum => exact format.wrap_add_wrap _ _
      | prod => exact format.wrap_mul_wrap _ _

end Arithmetic

section Sums

variable {format : IntFormat} {y : Nat → Int} {n : Nat}

/-- Integers of half the modulus are in the range of a signed type. -/
theorem inRange_of_abs (signed : format.signed = true) {x : Int} (below : 2 * |x| < format.modulus) :
    format.InRange x := by
  unfold IntFormat.InRange
  rw [if_pos signed]
  have bounds := abs_le.mp (le_refl |x|)
  omega

/-- A signed type is promoted to one with all its integers. -/
theorem promoted_inRange (signed : format.signed = true) {x : Int} (below : 2 * |x| < format.modulus) :
    (promoted format).InRange x := by
  unfold promoted
  split
  case isTrue narrow =>
    have smaller : format.modulus ≤ 256 ^ 4 := Nat.pow_le_pow_right (by decide) narrow.le
    exact inRange_of_abs rfl (below.trans_le (by exact_mod_cast smaller))
  case isFalse => exact inRange_of_abs signed below

/-- Sums of distinct values are small if the sum of all absolute values is. -/
theorem abs_sum_below (small : 2 * ∑ rank ∈ Finset.range n, |y rank| < format.modulus) {past : List Nat}
    (bound : ∀ j ∈ past, j < n) : 2 * |∑ rank ∈ past.toFinset, y rank| < format.modulus := by
  have subset : past.toFinset ⊆ Finset.range n := by
    intro j listed
    rw [Finset.mem_range]
    exact bound j (List.mem_toFinset.mp listed)
  have all : ∑ rank ∈ past.toFinset, |y rank| ≤ ∑ rank ∈ Finset.range n, |y rank| :=
    Finset.sum_le_sum_of_subset_of_nonneg subset fun _ _ _ => abs_nonneg _
  have absolute := Finset.abs_sum_le_sum_abs y past.toFinset
  omega

/-- Then totals are sums. -/
theorem PredefinedOp.total_sum (signed : format.signed = true)
    (small : 2 * ∑ rank ∈ Finset.range n, |y rank| < format.modulus) {past : List Nat} (nodup : past.Nodup)
    (bound : ∀ j ∈ past, j < n) {sum : Int} (so : total (PredefinedOp.sum.result format) y past = some sum) :
    sum = ∑ rank ∈ past.toFinset, y rank := by
  induction past generalizing sum with
  | nil => cases so
  | cons i past ih =>
      obtain ⟨fresh, distinct⟩ := List.nodup_cons.mp nodup
      have whole := inRange_of_abs signed (abs_sum_below small bound)
      rw [List.toFinset_cons, Finset.sum_insert (by simpa using fresh)] at whole ⊢
      cases past with
      | nil =>
          rw [total_singleton, Option.some.injEq] at so
          simp [so]
      | cons j past =>
          obtain ⟨earlier, before⟩ := exists_total (f := PredefinedOp.sum.result format) (x := y)
            (List.cons_ne_nil j past)
          have sums := ih distinct (fun k listed => bound k (List.mem_cons_of_mem i listed)) before
          rw [total_cons before, Option.some.injEq] at so
          rw [← so, sums]
          exact IntFormat.wrap_of_inRange whole

/-- No addition is undefined if the sum of all absolute values is that of an integer of a signed type. -/
theorem PredefinedOp.definedOn_sum (signed : format.signed = true)
    (small : 2 * ∑ rank ∈ Finset.range n, |y rank| < format.modulus) : PredefinedOp.sum.DefinedOn format y n := by
  intro past i sum nodup bound so
  have below := abs_sum_below small bound
  have earlier := PredefinedOp.total_sum signed small nodup.of_cons
    (fun j listed => bound j (List.mem_cons_of_mem i listed)) so
  rw [List.toFinset_cons, Finset.sum_insert (by simpa using (List.nodup_cons.mp nodup).1), ← earlier] at below
  exact PredefinedOp.defined_iff.mpr (Or.inr (Or.inr (Or.inr (promoted_inRange signed below))))

end Sums

/-! ### Operations on bytes -/

/-- The operation has the effect of that of `funcs.hh` on the bytes of integers wherever that is defined. -/
structure UmpiOp.Performs (op : UmpiOp) (kind : PredefinedOp) (format : IntFormat) : Prop where
  length : ∀ value value', value.length = format.bytes → value'.length = format.bytes →
    (op.func value value').length = format.bytes
  agrees : ∀ value value' stored, value.length = format.bytes → value'.length = format.bytes →
    kind.onBytes format value value' = .ok stored → op.func value value' = stored

/-- One such operation. -/
def PredefinedOp.umpiOp (kind : PredefinedOp) (format : IntFormat) : UmpiOp where
  func := fun value value' =>
    match kind.onBytes format value value' with
    | .ok stored => stored
    | _ => value'

theorem PredefinedOp.umpiOp_performs (kind : PredefinedOp) (format : IntFormat) :
    (kind.umpiOp format).Performs kind format where
  length := by
    intro value value' _ width'
    simp only [umpiOp]
    split
    case h_1 stored done =>
      obtain ⟨c, _, stores⟩ := Outcome.bind_eq_ok.mp done
      rw [← Outcome.ok.inj stores, IntFormat.length_encode]
    case h_2 => exact width'
  agrees := by
    intro value value' stored _ _ done
    simp only [umpiOp, done]

section Performing

variable {id : UmpiId} {format : IntFormat} {kind : PredefinedOp} {op : UmpiOp}

theorem UmpiOp.Performs.closed (performs : op.Performs kind format) (integer : id.intFormat = some format) :
    op.Closed (Iovec.basic id format.bytes) := by
  intro value value' possible possible'
  rw [elementValue_basic_iff integer] at possible possible' ⊢
  exact performs.length value value' possible possible'

/-- The bytes of two integers on which the operation is defined become those of the result. -/
theorem UmpiOp.Performs.func_encode (performs : op.Performs kind format) {a b : Int} (first : format.InRange a)
    (second : format.InRange b) (defined : kind.Defined format a b) :
    op.func (format.encode a) (format.encode b) = format.encode (kind.result format a b) := by
  obtain ⟨c, done⟩ := defined
  have stored : kind.onBytes format (format.encode a) (format.encode b) = .ok (format.encode c) := by
    rw [PredefinedOp.onBytes, IntFormat.decode_encode, IntFormat.decode_encode, IntFormat.wrap_of_inRange first,
      IntFormat.wrap_of_inRange second, done]
    rfl
  rw [performs.agrees _ _ _ (format.length_encode a) (format.length_encode b) stored,
    PredefinedOp.operate_eq_ok first second done]

/-- The loop goes through elements of an integer type like that of a reduction. -/
theorem applyElements_eq_apply (performs : op.Performs kind format) (integer : id.intFormat = some format)
    {invec inoutvec : Loc} {count : Nat} {mem mem' : Memory}
    (done : applyElements (kind.onBytes format) format.bytes invec inoutvec count mem = .ok mem') :
    mem' = op.apply invec inoutvec (Iovec.basic id format.bytes) count mem := by
  induction count generalizing mem' with
  | zero => exact (Outcome.ok.inj done).symm
  | succ i ih =>
      obtain ⟨before, earlier, rest⟩ := Outcome.bind_eq_ok.mp done
      obtain ⟨stored, operated, written⟩ := Outcome.bind_eq_ok.mp rest
      obtain rfl := ih earlier
      have result := performs.agrees _ _ stored (by simp [arrayLocs]) (by simp [arrayLocs]) operated
      rw [← Outcome.ok.inj written, UmpiOp.apply, elementLocs_basic integer, elementLocs_basic integer, result]

/-- On an integer type the operation goes through the elements. -/
theorem umpiGenericOp_integer (integer : id.intFormat = some format)
    (real : UmpiId → List UInt8 → List UInt8 → List UInt8) (mem : Memory) (invec inoutvec : Loc) (len : Int) :
    umpiGenericOp real kind mem invec inoutvec len (Iovec.basic id format.bytes) =
      applyElements (kind.onBytes format) format.bytes invec inoutvec len.toNat mem := by
  have known : UmpiId.ofDis (Iovec.basic id format.bytes).id = some id := UmpiId.ofDis_toDis id
  unfold umpiGenericOp
  rw [known]
  cases id <;> simp only [UmpiId.intFormat, Option.some.injEq, reduceCtorEq] at integer <;> subst integer <;> rfl

/-- Where the predefined operation is defined it has the effect of the operation of a reduction. -/
theorem umpiGenericOp_eq_apply (performs : op.Performs kind format) (integer : id.intFormat = some format)
    {real : UmpiId → List UInt8 → List UInt8 → List UInt8} {mem mem' : Memory} {invec inoutvec : Loc} {len : Int}
    (done : umpiGenericOp real kind mem invec inoutvec len (Iovec.basic id format.bytes) = .ok mem') :
    mem' = op.apply invec inoutvec (Iovec.basic id format.bytes) len.toNat mem := by
  rw [umpiGenericOp_integer integer] at done
  exact applyElements_eq_apply performs integer done

end Performing

/-! ### Reductions -/

/-- A reduction with a predefined operation on an integer type. -/
structure Reduction.Predefined (reduction : Reduction) (kind : PredefinedOp) (format : IntFormat) : Prop where
  layout : ∃ id : UmpiId, id.intFormat = some format ∧ reduction.datatype.iovec = Iovec.basic id format.bytes
  performs : reduction.op.Performs kind format

/-- Element `i` of the input of a rank, as an integer. -/
def Reduction.integer (reduction : Reduction) (format : IntFormat) (mem : Memory) (i rank : Nat) : Int :=
  format.decode (reduction.input mem i rank)

namespace Reduction.Predefined

variable {reduction : Reduction} {kind : PredefinedOp} {format : IntFormat} {mem : Memory} {n i : Nat}

/-- The operation of such a reduction is `umpi_generic_op`, wherever that is defined. -/
theorem reduce_eq (predefined : reduction.Predefined kind format) {real : UmpiId → List UInt8 → List UInt8 → List UInt8}
    {w : World} {invec inoutvec : Loc} {count : Int} {mem : Memory}
    (done : umpiGenericOp real kind w.mem invec inoutvec count reduction.datatype.iovec = .ok mem) :
    w.reduce reduction.op invec inoutvec count reduction.datatype.iovec = { w with mem := mem } := by
  obtain ⟨id, integer, layout⟩ := predefined.layout
  rw [layout] at done ⊢
  rw [World.reduce, umpiGenericOp_eq_apply predefined.performs integer done]
theorem input_eq (predefined : reduction.Predefined kind format) (mem : Memory) (i rank : Nat) :
    reduction.input mem i rank = format.encode (reduction.integer format mem i rank) := by
  obtain ⟨id, integer, layout⟩ := predefined.layout
  have possible := reduction.value_valid mem (reduction.source rank) i
  rw [layout, elementValue_basic_iff integer] at possible
  exact (IntFormat.encode_decode possible).symm

theorem integer_inRange (reduction : Reduction) (format : IntFormat) (mem : Memory) (i rank : Nat) :
    format.InRange (reduction.integer format mem i rank) := format.decode_inRange _

/-- If no addition is undefined the inputs can be added in any order. -/
theorem adds (predefined : reduction.Predefined kind format)
    (defined : ∀ i < reduction.count, kind.DefinedOn format (reduction.integer format mem i) n) :
    reduction.Adds n mem := by
  intro i below
  have combines := kind.combines format
  have inputs := integer_inRange reduction format mem i
  refine (combines.accumulates inputs n).encoded (fun rank _ => predefined.input_eq mem i rank) ?_ ?_
  · intro past rank sum nodup bound so
    have total := total_valid combines.closed inputs so
    exact predefined.performs.func_encode (inputs rank) total (defined i below past rank sum nodup bound so)
  · intro past rank sum nodup bound so
    have total := total_valid combines.closed inputs so
    exact predefined.performs.func_encode total (inputs rank)
      (PredefinedOp.defined_comm.mp (defined i below past rank sum nodup bound so))

/-- If no addition in the order of the ranks is undefined, the total has the bytes of the exact one. -/
theorem foldUpTo_eq (predefined : reduction.Predefined kind format) {r : Nat}
    (defined : ∀ rank < r, kind.Defined format (reduction.integer format mem i (rank + 1))
      (foldUpTo (kind.result format) (reduction.integer format mem i) rank)) :
    foldUpTo reduction.op.func (reduction.input mem i) r =
      format.encode (foldUpTo kind.ideal (reduction.integer format mem i) r) := by
  have combines := kind.combines format
  have inputs := integer_inRange reduction format mem i
  rw [foldUpTo_encoded (g := kind.result format) (fun rank _ => predefined.input_eq mem i rank) fun rank below =>
    predefined.performs.func_encode (inputs (rank + 1)) (foldUpTo_valid combines.closed inputs rank)
      (defined rank below), kind.foldUpTo_result inputs, IntFormat.encode_wrap]

end Reduction.Predefined

/-- In every run of `MPI_Allreduce` with a predefined operation on an integer type, of no more elements than the
    scratch buffers hold if it is in place: if no addition of an input to the total of others is undefined, then,
    whatever the order in which the ranks come, every rank ends up with the exact result of all inputs, converted to
    the element type, and the send buffers are unchanged. -/
theorem allreduce_predefined {vm : ProcessVm} (copies : CopiesAll vm) {reduction : Reduction} {inPlace : Bool}
    {n t : Nat} {origin s : Sys} (ready : origin.Ready n t) (populated : 1 ≤ n) (limit : n ≤ 10000)
    (arguments : AllreduceArguments reduction n inPlace) {kind : PredefinedOp} {format : IntFormat}
    (predefined : reduction.Predefined kind format)
    (defined : ∀ i < reduction.count, kind.DefinedOn format (reduction.integer format origin.world.mem i) n)
    (run : Reaches vm (once reduction.allreduceCalls) origin s) (complete : s.Complete) :
    (∀ rank < n, ∀ i < reduction.count, format.decode (reduction.value s.world.mem (reduction.target rank) i) =
      format.wrap (foldUpTo kind.ideal (reduction.integer format origin.world.mem i) (n - 1))) ∧
    ∀ rank < n, reduction.send rank ≠ .inPlace →
      ∀ location ∈ reduction.view ((reduction.send rank).loc rank),
        s.world.mem location = origin.world.mem location := by
  have result : Allreduced reduction n origin.world.mem s.world.mem := by
    by_cases several : 2 ≤ n
    · exact allreduced_of_adds copies arguments ready several limit (predefined.adds defined) run complete
    · obtain rfl : n = 1 := by omega
      exact allreduced_of_alone copies arguments ready run complete
  refine ⟨fun rank valid i below => ?_, result.unchanged⟩
  have inOrder : ∀ other < n - 1, kind.Defined format (reduction.integer format origin.world.mem i (other + 1))
      (foldUpTo (kind.result format) (reduction.integer format origin.world.mem i) other) :=
    fun other earlier => (defined i below).inOrder (by omega)
  rw [result.total rank valid i below, predefined.foldUpTo_eq inOrder, IntFormat.decode_encode]

theorem cInt_positive : 0 < 4 := by decide

/-- The type `int`. -/
def cInt : IntFormat := { bytes := 4, signed := true, positive := cInt_positive }

/-- Two ranks that add up one `int` each. -/
def intsToReduce : Reduction where
  send := fun _ => .addr 8
  recv := fun _ => .addr 0
  count := 1
  datatype := Datatype.mpiInt
  op := PredefinedOp.sum.umpiOp cInt

/-- The first `int` is 255, and the second -1. -/
def intsMemory : Memory := fun location => if location.region = .heap 0 ∧ location.addr ≠ 8 then 0 else 255

theorem intsToReduce_performs : intsToReduce.op.Performs .sum cInt := by
  have performs := PredefinedOp.sum.umpiOp_performs cInt
  exact performs

theorem intsToReduce_predefined : intsToReduce.Predefined .sum cInt where
  layout := by
    refine ⟨.int, rfl, ?_⟩
    rfl
  performs := intsToReduce_performs

theorem intsToReduce_arguments (n : Nat) : AllreduceArguments intsToReduce n false where
  valid :=
    { countRange := (by decide : 1 < 2 ^ 31)
      bytesRange := (by decide : 1 * Datatype.mpiInt.len < 2 ^ 63)
      given := fun _ _ null => by cases null
      closed := intsToReduce_performs.closed (show UmpiId.int.intFormat = some cInt from rfl) }
  receives := fun _ _ null => by cases null
  alike := fun rank _ => by simp [intsToReduce]
  short := fun impossible => by cases impossible
  apart := by
    intro rank _ _ location sent received
    have here : location ∈ [0, 1, 2, 3].map fun k : Int => (⟨.heap rank, 8 + k⟩ : Loc) := sent
    have there : location ∈ [0, 1, 2, 3].map fun k : Int => (⟨.heap rank, 0 + k⟩ : Loc) := received
    obtain ⟨k, _, rfl⟩ := List.mem_map.mp here
    obtain ⟨k', _, same⟩ := List.mem_map.mp there
    have addresses : 0 + k' = 8 + k := congrArg Loc.addr same
    simp only [List.mem_cons, List.not_mem_nil, or_false] at *
    omega

/-- The rank that joins first ends up with the sum. -/
theorem allreduce_predefined_ints :
    ∃ s, (Sys.init 2 intsMemory).run copyingVm (once intsToReduce.allreduceCalls) [.call 1, .call 0, .act 0, .act 0] =
        .ok s ∧
      s.Complete ∧ cInt.decode (intsToReduce.value s.world.mem ⟨.heap 1, 0⟩ 0) = 254 := by
  have runs : ∃ s, (Sys.init 2 intsMemory).run copyingVm (once intsToReduce.allreduceCalls)
      [.call 1, .call 0, .act 0, .act 0] = .ok s ∧ s.Complete :=
    ⟨_, rfl, .of_checks rfl (by decide) (by decide) (by decide)⟩
  obtain ⟨s, ran, complete⟩ := runs
  have defined : ∀ i < intsToReduce.count,
      PredefinedOp.sum.DefinedOn cInt (intsToReduce.integer cInt intsMemory i) 2 := by
    intro i below
    obtain rfl : i = 0 := Nat.lt_one_iff.mp below
    exact PredefinedOp.definedOn_sum rfl (by decide +kernel)
  have results := (allreduce_predefined copyingVm_copies (ready_init 2 _) (by decide) (by decide)
    (intsToReduce_arguments 2) intsToReduce_predefined defined (reaches_of_run ran) complete).1 1 (by decide) 0
    (by decide)
  exact ⟨s, ran, complete, results.trans (by decide +kernel)⟩

/-- In every run of `MPI_Scan` with a predefined operation on an integer type, of no more elements than the scratch
    buffers hold: if no addition in the order of the ranks is undefined, every rank ends up with the exact result of
    the inputs up to its own, converted to the element type. -/
theorem scan_predefined {vm : ProcessVm} (copies : CopiesAll vm) {reduction : Reduction} {n t : Nat}
    {origin s : Sys} (ready : origin.Ready n t) (populated : 1 ≤ n) (limit : n ≤ 10000)
    (valid : reduction.Valid n) (short : reduction.Short) (receives : ∀ rank < n, reduction.Receives rank)
    {kind : PredefinedOp} {format : IntFormat} (predefined : reduction.Predefined kind format)
    (defined : ∀ i < reduction.count, ∀ rank, rank + 1 < n →
      kind.Defined format (reduction.integer format origin.world.mem i (rank + 1))
        (foldUpTo (kind.result format) (reduction.integer format origin.world.mem i) rank))
    (run : Reaches vm (once reduction.scanCalls) origin s) (complete : s.Complete) :
    ∀ rank < n, ∀ i < reduction.count, format.decode (reduction.value s.world.mem (reduction.target rank) i) =
      format.wrap (foldUpTo kind.ideal (reduction.integer format origin.world.mem i) rank) := by
  have sound := scanPlan_sound copies valid short receives (t % umpiOutstandingCollectiveOperations)
    origin.world.mem
  have folds := scan_folds valid short receives populated (ladder_followed sound ready limit run) complete
  intro rank inRange i below
  have inOrder : ∀ other < rank, kind.Defined format (reduction.integer format origin.world.mem i (other + 1))
      (foldUpTo (kind.result format) (reduction.integer format origin.world.mem i) other) :=
    fun other earlier => defined i below other (by omega)
  rw [folds rank inRange i below, predefined.foldUpTo_eq inOrder, IntFormat.decode_encode]

/-- Two ranks that look for the larger `int`, of which the second has its own in place. -/
def intsToScan : Reduction where
  send := fun rank => if rank = 0 then .addr 8 else .inPlace
  recv := fun _ => .addr 0
  count := 1
  datatype := Datatype.mpiInt
  op := PredefinedOp.max.umpiOp cInt

theorem intsToScan_performs : intsToScan.op.Performs .max cInt := by
  have performs := PredefinedOp.max.umpiOp_performs cInt
  exact performs

theorem intsToScan_valid (n : Nat) : intsToScan.Valid n where
  countRange := (by decide : 1 < 2 ^ 31)
  bytesRange := (by decide : 1 * Datatype.mpiInt.len < 2 ^ 63)
  given := by
    intro rank _ null
    simp only [intsToScan] at null
    split at null <;> cases null
  closed := intsToScan_performs.closed (show UmpiId.int.intFormat = some cInt from rfl)

/-- It ends up with 255, as the comparison is that of signed integers. -/
theorem scan_predefined_ints :
    ∃ s, (Sys.init 2 intsMemory).run copyingVm (once intsToScan.scanCalls)
        [.call 1, .call 0, .act 0, .act 0, .act 0, .act 0, .act 0, .act 0] = .ok s ∧
      s.Complete ∧ cInt.decode (intsToScan.value s.world.mem ⟨.heap 1, 0⟩ 0) = 255 := by
  have runs : ∃ s, (Sys.init 2 intsMemory).run copyingVm (once intsToScan.scanCalls)
      [.call 1, .call 0, .act 0, .act 0, .act 0, .act 0, .act 0, .act 0] = .ok s ∧ s.Complete := by
    refine ⟨?s, ?ran, ?complete⟩
    case ran =>
      show ((ladder _ _ _ _ _ _ >>= _) >>= _) = _
      rw [ladder_pair rfl (by decide)]
      rfl
    case complete => exact .of_checks rfl (by decide) (by decide) (by decide)
  obtain ⟨s, ran, complete⟩ := runs
  have predefined : intsToScan.Predefined .max cInt :=
    { layout := ⟨.int, rfl, rfl⟩, performs := intsToScan_performs }
  have results := scan_predefined copyingVm_copies (ready_init 2 _) (by decide) (by decide) (intsToScan_valid 2)
    (by unfold Reduction.Short; decide) (fun _ _ null => by cases null) predefined (fun _ _ _ _ => ⟨_, rfl⟩)
    (reaches_of_run ran) complete 1 (by decide) 0 (by decide)
  exact ⟨s, ran, complete, results.trans (by decide +kernel)⟩

end Umpi
