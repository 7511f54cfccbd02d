/-
Module: Umpi.Model.BasedPtr
Layer: Model
Purpose: `class based_ptr`, a pointer into the shared mapping that means the same in every process. It keeps the
  distance from `*addr`, the place where a process has the mapping. Every operator is the machine arithmetic of
  its source text: `ptrdiff_t` and `size_t` are both `Word`, since converting one into the other keeps the bits,
  and a product or quotient with `sizeof` is one of `size_t` values.
Imports: Umpi.Model.MemoryPool
Trusted boundary: human-reviewed spec
Main exports: Word, BasedPtr, BasedPtr.ofPointer, BasedPtr.toPointer, BasedPtr.difference, BasedPtr.pooled
Open obligations: none
-/
import Umpi.Model.MemoryPool

namespace Umpi

/-- The bits of a `ptrdiff_t`, of a `size_t`, or of an address. -/
abbrev Word := BitVec 64

/-- `based_ptr<T, addr>` for a type with `sizeof(T) = elementSize`. The pointer `*addr` is an argument of the
    operations that read it, because every process has its own. -/
structure BasedPtr (elementSize : Word) where
  ptr : Word
deriving Repr, DecidableEq

namespace BasedPtr

variable {elementSize : Word}

/-- `nullptr_`, which is `std::numeric_limits<ptrdiff_t>::min()`. -/
def nullptr : Word := BitVec.intMin 64

/-- `based_ptr(std::nullptr_t)`. -/
def null : BasedPtr elementSize := ⟨nullptr⟩

/-- `based_ptr(element_type *ptr)`. -/
def ofPointer (addr ptr : Word) : BasedPtr elementSize := ⟨if ptr = 0 then nullptr else ptr - addr⟩

/-- `based_ptr(const based_ptr<U, addr> &other)`. -/
def convert {otherSize : Word} (other : BasedPtr otherSize) : BasedPtr elementSize := ⟨other.ptr⟩

/-- `explicit operator bool()`. -/
def toBool (p : BasedPtr elementSize) : Bool := p.ptr != nullptr

/-- `operator==`. -/
def eq (p other : BasedPtr elementSize) : Bool := p.ptr == other.ptr

/-- `operator<`, a comparison of `ptrdiff_t` values. -/
def lt (p other : BasedPtr elementSize) : Bool := p.ptr.slt other.ptr

/-- `operator<=`. -/
def le (p other : BasedPtr elementSize) : Bool := p.ptr.sle other.ptr

/-- `operator>`. -/
def gt (p other : BasedPtr elementSize) : Bool := other.ptr.slt p.ptr

/-- `operator>=`. -/
def ge (p other : BasedPtr elementSize) : Bool := other.ptr.sle p.ptr

/-- `explicit operator element_type *()`, and the address of `operator*` and `operator->`. -/
def toPointer (p : BasedPtr elementSize) (addr : Word) : Word := addr + p.ptr

/-- `operator++()`: the pointer afterwards, which is also the result. -/
def preIncrement (p : BasedPtr elementSize) : BasedPtr elementSize := ⟨p.ptr + elementSize⟩

/-- `operator--()`. -/
def preDecrement (p : BasedPtr elementSize) : BasedPtr elementSize := ⟨p.ptr - elementSize⟩

/-- `operator++(int)`: the result, which is a copy made before, and the pointer afterwards. -/
def postIncrement (p : BasedPtr elementSize) : BasedPtr elementSize × BasedPtr elementSize :=
  (p, p.preIncrement)

/-- `operator--(int)`. -/
def postDecrement (p : BasedPtr elementSize) : BasedPtr elementSize × BasedPtr elementSize :=
  (p, p.preDecrement)

/-- `operator+=`: the pointer afterwards, which is also the result. -/
def addAssign (p : BasedPtr elementSize) (i : Word) : BasedPtr elementSize := ⟨p.ptr + elementSize * i⟩

/-- `operator-=`. -/
def subAssign (p : BasedPtr elementSize) (i : Word) : BasedPtr elementSize := ⟨p.ptr - elementSize * i⟩

/-- `operator+(ptrdiff_t)`. -/
def add (p : BasedPtr elementSize) (i : Word) : BasedPtr elementSize := ⟨p.ptr + elementSize * i⟩

/-- `operator-(ptrdiff_t)`. -/
def sub (p : BasedPtr elementSize) (i : Word) : BasedPtr elementSize := ⟨p.ptr - elementSize * i⟩

instance : HAdd (BasedPtr elementSize) Word (BasedPtr elementSize) := ⟨add⟩

instance : HSub (BasedPtr elementSize) Word (BasedPtr elementSize) := ⟨sub⟩

/-- `operator-(const based_ptr<const element_type, addr> &)`. The difference is signed, but it is divided by a
    `size_t`, so it is converted first and the quotient is that of unsigned numbers. -/
def difference (p other : BasedPtr elementSize) : Word := (p.ptr - other.ptr) / elementSize

/-- The address of `operator[]`. -/
def index (p : BasedPtr elementSize) (addr i : Word) : Word := (p + i).toPointer addr

/-- `pointer_to`, of an element at an address. -/
def pointerTo (addr element : Word) : BasedPtr elementSize := ofPointer addr element

/-- A pointer of the memory pool: none, or a distance from the start of the mapping. -/
def pooled : Option Nat → BasedPtr elementSize
  | none => null
  | some distance => ⟨BitVec.ofNat 64 distance⟩

end BasedPtr

end Umpi
