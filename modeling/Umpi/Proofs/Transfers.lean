/-
Module: Umpi.Proofs.Transfers
Layer: Proofs
Purpose: Specifications of `umpi_copy`, `cookie::write_to_owner` and `cookie::read_from_owner`. The
  first part says, for every behaviour of the system calls, which parts of the state a transfer can
  touch (`Touches`). The second part gives the exact result when the calls move everything: the bytes of
  the source view go to the same number of bytes of the target view, in stream order.
Imports: Umpi.Proofs.Streams
Trusted boundary: none
Main exports: Touches, writeToOwner_touches, readFromOwner_touches, writeToOwner_eq, readFromOwner_eq,
  writeToOwner_refused, readFromOwner_refused, umpiCopy_eq
Open obligations: none
-/
import Umpi.Proofs.Streams

namespace Umpi

open Foundation

theorem sizeT_lt (x : Int) : sizeT x < 2 ^ 64 := by
  unfold sizeT
  omega

theorem sizeT_mul {x y : Nat} (bounded : x * y < 2 ^ 64) : sizeT ((x : Int) * (y : Int)) = x * y := by
  rw [← Int.natCast_mul]
  exact sizeT_natCast bounded

theorem sizeT_mul_add {x y z : Nat} (bounded : x * y + z < 2 ^ 64) :
    sizeT ((x : Int) * (y : Int) + (z : Int)) = x * y + z := by
  rw [← Int.natCast_mul, ← Int.natCast_add]
  exact sizeT_natCast bounded

theorem int32_natCast {n : Nat} (bounded : n < 2 ^ 31) : int32 (n : Int) = n :=
  int32_of_isInt ⟨by omega, by exact_mod_cast bounded⟩

theorem ptrdiff_natCast {n : Nat} (bounded : n < 2 ^ 63) : ptrdiff (n : Int) = n :=
  ptrdiff_of_range (by omega) (by exact_mod_cast bounded)

/-! ### What a transfer can touch -/

/-- The lists of a process. -/
def Process.lists (process : Process) : List Nat × List Nat × List Nat × List Nat :=
  (process.free, process.inbox, process.outbox, process.pending)

/-- The fields of a cookie that no transfer changes. -/
def Cookie.fixed (cookie : Cookie) : Cookie :=
  { cookie with count := 0, err := 0, busy := 0, notified := 0 }

/-- `w'` differs from `w` in memory, in the transfer fields of one cookie, which has been notified once,
    and in wake-up signals. -/
structure Touches (id : Nat) (w w' : World) : Prop where
  size : w'.size = w.size
  next : w'.next = w.next
  slots : w'.slots = w.slots
  ticket : w'.ticket = w.ticket
  lists : ∀ rank, (w'.procs rank).lists = (w.procs rank).lists
  others : ∀ other, other ≠ id → w'.cookies other = w.cookies other
  fixed : (w'.cookies id).fixed = (w.cookies id).fixed
  busy : (w'.cookies id).busy = int16 ((w.cookies id).busy - 1)
  notified : (w'.cookies id).notified = (w.cookies id).notified + 1
  /-- The first error stays. -/
  err : (w.cookies id).err ≠ 0 → (w'.cookies id).err ≠ 0

namespace Touches

variable {id : Nat} {w w' : World}

/-- The fixed fields of every cookie survive a transfer. -/
theorem fixed_all (touches : Touches id w w') (other : Nat) :
    (w'.cookies other).fixed = (w.cookies other).fixed := by
  by_cases same : other = id
  · rw [same]
    exact touches.fixed
  · rw [touches.others other same]

theorem src (touches : Touches id w w') (other : Nat) :
    (w'.cookies other).src = (w.cookies other).src :=
  (congrArg Cookie.src (touches.fixed_all other) :)

theorem tag (touches : Touches id w w') (other : Nat) :
    (w'.cookies other).tag = (w.cookies other).tag :=
  (congrArg Cookie.tag (touches.fixed_all other) :)

theorem owner (touches : Touches id w w') (other : Nat) :
    (w'.cookies other).owner = (w.cookies other).owner :=
  (congrArg Cookie.owner (touches.fixed_all other) :)

theorem buf (touches : Touches id w w') (other : Nat) :
    (w'.cookies other).buf = (w.cookies other).buf :=
  (congrArg Cookie.buf (touches.fixed_all other) :)

theorem iovec (touches : Touches id w w') (other : Nat) :
    (w'.cookies other).iovec = (w.cookies other).iovec :=
  (congrArg Cookie.iovec (touches.fixed_all other) :)

theorem cookieSize (touches : Touches id w w') (other : Nat) :
    (w'.cookies other).size = (w.cookies other).size :=
  (congrArg Cookie.size (touches.fixed_all other) :)

theorem used (touches : Touches id w w') (other : Nat) :
    (w'.cookies other).used = (w.cookies other).used :=
  (congrArg Cookie.used (touches.fixed_all other) :)

theorem num (touches : Touches id w w') (other : Nat) :
    (w'.cookies other).num = (w.cookies other).num :=
  (congrArg Cookie.num (touches.fixed_all other) :)

theorem free (touches : Touches id w w') (rank : Nat) :
    (w'.procs rank).free = (w.procs rank).free :=
  congrArg (fun lists => lists.1) (touches.lists rank)

theorem inbox (touches : Touches id w w') (rank : Nat) :
    (w'.procs rank).inbox = (w.procs rank).inbox :=
  congrArg (fun lists => lists.2.1) (touches.lists rank)

theorem outbox (touches : Touches id w w') (rank : Nat) :
    (w'.procs rank).outbox = (w.procs rank).outbox :=
  congrArg (fun lists => lists.2.2.1) (touches.lists rank)

theorem pending (touches : Touches id w w') (rank : Nat) :
    (w'.procs rank).pending = (w.procs rank).pending :=
  congrArg (fun lists => lists.2.2.2) (touches.lists rank)

end Touches

/-- Notifying after a change of memory and of the cookie's `count_` is all a transfer does. -/
theorem finishTransfer_touches (w : World) (id : Nat) (mem : Memory) (count err moved : Int) :
    Touches id w
      (({ w.setCookie id { w.cookies id with count := count } with mem := mem } :
        World).finishTransfer id err moved).world where
  size := rfl
  next := rfl
  slots := rfl
  ticket := rfl
  lists := by
    intro rank
    simp only [World.finishTransfer, World.notifyDone, World.setProc_procs, World.setCookie_procs]
    by_cases same : rank = (w.cookies id).owner
    · simp [same, Process.lists]
    · simp [same, Process.lists]
  others := by
    intro other different
    simp [World.finishTransfer, different]
  fixed := by simp [World.finishTransfer, Cookie.fixed]
  busy := by simp [World.finishTransfer]
  notified := by simp [World.finishTransfer]
  err := by
    intro failed
    simp [World.finishTransfer, failed]

/-- Notifying after a change of memory only. -/
theorem moved_touches (w : World) (id : Nat) (mem : Memory) (err moved : Int) :
    Touches id w (({ w with mem := mem } : World).finishTransfer id err moved).world := by
  have touches := finishTransfer_touches w id mem (w.cookies id).count err moved
  have unchanged : ({ w.setCookie id { w.cookies id with count := (w.cookies id).count } with
      mem := mem } : World) = { w with mem := mem } := by
    simp [World.setCookie]
  rwa [unchanged] at touches

/-- Refusing a transfer only notifies. -/
theorem refuse_touches (w : World) (id : Nat) (err moved : Int) :
    Touches id w (w.finishTransfer id err moved).world :=
  moved_touches w id w.mem err moved

theorem writeToOwner_touches {vm : ProcessVm} {w : World} {id : Nat} {buf : Loc} {iovec : Iovec}
    {count seek skip : Int} {done : Transferred}
    (transferred : w.writeToOwner vm id buf iovec count seek skip = .ok done) :
    Touches id w done.world := by
  unfold World.writeToOwner at transferred
  simp only at transferred
  split at transferred
  · obtain rfl := Outcome.ok.inj transferred
    exact refuse_touches w id _ _
  · split at transferred
    · cases transferred
    · obtain rfl := Outcome.ok.inj transferred
      exact finishTransfer_touches w id _ _ _ _

/-- A read changes memory and then notifies. -/
theorem readFromOwner_form {vm : ProcessVm} {w : World} {id : Nat} {buf : Loc} {iovec : Iovec}
    {size count seek skip : Int} {done : Transferred}
    (transferred : w.readFromOwner vm id buf iovec size count seek skip = .ok done) :
    ∃ mem err moved, done = ({ w with mem := mem } : World).finishTransfer id err moved := by
  unfold World.readFromOwner at transferred
  simp only at transferred
  generalize (if count ≠ 0 then count
    else int32 (sizeT (((w.cookies id).size - skip) * (w.cookies id).iovec.len) / iovec.len : Nat)) =
      asked at transferred
  split at transferred
  · cases transferred
  · split at transferred
    all_goals obtain rfl := Outcome.ok.inj transferred
    · exact ⟨w.mem, _, _, rfl⟩
    · exact ⟨_, _, _, rfl⟩

/-- A read returns unless it has to divide by zero. -/
theorem readFromOwner_returns (vm : ProcessVm) (w : World) (id : Nat) (buf : Loc) {iovec : Iovec}
    {count : Int} (divisor : ¬ (count = 0 ∧ iovec.len = 0)) (size seek skip : Int) :
    ∃ done, w.readFromOwner vm id buf iovec size count seek skip = .ok done := by
  unfold World.readFromOwner
  simp only
  rw [if_neg divisor]
  generalize (if count ≠ 0 then count
    else int32 (sizeT (((w.cookies id).size - skip) * (w.cookies id).iovec.len) / iovec.len : Nat)) =
      asked
  split <;> exact ⟨_, rfl⟩

theorem readFromOwner_touches {vm : ProcessVm} {w : World} {id : Nat} {buf : Loc} {iovec : Iovec}
    {size count seek skip : Int} {done : Transferred}
    (transferred : w.readFromOwner vm id buf iovec size count seek skip = .ok done) :
    Touches id w done.world := by
  obtain ⟨mem, err, moved, rfl⟩ := readFromOwner_form transferred
  exact moved_touches w id mem err moved

/-! ### Exact results when the system calls move everything -/

section Exact

variable {vm : ProcessVm} {w : World} {id : Nat} {buf : Loc} {iovec : Iovec}

/-- Moving the bytes of whole elements onto the front of a view of at least that many bytes. -/
theorem moveBytes_sideIov {base base' : Loc} {iovec' : Iovec} (wellFormed : iovec.WellFormed)
    (wellFormed' : iovec'.WellFormed) (mem : Memory) (lo : Int) (count : Nat) (lo' hi' : Int)
    (fits : count * iovec.len ≤ (hi' - lo').toNat * iovec'.len) :
    moveBytes mem (sideIov base iovec lo (lo + count) (count * iovec.len))
        (sideIov base' iovec' lo' hi' (count * iovec.len)) (count * iovec.len : Nat) =
      copyAll mem (streamLocs base iovec lo count)
        ((streamLocs base' iovec' lo' (hi' - lo').toNat).take (count * iovec.len)) := by
  rw [moveBytes, Int.toNat_natCast, iovLocs_sideIov wellFormed, take_iovLocs_sideIov wellFormed' _ _ fits]

/-- The same in the other direction. -/
theorem moveBytes_sideIov' {base base' : Loc} {iovec' : Iovec} (wellFormed : iovec.WellFormed)
    (wellFormed' : iovec'.WellFormed) (mem : Memory) (lo : Int) (count : Nat) (lo' hi' : Int)
    (fits : count * iovec.len ≤ (hi' - lo').toNat * iovec'.len) :
    moveBytes mem (sideIov base' iovec' lo' hi' (count * iovec.len))
        (sideIov base iovec lo (lo + count) (count * iovec.len)) (count * iovec.len : Nat) =
      copyAll mem ((streamLocs base' iovec' lo' (hi' - lo').toNat).take (count * iovec.len))
        (streamLocs base iovec lo count) := by
  rw [moveBytes, Int.toNat_natCast, iovLocs_sideIov wellFormed, take_iovLocs_sideIov wellFormed' _ _ fits]

/-- Between whole elements and a side with room for them, the call returns their byte count. -/
theorem CopiesAll.result (copies : CopiesAll vm) {base base' : Loc} {iovec' : Iovec}
    (wellFormed : iovec.WellFormed) (wellFormed' : iovec'.WellFormed) (lo : Int) (count : Nat)
    (lo' hi' : Int) (fits : count * iovec.len ≤ (hi' - lo').toNat * iovec'.len) :
    vm (sideIov base iovec lo (lo + count) (count * iovec.len))
      (sideIov base' iovec' lo' hi' (count * iovec.len)) = (count * iovec.len : Nat) := by
  rw [copies, iovLen_sideIov wellFormed, min_eq_left (le_iovLen_sideIov wellFormed' _ _ fits)]

variable (buf) in
/-- `write_to_owner` of `count` elements that fit behind element `seek` of the cookie's buffer, whatever its
    `count_` is. -/
theorem writeToOwner_moves (copies : CopiesAll vm) (wellFormed : iovec.WellFormed) {base' : Loc}
    {iovec' : Iovec} (wellFormed' : iovec'.WellFormed) (lenPos : 0 < iovec'.len)
    {count seek size : Nat} {offset : Int} (offsetEq : offset = seek) (skip : Int)
    (bufEq : (w.cookies id).buf = base') (iovecEq : (w.cookies id).iovec = iovec')
    (sizeEq : (w.cookies id).size = size) (roomBound : size * iovec'.len < 2 ^ 64)
    (bytesBound : count * iovec.len < 2 ^ 63)
    (fits : seek * iovec'.len + count * iovec.len ≤ size * iovec'.len) :
    w.writeToOwner vm id buf iovec count offset skip =
      .ok (({ w.setCookie id
          { w.cookies id with
            count :=
              if sizeT ((w.cookies id).count * iovec'.len) < count * iovec.len then (w.cookies id).count
              else int32 (count * iovec.len / iovec'.len : Nat) } with
          mem := copyAll w.mem (streamLocs buf iovec skip count)
            ((streamLocs base' iovec' seek (size - seek)).take (count * iovec.len)) } :
        World).finishTransfer id mpiSuccess (count * iovec.len : Nat)) := by
  subst bufEq iovecEq offsetEq
  have total : sizeT ((count : Int) * (iovec.len : Int)) = count * iovec.len := sizeT_mul (by omega)
  have room : sizeT ((w.cookies id).size * ((w.cookies id).iovec.len : Int)) =
      size * (w.cookies id).iovec.len := by
    rw [sizeEq]
    exact sizeT_mul roomBound
  have needed : sizeT ((seek : Int) * ((w.cookies id).iovec.len : Int) + (count * iovec.len : Nat)) =
      seek * (w.cookies id).iovec.len + count * iovec.len := sizeT_mul_add (by omega)
  have seekLe : seek ≤ size := Nat.le_of_mul_le_mul_right (by omega) lenPos
  have elements : ((size : Int) - (seek : Int)).toNat = size - seek := by omega
  have behind : count * iovec.len ≤
      ((size : Int) - (seek : Int)).toNat * (w.cookies id).iovec.len := by
    rw [elements, Nat.sub_mul]
    omega
  have moved : vm (sideIov buf iovec skip (skip + count) (count * iovec.len))
      (sideIov (w.cookies id).buf (w.cookies id).iovec seek (w.cookies id).size
        (count * iovec.len)) = (count * iovec.len : Nat) := by
    rw [sizeEq]
    exact copies.result wellFormed wellFormed' _ _ _ _ behind
  have bytes : moveBytes w.mem (sideIov buf iovec skip (skip + count) (count * iovec.len))
      (sideIov (w.cookies id).buf (w.cookies id).iovec seek (w.cookies id).size
        (count * iovec.len)) (count * iovec.len : Nat) =
      copyAll w.mem (streamLocs buf iovec skip count)
        ((streamLocs (w.cookies id).buf (w.cookies id).iovec seek (size - seek)).take
          (count * iovec.len)) := by
    rw [sizeEq, moveBytes_sideIov wellFormed wellFormed' _ _ _ _ _ behind, elements]
  unfold World.writeToOwner
  simp only [total, room, needed]
  have divisor : ¬ (¬ sizeT ((w.cookies id).count * ((w.cookies id).iovec.len : Int)) < count * iovec.len ∧
      (w.cookies id).iovec.len = 0) := fun zero => Nat.ne_of_gt lenPos zero.2
  have whole : ¬ ptrdiff (count * iovec.len : Nat) ≠ (count * iovec.len : Nat) := by
    rw [ptrdiff_natCast bytesBound]
    simp
  rw [if_neg (Nat.not_lt.mpr fits), if_neg divisor, moved, if_neg whole]
  simp only [World.setCookie_mem, bytes]

variable (buf) in
/-- `write_to_owner` of `count` elements that fit behind element `seek` of the cookie's buffer. -/
theorem writeToOwner_eq (copies : CopiesAll vm) (wellFormed : iovec.WellFormed) {base' : Loc}
    {iovec' : Iovec} (wellFormed' : iovec'.WellFormed) (lenPos : 0 < iovec'.len)
    {count seek size held : Nat} {offset : Int} (offsetEq : offset = seek) (skip : Int)
    (bufEq : (w.cookies id).buf = base') (iovecEq : (w.cookies id).iovec = iovec')
    (sizeEq : (w.cookies id).size = size) (countEq : (w.cookies id).count = held)
    (sizeBound : size < 2 ^ 31) (bytesBound : size * iovec'.len < 2 ^ 63)
    (heldBound : held * iovec'.len < 2 ^ 63)
    (fits : seek * iovec'.len + count * iovec.len ≤ size * iovec'.len) :
    w.writeToOwner vm id buf iovec count offset skip =
      .ok (({ w.setCookie id
          { w.cookies id with
            count := if held * iovec'.len < count * iovec.len then (held : Int)
              else (count * iovec.len / iovec'.len : Nat) } with
          mem := copyAll w.mem (streamLocs buf iovec skip count)
            ((streamLocs base' iovec' seek (size - seek)).take (count * iovec.len)) } :
        World).finishTransfer id mpiSuccess (count * iovec.len : Nat)) := by
  have had : sizeT ((w.cookies id).count * (iovec'.len : Int)) = held * iovec'.len := by
    rw [countEq]
    exact sizeT_mul (by omega)
  have quotient : count * iovec.len / iovec'.len ≤ size :=
    Nat.div_le_of_le_mul (by rw [Nat.mul_comm _ size]; omega)
  have newCount : (if sizeT ((w.cookies id).count * (iovec'.len : Int)) < count * iovec.len
      then (w.cookies id).count else int32 (count * iovec.len / iovec'.len : Nat)) =
      if held * iovec'.len < count * iovec.len then (held : Int)
      else (count * iovec.len / iovec'.len : Nat) := by
    rw [had, countEq, int32_natCast (by omega)]
  rw [writeToOwner_moves buf copies wellFormed wellFormed' lenPos offsetEq skip bufEq iovecEq sizeEq
    (by omega) (by omega) fits, newCount]

variable (vm buf) in
/-- `write_to_owner` of more bytes than there is room for is refused. -/
theorem writeToOwner_refused {iovec' : Iovec} {count seek size : Nat} {offset : Int}
    (offsetEq : offset = seek) (skip : Int) (iovecEq : (w.cookies id).iovec = iovec')
    (sizeEq : (w.cookies id).size = size) (countBound : count * iovec.len < 2 ^ 63)
    (bytesBound : size * iovec'.len < 2 ^ 63) (seekBound : seek * iovec'.len < 2 ^ 63)
    (exceeds : size * iovec'.len < seek * iovec'.len + count * iovec.len) :
    w.writeToOwner vm id buf iovec count offset skip = .ok (w.finishTransfer id mpiFail 0) := by
  subst iovecEq offsetEq
  have total : sizeT ((count : Int) * (iovec.len : Int)) = count * iovec.len := sizeT_mul (by omega)
  have room : sizeT ((w.cookies id).size * ((w.cookies id).iovec.len : Int)) =
      size * (w.cookies id).iovec.len := by
    rw [sizeEq]
    exact sizeT_mul (by omega)
  have needed : sizeT ((seek : Int) * ((w.cookies id).iovec.len : Int) + (count * iovec.len : Nat)) =
      seek * (w.cookies id).iovec.len + count * iovec.len := sizeT_mul_add (by omega)
  unfold World.writeToOwner
  simp only [total, room, needed]
  rw [if_pos exceeds]

/-- The number of elements `read_from_owner` asks for: `count`, or as many as the cookie's data fills
    when `count` is 0. -/
def requested (count size skip lenOwner len : Nat) : Nat :=
  if count ≠ 0 then count else (size - skip) * lenOwner / len

/-- The count `read_from_owner` works with, when nothing wraps. -/
private theorem effectiveCount (count len : Nat) {size skip lenOwner : Nat}
    (skipLe : skip ≤ size) (bytesBound : size * lenOwner < 2 ^ 64)
    (countBound : requested count size skip lenOwner len < 2 ^ 31) :
    (if (count : Int) ≠ 0 then (count : Int)
      else int32 (sizeT (((size : Int) - (skip : Int)) * (lenOwner : Int)) / len : Nat)) =
      requested count size skip lenOwner len := by
  unfold requested at countBound ⊢
  by_cases zero : count = 0
  · rw [if_neg (by simpa using zero)] at countBound ⊢
    have remaining : (size : Int) - (skip : Int) = (size - skip : Nat) := by omega
    have less : (size - skip) * lenOwner ≤ size * lenOwner :=
      Nat.mul_le_mul_right _ (Nat.sub_le _ _)
    rw [if_neg (by simpa using zero), remaining, sizeT_mul (by omega), int32_natCast countBound]
  · rw [if_pos (by simpa using zero), if_pos (by simpa using zero)]

variable (buf) in
/-- `read_from_owner` of elements that the cookie has behind element `skip` and that fit behind element
    `seek` of the caller's buffer. -/
theorem readFromOwner_eq (copies : CopiesAll vm) (wellFormed : iovec.WellFormed) {base' : Loc}
    {iovec' : Iovec} (wellFormed' : iovec'.WellFormed) (lenPos : 0 < iovec.len)
    (lenPos' : 0 < iovec'.len) {count seek skip size owned : Nat} {amount offset offset' : Int}
    (amountEq : amount = count) (offsetEq : offset = seek) (offsetEq' : offset' = skip)
    (bufEq : (w.cookies id).buf = base') (iovecEq : (w.cookies id).iovec = iovec')
    (sizeEq : (w.cookies id).size = owned) (sizeBound : size < 2 ^ 31)
    (ownedBytes : owned * iovec'.len < 2 ^ 64) (sizeBytes : size * iovec.len < 2 ^ 64)
    (bytesBound : requested count owned skip iovec'.len iovec.len * iovec.len < 2 ^ 63)
    (has : skip * iovec'.len + requested count owned skip iovec'.len iovec.len * iovec.len ≤
      owned * iovec'.len)
    (fits : seek * iovec.len + requested count owned skip iovec'.len iovec.len * iovec.len ≤
      size * iovec.len) :
    w.readFromOwner vm id buf iovec size amount offset offset' =
      .ok (({ w with
          mem := copyAll w.mem
            ((streamLocs base' iovec' skip (owned - skip)).take
              (requested count owned skip iovec'.len iovec.len * iovec.len))
            (streamLocs buf iovec seek (requested count owned skip iovec'.len iovec.len)) } :
          World).finishTransfer id mpiSuccess
        (requested count owned skip iovec'.len iovec.len * iovec.len : Nat)) := by
  subst bufEq iovecEq amountEq offsetEq offsetEq'
  have skipLe : skip ≤ owned := Nat.le_of_mul_le_mul_right (by omega) lenPos'
  have few : requested count owned skip (w.cookies id).iovec.len iovec.len ≤ size :=
    Nat.le_of_mul_le_mul_right (by omega) lenPos
  have count' := effectiveCount count iovec.len skipLe ownedBytes (by omega)
  generalize requested count owned skip (w.cookies id).iovec.len iovec.len = n at *
  have total : sizeT ((n : Int) * (iovec.len : Int)) = n * iovec.len := sizeT_mul (by omega)
  have room : sizeT ((w.cookies id).size * ((w.cookies id).iovec.len : Int)) =
      owned * (w.cookies id).iovec.len := by
    rw [sizeEq]
    exact sizeT_mul (by omega)
  have space : sizeT ((size : Int) * (iovec.len : Int)) = size * iovec.len := sizeT_mul (by omega)
  have needed : sizeT ((skip : Int) * ((w.cookies id).iovec.len : Int) + (n * iovec.len : Nat)) =
      skip * (w.cookies id).iovec.len + n * iovec.len := sizeT_mul_add (by omega)
  have needed' : sizeT ((seek : Int) * (iovec.len : Int) + (n * iovec.len : Nat)) =
      seek * iovec.len + n * iovec.len := sizeT_mul_add (by omega)
  have elements : ((owned : Int) - (skip : Int)).toNat = owned - skip := by omega
  have behind : n * iovec.len ≤
      ((owned : Int) - (skip : Int)).toNat * (w.cookies id).iovec.len := by
    rw [elements, Nat.sub_mul]
    omega
  unfold World.readFromOwner
  simp only [sizeEq] at room ⊢
  simp only [count', total, room, space, needed, needed']
  rw [if_neg (by omega), if_neg (by omega), copies.result wellFormed wellFormed' _ _ _ _ behind,
    ptrdiff_natCast (by omega), if_neg (by simp), moveBytes_sideIov' wellFormed wellFormed' _ _ _ _ _ behind,
    elements]

/-- `read_from_owner` of more elements than fit into the caller's buffer is refused. -/
theorem readFromOwner_refused {iovec' : Iovec} (lenPos : 0 < iovec.len)
    {count seek skip size owned : Nat} {amount offset offset' : Int} (amountEq : amount = count)
    (offsetEq : offset = seek) (offsetEq' : offset' = skip) (iovecEq : (w.cookies id).iovec = iovec')
    (sizeEq : (w.cookies id).size = owned) (skipLe : skip ≤ owned)
    (ownedBytes : owned * iovec'.len < 2 ^ 63) (sizeBytes : size * iovec.len < 2 ^ 63)
    (seekBytes : seek * iovec.len < 2 ^ 63)
    (countBound : requested count owned skip iovec'.len iovec.len < 2 ^ 31)
    (countBytes : requested count owned skip iovec'.len iovec.len * iovec.len < 2 ^ 63)
    (exceeds : size * iovec.len < seek * iovec.len +
      requested count owned skip iovec'.len iovec.len * iovec.len) :
    w.readFromOwner vm id buf iovec size amount offset offset' =
      .ok (w.finishTransfer id mpiFail 0) := by
  subst iovecEq amountEq offsetEq offsetEq'
  have count' := effectiveCount count iovec.len skipLe (by omega) countBound
  generalize requested count owned skip (w.cookies id).iovec.len iovec.len = n at *
  have total : sizeT ((n : Int) * (iovec.len : Int)) = n * iovec.len := sizeT_mul (by omega)
  have space : sizeT ((size : Int) * (iovec.len : Int)) = size * iovec.len := sizeT_mul (by omega)
  have needed' : sizeT ((seek : Int) * (iovec.len : Int) + (n * iovec.len : Nat)) =
      seek * iovec.len + n * iovec.len := sizeT_mul_add (by omega)
  unfold World.readFromOwner
  simp only [sizeEq, count', total, space, needed']
  rw [if_neg (by omega), if_pos (Or.inr exceeds)]

/-- `umpi_copy` of elements that fit into a buffer of `room` elements, of which the first is written at
    element `seek`. -/
theorem umpiCopy_eq (copies : CopiesAll vm) (wellFormed : iovec.WellFormed) {iovec' : Iovec}
    (wellFormed' : iovec'.WellFormed) (mem : Memory) {base : Loc} {count room : Nat} (skip seek : Int)
    (roomBytes : room * iovec'.len < 2 ^ 64) (bytesBound : count * iovec.len < 2 ^ 63)
    (fits : count * iovec.len ≤ room * iovec'.len) :
    umpiCopy vm mem buf iovec count skip base iovec' room seek =
      (copyAll mem (streamLocs buf iovec skip count)
        ((streamLocs base iovec' seek room).take (count * iovec.len)), count * iovec.len) := by
  have total : sizeT ((count : Int) * (iovec.len : Int)) = count * iovec.len := sizeT_mul (by omega)
  have space : sizeT ((room : Int) * (iovec'.len : Int)) = room * iovec'.len := sizeT_mul (by omega)
  have elements : (seek + room - seek).toNat = room := by omega
  have behind : count * iovec.len ≤ (seek + room - seek).toNat * iovec'.len := by rwa [elements]
  unfold umpiCopy
  simp only [total, space]
  rw [if_neg (by omega)]
  split
  case isTrue contiguous =>
    -- both types are basic, so the two single segments are the sides of a general transfer
    obtain ⟨contiguous, contiguous'⟩ := Bool.and_eq_true_iff.mp contiguous
    have here : sideIov buf iovec skip (skip + count) (count * iovec.len) =
        [{ base := buf.shift (skip * iovec.len), len := count * iovec.len }] := by
      rw [Iovec.contiguous_eq_not_scattered, Bool.not_eq_true'] at contiguous
      simp [sideIov, contiguous]
    have remote : sideIov base iovec' seek (seek + room) (count * iovec.len) =
        [{ base := base.shift (seek * iovec'.len), len := count * iovec.len }] := by
      rw [Iovec.contiguous_eq_not_scattered, Bool.not_eq_true'] at contiguous'
      simp [sideIov, contiguous']
    rw [← here, ← remote, moveBytes_sideIov wellFormed wellFormed' _ _ _ _ _ behind, elements]
  case isFalse =>
    rw [copies.result wellFormed wellFormed' _ _ _ _ behind, ptrdiff_natCast (by omega), if_pos rfl,
      moveBytes_sideIov wellFormed wellFormed' _ _ _ _ _ behind, elements]

end Exact

end Umpi
