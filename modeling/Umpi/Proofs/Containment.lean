/-
Module: Umpi.Proofs.Containment
Layer: Proofs
Purpose: Where the contributions to a gather land when their sizes do not agree with what the root has asked
  for. A transfer checks only that it ends within the whole receive buffer, so a contribution of a late rank
  that is too long spills over the next block; a short one shrinks `count_`, from which the ranks after it
  compute where they write; and the root writes those that came early at the wrong element, or takes all of
  one for which it has asked for nothing. Every other step keeps to the block of its rank.
Imports: Umpi.Proofs.Gatherv
Trusted boundary: none
Main exports: Lands, KeepsToBlocks, RootedPlan.Encloses, RootedPlan.Underway, GatherSides, GathervSides,
  GatherEarly, GatherWithin, GathervEarly, GathervWithin, contributions_keep_to_blocks, contributions_spill
Open obligations: none
-/
import Umpi.Proofs.Gatherv

namespace Umpi

open Foundation Sys

/-! ### What a transfer changes -/

/-- A part from the front of the source has been copied to the front of the target, and nothing else has
    changed. -/
def Lands (copy : Copy Loc) (mem mem' : Memory) : Prop :=
  ∃ m, mem' = copyAll mem (copy.source.take m) (copy.target.take m)

/-- The size check of `write_to_owner`. -/
def Cookie.Refuses (cookie : Cookie) (seek : Int) (bytes : Nat) : Prop :=
  sizeT (cookie.size * cookie.iovec.len) < sizeT (seek * cookie.iovec.len + bytes)

instance (cookie : Cookie) (seek : Int) (bytes : Nat) : Decidable (cookie.Refuses seek bytes) :=
  inferInstanceAs (Decidable (_ < _))

namespace Lands

variable {copy : Copy Loc} {mem mem' : Memory}

/-- Nothing at all is a part of the source. -/
theorem nothing (same : mem' = mem) : Lands copy mem mem' := ⟨0, by simp [same]⟩

/-- A system call whose segment lists begin like the source and the target, one of the two being no longer than
    what they have in common, lands whatever it returns. -/
theorem of_moveBytes {source target : List Iov} {moved : Int} {bound : Nat}
    (short : (iovLocs source).length ≤ bound ∨ (iovLocs target).length ≤ bound)
    (begins : (iovLocs source).take bound = copy.source.take bound)
    (ends : (iovLocs target).take bound = copy.target.take bound) :
    Lands copy mem (moveBytes mem source target moved) := by
  refine ⟨min moved.toNat bound, ?_⟩
  rw [moveBytes, copyAll_take_min _ _ _ _ short, ← List.take_take, ← List.take_take, ← List.take_take,
    ← List.take_take, begins, ends]

end Lands

/-! ### How many elements are asked for -/

/-- The number of elements of the type that `read_from_owner` reads out of `bytes` bytes. A count of 0 stands for as
    many as there are, and their number is kept in an `int`. -/
def Datatype.asked (datatype : Datatype) (count bytes : Nat) : Int :=
  if count ≠ 0 then count else int32 (bytes / datatype.len : Nat)

section Asked

variable {datatype : Datatype} {count bytes : Nat}

/-- As an `int`, a natural number becomes no larger, and no further from 0. -/
theorem int32_natCast_le (q : Nat) : (int32 q).toNat ≤ q ∧ (-int32 q).toNat ≤ q := by
  unfold int32
  rw [Int.bmod_def]
  split <;> omega

/-- What is asked for is no more than the count says, or than there is. -/
theorem Datatype.asked_le (datatype : Datatype) (count bytes : Nat) :
    (datatype.asked count bytes).toNat * datatype.len ≤ max (count * datatype.len) bytes := by
  unfold Datatype.asked
  split
  case isTrue => exact le_max_left _ _
  case isFalse =>
    have quotient := (int32_natCast_le (bytes / datatype.len)).1
    exact ((Nat.mul_le_mul_right _ quotient).trans (Nat.div_mul_le_self bytes _)).trans (le_max_right _ _)

/-- If the number is negative, as a size it is more than there is. -/
theorem Datatype.asked_negative (range : bytes < 2 ^ 63) (negative : datatype.asked count bytes < 0) :
    bytes < sizeT (datatype.asked count bytes * datatype.len) := by
  unfold Datatype.asked at *
  split at negative
  case isTrue => omega
  case isFalse none =>
    rw [if_neg none]
    have quotient := (int32_natCast_le (bytes / datatype.len)).2
    obtain ⟨a, exact⟩ : ∃ a : Nat, int32 (bytes / datatype.len : Nat) = -(a : Int) :=
      ⟨(-int32 (bytes / datatype.len : Nat)).toNat, by omega⟩
    rw [exact] at negative quotient ⊢
    have product : a * datatype.len ≤ bytes :=
      (Nat.mul_le_mul_right _ (by simpa using quotient)).trans (Nat.div_mul_le_self bytes _)
    have pos : 0 < a * datatype.len := Nat.mul_pos (by omega) datatype.lenPos
    have value : -(a : Int) * (datatype.len : Int) = -((a * datatype.len : Nat) : Int) := by
      push_cast
      ring
    rw [value]
    unfold sizeT
    omega

end Asked

section Transfers

variable {vm : ProcessVm} {w : World} {id : Nat} {base base' : Loc} {datatype datatype' : Datatype}
  {done : Transferred}

/-- `write_to_owner` keeps to a block, if there is nothing to write, if the check refuses it, or if it starts where
    the block does and has no more bytes than it. -/
theorem writeToOwner_lands {count size first blocks : Nat} {seek : Int}
    (bufEq : (w.cookies id).buf = base') (iovecEq : (w.cookies id).iovec = datatype'.iovec)
    (sizeEq : (w.cookies id).size = size) (countBytes : count * datatype.len < 2 ^ 63)
    (sizeBytes : size * datatype'.len < 2 ^ 63) (firstBytes : first * datatype'.len < 2 ^ 63)
    (within : count * datatype.len = 0 ∨ (w.cookies id).Refuses seek (count * datatype.len) ∨
      seek = first ∧ count * datatype.len ≤ blocks * datatype'.len)
    (written : w.writeToOwner vm id base datatype.iovec count seek 0 = .ok done) :
    Lands
      { source := streamLocs base datatype.iovec 0 count
        target := streamLocs base' datatype'.iovec first blocks } w.mem done.world.mem := by
  have total : sizeT ((count : Int) * (datatype.iovec.len : Int)) = count * datatype.len :=
    sizeT_mul (countBytes.trans (by norm_num))
  have lengths := length_iovLocs (sideIov base datatype.iovec 0 (0 + count) (count * datatype.len))
  have counted : iovLen (sideIov base datatype.iovec 0 (0 + count) (count * datatype.len)) =
      count * datatype.len := iovLen_sideIov datatype.wellFormed 0 count
  rw [counted] at lengths
  unfold World.writeToOwner at written
  simp only [total] at written
  split at written
  case isTrue =>
    obtain rfl := Outcome.ok.inj written
    exact .nothing rfl
  case isFalse accepted =>
    split at written
    · cases written
    obtain rfl := Outcome.ok.inj written
    rcases within with empty | refused | ⟨rfl, fits⟩
    · refine Lands.of_moveBytes (Or.inl (lengths.le.trans empty.le)) rfl rfl
    · exact absurd refused accepted
    · rw [iovecEq, sizeEq] at accepted
      have room : sizeT ((size : Int) * (datatype'.iovec.len : Int)) = size * datatype'.len :=
        sizeT_mul (sizeBytes.trans (by norm_num))
      have needed : sizeT ((first : Int) * (datatype'.iovec.len : Int) + (count * datatype.len : Nat)) =
          first * datatype'.len + count * datatype.len :=
        sizeT_mul_add (by show first * datatype'.len + count * datatype.len < 2 ^ 64; omega)
      rw [room, needed] at accepted
      have elements : ((size : Int) - (first : Int)).toNat = size - first := by omega
      have behind : count * datatype.len ≤ ((size : Int) - (first : Int)).toNat * datatype'.iovec.len := by
        rw [elements, Nat.sub_mul]
        show count * datatype.len ≤ size * datatype'.len - first * datatype'.len
        omega
      refine Lands.of_moveBytes (Or.inl lengths.le) ?_ ?_
      · exact (iovLocs_sideIov datatype.wellFormed 0 count).trans
          (List.take_of_length_le (length_streamLocs _ datatype.wellFormed _ _).le).symm
      · simp only [World.setCookie_cookies] at *
        rw [bufEq, iovecEq, sizeEq, take_iovLocs_sideIov datatype'.wellFormed _ _ behind, elements]
        exact take_streamLocs_eq datatype'.wellFormed _ (by rw [← elements]; exact behind) fits

/-- `read_from_owner` keeps to a block, if it asks for nothing, if one of its checks refuses it, or if it starts where
    the block does and asks for no more elements than it has. -/
theorem readFromOwner_lands {size first blocks room start amount : Nat}
    (bufEq : (w.cookies id).buf = base') (iovecEq : (w.cookies id).iovec = datatype'.iovec)
    (sizeEq : (w.cookies id).size = size) (sizeBytes : size * datatype'.len < 2 ^ 63)
    (amountBytes : amount * datatype.len < 2 ^ 63) (roomBytes : room * datatype.len < 2 ^ 63)
    (startBytes : start * datatype.len < 2 ^ 63)
    (within : datatype.asked amount (size * datatype'.len) ≤ 0 ∨
      size * datatype'.len < (datatype.asked amount (size * datatype'.len)).toNat * datatype.len ∨
      room < start + (datatype.asked amount (size * datatype'.len)).toNat ∨
      start = first ∧ datatype.asked amount (size * datatype'.len) ≤ blocks)
    (read : w.readFromOwner vm id base datatype.iovec room amount start 0 = .ok done) :
    Lands
      { source := streamLocs base' datatype'.iovec 0 size
        target := streamLocs base datatype.iovec first blocks } w.mem done.world.mem := by
  have owned : sizeT ((size : Int) * (datatype'.iovec.len : Int)) = size * datatype'.len :=
    sizeT_mul (sizeBytes.trans (by norm_num))
  have divisor : ¬ ((amount : Int) = 0 ∧ datatype.iovec.len = 0) := fun zero =>
    Nat.ne_of_gt datatype.lenPos zero.2
  have asks : (if (amount : Int) ≠ 0 then (amount : Int)
      else int32 (sizeT (((size : Int) - 0) * (datatype'.iovec.len : Int)) / datatype.iovec.len : Nat)) =
      datatype.asked amount (size * datatype'.len) := by
    rw [Int.sub_zero, owned, Datatype.asked]
    simp only [ne_eq, Nat.cast_eq_zero]
    rfl
  have atMost := datatype.asked_le amount (size * datatype'.len)
  unfold World.readFromOwner at read
  simp only [if_neg divisor, iovecEq, sizeEq, asks] at read
  generalize askedEq : datatype.asked amount (size * datatype'.len) = asked at *
  split at read
  case isTrue =>
    obtain rfl := Outcome.ok.inj read
    exact .nothing rfl
  case isFalse accepted =>
    obtain ⟨enough, fits⟩ := not_or.mp accepted
    rw [owned, Int.zero_mul, Int.zero_add, sizeT_natCast (sizeT_lt _)] at enough
    obtain ⟨a, rfl⟩ : ∃ a : Nat, asked = a := Int.eq_ofNat_of_zero_le (by
      by_contra below
      rw [← askedEq] at enough below
      exact enough (Datatype.asked_negative sizeBytes (by omega)))
    have asking : a * datatype.len < 2 ^ 63 := atMost.trans_lt (max_lt amountBytes sizeBytes)
    have total : sizeT ((a : Int) * (datatype.iovec.len : Int)) = a * datatype.len :=
      sizeT_mul (asking.trans (by norm_num))
    have space : sizeT ((room : Int) * (datatype.iovec.len : Int)) = room * datatype.len :=
      sizeT_mul (roomBytes.trans (by norm_num))
    have needed : sizeT ((start : Int) * (datatype.iovec.len : Int) + (a * datatype.len : Nat)) =
        start * datatype.len + a * datatype.len :=
      sizeT_mul_add (by show start * datatype.len + a * datatype.len < 2 ^ 64; omega)
    rw [total] at enough
    rw [total, space, needed, ← Nat.add_mul] at fits
    simp only [total] at read
    obtain rfl := Outcome.ok.inj read
    have behind : a * datatype.len ≤ ((size : Int) - 0).toNat * datatype'.iovec.len := by
      rw [Int.sub_zero, Int.toNat_natCast]
      exact Nat.le_of_not_lt enough
    have length : (iovLocs (sideIov base datatype.iovec start (start + a) (a * datatype.len))).length =
        a * datatype.len := (length_iovLocs _).trans (iovLen_sideIov datatype.wellFormed start a)
    refine Lands.of_moveBytes (Or.inr length.le) ?_ ?_
    · rw [bufEq, take_iovLocs_sideIov datatype'.wellFormed _ _ behind, Int.sub_zero, Int.toNat_natCast]
    · rcases within with empty | short | refused | ⟨rfl, few⟩
      · obtain rfl : a = 0 := by omega
        simp
      · exact absurd short enough
      · exact absurd (Nat.mul_lt_mul_of_pos_right refused datatype.lenPos) fits
      · refine (iovLocs_sideIov datatype.wellFormed start a).trans ?_
        exact (take_streamLocs datatype.wellFormed start (by omega)).symm

/-- `umpi_copy` of a block onto another. -/
theorem copy_lands {count count' : Nat} {amount amount' : Int} (amountEq : amount = count)
    (amountEq' : amount' = count') (skip seek : Int) (agree : count * datatype.len = count' * datatype'.len)
    (bytesRange : count' * datatype'.len < 2 ^ 63) :
    Lands
      { source := streamLocs base datatype.iovec skip count
        target := streamLocs base' datatype'.iovec seek count' } w.mem
      (w.copy vm base datatype.iovec amount skip base' datatype'.iovec amount' seek).mem := by
  subst amountEq amountEq'
  have total : sizeT ((count : Int) * (datatype.iovec.len : Int)) = count * datatype.len :=
    sizeT_mul (by show count * datatype.len < 2 ^ 64; omega)
  have space : sizeT ((count' : Int) * (datatype'.iovec.len : Int)) = count' * datatype'.len :=
    sizeT_mul (by show count' * datatype'.len < 2 ^ 64; omega)
  have lands : ∀ moved : Int, Lands
      { source := streamLocs base datatype.iovec skip count
        target := streamLocs base' datatype'.iovec seek count' } w.mem
      (moveBytes w.mem (sideIov base datatype.iovec skip (skip + count) (count * datatype.len))
        (sideIov base' datatype'.iovec seek (seek + count') (count * datatype.len)) moved) := by
    intro moved
    have lengths := length_iovLocs (sideIov base datatype.iovec skip (skip + count) (count * datatype.len))
    have counted : iovLen (sideIov base datatype.iovec skip (skip + count) (count * datatype.len)) =
        count * datatype.len := iovLen_sideIov datatype.wellFormed skip count
    refine Lands.of_moveBytes (Or.inl (lengths.trans counted).le) ?_ ?_
    · exact (iovLocs_sideIov datatype.wellFormed skip count).trans
        (List.take_of_length_le (length_streamLocs _ datatype.wellFormed _ _).le).symm
    · rw [agree]
      exact (iovLocs_sideIov datatype'.wellFormed seek count').trans
        (List.take_of_length_le (length_streamLocs _ datatype'.wellFormed _ _).le).symm
  unfold World.copy umpiCopy
  simp only [total, space]
  rw [if_neg (by omega)]
  split
  case isTrue contiguous =>
    -- Both types are basic, so the two single segments are the sides of a general transfer.
    obtain ⟨contiguous, contiguous'⟩ := Bool.and_eq_true_iff.mp contiguous
    have here : sideIov base datatype.iovec skip (skip + count) (count * datatype.len) =
        [{ base := base.shift (skip * datatype.iovec.len), len := count * datatype.len }] := by
      rw [Iovec.contiguous_eq_not_scattered, Bool.not_eq_true'] at contiguous
      simp [sideIov, contiguous]
    have remote : sideIov base' datatype'.iovec seek (seek + count') (count * datatype.len) =
        [{ base := base'.shift (seek * datatype'.iovec.len), len := count * datatype.len }] := by
      rw [Iovec.contiguous_eq_not_scattered, Bool.not_eq_true'] at contiguous'
      simp [sideIov, contiguous']
    rw [← here, ← remote]
    exact lands _
  case isFalse => exact lands _

end Transfers

/-! ### Runs in which transfers may be refused -/

/-- The state in which every rank still has the actions of `left` to do. -/
def Sys.withLeft (s : Sys) (left : Nat → List Action) : Sys :=
  { s with ranks := fun rank => { s.ranks rank with cont := left rank } }

/-- The step moves the contribution of `rank` to `root`: the rank's own transfer, one the root makes through the
    rank's cookie, or the copy of the root's own block. -/
def Sys.MovesFor (s : Sys) (root : Nat) (label : Label) (rank : Nat) : Prop :=
  if rank = root then label = .call root
  else label = .act rank ∨ label = .act root ∧
    ∃ id, (s.ranks root).cont.head?.bind Action.transfer = some id ∧ (s.world.cookies id).src = rank

/-- A step leaves memory alone, or it lands a part of a rank's contribution at the start of the rank's block. -/
def KeepsToBlocks (copy : Nat → Copy Loc) (n root : Nat) (label : Label) (s s' : Sys) : Prop :=
  s'.world.mem = s.world.mem ∨
    ∃ rank < n, s.MovesFor root label rank ∧ Lands (copy rank) s.world.mem s'.world.mem

/-- The calls and transfers of a plan keep to its copies: those of the root for the ranks that `early` allows to join
    before it, and those of the other ranks under the condition `within` on the state before them. -/
structure RootedPlan.Encloses (plan : RootedPlan) (vm : ProcessVm) (calls : Nat → Call) (n root turn : Nat)
    (early : Nat → Prop) (within : World → Nat → Nat → Prop) : Prop where
  pulled : ∀ rank id, (plan.pull rank id).transfer = some id
  pushed : ∀ rank id, (plan.push rank id).transfer = some id
  pull : ∀ rank < n, rank ≠ root → ∀ (w : World) (id : Nat) (done : Transferred),
    (w.cookies id).buf = (plan.offer root).buf → (w.cookies id).iovec = (plan.offer root).iovec →
    (w.cookies id).size = (plan.offer root).size → plan.agreed (w.slots turn).displs → within w rank id →
    (plan.pull rank id).exec vm w rank = .ok done → Lands (plan.copy rank) w.mem done.world.mem
  push : ∀ rank < n, rank ≠ root → early rank → ∀ (w : World) (id : Nat) (done : Transferred),
    (w.cookies id).buf = (plan.offer rank).buf → (w.cookies id).iovec = (plan.offer rank).iovec →
    (w.cookies id).size = (plan.offer rank).size →
    (plan.push rank id).exec vm w root = .ok done → Lands (plan.copy rank) w.mem done.world.mem
  member : ∀ (past : List Nat) (w : World) (self : Nat) (made : Nat → Nat), self ≠ root →
    Arriving (.rooted root) n past w self made → w.turnOf self = turn →
    ((calls self).enter vm w self).Yields fun result => ∃ made',
      Entered (.rooted root) n past w self (w.claimed self) (plan.offer self)
        (if root ∈ past then [plan.pull self (made root)] else []) result made made'
  root : ∀ (past : List Nat) (w : World) (made : Nat → Nat),
    Arriving (.rooted root) n past w root made → w.turnOf root = turn →
    ((calls root).enter vm w root).Yields fun result => ∃ mid made',
      Lands (plan.copy root) w.mem mid.mem ∧ plan.agreed (mid.slots turn).displs ∧
      Entered (.rooted root) n past w root mid (plan.offer root)
        (serveRanks plan.push made past.reverse) result made made'

/-- The ranks of `past` have joined, those of `before` before the root, and of the transfers that were issued those of
    `left` have not been made. A rank has them to do, or its call has ended with an error. -/
structure Pursuing (plan : RootedPlan) (n root turn : Nat) (early : Nat → Prop) (past before : List Nat)
    (made : Nat → Nat) (left : Nat → List Action) (s : Sys) : Prop where
  shown : ∀ rank, (s.ranks rank).cont = left rank ∨ (s.ranks rank).cont = []
  agreed : root ∈ past → plan.agreed (s.world.slots turn).displs
  sooner : ∀ rank ∈ before, rank ∈ past ∧ rank ≠ root ∧ early rank ∧
    ((Schedule.rooted root).numOf n rank past).isSome
  pulling : ∀ rank ≠ root, ∀ action ∈ left rank,
    root ∈ past ∧ action = plan.pull rank (made root) ∧ ((Schedule.rooted root).numOf n root past).isSome
  serving : ∀ action ∈ left root,
    (∃ id, action = .moveToPending id) ∨ ∃ rank ∈ before, action = plan.push rank (made rank)

/-- The operation is under way. -/
def RootedPlan.Underway (plan : RootedPlan) (n root t : Nat) (early : Nat → Prop) (origin s : Sys) : Prop :=
  ∃ past before made left, Ledger (.rooted root) n t origin plan.offer past made (s.withLeft left) ∧
    Pursuing plan n root (t % umpiOutstandingCollectiveOperations) early past before made left s

section Underway

variable {plan : RootedPlan} {vm : ProcessVm} {calls : Nat → Call} {n root t : Nat} {early : Nat → Prop}
  {within : World → Nat → Nat → Prop} {origin s s' : Sys} {self : Nat}

/-- A rank changes, and so do its remaining actions. -/
theorem withLeft_update (left : Nat → List Action) (w : World) (state : RankState) (cont : List Action)
    (joins : Nat → List Join) :
    Sys.withLeft { world := w, ranks := Function.update s.ranks self state, joins := joins }
        (Function.update left self cont) =
      { world := w
        ranks := Function.update (s.withLeft left).ranks self { state with cont := cont }
        joins := joins } := by
  simp only [Sys.withLeft, Sys.mk.injEq, true_and, and_true]
  funext rank
  by_cases own : rank = self
  · subst own
    simp
  · simp [own]

/-- Nobody has joined, and nothing has been issued. -/
theorem RootedPlan.Underway.start (ready : origin.Ready n t) : plan.Underway n root t early origin origin := by
  refine ⟨[], [], id, fun rank => (origin.ranks rank).cont, Ledger.start ready id, ?_⟩
  have idle : ∀ rank, ∀ action, action ∉ (origin.ranks rank).cont := by
    intro rank action member
    rw [ready.idle] at member
    cases member
  exact
    { shown := fun _ => Or.inl rfl
      agreed := fun member => nomatch member
      sooner := fun _ member => nomatch member
      pulling := fun rank _ action member => absurd member (idle rank action)
      serving := fun action member => absurd member (idle root action) }

/-- A rank makes its call. -/
theorem RootedPlan.Underway.call (underway : plan.Underway n root t early origin s)
    (encloses : plan.Encloses vm calls n root (t % umpiOutstandingCollectiveOperations) early within)
    (ready : origin.Ready n t) (suits : (Schedule.rooted root).Suits n) (small : n + 1 < 2 ^ 15)
    (allowed : self = root → ∀ rank ≠ root, (s.ranks rank).pos ≠ 0 → early rank)
    (stepped : s.step vm (once calls) (.call self) = .ok s') :
    plan.Underway n root t early origin s' ∧ KeepsToBlocks plan.copy n root (.call self) s s' := by
  obtain ⟨past, before, made, left, ledger, pursuing⟩ := underway
  obtain ⟨call, w, frame, valid, _, listed, joined, rfl⟩ := step_call stepped
  obtain ⟨absent, rfl⟩ := ledger.absent_of_call listed
  have size : s.world.size = n := ledger.standing.size
  rw [size] at valid
  have arriving := ledger.arriving ready suits.several (fun _ => suits) (by omega) valid absent
  have joining := arriving.joining
  have short : past.length < n := joining.length_le
  have turn : s.world.turnOf self = t % umpiOutstandingCollectiveOperations := by
    rw [World.turnOf]
    exact congrArg (· % umpiOutstandingCollectiveOperations) (ledger.ticket self valid absent)
  have beforeOther : ∀ rank ∈ before, rank ≠ self := fun rank member same =>
    absent (same ▸ (pursuing.sooner rank member).1)
  have shown : ∀ rank, ((Function.update s.ranks self ((s.ranks self).enter frame)) rank).cont =
        Function.update left self frame.cont rank ∨
      ((Function.update s.ranks self ((s.ranks self).enter frame)) rank).cont = [] := by
    intro rank
    by_cases own : rank = self
    · subst own
      exact Or.inl (by simp [RankState.enter])
    · simpa [own] using pursuing.shown rank
  by_cases isRoot : self = root
  · subst isRoot
    obtain ⟨mid, made', lands, agreed, entered⟩ := (encloses.root past s.world made arriving turn).of_ok joined
    have others := entered.settles.madeOthers
    have entering := ledger.enter ready suits small valid absent entered (s.record w self)
    rw [Function.update_eq_self] at entering
    have called : ∀ rank ∈ past, (s.ranks rank).pos ≠ 0 := by
      intro rank member
      have pos : (s.ranks rank).pos = 1 := (ledger.pos rank).trans (if_pos member)
      omega
    refine ⟨⟨self :: past, past, made', Function.update left self frame.cont,
      (withLeft_update left w _ frame.cont _).symm ▸ entering, ?_⟩, Or.inr ⟨self, valid, by simp [MovesFor], ?_⟩⟩
    · exact
        { shown := shown
          agreed := fun _ => by
            have slot := entered.settles.slot
            rw [turn] at slot
            show plan.agreed (w.slots _).displs
            rw [slot]
            exact agreed
          sooner := by
            intro rank member
            have other : rank ≠ self := fun same => absent (same ▸ member)
            refine ⟨List.mem_cons_of_mem self member, other, allowed rfl rank other (called rank member), ?_⟩
            rw [Ledger.numOf_other other]
            refine Schedule.numOf_of_mem_box joining.tail suits ?_
            rw [Schedule.box, if_neg short.ne, if_neg absent]
            exact List.mem_reverse.mpr member
          pulling := by
            intro rank other action member
            rw [Function.update_of_ne other] at member
            exact absurd (pursuing.pulling rank other action member).1 absent
          serving := by
            intro action member
            rw [Function.update_self, entered.settles.cont] at member
            obtain ⟨rank, inPast, either⟩ := List.mem_flatMap.mp member
            have inPast := List.mem_reverse.mp inPast
            rcases List.mem_cons.mp either with moves | pushes
            · exact Or.inl ⟨_, moves⟩
            · refine Or.inr ⟨rank, inPast, ?_⟩
              rw [others rank fun same => absent (same ▸ inPast)]
              exact List.mem_singleton.mp pushes }
    · rw [entered.settles.mem]
      exact lands
  · obtain ⟨made', entered⟩ :=
      (encloses.member past s.world self made isRoot arriving turn).of_ok joined
    have others := entered.settles.madeOthers
    have entering := ledger.enter ready suits small valid absent entered (s.record w self)
    rw [Function.update_eq_self] at entering
    have rootName : made' root = made root := others root (Ne.symm isRoot)
    have rootJoined : root ∈ self :: past ↔ root ∈ past := by simp [Ne.symm isRoot]
    refine ⟨⟨self :: past, before, made', Function.update left self frame.cont,
      (withLeft_update left w _ frame.cont _).symm ▸ entering, ?_⟩, Or.inl entered.settles.mem⟩
    exact
      { shown := shown
        agreed := by
          intro joined
          have slot := entered.settles.slot
          rw [turn] at slot
          have same : (w.slots (t % umpiOutstandingCollectiveOperations)).displs =
              (s.world.slots (t % umpiOutstandingCollectiveOperations)).displs := by
            rw [slot, ← turn]
            simp [World.claimed, World.turnOf]
          exact same.symm ▸ pursuing.agreed (rootJoined.mp joined)
        sooner := by
          intro rank member
          obtain ⟨inPast, other, isEarly, makes⟩ := pursuing.sooner rank member
          refine ⟨List.mem_cons_of_mem self inPast, other, isEarly, ?_⟩
          rwa [Ledger.numOf_other (beforeOther rank member)]
        pulling := by
          intro rank other action member
          by_cases own : rank = self
          · subst own
            rw [Function.update_self, entered.settles.cont] at member
            by_cases rootIn : root ∈ past
            · simp only [Schedule.settlement, if_pos rootIn, List.mem_singleton] at member
              refine ⟨rootJoined.mpr rootIn, by rw [rootName]; exact member, ?_⟩
              rw [Ledger.numOf_other (Ne.symm isRoot)]
              refine Schedule.numOf_of_mem_box joining.tail suits ?_
              rw [Schedule.box, if_neg short.ne, if_pos rootIn]
              exact List.mem_singleton_self root
            · simp [Schedule.settlement, rootIn] at member
          · rw [Function.update_of_ne own] at member
            obtain ⟨rootIn, isPull, makes⟩ := pursuing.pulling rank other action member
            refine ⟨rootJoined.mpr rootIn, by rw [rootName]; exact isPull, ?_⟩
            rwa [Ledger.numOf_other (Ne.symm isRoot)]
        serving := by
          intro action member
          rw [Function.update_of_ne (Ne.symm isRoot)] at member
          refine (pursuing.serving action member).imp_right ?_
          rintro ⟨rank, sooner, isPush⟩
          refine ⟨rank, sooner, ?_⟩
          rwa [others rank (beforeOther rank sooner)] }

/-- A rank that has joined performs its next action. -/
theorem RootedPlan.Underway.act (underway : plan.Underway n root t early origin s)
    (encloses : plan.Encloses vm calls n root (t % umpiOutstandingCollectiveOperations) early within)
    (suits : (Schedule.rooted root).Suits n) (small : n + 1 < 2 ^ 15)
    (allowed : self ≠ root → ∀ id, (s.ranks self).cont.head?.bind Action.transfer = some id →
      within s.world self id)
    (stepped : s.step vm (once calls) (.act self) = .ok s') :
    plan.Underway n root t early origin s' ∧ KeepsToBlocks plan.copy n root (.act self) s s' := by
  obtain ⟨past, before, made, left, ledger, pursuing⟩ := underway
  obtain ⟨action, rest, done, todo, performed, rfl⟩ := step_act stepped
  have remaining : left self = action :: rest := by
    rcases pursuing.shown self with all | none
    · exact all.symm.trans todo
    · rw [none] at todo
      cases todo
  have next : action ∈ left self := remaining ▸ List.mem_cons_self
  have bound : ∀ rank ∈ past, rank < n := ledger.joining.bound
  have inPast : self ∈ past := ledger.mem_of_cont remaining
  have head : (s.ranks self).cont.head?.bind Action.transfer = action.transfer := by rw [todo]; rfl
  refine ⟨⟨past, before, made, Function.update left self rest, ?_, ?_⟩, ?_⟩
  · have performing := ledger.perform suits small remaining performed
      (rfl : ({ (s.ranks self).advance action.moved rest done.ret with cont := rest } : RankState).cont = rest)
      (by simp [withLeft]) (by simp [withLeft])
    exact (withLeft_update left done.world _ rest _).symm ▸ performing
  · have fewer : ∀ rank, ∀ later ∈ Function.update left self rest rank, later ∈ left rank := by
      intro rank later member
      by_cases own : rank = self
      · subst own
        rw [Function.update_self] at member
        exact remaining ▸ List.mem_cons_of_mem action member
      · rwa [Function.update_of_ne own] at member
    exact
      { shown := by
          intro rank
          by_cases own : rank = self
          · subst own
            simp only [Function.update_self, RankState.advance]
            split
            · exact Or.inr rfl
            · split
              · exact Or.inr rfl
              · exact Or.inl rfl
          · simpa [own] using pursuing.shown rank
        agreed := by
          intro rootIn
          dsimp only
          rw [Action.exec_slots performed]
          exact pursuing.agreed rootIn
        sooner := pursuing.sooner
        pulling := fun rank other later member => pursuing.pulling rank other later (fewer rank later member)
        serving := fun later member => pursuing.serving later (fewer root later member) }
  · by_cases isRoot : self = root
    · subst isRoot
      rcases pursuing.serving action next with ⟨id, rfl⟩ | ⟨rank, sooner, rfl⟩
      · obtain rfl := Outcome.ok.inj performed
        exact Or.inl rfl
      · obtain ⟨rankIn, other, isEarly, makes⟩ := pursuing.sooner rank sooner
        obtain ⟨k, makes⟩ := Option.isSome_iff_exists.mp makes
        have stable := ledger.cookies rank k makes
        have src : (s.world.cookies (made rank)).src = rank :=
          (Cookie.src_of_stable stable).trans
            (Offer.cookie_src (plan.offer rank) (by have := bound rank rankIn; omega) k)
        refine Or.inr ⟨rank, bound rank rankIn, ?_, ?_⟩
        · rw [MovesFor, if_neg other, head]
          exact Or.inr ⟨rfl, made rank, encloses.pushed rank (made rank), src⟩
        · exact encloses.push rank (bound rank rankIn) other isEarly s.world (made rank) done
            (Cookie.buf_of_stable stable) (Cookie.iovec_of_stable stable) (Cookie.size_of_stable stable)
            performed
    · obtain ⟨rootIn, rfl, makes⟩ := pursuing.pulling self isRoot action next
      obtain ⟨k, makes⟩ := Option.isSome_iff_exists.mp makes
      have stable := ledger.cookies root k makes
      have through := encloses.pulled self (made root)
      refine Or.inr ⟨self, bound self inPast, ?_, ?_⟩
      · rw [MovesFor, if_neg isRoot]
        exact Or.inl rfl
      · exact encloses.pull self (bound self inPast) isRoot s.world (made root) done
          (Cookie.buf_of_stable stable) (Cookie.iovec_of_stable stable) (Cookie.size_of_stable stable)
          (pursuing.agreed rootIn) (allowed isRoot (made root) (head.trans through)) performed

/-- A rank returns from its wait. -/
theorem RootedPlan.Underway.wait {id : Nat} (underway : plan.Underway n root t early origin s)
    (stepped : s.step vm (once calls) (.wait self id) = .ok s') :
    plan.Underway n root t early origin s' ∧ s'.world.mem = s.world.mem := by
  obtain ⟨past, before, made, left, ledger, pursuing⟩ := underway
  obtain ⟨_, listed, _, rfl⟩ := step_wait stepped
  refine ⟨⟨past, before, made, left, ?_, ?_⟩, rfl⟩
  · have leaving := ledger.leave (s.world.cookies id).err listed
    have same := @withLeft_update s self left (s.world.finalize id)
      ((s.ranks self).leave id (s.world.cookies id).err) (left self) s.joins
    rw [Function.update_eq_self] at same
    exact same.symm ▸ leaving
  · refine { pursuing with shown := fun rank => ?_ }
    by_cases own : rank = self
    · subst own
      simpa using pursuing.shown rank
    · simpa [own] using pursuing.shown rank

/-- The condition on a step: the root makes its call when the ranks that came before it are as `early` says, and a
    rank makes its own transfer as `within` says. -/
def Permitted (root : Nat) (early : Nat → Prop) (within : World → Nat → Nat → Prop) (s : Sys) (label : Label) :
    Prop :=
  (label = .call root → ∀ rank ≠ root, (s.ranks rank).pos ≠ 0 → early rank) ∧
    ∀ rank ≠ root, label = .act rank → ∀ id, (s.ranks rank).cont.head?.bind Action.transfer = some id →
      within s.world rank id

/-- A step that meets the condition. -/
theorem RootedPlan.Underway.step {label : Label} (underway : plan.Underway n root t early origin s)
    (encloses : plan.Encloses vm calls n root (t % umpiOutstandingCollectiveOperations) early within)
    (ready : origin.Ready n t) (suits : (Schedule.rooted root).Suits n) (small : n + 1 < 2 ^ 15)
    (permitted : Permitted root early within s label) (stepped : s.step vm (once calls) label = .ok s') :
    plan.Underway n root t early origin s' ∧ KeepsToBlocks plan.copy n root label s s' := by
  cases label with
  | call self =>
      exact underway.call encloses ready suits small (fun isRoot => permitted.1 (isRoot ▸ rfl)) stepped
  | act self =>
      exact underway.act encloses suits small (fun notRoot => permitted.2 self notRoot rfl) stepped
  | wait self id =>
      exact (underway.wait stepped).imp_right Or.inl

/-- A run whose steps all meet the condition. -/
theorem RootedPlan.Encloses.underway
    (encloses : plan.Encloses vm calls n root (t % umpiOutstandingCollectiveOperations) early within)
    (ready : origin.Ready n t) (suits : (Schedule.rooted root).Suits n) (small : n + 1 < 2 ^ 15)
    (run : ReachesBy vm (once calls) (Permitted root early within) origin s) :
    plan.Underway n root t early origin s := by
  induction run with
  | refl => exact .start ready
  | tail label _ condition stepped ih => exact (ih.step encloses ready suits small condition stepped).1

end Underway

/-! ### Gathers whose sizes need not agree -/

section Gather

variable {vm : ProcessVm} {send recv : Nat → Buffer} {n root : Nat}

/-- Arguments of a gather whose other ranks contribute what they like. -/
structure GatherSides (send recv : Nat → Buffer) (n root : Nat) : Prop where
  rootValid : root < n
  sendValid : ∀ rank < n, (send rank).Valid
  recvGiven : (recv root).buf = .null → (recv root).count = 0
  bytes : (recv root).count * n * (recv root).datatype.len < 2 ^ 63
  agree : Contributes send root root → (send root).bytes = (recv root).bytes

/-- For these ranks the root puts a contribution that came before it into its block, or refuses it. -/
def GatherEarly (send recv : Nat → Buffer) (root rank : Nat) : Prop :=
  rank = 0 ∨ (recv root).count ≤ 1 ∧ rank * (recv root).datatype.len < 2 ^ 63 ∨
    (send rank).bytes < (recv root).bytes

/-- A rank that comes after the root has nothing to write, is refused by the check for the whole buffer, or has no
    more than a block and finds `count_` as the root has set it. -/
def GatherWithin (send recv : Nat → Buffer) (root : Nat) (w : World) (rank id : Nat) : Prop :=
  (send rank).bytes = 0 ∨ (w.cookies id).Refuses ((w.cookies id).count * rank) (send rank).bytes ∨
    (send rank).bytes ≤ (recv root).bytes ∧ (rank = 0 ∨ (w.cookies id).count = (recv root).count)

/-- The contribution of every rank to a gather, and its block. -/
def gatherContribution (send recv : Nat → Buffer) (root rank : Nat) : Copy Loc :=
  { source := (send rank).view rank, target := gatherBlock recv root rank }

theorem gatherPlan_encloses (sides : GatherSides send recv n root) (turn : Nat) :
    (gatherPlan send recv n root).Encloses vm (gatherCalls send recv root) n root turn
      (GatherEarly send recv root) (GatherWithin send recv root) where
  pulled := fun _ _ => rfl
  pushed := fun _ _ => rfl
  pull := by
    intro rank valid notRoot w id done bufEq iovecEq sizeEq _ within performed
    simp only [gatherPlan, if_true] at bufEq iovecEq sizeEq
    simp only [gatherPlan, if_pos (contributes_of_ne notRoot)] at performed ⊢
    obtain ⟨seek, offset, written⟩ := Outcome.bind_eq_ok.mp performed
    obtain ⟨skip, none, written⟩ := Outcome.bind_eq_ok.mp written
    obtain rfl := Outcome.ok.inj none
    have ranked : seek = (w.cookies id).count * rank := (mulInt_eq_ok.mp offset).2.symm
    have blocks : rank * (recv root).count + (recv root).count ≤ (recv root).count * n := block_le valid
    have bytes := sides.bytes
    refine writeToOwner_lands bufEq iovecEq (sizeEq.trans (by push_cast; rfl))
      (sides.sendValid rank valid).bytesRange bytes ?_ ?_ written
    · exact (Nat.mul_le_mul_right _ (by omega : rank * (recv root).count ≤ (recv root).count * n)).trans_lt bytes
    · refine within.imp_right (Or.imp (fun refused => by rwa [ranked]) ?_)
      rintro ⟨few, zero | counted⟩
      · exact ⟨by rw [ranked, zero]; simp, few⟩
      · exact ⟨by rw [ranked, counted]; push_cast; ring, few⟩
  push := by
    intro rank valid notRoot early w id done bufEq iovecEq sizeEq performed
    simp only [gatherPlan, if_neg notRoot] at bufEq iovecEq sizeEq
    simp only [gatherPlan, if_pos (contributes_of_ne notRoot)] at performed ⊢
    have blocks : rank * (recv root).count + (recv root).count ≤ (recv root).count * n := block_le valid
    have bytes := sides.bytes
    have sendBytes := (sides.sendValid rank valid).bytesRange
    have counted : (recv root).count * (recv root).datatype.len < 2 ^ 63 :=
      (Nat.mul_le_mul_right _ (by omega)).trans_lt bytes
    obtain ⟨_, zero, read⟩ := Outcome.bind_eq_ok.mp performed
    obtain rfl := Outcome.ok.inj zero
    obtain ⟨_, zero, read⟩ := Outcome.bind_eq_ok.mp read
    obtain rfl := Outcome.ok.inj zero
    refine readFromOwner_lands bufEq iovecEq sizeEq sendBytes counted bytes ?_ ?_ (by exact_mod_cast read)
    · rcases early with rfl | ⟨_, small⟩ | short
      · simp
      · exact small
      · have some : 0 < (recv root).count := Nat.pos_of_mul_pos_right (Nat.zero_lt_of_lt short)
        refine (Nat.mul_le_mul_right _ (?_ : rank ≤ (recv root).count * n)).trans_lt bytes
        exact valid.le.trans (Nat.le_mul_of_pos_left n some)
    · by_cases none : (recv root).count = 0
      · -- everything is asked for, and there is room for nothing
        rw [none, Nat.zero_mul]
        rcases le_or_gt ((recv root).datatype.asked 0 ((send rank).count * (send rank).datatype.len)) 0
          with empty | some
        · exact Or.inl empty
        · exact Or.inr (Or.inr (Or.inl (Nat.add_pos_right rank (Int.pos_iff_toNat_pos.mp some))))
      · rw [Datatype.asked, if_pos none, Int.toNat_natCast]
        rcases early with rfl | ⟨single, _⟩ | short
        · exact Or.inr (Or.inr (Or.inr ⟨by simp, le_rfl⟩))
        · have one : (recv root).count = 1 := by omega
          exact Or.inr (Or.inr (Or.inr ⟨by rw [one, Nat.mul_one], le_rfl⟩))
        · exact Or.inr (Or.inl short)
  member := fun _ _ _ _ notRoot arriving _ =>
    gatherPlan_member sides.rootValid (sides.sendValid _ (arriving.joining.bound _ List.mem_cons_self)) notRoot
      arriving
  root := by
    intro past w made arriving _
    refine (gatherPlan_root (sides.sendValid root sides.rootValid) sides.recvGiven sides.agree arriving).mono ?_
    rintro result ⟨_, made', entered⟩
    refine ⟨_, made', ?_, trivial, entered⟩
    unfold gatherOwn
    by_cases inPlace : (send root).buf = .inPlace
    · rw [if_pos inPlace]
      exact .nothing rfl
    · have contributes : Contributes send root root := fun _ => inPlace
      rw [if_neg inPlace]
      simp only [gatherPlan, if_pos contributes]
      have bytes := sides.bytes
      refine copy_lands rfl rfl 0 _ (sides.agree contributes) ((Nat.mul_le_mul_right _ ?_).trans_lt bytes)
      exact Nat.le_mul_of_pos_right _ (Nat.zero_lt_of_lt sides.rootValid)

end Gather

section Gatherv

variable {vm : ProcessVm} {send : Nat → Buffer} {recv : Nat → BlockVector} {n root : Nat}

/-- Arguments of a gatherv whose other ranks contribute what they like. -/
structure GathervSides (send : Nat → Buffer) (recv : Nat → BlockVector) (n root : Nat) : Prop where
  rootValid : root < n
  sendValid : ∀ rank < n, (send rank).Valid
  recvGiven : (recv root).buf ≠ .null
  bytes : (recv root).total n * (recv root).datatype.len < 2 ^ 63
  spans : ∀ rank < n,
    ((recv root).displs rank + (recv root).counts rank) * (recv root).datatype.len < 2 ^ 63
  agree : Contributes send root root → (send root).bytes = (recv root).counts root * (recv root).datatype.len

/-- For these ranks the root puts a contribution that came before it into its block, or refuses it. If the root has
    asked for nothing all of the contribution is read, as far as the check for the whole buffer allows. -/
def GathervEarly (send : Nat → Buffer) (recv : Nat → BlockVector) (n root rank : Nat) : Prop :=
  (recv root).counts rank ≠ 0 ∨ (recv root).datatype.asked 0 (send rank).bytes ≤ 0 ∨
    (recv root).total n < (recv root).displs rank + ((recv root).datatype.asked 0 (send rank).bytes).toNat

/-- A rank that comes after the root has nothing to write, is refused by the check for the whole buffer, or has no
    more than a block. -/
def GathervWithin (send : Nat → Buffer) (recv : Nat → BlockVector) (root : Nat) (w : World) (rank id : Nat) :
    Prop :=
  (send rank).bytes = 0 ∨ (w.cookies id).Refuses ((recv root).displs rank) (send rank).bytes ∨
    (send rank).bytes ≤ (recv root).counts rank * (recv root).datatype.len

/-- The contribution of every rank to a gatherv, and its block. -/
def gathervContribution (send : Nat → Buffer) (recv : Nat → BlockVector) (root rank : Nat) : Copy Loc :=
  { source := (send rank).view rank, target := (recv root).block root rank }

theorem gathervPlan_encloses (sides : GathervSides send recv n root) (turn : Nat) :
    (gathervPlan send recv n root turn).Encloses vm (gathervCalls send recv root) n root turn
      (GathervEarly send recv n root) (GathervWithin send recv root) where
  pulled := fun _ _ => rfl
  pushed := fun _ _ => rfl
  pull := by
    intro rank valid notRoot w id done bufEq iovecEq sizeEq agreed within performed
    simp only [gathervPlan, if_true] at bufEq iovecEq sizeEq agreed
    simp only [gathervPlan, if_pos (contributes_of_ne notRoot)] at performed ⊢
    obtain ⟨seek, offset, written⟩ := Outcome.bind_eq_ok.mp performed
    obtain ⟨skip, none, written⟩ := Outcome.bind_eq_ok.mp written
    obtain rfl := Outcome.ok.inj none
    have placed : seek = ((recv root).displs rank : Int) := by
      rw [Offset.eval, agreed] at offset
      exact (Outcome.ok.inj offset).symm
    subst placed
    have start : (recv root).displs rank * (recv root).datatype.len < 2 ^ 63 :=
      (Nat.mul_le_mul_right _ (Nat.le_add_right _ _)).trans_lt (sides.spans rank valid)
    refine writeToOwner_lands bufEq iovecEq sizeEq (sides.sendValid rank valid).bytesRange sides.bytes start ?_
      written
    exact within.imp_right (Or.imp_right fun few => ⟨rfl, few⟩)
  push := by
    intro rank valid notRoot early w id done bufEq iovecEq sizeEq performed
    simp only [gathervPlan, if_neg notRoot] at bufEq iovecEq sizeEq
    simp only [gathervPlan, if_pos (contributes_of_ne notRoot)] at performed ⊢
    have spans := sides.spans rank valid
    obtain ⟨_, zero, read⟩ := Outcome.bind_eq_ok.mp performed
    obtain rfl := Outcome.ok.inj zero
    obtain ⟨_, zero, read⟩ := Outcome.bind_eq_ok.mp read
    obtain rfl := Outcome.ok.inj zero
    refine readFromOwner_lands bufEq iovecEq sizeEq (sides.sendValid rank valid).bytesRange
      ((Nat.mul_le_mul_right _ (Nat.le_add_left _ _)).trans_lt spans) sides.bytes
      ((Nat.mul_le_mul_right _ (Nat.le_add_right _ _)).trans_lt spans) ?_ read
    by_cases none : (recv root).counts rank = 0
    · rw [none]
      exact (early.resolve_left (not_not.mpr none)).imp_right fun refused => Or.inr (Or.inl refused)
    · rw [Datatype.asked, if_pos none]
      exact Or.inr (Or.inr (Or.inr ⟨rfl, le_rfl⟩))
  member := fun _ _ _ _ notRoot arriving here =>
    gathervPlan_member sides.rootValid (sides.sendValid _ (arriving.joining.bound _ List.mem_cons_self)) notRoot
      arriving.standing arriving.joining here
  root := by
    intro past w made arriving here
    refine (gathervPlan_root (sides.sendValid root sides.rootValid) sides.recvGiven sides.agree arriving
      here).mono ?_
    rintro result ⟨_, made', entered⟩
    refine ⟨_, made', ?_, by simp [gathervPlan, gathervOwn], entered⟩
    unfold gathervOwn
    by_cases inPlace : (send root).buf = .inPlace
    · rw [if_pos inPlace]
      exact .nothing rfl
    · have contributes : Contributes send root root := fun _ => inPlace
      rw [if_neg inPlace]
      simp only [gathervPlan, if_pos contributes]
      refine copy_lands rfl rfl 0 _ (sides.agree contributes) ?_
      exact (Nat.mul_le_mul_right _ (Nat.le_add_left _ _)).trans_lt (sides.spans root sides.rootValid)

end Gatherv

/-- A plan leaves out the contribution of a root whose block is in place, and nothing lands for it. -/
theorem KeepsToBlocks.of_plan {send : Nat → Buffer} {copy contribution : Nat → Copy Loc} {n root : Nat}
    {label : Label} {s s' : Sys}
    (copyEq : ∀ rank, copy rank =
      if Contributes send root rank then contribution rank else { source := [], target := [] })
    (keeps : KeepsToBlocks copy n root label s s') : KeepsToBlocks contribution n root label s s' := by
  rcases keeps with same | ⟨rank, valid, moves, lands⟩
  · exact Or.inl same
  · rw [copyEq] at lands
    by_cases contributes : Contributes send root rank
    · rw [if_pos contributes] at lands
      exact Or.inr ⟨rank, valid, moves, lands⟩
    · rw [if_neg contributes] at lands
      obtain ⟨m, moved⟩ := lands
      exact Or.inl (moved.trans (by simp))

/-- In every run of a gather or of a gatherv whose steps meet the condition, every step that meets it keeps to the
    block of the rank for which it moves data. -/
theorem contributions_keep_to_blocks {vm : ProcessVm} {n root t : Nat} {origin : Sys} (ready : origin.Ready n t)
    (several : 2 ≤ n) (limit : n ≤ 10000) :
    (∀ (send recv : Nat → Buffer), GatherSides send recv n root → ∀ (s s' : Sys) (label : Label),
      ReachesBy vm (once (gatherCalls send recv root))
        (Permitted root (GatherEarly send recv root) (GatherWithin send recv root)) origin s →
      Permitted root (GatherEarly send recv root) (GatherWithin send recv root) s label →
      s.step vm (once (gatherCalls send recv root)) label = .ok s' →
      KeepsToBlocks (gatherContribution send recv root) n root label s s') ∧
    ∀ (send : Nat → Buffer) (recv : Nat → BlockVector), GathervSides send recv n root →
      ∀ (s s' : Sys) (label : Label),
      ReachesBy vm (once (gathervCalls send recv root))
        (Permitted root (GathervEarly send recv n root) (GathervWithin send recv root)) origin s →
      Permitted root (GathervEarly send recv n root) (GathervWithin send recv root) s label →
      s.step vm (once (gathervCalls send recv root)) label = .ok s' →
      KeepsToBlocks (gathervContribution send recv root) n root label s s' := by
  constructor
  · intro send recv sides s s' label run permitted stepped
    have suits := Schedule.Suits.of_root several sides.rootValid
    have encloses := @gatherPlan_encloses vm send recv n root sides (t % umpiOutstandingCollectiveOperations)
    exact .of_plan (fun _ => rfl)
      ((encloses.underway ready suits (by omega) run).step encloses ready suits (by omega) permitted stepped).2
  · intro send recv sides s s' label run permitted stepped
    have suits := Schedule.Suits.of_root several sides.rootValid
    have encloses := @gathervPlan_encloses vm send recv n root sides (t % umpiOutstandingCollectiveOperations)
    exact .of_plan (fun _ => rfl)
      ((encloses.underway ready suits (by omega) run).step encloses ready suits (by omega) permitted stepped).2

/-! ### Contributions of the wrong size -/

/-- Rank 1 contributes `count` characters, the other ranks two; those of rank 0 are in place. -/
def unevenToSend (count rank : Nat) : Buffer :=
  { buf := if rank = 0 then .inPlace else .addr 0
    count := if rank = 1 then count else 2
    datatype := Datatype.mpiChar }

theorem uneven_sides {count : Nat} (small : count < 10) : GatherSides (unevenToSend count) pairToReceive 3 0 where
  rootValid := by decide
  sendValid := by
    intro rank _
    have one : Datatype.mpiChar.len = 1 := rfl
    refine ⟨?_, ?_, fun null => ?_⟩
    · simp only [unevenToSend]
      split <;> omega
    · simp only [unevenToSend, Buffer.bytes, one]
      split <;> omega
    · simp only [unevenToSend] at null
      split at null <;> cases null
  recvGiven := nofun
  bytes := (by decide : 2 * 3 * Datatype.mpiChar.len < 2 ^ 63)
  agree := fun contributes => absurd rfl (contributes rfl)

/-- Ranks 1 and 2 have sevens and eights in their memory, the others zeros. -/
def sevensAndEights (location : Loc) : UInt8 :=
  if location.region = .heap 1 then 7 else if location.region = .heap 2 then 8 else 0

/-- The root comes first, and the contributions have the right size. -/
theorem contributions_keep_to_blocks_even :
    ∃ s s', (Sys.init 3 sevensAndEights).run copyingVm (once (gatherCalls (unevenToSend 2) pairToReceive 0))
        [.call 0, .call 1] = .ok s ∧
      s.step copyingVm (once (gatherCalls (unevenToSend 2) pairToReceive 0)) (.act 1) = .ok s' ∧
      KeepsToBlocks (gatherContribution (unevenToSend 2) pairToReceive 0) 3 0 (.act 1) s s' := by
  have runs : ∃ first s s', (Sys.init 3 sevensAndEights).step copyingVm
        (once (gatherCalls (unevenToSend 2) pairToReceive 0)) (.call 0) = .ok first ∧
      first.run copyingVm (once (gatherCalls (unevenToSend 2) pairToReceive 0)) [.call 1] = .ok s ∧
      s.step copyingVm (once (gatherCalls (unevenToSend 2) pairToReceive 0)) (.act 1) = .ok s' ∧
      ∃ id, (s.ranks 1).cont.head?.bind Action.transfer = some id ∧ (s.world.cookies id).count = 2 :=
    ⟨_, _, _, rfl, rfl, rfl, _, rfl, rfl⟩
  obtain ⟨first, s, s', stepped, ran, acted, id, head, count⟩ := runs
  have joins : ∀ label ∈ [Label.call 1], ∀ s, Permitted 0 (GatherEarly (unevenToSend 2) pairToReceive 0)
      (GatherWithin (unevenToSend 2) pairToReceive 0) s label := by
    intro label member s
    obtain rfl := List.mem_singleton.mp member
    constructor
    · intro same
      cases same
    · intro rank _ same
      cases same
  have starts : Permitted 0 (GatherEarly (unevenToSend 2) pairToReceive 0)
      (GatherWithin (unevenToSend 2) pairToReceive 0) (Sys.init 3 sevensAndEights) (.call 0) := by
    constructor
    · intro _ rank _ called
      exact absurd rfl called
    · intro rank _ same
      cases same
  have reaches := (reachesBy_of_run joins ran).head starts stepped
  refine ⟨s, s', ?_, acted, ?_⟩
  · rw [Sys.run, stepped]
    exact ran
  · refine (contributions_keep_to_blocks (ready_init 3 sevensAndEights) (by decide) (by decide)).1
      (unevenToSend 2) pairToReceive (uneven_sides (by decide)) s s' (.act 1) reaches ?_ acted
    constructor
    · intro same
      cases same
    · intro rank _ own other through
      obtain rfl := Label.act.inj own
      obtain rfl := Option.some.inj (head.symm.trans through)
      exact Or.inr (Or.inr ⟨by decide, Or.inr count⟩)

/-- Rank 1 comes after the root. Its three characters are accepted, and the third goes to the block of rank 2. A
    single one is accepted too, and makes rank 2 write to element 2 instead of element 4. -/
theorem contributions_spill :
    (GatherSides (unevenToSend 3) pairToReceive 3 0 ∧
      ∃ s s', (Sys.init 3 sevensAndEights).run copyingVm
          (once (gatherCalls (unevenToSend 3) pairToReceive 0)) [.call 0, .call 1] = .ok s ∧
        s.step copyingVm (once (gatherCalls (unevenToSend 3) pairToReceive 0)) (.act 1) = .ok s' ∧
        (s'.ranks 1).rets = [mpiSuccess] ∧
        readAll s.world.mem (gatherBlock pairToReceive 0 2) = [0, 0] ∧
        readAll s'.world.mem (gatherBlock pairToReceive 0 2) = [7, 0]) ∧
    GatherSides (unevenToSend 1) pairToReceive 3 0 ∧
      ∃ s, (Sys.init 3 sevensAndEights).run copyingVm (once (gatherCalls (unevenToSend 1) pairToReceive 0))
          [.call 0, .call 1, .act 1, .call 2, .act 2] = .ok s ∧
        (s.ranks 2).rets = [mpiSuccess] ∧
        readAll s.world.mem (gatherBlock pairToReceive 0 1) = [8, 8] ∧
        readAll s.world.mem (gatherBlock pairToReceive 0 2) = [0, 0] :=
  ⟨⟨uneven_sides (by decide), _, _, rfl, rfl, rfl, by decide, by decide⟩,
    uneven_sides (by decide), _, rfl, rfl, by decide, by decide⟩

end Umpi
