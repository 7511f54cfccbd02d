/-
Module: Umpi.Proofs.Rounds
Layer: Proofs
Purpose: The rounds of `MPI_Allgatherv`. Every round is a gatherv to another root on the next slot, and several of
  them are in progress at once: ranks that have delivered their data go on while the root still waits. The tickets,
  slots and cookies of all rounds are described by what every rank has joined and delivered so far, and the copies
  of all rounds together can be made in any order.
Imports: Umpi.Model.Allgatherv, Umpi.Proofs.Gatherv, Umpi.Proofs.Places
Trusted boundary: none
Main exports: AllgathervArguments, AllgathervArguments.round, ticketAt, roundPlan, RoundSlots, RoundRanks, RoundData,
  Heard
Open obligations: none
-/
import Umpi.Model.Allgatherv
import Umpi.Proofs.Gatherv
import Umpi.Proofs.Places

namespace Umpi

open Foundation Sys

/-! ### The arguments -/

/-- What a rank passes: its contribution is `send`, or its own block of `recv` with `MPI_IN_PLACE`, when the
    count and the type for sending are not looked at. -/
structure AllgathervArgs.Passes (args : AllgathervArgs) (send : Option Buffer) (recv : BlockVector) : Prop where
  inPlace : send = none → args.sendbuf = .inPlace
  given : ∀ buffer, send = some buffer → args.sendbuf = buffer.buf ∧ args.sendcount = buffer.count ∧
    args.sendtype = some buffer.datatype.iovec
  recvbuf : args.recvbuf = recv.buf
  recvcounts : args.recvcounts = some fun rank => (recv.counts rank : Int)
  displs : args.displs = some fun rank => (recv.displs rank : Int)
  recvtype : args.recvtype = some recv.datatype.iovec
  comm : args.comm = .world

namespace BlockVector

/-- The block of `rank` in its own buffer, as a buffer to send. -/
def own (vector : BlockVector) (rank : Nat) : Buffer where
  buf :=
    match vector.buf with
    | .addr a => .addr (a + vector.displs rank * vector.datatype.stride)
    | pointer => pointer
  count := vector.counts rank
  datatype := vector.datatype

theorem view_own {vector : BlockVector} {a : Int} (given : vector.buf = .addr a) (rank : Nat) :
    (vector.own rank).view rank = vector.block rank rank := by
  simp only [own, Buffer.view, Buffer.elements, block, given, streamLocs]
  refine List.flatMap_congr fun j _ => ?_
  unfold elementLocs
  refine List.map_congr_left fun offset _ => ?_
  simp only [Pointer.loc, Loc.shift, Datatype.stride]
  congr 1
  push_cast
  ring

end BlockVector

/-- The contribution of a rank, when it calls. -/
def allgathervSource (send : Nat → Option Buffer) (recv : Nat → BlockVector) (rank : Nat) : List Loc :=
  match send rank with
  | some buffer => buffer.view rank
  | none => (recv rank).block rank rank

/-- The number of bytes a rank contributes. -/
def allgathervBytes (send : Nat → Option Buffer) (recv : Nat → BlockVector) (rank : Nat) : Nat :=
  match send rank with
  | some buffer => buffer.bytes
  | none => (recv rank).counts rank * (recv rank).datatype.len

/-- Arguments of an allgatherv: the counts and displacements are the same on all ranks, the blocks are
    disjoint and end within as many elements as are contributed, which is an `int`, and a contribution has as
    many bytes as every block for it. A contribution that is not in place lies outside of the blocks. Whether
    it is in place may be different from rank to rank. -/
structure AllgathervArguments (args : Nat → AllgathervArgs) (send : Nat → Option Buffer)
    (recv : Nat → BlockVector) (n : Nat) : Prop where
  passes : ∀ rank < n, (args rank).Passes (send rank) (recv rank)
  sendValid : ∀ rank < n, ∀ buffer, send rank = some buffer → buffer.Valid ∧ buffer.buf ≠ .inPlace
  recvGiven : ∀ rank < n, ∃ a, (recv rank).buf = .addr a
  counts : ∀ rank < n, ∀ owner < n, ∀ other < n, (recv rank).counts other = (recv owner).counts other
  displs : ∀ rank < n, ∀ owner < n, ∀ other < n, (recv rank).displs other = (recv owner).displs other
  elements : ∀ rank < n, (recv rank).total n < 2 ^ 31
  bytes : ∀ rank < n, (recv rank).total n * (recv rank).datatype.len < 2 ^ 63
  inside : ∀ rank < n, ∀ other < n, (recv rank).displs other + (recv rank).counts other ≤ (recv rank).total n
  disjoint : ∀ rank < n, ∀ one < n, ∀ other < n, one ≠ other → (recv rank).Apart one other
  agree : ∀ rank < n, ∀ owner < n,
    allgathervBytes send recv rank = (recv owner).counts rank * (recv owner).datatype.len
  apart : ∀ rank < n, ∀ buffer, send rank = some buffer → ∀ other < n,
    (buffer.view rank).Disjoint ((recv rank).block rank other)

/-- What a rank sends in the round of `root`. -/
def roundSend (send : Nat → Option Buffer) (recv : Nat → BlockVector) (root rank : Nat) : Buffer :=
  match send rank with
  | some buffer => buffer
  | none =>
      if rank = root then { buf := .inPlace, count := 0, datatype := (recv rank).datatype }
      else (recv rank).own rank

section Rounds

variable {vm : ProcessVm} {args : Nat → AllgathervArgs} {send : Nat → Option Buffer}
  {recv : Nat → BlockVector} {n root rank : Nat}

/-- With `MPI_IN_PLACE` the root's count and type for sending make no difference. -/
theorem gatherv_enter_inPlace (vm : ProcessVm) (w : World) (self : Nat) (count count' : Int)
    (type type' : MpiDatatype) (recvbuf : Pointer) (recvcounts displs : Option (Nat → Int))
    (recvtype : MpiDatatype) (comm : MpiComm) :
    (Call.gatherv .inPlace count type recvbuf recvcounts displs recvtype self comm).enter vm w self =
      (Call.gatherv .inPlace count' type' recvbuf recvcounts displs recvtype self comm).enter vm w self := by
  simp [Call.enter, mpiIgatherv, mismatch]

/-- The arguments for receiving of a rank other than the root make no difference. -/
theorem gatherv_enter_sender (vm : ProcessVm) (w : World) {self : Nat} (notRoot : self ≠ root)
    (sendbuf : Pointer) (count : Int) (type : MpiDatatype) (recvbuf recvbuf' : Pointer)
    (recvcounts recvcounts' displs displs' : Option (Nat → Int)) (recvtype recvtype' : MpiDatatype)
    (comm : MpiComm) :
    (Call.gatherv sendbuf count type recvbuf recvcounts displs recvtype root comm).enter vm w self =
      (Call.gatherv sendbuf count type recvbuf' recvcounts' displs' recvtype' root comm).enter vm w self := by
  have other : ¬ (self : Int) = root := by exact_mod_cast notRoot
  simp only [Call.enter, mpiIgatherv, if_neg other]

/-- The call a rank makes in a round is that of a gatherv of what it sends in this round. -/
theorem AllgathervArgs.Passes.round (passes : (args rank).Passes (send rank) (recv rank))
    (sendGiven : ∀ buffer, send rank = some buffer → buffer.buf ≠ .inPlace)
    (recvGiven : ∃ a, (recv rank).buf = .addr a) (root : Nat) :
    ∃ call, (args rank).round rank root = .ok call ∧ ∀ (vm : ProcessVm) (w : World),
      call.enter vm w rank = (gathervCalls (roundSend send recv root) recv root rank).enter vm w rank := by
  obtain ⟨a, address⟩ := recvGiven
  let whole : Call := .gatherv (args rank).sendbuf (args rank).sendcount (args rank).sendtype
    (args rank).recvbuf (args rank).recvcounts (args rank).displs (args rank).recvtype root (args rank).comm
  cases sends : send rank with
  | some buffer =>
      obtain ⟨sendbuf, sendcount, sendtype⟩ := passes.given buffer sends
      have outOfPlace : ¬ ((args rank).sendbuf = .inPlace ∧ root ≠ rank) := fun both =>
        sendGiven buffer sends (sendbuf.symm.trans both.1)
      refine ⟨whole, if_neg outOfPlace, fun vm w => ?_⟩
      simp only [whole, gathervCalls, roundSend, sends, sendbuf, sendcount, sendtype, passes.recvbuf,
        passes.recvcounts, passes.displs, passes.recvtype, passes.comm]
  | none =>
      have sendbuf := passes.inPlace sends
      by_cases isRoot : rank = root
      · subst isRoot
        refine ⟨whole, if_neg fun both => both.2 rfl, fun vm w => ?_⟩
        simp only [whole, gathervCalls, roundSend, sends, if_true, sendbuf, passes.recvbuf, passes.recvcounts,
          passes.displs, passes.recvtype, passes.comm]
        exact gatherv_enter_inPlace ..
      · let block : Call := .gatherv (.addr (a + (recv rank).displs rank * (recv rank).datatype.iovec.stride))
          ((recv rank).counts rank) (some (recv rank).datatype.iovec) .null none none none root (args rank).comm
        have started : (args rank).round rank root = .ok block := by
          simp only [AllgathervArgs.round, sendbuf, passes.recvbuf, passes.recvcounts, passes.displs,
            passes.recvtype, address, Pointer.advance, ne_eq, Ne.symm isRoot, not_false_eq_true, and_self,
            if_true, Outcome.ok_bind]
          rfl
        refine ⟨block, started, fun vm w => ?_⟩
        simp only [block, gathervCalls, roundSend, sends, if_neg isRoot, BlockVector.own, address, passes.comm,
          Datatype.stride]
        exact gatherv_enter_sender vm w isRoot ..

namespace AllgathervArguments

theorem counts_le (arguments : AllgathervArguments args send recv n) {owner : Nat} (valid : owner < n)
    (rankValid : rank < n) : (recv owner).counts rank ≤ (recv owner).total n :=
  (Nat.le_add_left _ _).trans (arguments.inside owner valid rank rankValid)

theorem bytes_le (arguments : AllgathervArguments args send recv n) {owner : Nat} (valid : owner < n)
    (rankValid : rank < n) : (recv owner).counts rank * (recv owner).datatype.len < 2 ^ 63 :=
  (Nat.mul_le_mul_right _ (arguments.counts_le valid rankValid)).trans_lt (arguments.bytes owner valid)

/-- A round is a gatherv. -/
theorem round (arguments : AllgathervArguments args send recv n) (rootValid : root < n) :
    GathervArguments (roundSend send recv root) recv n root where
  rootValid := rootValid
  sendValid := by
    intro rank valid
    cases sends : send rank with
    | some buffer =>
        simp only [roundSend, sends]
        exact (arguments.sendValid rank valid buffer sends).1
    | none =>
        simp only [roundSend, sends]
        split
        · exact ⟨by simp, by simp [Buffer.bytes], fun null => nomatch null⟩
        · obtain ⟨a, address⟩ := arguments.recvGiven rank valid
          refine ⟨(arguments.counts_le valid valid).trans_lt (arguments.elements rank valid),
            arguments.bytes_le valid valid, fun null => ?_⟩
          simp [BlockVector.own, address] at null
  recvGiven := by
    obtain ⟨a, address⟩ := arguments.recvGiven root rootValid
    simp [address]
  counts := fun rank valid => (arguments.counts_le rootValid valid).trans_lt (arguments.elements root rootValid)
  displs := fun rank valid => ((Nat.le_add_right _ _).trans (arguments.inside root rootValid rank valid)).trans_lt
    (arguments.elements root rootValid)
  bytes := arguments.bytes root rootValid
  spans := fun rank valid => (Nat.mul_le_mul_right _ (arguments.inside root rootValid rank valid)).trans_lt
    (arguments.bytes root rootValid)
  agree := by
    intro rank valid contributes
    have agree := arguments.agree rank valid root rootValid
    cases sends : send rank with
    | some buffer => simpa only [allgathervBytes, roundSend, sends] using agree
    | none =>
        have member : rank ≠ root := by
          rintro rfl
          exact contributes rfl (by simp [roundSend, sends])
        simpa only [allgathervBytes, roundSend, sends, if_neg member, Buffer.bytes, BlockVector.own] using agree
  disjoint := fun rank valid other valid' => arguments.disjoint root rootValid rank valid other valid'
  apart := by
    intro contributes rank valid
    cases sends : send root with
    | some buffer =>
        simp only [roundSend, sends]
        exact arguments.apart root rootValid buffer sends rank valid
    | none => exact absurd (by simp [roundSend, sends]) (contributes rfl)

theorem fits (arguments : AllgathervArguments args send recv n) (rootValid : root < n) :
    GathervFits recv n root :=
  ⟨arguments.elements root rootValid, fun rank valid _ => arguments.inside root rootValid rank valid⟩

end AllgathervArguments

end Rounds

/-! ### Tickets and slots of the rounds -/

/-- The ticket of a rank that started with `t` and has joined so many slots since. -/
def ticketAt (t : Nat) : Nat → Nat
  | 0 => t
  | joined + 1 => (ticketAt t joined + 1) % 2 ^ 32

/-- The slot of the round of `root`. -/
def slotAt (t root : Nat) : Nat := ticketAt t root % umpiOutstandingCollectiveOperations

theorem slotAt_eq (t root : Nat) : slotAt t root = (t + root) % 16 := by
  induction root with
  | zero => rfl
  | succ root ih =>
      have step : slotAt t (root + 1) = (slotAt t root + 1) % 16 := by
        simp only [slotAt, ticketAt, umpiOutstandingCollectiveOperations]
        omega
      omega

/-- Two rounds in a row have different slots. -/
theorem slotAt_succ_ne (t root : Nat) : slotAt t root ≠ slotAt t (root + 1) := by
  rw [slotAt_eq, slotAt_eq]
  omega

/-- The ranks that have joined the round of `root`, if `joined` says how many rounds every rank has joined. -/
def joiners (n : Nat) (joined : Nat → Nat) (root : Nat) : List Nat :=
  (List.range n).filter fun rank => root < joined rank

section Joiners

variable {n root self rank : Nat} {joined : Nat → Nat}

theorem mem_joiners : rank ∈ joiners n joined root ↔ rank < n ∧ root < joined rank := by
  simp [joiners]

theorem nodup_joiners : (joiners n joined root).Nodup := List.nodup_range.filter _

/-- A rank that is about to join. -/
theorem joining_joiners (valid : self < n) (absent : joined self ≤ root) :
    Schedule.Joining n (self :: joiners n joined root) where
  nodup := List.nodup_cons.mpr ⟨fun member => absurd (mem_joiners.mp member).2 (by omega), nodup_joiners⟩
  bound := by
    intro rank member
    rcases List.mem_cons.mp member with rfl | earlier
    · exact valid
    · exact (mem_joiners.mp earlier).1

/-- When a rank has joined it is one of the joiners. -/
theorem joiners_joins (valid : self < n) (before : joined self = root) :
    (self :: joiners n joined root).Perm (joiners n (Function.update joined self (root + 1)) root) := by
  refine (List.perm_ext_iff_of_nodup (joining_joiners valid before.le).nodup nodup_joiners).mpr fun rank => ?_
  rw [List.mem_cons, mem_joiners, mem_joiners]
  by_cases own : rank = self
  · subst own
    simp [valid]
  · simp [own]

/-- Joining a round does not matter to the other rounds. -/
theorem joiners_other {other : Nat} (before : joined self = root) (different : other ≠ root) :
    joiners n (Function.update joined self (root + 1)) other = joiners n joined other := by
  refine List.filter_congr fun rank _ => ?_
  by_cases own : rank = self
  · subst own
    simp only [Function.update_self, before, decide_eq_decide]
    omega
  · simp [own]

/-- If everybody has joined there are `n` joiners. -/
theorem length_joiners_full (everybody : ∀ rank < n, root < joined rank) :
    (joiners n joined root).length = n := by
  rw [joiners, List.filter_eq_self.mpr fun rank member => by simpa using everybody rank (List.mem_range.mp member),
    List.length_range]

end Joiners

/-- The number of ranks whose data the root is still waiting for, if `delivered` says in how many rounds the
    data of every rank is where it belongs. -/
def awaited (n : Nat) (delivered : Nat → Nat) (root : Nat) : Nat :=
  ((Finset.range n).filter fun rank => rank ≠ root ∧ delivered rank ≤ root).card

section Awaited

variable {n root self : Nat} {delivered : Nat → Nat}

/-- A rank other than the root that delivers its data is no longer waited for. -/
theorem awaited_delivers (valid : self < n) (notRoot : self ≠ root) (before : delivered self = root) :
    awaited n delivered root = awaited n (Function.update delivered self (root + 1)) root + 1 := by
  have waiting : self ∈ (Finset.range n).filter fun rank => rank ≠ root ∧ delivered rank ≤ root := by
    simp [valid, notRoot, before]
  have rest : ((Finset.range n).filter fun rank =>
      rank ≠ root ∧ Function.update delivered self (root + 1) rank ≤ root) =
      ((Finset.range n).filter fun rank => rank ≠ root ∧ delivered rank ≤ root).erase self := by
    ext rank
    by_cases own : rank = self
    · subst own
      simp
    · simp [own]
  rw [awaited, awaited, rest, Finset.card_erase_add_one waiting]

/-- Whether a rank delivers in one round does not matter to the others. -/
theorem awaited_other {other : Nat} (before : delivered self = root) (different : other ≠ root) :
    awaited n (Function.update delivered self (root + 1)) other = awaited n delivered other := by
  refine congrArg Finset.card (Finset.filter_congr fun rank _ => ?_)
  by_cases own : rank = self
  · subst own
    rw [Function.update_self]
    omega
  · rw [Function.update_of_ne own]

/-- The root itself is not waited for. -/
theorem awaited_own (after : Nat) :
    awaited n (Function.update delivered root after) root = awaited n delivered root := by
  refine congrArg Finset.card (Finset.filter_congr fun rank _ => ?_)
  by_cases own : rank = root
  · simp [own]
  · rw [Function.update_of_ne own]

/-- At first the root waits for everybody else. -/
theorem awaited_all (valid : root < n) (nobody : ∀ rank < n, delivered rank ≤ root) :
    awaited n delivered root = n - 1 := by
  have others : ((Finset.range n).filter fun rank => rank ≠ root ∧ delivered rank ≤ root) =
      (Finset.range n).erase root := by
    ext rank
    simp only [Finset.mem_filter, Finset.mem_range, Finset.mem_erase]
    exact ⟨fun both => ⟨both.2.1, both.1⟩, fun both => ⟨both.2, both.1, nobody rank both.2⟩⟩
  rw [awaited, others, Finset.card_erase_of_mem (Finset.mem_range.mpr valid), Finset.card_range]

theorem awaited_le (n : Nat) (delivered : Nat → Nat) (root : Nat) : awaited n delivered root ≤ n :=
  (Finset.card_filter_le _ _).trans (Finset.card_range n).le

/-- As long as the root waits there is somebody who has not delivered. -/
theorem exists_of_awaited (some : awaited n delivered root ≠ 0) :
    ∃ rank < n, rank ≠ root ∧ delivered rank ≤ root := by
  obtain ⟨rank, member⟩ := Finset.card_ne_zero.mp some
  obtain ⟨valid, both⟩ := Finset.mem_filter.mp member
  exact ⟨rank, Finset.mem_range.mp valid, both⟩

/-- When the root has stopped waiting everybody else has delivered. -/
theorem delivered_of_awaited (none : awaited n delivered root = 0) {rank : Nat} (valid : rank < n)
    (other : rank ≠ root) : root < delivered rank := by
  by_contra late
  have listed : rank ∈ (Finset.range n).filter fun rank => rank ≠ root ∧ delivered rank ≤ root :=
    Finset.mem_filter.mpr ⟨Finset.mem_range.mpr valid, other, Nat.le_of_not_lt late⟩
  rw [Finset.card_eq_zero.mp none] at listed
  exact absurd listed (Finset.notMem_empty rank)

end Awaited

/-- The slot of a round that its root has joined depends on the others through their number only. -/
theorem standing_of_root {n root turn : Nat} {past : List Nat} {w : World} {made : Nat → Nat}
    (joined : root ∈ past) :
    Standing (.rooted root) n past w turn made ↔
      w.size = n ∧ (w.slots turn).box = (if past.length = n then [] else [made root]) ∧
        (w.slots turn).joined = past.length ∧ (past.length ≠ n → (w.cookies (made root)).src = root) := by
  have box : (Schedule.rooted root).box n past = if past.length = n then [] else [root] := by
    simp [Schedule.box, joined]
  constructor
  · intro standing
    refine ⟨standing.size, ?_, standing.joined (List.ne_nil_of_mem joined), fun more => ?_⟩
    · rw [standing.box, box]
      split <;> rfl
    · exact standing.src root (by rw [box, if_neg more]; exact List.mem_singleton_self root)
  · rintro ⟨size, inBox, joins, src⟩
    refine { size := size, box := ?_, joined := fun _ => joins, src := fun rank member => ?_ }
    · rw [inBox, box]
      split <;> rfl
    · rw [box] at member
      split at member
      · cases member
      · obtain rfl := List.mem_singleton.mp member
        exact src ‹_›

theorem Standing.perm {n root turn : Nat} {past past' : List Nat} {w : World} {made made' : Nat → Nat}
    (standing : Standing (.rooted root) n past w turn made) (joined : root ∈ past) (perm : past.Perm past')
    (same : made' root = made root) : Standing (.rooted root) n past' w turn made' := by
  rw [standing_of_root joined] at standing
  rw [standing_of_root (perm.mem_iff.mp joined), ← perm.length_eq, same]
  exact standing

/-! ### The rounds -/

/-- The transfers of the round of `root`. -/
def roundPlan (send : Nat → Option Buffer) (recv : Nat → BlockVector) (n t root : Nat) : RootedPlan :=
  gathervPlan (roundSend send recv root) recv n root (slotAt t root)

/-- The slots and cookies of the rounds when the barrier has opened `era` times, every rank has joined the
    first `joined rank` rounds, and its data is where it belongs in the first `delivered rank` of them.
    `cookie` names the cookies of the roots. A slot is in use from the time its root joins until the barrier
    has opened for the next round. -/
structure RoundSlots (send : Nat → Option Buffer) (recv : Nat → BlockVector) (n t : Nat) (origin : World)
    (era : Nat) (joined delivered cookie : Nat → Nat) (w : World) : Prop where
  size : w.size = n
  ticket : ∀ rank < n, w.ticket rank = ticketAt t (joined rank)
  unlocked : ∀ turn, (w.slots turn).mutex = none
  standing : ∀ root < n, root < joined root → era ≤ root + 1 →
    Standing (.rooted root) n (joiners n joined root) w (slotAt t root) fun _ => cookie root
  entry : ∀ root < n, root < joined root → era ≤ root + 1 → (w.slots (slotAt t root)).ticket = ticketAt t root
  published : ∀ root < n, root < joined root → era ≤ root + 1 →
    (roundPlan send recv n t root).agreed (w.slots (slotAt t root)).displs
  idle : ∀ turn, (∀ root < n, root < joined root → era ≤ root + 1 → slotAt t root ≠ turn) →
    (w.slots turn).box = []
  /-- A rank makes no cookie before its own round. -/
  free : ∀ rank < n, joined rank ≤ rank → (w.procs rank).free = (origin.procs rank).free
  next : origin.next ≤ w.next
  names : ∀ root < n, root < joined root → cookie root ∈ (origin.procs root).free ∨
    origin.next ≤ cookie root ∧ cookie root < w.next
  distinct : ∀ root < n, root < joined root → ∀ other < n, other < joined other →
    cookie root = cookie other → root = other
  made : ∀ root < n, root < joined root → (w.cookies (cookie root)).stable =
    (((roundPlan send recv n t root).offer root).cookie root (n - 1 : Nat)).stable
  counts : ∀ root < n, root < joined root →
    (w.cookies (cookie root)).count = ((roundPlan send recv n t root).offer root).count
  errors : ∀ root < n, root < joined root → (w.cookies (cookie root)).err = 0
  busy : ∀ root < n, root < joined root → (w.cookies (cookie root)).busy = awaited n delivered root

section RoundSlots

variable {vm : ProcessVm} {args : Nat → AllgathervArgs} {send : Nat → Option Buffer}
  {recv : Nat → BlockVector} {n t era : Nat} {origin w w' : World} {joined delivered cookie : Nat → Nat}

namespace RoundSlots

/-- Nobody has done anything. -/
theorem start {s : Sys} (ready : s.Ready n t) (unlocked : ∀ turn, (s.world.slots turn).mutex = none)
    (idle : ∀ turn, (s.world.slots turn).box = []) :
    RoundSlots send recv n t s.world 0 (fun _ => 0) (fun _ => 0) id s.world where
  size := ready.size
  ticket := ready.ticket
  unlocked := unlocked
  standing := fun _ _ impossible => absurd impossible (Nat.not_lt_zero _)
  entry := fun _ _ impossible => absurd impossible (Nat.not_lt_zero _)
  published := fun _ _ impossible => absurd impossible (Nat.not_lt_zero _)
  idle := fun turn _ => idle turn
  free := fun _ _ _ => rfl
  next := le_rfl
  names := fun _ _ impossible => absurd impossible (Nat.not_lt_zero _)
  distinct := fun _ _ impossible => absurd impossible (Nat.not_lt_zero _)
  made := fun _ _ impossible => absurd impossible (Nat.not_lt_zero _)
  counts := fun _ _ impossible => absurd impossible (Nat.not_lt_zero _)
  errors := fun _ _ impossible => absurd impossible (Nat.not_lt_zero _)
  busy := fun _ _ impossible => absurd impossible (Nat.not_lt_zero _)

/-- When the barrier opens everybody has joined the round before, so its slot is idle again. -/
theorem release (slots : RoundSlots send recv n t origin era joined delivered cookie w)
    (everybody : ∀ rank < n, era ≤ joined rank) :
    RoundSlots send recv n t origin (era + 1) joined delivered cookie w :=
  { slots with
    standing := fun root valid opened current => slots.standing root valid opened (by omega)
    entry := fun root valid opened current => slots.entry root valid opened (by omega)
    published := fun root valid opened current => slots.published root valid opened (by omega)
    idle := by
      intro turn unused
      by_cases before : ∃ root < n, root + 1 = era ∧ slotAt t root = turn
      · obtain ⟨root, valid, rfl, rfl⟩ := before
        have empty : (Schedule.rooted root).box n (joiners n joined root) = [] := by
          rw [Schedule.box, if_pos (length_joiners_full everybody)]
        rw [(slots.standing root valid (everybody root valid) le_rfl).box, empty, List.map_nil]
      · refine slots.idle turn fun root valid opened current same => ?_
        have last : root + 1 = era := by
          by_contra later
          exact unused root valid opened (by omega) same
        exact before ⟨root, valid, last, same⟩ }

/-- The cookie of a root offers its buffer. -/
theorem offers (slots : RoundSlots send recv n t origin era joined delivered cookie w) {root : Nat} (valid : root < n)
    (opened : root < joined root) :
    (w.cookies (cookie root)).Offers ((roundPlan send recv n t root).offer root) where
  buf := Cookie.buf_of_stable (slots.made root valid opened)
  iovec := Cookie.iovec_of_stable (slots.made root valid opened)
  size := Cookie.size_of_stable (slots.made root valid opened)
  count := slots.counts root valid opened

theorem owner (slots : RoundSlots send recv n t origin era joined delivered cookie w) {root : Nat} (valid : root < n)
    (opened : root < joined root) : (w.cookies (cookie root)).owner = root :=
  Cookie.owner_of_stable (slots.made root valid opened)

theorem src (slots : RoundSlots send recv n t origin era joined delivered cookie w) (limit : n ≤ 10000) {root : Nat}
    (valid : root < n) (opened : root < joined root) : (w.cookies (cookie root)).src = root :=
  (Cookie.src_of_stable (slots.made root valid opened)).trans (Offer.cookie_src _ (by omega) _)

/-- Only the use of cookies and the lists of processes that have joined their own round change, and data is
    delivered. -/
theorem frame {delivered' : Nat → Nat}
    (slots : RoundSlots send recv n t origin era joined delivered cookie w) (size : w'.size = w.size)
    (ticket : w'.ticket = w.ticket) (same : w'.slots = w.slots) (next : w'.next = w.next)
    (free : ∀ rank < n, joined rank ≤ rank → (w'.procs rank).free = (w.procs rank).free)
    (stable : ∀ id, (w'.cookies id).stable = (w.cookies id).stable)
    (counts : ∀ root < n, root < joined root →
      (w'.cookies (cookie root)).count = (w.cookies (cookie root)).count)
    (errors : ∀ id, (w'.cookies id).err = (w.cookies id).err)
    (busy : ∀ root < n, root < joined root → (w'.cookies (cookie root)).busy = awaited n delivered' root) :
    RoundSlots send recv n t origin era joined delivered' cookie w' where
  size := size.trans slots.size
  ticket := by
    rw [ticket]
    exact slots.ticket
  unlocked := by
    rw [same]
    exact slots.unlocked
  standing := by
    intro root valid opened current
    have before := slots.standing root valid opened current
    exact
      { size := size.trans before.size
        box := by rw [same, before.box]
        joined := by
          rw [same]
          exact before.joined
        src := fun rank member => (Cookie.src_of_stable (stable _)).trans (before.src rank member) }
  entry := by
    rw [same]
    exact slots.entry
  published := by
    rw [same]
    exact slots.published
  idle := by
    rw [same]
    exact slots.idle
  free := fun rank valid before => (free rank valid before).trans (slots.free rank valid before)
  next := by
    rw [next]
    exact slots.next
  names := by
    rw [next]
    exact slots.names
  distinct := slots.distinct
  made := fun root valid opened => (stable _).trans (slots.made root valid opened)
  counts := fun root valid opened => (counts root valid opened).trans (slots.counts root valid opened)
  errors := fun root valid opened => (errors _).trans (slots.errors root valid opened)
  busy := busy

/-- A rank delivers its data through the root's cookie. -/
theorem deliver (slots : RoundSlots send recv n t origin era joined delivered cookie w)
    (arguments : AllgathervArguments args send recv n) (copies : CopiesAll vm) {self root : Nat}
    (limit : n ≤ 10000) (valid : self < n) (rootValid : root < n) (notRoot : self ≠ root)
    (before : delivered self = root) (opened : root < joined root) (current : era ≤ root + 1) :
    ∃ moved, Performs vm ((roundPlan send recv n t root).pull self (cookie root)) self
        ((roundPlan send recv n t root).copy self) w moved ∧
      RoundSlots send recv n t origin era joined (Function.update delivered self (root + 1)) cookie
        moved.world := by
  obtain ⟨moved, performs, counted⟩ := (gathervPlan_sound copies (arguments.round rootValid)
    (arguments.fits rootValid) (slotAt t root)).pull self valid notRoot w (cookie root)
    (slots.offers rootValid opened) (slots.published root rootValid opened current)
  refine ⟨moved, performs, ?_⟩
  obtain ⟨id, impossible, _⟩ | ⟨_, midway⟩ := Action.exec_cases performs.exec
  · cases impossible
  have through : ((gathervPlan (roundSend send recv root) recv n root (slotAt t root)).pull self
    (cookie root)).transfer = some (cookie root) := rfl
  rw [through] at midway
  have others : ∀ other < n, other < joined other → other ≠ root →
      moved.world.cookies (cookie other) = w.cookies (cookie other) := by
    intro other otherValid otherOpened different
    refine midway.others _ fun equal => different ?_
    exact (slots.distinct root rootValid opened other otherValid otherOpened (Option.some.inj equal)).symm
  refine slots.frame midway.size midway.ticket performs.slots midway.next (fun rank _ _ => midway.free rank)
    midway.stable (fun other otherValid otherOpened => ?_)
    (Action.exec_err ((gathervPlan_checked _).pull _ _) performs.exec performs.ret)
    (fun other otherValid otherOpened => ?_)
  · by_cases same : other = root
    · subst same
      exact counted.trans (slots.counts other otherValid otherOpened).symm
    · rw [others other otherValid otherOpened same]
  · by_cases same : other = root
    · subst same
      have few := awaited_le n delivered other
      have one := awaited_delivers valid notRoot before
      rw [midway.busy _ rfl, slots.busy other otherValid otherOpened, int16_of_range (by omega) (by omega)]
      omega
    · rw [others other otherValid otherOpened same, awaited_other before same]
      exact slots.busy other otherValid otherOpened

/-- A rank has waited for the cookie of a root. -/
theorem finalize (slots : RoundSlots send recv n t origin era joined delivered cookie w) {root : Nat} (valid : root < n)
    (opened : root < joined root) :
    RoundSlots send recv n t origin era joined delivered cookie (w.finalize (cookie root)) := by
  have kept : ∀ id, ((w.finalize (cookie root)).cookies id) =
      { w.cookies id with used := ((w.finalize (cookie root)).cookies id).used } := by
    intro id
    by_cases same : id = cookie root
    · subst same
      simp
    · simp [same]
  refine slots.frame rfl rfl rfl rfl (fun rank rankValid before => ?_)
    (fun id => (congrArg Cookie.stable (kept id) :)) (fun root _ _ => (congrArg Cookie.count (kept _) :))
    (fun id => (congrArg Cookie.err (kept id) :)) (fun other otherValid otherOpened =>
      (congrArg Cookie.busy (kept _) :).trans (slots.busy other otherValid otherOpened))
  rw [finalize_procs_of_ne]
  rw [slots.owner valid opened]
  rintro rfl
  omega

end RoundSlots

end RoundSlots

/-! ### What the ranks have left to do -/

/-- How many slots a rank has joined, in how many rounds its data is where it belongs, and for how many
    requests it has waited. -/
structure Progress where
  joined : Nat
  delivered : Nat
  waited : Nat

/-- What the ranks have left to do in their rounds. Everybody waits for the cookie of the root, and whoever is
    not the root delivers its data through it. -/
structure RoundRanks (send : Nat → Option Buffer) (recv : Nat → BlockVector) (n t : Nat)
    (progress : Nat → Progress) (cookie : Nat → Nat) (ranks : Nat → RankState) : Prop where
  pos : ∀ rank < n, (ranks rank).pos = (progress rank).joined
  cont : ∀ rank < n, (ranks rank).cont =
    if (progress rank).delivered < (progress rank).joined then
      [(roundPlan send recv n t (progress rank).delivered).pull rank (cookie (progress rank).delivered)]
    else []
  requests : ∀ rank < n, (ranks rank).requests =
    if (progress rank).waited < (progress rank).joined then [cookie (progress rank).waited] else []
  clean : ∀ rank, ∀ ret ∈ (ranks rank).rets, ret = mpiSuccess

/-- The copies of `done`, pairs of a root and a rank, have been made. -/
structure RoundData (send : Nat → Option Buffer) (recv : Nat → BlockVector) (n t : Nat) (mem : Memory)
    (delivered : Nat → Nat) (done : List (Nat × Nat)) (mem' : Memory) : Prop where
  memory : mem' = copyEach mem (fun pair => (roundPlan send recv n t pair.1).copy pair.2) done
  once : done.Nodup
  covered : ∀ root rank, (root, rank) ∈ done ↔ rank < n ∧ root < delivered rank

/-- Whoever has waited in its own round has got everybody's data. -/
def Heard (n : Nat) (progress : Nat → Progress) : Prop :=
  ∀ root < n, root < (progress root).waited → ∀ rank < n, root < (progress rank).delivered

/-- Data is never taken back. -/
theorem Heard.update {n : Nat} {progress : Nat → Progress} (heard : Heard n progress) {self : Nat} {after : Progress}
    (grows : (progress self).delivered ≤ after.delivered)
    (own : self < after.waited →
      self < (progress self).waited ∨ ∀ rank < n, self < (progress rank).delivered) :
    Heard n (Function.update progress self after) := by
  intro root rootValid waited rank valid
  have before : ∀ rank < n, root < (progress rank).delivered := by
    by_cases same : root = self
    · subst same
      rw [Function.update_self] at waited
      exact (own waited).elim (heard root rootValid) id
    · rw [Function.update_of_ne same] at waited
      exact heard root rootValid waited
  by_cases same : rank = self
  · subst same
    rw [Function.update_self]
    exact (before rank valid).trans_le grows
  · rw [Function.update_of_ne same]
    exact before rank valid

section RoundParts

variable {send : Nat → Option Buffer} {recv : Nat → BlockVector} {n t : Nat}

/-- One rank takes a step. -/
theorem RoundRanks.update {progress : Nat → Progress} {cookie : Nat → Nat} {ranks : Nat → RankState}
    (rounds : RoundRanks send recv n t progress cookie ranks) {self : Nat} {after : Progress}
    {state : RankState} (pos : state.pos = after.joined)
    (cont : state.cont = if after.delivered < after.joined then
      [(roundPlan send recv n t after.delivered).pull self (cookie after.delivered)] else [])
    (requests : state.requests = if after.waited < after.joined then [cookie after.waited] else [])
    (clean : ∀ ret ∈ state.rets, ret = mpiSuccess) :
    RoundRanks send recv n t (Function.update progress self after) cookie
      (Function.update ranks self state) where
  pos := by
    intro rank valid
    by_cases own : rank = self
    · subst own
      simpa using pos
    · simpa [own] using rounds.pos rank valid
  cont := by
    intro rank valid
    by_cases own : rank = self
    · subst own
      simpa using cont
    · simpa [own] using rounds.cont rank valid
  requests := by
    intro rank valid
    by_cases own : rank = self
    · subst own
      simpa using requests
    · simpa [own] using rounds.requests rank valid
  clean := by
    intro rank
    by_cases own : rank = self
    · subst own
      simpa using clean
    · simpa [own] using rounds.clean rank

/-- Only the cookies of the rounds that have been joined matter. -/
theorem RoundRanks.rename {progress : Nat → Progress} {cookie cookie' : Nat → Nat} {ranks : Nat → RankState}
    (rounds : RoundRanks send recv n t progress cookie ranks)
    (same : ∀ rank < n, ∀ root < (progress rank).joined, cookie' root = cookie root) :
    RoundRanks send recv n t progress cookie' ranks where
  pos := rounds.pos
  cont := by
    intro rank valid
    rw [rounds.cont rank valid]
    split
    case isTrue owes => rw [same rank valid _ owes]
    case isFalse => rfl
  requests := by
    intro rank valid
    rw [rounds.requests rank valid]
    split
    case isTrue owes => rw [same rank valid _ owes]
    case isFalse => rfl
  clean := rounds.clean

/-- The data of one more rank is where it belongs. -/
theorem RoundData.deliver {mem mem' : Memory} {delivered : Nat → Nat} {done : List (Nat × Nat)}
    (data : RoundData send recv n t mem delivered done mem') {self root : Nat} (valid : self < n)
    (before : delivered self = root) :
    RoundData send recv n t mem (Function.update delivered self (root + 1)) (done ++ [(root, self)])
      (copyAll mem' ((roundPlan send recv n t root).copy self).source
        ((roundPlan send recv n t root).copy self).target) where
  memory := by
    rw [data.memory, copyEach_append_singleton]
  once := by
    refine List.nodup_append'.mpr ⟨data.once, List.nodup_singleton _, ?_⟩
    rw [List.disjoint_singleton]
    intro member
    have early := ((data.covered root self).mp member).2
    omega
  covered := by
    intro root' rank
    rw [List.mem_append, data.covered, List.mem_singleton, Prod.mk.injEq]
    by_cases own : rank = self
    · subst own
      rw [Function.update_self, before]
      simp only [valid, true_and, and_true]
      omega
    · simp [own]

end RoundParts

/-! ### The data -/

section Copies

variable {args : Nat → AllgathervArgs} {send : Nat → Option Buffer} {recv : Nat → BlockVector} {n t : Nat}

/-- What is copied in a round: nothing for the root in place, and otherwise a contribution into its block. -/
theorem roundPlan_copy (arguments : AllgathervArguments args send recv n) (root : Nat) {rank : Nat}
    (valid : rank < n) :
    ((rank = root ∧ send rank = none) ∧ (roundPlan send recv n t root).copy rank = { source := [], target := [] }) ∨
      (¬ (rank = root ∧ send rank = none) ∧ (roundPlan send recv n t root).copy rank =
        { source := allgathervSource send recv rank, target := (recv root).block root rank }) := by
  cases sends : send rank with
  | some buffer =>
      have contributes : Contributes (roundSend send recv root) root rank := by
        rintro rfl
        simpa [roundSend, sends] using (arguments.sendValid rank valid buffer sends).2
      refine Or.inr ⟨by simp, ?_⟩
      simp only [roundPlan, gathervPlan, if_pos contributes, allgathervSource, roundSend, sends]
  | none =>
      by_cases own : rank = root
      · subst own
        have inPlace : ¬ Contributes (roundSend send recv rank) rank rank := fun contributes =>
          contributes rfl (by simp [roundSend, sends])
        refine Or.inl ⟨⟨rfl, rfl⟩, ?_⟩
        simp only [roundPlan, gathervPlan, if_neg inPlace]
      · obtain ⟨a, address⟩ := arguments.recvGiven rank valid
        have contributes : Contributes (roundSend send recv root) root rank := fun same => absurd same own
        refine Or.inr ⟨by simp [own], ?_⟩
        simp only [roundPlan, gathervPlan, if_pos contributes, allgathervSource, roundSend, sends, if_neg own,
          BlockVector.view_own address]

theorem block_disjoint_of_rank (arguments : AllgathervArguments args send recv n) {owner other : Nat}
    (valid : owner < n) (different : owner ≠ other) (rank rank' : Nat) :
    ((recv owner).block owner rank).Disjoint ((recv other).block other rank') := by
  obtain ⟨a, address⟩ := arguments.recvGiven owner valid
  exact disjoint_of_region (recv owner).datatype.wellFormed (recv other).datatype.wellFormed
    (Pointer.region_ne different (by simp [address])) _ _ _ _

/-- A contribution is not written into by any copy but the one that fetches it. -/
theorem allgathervSource_disjoint (arguments : AllgathervArguments args send recv n) {rank root other : Nat}
    (valid : rank < n) (rootValid : root < n) (otherValid : other < n)
    (foreign : ¬ (rank = root ∧ send rank = none ∧ rank = other)) :
    (allgathervSource send recv rank).Disjoint ((recv root).block root other) := by
  cases sends : send rank with
  | some buffer =>
      simp only [allgathervSource, sends]
      by_cases own : rank = root
      · subst own
        exact arguments.apart rank valid buffer sends other otherValid
      · obtain ⟨sendValid, _⟩ := arguments.sendValid rank valid buffer sends
        let blocks : Buffer := { buf := (recv root).buf, count := 0, datatype := (recv root).datatype }
        exact Buffer.disjoint_of_rank buffer blocks own _ ((recv root).displs other) _ _ sendValid.given
  | none =>
      simp only [allgathervSource, sends]
      by_cases own : rank = root
      · subst own
        refine (recv rank).block_disjoint rank (arguments.disjoint rank valid rank valid other otherValid ?_)
        exact fun same => foreign ⟨rfl, sends, same⟩
      · exact block_disjoint_of_rank arguments valid own rank other

/-- The copies of all rounds can be made in any order. -/
theorem roundPlan_independent (arguments : AllgathervArguments args send recv n) :
    Independent (fun pair : Nat × Nat => (roundPlan send recv n t pair.1).copy pair.2)
      (List.range n ×ˢ List.range n) where
  sameLength := by
    rintro ⟨root, rank⟩ member
    obtain ⟨rootValid, valid⟩ := List.mem_product.mp member
    exact (gathervPlan_independent (arguments.round (List.mem_range.mp rootValid)) _).sameLength rank valid
  targets := by
    rintro ⟨root, rank⟩ member ⟨root', rank'⟩ member' different
    obtain ⟨rootValid, valid⟩ := List.mem_product.mp member
    obtain ⟨_, valid'⟩ := List.mem_product.mp member'
    by_cases same : root = root'
    · subst same
      exact (gathervPlan_independent (arguments.round (List.mem_range.mp rootValid)) _).targets rank valid rank'
        valid' fun equal => different (by rw [equal])
    · rcases roundPlan_copy (t := t) arguments root (List.mem_range.mp valid) with ⟨_, copy⟩ | ⟨_, copy⟩
      · simp [copy]
      · rcases roundPlan_copy (t := t) arguments root' (List.mem_range.mp valid') with
          ⟨_, copy'⟩ | ⟨_, copy'⟩
        · simp [copy']
        · simp only [copy, copy']
          exact block_disjoint_of_rank arguments (List.mem_range.mp rootValid) same rank rank'
  sources := by
    rintro ⟨root, rank⟩ member ⟨root', rank'⟩ member' _
    obtain ⟨_, valid⟩ := List.mem_product.mp member
    obtain ⟨rootValid', valid'⟩ := List.mem_product.mp member'
    rcases roundPlan_copy (t := t) arguments root (List.mem_range.mp valid) with ⟨_, copy⟩ | ⟨_, copy⟩
    · simp [copy]
    · rcases roundPlan_copy (t := t) arguments root' (List.mem_range.mp valid') with
        ⟨_, copy'⟩ | ⟨notOwn, copy'⟩
      · simp [copy']
      · simp only [copy, copy']
        refine allgathervSource_disjoint arguments (List.mem_range.mp valid) (List.mem_range.mp rootValid')
          (List.mem_range.mp valid') ?_
        rintro ⟨rfl, inPlace, rfl⟩
        exact notOwn ⟨rfl, inPlace⟩

/-- A rank in whose round everybody has delivered has everybody's contribution. -/
theorem RoundData.holds {mem mem' : Memory} {delivered : Nat → Nat} {done : List (Nat × Nat)}
    (data : RoundData send recv n t mem delivered done mem') (arguments : AllgathervArguments args send recv n)
    (few : ∀ rank < n, delivered rank ≤ n) {root rank : Nat} (rootValid : root < n) (valid : rank < n)
    (got : root < delivered rank) :
    Holds mem' ((recv root).block root rank) (readAll mem (allgathervSource send recv rank)) := by
  rw [data.memory]
  rcases roundPlan_copy (t := t) arguments root valid with ⟨⟨rfl, inPlace⟩, _⟩ | ⟨_, copy⟩
  · -- in place nobody writes into the root's own block
    have source : allgathervSource send recv rank = (recv rank).block rank rank := by
      simp only [allgathervSource, inPlace]
    rw [source]
    refine Holds.of_readAll (readAll_copyEach_of_disjoint mem done ?_)
    rintro ⟨root', rank'⟩ listed
    obtain ⟨valid', early⟩ := (data.covered root' rank').mp listed
    have rootValid' : root' < n := early.trans_le (few rank' valid')
    rcases roundPlan_copy (t := t) arguments root' valid' with ⟨_, copy'⟩ | ⟨notOwn, copy'⟩
    · simp [copy']
    · simp only [copy']
      rw [← source]
      refine allgathervSource_disjoint arguments valid rootValid' valid' ?_
      rintro ⟨rfl, _, rfl⟩
      exact notOwn ⟨rfl, inPlace⟩
  · have holds := (roundPlan_independent (t := t) arguments).holds_target (i := (root, rank))
      (fun pair listed => ?_) data.once mem ((data.covered root rank).mpr ⟨valid, got⟩)
    · simpa only [copy] using holds
    · obtain ⟨root', rank'⟩ := pair
      obtain ⟨valid', early⟩ := (data.covered root' rank').mp listed
      exact List.mem_product.mpr ⟨List.mem_range.mpr (early.trans_le (few rank' valid')), List.mem_range.mpr valid'⟩

/-- What lies outside of the receive buffers is not written. -/
theorem RoundData.untouched {mem mem' : Memory} {delivered : Nat → Nat} {done : List (Nat × Nat)}
    (data : RoundData send recv n t mem delivered done mem') (arguments : AllgathervArguments args send recv n)
    (few : ∀ rank < n, delivered rank ≤ n) {location : Loc}
    (outside : ∀ root < n, ∀ rank < n, location ∉ (recv root).block root rank) : mem' location = mem location := by
  rw [data.memory]
  refine copyEach_apply_of_notMem mem done ?_
  rintro ⟨root, rank⟩ listed
  obtain ⟨valid, early⟩ := (data.covered root rank).mp listed
  have rootValid : root < n := early.trans_le (few rank valid)
  rcases roundPlan_copy (t := t) arguments root valid with ⟨_, copy⟩ | ⟨_, copy⟩
  · simp [copy]
  · simpa only [copy] using outside root rootValid rank valid

end Copies

end Umpi
