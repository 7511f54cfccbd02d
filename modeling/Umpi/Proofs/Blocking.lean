/-
Module: Umpi.Proofs.Blocking
Layer: Proofs
Purpose: What a failed blocking exchange leaves behind. The process that comes second joins the cookie and makes
  the transfer. When it fails, the call drops its request without `leave`, and `used_` stays 1. `Messages` has
  the books of all cookies in runs of messages, failed ones included; `Callers.Sound` says what a blocking call
  has; and `Outlook` follows the two calls of one exchange.
Imports: Umpi.Proofs.Recycling, Umpi.Proofs.Completion, Umpi.Model.Blocking
Trusted boundary: none
Main exports: Messages, Sys.Keeps, Callers.Sound, Outlook, failed_exchange_keeps_cookie,
  failed_exchange_keeps_cookie_recvFirst, truncated_exchange_keeps_cookie
Open obligations: none
-/
import Umpi.Proofs.Recycling
import Umpi.Proofs.Completion
import Umpi.Model.Blocking

namespace Umpi

open Sys

/-! ### Message calls -/

/-- A cookie of a message: it waits for its transfer, and nothing has failed, or the transfer has been made. -/
def Cookie.Pristine (cookie : Cookie) : Prop := cookie.busy = 0 ∨ cookie.busy = 1 ∧ cookie.err = mpiSuccess

/-- A message call of `caller` has left the frame. -/
structure Called (s s' : Sys) (caller : Nat) (frame : Frame) : Prop where
  valid : caller < s.world.size
  idle : (s.ranks caller).cont = []
  ranks : s'.ranks = Function.update s.ranks caller ((s.ranks caller).post frame)
  cases : frame = Frame.failed mpiFail ∧ s'.world = s.world ∧ s'.joins = s.joins ∨ Posted s s' caller
  checked : ∀ action ∈ frame.cont, action.Checked
  pristine : ∀ id, (s.world.cookies id).Pristine → (s'.world.cookies id).Pristine

section Calls

variable {s s' : Sys} {self : Nat}

/-- A call that is rejected changes nothing but what the rank has been returned. -/
theorem Called.rejected (posted : s.post self (s.world, Frame.failed mpiFail) = .ok s') :
    Called s s' self (Frame.failed mpiFail) := by
  obtain ⟨valid, idle, rfl⟩ := post_cases posted
  exact
    { valid := valid
      idle := idle
      ranks := rfl
      cases := Or.inl ⟨rfl, rfl, rfl⟩
      checked := fun action listed => absurd listed List.not_mem_nil
      pristine := fun _ => id }

/-- A new cookie, and one that is joined. -/
theorem recvRequest_pristine {w : World} (buf : Loc) (count : Int) (iovec : Iovec) (source tag : Int) {id : Nat}
    (before : (w.cookies id).Pristine) : ((recvRequest w self buf count iovec source tag).1.cookies id).Pristine := by
  unfold recvRequest
  dsimp only
  split
  case h_1 found _ =>
    by_cases same : id = found
    · subst same
      simpa [World.join, Cookie.Pristine] using before
    · simpa [same] using before
  case h_2 =>
    simp only [World.setProc_cookies, World.createRequest_cookies]
    by_cases same : id = (w.createRequest self (Cookie.make self buf iovec count count source tag 1)).1
    · rw [same, Function.update_self]
      exact Or.inr ⟨rfl, rfl⟩
    · rwa [Function.update_of_ne same]

theorem sendRequest_pristine {w : World} (dest : Nat) (buf : Loc) (count : Int) (iovec : Iovec) (tag : Int) {id : Nat}
    (before : (w.cookies id).Pristine) : ((sendRequest w self dest buf count iovec tag).1.cookies id).Pristine := by
  unfold sendRequest
  dsimp only
  split
  case h_1 found _ =>
    by_cases same : id = found
    · subst same
      simpa [World.join, Cookie.Pristine] using before
    · simpa [same] using before
  case h_2 =>
    simp only [World.setProc_cookies, World.createRequest_cookies]
    by_cases same : id = (w.createRequest dest (Cookie.make self buf iovec count count self tag 1)).1
    · rw [same, Function.update_self]
      exact Or.inr ⟨rfl, rfl⟩
    · rwa [Function.update_of_ne same]

/-- `MPI_Irecv`. -/
theorem called_of_recv {buf : Pointer} {count : Int} {datatype : MpiDatatype} {source tag : Int} {comm : MpiComm}
    (todo : (s.ranks self).cont = [] → (s.ranks self).todo = [])
    (posted : s.post self (mpiIrecv s.world self buf count datatype source tag comm) = .ok s') :
    Called s s' self (mpiIrecv s.world self buf count datatype source tag comm).2 := by
  unfold mpiIrecv at posted ⊢
  split at posted
  · exact Called.rejected posted
  · split at posted
    case isTrue refused =>
      simp only [if_pos refused]
      exact Called.rejected posted
    case isFalse accepted =>
      simp only [if_neg accepted]
      obtain ⟨valid, idle, rfl⟩ := post_cases posted
      refine
        { valid := valid
          idle := idle
          ranks := rfl
          cases := Or.inr (recvRequest_posted _ _ _ _ _ (todo idle))
          checked := ?_
          pristine := fun _ => recvRequest_pristine _ _ _ _ _ }
      intro action listed
      unfold recvRequest at listed
      dsimp only at listed
      split at listed
      · rw [List.mem_singleton.mp listed]
        trivial
      · exact absurd listed List.not_mem_nil

/-- `MPI_Issend`. -/
theorem called_of_send {buf : Pointer} {count : Int} {datatype : MpiDatatype} {dest tag : Int} {comm : MpiComm}
    (todo : (s.ranks self).cont = [] → (s.ranks self).todo = [])
    (posted : s.post self (mpiIssend s.world self buf count datatype dest tag comm) = .ok s') :
    Called s s' self (mpiIssend s.world self buf count datatype dest tag comm).2 := by
  unfold mpiIssend at posted ⊢
  split at posted
  · exact Called.rejected posted
  · split at posted
    case isTrue refused =>
      simp only [if_pos refused]
      exact Called.rejected posted
    case isFalse accepted =>
      simp only [if_neg accepted]
      obtain ⟨valid, idle, rfl⟩ := post_cases posted
      refine
        { valid := valid
          idle := idle
          ranks := rfl
          cases := Or.inr (sendRequest_posted _ _ _ _ _ (todo idle))
          checked := ?_
          pristine := fun _ => sendRequest_pristine _ _ _ _ _ }
      intro action listed
      unfold sendRequest at listed
      dsimp only at listed
      split at listed
      · rw [List.mem_singleton.mp listed]
        trivial
      · exact absurd listed List.not_mem_nil

end Calls

/-! ### The books of messages -/

/-- The cookies of messages, of which every one has at most its owner and one process that has joined it. -/
structure Messages (n : Nat) (pool : List Nat) (s : Sys) : Prop where
  tended : Tended messagesOnly n pool s
  few : ∀ id, held n s.ranks id ≤ 2
  pristine : ∀ id, (s.world.cookies id).Pristine
  short : ∀ rank, (s.ranks rank).cont.length ≤ 1
  checked : ∀ rank, ∀ action ∈ (s.ranks rank).cont, action.Checked

/-- What a step of `actor` leaves alone: the other ranks, the owner of a cookie that is used, and a cookie that
    is used and done with, on which nobody gets another handle. -/
structure Sys.Keeps (n : Nat) (s s' : Sys) (actor : Nat) : Prop where
  others : ∀ rank ≠ actor, s'.ranks rank = s.ranks rank
  owner : ∀ id, 0 < held n s.ranks id → (s'.world.cookies id).owner = (s.world.cookies id).owner
  settled : ∀ id, 0 < held n s.ranks id → (s.world.cookies id).busy = 0 →
    (s'.world.cookies id).busy = 0 ∧ (s'.world.cookies id).err = (s.world.cookies id).err ∧
      held n s'.ranks id ≤ held n s.ranks id

namespace Messages

variable {n : Nat} {pool : List Nat} {s s' : Sys} {self id : Nat}

theorem start (mem : Memory) (several : 0 < n) : Messages n [] (Sys.init n mem) where
  tended := Tended.start messagesOnly mem several
  few := fun _ => (Finset.sum_eq_zero fun _ _ => rfl).trans_le (Nat.zero_le 2)
  pristine := fun _ => Or.inl rfl
  short := fun _ => Nat.zero_le 1
  checked := fun _ _ listed => absurd listed List.not_mem_nil

/-- A cookie that is not done with is in a queue, or has been taken from one. -/
theorem placed (messages : Messages n pool s) (unspent : ¬ Spent n s id) :
    (∃ rank, id ∈ (s.world.procs rank).inbox ∨ id ∈ (s.world.procs rank).outbox) ∧ Account n s id 1 1 ∨
      Account n s id 0 n := by
  have tended := messages.tended
  have allocated : id < s.world.next := by
    by_contra new
    exact unspent (tended.spent id (Or.inr (Nat.le_of_not_lt new)))
  obtain ⟨shelf, listed⟩ := (tended.shelved.mem_iff id).mpr allocated
  rcases shelf with (turn | rank | rank | rank) | rank | rank | _
  · obtain ⟨position, _, _, call, _, _, _, called, _⟩ := tended.boxed (fun _ _ _ => rfl) listed
    cases called
  · exact Or.inr (tended.settled rank id (Or.inl listed))
  · exact Or.inr (tended.settled rank id (Or.inr listed))
  · exact absurd (tended.spent id (Or.inl (Or.inl ⟨rank, listed⟩))) unspent
  · exact Or.inl ⟨⟨rank, Or.inl listed⟩, tended.queued rank id (Or.inl listed)⟩
  · exact Or.inl ⟨⟨rank, Or.inr listed⟩, tended.queued rank id (Or.inr listed)⟩
  · exact absurd (tended.spent id (Or.inl (Or.inr listed))) unspent

theorem unspent_of_held (pos : 0 < held n s.ranks id) : ¬ Spent n s id := fun spent => by
  have none := spent.held
  omega

/-- The transfer of a message is the only one through its cookie. -/
theorem transfer (messages : Messages n pool s) (valid : self < n) {action : Action}
    (listed : action ∈ (s.ranks self).cont) (through : action.transfer = some id) :
    Account n s id 0 n ∧ (s.world.cookies id).busy = 1 ∧ due n s.ranks id = 1 := by
  have pos : due n s.ranks id ≠ 0 := fun none => notThrough_of_due_eq_zero none valid action listed through
  have few : (s.world.cookies id).busy ≤ 1 := by
    rcases messages.pristine id with done | ⟨waits, _⟩ <;> omega
  rcases messages.placed (fun spent => pos spent.due) with ⟨_, account⟩ | account
  · have busy := account.busy
    omega
  · have busy := account.busy
    refine ⟨account, ?_, ?_⟩ <;> omega

/-- A cookie that is used and done with has no transfer, and is in no queue. -/
theorem settled (messages : Messages n pool s) (pos : 0 < held n s.ranks id)
    (idle : (s.world.cookies id).busy = 0) :
    Account n s id 0 n ∧ due n s.ranks id = 0 ∧
      ∀ rank, id ∉ (s.world.procs rank).inbox ∧ id ∉ (s.world.procs rank).outbox := by
  have notQueued : ∀ rank, ¬ (id ∈ (s.world.procs rank).inbox ∨ id ∈ (s.world.procs rank).outbox) := by
    intro rank queued
    have busy := (messages.tended.queued rank id queued).busy
    omega
  rcases messages.placed (unspent_of_held pos) with ⟨⟨rank, queued⟩, _⟩ | account
  · exact absurd queued (notQueued rank)
  · have busy := account.busy
    exact ⟨account, by omega, fun rank => not_or.mp (notQueued rank)⟩

/-- The books do not say what ranks have been returned. -/
theorem same (tended : Tended messagesOnly n pool s) (several : 2 ≤ n) (world : s'.world = s.world)
    (joins : s'.joins = s.joins) (pos : ∀ rank, (s'.ranks rank).pos = (s.ranks rank).pos)
    (cont : ∀ rank, (s'.ranks rank).cont = (s.ranks rank).cont)
    (todo : ∀ rank, (s'.ranks rank).todo = (s.ranks rank).todo)
    (requests : ∀ rank, (s'.ranks rank).requests = (s.ranks rank).requests)
    (beyond : ∀ rank, n ≤ rank → s'.ranks rank = s.ranks rank) : Tended messagesOnly n pool s' := by
  have shelves : ∀ pool shelf, s'.shelved pool shelf = s.shelved pool shelf := by
    intro pool shelf
    rcases shelf with (turn | rank | rank | rank) | rank | rank | _ <;>
      simp [Sys.shelved, Sys.holds, world, todo]
  have placed : Placed s' := by
    refine tended.tickets.placed.rearranged [] List.nodup_nil (by rw [world]) (fun place _ => ?_)
      (List.Subperm.refl _) fun rank => ?_
    · exact shelves [] (.place place)
    · rw [cont, todo]
      exact tended.tickets.placed.moves rank
  have sameDue : ∀ id, due n s'.ranks id = due n s.ranks id :=
    fun id => Finset.sum_congr rfl fun rank _ => by rw [cont]
  have sameHeld : ∀ id, held n s'.ranks id = held n s.ranks id :=
    fun id => Finset.sum_congr rfl fun rank _ => by rw [requests]
  refine tended.update
    (tended.tickets.update placed (by rw [world]) (by rw [world]) (fun _ => by rw [world]) (fun _ => by rw [world]) pos
      joins) ?_ (by rw [world]) (by rw [world]) (fun _ => by rw [world]) (fun _ => by rw [world]) pos joins ?_ ?_
    (fun _ => by rw [world]; exact ⟨rfl, rfl⟩) ?_ ?_ ?_ beyond several
  · have shelved := tended.shelved
    unfold Shelved at shelved ⊢
    rw [show s'.shelved pool = s.shelved pool from funext (shelves pool), world]
    exact shelved
  · intro id expected most _ account
    exact account.kept (by rw [world]) (sameDue id) (sameHeld id) fun rank listed => by rwa [requests]
  · intro id spent
    exact ⟨⟨(sameHeld id).trans spent.held, (sameDue id).trans spent.due⟩, by rw [world]⟩
  · intro rank id listed
    rw [todo, world] at listed
    exact ⟨rank, listed⟩
  · intro id idle
    unfold Sys.Idle at idle
    rw [world] at idle
    exact Or.inl idle
  · intro rank
    rw [cont]
    exact tended.order rank

/-- A call that is rejected. -/
theorem rejected (messages : Messages n pool s) (several : 2 ≤ n) (valid : self < n) (idle : (s.ranks self).cont = [])
    (world : s'.world = s.world) (joins : s'.joins = s.joins)
    (ranks : s'.ranks = Function.update s.ranks self ((s.ranks self).post (Frame.failed mpiFail))) :
    Messages n pool s' ∧ s.Keeps n s' self := by
  have others : ∀ rank ≠ self, s'.ranks rank = s.ranks rank := by
    intro rank other
    rw [ranks, Function.update_of_ne other]
  have own : s'.ranks self = (s.ranks self).post (Frame.failed mpiFail) := by
    rw [ranks, Function.update_self]
  have cont : ∀ rank, (s'.ranks rank).cont = (s.ranks rank).cont := by
    intro rank
    by_cases mine : rank = self
    · rw [mine, own, idle]
      rfl
    · rw [others rank mine]
  have requests : ∀ rank, (s'.ranks rank).requests = (s.ranks rank).requests := by
    intro rank
    by_cases mine : rank = self
    · rw [mine, own]
      rfl
    · rw [others rank mine]
  have sameHeld : ∀ id, held n s'.ranks id = held n s.ranks id :=
    fun id => Finset.sum_congr rfl fun rank _ => by rw [requests]
  refine ⟨?_, ?_⟩
  · refine
      { tended := same messages.tended several world joins ?_ cont ?_ requests ?_
        few := ?_
        pristine := fun id => by
          rw [world]
          exact messages.pristine id
        short := fun rank => by
          rw [cont]
          exact messages.short rank
        checked := fun rank => by
          rw [cont]
          exact messages.checked rank }
    · intro rank
      by_cases mine : rank = self
      · rw [mine, own]
        rfl
      · rw [others rank mine]
    · intro rank
      by_cases mine : rank = self
      · rw [mine, own, messages.tended.tickets.placed.todo_eq_nil idle]
        rfl
      · rw [others rank mine]
    · intro rank outside
      exact others rank (by omega)
    · intro id
      rw [sameHeld]
      exact messages.few id
  · exact
      { others := others
        owner := fun id _ => by rw [world]
        settled := fun id _ done => by
          rw [world]
          exact ⟨done, rfl, (sameHeld id).le⟩ }

/-- A call that takes a cookie from a queue gets the second handle on it. -/
theorem takes (messages : Messages n pool s) (several : 2 ≤ n) (limit : n ≤ 10000) (valid : self < n)
    (idle : (s.ranks self).cont = []) {queue : Shelf} {target : Nat} (takes : Takes s s' self queue target id)
    (pristine : ∀ other, (s'.world.cookies other).Pristine)
    (checked : ∀ action ∈ (s'.ranks self).cont, action.Checked) :
    Messages n pool s' ∧ s.Keeps n s' self := by
  obtain ⟨action, transfers, ranks⟩ := takes.ranks
  have others : ∀ rank ≠ self, s'.ranks rank = s.ranks rank := by
    intro rank other
    rw [ranks, Function.update_of_ne other]
  have own : s'.ranks self = (s.ranks self).post (Frame.done id [action]) := by
    rw [ranks, Function.update_self]
  have account : Account n s id 1 1 := by
    rcases takes.queueOf with rfl | rfl
    · exact messages.tended.queued target id (Or.inl takes.found)
    · exact messages.tended.queued target id (Or.inr takes.found)
  have joined : ∀ other, held n s'.ranks other = held n s.ranks other + if id = other then 1 else 0 := by
    intro other
    rw [ranks]
    exact held_entered valid rfl other
  have owner : ∀ other, (s'.world.cookies other).owner = (s.world.cookies other).owner := by
    intro other
    by_cases same : other = id
    · rw [same, takes.owner]
    · rw [takes.others other same]
  refine ⟨?_, ?_⟩
  · refine
      { tended := messages.tended.takes several limit valid idle takes
        few := ?_
        pristine := pristine
        short := ?_
        checked := ?_ }
    · intro other
      rw [joined other]
      by_cases same : id = other
      · subst same
        have one := account.most
        rw [if_pos rfl]
        omega
      · rw [if_neg same]
        exact messages.few other
    · intro rank
      by_cases mine : rank = self
      · rw [mine, own]
        exact le_rfl
      · rw [others rank mine]
        exact messages.short rank
    · intro rank
      by_cases mine : rank = self
      · rw [mine]
        exact checked
      · rw [others rank mine]
        exact messages.checked rank
  · refine { others := others, owner := fun other _ => owner other, settled := ?_ }
    intro other _ done
    have different : other ≠ id := by
      rintro rfl
      have busy := account.busy
      omega
    rw [takes.others other different, joined other, if_neg (Ne.symm different)]
    exact ⟨done, rfl, le_rfl⟩

/-- A call that leaves a new cookie in a queue gets the first handle on it. -/
theorem queues (messages : Messages n pool s) (valid : self < n) (idle : (s.ranks self).cont = []) {queue : Shelf}
    {target : Nat} (queues : Queues s s' self queue target id)
    (pristine : ∀ other, (s'.world.cookies other).Pristine) :
    Messages n pool s' ∧ s.Keeps n s' self := by
  have others : ∀ rank ≠ self, s'.ranks rank = s.ranks rank := by
    intro rank other
    rw [queues.ranks, Function.update_of_ne other]
  have own : s'.ranks self = (s.ranks self).post (Frame.done id []) := by
    rw [queues.ranks, Function.update_self]
  have spent : Spent n s id := by
    rcases queues.free with ⟨free, _⟩ | ⟨_, _, rfl, _⟩
    · exact messages.tended.spent id (Or.inl (Or.inl ⟨target, free ▸ List.mem_cons_self⟩))
    · exact messages.tended.spent s.world.next (Or.inr le_rfl)
  have made : ∀ other, held n s'.ranks other = held n s.ranks other + if id = other then 1 else 0 := by
    intro other
    rw [queues.ranks]
    exact held_entered valid rfl other
  have different : ∀ other, 0 < held n s.ranks other → other ≠ id := by
    rintro other pos rfl
    have none := spent.held
    omega
  refine ⟨?_, ?_⟩
  · refine
      { tended := messages.tended.queues valid idle queues
        few := ?_
        pristine := pristine
        short := ?_
        checked := ?_ }
    · intro other
      rw [made other]
      by_cases same : id = other
      · subst same
        rw [if_pos rfl, spent.held]
        exact Nat.le_succ 1
      · rw [if_neg same]
        exact messages.few other
    · intro rank
      by_cases mine : rank = self
      · rw [mine, own]
        exact Nat.zero_le 1
      · rw [others rank mine]
        exact messages.short rank
    · intro rank
      by_cases mine : rank = self
      · rw [mine, own]
        exact fun action listed => absurd listed List.not_mem_nil
      · rw [others rank mine]
        exact messages.checked rank
  · refine { others := others, owner := ?_, settled := ?_ }
    · intro other pos
      rw [queues.others other (different other pos)]
    · intro other pos done
      have apart := different other pos
      rw [queues.others other apart, made other, if_neg (Ne.symm apart)]
      exact ⟨done, rfl, le_rfl⟩

/-- A message call. -/
theorem called (messages : Messages n pool s) (several : 2 ≤ n) (limit : n ≤ 10000) {frame : Frame}
    (called : Called s s' self frame) : Messages n pool s' ∧ s.Keeps n s' self := by
  have valid : self < n := messages.tended.tickets.size ▸ called.valid
  have pristine := fun other => called.pristine other (messages.pristine other)
  have own : (s'.ranks self).cont = frame.cont := by
    rw [called.ranks, Function.update_self]
    rfl
  rcases called.cases with ⟨rejected, world, joins⟩ | ⟨queue, target, id, taken⟩ | ⟨queue, target, id, queued⟩
  · exact messages.rejected several valid called.idle world joins (rejected ▸ called.ranks)
  · exact messages.takes several limit valid called.idle taken pristine (own ▸ called.checked)
  · exact messages.queues valid called.idle queued pristine

/-- A rank makes its transfer, whether that works or not. -/
theorem act (messages : Messages n pool s) (several : 2 ≤ n) (limit : n ≤ 10000) {vm : ProcessVm} {action : Action}
    {rest : List Action} {done : Transferred} (todo : (s.ranks self).cont = action :: rest)
    (performed : action.exec vm s.world self = .ok done) :
    rest = [] ∧
      Messages n pool
        { s with
          world := done.world
          ranks := Function.update s.ranks self ((s.ranks self).advance action.moved rest done.ret) } ∧
      s.Keeps n
        { s with
          world := done.world
          ranks := Function.update s.ranks self ((s.ranks self).advance action.moved rest done.ret) } self := by
  have valid := messages.tended.valid_of_cont todo
  have last : rest = [] := by
    have few := messages.short self
    rw [todo, List.length_cons] at few
    exact List.length_eq_zero_iff.mp (by omega)
  have cont := RankState.advance_cont (s.ranks self) action.moved rest done.ret (Or.inr last)
  have sameHeld : ∀ id, held n (Function.update s.ranks self ((s.ranks self).advance action.moved rest done.ret)) id =
      held n s.ranks id :=
    held_kept (RankState.advance_requests (s.ranks self) action.moved rest done.ret)
  have fixed : ∀ id, (done.world.cookies id).owner = (s.world.cookies id).owner := by
    intro id
    rcases Action.exec_cases performed with ⟨_, _, world, _⟩ | ⟨_, midway⟩
    · rw [world]
      rfl
    · exact (congrArg Cookie.owner (midway.fixed id) :)
  have cookies : ∀ id, done.world.cookies id = s.world.cookies id ∨
      (s.world.cookies id).busy = 1 ∧ (done.world.cookies id).busy = 0 := by
    intro id
    rcases Action.exec_cases performed with ⟨_, _, world, _⟩ | ⟨_, midway⟩
    · rw [world]
      exact Or.inl rfl
    · by_cases through : action.transfer = some id
      · obtain ⟨_, busy, _⟩ := messages.transfer valid (todo ▸ List.mem_cons_self) through
        refine Or.inr ⟨busy, ?_⟩
        rw [midway.busy id through, busy]
        rfl
      · exact Or.inl (midway.others id through)
  refine ⟨last, ?_, ?_⟩
  · refine
      { tended := messages.tended.act several limit todo performed (Or.inr last)
        few := ?_
        pristine := ?_
        short := ?_
        checked := ?_ }
    · intro id
      dsimp only
      rw [sameHeld id]
      exact messages.few id
    · intro id
      dsimp only
      rcases cookies id with same | ⟨_, transferred⟩
      · rw [same]
        exact messages.pristine id
      · exact Or.inl transferred
    · intro rank
      by_cases mine : rank = self
      · subst mine
        dsimp only
        rw [Function.update_self, cont, last]
        exact Nat.zero_le 1
      · dsimp only
        rw [Function.update_of_ne mine]
        exact messages.short rank
    · intro rank
      by_cases mine : rank = self
      · subst mine
        dsimp only
        rw [Function.update_self, cont, last]
        exact fun action listed => absurd listed List.not_mem_nil
      · dsimp only
        rw [Function.update_of_ne mine]
        exact messages.checked rank
  · refine { others := fun rank other => Function.update_of_ne other _ _, owner := fun id _ => fixed id, settled := ?_ }
    intro id _ idle
    rcases cookies id with same | ⟨waits, _⟩
    · dsimp only
      rw [same]
      exact ⟨idle, rfl, (sameHeld id).le⟩
    · omega

/-- A rank leaves its handle. -/
theorem leave (messages : Messages n pool s) (several : 2 ≤ n) (limit : n ≤ 10000)
    (listed : id ∈ (s.ranks self).requests) (ready : (s.world.cookies id).Ready self) :
    Messages n (s.world.released id ++ pool) (s.leave self id) ∧ s.Keeps n (s.leave self id) self := by
  have valid := messages.tended.valid_of_request listed
  have others : ∀ rank ≠ self, (s.leave self id).ranks rank = s.ranks rank := by
    intro rank other
    simp [Sys.leave, other]
  have cookie : ∀ other, ((s.leave self id).world.cookies other).owner = (s.world.cookies other).owner ∧
      ((s.leave self id).world.cookies other).busy = (s.world.cookies other).busy ∧
      ((s.leave self id).world.cookies other).err = (s.world.cookies other).err := by
    intro other
    by_cases same : other = id <;> simp [Sys.leave, same]
  have fewer : ∀ other, held n (s.leave self id).ranks other + (if other = id then 1 else 0) = held n s.ranks other :=
    held_left valid listed (s.world.cookies id).err
  have cont : ∀ rank, ((s.leave self id).ranks rank).cont = (s.ranks rank).cont := by
    intro rank
    by_cases mine : rank = self <;> simp [Sys.leave, mine]
  refine ⟨?_, ?_⟩
  · refine
      { tended := messages.tended.leave several limit listed ready
        few := ?_
        pristine := ?_
        short := fun rank => by
          rw [cont]
          exact messages.short rank
        checked := fun rank => by
          rw [cont]
          exact messages.checked rank }
    · intro other
      have left := fewer other
      have before := messages.few other
      omega
    · intro other
      unfold Cookie.Pristine
      rw [(cookie other).2.1, (cookie other).2.2]
      exact messages.pristine other
  · refine { others := others, owner := fun other _ => (cookie other).1, settled := ?_ }
    intro other _ done
    have left := fewer other
    exact ⟨(cookie other).2.1.trans done, (cookie other).2.2, by omega⟩

end Messages

/-! ### Blocking calls -/

/-- Where a rank with the request `id` is in a blocking call: before the transfer, or in the wait. A rank that
    waits has made the cookie, or has moved the data. -/
def Sys.Awaits (s : Sys) (rank id : Nat) : Prop :=
  (∃ action, (s.ranks rank).cont = [action] ∧ action.transfer = some id) ∨
    (s.ranks rank).cont = [] ∧
      ((s.world.cookies id).owner = rank ∨ (s.world.cookies id).busy = 0 ∧ (s.world.cookies id).err = mpiSuccess)

namespace Callers

variable {n : Nat} {s s' : Callers} {actor call id : Nat}

/-- The call is in progress. -/
def Running (s : Callers) (call rank id : Nat) : Prop :=
  s.calls[call]? = some { rank := rank, request := some id, ret := none }

/-- Every process has what its blocking call needs, and the handles that are lost. -/
structure Sound (n : Nat) (s : Callers) : Prop where
  messages : ∃ pool, Messages n pool s.sys
  lost : ∀ rank id, (s.lost rank).count id ≤ ((s.sys.ranks rank).requests).count id
  inside : ∀ rank call, s.inside rank = some call →
    ∃ id, s.Running call rank id ∧ s.Named rank id ∧ s.sys.Awaits rank id
  running : ∀ call made, s.calls[call]? = some made → made.ret = none → s.inside made.rank = some call

/-- What a step of `actor` does to the calls. -/
inductive Does (s s' : Callers) (actor : Nat) : Prop where
  /-- It is none of a blocking call. -/
  | aside (free : s.inside actor = none) (calls : s'.calls = s.calls) (inside : s'.inside = s.inside)
      (lost : s'.lost = s.lost) (enough : ∀ id, (s.lost actor).count id ≤ ((s'.sys.ranks actor).requests).count id) :
      Does s s' actor
  /-- A blocking call has been rejected. -/
  | refused (made : BlockingCall) (free : s.inside actor = none) (calls : s'.calls = s.calls ++ [made])
      (returned : made.ret ≠ none) (inside : s'.inside = s.inside) (lost : s'.lost = s.lost)
      (requests : (s'.sys.ranks actor).requests = (s.sys.ranks actor).requests) : Does s s' actor
  /-- A blocking call has begun. -/
  | entered (id : Nat) (free : s.inside actor = none)
      (calls : s'.calls = s.calls ++ [{ rank := actor, request := some id, ret := none }])
      (inside : s'.inside = Function.update s.inside actor (some s.calls.length)) (lost : s'.lost = s.lost)
      (requests : (s'.sys.ranks actor).requests = id :: (s.sys.ranks actor).requests)
      (awaits : s'.sys.Awaits actor id) : Does s s' actor
  /-- The transfer of a blocking call has worked. -/
  | transferred (call id : Nat) (within : s.inside actor = some call) (request : s.Running call actor id)
      (calls : s'.calls = s.calls) (inside : s'.inside = s.inside) (lost : s'.lost = s.lost)
      (requests : (s'.sys.ranks actor).requests = (s.sys.ranks actor).requests)
      (before : (s.sys.ranks actor).cont ≠ []) (after : (s'.sys.ranks actor).cont = [])
      (busy : (s'.sys.world.cookies id).busy = 0) (err : (s'.sys.world.cookies id).err = mpiSuccess) : Does s s' actor
  /-- It has failed, and the call has returned. -/
  | failed (call id : Nat) (ret : Int) (within : s.inside actor = some call) (request : s.Running call actor id)
      (calls : s'.calls = s.calls.modify call fun made => { made with ret := some ret })
      (inside : s'.inside = Function.update s.inside actor none)
      (lost : s'.lost = Function.update s.lost actor (id :: s.lost actor))
      (requests : (s'.sys.ranks actor).requests = (s.sys.ranks actor).requests)
      (before : (s.sys.ranks actor).cont ≠ []) (busy : (s'.sys.world.cookies id).busy = 0) : Does s s' actor
  /-- A blocking call has returned from its wait. -/
  | waited (call id : Nat) (within : s.inside actor = some call) (request : s.Running call actor id)
      (calls : s'.calls = s.calls.modify call fun made => { made with ret := some (s.sys.world.cookies id).err })
      (inside : s'.inside = Function.update s.inside actor none) (lost : s'.lost = s.lost)
      (sys : s'.sys = s.sys.leave actor id) (idle : (s.sys.ranks actor).cont = [])
      (listed : id ∈ (s.sys.ranks actor).requests) (ready : (s.sys.world.cookies id).Ready actor) : Does s s' actor

/-- The last of the calls returns. -/
theorem modify_concat (calls : List BlockingCall) (made : BlockingCall) (ret : Int) :
    ((calls ++ [made]).modify calls.length fun made => { made with ret := some ret }) =
      calls ++ [{ made with ret := some ret }] := by
  induction calls with
  | nil => rfl
  | cons first rest ih =>
      rw [List.cons_append, List.length_cons, List.modify_succ_cons, ih, List.cons_append]

/-- A call of a list with one more at its end. -/
theorem of_append {calls : List BlockingCall} {made made' : BlockingCall}
    (listed : (calls ++ [made])[call]? = some made') :
    calls[call]? = some made' ∨ call = calls.length ∧ made' = made := by
  rcases Nat.lt_or_ge call calls.length with old | new
  · rw [List.getElem?_append_left old] at listed
    exact Or.inl listed
  · rw [List.getElem?_append_right new, List.getElem?_singleton] at listed
    split at listed
    case isTrue first => exact Or.inr ⟨by omega, (Option.some.inj listed).symm⟩
    case isFalse => cases listed

/-- A call that has not returned after another one has. -/
theorem of_modify {calls : List BlockingCall} {made : BlockingCall} {other : Nat} {ret : Int}
    (listed : (calls.modify other fun made => { made with ret := some ret })[call]? = some made)
    (unreturned : made.ret = none) :
    calls[call]? = some made ∧ call ≠ other := by
  have apart : call ≠ other := by
    rintro rfl
    rw [List.getElem?_modify_eq] at listed
    obtain ⟨before, _, rfl⟩ := Option.map_eq_some_iff.mp listed
    cases unreturned
  rw [List.getElem?_modify_ne _ _ apart.symm] at listed
  exact ⟨listed, apart⟩

theorem Running.append (running : s.Running call actor id) (made : BlockingCall) :
    (s.calls ++ [made])[call]? = some { rank := actor, request := some id, ret := none } := by
  unfold Running at running
  rw [List.getElem?_append_left (List.getElem?_eq_some_iff.mp running).1, running]

/-- What a blocking call is about does not change while the process waits. -/
theorem Running.unique {other id' : Nat} (running : s.Running call actor id) (running' : s.Running call other id') :
    actor = other ∧ id = id' := by
  unfold Running at running running'
  rw [running] at running'
  simpa using running'

namespace Sound

theorem start (mem : Memory) (several : 2 ≤ n) : Sound n (Callers.init n mem) where
  messages := ⟨[], Messages.start mem (by omega)⟩
  lost := fun _ _ => Nat.zero_le _
  inside := fun _ _ impossible => by cases impossible
  running := fun _ _ impossible => by simp [Callers.init] at impossible

theorem valid (sound : Sound n s) {rank : Nat} (listed : id ∈ (s.sys.ranks rank).requests) : rank < n := by
  obtain ⟨pool, messages⟩ := sound.messages
  exact messages.tended.valid_of_request listed

/-- A running call has a handle. -/
theorem of_running (sound : Sound n s) (running : s.Running call actor id) :
    s.inside actor = some call ∧ s.Named actor id ∧ s.sys.Awaits actor id ∧ 0 < held n s.sys.ranks id := by
  have within := sound.running call _ running rfl
  obtain ⟨id', running', named, awaits⟩ := sound.inside actor call within
  obtain ⟨_, rfl⟩ := running.unique running'
  have listed : id ∈ (s.sys.ranks actor).requests := List.count_pos_iff.mp (Nat.zero_lt_of_lt named)
  exact ⟨within, named, awaits, held_pos (sound.valid listed) listed⟩

/-- A process that does nothing keeps its blocking call. -/
theorem awaits (keeps : s.sys.Keeps n s'.sys actor) {rank : Nat} (other : rank ≠ actor)
    (pos : 0 < held n s.sys.ranks id)
    (before : s.sys.Awaits rank id) : s'.sys.Awaits rank id := by
  unfold Sys.Awaits at before ⊢
  rw [keeps.others rank other, keeps.owner id pos]
  refine before.imp_right fun waits => ⟨waits.1, waits.2.imp_right fun done => ?_⟩
  obtain ⟨busy, err, _⟩ := keeps.settled id pos done.1
  exact ⟨busy, err.trans done.2⟩

/-- The calls of the other processes. -/
theorem others (sound : Sound n s) (keeps : s.sys.Keeps n s'.sys actor) {rank : Nat} (other : rank ≠ actor)
    (within : s.inside rank = some call) (lost : s'.lost rank = s.lost rank)
    (kept : ∀ id, s.Running call rank id → s'.Running call rank id) :
    ∃ id, s'.Running call rank id ∧ s'.Named rank id ∧ s'.sys.Awaits rank id := by
  obtain ⟨id, running, named, before⟩ := sound.inside rank call within
  refine ⟨id, kept id running, ?_, awaits keeps other (sound.of_running running).2.2.2 before⟩
  unfold Callers.Named at named ⊢
  rwa [lost, keeps.others rank other]

/-- A call that has returned is another one's than that of a process that is in one. -/
theorem modified {rank other : Nat}
    (running : s.Running other actor id) (different : rank ≠ actor) {id' : Nat} (kept : s.Running call rank id')
    (ret : Int) :
    (s.calls.modify other fun made => { made with ret := some ret })[call]? =
      some { rank := rank, request := some id', ret := none } := by
  have apart : other ≠ call := by
    rintro rfl
    exact different (kept.unique running).1
  rw [List.getElem?_modify_ne _ _ apart]
  exact kept

/-- A blocking call has returned. -/
theorem returns (sound : Sound n s) (messages : ∃ pool, Messages n pool s'.sys) (keeps : s.sys.Keeps n s'.sys actor)
    (within : s.inside actor = some call) (request : s.Running call actor id) {ret : Int}
    (calls : s'.calls = s.calls.modify call fun made => { made with ret := some ret })
    (inside : s'.inside = Function.update s.inside actor none)
    (enough : ∀ id, (s'.lost actor).count id ≤ ((s'.sys.ranks actor).requests).count id)
    (lost : ∀ rank ≠ actor, s'.lost rank = s.lost rank) : Sound n s' := by
  refine { messages := messages, lost := ?_, inside := ?_, running := ?_ }
  · intro rank other
    by_cases own : rank = actor
    · rw [own]
      exact enough other
    · rw [lost rank own, keeps.others rank own]
      exact sound.lost rank other
  · intro rank call' within'
    rw [inside] at within'
    by_cases own : rank = actor
    · rw [own, Function.update_self] at within'
      cases within'
    · rw [Function.update_of_ne own] at within'
      refine sound.others keeps own within' (lost rank own) fun id' running => ?_
      unfold Running
      rw [calls]
      exact modified request own running ret
  · intro call' made listed unreturned
    rw [calls] at listed
    obtain ⟨before, apart⟩ := of_modify listed unreturned
    have open' := sound.running call' made before unreturned
    have other : made.rank ≠ actor := by
      intro own
      rw [own, within] at open'
      exact apart (Option.some.inj open').symm
    rw [inside, Function.update_of_ne other]
    exact open'

/-- One step. -/
theorem of_does (sound : Sound n s) (messages : ∃ pool, Messages n pool s'.sys) (keeps : s.sys.Keeps n s'.sys actor)
    (does : s.Does s' actor) : Sound n s' := by
  have elsewhere : ∀ rank ≠ actor, s'.lost rank = s.lost rank →
      ∀ id, (s'.lost rank).count id ≤ ((s'.sys.ranks rank).requests).count id := by
    intro rank other lost id
    rw [lost, keeps.others rank other]
    exact sound.lost rank id
  cases does with
  | aside free calls inside lost enough =>
      refine { messages := messages, lost := ?_, inside := ?_, running := ?_ }
      · intro rank id
        by_cases own : rank = actor
        · rw [own, lost]
          exact enough id
        · exact elsewhere rank own (by rw [lost]) id
      · intro rank call within
        rw [inside] at within
        have other : rank ≠ actor := by
          rintro rfl
          rw [free] at within
          cases within
        refine sound.others keeps other within (by rw [lost]) fun id running => ?_
        unfold Running at running ⊢
        rwa [calls]
      · intro call made listed open'
        rw [calls] at listed
        rw [inside]
        exact sound.running call made listed open'
  | refused made free calls returned inside lost requests =>
      refine { messages := messages, lost := ?_, inside := ?_, running := ?_ }
      · intro rank id
        by_cases own : rank = actor
        · rw [own, lost, requests]
          exact sound.lost actor id
        · exact elsewhere rank own (by rw [lost]) id
      · intro rank call within
        rw [inside] at within
        have other : rank ≠ actor := by
          rintro rfl
          rw [free] at within
          cases within
        refine sound.others keeps other within (by rw [lost]) fun id running => ?_
        have same := running.append made
        unfold Running
        rw [calls]
        exact same
      · intro call made' listed open'
        rw [calls] at listed
        rw [inside]
        rcases of_append listed with old | ⟨_, rfl⟩
        · exact sound.running call made' old open'
        · exact absurd open' returned
  | entered id free calls inside lost requests awaits =>
      refine { messages := messages, lost := ?_, inside := ?_, running := ?_ }
      · intro rank other
        by_cases own : rank = actor
        · rw [own, lost, requests]
          exact (sound.lost actor other).trans List.count_le_count_cons
        · exact elsewhere rank own (by rw [lost]) other
      · intro rank call within
        rw [inside] at within
        by_cases own : rank = actor
        · subst own
          rw [Function.update_self] at within
          obtain rfl := Option.some.inj within
          refine ⟨id, ?_, ?_, awaits⟩
          · unfold Running
            rw [calls, List.getElem?_concat_length]
          · unfold Callers.Named
            rw [lost, requests, List.count_cons_self]
            exact Nat.lt_succ_of_le (sound.lost rank id)
        · rw [Function.update_of_ne own] at within
          refine sound.others keeps own within (by rw [lost]) fun id' running => ?_
          have same := running.append { rank := actor, request := some id, ret := none }
          unfold Running
          rw [calls]
          exact same
      · intro call made listed unreturned
        rw [calls] at listed
        rw [inside]
        rcases of_append listed with old | ⟨rfl, rfl⟩
        · have before := sound.running call made old unreturned
          have other : made.rank ≠ actor := by
            intro own
            rw [own, free] at before
            cases before
          rw [Function.update_of_ne other]
          exact before
        · exact Function.update_self _ _ _
  | transferred call id within request calls inside lost requests before after busy err =>
      refine { messages := messages, lost := ?_, inside := ?_, running := ?_ }
      · intro rank other
        by_cases own : rank = actor
        · rw [own, lost, requests]
          exact sound.lost actor other
        · exact elsewhere rank own (by rw [lost]) other
      · intro rank call' within'
        rw [inside] at within'
        by_cases own : rank = actor
        · subst own
          obtain rfl := Option.some.inj (within.symm.trans within')
          refine ⟨id, ?_, ?_, Or.inr ⟨after, Or.inr ⟨busy, err⟩⟩⟩
          · unfold Running at request ⊢
            rwa [calls]
          · have named := (sound.of_running request).2.1
            unfold Callers.Named at named ⊢
            rwa [lost, requests]
        · refine sound.others keeps own within' (by rw [lost]) fun id' running => ?_
          unfold Running at running ⊢
          rwa [calls]
      · intro call' made listed unreturned
        rw [calls] at listed
        rw [inside]
        exact sound.running call' made listed unreturned
  | failed call id ret within request calls inside lost requests before busy =>
      have named := (sound.of_running request).2.1
      unfold Callers.Named at named
      refine sound.returns messages keeps within request calls inside ?_ fun rank other => by
        rw [lost, Function.update_of_ne other]
      intro other
      rw [lost, requests, Function.update_self, List.count_cons]
      by_cases same : id = other
      · subst same
        simp only [beq_self_eq_true, if_true]
        exact named
      · simpa [same] using sound.lost actor other
  | waited call id within request calls inside lost sys idle listed ready =>
      have named := (sound.of_running request).2.1
      unfold Callers.Named at named
      refine sound.returns messages keeps within request calls inside ?_ fun rank _ => by rw [lost]
      intro other
      have requests : (s'.sys.ranks actor).requests = ((s.sys.ranks actor).requests).erase id := by
        rw [sys]
        simp [Sys.leave]
      rw [lost, requests, List.count_erase]
      have few := sound.lost actor other
      by_cases same : id = other
      · subst same
        simp only [beq_self_eq_true, if_true]
        omega
      · simpa [same] using few

/-- What a rank has after a call tells what the call has left. -/
theorem post_eq {rank : RankState} {frame frame' : Frame} (same : rank.post frame = rank.post frame') :
    frame.cont = frame'.cont ∧ frame.request = frame'.request ∧ (frame.cont = [] → frame.ret = frame'.ret) := by
  have cont : frame.cont = frame'.cont := (congrArg RankState.cont same :)
  have requests := (congrArg RankState.requests same :)
  have rets := (congrArg RankState.rets same :)
  refine ⟨cont, ?_, fun done => ?_⟩
  · simp only [RankState.post_requests, List.append_cancel_right_eq] at requests
    cases first : frame.request <;> cases second : frame'.request <;> simp_all
  · simp only [RankState.post, RankState.enter, ← cont, done, if_true] at rets
    exact (List.cons.inj rets).1

/-- What a step is to the world and to the calls. -/
structure Stepped (n : Nat) (s s' : Callers) (actor : Nat) : Prop where
  messages : ∃ pool, Messages n pool s'.sys
  keeps : s.sys.Keeps n s'.sys actor
  does : s.Does s' actor

/-- The beginning of a blocking call. -/
theorem enter (sound : Sound n s) (several : 2 ≤ n) (limit : n ≤ 10000) {called : World × Frame}
    (entered : s.enter actor called = .ok s')
    (posts : ∀ sys, s.sys.post actor called = .ok sys → Called s.sys sys actor called.2) : Stepped n s s' actor := by
  obtain ⟨pool, messages⟩ := sound.messages
  unfold Callers.enter at entered
  split at entered
  case isTrue => cases entered
  case isFalse free =>
    have free := not_not.mp free
    obtain ⟨sys, posted, rest⟩ := Outcome.bind_eq_ok.mp entered
    have called' := posts sys posted
    obtain ⟨messages', keeps⟩ := messages.called several limit called'
    have own : sys.ranks actor = (s.sys.ranks actor).post called.2 := by
      rw [called'.ranks, Function.update_self]
    rcases called'.cases with ⟨rejected, _, _⟩ | ⟨queue, target, id, takes⟩ | ⟨queue, target, id, queues⟩
    · rw [rejected] at rest own
      obtain rfl := Outcome.ok.inj rest
      refine ⟨⟨pool, messages'⟩, keeps, ?_⟩
      refine .refused { rank := actor, request := none, ret := some mpiFail } free ?_ ?_ ?_ ?_ ?_
      · exact modify_concat s.calls { rank := actor, request := none, ret := none } mpiFail
      · exact fun impossible => by cases impossible
      · simp [Frame.failed, checked, finish, mpiFail, mpiSuccess, ← free]
      · simp [Frame.failed, checked, finish, mpiFail, mpiSuccess]
      · show (sys.ranks actor).requests = _
        rw [own]
        rfl
    · obtain ⟨action, transfers, ranks⟩ := takes.ranks
      rw [ranks, Function.update_self] at own
      obtain ⟨cont, request, _⟩ := post_eq own.symm
      rw [cont, request] at rest
      obtain rfl := Outcome.ok.inj rest
      refine ⟨⟨pool, messages'⟩, keeps, .entered id free rfl rfl rfl ?_ (Or.inl ⟨action, ?_, transfers⟩)⟩
      · show (sys.ranks actor).requests = _
        rw [ranks, Function.update_self]
        rfl
      · show (sys.ranks actor).cont = _
        rw [ranks, Function.update_self]
        rfl
    · rw [queues.ranks, Function.update_self] at own
      obtain ⟨cont, request, ret⟩ := post_eq own.symm
      rw [cont, request, ret cont] at rest
      obtain rfl := Outcome.ok.inj rest
      refine ⟨⟨pool, messages'⟩, keeps, .entered id free rfl rfl rfl ?_ (Or.inr ⟨?_, Or.inl queues.owner⟩)⟩
      · show (sys.ranks actor).requests = _
        rw [queues.ranks, Function.update_self]
        rfl
      · show (sys.ranks actor).cont = _
        rw [queues.ranks, Function.update_self]
        rfl

/-- The request of a process that is in a blocking call. -/
theorem request_eq (within : s.inside actor = some call) (running : s.Running call actor id) :
    s.request actor = some id := by
  unfold Running at running
  simp [Callers.request, within, running]

/-- A transfer. -/
theorem act (sound : Sound n s) (several : 2 ≤ n) (limit : n ≤ 10000) {vm : ProcessVm}
    (acted : s.step vm (.act actor) = .ok s') : Stepped n s s' actor := by
  obtain ⟨pool, messages⟩ := sound.messages
  simp only [Callers.step] at acted
  split at acted
  case h_1 => cases acted
  case h_2 action rest todo =>
    obtain ⟨done, performed, rest'⟩ := Outcome.bind_eq_ok.mp acted
    obtain ⟨last, messages', keeps⟩ := messages.act several limit todo performed
    have own : ((Function.update s.sys.ranks actor
          ((s.sys.ranks actor).advance action.moved rest done.ret)) actor).requests =
        (s.sys.ranks actor).requests := by
      rw [Function.update_self]
      exact RankState.advance_requests _ _ _ _
    split at rest'
    case h_1 free =>
      obtain rfl := Outcome.ok.inj rest'
      refine ⟨⟨pool, messages'⟩, keeps, .aside free rfl rfl rfl fun id => ?_⟩
      dsimp only
      rw [own]
      exact sound.lost actor id
    case h_2 call within =>
      obtain ⟨id, running, _, awaits⟩ := sound.inside actor call within
      have listed : action ∈ (s.sys.ranks actor).cont := todo ▸ List.mem_cons_self
      have through : action.transfer = some id := by
        rcases awaits with ⟨only, alone, through⟩ | ⟨idle, _⟩
        · rw [todo] at alone
          rw [(List.cons.inj alone).1]
          exact through
        · rw [todo] at idle
          cases idle
      have valid := messages.tended.valid_of_cont todo
      obtain ⟨_, waits, _⟩ := messages.transfer valid listed through
      have busy : (done.world.cookies id).busy = 0 := by
        rcases Action.exec_cases performed with ⟨moved, rfl, _⟩ | ⟨_, midway⟩
        · cases through
        · rw [midway.busy id through, waits]
          rfl
      have unread : (s.sys.world.cookies id).err = mpiSuccess := by
        rcases messages.pristine id with done | ⟨_, none⟩
        · omega
        · exact none
      have before : (s.sys.ranks actor).cont ≠ [] := by
        rw [todo]
        exact List.cons_ne_nil _ _
      rw [request_eq within running] at rest'
      obtain rfl := Outcome.ok.inj rest'
      by_cases success : done.ret = mpiSuccess
      · have kept : ∀ c : Callers, c.checked actor call (some id) done.ret = c := fun c => if_pos success
        rw [kept]
        refine ⟨⟨pool, messages'⟩, keeps, .transferred call id within running rfl rfl rfl own before ?_ busy ?_⟩
        · dsimp only
          rw [Function.update_self, RankState.advance_cont _ _ _ _ (Or.inr last), last]
        · exact (Action.exec_err (messages.checked actor action listed) performed success id).trans unread
      · unfold checked
        rw [if_neg success]
        exact ⟨⟨pool, messages'⟩, keeps, .failed call id done.ret within running rfl rfl rfl own before busy⟩

/-- The end of a blocking call. -/
theorem wait (sound : Sound n s) (several : 2 ≤ n) (limit : n ≤ 10000) {vm : ProcessVm}
    (waited : s.step vm (.wait actor) = .ok s') : Stepped n s s' actor := by
  obtain ⟨pool, messages⟩ := sound.messages
  simp only [Callers.step] at waited
  split at waited
  case h_1 call id within request =>
    obtain ⟨sys, stepped, rest⟩ := Outcome.bind_eq_ok.mp waited
    obtain ⟨idle, listed, ready, rfl⟩ := step_wait stepped
    obtain rfl := Outcome.ok.inj rest
    obtain ⟨id', running, _, _⟩ := sound.inside actor call within
    have same := request_eq within running
    rw [request] at same
    obtain rfl := Option.some.inj same
    obtain ⟨messages', keeps⟩ := messages.leave several limit listed ready
    exact ⟨⟨_, messages'⟩, keeps, .waited call id within running rfl rfl rfl rfl idle listed ready⟩
  case h_2 => cases waited

/-- A process that is in no blocking call leaves a handle it has a variable for. -/
theorem leave (sound : Sound n s) (several : 2 ≤ n) (limit : n ≤ 10000) (free : s.inside actor = none)
    (named : s.Named actor id) (ready : (s.sys.world.cookies id).Ready actor) :
    Stepped n s { s with sys := s.sys.leave actor id } actor := by
  obtain ⟨pool, messages⟩ := sound.messages
  have listed : id ∈ (s.sys.ranks actor).requests := List.count_pos_iff.mp (Nat.zero_lt_of_lt named)
  obtain ⟨messages', keeps⟩ := messages.leave several limit listed ready
  refine ⟨⟨_, messages'⟩, keeps, .aside free rfl rfl rfl fun other => ?_⟩
  have requests : ((s.sys.leave actor id).ranks actor).requests = ((s.sys.ranks actor).requests).erase id := by
    simp [Sys.leave]
  have few := sound.lost actor other
  unfold Callers.Named at named
  dsimp only
  rw [requests, List.count_erase]
  by_cases same : id = other
  · subst same
    simp only [beq_self_eq_true, if_true]
    omega
  · simpa [same] using few

/-- A message call that does not block. -/
theorem posts (sound : Sound n s) (several : 2 ≤ n) (limit : n ≤ 10000) (free : s.inside actor = none) {sys : Sys}
    {frame : Frame} (called : Called s.sys sys actor frame) : Stepped n s { s with sys := sys } actor := by
  obtain ⟨pool, messages⟩ := sound.messages
  obtain ⟨messages', keeps⟩ := messages.called several limit called
  refine ⟨⟨pool, messages'⟩, keeps, .aside free rfl rfl rfl fun id => ?_⟩
  dsimp only
  rw [called.ranks, Function.update_self, RankState.post_requests, List.count_append]
  exact (sound.lost actor id).trans (Nat.le_add_left _ _)

/-- Every step. -/
theorem step (sound : Sound n s) (several : 2 ≤ n) (limit : n ≤ 10000) {vm : ProcessVm} {move : BlockingMove}
    (stepped : s.step vm move = .ok s') : ∃ actor, Stepped n s s' actor := by
  obtain ⟨pool, messages⟩ := sound.messages
  have todo : ∀ rank, (s.sys.ranks rank).cont = [] → (s.sys.ranks rank).todo = [] :=
    fun _ => messages.tended.tickets.placed.todo_eq_nil
  cases move with
  | recv rank buf count datatype source tag comm =>
      exact ⟨rank, sound.enter several limit stepped fun sys => called_of_recv (todo rank)⟩
  | ssend rank buf count datatype dest tag comm =>
      exact ⟨rank, sound.enter several limit stepped fun sys => called_of_send (todo rank)⟩
  | act rank => exact ⟨rank, sound.act several limit stepped⟩
  | wait rank => exact ⟨rank, sound.wait several limit stepped⟩
  | nonblocking event =>
      simp only [Callers.step] at stepped
      split at stepped
      case isFalse => cases stepped
      case isTrue allowed =>
        obtain ⟨sys, performed, rest⟩ := Outcome.bind_eq_ok.mp stepped
        obtain rfl := Outcome.ok.inj rest
        cases event with
        | recv rank buf count datatype source tag comm =>
            exact ⟨rank, sound.posts several limit allowed (called_of_recv (todo rank) performed)⟩
        | send rank buf count datatype dest tag comm =>
            exact ⟨rank, sound.posts several limit allowed (called_of_send (todo rank) performed)⟩
        | test rank id =>
            simp only [Sys.perform] at performed
            split at performed
            case isFalse => cases performed
            case isTrue =>
              split at performed
              case isTrue =>
                obtain rfl := Outcome.ok.inj performed
                refine ⟨rank, ⟨pool, messages⟩, ?_, .aside allowed.1 rfl rfl rfl (sound.lost rank)⟩
                exact
                  { others := fun _ _ => rfl
                    owner := fun _ _ => rfl
                    settled := fun _ _ done => ⟨done, rfl, le_rfl⟩ }
              case isFalse finished =>
                obtain rfl := Outcome.ok.inj performed
                exact ⟨rank, sound.leave several limit allowed.1 allowed.2 fun _ => not_not.mp finished⟩
        | collective label =>
            cases label with
            | call rank => exact allowed.elim
            | act rank => exact allowed.elim
            | wait rank id =>
                have waited : s.sys.step vm messagesOnly (.wait rank id) = .ok sys := performed
                obtain ⟨_, _, ready, rfl⟩ := step_wait waited
                exact ⟨rank, sound.leave several limit allowed.1 allowed.2 ready⟩

end Sound

/-! ### One exchange -/

theorem Running.not_returned {rank : Nat} (running : s.Running call rank id) (ret : Int) : ¬ s.Returned call ret := by
  rintro ⟨made, listed, returned⟩
  unfold Running at running
  rw [running] at listed
  obtain rfl := Option.some.inj listed
  cases returned

theorem Returned.unique {ret ret' : Int} (returned : s.Returned call ret) (returned' : s.Returned call ret') :
    ret = ret' := by
  obtain ⟨made, listed, value⟩ := returned
  obtain ⟨made', listed', value'⟩ := returned'
  rw [listed] at listed'
  obtain rfl := Option.some.inj listed'
  exact Option.some.inj (value.symm.trans value')

/-- A step leaves the running calls of the others. -/
theorem Does.running (does : s.Does s' actor) {rank : Nat} (running : s.Running call rank id)
    (other : s.inside actor ≠ some call) : s'.Running call rank id := by
  unfold Running at running ⊢
  cases does with
  | aside _ calls | transferred _ _ _ _ calls => rwa [calls]
  | refused _ _ calls | entered _ _ calls =>
      rw [calls]
      exact Running.append running _
  | failed call' _ _ within _ calls | waited call' _ within _ calls =>
      have apart : call' ≠ call := by
        rintro rfl
        exact other within
      rwa [calls, List.getElem?_modify_ne _ _ apart]

/-- What a call has returned stays. -/
theorem Does.returned (does : s.Does s' actor) {ret : Int} (returned : s.Returned call ret) : s'.Returned call ret := by
  obtain ⟨made, listed, ret⟩ := returned
  refine ⟨made, ?_, ret⟩
  cases does with
  | aside _ calls | transferred _ _ _ _ calls => rwa [calls]
  | refused _ _ calls | entered _ _ calls =>
      rw [calls, List.getElem?_append_left (List.getElem?_eq_some_iff.mp listed).1, listed]
  | failed call' _ _ _ request calls | waited call' _ _ request calls =>
      have apart : call' ≠ call := by
        rintro rfl
        unfold Running at request
        rw [listed] at request
        obtain rfl := Option.some.inj request
        cases ret
      rwa [calls, List.getElem?_modify_ne _ _ apart]

/-- A lost handle stays lost. -/
theorem Does.lost_mono (does : s.Does s' actor) {rank : Nat} (lost : id ∈ s.lost rank) : id ∈ s'.lost rank := by
  cases does with
  | aside _ _ _ same | refused _ _ _ _ _ same | entered _ _ _ _ same | transferred _ _ _ _ _ _ same
  | waited _ _ _ _ _ _ same => rwa [same]
  | failed _ _ _ _ _ _ _ grown =>
      rw [grown]
      by_cases own : rank = actor
      · rw [own] at lost ⊢
        rw [Function.update_self]
        exact List.mem_cons_of_mem _ lost
      · rwa [Function.update_of_ne own]

/-- The call is running, or has returned `MPI_SUCCESS`. -/
def Unfailed (s : Callers) (call id : Nat) : Prop := (∃ rank, s.Running call rank id) ∨ s.Returned call mpiSuccess

/-- How things stand with the cookie `id` of two calls. -/
inductive Outlook (n : Nat) (s : Callers) (first second id : Nat) : Prop where
  /-- One of them has the transfer to make. -/
  | due (rank other : Nat) (running : s.Running first rank id) (running' : s.Running second other id)
      (transfer : (s.sys.ranks rank).cont ≠ [] ∨ (s.sys.ranks other).cont ≠ []) : Outlook n s first second id
  /-- It has worked. -/
  | moved (busy : (s.sys.world.cookies id).busy = 0) (err : (s.sys.world.cookies id).err = mpiSuccess)
      (one : s.Unfailed first id) (two : s.Unfailed second id) : Outlook n s first second id
  | done (one : s.Returned first mpiSuccess) (two : s.Returned second mpiSuccess) : Outlook n s first second id
  /-- It has failed, and a handle is lost. The other one is left at the end of the other call. -/
  | lost (rank : Nat) (lost : id ∈ s.lost rank) (busy : (s.sys.world.cookies id).busy = 0)
      (few : held n s.sys.ranks id ≤ 1 ∨ ∃ call rank, (call = first ∨ call = second) ∧ s.Running call rank id) :
      Outlook n s first second id

namespace Outlook

variable {first second : Nat}

theorem symm (outlook : Outlook n s first second id) : Outlook n s second first id := by
  cases outlook with
  | due rank other running running' transfer => exact .due other rank running' running transfer.symm
  | moved busy err one two => exact .moved busy err two one
  | done one two => exact .done two one
  | lost rank lost busy few =>
      refine .lost rank lost busy (few.imp_right ?_)
      rintro ⟨call, rank, which, running⟩
      exact ⟨call, rank, which.symm, running⟩

/-- A cookie with a transfer to come. -/
theorem busy_of_cont (sound : Sound n s) (running : s.Running call actor id)
    (transfer : (s.sys.ranks actor).cont ≠ []) :
    (s.sys.world.cookies id).busy = 1 := by
  obtain ⟨pool, messages⟩ := sound.messages
  obtain ⟨_, named, awaits, _⟩ := sound.of_running running
  have listed : id ∈ (s.sys.ranks actor).requests := List.count_pos_iff.mp (Nat.zero_lt_of_lt named)
  rcases awaits with ⟨action, alone, through⟩ | ⟨idle, _⟩
  · exact (messages.transfer (sound.valid listed) (alone ▸ List.mem_cons_self) through).2.1
  · exact absurd idle transfer

/-- A lost handle is a handle. -/
theorem held_of_lost (sound : Sound n s) {rank : Nat} (lost : id ∈ s.lost rank) : 0 < held n s.sys.ranks id := by
  have some := (List.count_pos_iff.mpr lost).trans_le (sound.lost rank id)
  have listed := List.count_pos_iff.mp some
  exact held_pos (sound.valid listed) listed

/-- Two calls that have the same cookie. -/
theorem of_paired (sound : Sound n s) (paired : s.Paired first second id) : Outlook n s first second id := by
  obtain ⟨apart, ⟨rank, running⟩, ⟨other, running'⟩⟩ := paired
  obtain ⟨within, _, awaits, _⟩ := sound.of_running running
  obtain ⟨within', _, awaits', _⟩ := sound.of_running running'
  rcases awaits with ⟨action, alone, _⟩ | ⟨_, mine | ⟨busy, err⟩⟩
  · exact .due rank other running running' (Or.inl (alone ▸ List.cons_ne_nil _ _))
  · rcases awaits' with ⟨action, alone, _⟩ | ⟨_, yours | ⟨busy, err⟩⟩
    · exact .due rank other running running' (Or.inr (alone ▸ List.cons_ne_nil _ _))
    · obtain rfl : rank = other := mine.symm.trans yours
      exact absurd (Option.some.inj (within.symm.trans within')) apart
    · exact .moved busy err (Or.inl ⟨rank, running⟩) (Or.inl ⟨other, running'⟩)
  · exact .moved busy err (Or.inl ⟨rank, running⟩) (Or.inl ⟨other, running'⟩)

/-- The process in the first of the two calls makes a step. -/
theorem own (sound : Sound n s) (stepped : Sound.Stepped n s s' actor) (apart : first ≠ second)
    (outlook : Outlook n s first second id) (within : s.inside actor = some first) : Outlook n s' first second id := by
  have does := stepped.does
  obtain ⟨id', mine, named, awaits⟩ := sound.inside actor first within
  have foreign : s.inside actor ≠ some second := by
    rw [within]
    exact fun same => apart (Option.some.inj same)
  have unreturned := mine.not_returned mpiSuccess
  have quiet : (s.sys.world.cookies id).busy = 0 → id' = id → (s.sys.ranks actor).cont = [] := by
    rintro busy rfl
    by_contra transfer
    have waits := busy_of_cont sound mine transfer
    omega
  cases outlook with
  | due rank other running running' transfer =>
      obtain ⟨rfl, rfl⟩ := mine.unique running
      cases does with
      | aside free | refused _ free | entered _ free =>
          rw [within] at free
          cases free
      | transferred call id' within' request calls _ _ _ _ _ busy err =>
          obtain rfl := Option.some.inj (within.symm.trans within')
          obtain ⟨_, rfl⟩ := mine.unique request
          refine .moved busy err (Or.inl ⟨actor, ?_⟩) (Or.inl ⟨other, ?_⟩)
          · unfold Running at mine ⊢
            rwa [calls]
          · unfold Running at running' ⊢
            rwa [calls]
      | failed call id' ret within' request _ _ lost _ _ busy =>
          obtain rfl := Option.some.inj (within.symm.trans within')
          obtain ⟨_, rfl⟩ := mine.unique request
          refine .lost actor ?_ busy (Or.inr ⟨second, other, Or.inr rfl, stepped.does.running running' foreign⟩)
          rw [lost, Function.update_self]
          exact List.mem_cons_self
      | waited call id' within' request _ _ _ _ idle _ ready =>
          obtain rfl := Option.some.inj (within.symm.trans within')
          obtain ⟨_, rfl⟩ := mine.unique request
          have waits := busy_of_cont sound running' (transfer.resolve_left fun moving => moving idle)
          rcases awaits with ⟨action, alone, _⟩ | ⟨_, maker | ⟨busy, _⟩⟩
          · rw [alone] at idle
            cases idle
          · have busy := ready maker
            omega
          · omega
  | moved busy err one two =>
      obtain ⟨rank, running⟩ := one.resolve_right unreturned
      obtain ⟨rfl, rfl⟩ := mine.unique running
      have pos := (sound.of_running mine).2.2.2
      have idle := quiet busy rfl
      cases does with
      | aside free | refused _ free | entered _ free =>
          rw [within] at free
          cases free
      | transferred _ _ _ _ _ _ _ _ before | failed _ _ _ _ _ _ _ _ _ before => exact absurd idle before
      | waited call id' within' request calls =>
          obtain rfl := Option.some.inj (within.symm.trans within')
          obtain ⟨_, rfl⟩ := mine.unique request
          have returned : s'.Returned first mpiSuccess := by
            unfold Running at mine
            refine ⟨{ rank := actor, request := some id', ret := some (s.sys.world.cookies id').err }, ?_, ?_⟩
            · rw [calls, List.getElem?_modify_eq, mine]
              rfl
            · rw [err]
          rcases two with ⟨other, running'⟩ | returned'
          · obtain ⟨busy', err', _⟩ := stepped.keeps.settled id' pos busy
            exact .moved busy' (err'.trans err) (Or.inr returned)
              (Or.inl ⟨other, stepped.does.running running' foreign⟩)
          · exact .done returned (stepped.does.returned returned')
  | done one => exact absurd one unreturned
  | lost rank lost busy few =>
      obtain ⟨busy', _, fewer⟩ := stepped.keeps.settled id (held_of_lost sound lost) busy
      refine .lost rank (does.lost_mono lost) busy' ?_
      rcases few with few | ⟨call, other, rfl | rfl, running⟩
      · exact Or.inl (fewer.trans few)
      · obtain ⟨rfl, rfl⟩ := mine.unique running
        have idle := quiet busy rfl
        cases does with
        | aside free | refused _ free | entered _ free =>
            rw [within] at free
            cases free
        | transferred _ _ _ _ _ _ _ _ before | failed _ _ _ _ _ _ _ _ _ before => exact absurd idle before
        | waited call' id'' within' request _ _ _ sys _ listed =>
            obtain rfl := Option.some.inj (within.symm.trans within')
            obtain ⟨_, rfl⟩ := mine.unique request
            have left := held_left (sound.valid listed) listed (s.sys.world.cookies id').err id'
            obtain ⟨pool, messages⟩ := sound.messages
            have two := messages.few id'
            rw [if_pos rfl] at left
            rw [sys]
            refine Or.inl ?_
            simp only [Sys.leave]
            omega
      · exact Or.inr ⟨call, other, Or.inr rfl, does.running running foreign⟩

/-- A process in neither of the two calls makes a step. -/
theorem others (sound : Sound n s) (stepped : Sound.Stepped n s s' actor) (outlook : Outlook n s first second id)
    (notFirst : s.inside actor ≠ some first) (notSecond : s.inside actor ≠ some second) :
    Outlook n s' first second id := by
  have does := stepped.does
  cases outlook with
  | due rank other running running' transfer =>
      have apart : rank ≠ actor := by
        rintro rfl
        exact notFirst (sound.of_running running).1
      have apart' : other ≠ actor := by
        rintro rfl
        exact notSecond (sound.of_running running').1
      refine .due rank other (does.running running notFirst) (does.running running' notSecond) ?_
      rwa [stepped.keeps.others rank apart, stepped.keeps.others other apart']
  | moved busy err one two =>
      have kept : ∀ call, s.inside actor ≠ some call → s.Unfailed call id → s'.Unfailed call id := by
        intro call foreign unfailed
        refine unfailed.imp ?_ does.returned
        rintro ⟨rank, running⟩
        exact ⟨rank, does.running running foreign⟩
      have settled : 0 < held n s.sys.ranks id → Outlook n s' first second id := by
        intro pos
        obtain ⟨busy', err', _⟩ := stepped.keeps.settled id pos busy
        exact .moved busy' (err'.trans err) (kept first notFirst one) (kept second notSecond two)
      rcases one, two with ⟨⟨rank, running⟩ | returned, ⟨rank', running'⟩ | returned'⟩
      · exact settled (sound.of_running running).2.2.2
      · exact settled (sound.of_running running).2.2.2
      · exact settled (sound.of_running running').2.2.2
      · exact .done (does.returned returned) (does.returned returned')
  | done one two => exact .done (does.returned one) (does.returned two)
  | lost rank lost busy few =>
      obtain ⟨busy', _, fewer⟩ := stepped.keeps.settled id (held_of_lost sound lost) busy
      refine .lost rank (does.lost_mono lost) busy' ?_
      rcases few with few | ⟨call, other, which, running⟩
      · exact Or.inl (fewer.trans few)
      · have foreign : s.inside actor ≠ some call := by
          rcases which with rfl | rfl
          · exact notFirst
          · exact notSecond
        exact Or.inr ⟨call, other, which, does.running running foreign⟩

/-- One step. -/
theorem step (sound : Sound n s) (stepped : Sound.Stepped n s s' actor) (apart : first ≠ second)
    (outlook : Outlook n s first second id) : Outlook n s' first second id := by
  by_cases mine : s.inside actor = some first
  · exact outlook.own sound stepped apart mine
  · by_cases yours : s.inside actor = some second
    · exact (outlook.symm.own sound stepped apart.symm yours).symm
    · exact outlook.others sound stepped mine yours

end Outlook

/-- Every state that is reached. -/
theorem Reaches.sound {vm : ProcessVm} (run : Reaches vm s s') (several : 2 ≤ n) (limit : n ≤ 10000)
    (sound : Sound n s) :
    Sound n s' := by
  induction run with
  | refl => exact sound
  | tail move _ stepped ih =>
      obtain ⟨actor, stepped⟩ := ih.step several limit stepped
      exact ih.of_does stepped.messages stepped.keeps stepped.does

/-- The two calls of an exchange, as long as anything happens. -/
theorem Reaches.outlook {vm : ProcessVm} {first second : Nat} (run : Reaches vm s s') (several : 2 ≤ n)
    (limit : n ≤ 10000)
    (sound : Sound n s) (apart : first ≠ second) (outlook : Outlook n s first second id) :
    Outlook n s' first second id := by
  induction run with
  | refl => exact outlook
  | tail move before stepped ih =>
      have sound' := before.sound several limit sound
      obtain ⟨actor, stepped⟩ := sound'.step several limit stepped
      exact ih.step sound' stepped apart

end Callers

/-- A failed blocking exchange always leaves its cookie behind. Whenever an `MPI_Recv` and an `MPI_Send` or
    `MPI_Ssend` have been paired, whoever came first and whatever else the processes do, and have returned, one
    of them with an error, then from then on `used_` is 1 although `busy_` is 0, no `free_` list has the cookie,
    and the handle on it is lost. -/
theorem failed_exchange_keeps_cookie {n : Nat} (several : 2 ≤ n) (limit : n ≤ 10000) {mem : Memory} {vm : ProcessVm}
    {s s' : Callers} (run : (Callers.init n mem).Reaches vm s) {first second id : Nat}
    (paired : s.Paired first second id) (later : s.Reaches vm s') {ret ret' : Int} (returned : s'.Returned first ret)
    (returned' : s'.Returned second ret') (error : ret ≠ mpiSuccess ∨ ret' ≠ mpiSuccess) :
    ((s'.sys.world.cookies id).used = 1 ∧ (s'.sys.world.cookies id).busy = 0 ∧
        (∀ rank, id ∉ (s'.sys.world.procs rank).free) ∧ ∃ rank, id ∈ s'.lost rank) ∧
      ¬ s'.NothingLeft id := by
  have sound := run.sound several limit (Callers.Sound.start mem several)
  have sound' := later.sound several limit sound
  have succeeds : ∀ {call ret}, s'.Unfailed call id → s'.Returned call ret → ret = mpiSuccess := by
    intro call ret unfailed returned
    rcases unfailed with ⟨rank, running⟩ | success
    · exact absurd returned (running.not_returned ret)
    · exact returned.unique success
  cases later.outlook several limit sound paired.apart (.of_paired sound paired) with
  | due rank other running _ _ => exact absurd returned (running.not_returned ret)
  | moved _ _ one two =>
      rcases error with failed | failed
      · exact absurd (succeeds one returned) failed
      · exact absurd (succeeds two returned') failed
  | done one two =>
      rcases error with failed | failed
      · exact absurd (returned.unique one) failed
      · exact absurd (returned'.unique two) failed
  | lost rank lost busy few =>
      obtain ⟨pool, messages⟩ := sound'.messages
      have pos := Callers.Outlook.held_of_lost sound' lost
      have one : held n s'.sys.ranks id = 1 := by
        rcases few with few | ⟨call, other, rfl | rfl, running⟩
        · omega
        · exact absurd returned (running.not_returned ret)
        · exact absurd returned' (running.not_returned ret')
      have used := (messages.settled pos busy).1.used
      rw [one] at used
      refine ⟨⟨used, busy, ?_, rank, lost⟩, fun nothing => nothing.lost rank lost⟩
      intro process free
      have none := (messages.tended.spent id (Or.inl (Or.inl ⟨process, free⟩))).held
      omega

/-- Rank 0 waits for an `int` and rank 1 sends one, but `process_vm_writev` fails. -/
theorem failed_exchange_keeps_cookie_recvFirst :
    ∃ s s', (Callers.init 2 fun _ => 0).Reaches (fun _ _ => -1) s ∧ s.Paired 0 1 0 ∧ s.Reaches (fun _ _ => -1) s' ∧
      s'.Returned 0 mpiFail ∧ s'.Returned 1 mpiFail ∧ ¬ s'.NothingLeft 0 := by
  have runs : ∃ s s', (Callers.init 2 fun _ => 0).Reaches (fun _ _ => -1) s ∧ s.Paired 0 1 0 ∧
      s.Reaches (fun _ _ => -1) s' ∧ s'.Returned 0 mpiFail ∧ s'.Returned 1 mpiFail := by
    refine ⟨_, _, .tail (.ssend 1 (.addr 0) 1 (some Datatype.mpiInt.iovec) 0 7 .world)
      (.tail (.recv 0 (.addr 0) 1 (some Datatype.mpiInt.iovec) 1 7 .world) .refl (by rfl)) (by rfl),
      ⟨by decide, ⟨0, by rfl⟩, ⟨1, by rfl⟩⟩, .tail (.wait 0) (.tail (.act 1) .refl (by rfl)) (by rfl),
      ⟨{ rank := 0, request := some 0, ret := some mpiFail }, by decide +kernel, rfl⟩,
      ⟨{ rank := 1, request := some 0, ret := some mpiFail }, by decide +kernel, rfl⟩⟩
  obtain ⟨s, s', run, paired, later, returned, returned'⟩ := runs
  refine ⟨s, s', run, paired, later, returned, returned', ?_⟩
  exact (failed_exchange_keeps_cookie le_rfl (by decide) run paired later returned returned'
    (Or.inl (by decide))).2

/-- Rank 1 sends two elements of type `int` and rank 0 has room for one. Both calls return an error, and then
    `used_` is 1 and the handle of rank 0 is lost. -/
theorem truncated_exchange_keeps_cookie :
    ∃ s s', (Callers.init 2 fun _ => 0).Reaches copyingVm s ∧ s.Paired 0 1 0 ∧ s.Reaches copyingVm s' ∧
      s'.Returned 0 mpiFail ∧ s'.Returned 1 mpiFail ∧ (s'.sys.world.cookies 0).used = 1 ∧ 0 ∈ s'.lost 0 ∧
      ¬ s'.NothingLeft 0 := by
  refine ⟨_, _, .tail (.recv 0 (.addr 0) 1 (some Datatype.mpiInt.iovec) 1 7 .world)
    (.tail (.ssend 1 (.addr 0) 2 (some Datatype.mpiInt.iovec) 0 7 .world) .refl (by rfl)) (by rfl),
    ⟨by decide, ⟨1, by rfl⟩, ⟨0, by rfl⟩⟩, .tail (.wait 1) (.tail (.act 0) .refl (by rfl)) (by rfl),
    ⟨_, by rfl, by rfl⟩, ⟨_, by rfl, by rfl⟩, by decide +kernel, by decide +kernel, ?_⟩
  intro nothing
  exact absurd nothing.used (by decide +kernel)

end Umpi
