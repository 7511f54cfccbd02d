/-
Module: Umpi.Proofs.Tags
Layer: Proofs
Purpose: Tags over the whole range of `int`. A queued cookie stores its tag as `int16_t`, so `recv_match`
  and `send_match` compare a narrowed tag with one that is not. The invariant of a run says which
  narrowed tag every queued or paired cookie carries, and from it follows for which tags a message is
  matched and reported as the caller gave them.
Imports: Umpi.Proofs.Matching
Trusted boundary: none
Main exports: Exchange.WideStep, Exchange.WideReaches, Labelled, Honoured, TagsHonoured, TagsFit,
  tags_honoured_iff
Open obligations: none
-/
import Umpi.Proofs.Matching

namespace Umpi

open Foundation

namespace Exchange

/-- One step of an exchange whose tags are any that the entry points accept. -/
inductive WideStep (dest : Nat) : Exchange → Exchange → Prop where
  | send (s : Exchange) (rank : Nat) (buf : Loc) (count : Int) (iovec : Iovec) (tag : Int)
      (rankBound : rank < rankLimit) (tagLow : 0 ≤ tag) (tagInt : IsInt tag) :
      WideStep dest s (s.send dest rank buf count iovec tag)
  | recv (s : Exchange) (buf : Loc) (count : Int) (iovec : Iovec) (source tag : Int)
      (sourceLow : mpiAnySource ≤ source) (sourceHigh : source < rankLimit)
      (tagLow : mpiAnyTag ≤ tag) (tagInt : IsInt tag) :
      WideStep dest s (s.recv dest buf count iovec source tag)
  | transfer (s : Exchange) (vm : ProcessVm) (before after : List (Nat × Action)) (rank : Nat)
      (action : Action) (done : Transferred)
      (outstanding : s.transfers = before ++ (rank, action) :: after)
      (performed : action.exec vm s.world rank = .ok done) :
      WideStep dest s { s with world := done.world, transfers := before ++ after }

/-- A sequence of such steps. -/
inductive WideReaches (dest : Nat) (start : Exchange) : Exchange → Prop where
  | refl : WideReaches dest start start
  | tail {s s' : Exchange} (before : WideReaches dest start s) (step : WideStep dest s s') :
      WideReaches dest start s'

end Exchange

/-! ### The two tests on narrowed tags -/

/-- What `recv_match` says when the send is in the queue: the stored tag is the narrowed one. -/
def RecvIssue.takesQueued (r : RecvIssue) (x : SendIssue) : Bool :=
  (int16 x.tag == r.tag || (r.tag == mpiAnyTag && decide (0 ≤ int16 x.tag))) &&
    (int16 x.rank == r.source || r.source == mpiAnySource)

/-- What `send_match` says when the receive is in the queue. -/
def SendIssue.takesQueued (x : SendIssue) (r : RecvIssue) : Bool :=
  (int16 r.tag == x.tag || int16 r.tag == mpiAnyTag) &&
    (int16 r.source == x.rank || int16 r.source == mpiAnySource)

/-- The labels of a cookie are the narrowed rank and tag of a send. -/
def Cookie.LabelledBy (cookie : Cookie) (x : SendIssue) : Prop :=
  cookie.src = int16 x.rank ∧ cookie.tag = int16 x.tag

/-- The labels of a cookie are the narrowed source and tag of a receive. -/
def Cookie.AwaitedBy (cookie : Cookie) (r : RecvIssue) : Prop :=
  cookie.src = int16 r.source ∧ cookie.tag = int16 r.tag

theorem Cookie.LabelledBy.recvMatch {cookie : Cookie} {x : SendIssue} (labels : cookie.LabelledBy x)
    (r : RecvIssue) : cookie.recvMatch r.source r.tag = r.takesQueued x := by
  rw [Cookie.recvMatch, labels.1, labels.2, RecvIssue.takesQueued]

theorem Cookie.AwaitedBy.sendMatch {cookie : Cookie} {r : RecvIssue} (labels : cookie.AwaitedBy r)
    (x : SendIssue) : cookie.sendMatch x.rank x.tag = x.takesQueued r := by
  rw [Cookie.sendMatch, labels.1, labels.2, SendIssue.takesQueued]

/-- A send and a receive pass the test of the one that arrived second. -/
def Met (x : SendIssue) (r : RecvIssue) : Prop := r.takesQueued x = true ∨ x.takesQueued r = true

/-! ### What the queues carry -/

/-- The requests that have been returned so far. -/
def Exchange.requests (s : Exchange) : List Nat :=
  s.sends.map SendIssue.request ++ s.recvs.map RecvIssue.request

/-- The cookies of an exchange carry the narrowed labels of what was issued. A send's cookie keeps them
    when it is paired, a receive's cookie gets those of its partner. -/
structure Labelled (dest : Nat) (s : Exchange) : Prop where
  sends : ∀ x ∈ s.sends, (s.world.cookies x.request).LabelledBy x
  recvs : ∀ r ∈ s.recvs, r.request ∈ (s.world.procs dest).outbox →
    (s.world.cookies r.request).AwaitedBy r
  met : ∀ x ∈ s.sends, ∀ r ∈ s.recvs, Paired x r → Met x r
  inboxIssued : ∀ id ∈ (s.world.procs dest).inbox, ∃ x ∈ s.sends, x.request = id
  outboxIssued : ∀ id ∈ (s.world.procs dest).outbox, ∃ r ∈ s.recvs, r.request = id
  outboxUnsent : ∀ x ∈ s.sends, x.request ∉ (s.world.procs dest).outbox
  outboxNodup : (s.world.procs dest).outbox.Nodup
  /-- A request in use is not up for reuse. -/
  distinct : ∀ id ∈ s.requests, (id :: (s.world.procs dest).free).Nodup
  freeNodup : (s.world.procs dest).free.Nodup
  allocated : ∀ id ∈ s.requests ++ (s.world.procs dest).free, id < s.world.next

namespace Labelled

variable {dest : Nat} {s : Exchange}

theorem initial (start : Exchange.Initial dest s) : Labelled dest s where
  sends := by simp [start.sends]
  recvs := by simp [start.recvs]
  met := by simp [start.sends]
  inboxIssued := by simp [start.inbox]
  outboxIssued := by simp [start.outbox]
  outboxUnsent := by simp [start.sends]
  outboxNodup := by simp [start.outbox]
  distinct := by simp [Exchange.requests, start.sends, start.recvs]
  freeNodup := start.freeNodup
  allocated := by simpa [Exchange.requests, start.sends, start.recvs] using start.freeBound

/-- A transfer keeps the labels. -/
theorem quiet (labelled : Labelled dest s) {w : World} (same : Quiet s.world w)
    (transfers : List (Nat × Action)) :
    Labelled dest { s with world := w, transfers := transfers } where
  sends := by
    intro x member
    rw [Cookie.LabelledBy, same.src, same.tag]
    exact labelled.sends x member
  recvs := by
    intro r member queued
    rw [same.outbox] at queued
    rw [Cookie.AwaitedBy, same.src, same.tag]
    exact labelled.recvs r member queued
  met := labelled.met
  inboxIssued := by
    rw [same.inbox]
    exact labelled.inboxIssued
  outboxIssued := by
    rw [same.outbox]
    exact labelled.outboxIssued
  outboxUnsent := by
    rw [same.outbox]
    exact labelled.outboxUnsent
  outboxNodup := by
    rw [same.outbox]
    exact labelled.outboxNodup
  distinct := by
    rw [same.free]
    exact labelled.distinct
  freeNodup := by
    rw [same.free]
    exact labelled.freeNodup
  allocated := by
    rw [same.free, same.next]
    exact labelled.allocated

/-- A request made for the next issue is in no other use. -/
theorem fresh (labelled : Labelled dest s) (cookie : Cookie) :
    (s.world.createRequest dest cookie).1 ∉ s.requests ∧
      (∀ id ∈ (s.world.createRequest dest cookie).1 :: s.requests,
        (id :: ((s.world.createRequest dest cookie).2.procs dest).free).Nodup) ∧
      ∀ id ∈ (s.world.createRequest dest cookie).1 :: s.requests ++
          ((s.world.createRequest dest cookie).2.procs dest).free,
        id < (s.world.createRequest dest cookie).2.next := by
  have made : ∀ id ∈ s.requests, ([id] ++ (s.world.createRequest dest cookie).1 ::
      ((s.world.createRequest dest cookie).2.procs dest).free).Nodup ∧
      ∀ other ∈ [id] ++ (s.world.createRequest dest cookie).1 ::
        ((s.world.createRequest dest cookie).2.procs dest).free,
        other < (s.world.createRequest dest cookie).2.next := by
    intro id used
    refine createRequest_fresh cookie (labelled.distinct id used) ?_
    intro other member
    rcases List.mem_append.mp member with same | free
    · rw [List.mem_singleton.mp same]
      exact labelled.allocated id (List.mem_append_left _ used)
    · exact labelled.allocated other (List.mem_append_right _ free)
  have alone : ([] ++ (s.world.createRequest dest cookie).1 ::
      ((s.world.createRequest dest cookie).2.procs dest).free).Nodup ∧
      ∀ other ∈ [] ++ (s.world.createRequest dest cookie).1 ::
        ((s.world.createRequest dest cookie).2.procs dest).free,
        other < (s.world.createRequest dest cookie).2.next :=
    createRequest_fresh cookie labelled.freeNodup
      fun other free => labelled.allocated other (List.mem_append_right _ free)
  refine ⟨?_, ?_, ?_⟩
  · intro used
    exact (List.nodup_cons.mp (made _ used).1).1 List.mem_cons_self
  · intro id member
    rcases List.mem_cons.mp member with same | used
    · rw [same]
      exact alone.1
    · exact (made id used).1.sublist (List.Sublist.cons_cons _ (List.sublist_cons_self _ _))
  · intro id member
    rcases List.mem_append.mp member with listed | free
    · rcases List.mem_cons.mp listed with same | used
      · rw [same]
        exact alone.2 _ List.mem_cons_self
      · exact (made id used).2 id List.mem_cons_self
    · exact alone.2 id (List.mem_cons_of_mem _ free)

theorem not_mem_of_fresh {id : Nat} (unused : id ∉ s.requests) :
    (∀ x ∈ s.sends, x.request ≠ id) ∧ ∀ r ∈ s.recvs, r.request ≠ id := by
  constructor
  · rintro x member rfl
    exact unused (List.mem_append_left _ (List.mem_map_of_mem member))
  · rintro r member rfl
    exact unused (List.mem_append_right _ (List.mem_map_of_mem member))

section Steps

variable {w : World} {x : SendIssue} {r : RecvIssue}

theorem mem_requests_send {transfers : List (Nat × Action)} {id : Nat} :
    id ∈ ({ s with world := w, sends := s.sends ++ [x], transfers := transfers } : Exchange).requests ↔
      id ∈ x.request :: s.requests := by
  simp only [Exchange.requests, List.map_append, List.map_cons, List.map_nil, List.mem_append,
    List.mem_cons, List.not_mem_nil, or_false]
  rw [or_assoc, or_left_comm]

theorem mem_requests_recv {transfers : List (Nat × Action)} {id : Nat} :
    id ∈ ({ s with world := w, recvs := s.recvs ++ [r], transfers := transfers } : Exchange).requests ↔
      id ∈ r.request :: s.requests := by
  simp only [Exchange.requests, List.map_append, List.map_cons, List.map_nil, List.mem_append,
    List.mem_cons, List.not_mem_nil, or_false]
  rw [← or_assoc, or_comm]

/-- A send that finds no receive is queued. -/
theorem queueSend (labelled : Labelled dest s) (unused : x.request ∉ s.requests)
    (inbox : (w.procs dest).inbox = (s.world.procs dest).inbox ++ [x.request])
    (outbox : (w.procs dest).outbox = (s.world.procs dest).outbox)
    (labels : (w.cookies x.request).LabelledBy x)
    (others : ∀ id, id ≠ x.request → w.cookies id = s.world.cookies id)
    (distinct : ∀ id ∈ x.request :: s.requests, (id :: (w.procs dest).free).Nodup)
    (allocated : ∀ id ∈ x.request :: s.requests ++ (w.procs dest).free, id < w.next) :
    Labelled dest { s with world := w, sends := s.sends ++ [x] } := by
  obtain ⟨sendsApart, recvsApart⟩ := not_mem_of_fresh unused
  constructor
  case sends =>
    intro y member
    rcases List.mem_append.mp member with old | new
    · rw [others _ (sendsApart y old)]
      exact labelled.sends y old
    · rw [List.mem_singleton.mp new]
      exact labels
  case recvs =>
    intro r member waiting
    rw [others _ (recvsApart r member)]
    exact labelled.recvs r member (outbox ▸ waiting)
  case met =>
    intro y member r posted paired
    rcases List.mem_append.mp member with old | new
    · exact labelled.met y old r posted paired
    · rw [List.mem_singleton.mp new] at paired
      exact absurd paired.symm (recvsApart r posted)
  case inboxIssued =>
    intro id member
    rw [inbox] at member
    rcases List.mem_append.mp member with old | new
    · obtain ⟨y, issued, same⟩ := labelled.inboxIssued id old
      exact ⟨y, List.mem_append_left _ issued, same⟩
    · exact ⟨x, List.mem_append_right _ List.mem_cons_self, (List.mem_singleton.mp new).symm⟩
  case outboxIssued =>
    rw [outbox]
    exact labelled.outboxIssued
  case outboxUnsent =>
    intro y member
    rw [outbox]
    rcases List.mem_append.mp member with old | new
    · exact labelled.outboxUnsent y old
    · rw [List.mem_singleton.mp new]
      intro waiting
      obtain ⟨r, posted, same⟩ := labelled.outboxIssued _ waiting
      exact recvsApart r posted same
  case outboxNodup =>
    rw [outbox]
    exact labelled.outboxNodup
  case distinct =>
    intro id used
    exact distinct id (mem_requests_send.mp used)
  case freeNodup =>
    exact (List.nodup_cons.mp (distinct x.request List.mem_cons_self)).2
  case allocated =>
    intro id member
    refine allocated id ?_
    rcases List.mem_append.mp member with used | recycled
    · exact List.mem_append_left _ (mem_requests_send.mp used)
    · exact List.mem_append_right _ recycled

/-- A receive that finds no send is queued. -/
theorem queueRecv (labelled : Labelled dest s) (unused : r.request ∉ s.requests)
    (inbox : (w.procs dest).inbox = (s.world.procs dest).inbox)
    (outbox : (w.procs dest).outbox = (s.world.procs dest).outbox ++ [r.request])
    (labels : (w.cookies r.request).AwaitedBy r)
    (others : ∀ id, id ≠ r.request → w.cookies id = s.world.cookies id)
    (distinct : ∀ id ∈ r.request :: s.requests, (id :: (w.procs dest).free).Nodup)
    (allocated : ∀ id ∈ r.request :: s.requests ++ (w.procs dest).free, id < w.next) :
    Labelled dest { s with world := w, recvs := s.recvs ++ [r] } := by
  obtain ⟨sendsApart, recvsApart⟩ := not_mem_of_fresh unused
  constructor
  case sends =>
    intro x member
    rw [others _ (sendsApart x member)]
    exact labelled.sends x member
  case recvs =>
    intro q member waiting
    rcases List.mem_append.mp member with old | new
    · rw [others _ (recvsApart q old)]
      rw [outbox] at waiting
      rcases List.mem_append.mp waiting with earlier | last
      · exact labelled.recvs q old earlier
      · exact absurd (List.mem_singleton.mp last) (recvsApart q old)
    · rw [List.mem_singleton.mp new]
      exact labels
  case met =>
    intro x member q posted paired
    rcases List.mem_append.mp posted with old | new
    · exact labelled.met x member q old paired
    · rw [List.mem_singleton.mp new] at paired
      exact absurd paired (sendsApart x member)
  case inboxIssued =>
    rw [inbox]
    exact labelled.inboxIssued
  case outboxIssued =>
    intro id member
    rw [outbox] at member
    rcases List.mem_append.mp member with old | new
    · obtain ⟨q, posted, same⟩ := labelled.outboxIssued id old
      exact ⟨q, List.mem_append_left _ posted, same⟩
    · exact ⟨r, List.mem_append_right _ List.mem_cons_self, (List.mem_singleton.mp new).symm⟩
  case outboxUnsent =>
    intro x member
    rw [outbox]
    intro waiting
    rcases List.mem_append.mp waiting with earlier | last
    · exact labelled.outboxUnsent x member earlier
    · exact sendsApart x member (List.mem_singleton.mp last)
  case outboxNodup =>
    rw [outbox]
    refine List.nodup_append.mpr ⟨labelled.outboxNodup, by simp, ?_⟩
    intro id waiting last only same
    obtain ⟨q, posted, named⟩ := labelled.outboxIssued id waiting
    exact recvsApart q posted (named.trans (same.trans (List.mem_singleton.mp only)))
  case distinct =>
    intro id used
    exact distinct id (mem_requests_recv.mp used)
  case freeNodup =>
    exact (List.nodup_cons.mp (distinct r.request List.mem_cons_self)).2
  case allocated =>
    intro id member
    refine allocated id ?_
    rcases List.mem_append.mp member with used | recycled
    · exact List.mem_append_left _ (mem_requests_recv.mp used)
    · exact List.mem_append_right _ recycled

/-- A send that finds a receive gives its labels to the receive's cookie. -/
theorem pairSend (labelled : Labelled dest s) (transfers : List (Nat × Action))
    (waiting : x.request ∈ (s.world.procs dest).outbox)
    (matched : (s.world.cookies x.request).sendMatch x.rank x.tag = true)
    (inbox : (w.procs dest).inbox = (s.world.procs dest).inbox)
    (outbox : (w.procs dest).outbox = (s.world.procs dest).outbox.erase x.request)
    (labels : (w.cookies x.request).LabelledBy x)
    (others : ∀ id, id ≠ x.request → w.cookies id = s.world.cookies id)
    (free : (w.procs dest).free = (s.world.procs dest).free) (next : w.next = s.world.next) :
    Labelled dest { s with world := w, sends := s.sends ++ [x], transfers := transfers } := by
  have taken : x.request ∉ (w.procs dest).outbox := by
    rw [outbox]
    exact labelled.outboxNodup.not_mem_erase
  have listed : x.request ∈ s.requests := by
    obtain ⟨r, posted, same⟩ := labelled.outboxIssued _ waiting
    rw [← same]
    exact List.mem_append_right _ (List.mem_map_of_mem posted)
  have left : ∀ id ∈ (w.procs dest).outbox, id ∈ (s.world.procs dest).outbox := by
    intro id member
    rw [outbox] at member
    exact List.mem_of_mem_erase member
  have known : ∀ id, id ∈ ({ s with
      world := w
      sends := s.sends ++ [x]
      transfers := transfers } : Exchange).requests → id ∈ s.requests := by
    intro id used
    rcases List.mem_cons.mp (mem_requests_send.mp used) with same | old
    · rw [same]
      exact listed
    · exact old
  constructor
  case sends =>
    intro y member
    rcases List.mem_append.mp member with old | new
    · have different : y.request ≠ x.request := by
        intro same
        exact labelled.outboxUnsent y old (same ▸ waiting)
      rw [others _ different]
      exact labelled.sends y old
    · rw [List.mem_singleton.mp new]
      exact labels
  case recvs =>
    intro r member still
    have different : r.request ≠ x.request := by
      intro same
      exact taken (same ▸ still)
    rw [others _ different]
    exact labelled.recvs r member (left _ still)
  case met =>
    intro y member r posted paired
    rcases List.mem_append.mp member with old | new
    · exact labelled.met y old r posted paired
    · rw [List.mem_singleton.mp new] at paired ⊢
      refine Or.inr ?_
      have awaited := labelled.recvs r posted (paired ▸ waiting)
      rw [← awaited.sendMatch x, ← (paired : x.request = r.request)]
      exact matched
  case inboxIssued =>
    intro id member
    rw [inbox] at member
    obtain ⟨y, issued, same⟩ := labelled.inboxIssued id member
    exact ⟨y, List.mem_append_left _ issued, same⟩
  case outboxIssued =>
    intro id member
    exact labelled.outboxIssued id (left id member)
  case outboxUnsent =>
    intro y member
    rcases List.mem_append.mp member with old | new
    · intro still
      exact labelled.outboxUnsent y old (left _ still)
    · rw [List.mem_singleton.mp new]
      exact taken
  case outboxNodup =>
    rw [outbox]
    exact labelled.outboxNodup.erase _
  case distinct =>
    intro id used
    rw [free]
    exact labelled.distinct id (known id used)
  case freeNodup =>
    rw [free]
    exact labelled.freeNodup
  case allocated =>
    intro id member
    rw [next]
    refine labelled.allocated id ?_
    rcases List.mem_append.mp member with used | recycled
    · exact List.mem_append_left _ (known id used)
    · exact List.mem_append_right _ (free ▸ recycled)

/-- A receive that finds a send leaves the labels of its cookie alone. -/
theorem pairRecv (labelled : Labelled dest s) (transfers : List (Nat × Action))
    (queued : r.request ∈ (s.world.procs dest).inbox)
    (matched : (s.world.cookies r.request).recvMatch r.source r.tag = true)
    (inbox : (w.procs dest).inbox = (s.world.procs dest).inbox.erase r.request)
    (outbox : (w.procs dest).outbox = (s.world.procs dest).outbox)
    (src : ∀ id, (w.cookies id).src = (s.world.cookies id).src)
    (tag : ∀ id, (w.cookies id).tag = (s.world.cookies id).tag)
    (free : (w.procs dest).free = (s.world.procs dest).free) (next : w.next = s.world.next) :
    Labelled dest { s with world := w, recvs := s.recvs ++ [r], transfers := transfers } := by
  obtain ⟨sent, issued, named⟩ := labelled.inboxIssued _ queued
  have unwaited : r.request ∉ (s.world.procs dest).outbox := by
    rw [← named]
    exact labelled.outboxUnsent sent issued
  have known : ∀ id, id ∈ ({ s with
      world := w
      recvs := s.recvs ++ [r]
      transfers := transfers } : Exchange).requests → id ∈ s.requests := by
    intro id used
    rcases List.mem_cons.mp (mem_requests_recv.mp used) with same | old
    · rw [same, ← named]
      exact List.mem_append_left _ (List.mem_map_of_mem issued)
    · exact old
  constructor
  case sends =>
    intro x member
    rw [Cookie.LabelledBy, src, tag]
    exact labelled.sends x member
  case recvs =>
    intro q member waiting
    rw [outbox] at waiting
    rw [Cookie.AwaitedBy, src, tag]
    rcases List.mem_append.mp member with old | new
    · exact labelled.recvs q old waiting
    · rw [List.mem_singleton.mp new] at waiting
      exact absurd waiting unwaited
  case met =>
    intro x member q posted paired
    rcases List.mem_append.mp posted with old | new
    · exact labelled.met x member q old paired
    · rw [List.mem_singleton.mp new] at paired ⊢
      refine Or.inl ?_
      rw [← (labelled.sends x member).recvMatch r, (paired : x.request = r.request)]
      exact matched
  case inboxIssued =>
    intro id member
    rw [inbox] at member
    exact labelled.inboxIssued id (List.mem_of_mem_erase member)
  case outboxIssued =>
    intro id member
    rw [outbox] at member
    obtain ⟨q, posted, same⟩ := labelled.outboxIssued id member
    exact ⟨q, List.mem_append_left _ posted, same⟩
  case outboxUnsent =>
    rw [outbox]
    exact labelled.outboxUnsent
  case outboxNodup =>
    rw [outbox]
    exact labelled.outboxNodup
  case distinct =>
    intro id used
    rw [free]
    exact labelled.distinct id (known id used)
  case freeNodup =>
    rw [free]
    exact labelled.freeNodup
  case allocated =>
    intro id member
    rw [next]
    refine labelled.allocated id ?_
    rcases List.mem_append.mp member with used | recycled
    · exact List.mem_append_left _ (known id used)
    · exact List.mem_append_right _ (free ▸ recycled)

end Steps

/-- A send keeps the labels, whatever its tag. -/
theorem send (labelled : Labelled dest s) (rank : Nat) (buf : Loc) (count : Int) (iovec : Iovec)
    (tag : Int) : Labelled dest (s.send dest rank buf count iovec tag) := by
  cases found : (s.world.procs dest).outbox.find? fun id =>
      (s.world.cookies id).sendMatch rank tag with
  | none =>
      let cookie := Cookie.make rank buf iovec count count rank tag 1
      let x : SendIssue :=
        { rank := rank, tag := tag, request := (s.world.createRequest dest cookie).1 }
      obtain ⟨unused, distinct, allocated⟩ := labelled.fresh cookie
      have queued : s.send dest rank buf count iovec tag =
          { s with
            world := (sendRequest s.world rank dest buf count iovec tag).1
            sends := s.sends ++ [x] } := by
        simp [Exchange.send, sendRequest, found, Frame.done, x, cookie]
      rw [queued]
      apply labelled.queueSend unused
      case inbox => simp [sendRequest, found, x, cookie]
      case outbox => simp [sendRequest, found]
      case labels => simp [sendRequest, found, x, cookie, Cookie.LabelledBy]
      case others =>
        intro id different
        have cookies : (sendRequest s.world rank dest buf count iovec tag).1.cookies =
            Function.update s.world.cookies (s.world.createRequest dest cookie).1 cookie := by
          simp [sendRequest, found, cookie]
        rw [cookies, Function.update_of_ne different]
      case distinct => simpa [sendRequest, found, x, cookie] using distinct
      case allocated => simpa [sendRequest, found, x, cookie] using allocated
  | some id =>
      let x : SendIssue := { rank := rank, tag := tag, request := id }
      have paired : s.send dest rank buf count iovec tag =
          { s with
            world := (sendRequest s.world rank dest buf count iovec tag).1
            sends := s.sends ++ [x]
            transfers := (s.send dest rank buf count iovec tag).transfers } := by
        simp [Exchange.send, sendRequest, found, Frame.done, x]
      rw [paired]
      apply labelled.pairSend
      case waiting => exact List.mem_of_find?_eq_some found
      case matched =>
        have passed := List.find?_some found
        exact passed
      case labels => simp [sendRequest, found, x, Cookie.LabelledBy]
      case others =>
        intro other different
        have apart : other ≠ id := different
        simp [sendRequest, found, apart]
      all_goals simp [sendRequest, found, x]

/-- A receive keeps the labels, whatever its tag. -/
theorem recv (labelled : Labelled dest s) (buf : Loc) (count : Int) (iovec : Iovec)
    (source tag : Int) : Labelled dest (s.recv dest buf count iovec source tag) := by
  cases found : (s.world.procs dest).inbox.find? fun id =>
      (s.world.cookies id).recvMatch source tag with
  | none =>
      let cookie := Cookie.make dest buf iovec count count source tag 1
      let r : RecvIssue :=
        { source := source, tag := tag, request := (s.world.createRequest dest cookie).1 }
      obtain ⟨unused, distinct, allocated⟩ := labelled.fresh cookie
      have queued : s.recv dest buf count iovec source tag =
          { s with
            world := (recvRequest s.world dest buf count iovec source tag).1
            recvs := s.recvs ++ [r] } := by
        simp [Exchange.recv, recvRequest, found, Frame.done, r, cookie]
      rw [queued]
      apply labelled.queueRecv unused
      case inbox => simp [recvRequest, found]
      case outbox => simp [recvRequest, found, r, cookie]
      case labels => simp [recvRequest, found, r, cookie, Cookie.AwaitedBy]
      case others =>
        intro id different
        have cookies : (recvRequest s.world dest buf count iovec source tag).1.cookies =
            Function.update s.world.cookies (s.world.createRequest dest cookie).1 cookie := by
          simp [recvRequest, found, cookie]
        rw [cookies, Function.update_of_ne different]
      case distinct => simpa [recvRequest, found, r, cookie] using distinct
      case allocated => simpa [recvRequest, found, r, cookie] using allocated
  | some id =>
      let r : RecvIssue := { source := source, tag := tag, request := id }
      have paired : s.recv dest buf count iovec source tag =
          { s with
            world := (recvRequest s.world dest buf count iovec source tag).1
            recvs := s.recvs ++ [r]
            transfers := (s.recv dest buf count iovec source tag).transfers } := by
        simp [Exchange.recv, recvRequest, found, Frame.done, r]
      rw [paired]
      apply labelled.pairRecv
      case queued => exact List.mem_of_find?_eq_some found
      case matched =>
        have passed := List.find?_some found
        exact passed
      case src =>
        intro other
        by_cases same : other = id <;> simp [recvRequest, found, same]
      case tag =>
        intro other
        by_cases same : other = id <;> simp [recvRequest, found, same]
      all_goals simp [recvRequest, found, r]

/-- Every cookie of a run carries the narrowed labels. -/
theorem of_reaches {start : Exchange} (initial : Exchange.Initial dest start)
    (run : Exchange.WideReaches dest start s) : Labelled dest s := by
  induction run with
  | refl => exact Labelled.initial initial
  | tail before step labelled =>
      cases step with
      | send rank buf count iovec tag => exact labelled.send rank buf count iovec tag
      | recv buf count iovec source tag => exact labelled.recv buf count iovec source tag
      | transfer vm before after rank action done outstanding performed =>
          exact labelled.quiet (exec_quiet performed) _

end Labelled

/-! ### Which tags are honoured -/

/-- In a state of an exchange, a send and a receive are matched exactly when the receive accepts the
    send, whichever of them is queued, and a receive paired with the send reports its tag. -/
structure Honoured (dest : Nat) (s : Exchange) (x : SendIssue) (r : RecvIssue) : Prop where
  sendQueued : x ∈ s.sends → x.request ∈ (s.world.procs dest).inbox →
    (s.world.cookies x.request).recvMatch r.source r.tag = r.accepts x
  recvQueued : r ∈ s.recvs → r.request ∈ (s.world.procs dest).outbox →
    (s.world.cookies r.request).sendMatch x.rank x.tag = r.accepts x
  reported : x ∈ s.sends → r ∈ s.recvs → Paired x r →
    (getStatus (s.world.cookies r.request)).1.tag = x.tag

/-- Every send with this rank and tag and every receive with this source and tag are matched and
    reported as they should be, in every run to `dest` and among whatever other messages. -/
def TagsHonoured (dest rank : Nat) (sendTag source recvTag : Int) : Prop :=
  ∀ start s, Exchange.Initial dest start → Exchange.WideReaches dest start s →
    ∀ sendRequest recvRequest, Honoured dest s
      { rank := rank, tag := sendTag, request := sendRequest }
      { source := source, tag := recvTag, request := recvRequest }

/-- The ranks and tags that the entry points pass on. -/
structure TagsAccepted (rank : Nat) (sendTag source recvTag : Int) : Prop where
  rankBound : rank < rankLimit
  sendLow : 0 ≤ sendTag
  sendInt : IsInt sendTag
  sourceLow : mpiAnySource ≤ source
  sourceHigh : source < rankLimit
  recvLow : mpiAnyTag ≤ recvTag
  recvInt : IsInt recvTag

/-- When narrowing does no harm. If the receive accepts the send, the send's tag must fit `int16_t`. If
    only the tag keeps it from being accepted, neither narrowed tag may be the other tag, and the
    receive's must not become `MPI_ANY_TAG`. -/
structure TagsFit (rank : Nat) (sendTag source recvTag : Int) : Prop where
  accepted : (source = mpiAnySource ∨ source = rank) →
    (recvTag = mpiAnyTag ∨ recvTag = sendTag) → sendTag < tagLimit
  refused : (source = mpiAnySource ∨ source = rank) →
    recvTag ≠ mpiAnyTag → recvTag ≠ sendTag →
      int16 sendTag ≠ recvTag ∧ int16 recvTag ≠ sendTag ∧ int16 recvTag ≠ mpiAnyTag

theorem int16_natCast_of_rank {rank : Nat} (rankBound : rank < rankLimit) :
    int16 (rank : Int) = rank := by
  unfold rankLimit at rankBound
  exact int16_of_range (by omega) (by omega)

theorem int16_of_source {source : Int} (low : mpiAnySource ≤ source) (high : source < rankLimit) :
    int16 source = source := by
  unfold rankLimit at high
  unfold mpiAnySource at low
  exact int16_of_range (by omega) (by omega)

theorem int16_of_tag {tag : Int} (low : mpiAnyTag ≤ tag) (high : tag < tagLimit) :
    int16 tag = tag := by
  unfold tagLimit at high
  unfold mpiAnyTag at low
  exact int16_of_range (by omega) high

theorem int16_lt (x : Int) : int16 x < tagLimit := by
  unfold int16 tagLimit
  have bound := Int.bmod_lt (x := x) (m := 2 ^ 16) (by norm_num)
  omega

section Tests

variable {x : SendIssue} {r : RecvIssue}

theorem RecvIssue.accepts_iff : r.accepts x = true ↔
    (r.source = mpiAnySource ∨ r.source = x.rank) ∧ (r.tag = mpiAnyTag ∨ r.tag = x.tag) := by
  simp [RecvIssue.accepts]

theorem RecvIssue.takesQueued_iff (arguments : TagsAccepted x.rank x.tag r.source r.tag) :
    r.takesQueued x = true ↔ (r.source = mpiAnySource ∨ r.source = x.rank) ∧
      (int16 x.tag = r.tag ∨ r.tag = mpiAnyTag ∧ 0 ≤ int16 x.tag) := by
  rw [RecvIssue.takesQueued, int16_natCast_of_rank arguments.rankBound]
  simp only [Bool.and_eq_true, Bool.or_eq_true, beq_iff_eq, decide_eq_true_eq]
  rw [and_comm, or_comm (a := (x.rank : Int) = r.source), eq_comm (a := (x.rank : Int))]

theorem SendIssue.takesQueued_iff (arguments : TagsAccepted x.rank x.tag r.source r.tag) :
    x.takesQueued r = true ↔ (r.source = mpiAnySource ∨ r.source = x.rank) ∧
      (int16 r.tag = x.tag ∨ int16 r.tag = mpiAnyTag) := by
  rw [SendIssue.takesQueued, int16_of_source arguments.sourceLow arguments.sourceHigh]
  simp only [Bool.and_eq_true, Bool.or_eq_true, beq_iff_eq]
  rw [and_comm, or_comm (a := r.source = (x.rank : Int))]

/-- Tags that fit make the two tests say what the receive accepts. -/
theorem TagsFit.tests (fit : TagsFit x.rank x.tag r.source r.tag)
    (arguments : TagsAccepted x.rank x.tag r.source r.tag) :
    r.takesQueued x = r.accepts x ∧ x.takesQueued r = r.accepts x := by
  rw [Bool.eq_iff_iff (a := r.takesQueued x), Bool.eq_iff_iff (a := x.takesQueued r),
    RecvIssue.takesQueued_iff arguments, SendIssue.takesQueued_iff arguments, RecvIssue.accepts_iff]
  by_cases source : r.source = mpiAnySource ∨ r.source = x.rank
  · by_cases tags : r.tag = mpiAnyTag ∨ r.tag = x.tag
    · have exactSend : int16 x.tag = x.tag :=
        int16_of_tag (le_trans (by decide) arguments.sendLow) (fit.accepted source tags)
      refine ⟨iff_of_true ⟨source, ?_⟩ ⟨source, tags⟩, iff_of_true ⟨source, ?_⟩ ⟨source, tags⟩⟩
      · rw [exactSend]
        rcases tags with wild | same
        · exact Or.inr ⟨wild, arguments.sendLow⟩
        · exact Or.inl same.symm
      · rcases tags with wild | same
        · rw [wild]
          exact Or.inr (by decide)
        · rw [same, exactSend]
          exact Or.inl rfl
    · obtain ⟨notWild, different⟩ := not_or.mp tags
      obtain ⟨sendApart, recvApart, recvTame⟩ := fit.refused source notWild different
      refine ⟨iff_of_false ?_ fun accepted => tags accepted.2,
        iff_of_false ?_ fun accepted => tags accepted.2⟩
      · rintro ⟨-, same | wild⟩
        · exact sendApart same
        · exact notWild wild.1
      · rintro ⟨-, same | wild⟩
        · exact recvApart same
        · exact recvTame wild
  · exact ⟨iff_of_false (fun met => source met.1) fun accepted => source accepted.1,
      iff_of_false (fun met => source met.1) fun accepted => source accepted.1⟩

end Tests

/-- Tags that fit are honoured in every state with labelled cookies. -/
theorem Labelled.honoured {dest : Nat} {s : Exchange} (labelled : Labelled dest s) {x : SendIssue}
    {r : RecvIssue} (fit : TagsFit x.rank x.tag r.source r.tag)
    (arguments : TagsAccepted x.rank x.tag r.source r.tag) : Honoured dest s x r := by
  obtain ⟨recvTest, sendTest⟩ := fit.tests arguments
  constructor
  case sendQueued =>
    intro issued _
    rw [(labelled.sends x issued).recvMatch r, recvTest]
  case recvQueued =>
    intro posted queued
    rw [(labelled.recvs r posted queued).sendMatch x, sendTest]
  case reported =>
    intro issued posted paired
    have met : r.accepts x = true := by
      rcases labelled.met x issued r posted paired with queued | waiting
      · rw [← recvTest]
        exact queued
      · rw [← sendTest]
        exact waiting
    obtain ⟨source, tags⟩ := RecvIssue.accepts_iff.mp met
    have exactTag : int16 x.tag = x.tag :=
      int16_of_tag (le_trans (by decide) arguments.sendLow) (fit.accepted source tags)
    rw [getStatus, ← (paired : x.request = r.request), (labelled.sends x issued).2]
    exact exactTag

/-! ### Two runs that show the harm -/

namespace Exchange

/-- One byte is sent to `dest`, and nothing else has happened. -/
def oneSend (dest rank : Nat) (tag : Int) : Exchange :=
  (start 2 fun _ => 0).send dest rank { region := .null, addr := 0 } 1 (Iovec.basic .char 1) tag

/-- A receive for one byte is posted, and nothing else has happened. -/
def oneRecv (dest : Nat) (source tag : Int) : Exchange :=
  (start 2 fun _ => 0).recv dest { region := .null, addr := 0 } 1 (Iovec.basic .char 1) source tag

/-- The byte is sent to the posted receive. -/
def recvThenSend (dest rank : Nat) (sendTag source recvTag : Int) : Exchange :=
  (oneRecv dest source recvTag).send dest rank { region := .null, addr := 0 } 1 (Iovec.basic .char 1)
    sendTag

variable (dest rank : Nat) (sendTag source recvTag : Int)

theorem oneSend_sends :
    (oneSend dest rank sendTag).sends = [{ rank := rank, tag := sendTag, request := 0 }] := rfl

theorem oneSend_inbox : ((oneSend dest rank sendTag).world.procs dest).inbox = [0] := by
  simp [oneSend, send, start, World.start, sendRequest, World.createRequest, Process.new]

theorem oneRecv_recvs :
    (oneRecv dest source recvTag).recvs = [{ source := source, tag := recvTag, request := 0 }] := rfl

theorem oneRecv_outbox : ((oneRecv dest source recvTag).world.procs dest).outbox = [0] := by
  simp [oneRecv, recv, start, World.start, recvRequest, World.createRequest, Process.new]

theorem oneRecv_sends : (oneRecv dest source recvTag).sends = [] := rfl

theorem recvThenSend_recvs : (recvThenSend dest rank sendTag source recvTag).recvs =
    [{ source := source, tag := recvTag, request := 0 }] := rfl

/-- A send that passes the test of the posted receive is paired with it. -/
theorem recvThenSend_sends
    (matched : ((oneRecv dest source recvTag).world.cookies 0).sendMatch rank sendTag = true) :
    (recvThenSend dest rank sendTag source recvTag).sends =
      [{ rank := rank, tag := sendTag, request := 0 }] := by
  have found : (((oneRecv dest source recvTag).world.procs dest).outbox.find? fun id =>
      ((oneRecv dest source recvTag).world.cookies id).sendMatch rank sendTag) = some 0 := by
    simp [oneRecv_outbox, matched]
  simp [recvThenSend, send, sendRequest, found, Frame.done, oneRecv_sends]

end Exchange

section Harm

variable {dest rank : Nat} {sendTag source recvTag : Int}

theorem oneSend_reaches (arguments : TagsAccepted rank sendTag source recvTag) :
    Exchange.WideReaches dest (Exchange.start 2 fun _ => 0) (Exchange.oneSend dest rank sendTag) :=
  .tail .refl
    (.send _ rank _ 1 _ sendTag arguments.rankBound arguments.sendLow arguments.sendInt)

theorem oneRecv_reaches (arguments : TagsAccepted rank sendTag source recvTag) :
    Exchange.WideReaches dest (Exchange.start 2 fun _ => 0) (Exchange.oneRecv dest source recvTag) :=
  .tail .refl
    (.recv _ _ 1 _ source recvTag arguments.sourceLow arguments.sourceHigh arguments.recvLow
      arguments.recvInt)

theorem recvThenSend_reaches (arguments : TagsAccepted rank sendTag source recvTag) :
    Exchange.WideReaches dest (Exchange.start 2 fun _ => 0)
      (Exchange.recvThenSend dest rank sendTag source recvTag) :=
  .tail (oneRecv_reaches arguments)
    (.send _ rank _ 1 _ sendTag arguments.rankBound arguments.sendLow arguments.sendInt)

/-- The cookie of the single send carries its labels. -/
theorem oneSend_recvMatch (arguments : TagsAccepted rank sendTag source recvTag) :
    ((Exchange.oneSend dest rank sendTag).world.cookies 0).recvMatch source recvTag =
      RecvIssue.takesQueued { source := source, tag := recvTag, request := 0 }
        { rank := rank, tag := sendTag, request := 0 } := by
  have labelled := Labelled.of_reaches (Exchange.start_initial 2 (fun _ => 0) dest)
    (oneSend_reaches arguments)
  have labels := labelled.sends _ (by rw [Exchange.oneSend_sends]; exact List.mem_cons_self)
  exact labels.recvMatch { source := source, tag := recvTag, request := 0 }

/-- The cookie of the single receive carries its labels. -/
theorem oneRecv_sendMatch (arguments : TagsAccepted rank sendTag source recvTag) :
    ((Exchange.oneRecv dest source recvTag).world.cookies 0).sendMatch rank sendTag =
      SendIssue.takesQueued { rank := rank, tag := sendTag, request := 0 }
        { source := source, tag := recvTag, request := 0 } := by
  have labelled := Labelled.of_reaches (Exchange.start_initial 2 (fun _ => 0) dest)
    (oneRecv_reaches arguments)
  have labels := labelled.recvs _ (by rw [Exchange.oneRecv_recvs]; exact List.mem_cons_self)
    (by rw [Exchange.oneRecv_outbox]; exact List.mem_cons_self)
  exact labels.sendMatch { rank := rank, tag := sendTag, request := 0 }

/-- Tags that are honoured pass the two tests exactly when the receive accepts the send. -/
theorem TagsHonoured.tests (honoured : TagsHonoured dest rank sendTag source recvTag)
    (arguments : TagsAccepted rank sendTag source recvTag) {x : SendIssue} {r : RecvIssue}
    (send : x = { rank := rank, tag := sendTag, request := 0 })
    (recv : r = { source := source, tag := recvTag, request := 0 }) :
    r.takesQueued x = r.accepts x ∧ x.takesQueued r = r.accepts x := by
  have initial := Exchange.start_initial 2 (fun _ => 0) dest
  subst send recv
  have sendTest : ((Exchange.oneSend dest rank sendTag).world.cookies 0).recvMatch source recvTag = _ :=
    oneSend_recvMatch arguments
  have recvTest : ((Exchange.oneRecv dest source recvTag).world.cookies 0).sendMatch rank sendTag = _ :=
    oneRecv_sendMatch arguments
  rw [← sendTest, ← recvTest]
  constructor
  · apply (honoured _ _ initial (oneSend_reaches arguments) 0 0).sendQueued
    · rw [Exchange.oneSend_sends]
      exact List.mem_cons_self
    · rw [Exchange.oneSend_inbox]
      exact List.mem_cons_self
  · apply (honoured _ _ initial (oneRecv_reaches arguments) 0 0).recvQueued
    · rw [Exchange.oneRecv_recvs]
      exact List.mem_cons_self
    · rw [Exchange.oneRecv_outbox]
      exact List.mem_cons_self

/-- An honoured tag that the posted receive takes fits, for the status reports the narrowed tag. -/
theorem TagsHonoured.reported (honoured : TagsHonoured dest rank sendTag source recvTag)
    (arguments : TagsAccepted rank sendTag source recvTag)
    (taken : SendIssue.takesQueued { rank := rank, tag := sendTag, request := 0 }
      { source := source, tag := recvTag, request := 0 } = true) : sendTag < tagLimit := by
  have initial := Exchange.start_initial 2 (fun _ => 0) dest
  have issued : { rank := rank, tag := sendTag, request := 0 } ∈
      (Exchange.recvThenSend dest rank sendTag source recvTag).sends := by
    rw [Exchange.recvThenSend_sends _ _ _ _ _ ((oneRecv_sendMatch arguments).trans taken)]
    exact List.mem_cons_self
  have posted : { source := source, tag := recvTag, request := 0 } ∈
      (Exchange.recvThenSend dest rank sendTag source recvTag).recvs := by
    rw [Exchange.recvThenSend_recvs]
    exact List.mem_cons_self
  have labels :=
    (Labelled.of_reaches initial (recvThenSend_reaches arguments)).sends _ issued
  have reported :=
    (honoured _ _ initial (recvThenSend_reaches arguments) 0 0).reported issued posted rfl
  have narrowed : int16 sendTag = sendTag := labels.2.symm.trans reported
  rw [← narrowed]
  exact int16_lt sendTag

/-- Tags that are honoured fit. -/
theorem TagsHonoured.fit (honoured : TagsHonoured dest rank sendTag source recvTag)
    (arguments : TagsAccepted rank sendTag source recvTag) :
    TagsFit rank sendTag source recvTag := by
  let x : SendIssue := { rank := rank, tag := sendTag, request := 0 }
  let r : RecvIssue := { source := source, tag := recvTag, request := 0 }
  have tests : r.takesQueued x = r.accepts x ∧ x.takesQueued r = r.accepts x :=
    honoured.tests arguments rfl rfl
  obtain ⟨recvTest, sendTest⟩ := tests
  constructor
  case accepted =>
    intro fromSource tags
    have accepts : r.accepts x = true := RecvIssue.accepts_iff.mpr ⟨fromSource, tags⟩
    exact honoured.reported arguments (sendTest.trans accepts)
  case refused =>
    intro fromSource notWild different
    have refuses : ¬ r.accepts x = true := fun accepts =>
      (RecvIssue.accepts_iff.mp accepts).2.elim notWild different
    have queuedSend : ¬ r.takesQueued x = true := by
      rw [recvTest]
      exact refuses
    have queuedRecv : ¬ x.takesQueued r = true := by
      rw [sendTest]
      exact refuses
    rw [RecvIssue.takesQueued_iff arguments] at queuedSend
    rw [SendIssue.takesQueued_iff arguments] at queuedRecv
    refine ⟨?_, ?_, ?_⟩
    · intro same
      exact queuedSend ⟨fromSource, Or.inl same⟩
    · intro same
      exact queuedRecv ⟨fromSource, Or.inl same⟩
    · intro wild
      exact queuedRecv ⟨fromSource, Or.inr wild⟩

end Harm

/-- For all arguments that the entry points pass on, the two tests and the status use the tags as the
    caller gave them exactly when narrowing to `int16_t` does no harm. -/
theorem tags_honoured_iff (dest : Nat) {rank : Nat} {sendTag source recvTag : Int}
    (arguments : TagsAccepted rank sendTag source recvTag) :
    TagsHonoured dest rank sendTag source recvTag ↔ TagsFit rank sendTag source recvTag := by
  constructor
  · intro honoured
    exact honoured.fit arguments
  · intro fit start s initial run sendRequest recvRequest
    exact (Labelled.of_reaches initial run).honoured fit arguments

/-- The tag 7 is honoured for a receive of any tag. -/
theorem tags_honoured_seven : TagsHonoured 0 1 7 mpiAnySource mpiAnyTag := by
  have arguments : TagsAccepted 1 7 mpiAnySource mpiAnyTag := by constructor <;> decide
  have fit : TagsFit 1 7 mpiAnySource mpiAnyTag :=
    { accepted := fun _ _ => by decide
      refused := fun _ notWild => absurd rfl notWild }
  exact (tags_honoured_iff 0 arguments).mpr fit

/-- The tags 65541 and 5 are different, but a receive for tag 5 takes a queued send with the other, and reports
    tag 5. A queued receive for tag 5 is not taken by such a send. -/
theorem tags_honoured_narrowed :
    ((Exchange.oneSend 0 1 65541).world.cookies 0).recvMatch mpiAnySource 5 = true ∧
      (getStatus ((Exchange.oneSend 0 1 65541).world.cookies 0)).1.tag = 5 ∧
      ¬ TagsHonoured 0 1 65541 mpiAnySource 5 := by
  have arguments : TagsAccepted 1 65541 mpiAnySource 5 := by constructor <;> decide
  have unfit : ¬ TagsFit 1 65541 mpiAnySource 5 := fun fit =>
    (fit.refused (Or.inl rfl) (by decide) (by decide)).1 (by decide)
  exact ⟨by decide, by decide, fun honoured => unfit (honoured.fit arguments)⟩

end Umpi
