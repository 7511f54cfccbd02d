/-
Module: Umpi.Proofs.Matching
Layer: Proofs
Purpose: Point-to-point matching loses nothing and never overtakes. Every reachable state of an
  exchange refines a state of the abstract matcher: the two queues list the requests of the queued
  sends and receives, the cookies carry the sources and tags of their issues, and no request is used
  twice. Soundness of the matcher then gives the properties of the queues.
Imports: Umpi.Foundation.Matching, Umpi.Model.Exchange, Umpi.Proofs.Transfers
Trusted boundary: none
Main exports: Refines, Refines.send, Refines.recv, Refines.transfer, Exchange.Correct,
  exchange_correct
Open obligations: none
-/
import Umpi.Foundation.Matching
import Umpi.Model.Exchange
import Umpi.Proofs.Transfers

namespace Umpi

open Foundation

/-! ### Lists of requests -/

/-- Removing an item and removing its image agree when images are distinct. -/
theorem map_erase_of_nodup {α : Type} [DecidableEq α] (f : α → Nat) {l : List α} {a : α}
    (nodup : (l.map f).Nodup) (member : a ∈ l) : (l.map f).erase (f a) = (l.erase a).map f := by
  induction l with
  | nil => simp at member
  | cons b l ih =>
      obtain ⟨fresh, nodupTail⟩ := List.nodup_cons.mp nodup
      by_cases same : b = a
      · simp [same]
      · have memberTail : a ∈ l := by
          rcases List.mem_cons.mp member with rfl | tail
          · exact absurd rfl same
          · exact tail
        have different : f b ≠ f a := fun equal =>
          fresh (equal ▸ List.mem_map_of_mem memberTail)
        rw [List.map_cons, List.erase_cons_tail (by simpa using different), ih nodupTail memberTail,
          List.erase_cons_tail (by simpa using same), List.map_cons]

/-- The first request that satisfies a test belongs to the first issue that does. -/
theorem find_map_request {α : Type} (f : α → Nat) (l : List α) (test : Nat → Bool) (accepts : α → Bool)
    (agree : ∀ a ∈ l, test (f a) = accepts a) : (l.map f).find? test = (l.find? accepts).map f := by
  rw [List.find?_map]
  congr 1
  induction l with
  | nil => rfl
  | cons a l ih =>
      have head := agree a List.mem_cons_self
      have tail := ih fun b member => agree b (List.mem_cons_of_mem a member)
      rw [List.find?_cons, List.find?_cons, Function.comp_apply, head]
      cases accepts a with
      | true => rfl
      | false => exact tail

/-! ### What the steps do to the world -/

/-- No action touches the message queues, the recycled cookies, or the source and tag of a cookie. -/
structure Quiet (w w' : World) : Prop where
  next : w'.next = w.next
  free : ∀ rank, (w'.procs rank).free = (w.procs rank).free
  inbox : ∀ rank, (w'.procs rank).inbox = (w.procs rank).inbox
  outbox : ∀ rank, (w'.procs rank).outbox = (w.procs rank).outbox
  src : ∀ id, (w'.cookies id).src = (w.cookies id).src
  tag : ∀ id, (w'.cookies id).tag = (w.cookies id).tag

theorem Touches.quiet {id : Nat} {w w' : World} (touches : Touches id w w') : Quiet w w' where
  next := touches.next
  free := touches.free
  inbox := touches.inbox
  outbox := touches.outbox
  src := touches.src
  tag := touches.tag

theorem moveToPending_quiet (w : World) (id : Nat) : Quiet w (w.moveToPending id) := by
  have proc : ∀ rank, ((w.moveToPending id).procs rank).free = (w.procs rank).free ∧
      ((w.moveToPending id).procs rank).inbox = (w.procs rank).inbox ∧
      ((w.moveToPending id).procs rank).outbox = (w.procs rank).outbox := by
    intro rank
    simp only [World.moveToPending, World.setProc_procs]
    by_cases same : rank = (w.cookies id).owner <;> simp [same]
  exact
    { next := rfl
      free := fun rank => (proc rank).1
      inbox := fun rank => (proc rank).2.1
      outbox := fun rank => (proc rank).2.2
      src := fun _ => rfl
      tag := fun _ => rfl }

theorem exec_quiet {vm : ProcessVm} {w : World} {self : Nat} {action : Action} {done : Transferred}
    (performed : action.exec vm w self = .ok done) : Quiet w done.world := by
  cases action with
  | moveToPending id =>
      obtain rfl := Outcome.ok.inj performed
      exact moveToPending_quiet w id
  | writeToOwner id buf iovec count seek skip =>
      obtain ⟨seek, -, performed⟩ := Outcome.bind_eq_ok.mp performed
      obtain ⟨skip, -, transferred⟩ := Outcome.bind_eq_ok.mp performed
      exact (writeToOwner_touches transferred).quiet
  | readFromOwner id buf iovec size count seek skip =>
      obtain ⟨seek, -, performed⟩ := Outcome.bind_eq_ok.mp performed
      obtain ⟨skip, -, transferred⟩ := Outcome.bind_eq_ok.mp performed
      exact (readFromOwner_touches transferred).quiet
  | readIgnored id buf iovec size count =>
      obtain ⟨done, transferred, finished⟩ := Outcome.bind_eq_ok.mp performed
      obtain rfl := Outcome.ok.inj finished
      exact (readFromOwner_touches transferred).quiet
  | reduce op invec inoutvec count iovec =>
      obtain rfl := Outcome.ok.inj performed
      exact ⟨rfl, fun _ => rfl, fun _ => rfl, fun _ => rfl, fun _ => rfl, fun _ => rfl⟩

/-- A created cookie is the first recycled one or a new one; either way it was in no other use. -/
theorem createRequest_fresh {w : World} {process : Nat} (cookie : Cookie) {used : List Nat}
    (distinct : (used ++ (w.procs process).free).Nodup)
    (allocated : ∀ id ∈ used ++ (w.procs process).free, id < w.next) :
    (used ++ (w.createRequest process cookie).1 ::
        ((w.createRequest process cookie).2.procs process).free).Nodup ∧
      ∀ id ∈ used ++ (w.createRequest process cookie).1 ::
          ((w.createRequest process cookie).2.procs process).free,
        id < (w.createRequest process cookie).2.next := by
  unfold World.createRequest
  cases free : (w.procs process).free with
  | nil =>
      rw [free, List.append_nil] at distinct allocated
      simp only [free]
      constructor
      · refine List.nodup_append.mpr ⟨distinct, by simp, ?_⟩
        intro id member next only
        have := allocated id member
        have := List.mem_singleton.mp only
        omega
      · intro id member
        rcases List.mem_append.mp member with old | new
        · exact Nat.lt_succ_of_lt (allocated id old)
        · have := List.mem_singleton.mp new
          omega
  | cons id rest =>
      rw [free] at distinct allocated
      simp only [World.setCookie_procs, World.setProc_procs, Function.update_self,
        World.setCookie_next, World.setProc_next]
      exact ⟨distinct, allocated⟩

/-! ### The refinement -/

/-- The test `recv_match` of a queued send's cookie is the acceptance of its issue. -/
theorem recvMatch_eq_accepts {cookie : Cookie} {x : SendIssue} (src : cookie.src = x.rank)
    (tag : cookie.tag = x.tag) (tagLow : 0 ≤ x.tag) (r : RecvIssue) :
    cookie.recvMatch r.source r.tag = r.accepts x := by
  rw [Bool.eq_iff_iff]
  simp only [Cookie.recvMatch, RecvIssue.accepts, src, tag, Bool.and_eq_true, Bool.or_eq_true,
    beq_iff_eq, decide_eq_true_eq]
  constructor
  · rintro ⟨tags, sources⟩
    exact ⟨sources.symm.imp id Eq.symm, tags.symm.imp And.left Eq.symm⟩
  · rintro ⟨sources, tags⟩
    exact ⟨tags.symm.imp Eq.symm fun any => ⟨any, tagLow⟩, sources.symm.imp Eq.symm id⟩

/-- The test `send_match` of a queued receive's cookie is the acceptance of its issue. -/
theorem sendMatch_eq_accepts {cookie : Cookie} {r : RecvIssue} (src : cookie.src = r.source)
    (tag : cookie.tag = r.tag) (x : SendIssue) : cookie.sendMatch x.rank x.tag = r.accepts x := by
  rw [Bool.eq_iff_iff]
  simp only [Cookie.sendMatch, RecvIssue.accepts, src, tag, Bool.and_eq_true, Bool.or_eq_true,
    beq_iff_eq]
  constructor
  · rintro ⟨tags, sources⟩
    exact ⟨sources.symm, tags.symm⟩
  · rintro ⟨sources, tags⟩
    exact ⟨tags.symm, sources.symm⟩

/-- The state of the matcher. -/
abbrev IssueMatcher := Matcher SendIssue RecvIssue

/-- The requests of everything queued and, once for each pair, of everything paired. -/
def IssueMatcher.requests (m : IssueMatcher) : List Nat :=
  m.sends.map SendIssue.request ++ m.recvs.map RecvIssue.request ++
    m.pairs.map fun pair => pair.1.request

/-- The exchange with destination `dest` is in a state the matcher describes. -/
structure Refines (dest : Nat) (s : Exchange) (m : IssueMatcher) : Prop where
  sent : m.sent = s.sends
  posted : m.posted = s.recvs
  inbox : (s.world.procs dest).inbox = m.sends.map SendIssue.request
  outbox : (s.world.procs dest).outbox = m.recvs.map RecvIssue.request
  /-- A send's cookie, queued or paired, carries the rank and tag of the send. -/
  sendCookies : ∀ x ∈ m.sends ++ m.pairs.map Prod.fst,
    (s.world.cookies x.request).src = x.rank ∧ (s.world.cookies x.request).tag = x.tag
  recvCookies : ∀ r ∈ m.recvs,
    (s.world.cookies r.request).src = r.source ∧ (s.world.cookies r.request).tag = r.tag
  pairs : ∀ pair ∈ m.pairs, pair.2.request = pair.1.request
  /-- No request is used twice, and none of them is up for reuse. -/
  distinct : (m.requests ++ (s.world.procs dest).free).Nodup
  allocated : ∀ id ∈ m.requests ++ (s.world.procs dest).free, id < s.world.next
  tagsLow : ∀ x ∈ m.sent, 0 ≤ x.tag

namespace Refines

variable {dest : Nat} {s : Exchange} {m : IssueMatcher}

theorem initial (start : Exchange.Initial dest s) : Refines dest s Matcher.empty where
  sent := start.sends.symm
  posted := start.recvs.symm
  inbox := start.inbox
  outbox := start.outbox
  sendCookies := by simp [Matcher.empty]
  recvCookies := by simp [Matcher.empty]
  pairs := by simp [Matcher.empty]
  distinct := by simpa [IssueMatcher.requests, Matcher.empty] using start.freeNodup
  allocated := by simpa [IssueMatcher.requests, Matcher.empty] using start.freeBound
  tagsLow := by simp [Matcher.empty]

/-- Transfers do not concern the matcher. -/
theorem quiet (refines : Refines dest s m) {w : World} (same : Quiet s.world w)
    (transfers : List (Nat × Action)) :
    Refines dest { s with world := w, transfers := transfers } m where
  sent := refines.sent
  posted := refines.posted
  inbox := (same.inbox dest).trans refines.inbox
  outbox := (same.outbox dest).trans refines.outbox
  sendCookies := by
    intro x member
    rw [same.src, same.tag]
    exact refines.sendCookies x member
  recvCookies := by
    intro r member
    rw [same.src, same.tag]
    exact refines.recvCookies r member
  pairs := refines.pairs
  distinct := by
    rw [same.free]
    exact refines.distinct
  allocated := by
    rw [same.free, same.next]
    exact refines.allocated
  tagsLow := refines.tagsLow

/-- The receive an arriving send finds in the outbox is the one the matcher finds. -/
theorem find_outbox (refines : Refines dest s m) (self : Nat) (tag : Int) (id : Nat) :
    ((s.world.procs dest).outbox.find? fun id => (s.world.cookies id).sendMatch self tag) =
      (m.recvs.find? fun r => r.accepts { rank := self, tag := tag, request := id }).map
        RecvIssue.request := by
  rw [refines.outbox]
  refine find_map_request _ _ _ _ fun r member => ?_
  obtain ⟨src, tags⟩ := refines.recvCookies r member
  exact sendMatch_eq_accepts src tags { rank := self, tag := tag, request := id }

/-- The send an arriving receive finds in the inbox is the one the matcher finds. -/
theorem find_inbox (refines : Refines dest s m) (sound : m.Sound RecvIssue.accepts) (source tag : Int)
    (id : Nat) :
    ((s.world.procs dest).inbox.find? fun id => (s.world.cookies id).recvMatch source tag) =
      (m.sends.find? fun x => RecvIssue.accepts { source := source, tag := tag, request := id } x).map
        SendIssue.request := by
  rw [refines.inbox]
  refine find_map_request _ _ _ _ fun x member => ?_
  obtain ⟨src, tags⟩ := refines.sendCookies x (List.mem_append_left _ member)
  exact recvMatch_eq_accepts src tags
    (refines.tagsLow x (sound.sendsOrder.subset member)) { source := source, tag := tag, request := id }

/-- A send or a receive that has arrived uses one of the requests. -/
theorem mem_requests_of_sent (sound : m.Sound RecvIssue.accepts) {x : SendIssue}
    (arrived : x ∈ m.sent) : x.request ∈ m.requests := by
  rcases sound.sends_or_paired arrived with queued | paired
  · exact List.mem_append_left _ (List.mem_append_left _ (List.mem_map_of_mem queued))
  · obtain ⟨pair, member, rfl⟩ := List.mem_map.mp paired
    exact List.mem_append_right _ (List.mem_map_of_mem member)

theorem mem_requests_of_posted (refines : Refines dest s m) (sound : m.Sound RecvIssue.accepts)
    {r : RecvIssue} (arrived : r ∈ m.posted) : r.request ∈ m.requests := by
  rcases sound.recvs_or_paired arrived with queued | paired
  · exact List.mem_append_left _ (List.mem_append_right _ (List.mem_map_of_mem queued))
  · obtain ⟨pair, member, rfl⟩ := List.mem_map.mp paired
    rw [refines.pairs pair member]
    exact List.mem_append_right _ (List.mem_map_of_mem member)

/-- Pairing an arriving item with a queued one keeps the collection of requests. -/
theorem requests_paired_recv {x : SendIssue} {r : RecvIssue} (queued : r ∈ m.recvs)
    (same : x.request = r.request) (sent : List SendIssue) :
    (IssueMatcher.requests
      { m with sent := sent, recvs := m.recvs.erase r, pairs := m.pairs ++ [(x, r)] }).Perm
        m.requests := by
  have split : (m.recvs.map RecvIssue.request).Perm
      (r.request :: (m.recvs.erase r).map RecvIssue.request) :=
    (List.perm_cons_erase queued).map RecvIssue.request
  simp only [IssueMatcher.requests, List.map_append, List.map_cons, List.map_nil, same]
  rw [← List.append_assoc]
  refine (List.perm_append_singleton _ _).trans ?_
  rw [← List.cons_append]
  refine List.Perm.append_right _ ?_
  exact List.perm_middle.symm.trans (split.symm.append_left _)

theorem requests_paired_send {x : SendIssue} (r : RecvIssue) (queued : x ∈ m.sends)
    (posted : List RecvIssue) :
    (IssueMatcher.requests
      { m with posted := posted, sends := m.sends.erase x, pairs := m.pairs ++ [(x, r)] }).Perm
        m.requests := by
  have split : (m.sends.map SendIssue.request).Perm
      (x.request :: (m.sends.erase x).map SendIssue.request) :=
    (List.perm_cons_erase queued).map SendIssue.request
  simp only [IssueMatcher.requests, List.map_append, List.map_cons, List.map_nil]
  rw [← List.append_assoc]
  refine (List.perm_append_singleton _ _).trans ?_
  rw [← List.cons_append, ← List.cons_append]
  exact (split.symm.append_right _).append_right _

theorem nodup_requests (refines : Refines dest s m) : m.requests.Nodup :=
  (List.nodup_append.mp refines.distinct).1

theorem nodup_sendRequests (refines : Refines dest s m) : (m.sends.map SendIssue.request).Nodup :=
  (List.nodup_append.mp (List.nodup_append.mp refines.nodup_requests).1).1

theorem nodup_recvRequests (refines : Refines dest s m) : (m.recvs.map RecvIssue.request).Nodup :=
  (List.nodup_append.mp (List.nodup_append.mp refines.nodup_requests).1).2.1

/-- A queued receive's request belongs to no send that has arrived. -/
theorem recv_request_unused (refines : Refines dest s m) {r : RecvIssue} (queued : r ∈ m.recvs)
    {x : SendIssue} (member : x ∈ m.sends ++ m.pairs.map Prod.fst) : x.request ≠ r.request := by
  have nodup := refines.nodup_requests
  rcases List.mem_append.mp member with queuedSend | paired
  · have apart := (List.nodup_append.mp (List.nodup_append.mp nodup).1).2.2
    exact apart _ (List.mem_map_of_mem queuedSend) _ (List.mem_map_of_mem queued)
  · obtain ⟨pair, listed, rfl⟩ := List.mem_map.mp paired
    have apart := (List.nodup_append.mp nodup).2.2
    exact (apart _ (List.mem_append_right _ (List.mem_map_of_mem queued)) _
      (List.mem_map.mpr ⟨pair, listed, rfl⟩)).symm

theorem mem_requests_of_send {x : SendIssue} (member : x ∈ m.sends ++ m.pairs.map Prod.fst) :
    x.request ∈ m.requests := by
  rcases List.mem_append.mp member with queued | paired
  · exact List.mem_append_left _ (List.mem_append_left _ (List.mem_map_of_mem queued))
  · obtain ⟨pair, listed, rfl⟩ := List.mem_map.mp paired
    exact List.mem_append_right _ (List.mem_map.mpr ⟨pair, listed, rfl⟩)

theorem mem_requests_of_recv {r : RecvIssue} (member : r ∈ m.recvs) : r.request ∈ m.requests :=
  List.mem_append_left _ (List.mem_append_right _ (List.mem_map_of_mem member))

section Steps

variable {s' : Exchange}

/-- A send that finds no receive is queued with a new request. -/
theorem queueSend (refines : Refines dest s m) (x : SendIssue) (sends : s'.sends = s.sends ++ [x])
    (recvs : s'.recvs = s.recvs)
    (inbox : (s'.world.procs dest).inbox = (s.world.procs dest).inbox ++ [x.request])
    (outbox : (s'.world.procs dest).outbox = (s.world.procs dest).outbox)
    (newCookie : (s'.world.cookies x.request).src = x.rank ∧ (s'.world.cookies x.request).tag = x.tag)
    (oldCookies : ∀ id ≠ x.request, s'.world.cookies id = s.world.cookies id)
    (distinct : (m.requests ++ x.request :: (s'.world.procs dest).free).Nodup)
    (allocated : ∀ id ∈ m.requests ++ x.request :: (s'.world.procs dest).free, id < s'.world.next)
    (tagLow : 0 ≤ x.tag) :
    Refines dest s' { m with sent := m.sent ++ [x], sends := m.sends ++ [x] } := by
  have fresh : ∀ id ∈ m.requests, id ≠ x.request := fun id used =>
    (List.nodup_append.mp distinct).2.2 id used x.request List.mem_cons_self
  have reorder : (IssueMatcher.requests
      { m with sent := m.sent ++ [x], sends := m.sends ++ [x] } ++ (s'.world.procs dest).free).Perm
      (m.requests ++ x.request :: (s'.world.procs dest).free) := by
    simp only [IssueMatcher.requests, List.map_append, List.map_cons, List.map_nil,
      List.append_assoc]
    refine List.Perm.append_left _ ?_
    have middle := @List.perm_middle _ x.request
      (m.recvs.map RecvIssue.request ++ m.pairs.map fun pair => pair.1.request)
      (s'.world.procs dest).free
    rw [List.append_assoc, List.append_assoc] at middle
    exact middle.symm
  refine
    { sent := by rw [sends, ← refines.sent]
      posted := refines.posted.trans recvs.symm
      inbox := by rw [inbox, refines.inbox, List.map_append, List.map_singleton]
      outbox := outbox.trans refines.outbox
      sendCookies := ?_
      recvCookies := ?_
      pairs := refines.pairs
      distinct := reorder.nodup_iff.mpr distinct
      allocated := fun id member => allocated id (reorder.mem_iff.mp member)
      tagsLow := ?_ }
  · intro y member
    by_cases old : y ∈ m.sends ++ m.pairs.map Prod.fst
    · rw [oldCookies _ (fresh _ (mem_requests_of_send old))]
      exact refines.sendCookies y old
    · have new : y = x := by
        simp only [List.mem_append, List.mem_singleton, not_or] at member old
        rcases member with (queued | only) | paired
        · exact absurd queued old.1
        · exact only
        · exact absurd paired old.2
      rw [new]
      exact newCookie
  · intro r member
    rw [oldCookies _ (fresh _ (mem_requests_of_recv member))]
    exact refines.recvCookies r member
  · intro y member
    rcases List.mem_append.mp member with earlier | only
    · exact refines.tagsLow y earlier
    · rw [List.mem_singleton.mp only]
      exact tagLow

/-- A receive that finds no send is queued with a new request. -/
theorem queueRecv (refines : Refines dest s m) (r : RecvIssue) (recvs : s'.recvs = s.recvs ++ [r])
    (sends : s'.sends = s.sends)
    (outbox : (s'.world.procs dest).outbox = (s.world.procs dest).outbox ++ [r.request])
    (inbox : (s'.world.procs dest).inbox = (s.world.procs dest).inbox)
    (newCookie : (s'.world.cookies r.request).src = r.source ∧
      (s'.world.cookies r.request).tag = r.tag)
    (oldCookies : ∀ id ≠ r.request, s'.world.cookies id = s.world.cookies id)
    (distinct : (m.requests ++ r.request :: (s'.world.procs dest).free).Nodup)
    (allocated : ∀ id ∈ m.requests ++ r.request :: (s'.world.procs dest).free, id < s'.world.next) :
    Refines dest s' { m with posted := m.posted ++ [r], recvs := m.recvs ++ [r] } := by
  have fresh : ∀ id ∈ m.requests, id ≠ r.request := fun id used =>
    (List.nodup_append.mp distinct).2.2 id used r.request List.mem_cons_self
  have reorder : (IssueMatcher.requests
      { m with posted := m.posted ++ [r], recvs := m.recvs ++ [r] } ++
        (s'.world.procs dest).free).Perm
      (m.requests ++ r.request :: (s'.world.procs dest).free) := by
    simp only [IssueMatcher.requests, List.map_append, List.map_cons, List.map_nil,
      List.append_assoc]
    refine List.Perm.append_left _ (List.Perm.append_left _ ?_)
    rw [List.singleton_append]
    exact List.perm_middle.symm
  refine
    { sent := refines.sent.trans sends.symm
      posted := by rw [recvs, ← refines.posted]
      inbox := inbox.trans refines.inbox
      outbox := by rw [outbox, refines.outbox, List.map_append, List.map_singleton]
      sendCookies := ?_
      recvCookies := ?_
      pairs := refines.pairs
      distinct := reorder.nodup_iff.mpr distinct
      allocated := fun id member => allocated id (reorder.mem_iff.mp member)
      tagsLow := refines.tagsLow }
  · intro x member
    rw [oldCookies _ (fresh _ (mem_requests_of_send member))]
    exact refines.sendCookies x member
  · intro r' member
    rcases List.mem_append.mp member with earlier | only
    · rw [oldCookies _ (fresh _ (mem_requests_of_recv earlier))]
      exact refines.recvCookies r' earlier
    · rw [List.mem_singleton.mp only]
      exact newCookie

/-- A send that finds a receive takes over its request and puts its own rank and tag in. -/
theorem pairSend (refines : Refines dest s m) (x : SendIssue) {r : RecvIssue} (queued : r ∈ m.recvs)
    (same : x.request = r.request) (sends : s'.sends = s.sends ++ [x]) (recvs : s'.recvs = s.recvs)
    (inbox : (s'.world.procs dest).inbox = (s.world.procs dest).inbox)
    (outbox : (s'.world.procs dest).outbox = (s.world.procs dest).outbox.erase r.request)
    (newCookie : (s'.world.cookies x.request).src = x.rank ∧ (s'.world.cookies x.request).tag = x.tag)
    (oldCookies : ∀ id ≠ x.request, s'.world.cookies id = s.world.cookies id)
    (free : (s'.world.procs dest).free = (s.world.procs dest).free)
    (next : s'.world.next = s.world.next) (tagLow : 0 ≤ x.tag) :
    Refines dest s'
      { m with sent := m.sent ++ [x], recvs := m.recvs.erase r, pairs := m.pairs ++ [(x, r)] } := by
  have reorder := requests_paired_recv queued same (m.sent ++ [x])
  refine
    { sent := by rw [sends, ← refines.sent]
      posted := refines.posted.trans recvs.symm
      inbox := inbox.trans refines.inbox
      outbox := by
        rw [outbox, refines.outbox, map_erase_of_nodup _ refines.nodup_recvRequests queued]
      sendCookies := ?_
      recvCookies := ?_
      pairs := ?_
      distinct := by
        rw [free]
        exact (reorder.append_right _).nodup_iff.mpr refines.distinct
      allocated := by
        rw [free, next]
        exact fun id member => refines.allocated id ((reorder.append_right _).mem_iff.mp member)
      tagsLow := ?_ }
  · intro y member
    by_cases old : y ∈ m.sends ++ m.pairs.map Prod.fst
    · rw [oldCookies _ (same ▸ refines.recv_request_unused queued old)]
      exact refines.sendCookies y old
    · have new : y = x := by
        simp only [List.map_append, List.mem_append, not_or] at member old
        rcases member with queuedSend | paired | only
        · exact absurd queuedSend old.1
        · exact absurd paired old.2
        · simpa using only
      rw [new]
      exact newCookie
  · intro r' member
    have other : r' ≠ r := fun equal =>
      (refines.nodup_recvRequests.of_map _).not_mem_erase (equal ▸ member)
    have different : r'.request ≠ x.request := fun equal =>
      other (List.inj_on_of_nodup_map refines.nodup_recvRequests (List.mem_of_mem_erase member) queued
        (equal.trans same))
    rw [oldCookies _ different]
    exact refines.recvCookies r' (List.mem_of_mem_erase member)
  · intro pair member
    rcases List.mem_append.mp member with earlier | only
    · exact refines.pairs pair earlier
    · rw [List.mem_singleton.mp only]
      exact same.symm
  · intro y member
    rcases List.mem_append.mp member with earlier | only
    · exact refines.tagsLow y earlier
    · rw [List.mem_singleton.mp only]
      exact tagLow

/-- A receive that finds a send takes over its request. -/
theorem pairRecv (refines : Refines dest s m) (r : RecvIssue) {x : SendIssue} (queued : x ∈ m.sends)
    (same : r.request = x.request) (recvs : s'.recvs = s.recvs ++ [r]) (sends : s'.sends = s.sends)
    (inbox : (s'.world.procs dest).inbox = (s.world.procs dest).inbox.erase x.request)
    (outbox : (s'.world.procs dest).outbox = (s.world.procs dest).outbox)
    (cookies : ∀ id, (s'.world.cookies id).src = (s.world.cookies id).src ∧
      (s'.world.cookies id).tag = (s.world.cookies id).tag)
    (free : (s'.world.procs dest).free = (s.world.procs dest).free)
    (next : s'.world.next = s.world.next) :
    Refines dest s'
      { m with posted := m.posted ++ [r], sends := m.sends.erase x, pairs := m.pairs ++ [(x, r)] } := by
  have reorder := requests_paired_send r queued (m.posted ++ [r])
  refine
    { sent := refines.sent.trans sends.symm
      posted := by rw [recvs, ← refines.posted]
      inbox := by
        rw [inbox, refines.inbox, map_erase_of_nodup _ refines.nodup_sendRequests queued]
      outbox := outbox.trans refines.outbox
      sendCookies := ?_
      recvCookies := ?_
      pairs := ?_
      distinct := by
        rw [free]
        exact (reorder.append_right _).nodup_iff.mpr refines.distinct
      allocated := by
        rw [free, next]
        exact fun id member => refines.allocated id ((reorder.append_right _).mem_iff.mp member)
      tagsLow := refines.tagsLow }
  · intro y member
    have old : y ∈ m.sends ++ m.pairs.map Prod.fst := by
      simp only [List.map_append, List.mem_append] at member ⊢
      rcases member with remaining | paired | only
      · exact Or.inl (List.mem_of_mem_erase remaining)
      · exact Or.inr paired
      · have new : y = x := by simpa using only
        exact Or.inl (new ▸ queued)
    rw [(cookies _).1, (cookies _).2]
    exact refines.sendCookies y old
  · intro r' member
    rw [(cookies _).1, (cookies _).2]
    exact refines.recvCookies r' member
  · intro pair member
    rcases List.mem_append.mp member with earlier | only
    · exact refines.pairs pair earlier
    · rw [List.mem_singleton.mp only]
      exact same

end Steps

/-- The critical section of a send is an arrival at the matcher. -/
theorem send (refines : Refines dest s m) (sound : m.Sound RecvIssue.accepts) {self : Nat}
    (buf : Loc) (count : Int) (iovec : Iovec) {tag : Int} (rankBound : self < rankLimit)
    (tagLow : 0 ≤ tag) (tagHigh : tag < tagLimit) :
    ∃ x, x ∉ m.sent ∧
      Refines dest (s.send dest self buf count iovec tag) (m.send RecvIssue.accepts x) := by
  have exactRank : int16 (self : Int) = self := by
    unfold rankLimit at rankBound
    exact int16_of_range (by omega) (by omega)
  have exactTag : int16 tag = tag := by
    unfold tagLimit at tagHigh
    exact int16_of_range (by omega) tagHigh
  have outbox := refines.find_outbox self tag 0
  cases found : m.recvs.find? fun r =>
      r.accepts { rank := self, tag := tag, request := 0 } with
  | none =>
      let cookie := Cookie.make self buf iovec count count self tag 1
      let x : SendIssue :=
        { rank := self, tag := tag, request := (s.world.createRequest dest cookie).1 }
      rw [found, Option.map_none] at outbox
      obtain ⟨distinct, allocated⟩ := createRequest_fresh cookie refines.distinct refines.allocated
      have fresh : x.request ∉ m.requests := fun used =>
        (List.nodup_append.mp distinct).2.2 _ used _ List.mem_cons_self rfl
      refine ⟨x, fun arrived => fresh (mem_requests_of_sent sound arrived), ?_⟩
      have found' : m.recvs.find? (fun r => r.accepts x) = none := found
      rw [Matcher.send_of_notFound found']
      have queued : s.send dest self buf count iovec tag =
          { s with
            world := (sendRequest s.world self dest buf count iovec tag).1
            sends := s.sends ++ [x] } := by
        simp [Exchange.send, sendRequest, outbox, Frame.done, x, cookie]
      rw [queued]
      have newWorld : (sendRequest s.world self dest buf count iovec tag).1.cookies =
          Function.update s.world.cookies x.request cookie := by
        simp [sendRequest, outbox, x, cookie]
      refine refines.queueSend x rfl rfl ?_ ?_ ?_ ?_ ?_ ?_ tagLow
      · simp [sendRequest, outbox, x, cookie]
      · simp [sendRequest, outbox]
      · simp [newWorld, cookie, Cookie.make, exactRank, exactTag, x]
      · intro id different
        simp [newWorld, different]
      · simpa [sendRequest, outbox, x, cookie] using distinct
      · simpa [sendRequest, outbox, x, cookie] using allocated
  | some r =>
      let x : SendIssue := { rank := self, tag := tag, request := r.request }
      have queued : r ∈ m.recvs := List.mem_of_find?_eq_some found
      rw [found, Option.map_some] at outbox
      have fresh : x ∉ m.sent := by
        intro arrived
        have member := List.mem_append.mpr (sound.sends_or_paired arrived)
        exact refines.recv_request_unused queued member rfl
      refine ⟨x, fresh, ?_⟩
      have found' : m.recvs.find? (fun r => r.accepts x) = some r := found
      rw [Matcher.send_of_found found']
      apply refines.pairSend x queued rfl
      all_goals simp [Exchange.send, sendRequest, outbox, Frame.done, exactRank, exactTag, tagLow, x]
      intro id different
      simp [different]

/-- The critical section of a receive is an arrival at the matcher. -/
theorem recv (refines : Refines dest s m) (sound : m.Sound RecvIssue.accepts) (buf : Loc) (count : Int)
    (iovec : Iovec) {source tag : Int} (sourceLow : mpiAnySource ≤ source)
    (sourceHigh : source < rankLimit) (tagLow : mpiAnyTag ≤ tag) (tagHigh : tag < tagLimit) :
    ∃ r, r ∉ m.posted ∧
      Refines dest (s.recv dest buf count iovec source tag) (m.recv RecvIssue.accepts r) := by
  have exactSource : int16 source = source := by
    unfold rankLimit at sourceHigh
    unfold mpiAnySource at sourceLow
    exact int16_of_range (by omega) (by omega)
  have exactTag : int16 tag = tag := by
    unfold tagLimit at tagHigh
    unfold mpiAnyTag at tagLow
    exact int16_of_range (by omega) tagHigh
  have inbox := refines.find_inbox sound source tag 0
  cases found : m.sends.find? fun x =>
      RecvIssue.accepts { source := source, tag := tag, request := 0 } x with
  | none =>
      let cookie := Cookie.make dest buf iovec count count source tag 1
      let r : RecvIssue :=
        { source := source, tag := tag, request := (s.world.createRequest dest cookie).1 }
      rw [found, Option.map_none] at inbox
      obtain ⟨distinct, allocated⟩ := createRequest_fresh cookie refines.distinct refines.allocated
      have fresh : r.request ∉ m.requests := fun used =>
        (List.nodup_append.mp distinct).2.2 _ used _ List.mem_cons_self rfl
      refine ⟨r, fun arrived => fresh (mem_requests_of_posted refines sound arrived), ?_⟩
      have found' : m.sends.find? (fun x => RecvIssue.accepts r x) = none := found
      rw [Matcher.recv_of_notFound found']
      have queued : s.recv dest buf count iovec source tag =
          { s with
            world := (recvRequest s.world dest buf count iovec source tag).1
            recvs := s.recvs ++ [r] } := by
        simp [Exchange.recv, recvRequest, inbox, Frame.done, r, cookie]
      rw [queued]
      have newWorld : (recvRequest s.world dest buf count iovec source tag).1.cookies =
          Function.update s.world.cookies r.request cookie := by
        simp [recvRequest, inbox, r, cookie]
      refine refines.queueRecv r rfl rfl ?_ ?_ ?_ ?_ ?_ ?_
      · simp [recvRequest, inbox, r, cookie]
      · simp [recvRequest, inbox]
      · simp [newWorld, cookie, Cookie.make, exactSource, exactTag, r]
      · intro id different
        simp [newWorld, different]
      · simpa [recvRequest, inbox, r, cookie] using distinct
      · simpa [recvRequest, inbox, r, cookie] using allocated
  | some x =>
      let r : RecvIssue := { source := source, tag := tag, request := x.request }
      have queued : x ∈ m.sends := List.mem_of_find?_eq_some found
      rw [found, Option.map_some] at inbox
      have fresh : r ∉ m.posted := by
        intro arrived
        have member := List.mem_append_left (m.pairs.map Prod.fst) queued
        rcases sound.recvs_or_paired arrived with waiting | paired
        · exact refines.recv_request_unused waiting member rfl
        · obtain ⟨pair, listed, same⟩ := List.mem_map.mp paired
          have pairRequest : pair.1.request = x.request := by
            rw [← refines.pairs pair listed, same]
          exact (List.nodup_append.mp refines.nodup_requests).2.2 x.request
            (List.mem_append_left _ (List.mem_map_of_mem queued)) x.request
            (List.mem_map.mpr ⟨pair, listed, pairRequest⟩) rfl
      refine ⟨r, fresh, ?_⟩
      have found' : m.sends.find? (fun x => RecvIssue.accepts r x) = some x := found
      rw [Matcher.recv_of_found found']
      apply refines.pairRecv r queued rfl
      all_goals simp [Exchange.recv, recvRequest, inbox, Frame.done, r]
      intro id
      by_cases same : id = x.request <;> simp [same]

end Refines

/-- Every reachable state of an exchange is described by a sound state of the matcher. -/
theorem reaches_refines {dest : Nat} {start s : Exchange} (initial : Exchange.Initial dest start)
    (run : Exchange.Reaches dest start s) :
    ∃ m, Refines dest s m ∧ m.Sound RecvIssue.accepts := by
  induction run with
  | refl => exact ⟨Matcher.empty, Refines.initial initial, Matcher.Sound.empty⟩
  | tail before step ih =>
      obtain ⟨m, refines, sound⟩ := ih
      cases step with
      | send self buf count iovec tag rankBound tagLow tagHigh =>
          obtain ⟨x, fresh, refines'⟩ :=
            refines.send sound buf count iovec rankBound tagLow tagHigh
          exact ⟨_, refines', sound.send fresh⟩
      | recv buf count iovec source tag sourceLow sourceHigh tagLow tagHigh =>
          obtain ⟨r, fresh, refines'⟩ :=
            refines.recv sound buf count iovec sourceLow sourceHigh tagLow tagHigh
          exact ⟨_, refines', sound.recv fresh⟩
      | transfer vm before after self action done outstanding performed =>
          exact ⟨m, refines.quiet (exec_quiet performed) _, sound⟩

/-! ### What the matcher says about the queues -/

/-- Two issues that returned one request exchange a message. -/
def Paired (x : SendIssue) (r : RecvIssue) : Prop := x.request = r.request

/-- The state of an exchange in which nothing has been lost and nothing overtaken. -/
structure Exchange.Correct (dest : Nat) (s : Exchange) : Prop where
  /-- Whatever is called next is issued: no call returns without a request. -/
  sendIssued : ∀ self buf count iovec tag, ∃ request, (s.send dest self buf count iovec tag).sends =
    s.sends ++ [{ rank := self, tag := tag, request := request }]
  recvIssued : ∀ buf count iovec source tag, ∃ request, (s.recv dest buf count iovec source tag).recvs =
    s.recvs ++ [{ source := source, tag := tag, request := request }]
  /-- No queued send matches a queued receive, whichever of the two tests is asked. -/
  apart : ∀ i ∈ (s.world.procs dest).inbox, ∀ o ∈ (s.world.procs dest).outbox,
    (s.world.cookies i).recvMatch (s.world.cookies o).src (s.world.cookies o).tag = false ∧
      (s.world.cookies o).sendMatch (s.world.cookies i).src (s.world.cookies i).tag = false
  /-- Every send is queued once and has no partner, or is not queued and has one partner. -/
  sendsOnce : ∀ x ∈ s.sends,
    ((s.world.procs dest).inbox.count x.request = 1 ∧ ∀ r ∈ s.recvs, ¬ Paired x r) ∨
      ((s.world.procs dest).inbox.count x.request = 0 ∧ ∃! r, r ∈ s.recvs ∧ Paired x r)
  /-- Every receive is queued once and has no partner, or is not queued and has one partner. -/
  recvsOnce : ∀ r ∈ s.recvs,
    ((s.world.procs dest).outbox.count r.request = 1 ∧ ∀ x ∈ s.sends, ¬ Paired x r) ∨
      ((s.world.procs dest).outbox.count r.request = 0 ∧ ∃! x, x ∈ s.sends ∧ Paired x r)
  /-- Different issues have different requests, so the queues tell them apart. -/
  sendRequests : (s.sends.map SendIssue.request).Nodup
  recvRequests : (s.recvs.map RecvIssue.request).Nodup
  /-- Nothing is queued that was not issued. -/
  inboxIssued : ∀ i ∈ (s.world.procs dest).inbox, ∃ x ∈ s.sends, x.request = i
  outboxIssued : ∀ o ∈ (s.world.procs dest).outbox, ∃ r ∈ s.recvs, r.request = o
  /-- Partners fit together. -/
  accepted : ∀ x ∈ s.sends, ∀ r ∈ s.recvs, Paired x r → r.accepts x = true
  /-- Of two sends that a receive accepts, it is not paired with the later one unless the earlier one
      has a partner. -/
  sendsFair : ∀ x₁ x₂, [x₁, x₂].Sublist s.sends → ∀ r ∈ s.recvs, Paired x₂ r →
    r.accepts x₁ = true → ∃ r' ∈ s.recvs, Paired x₁ r'
  /-- Of two receives that accept a send, the later one is not paired with it unless the earlier one
      has a partner. -/
  recvsFair : ∀ r₁ r₂, [r₁, r₂].Sublist s.recvs → ∀ x ∈ s.sends, Paired x r₂ →
    r₁.accepts x = true → ∃ x' ∈ s.sends, Paired x' r₁
  /-- The receiver's status names the sender and the tag. -/
  status : ∀ x ∈ s.sends, ∀ r ∈ s.recvs, Paired x r →
    (getStatus (s.world.cookies r.request)).1.source = x.rank ∧
      (getStatus (s.world.cookies r.request)).1.tag = x.tag

/-- A send returns a request, found or new. -/
theorem Exchange.send_issued (s : Exchange) (dest self : Nat) (buf : Loc) (count : Int) (iovec : Iovec) (tag : Int) :
    ∃ request, (s.send dest self buf count iovec tag).sends =
      s.sends ++ [{ rank := self, tag := tag, request := request }] := by
  unfold Exchange.send sendRequest
  dsimp only
  split
  · exact ⟨_, rfl⟩
  · exact ⟨_, rfl⟩

/-- So does a receive. -/
theorem Exchange.recv_issued (s : Exchange) (dest : Nat) (buf : Loc) (count : Int) (iovec : Iovec) (source tag : Int) :
    ∃ request, (s.recv dest buf count iovec source tag).recvs =
      s.recvs ++ [{ source := source, tag := tag, request := request }] := by
  unfold Exchange.recv recvRequest
  dsimp only
  split
  · exact ⟨_, rfl⟩
  · exact ⟨_, rfl⟩

namespace Refines

variable {dest : Nat} {s : Exchange} {m : IssueMatcher}

/-- The requests of all sends are different. -/
theorem nodup_sent (refines : Refines dest s m) (sound : m.Sound RecvIssue.accepts) :
    (m.sent.map SendIssue.request).Nodup := by
  have nodup := refines.nodup_requests
  have perm := sound.sendsOnce.map SendIssue.request
  rw [perm.nodup_iff, List.map_append, List.map_map]
  unfold IssueMatcher.requests at nodup
  rw [List.append_assoc] at nodup
  refine nodup.sublist (List.Sublist.append_left ?_ _)
  exact List.sublist_append_right _ _

theorem nodup_posted (refines : Refines dest s m) (sound : m.Sound RecvIssue.accepts) :
    (m.posted.map RecvIssue.request).Nodup := by
  have nodup := refines.nodup_requests
  have perm := sound.recvsOnce.map RecvIssue.request
  have same : (m.pairs.map Prod.snd).map RecvIssue.request =
      m.pairs.map fun pair => pair.1.request := by
    rw [List.map_map]
    exact List.map_congr_left fun pair member => refines.pairs pair member
  rw [perm.nodup_iff, List.map_append, same]
  unfold IssueMatcher.requests at nodup
  rw [List.append_assoc] at nodup
  exact (List.nodup_append.mp nodup).2.1

/-- Partners are what the matcher has paired. -/
theorem mem_pairs (refines : Refines dest s m) (sound : m.Sound RecvIssue.accepts) {x : SendIssue}
    {r : RecvIssue} (sent : x ∈ m.sent) (posted : r ∈ m.posted) (paired : Paired x r) :
    (x, r) ∈ m.pairs := by
  rcases sound.recvs_or_paired posted with waiting | listed
  · exact absurd paired
      (refines.recv_request_unused waiting (List.mem_append.mpr (sound.sends_or_paired sent)))
  · obtain ⟨pair, member, rfl⟩ := List.mem_map.mp listed
    have sameRequest : pair.1.request = x.request :=
      (refines.pairs pair member).symm.trans paired.symm
    have same : pair.1 = x :=
      List.inj_on_of_nodup_map (refines.nodup_sent sound) (sound.mem_sent_of_paired member) sent
        sameRequest
    rw [← same]
    exact member

theorem paired_of_mem (refines : Refines dest s m) {x : SendIssue} {r : RecvIssue}
    (member : (x, r) ∈ m.pairs) : Paired x r :=
  (refines.pairs (x, r) member).symm

/-- A send is queued or paired. -/
theorem send_cases (refines : Refines dest s m) (sound : m.Sound RecvIssue.accepts) {x : SendIssue}
    (issued : x ∈ s.sends) :
    ((s.world.procs dest).inbox.count x.request = 1 ∧ ∀ r ∈ s.recvs, ¬ Paired x r) ∨
      ((s.world.procs dest).inbox.count x.request = 0 ∧ ∃! r, r ∈ s.recvs ∧ Paired x r) := by
  have sent : x ∈ m.sent := refines.sent ▸ issued
  have apart := (List.nodup_append.mp refines.nodup_requests).2.2
  rw [refines.inbox]
  rcases sound.sends_or_paired sent with queued | listed
  · refine Or.inl ⟨List.count_eq_one_of_mem refines.nodup_sendRequests
      (List.mem_map_of_mem queued), ?_⟩
    intro r issuedRecv paired
    have member := refines.mem_pairs sound sent (refines.posted ▸ issuedRecv) paired
    exact apart x.request (List.mem_append_left _ (List.mem_map_of_mem queued)) x.request
      (List.mem_map.mpr ⟨(x, r), member, rfl⟩) rfl
  · obtain ⟨⟨x, r⟩, member, rfl⟩ := List.mem_map.mp listed
    have paired : Paired x r := refines.paired_of_mem member
    have posted : r ∈ m.posted := sound.recvsOnce.mem_iff.mpr
      (List.mem_append_right _ (List.mem_map.mpr ⟨(x, r), member, rfl⟩))
    refine Or.inr ⟨List.count_eq_zero.mpr ?_, r, ⟨refines.posted ▸ posted, paired⟩, ?_⟩
    · intro queued
      exact apart x.request (List.mem_append_left _ queued) x.request
        (List.mem_map.mpr ⟨(x, r), member, rfl⟩) rfl
    · rintro r' ⟨issuedRecv, paired'⟩
      exact List.inj_on_of_nodup_map (refines.nodup_posted sound) (refines.posted ▸ issuedRecv) posted
        (paired'.symm.trans paired)

/-- A receive is queued or paired. -/
theorem recv_cases (refines : Refines dest s m) (sound : m.Sound RecvIssue.accepts) {r : RecvIssue}
    (issued : r ∈ s.recvs) :
    ((s.world.procs dest).outbox.count r.request = 1 ∧ ∀ x ∈ s.sends, ¬ Paired x r) ∨
      ((s.world.procs dest).outbox.count r.request = 0 ∧ ∃! x, x ∈ s.sends ∧ Paired x r) := by
  have posted : r ∈ m.posted := refines.posted ▸ issued
  have apart := (List.nodup_append.mp refines.nodup_requests).2.2
  rw [refines.outbox]
  rcases sound.recvs_or_paired posted with queued | listed
  · refine Or.inl ⟨List.count_eq_one_of_mem refines.nodup_recvRequests
      (List.mem_map_of_mem queued), ?_⟩
    intro x issuedSend paired
    have sent : x ∈ m.sent := refines.sent ▸ issuedSend
    exact refines.recv_request_unused queued (List.mem_append.mpr (sound.sends_or_paired sent)) paired
  · obtain ⟨⟨x, r⟩, member, rfl⟩ := List.mem_map.mp listed
    have paired : Paired x r := refines.paired_of_mem member
    have sent : x ∈ m.sent := sound.mem_sent_of_paired member
    refine Or.inr ⟨List.count_eq_zero.mpr ?_, x, ⟨refines.sent ▸ sent, paired⟩, ?_⟩
    · intro queued
      exact apart r.request (List.mem_append_right _ queued) r.request
        (List.mem_map.mpr ⟨(x, r), member, paired⟩) rfl
    · rintro x' ⟨issuedSend, paired'⟩
      exact List.inj_on_of_nodup_map (refines.nodup_sent sound) (refines.sent ▸ issuedSend) sent
        (paired'.trans paired.symm)

/-- No queued send fits a queued receive. -/
theorem queues_apart (refines : Refines dest s m) (sound : m.Sound RecvIssue.accepts) {i o : Nat}
    (inbox : i ∈ (s.world.procs dest).inbox) (outbox : o ∈ (s.world.procs dest).outbox) :
    (s.world.cookies i).recvMatch (s.world.cookies o).src (s.world.cookies o).tag = false ∧
      (s.world.cookies o).sendMatch (s.world.cookies i).src (s.world.cookies i).tag = false := by
  rw [refines.inbox] at inbox
  rw [refines.outbox] at outbox
  obtain ⟨x, queued, rfl⟩ := List.mem_map.mp inbox
  obtain ⟨r, waiting, rfl⟩ := List.mem_map.mp outbox
  have unfit := sound.apart x queued r waiting
  obtain ⟨srcSend, tagSend⟩ := refines.sendCookies x (List.mem_append_left _ queued)
  obtain ⟨srcRecv, tagRecv⟩ := refines.recvCookies r waiting
  have tagLow := refines.tagsLow x (sound.sendsOrder.subset queued)
  constructor
  · rw [srcRecv, tagRecv, recvMatch_eq_accepts srcSend tagSend tagLow, unfit]
  · rw [srcSend, tagSend, sendMatch_eq_accepts srcRecv tagRecv, unfit]

end Refines

/-- In every reachable state of an exchange every call is issued, nothing has been lost and nothing overtaken. -/
theorem exchange_correct {dest : Nat} {start s : Exchange} (initial : Exchange.Initial dest start)
    (run : Exchange.Reaches dest start s) : s.Correct dest := by
  obtain ⟨m, refines, sound⟩ := reaches_refines initial run
  have pairedIn : ∀ x ∈ s.sends, ∀ r ∈ s.recvs, Paired x r → (x, r) ∈ m.pairs :=
    fun x issued r issuedRecv =>
      refines.mem_pairs sound (refines.sent ▸ issued) (refines.posted ▸ issuedRecv)
  refine
    { sendIssued := s.send_issued dest
      recvIssued := s.recv_issued dest
      apart := fun i inbox o outbox => refines.queues_apart sound inbox outbox
      sendsOnce := fun x issued => refines.send_cases sound issued
      recvsOnce := fun r issued => refines.recv_cases sound issued
      sendRequests := refines.sent ▸ refines.nodup_sent sound
      recvRequests := refines.posted ▸ refines.nodup_posted sound
      inboxIssued := ?_
      outboxIssued := ?_
      accepted := fun x issued r issuedRecv paired =>
        sound.accepted _ (pairedIn x issued r issuedRecv paired)
      sendsFair := ?_
      recvsFair := ?_
      status := ?_ }
  · intro i queued
    rw [refines.inbox] at queued
    obtain ⟨x, member, rfl⟩ := List.mem_map.mp queued
    exact ⟨x, refines.sent ▸ sound.sendsOrder.subset member, rfl⟩
  · intro o queued
    rw [refines.outbox] at queued
    obtain ⟨r, member, rfl⟩ := List.mem_map.mp queued
    exact ⟨r, refines.posted ▸ sound.recvsOrder.subset member, rfl⟩
  · intro x₁ x₂ ordered r issuedRecv paired fits
    have member := pairedIn x₂ (ordered.subset (by simp)) r issuedRecv paired
    obtain ⟨⟨x, r'⟩, listed, rfl⟩ :=
      List.mem_map.mp (sound.sendsFair x₁ x₂ r (refines.sent ▸ ordered) member fits)
    have posted : r' ∈ m.posted := sound.recvsOnce.mem_iff.mpr
      (List.mem_append_right _ (List.mem_map.mpr ⟨(x, r'), listed, rfl⟩))
    exact ⟨r', refines.posted ▸ posted, refines.paired_of_mem listed⟩
  · intro r₁ r₂ ordered x issuedSend paired fits
    have member := pairedIn x issuedSend r₂ (ordered.subset (by simp)) paired
    obtain ⟨⟨x', r⟩, listed, rfl⟩ :=
      List.mem_map.mp (sound.recvsFair r₁ r₂ x (refines.posted ▸ ordered) member fits)
    exact ⟨x', refines.sent ▸ sound.mem_sent_of_paired listed, refines.paired_of_mem listed⟩
  · intro x issued r issuedRecv paired
    have member := pairedIn x issued r issuedRecv paired
    have cookie := refines.sendCookies x
      (List.mem_append_right _ (List.mem_map.mpr ⟨(x, r), member, rfl⟩))
    unfold Paired at paired
    rwa [paired] at cookie

/-- A send from rank 1 with tag 7, and then a receive from any source with that tag by rank 0. -/
theorem exchange_correct_sendThenRecv :
    (((Exchange.start 2 fun _ => 0).send 0 1 { region := .heap 1, addr := 0 } 1
        (Iovec.basic .int 4) 7).recv 0 { region := .heap 0, addr := 0 } 1 (Iovec.basic .int 4)
          mpiAnySource 7).Correct 0 :=
  exchange_correct (Exchange.start_initial 2 _ 0)
    (.tail (.tail .refl (.send _ 1 _ _ _ 7 (by decide) (by decide) (by decide)))
      (.recv _ _ _ _ mpiAnySource 7 (by decide) (by decide) (by decide) (by decide)))

end Umpi
