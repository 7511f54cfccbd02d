/-
Module: Umpi.Proofs.Probing
Layer: Proofs
Purpose: A probed message is the one received next. The three loops over `inbox_` find the same cookie because
  nothing but a receive removes or changes what is queued: sends append, and transfers are made through other
  cookies. A cookie's own source and tag select it again, since an older cookie with the same source and tag
  would have matched before.
Imports: Umpi.Proofs.Matching, Umpi.Proofs.Bounds, Umpi.Proofs.Requests, Umpi.Model.Probing
Trusted boundary: none
Main exports: Unread, Mailbox, Exchange.Extends, Exchange.Oldest.exact, readFromOwner_of_readTruncated, Probe.Knows,
  probed_message_is_received_next, Exchange.ReceivedNext.transfer
Open obligations: none
-/
import Umpi.Proofs.Matching
import Umpi.Proofs.Bounds
import Umpi.Proofs.Requests
import Umpi.Model.Probing

namespace Umpi

open Foundation

/-! ### What is queued -/

/-- A queued message: a send that nobody has transferred. -/
structure Unread (cookie : Cookie) : Prop where
  src : 0 ≤ cookie.src
  tag : 0 ≤ cookie.tag
  whole : cookie.count = cookie.size
  err : cookie.err = mpiSuccess

/-- The cookies of `dest` are in one place each, and no transfer that is due concerns a queued or a recycled one. -/
structure Mailbox (dest : Nat) (s : Exchange) : Prop where
  distinct : ((s.world.procs dest).inbox ++ (s.world.procs dest).outbox ++ (s.world.procs dest).free).Nodup
  allocated : ∀ id ∈ (s.world.procs dest).inbox ++ (s.world.procs dest).outbox ++ (s.world.procs dest).free,
    id < s.world.next
  unread : ∀ id ∈ (s.world.procs dest).inbox, Unread (s.world.cookies id)
  due : ∀ due ∈ s.transfers, ∀ id, due.2.transfer = some id →
    id < s.world.next ∧ id ∉ (s.world.procs dest).inbox ∧ id ∉ (s.world.procs dest).free

/-- What is queued stays, and more is queued behind it. -/
structure Exchange.Extends (dest : Nat) (s s' : Exchange) : Prop where
  inbox : (s.world.procs dest).inbox <+: (s'.world.procs dest).inbox
  cookies : ∀ id ∈ (s.world.procs dest).inbox, s'.world.cookies id = s.world.cookies id

/-- What is not recycled keeps its buffer. -/
structure Exchange.Keeps (dest : Nat) (s s' : Exchange) (id : Nat) : Prop where
  allocated : id < s'.world.next
  notFree : id ∉ (s'.world.procs dest).free
  size : (s'.world.cookies id).size = (s.world.cookies id).size
  iovec : (s'.world.cookies id).iovec = (s.world.cookies id).iovec

section Steps

variable {dest : Nat} {s : Exchange}

/-- A transfer changes one cookie. -/
theorem Action.exec_others {vm : ProcessVm} {w : World} {self : Nat} {action : Action} {done : Transferred}
    (performed : action.exec vm w self = .ok done) {other : Nat} (apart : action.transfer ≠ some other) :
    done.world.cookies other = w.cookies other := by
  cases action with
  | moveToPending id =>
      obtain rfl := Outcome.ok.inj performed
      rfl
  | writeToOwner id buf iovec count seek skip =>
      obtain ⟨seek, _, rest⟩ := Outcome.bind_eq_ok.mp performed
      obtain ⟨skip, _, written⟩ := Outcome.bind_eq_ok.mp rest
      exact (writeToOwner_touches written).others other fun same => apart (by rw [same]; rfl)
  | readFromOwner id buf iovec size count seek skip =>
      obtain ⟨seek, _, rest⟩ := Outcome.bind_eq_ok.mp performed
      obtain ⟨skip, _, read⟩ := Outcome.bind_eq_ok.mp rest
      exact (readFromOwner_touches read).others other fun same => apart (by rw [same]; rfl)
  | readIgnored id buf iovec size count =>
      obtain ⟨moved, read, last⟩ := Outcome.bind_eq_ok.mp performed
      obtain rfl := Outcome.ok.inj last
      exact (readFromOwner_touches read).others other fun same => apart (by rw [same]; rfl)
  | reduce op invec inoutvec count iovec =>
      obtain rfl := Outcome.ok.inj performed
      rfl

/-- A transfer through a cookie does not change what it was made with. -/
theorem Action.exec_fixed {vm : ProcessVm} {w : World} {self : Nat} {action : Action} {done : Transferred}
    (performed : action.exec vm w self = .ok done) (id : Nat) :
    (done.world.cookies id).size = (w.cookies id).size ∧ (done.world.cookies id).iovec = (w.cookies id).iovec := by
  cases action with
  | moveToPending id =>
      obtain rfl := Outcome.ok.inj performed
      exact ⟨rfl, rfl⟩
  | writeToOwner id' buf iovec count seek skip =>
      obtain ⟨seek, _, rest⟩ := Outcome.bind_eq_ok.mp performed
      obtain ⟨skip, _, written⟩ := Outcome.bind_eq_ok.mp rest
      exact ⟨(writeToOwner_touches written).cookieSize id, (writeToOwner_touches written).iovec id⟩
  | readFromOwner id' buf iovec size count seek skip =>
      obtain ⟨seek, _, rest⟩ := Outcome.bind_eq_ok.mp performed
      obtain ⟨skip, _, read⟩ := Outcome.bind_eq_ok.mp rest
      exact ⟨(readFromOwner_touches read).cookieSize id, (readFromOwner_touches read).iovec id⟩
  | readIgnored id' buf iovec size count =>
      obtain ⟨moved, read, last⟩ := Outcome.bind_eq_ok.mp performed
      obtain rfl := Outcome.ok.inj last
      exact ⟨(readFromOwner_touches read).cookieSize id, (readFromOwner_touches read).iovec id⟩
  | reduce op invec inoutvec count iovec =>
      obtain rfl := Outcome.ok.inj performed
      exact ⟨rfl, rfl⟩

/-- A transfer that is due. -/
theorem Mailbox.transfer (mailbox : Mailbox dest s) {vm : ProcessVm} {before after : List (Nat × Action)} {self : Nat}
    {action : Action} {done : Transferred} (outstanding : s.transfers = before ++ (self, action) :: after)
    (performed : action.exec vm s.world self = .ok done) :
    Mailbox dest { s with world := done.world, transfers := before ++ after } ∧
      s.Extends dest { s with world := done.world, transfers := before ++ after } := by
  have quiet := exec_quiet performed
  have kept : ∀ id ∈ (s.world.procs dest).inbox, done.world.cookies id = s.world.cookies id := by
    intro id queued
    refine Action.exec_others performed fun transfers => ?_
    exact (mailbox.due (self, action) (by simp [outstanding]) id transfers).2.1 queued
  refine ⟨?_, ?_⟩
  · refine ⟨?_, ?_, ?_, ?_⟩
    · simpa only [quiet.inbox, quiet.outbox, quiet.free] using mailbox.distinct
    · simpa only [quiet.inbox, quiet.outbox, quiet.free, quiet.next] using mailbox.allocated
    · intro id queued
      simp only [quiet.inbox] at queued
      simp only [kept id queued]
      exact mailbox.unread id queued
    · intro due listed id transfers
      have earlier : due ∈ s.transfers := by
        rw [outstanding]
        rcases List.mem_append.mp listed with first | later
        · exact List.mem_append_left _ first
        · exact List.mem_append_right _ (List.mem_cons_of_mem _ later)
      simpa only [quiet.inbox, quiet.free, quiet.next] using mailbox.due due earlier id transfers
  · refine ⟨?_, kept⟩
    simp only [quiet.inbox]
    exact List.prefix_refl _

theorem Exchange.Keeps.transfer {vm : ProcessVm} {before after : List (Nat × Action)} {self : Nat} {action : Action}
    {done : Transferred} (performed : action.exec vm s.world self = .ok done) {id : Nat} (allocated : id < s.world.next)
    (notFree : id ∉ (s.world.procs dest).free) :
    s.Keeps dest { s with world := done.world, transfers := before ++ after } id where
  allocated := by simpa only [(exec_quiet performed).next] using allocated
  notFree := by simpa only [(exec_quiet performed).free] using notFree
  size := (Action.exec_fixed performed id).1
  iovec := (Action.exec_fixed performed id).2

/-- A created cookie is the first recycled one or a new one. -/
theorem createRequest_origin (w : World) (process : Nat) (cookie : Cookie) :
    ((w.createRequest process cookie).1 = w.next ∨ (w.createRequest process cookie).1 ∈ (w.procs process).free) ∧
      (∀ id ∈ ((w.createRequest process cookie).2.procs process).free, id ∈ (w.procs process).free) ∧
      w.next ≤ (w.createRequest process cookie).2.next := by
  unfold World.createRequest
  cases free : (w.procs process).free with
  | nil =>
      refine ⟨Or.inl rfl, ?_, Nat.le_succ _⟩
      simp [free]
  | cons id rest =>
      refine ⟨Or.inr List.mem_cons_self, ?_, le_rfl⟩
      intro other member
      simp only [World.setCookie_procs, World.setProc_procs, Function.update_self] at member
      exact List.mem_cons_of_mem _ member

/-- What is neither new nor recycled is not the created cookie. -/
theorem createRequest_ne {w : World} {process : Nat} (cookie : Cookie) {id : Nat} (allocated : id < w.next)
    (notFree : id ∉ (w.procs process).free) : id ≠ (w.createRequest process cookie).1 := by
  intro same
  rcases (createRequest_origin w process cookie).1 with new | recycled
  · omega
  · exact notFree (same ▸ recycled)

theorem perm_queued (inbox outbox free : List Nat) (new : Nat) :
    (inbox ++ [new] ++ outbox ++ free).Perm (inbox ++ outbox ++ new :: free) := by
  have middle : (new :: (outbox ++ free)).Perm (outbox ++ new :: free) := List.perm_middle.symm
  simpa only [List.append_assoc, List.cons_append, List.nil_append] using middle.append_left inbox

/-- A call leaves a new cookie in a queue. -/
theorem Mailbox.queues (mailbox : Mailbox dest s) (cookie : Cookie) {s' : Exchange}
    (lists : ((s'.world.procs dest).inbox ++ (s'.world.procs dest).outbox ++ (s'.world.procs dest).free).Perm
      ((s.world.procs dest).inbox ++ (s.world.procs dest).outbox ++
        (s.world.createRequest dest cookie).1 :: ((s.world.createRequest dest cookie).2.procs dest).free))
    (inbox : (s'.world.procs dest).inbox = (s.world.procs dest).inbox ∨
      (s'.world.procs dest).inbox = (s.world.procs dest).inbox ++ [(s.world.createRequest dest cookie).1] ∧
        Unread cookie)
    (free : (s'.world.procs dest).free = ((s.world.createRequest dest cookie).2.procs dest).free)
    (next : s'.world.next = (s.world.createRequest dest cookie).2.next)
    (cookies : s'.world.cookies = Function.update s.world.cookies (s.world.createRequest dest cookie).1 cookie)
    (transfers : s'.transfers = s.transfers) : Mailbox dest s' ∧ s.Extends dest s' := by
  obtain ⟨distinct, allocated⟩ := createRequest_fresh cookie mailbox.distinct mailbox.allocated
  obtain ⟨_, freeBefore, grows⟩ := createRequest_origin s.world dest cookie
  have different : ∀ id, id < s.world.next → id ∉ (s.world.procs dest).free →
      id ≠ (s.world.createRequest dest cookie).1 :=
    fun id => createRequest_ne cookie
  have kept : ∀ id ∈ (s.world.procs dest).inbox, s'.world.cookies id = s.world.cookies id := by
    intro id listed
    have notFree : id ∉ (s.world.procs dest).free := fun member =>
      (List.nodup_append.mp mailbox.distinct).2.2 id (List.mem_append_left _ listed) id member rfl
    rw [cookies]
    exact Function.update_of_ne (different id (mailbox.allocated id (by simp [listed])) notFree) _ _
  have prefix' : (s.world.procs dest).inbox <+: (s'.world.procs dest).inbox := by
    rcases inbox with same | ⟨longer, _⟩
    · rw [same]
    · rw [longer]
      exact List.prefix_append _ _
  refine ⟨⟨?_, ?_, ?_, ?_⟩, ⟨prefix', kept⟩⟩
  · exact lists.nodup_iff.mpr distinct
  · intro id listed
    rw [next]
    exact allocated id (lists.mem_iff.mp listed)
  · intro id listed
    have origin : id ∈ (s.world.procs dest).inbox ∨
        id = (s.world.createRequest dest cookie).1 ∧ Unread cookie := by
      rcases inbox with same | ⟨longer, unread⟩
      · exact Or.inl (same ▸ listed)
      · rw [longer] at listed
        exact (List.mem_append.mp listed).imp_right fun only => ⟨List.mem_singleton.mp only, unread⟩
    rcases origin with old | ⟨rfl, unread⟩
    · rw [kept id old]
      exact mailbox.unread id old
    · rw [cookies, Function.update_self]
      exact unread
  · intro due listed id concerns
    rw [transfers] at listed
    obtain ⟨old, notQueued, notFree⟩ := mailbox.due due listed id concerns
    rw [free, next]
    refine ⟨Nat.lt_of_lt_of_le old grows, ?_, fun member => notFree (freeBefore id member)⟩
    have apart := different id old notFree
    rcases inbox with same | ⟨longer, _⟩
    · rwa [same]
    · rw [longer]
      intro member
      rcases List.mem_append.mp member with queued | only
      · exact notQueued queued
      · exact apart (List.mem_singleton.mp only)

/-- A call takes a cookie from a queue, and a transfer through it is due. -/
theorem Mailbox.takes (mailbox : Mailbox dest s) (caller : Nat) {s' : Exchange} {id : Nat}
    (listed : id ∈ (s.world.procs dest).inbox ++ (s.world.procs dest).outbox)
    (lists : ((s'.world.procs dest).inbox ++ (s'.world.procs dest).outbox ++ (s'.world.procs dest).free).Sublist
      ((s.world.procs dest).inbox ++ (s.world.procs dest).outbox ++ (s.world.procs dest).free))
    (inbox : (s'.world.procs dest).inbox = (s.world.procs dest).inbox.erase id)
    (free : (s'.world.procs dest).free = (s.world.procs dest).free) (next : s'.world.next = s.world.next)
    (others : ∀ other ≠ id, s'.world.cookies other = s.world.cookies other) {action : Action}
    (transfers : s'.transfers = s.transfers ++ [(caller, action)]) (through : action.transfer = some id) :
    Mailbox dest s' := by
  have apart := List.nodup_append.mp mailbox.distinct
  have taken : id ∉ (s'.world.procs dest).inbox := by
    rw [inbox]
    exact ((List.nodup_append.mp apart.1).1).not_mem_erase
  have older : ∀ other ∈ (s'.world.procs dest).inbox, other ∈ (s.world.procs dest).inbox := by
    intro other member
    rw [inbox] at member
    exact List.mem_of_mem_erase member
  refine ⟨mailbox.distinct.sublist lists, ?_, ?_, ?_⟩
  · intro other member
    rw [next]
    exact mailbox.allocated other (lists.subset member)
  · intro other member
    rw [others other fun same => taken (same ▸ member)]
    exact mailbox.unread other (older other member)
  · intro due member other concerns
    rw [transfers] at member
    rw [free, next]
    rcases List.mem_append.mp member with old | only
    · obtain ⟨known, notQueued, notRecycled⟩ := mailbox.due due old other concerns
      exact ⟨known, fun queued => notQueued (older other queued), notRecycled⟩
    · rw [List.mem_singleton.mp only] at concerns
      obtain rfl := Option.some.inj (through.symm.trans concerns)
      have notFree : id ∉ (s.world.procs dest).free := fun member => apart.2.2 id listed id member rfl
      exact ⟨mailbox.allocated id (List.mem_append_left _ listed), taken, notFree⟩

/-- A send appends its cookie to `inbox_`, or takes a receive. -/
theorem Mailbox.send (mailbox : Mailbox dest s) {self : Nat} (buf : Loc) (count : Int) (iovec : Iovec) {tag : Int}
    (rankBound : self < rankLimit) (tagLow : 0 ≤ tag) (tagHigh : tag < tagLimit) :
    Mailbox dest (s.send dest self buf count iovec tag) ∧ s.Extends dest (s.send dest self buf count iovec tag) := by
  have exactRank : int16 (self : Int) = self := by
    unfold rankLimit at rankBound
    exact int16_of_range (by omega) (by omega)
  have exactTag : int16 tag = tag := by
    unfold tagLimit at tagHigh
    exact int16_of_range (by omega) tagHigh
  cases found : (s.world.procs dest).outbox.find? fun id => (s.world.cookies id).sendMatch self tag with
  | none =>
      have unread : Unread (Cookie.make self buf iovec count count self tag 1) :=
        { src := by simp [exactRank]
          tag := by simpa [exactTag] using tagLow
          whole := rfl
          err := rfl }
      refine mailbox.queues (Cookie.make self buf iovec count count self tag 1) ?_ (Or.inr ⟨?_, unread⟩) ?_ ?_ ?_ ?_
      · simpa [Exchange.send, sendRequest, found] using perm_queued _ _ _ _
      all_goals simp [Exchange.send, sendRequest, found, Frame.done]
  | some id =>
      have listed : id ∈ (s.world.procs dest).outbox := List.mem_of_find?_eq_some found
      have notQueued : id ∉ (s.world.procs dest).inbox := fun member =>
        (List.nodup_append.mp (List.nodup_append.mp mailbox.distinct).1).2.2 id member id listed rfl
      have inbox : ((s.send dest self buf count iovec tag).world.procs dest).inbox = (s.world.procs dest).inbox := by
        simp [Exchange.send, sendRequest, found]
      have others : ∀ other ≠ id,
          (s.send dest self buf count iovec tag).world.cookies other = s.world.cookies other := by
        intro other different
        simp [Exchange.send, sendRequest, found, different]
      have action : (Action.writeToOwner id buf iovec count (.elems 0) (.elems 0)).transfer = some id := rfl
      refine ⟨mailbox.takes self (List.mem_append_right _ listed) ?_ ?_ ?_ ?_ others ?_ action, ⟨?_, ?_⟩⟩
      · have fewer := ((List.Sublist.refl (s.world.procs dest).inbox).append
          (List.erase_sublist (a := id) (l := (s.world.procs dest).outbox))).append
          (List.Sublist.refl (s.world.procs dest).free)
        simpa [Exchange.send, sendRequest, found] using fewer
      · rw [inbox, List.erase_of_not_mem notQueued]
      · simp [Exchange.send, sendRequest, found]
      · simp [Exchange.send, sendRequest, found]
      · simp [Exchange.send, sendRequest, found, Frame.done]
      · rw [inbox]
      · intro other member
        exact others other fun same => notQueued (same ▸ member)

/-- A receive takes a message, or queues its cookie in `outbox_`. -/
theorem Mailbox.recv (mailbox : Mailbox dest s) (buf : Loc) (count : Int) (iovec : Iovec) (source tag : Int) :
    Mailbox dest (s.recv dest buf count iovec source tag) := by
  cases found : (s.world.procs dest).inbox.find? fun id => (s.world.cookies id).recvMatch source tag with
  | none =>
      refine (mailbox.queues (Cookie.make dest buf iovec count count source tag 1) ?_ (Or.inl ?_) ?_ ?_ ?_ ?_).1
      all_goals simp [Exchange.recv, recvRequest, found, Frame.done]
  | some id =>
      have listed : id ∈ (s.world.procs dest).inbox := List.mem_of_find?_eq_some found
      have action : (Action.readFromOwner id buf iovec count 0 (.elems 0) (.elems 0)).transfer = some id := rfl
      refine mailbox.takes dest (List.mem_append_left _ listed) ?_ ?_ ?_ ?_ ?_ ?_ action
      · have fewer := ((List.erase_sublist (a := id) (l := (s.world.procs dest).inbox)).append
          (List.Sublist.refl (s.world.procs dest).outbox)).append (List.Sublist.refl (s.world.procs dest).free)
        simpa [Exchange.recv, recvRequest, found] using fewer
      · simp [Exchange.recv, recvRequest, found]
      · simp [Exchange.recv, recvRequest, found]
      · simp [Exchange.recv, recvRequest, found]
      · intro other different
        simp [Exchange.recv, recvRequest, found, different]
      · simp [Exchange.recv, recvRequest, found, Frame.done]

/-- A send leaves the buffers of the cookies in use. -/
theorem Exchange.Keeps.send (self : Nat) (buf : Loc) (count : Int) (iovec : Iovec) (tag : Int) {id : Nat}
    (allocated : id < s.world.next) (notFree : id ∉ (s.world.procs dest).free) :
    s.Keeps dest (s.send dest self buf count iovec tag) id := by
  cases found : (s.world.procs dest).outbox.find? fun id => (s.world.cookies id).sendMatch self tag with
  | none =>
      let cookie := Cookie.make self buf iovec count count self tag 1
      obtain ⟨_, free, next⟩ := createRequest_origin s.world dest cookie
      have different : id ≠ (s.world.createRequest dest cookie).1 := createRequest_ne cookie allocated notFree
      have free' : ((s.send dest self buf count iovec tag).world.procs dest).free =
          ((s.world.createRequest dest cookie).2.procs dest).free := by
        simp [Exchange.send, sendRequest, found, cookie]
      have next' : (s.send dest self buf count iovec tag).world.next = (s.world.createRequest dest cookie).2.next := by
        simp [Exchange.send, sendRequest, found, cookie]
      have cookies : (s.send dest self buf count iovec tag).world.cookies id = s.world.cookies id := by
        simp only [Exchange.send, sendRequest, found, World.setProc_cookies, World.createRequest_cookies]
        exact Function.update_of_ne different _ _
      constructor
      · rw [next']
        exact Nat.lt_of_lt_of_le allocated next
      · rw [free']
        exact fun member => notFree (free id member)
      · rw [cookies]
      · rw [cookies]
  | some taken =>
      have buffer : ((s.send dest self buf count iovec tag).world.cookies id).size = (s.world.cookies id).size ∧
          ((s.send dest self buf count iovec tag).world.cookies id).iovec = (s.world.cookies id).iovec := by
        by_cases same : id = taken
        · subst same
          simp [Exchange.send, sendRequest, found, World.join]
        · simp [Exchange.send, sendRequest, found, same]
      constructor
      · simpa [Exchange.send, sendRequest, found] using allocated
      · simpa [Exchange.send, sendRequest, found] using notFree
      · exact buffer.1
      · exact buffer.2

end Steps

/-! ### Whole runs -/

namespace Exchange

variable {dest : Nat} {s s' s'' : Exchange} {id : Nat}

theorem Extends.refl (dest : Nat) (s : Exchange) : s.Extends dest s where
  inbox := List.prefix_refl _
  cookies := fun _ _ => rfl

theorem Extends.trans (first : s.Extends dest s') (second : s'.Extends dest s'') : s.Extends dest s'' where
  inbox := first.inbox.trans second.inbox
  cookies := by
    intro id queued
    rw [second.cookies id (first.inbox.subset queued), first.cookies id queued]

theorem Keeps.trans (first : s.Keeps dest s' id) (second : s'.Keeps dest s'' id) : s.Keeps dest s'' id where
  allocated := second.allocated
  notFree := second.notFree
  size := second.size.trans first.size
  iovec := second.iovec.trans first.iovec

/-- Sends and transfers extend what is queued. -/
theorem Continues.extends (continues : s.Continues dest s') (mailbox : Mailbox dest s) :
    Mailbox dest s' ∧ s.Extends dest s' := by
  induction continues with
  | refl => exact ⟨mailbox, Extends.refl dest s⟩
  | send _ self buf count iovec tag rankBound tagLow tagHigh ih =>
      obtain ⟨sent, more⟩ := ih.1.send buf count iovec rankBound tagLow tagHigh
      exact ⟨sent, ih.2.trans more⟩
  | transfer _ vm done' due self action done outstanding performed ih =>
      obtain ⟨made, more⟩ := ih.1.transfer outstanding performed
      exact ⟨made, ih.2.trans more⟩

/-- Sends and transfers leave the buffers of the cookies in use. -/
theorem Continues.keeps (continues : s.Continues dest s') (allocated : id < s.world.next)
    (notFree : id ∉ (s.world.procs dest).free) : s.Keeps dest s' id := by
  induction continues with
  | refl => exact { allocated := allocated, notFree := notFree, size := rfl, iovec := rfl }
  | send _ self buf count iovec tag _ _ _ ih =>
      exact ih.trans (Keeps.send self buf count iovec tag ih.allocated ih.notFree)
  | transfer _ vm done' due self action done _ performed ih =>
      exact ih.trans (Keeps.transfer performed ih.allocated ih.notFree)

/-- Before anything is sent nothing is queued. -/
theorem Initial.mailbox (initial : s.Initial dest) : Mailbox dest s where
  distinct := by simpa [initial.inbox, initial.outbox] using initial.freeNodup
  allocated := by simpa [initial.inbox, initial.outbox] using initial.freeBound
  unread := by simp [initial.inbox]
  due := by simp [initial.transfers]

/-- What every exchange keeps to. -/
theorem Reaches.mailbox (run : s.Reaches dest s') (mailbox : Mailbox dest s) : Mailbox dest s' := by
  induction run with
  | refl => exact mailbox
  | tail _ step ih =>
      cases step with
      | send self buf count iovec tag rankBound tagLow tagHigh =>
          exact (ih.send buf count iovec rankBound tagLow tagHigh).1
      | recv buf count iovec source tag => exact ih.recv buf count iovec source tag
      | transfer vm before after self action done outstanding performed => exact (ih.transfer outstanding performed).1

end Exchange


/-! ### The searches -/

section Searches

variable {dest : Nat} {s s' : Exchange} {source tag : Int} {id : Nat}

/-- The loops find the oldest message that matches. -/
theorem Exchange.oldest_iff : s.Oldest dest source tag id ↔ s.world.findAny dest source tag = some id := by
  unfold Exchange.Oldest World.findAny
  rw [List.find?_eq_some_iff_append]
  constructor
  · rintro ⟨older, younger, inbox, fits, none⟩
    refine ⟨fits, older, younger, inbox, ?_⟩
    intro other member
    simpa using none other member
  · rintro ⟨fits, older, younger, inbox, none⟩
    refine ⟨older, younger, inbox, fits, ?_⟩
    intro other member
    simpa using none other member

theorem Exchange.Oldest.member (oldest : s.Oldest dest source tag id) : id ∈ (s.world.procs dest).inbox := by
  obtain ⟨older, younger, inbox, _, _⟩ := oldest
  simp [inbox]

/-- The oldest message stays the oldest. -/
theorem Exchange.Oldest.extends (oldest : s.Oldest dest source tag id) (extends' : s.Extends dest s') :
    s'.Oldest dest source tag id := by
  have listed := oldest.member
  obtain ⟨older, younger, inbox, fits, none⟩ := oldest
  obtain ⟨arrived, longer⟩ := extends'.inbox
  refine ⟨older, younger ++ arrived, ?_, ?_, ?_⟩
  · rw [← longer, inbox]
    simp
  · rw [extends'.cookies id listed]
    exact fits
  · intro other member
    rw [extends'.cookies other (by simp [inbox, member])]
    exact none other member

/-- The source and tag of the oldest message that matches select it again: an older one of the same source and
    tag would have matched. -/
theorem Exchange.Oldest.exact (oldest : s.Oldest dest source tag id) (mailbox : Mailbox dest s) :
    s.Oldest dest (s.world.cookies id).src (s.world.cookies id).tag id := by
  have unread := mailbox.unread id oldest.member
  obtain ⟨older, younger, inbox, fits, none⟩ := oldest
  have notAnySource : (s.world.cookies id).src ≠ mpiAnySource := by
    have := unread.src
    unfold mpiAnySource
    omega
  have notAnyTag : (s.world.cookies id).tag ≠ mpiAnyTag := by
    have := unread.tag
    unfold mpiAnyTag
    omega
  refine ⟨older, younger, inbox, ?_, ?_⟩
  · simp [Cookie.recvMatch]
  · intro other member
    have skipped := none other member
    by_contra matches'
    have sameTag : (s.world.cookies other).tag = (s.world.cookies id).tag := by
      simp [Cookie.recvMatch, notAnyTag] at matches'
      exact matches'.1
    have sameSource : (s.world.cookies other).src = (s.world.cookies id).src := by
      simp [Cookie.recvMatch, notAnySource] at matches'
      exact matches'.2
    have fits' : (s.world.cookies other).recvMatch source tag = true := by
      unfold Cookie.recvMatch at fits ⊢
      rw [sameTag, sameSource]
      exact fits
    rw [fits'] at skipped
    cases skipped

/-- A receive takes the oldest message that matches. -/
theorem Exchange.Oldest.received (oldest : s.Oldest dest source tag id) (buf : Loc) (count : Int) (iovec : Iovec) :
    (recvRequest s.world dest buf count iovec source tag).2 =
      Frame.done id [.readFromOwner id buf iovec count 0 (.elems 0) (.elems 0)] := by
  have found := Exchange.oldest_iff.mp oldest
  unfold World.findAny at found
  simp [recvRequest, found]

end Searches

/-! ### The room for it -/

/-- What the size checks let through the transfer moves, and what they do not it refuses. -/
theorem readFromOwner_of_readTruncated (vm : ProcessVm) (w : World) (id : Nat) (buf : Loc) {iovec : Iovec} (count : Int)
    (positive : iovec.len ≠ 0) :
    (w.ReadTruncated id iovec count →
        w.readFromOwner vm id buf iovec count 0 0 0 = .ok (w.finishTransfer id mpiFail 0)) ∧
      (¬ w.ReadTruncated id iovec count → ∃ here remote total done,
        w.readFromOwner vm id buf iovec count 0 0 0 = .ok done ∧ done.moved = vm here remote ∧
          (done.ret = mpiSuccess ↔ ptrdiff total = done.moved)) := by
  have divisor : ¬ ((0 : Int) = 0 ∧ iovec.len = 0) := fun zero => positive zero.2
  have everything : (w.cookies id).askedFor iovec 0 0 =
      int32 (sizeT (((w.cookies id).size - 0) * (w.cookies id).iovec.len) / iovec.len : Nat) :=
    if_neg fun nonzero => nonzero rfl
  constructor
  · intro truncated
    unfold World.readFromOwner
    simp only [positive, and_false, if_false, ne_eq, not_true_eq_false]
    exact if_pos truncated
  · intro passes
    obtain ⟨has, fits⟩ := not_or.mp passes
    obtain ⟨done, read, moved, _, ret⟩ := readFromOwner_passed vm buf everything rfl has fits divisor
    exact ⟨_, _, _, done, read, moved, ret⟩

/-- Room for the bytes that the cookie has is enough. -/
theorem World.ReadTruncated.of_room {w : World} {id : Nat} {iovec : Iovec} {count : Int} (low : 0 ≤ count)
    (high : count < 2 ^ 31)
    (room : count * iovec.len = (sizeT ((w.cookies id).size * (w.cookies id).iovec.len) : Int)) :
    ¬ w.ReadTruncated id iovec count := by
  unfold World.ReadTruncated
  have below : sizeT ((w.cookies id).size * (w.cookies id).iovec.len) < 2 ^ 64 := sizeT_lt _
  simp only [sub_zero, Int.zero_mul, zero_add]
  generalize sizeT ((w.cookies id).size * (w.cookies id).iovec.len) = bytes at room below ⊢
  obtain ⟨elements, rfl⟩ := Int.eq_ofNat_of_zero_le low
  have roomNat : elements * iovec.len = bytes := by exact_mod_cast room
  have asked : sizeT (int32 (bytes / iovec.len : Nat) * iovec.len) = bytes := by
    by_cases empty : iovec.len = 0
    · simp [← roomNat, empty]
    · rw [← roomNat, Nat.mul_div_cancel _ (Nat.pos_of_ne_zero empty), int32_of_isInt ⟨by omega, high⟩, room,
        sizeT_natCast (by omega)]
      exact roomNat.symm
  rw [asked, room, sizeT_natCast below]
  omega

/-! ### The call of `MPI_Probe` -/

namespace Probe

variable {dest : Nat} {source tag : Int} {status : MpiStatus}

/-- What `MPI_Probe` has found out: the cookies that a sleeper has seen do not match, and what it has found or
    returned is about the oldest message that does. -/
def Knows (s : Probe) (dest : Nat) (source tag : Int) (status : MpiStatus) : Prop :=
  match s.phase with
  | .enter => True
  | .sleeping seen =>
      seen ≤ (s.exchange.world.procs dest).inbox.length ∧
        ∀ id ∈ (s.exchange.world.procs dest).inbox.take seen, (s.exchange.world.cookies id).recvMatch source tag = false
  | .found id => s.exchange.Oldest dest source tag id
  | .returned status' ret =>
      ∃ id, s.exchange.Oldest dest source tag id ∧ ret = mpiSuccess ∧ status' = status.get (s.exchange.world.cookies id)

/-- It stays so when more arrives. -/
theorem Knows.extends {s : Probe} {exchange : Exchange} (knows : s.Knows dest source tag status)
    (extends' : s.exchange.Extends dest exchange) : { s with exchange := exchange }.Knows dest source tag status := by
  unfold Knows at knows ⊢
  cases phase : s.phase with
  | enter => trivial
  | sleeping seen =>
      simp only [phase] at knows ⊢
      obtain ⟨within, passed⟩ := knows
      refine ⟨within.trans extends'.inbox.length_le, ?_⟩
      have same : (exchange.world.procs dest).inbox.take seen = (s.exchange.world.procs dest).inbox.take seen := by
        obtain ⟨arrived, longer⟩ := extends'.inbox
        rw [← longer, List.take_append_of_le_length within]
      intro id member
      rw [same] at member
      rw [extends'.cookies id (List.mem_of_mem_take member)]
      exact passed id member
  | found id =>
      simp only [phase] at knows ⊢
      exact knows.extends extends'
  | returned status' ret =>
      simp only [phase] at knows ⊢
      obtain ⟨id, oldest, success, filled⟩ := knows
      refine ⟨id, oldest.extends extends', success, ?_⟩
      rw [extends'.cookies id oldest.member]
      exact filled

/-- `waiting_for_` is not about messages. -/
theorem setWaitingFor_extends (s : Exchange) (waitingFor : WaitingFor) :
    s.Extends dest (setWaitingFor s dest waitingFor) where
  inbox := by simp [setWaitingFor]
  cookies := fun _ _ => rfl

theorem setWaitingFor_mailbox {s : Exchange} (mailbox : Mailbox dest s) (waitingFor : WaitingFor) :
    Mailbox dest (setWaitingFor s dest waitingFor) where
  distinct := by simpa [setWaitingFor] using mailbox.distinct
  allocated := by simpa [setWaitingFor] using mailbox.allocated
  unread := by simpa [setWaitingFor] using mailbox.unread
  due := by simpa [setWaitingFor] using mailbox.due

/-- The loop goes on behind what it has seen. It finds the oldest message that matches, or has seen everything. -/
theorem loop_knows {s : Exchange} (mailbox : Mailbox dest s) {seen : Nat}
    (passed : ∀ id ∈ (s.world.procs dest).inbox.take seen, (s.world.cookies id).recvMatch source tag = false) :
    Mailbox dest (loop s dest seen source tag).exchange ∧
      (loop s dest seen source tag).Knows dest source tag status := by
  unfold loop
  cases search : s.world.firstMatch dest seen source tag with
  | none =>
      refine ⟨mailbox, le_rfl, ?_⟩
      intro id member
      rw [List.take_length, ← List.take_append_drop seen (s.world.procs dest).inbox] at member
      rcases List.mem_append.mp member with old | new
      · exact passed id old
      · have missed := List.find?_eq_none.mp search id new
        simpa using missed
  | some id =>
      obtain ⟨fits, older, younger, rest, missed⟩ := List.find?_eq_some_iff_append.mp search
      have oldest : s.Oldest dest source tag id := by
        refine ⟨(s.world.procs dest).inbox.take seen ++ older, younger, ?_, fits, ?_⟩
        · rw [List.append_assoc, ← rest, List.take_append_drop]
        · intro other member
          rcases List.mem_append.mp member with old | new
          · exact passed other old
          · simpa using missed other new
      exact ⟨setWaitingFor_mailbox mailbox _, oldest.extends (setWaitingFor_extends s _)⟩

/-- A step of the call. -/
theorem Knows.own {s s' : Probe} (mailbox : Mailbox dest s.exchange) (knows : s.Knows dest source tag status)
    (step : s.own dest source tag status = some s') :
    Mailbox dest s'.exchange ∧ s'.Knows dest source tag status := by
  unfold Probe.own at step
  unfold Knows at knows
  cases phase : s.phase with
  | enter =>
      simp only [phase] at step
      obtain rfl := Option.some.inj step
      refine loop_knows (setWaitingFor_mailbox mailbox _) ?_
      intro id member
      rw [List.take_zero] at member
      exact absurd member List.not_mem_nil
  | sleeping seen =>
      simp only [phase] at step knows
      obtain rfl := Option.some.inj step
      exact loop_knows mailbox knows.2
  | found id =>
      simp only [phase] at step knows
      obtain rfl := Option.some.inj step
      exact ⟨mailbox, id, knows, (mailbox.unread id knows.member).err, rfl⟩
  | returned status' ret =>
      simp only [phase] at step
      cases step

/-- The call, whatever arrives in the meantime. -/
theorem Reaches.knows {s s' : Probe} (run : s.Reaches dest source tag status s') (mailbox : Mailbox dest s.exchange)
    (knows : s.Knows dest source tag status) : Mailbox dest s'.exchange ∧ s'.Knows dest source tag status := by
  induction run with
  | refl => exact ⟨mailbox, knows⟩
  | own _ step ih => exact ih.2.own ih.1 step
  | others _ continues ih =>
      obtain ⟨mailbox', extends'⟩ := continues.extends ih.1
      exact ⟨mailbox', ih.2.extends extends'⟩

end Probe

/-- The oldest message that matches is the one received next. -/
theorem Exchange.Oldest.receivedNext {dest : Nat} {s : Exchange} {source tag : Int} {id : Nat} (status : MpiStatus)
    (oldest : s.Oldest dest source tag id) (mailbox : Mailbox dest s) :
    s.ReceivedNext dest source tag id (status.get (s.world.cookies id)) := by
  intro s' continues source' tag' pattern buf count iovec
  obtain ⟨mailbox', extends'⟩ := continues.extends mailbox
  have same := extends'.cookies id oldest.member
  have next : s'.Oldest dest source' tag' id := by
    rcases pattern with ⟨rfl, rfl⟩ | ⟨rfl, rfl⟩
    · exact oldest.extends extends'
    · exact (oldest.exact mailbox).extends extends'
  refine ⟨next.received buf count iovec, ?_⟩
  intro low high room s'' later
  -- What the receive has taken is not recycled, so its buffer is still the sender's.
  have listed : id ∈ (s'.world.procs dest).inbox := next.member
  have found : ((s'.world.procs dest).inbox.find? fun id => (s'.world.cookies id).recvMatch source' tag') = some id :=
    Exchange.oldest_iff.mp next
  have allocated : id < (s'.recv dest buf count iovec source' tag').world.next := by
    simpa [Exchange.recv, recvRequest, found] using mailbox'.allocated id (by simp [listed])
  have notFree : id ∉ ((s'.recv dest buf count iovec source' tag').world.procs dest).free := by
    have queued := fun member =>
      (List.nodup_append.mp mailbox'.distinct).2.2 id (List.mem_append_left _ listed) id member rfl
    simpa [Exchange.recv, recvRequest, found] using queued
  have size : ((s'.recv dest buf count iovec source' tag').world.cookies id).size = (s.world.cookies id).size := by
    simp [Exchange.recv, recvRequest, found, World.join, same]
  have iovec' : ((s'.recv dest buf count iovec source' tag').world.cookies id).iovec = (s.world.cookies id).iovec := by
    simp [Exchange.recv, recvRequest, found, World.join, same]
  have keeps := later.keeps allocated notFree
  refine World.ReadTruncated.of_room low high ?_
  rw [keeps.size, keeps.iovec, size, iovec', ← (mailbox.unread id oldest.member).whole]
  exact room

/-- So the transfer of such a receive is made, and its status is that of the system call. -/
theorem Exchange.ReceivedNext.transfer {dest : Nat} {s s' s'' : Exchange} {source tag : Int} {id : Nat}
    {status : MpiStatus} (next : s.ReceivedNext dest source tag id status) (continues : s.Continues dest s')
    {buf : Loc} {count : Int} {iovec : Iovec} (low : 0 ≤ count) (high : count < 2 ^ 31)
    (room : count * iovec.len = status.len) (positive : iovec.len ≠ 0)
    (later : (s'.recv dest buf count iovec source tag).Continues dest s'') (vm : ProcessVm) :
    ∃ action, (recvRequest s'.world dest buf count iovec source tag).2.cont = [action] ∧
      ∃ here remote total done, action.exec vm s''.world dest = .ok done ∧ done.moved = vm here remote ∧
        (done.ret = mpiSuccess ↔ ptrdiff total = done.moved) := by
  obtain ⟨taken, passes⟩ := next s' continues source tag (Or.inl ⟨rfl, rfl⟩) buf count iovec
  refine ⟨.readFromOwner id buf iovec count 0 (.elems 0) (.elems 0), by rw [taken]; rfl, ?_⟩
  exact (readFromOwner_of_readTruncated vm s''.world id buf count positive).2 (passes low high room s'' later)

/-- A probed message is the one received next. In every exchange, whatever is in `inbox_`, `MPI_Iprobe` sets the
    flag to 0 exactly when no message matches and else reports the oldest one that does; `MPI_Probe` reports the
    oldest one that matches when it returns, whatever arrived while it slept; and the next receive takes what
    was reported. -/
theorem probed_message_is_received_next {dest : Nat} {start s : Exchange} (initial : start.Initial dest)
    (run : start.Reaches dest s) {source tag : Int} (sourceLow : mpiAnySource ≤ source)
    (sourceHigh : source < s.world.size) (tagLow : mpiAnyTag ≤ tag) (flag : Int) (status : MpiStatus) :
    ((∀ id ∈ (s.world.procs dest).inbox, (s.world.cookies id).recvMatch source tag = false) ∧
          mpiIprobe s.world dest source tag .world flag status = (mpiSuccess, 0, status) ∨
        ∃ id, s.Oldest dest source tag id ∧
          mpiIprobe s.world dest source tag .world flag status =
              (mpiSuccess, 1, status.get (s.world.cookies id)) ∧
            s.ReceivedNext dest source tag id (status.get (s.world.cookies id))) ∧
      ∀ p, (mpiProbe s source tag .world status).Reaches dest source tag status p →
        ∀ status' ret, p.phase = .returned status' ret →
          ∃ id, p.exchange.Oldest dest source tag id ∧ ret = mpiSuccess ∧
            status' = status.get (p.exchange.world.cookies id) ∧
            p.exchange.ReceivedNext dest source tag id status' := by
  have mailbox := run.mailbox initial.mailbox
  have valid : ¬ (source < mpiAnySource ∨ (s.world.size : Int) ≤ source ∨ tag < mpiAnyTag ∨
    MpiComm.world ≠ .world) := by
    rintro (low | high | low | other)
    · omega
    · omega
    · omega
    · exact other rfl
  constructor
  · unfold mpiIprobe
    rw [if_neg valid]
    cases search : s.world.findAny dest source tag with
    | none =>
        refine Or.inl ⟨?_, rfl⟩
        intro id member
        simpa using List.find?_eq_none.mp search id member
    | some id =>
        have oldest : s.Oldest dest source tag id := Exchange.oldest_iff.mpr search
        refine Or.inr ⟨id, oldest, ?_, oldest.receivedNext status mailbox⟩
        simp only [(mailbox.unread id oldest.member).err]
  · intro p reached status' ret phase
    have entered : mpiProbe s source tag .world status = { exchange := s, phase := .enter } := if_neg valid
    rw [entered] at reached
    obtain ⟨mailbox', knows⟩ := reached.knows mailbox trivial
    unfold Probe.Knows at knows
    simp only [phase] at knows
    obtain ⟨id, oldest, success, filled⟩ := knows
    subst filled
    exact ⟨id, oldest, success, rfl, oldest.receivedNext status mailbox'⟩

/-- Rank 1 has sent an `int` with tag 7, and rank 0 probes for anything. -/
theorem probed_message_is_received_next_int :
    let s := (Exchange.start 2 fun _ => 0).send 0 1 { region := .heap 1, addr := 0 } 1 (Iovec.basic .int 4) 7
    ∃ p id, (mpiProbe s mpiAnySource mpiAnyTag .world emptyStatus).Reaches 0 mpiAnySource mpiAnyTag emptyStatus p ∧
      p.phase = .returned { source := 1, tag := 7, len := 4, error := mpiSuccess } mpiSuccess ∧
      p.exchange.ReceivedNext 0 mpiAnySource mpiAnyTag id { source := 1, tag := 7, len := 4, error := mpiSuccess } := by
  intro s
  obtain ⟨p, reached, phase⟩ :
      ∃ p, (mpiProbe s mpiAnySource mpiAnyTag .world emptyStatus).Reaches 0 mpiAnySource mpiAnyTag emptyStatus p ∧
        p.phase = .returned { source := 1, tag := 7, len := 4, error := mpiSuccess } mpiSuccess :=
    ⟨_, .own (.own .refl rfl) rfl, by rfl⟩
  obtain ⟨id, _, _, _, next⟩ :=
    (probed_message_is_received_next (Exchange.start_initial 2 _ 0)
      (.tail .refl (.send _ 1 _ _ _ 7 (by decide) (by decide) (by decide))) (by decide) (by decide) (by decide) 0
      emptyStatus).2 p reached _ _ phase
  exact ⟨p, id, reached, phase, next⟩

end Umpi
