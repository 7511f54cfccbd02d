/-
Module: Umpi.Proofs.Entering
Layer: Proofs
Purpose: What the critical section of a collective call does. A call claims its slot (`World.claimed`),
  may then move data (`Midway`: memory, the slot's own data, and the transfer fields of one cookie), and
  finally settles the slot (`Settles`: at most one cookie is made, the box is replaced, the mutex is
  released, and the remaining actions are fixed). Every request function is specified this way.
Imports: Umpi.Abstract.Schedule, Umpi.Model.System, Umpi.Proofs.Transfers
Trusted boundary: none
Main exports: Outcome.Yields, World.claimed, Midway, Arguments, Settles, memberRequest_settles,
  rootRequest_settles, createInBox_settles
Open obligations: none
-/
import Umpi.Abstract.Schedule
import Umpi.Model.System
import Umpi.Proofs.Transfers

namespace Umpi

open Foundation

/-! ### Partial outcomes -/

namespace Outcome

variable {α β : Type}

/-- If the operation returns, its result satisfies `post`; and it does not fail on an empty list. -/
def Yields (outcome : Outcome α) (post : α → Prop) : Prop :=
  match outcome with
  | ok value => post value
  | undefined fault => fault ≠ .emptyList
  | _ => True

@[simp] theorem yields_ok {post : α → Prop} {value : α} : (ok value).Yields post ↔ post value :=
  Iff.rfl

theorem yields_bind {first : Outcome α} {next : α → Outcome β} {post : β → Prop}
    (yields : first.Yields fun value => (next value).Yields post) :
    (first >>= next).Yields post := by
  cases first with
  | ok value => exact yields
  | blocked => trivial
  | exited => trivial
  | undefined fault => exact yields

theorem Yields.mono {outcome : Outcome α} {post post' : α → Prop} (yields : outcome.Yields post)
    (weaken : ∀ value, post value → post' value) : outcome.Yields post' := by
  cases outcome with
  | ok value => exact weaken value yields
  | blocked => trivial
  | exited => trivial
  | undefined fault => exact yields

/-- A result may be remembered together with the operation that returned it. -/
theorem Yields.of_returned {outcome : Outcome α} {post : α → Prop} (safe : outcome.Yields fun _ => True)
    (returned : ∀ value, outcome = ok value → post value) : outcome.Yields post := by
  cases outcome with
  | ok value => exact returned value rfl
  | blocked => trivial
  | exited => trivial
  | undefined fault => exact safe

/-- What is known about an outcome is known about the result it returned. -/
theorem Yields.of_ok {outcome : Outcome α} {post : α → Prop} (yields : outcome.Yields post) {value : α}
    (returned : outcome = ok value) : post value := by
  rw [returned] at yields
  exact yields

theorem Yields.ne_emptyList {outcome : Outcome α} {post : α → Prop} (yields : outcome.Yields post) :
    outcome ≠ undefined .emptyList := by
  rintro rfl
  exact yields rfl

theorem mulInt_yields {x y : Int} {post : Int → Prop} (exact : IsInt (x * y) → post (x * y)) :
    (mulInt x y).Yields post := by
  unfold mulInt
  split
  case isTrue range => exact exact range
  case isFalse => exact Fault.noConfusion

theorem addInt_yields {x y : Int} {post : Int → Prop} (exact : IsInt (x + y) → post (x + y)) :
    (addInt x y).Yields post := by
  unfold addInt
  split
  case isTrue range => exact exact range
  case isFalse => exact Fault.noConfusion

theorem deref_yields {datatype : MpiDatatype} {post : Iovec → Prop}
    (exact : ∀ iovec, datatype = some iovec → post iovec) : (deref datatype).Yields post := by
  cases datatype with
  | none => exact Fault.noConfusion
  | some iovec => exact exact iovec rfl

/-- A transfer, seen from outside, touches one cookie. -/
theorem writeToOwner_yields {vm : ProcessVm} {w : World} {id : Nat} {buf : Loc} {iovec : Iovec}
    {count seek skip : Int} {post : Transferred → Prop}
    (exact : ∀ done, w.writeToOwner vm id buf iovec count seek skip = ok done → post done) :
    (w.writeToOwner vm id buf iovec count seek skip).Yields post := by
  cases transferred : w.writeToOwner vm id buf iovec count seek skip with
  | ok done => exact exact done transferred
  | blocked => trivial
  | exited => trivial
  | undefined fault =>
      unfold World.writeToOwner at transferred
      simp only at transferred
      split at transferred
      · cases transferred
      · split at transferred
        · cases transferred
          exact Fault.noConfusion
        · cases transferred

theorem readFromOwner_yields {vm : ProcessVm} {w : World} {id : Nat} {buf : Loc} {iovec : Iovec}
    {size count seek skip : Int} {post : Transferred → Prop}
    (exact : ∀ done, w.readFromOwner vm id buf iovec size count seek skip = ok done → post done) :
    (w.readFromOwner vm id buf iovec size count seek skip).Yields post := by
  by_cases divisor : count = 0 ∧ iovec.len = 0
  · have fails : w.readFromOwner vm id buf iovec size count seek skip = undefined .zeroDivision := by
      rw [World.readFromOwner, if_pos divisor]
    rw [fails]
    exact Fault.noConfusion
  · obtain ⟨done, returned⟩ := readFromOwner_returns vm w id buf divisor size seek skip
    rw [returned]
    exact exact done returned

end Outcome

/-! ### Claiming the slot and moving data -/

/-- What the control of an operation reads of a slot: everything but its data. -/
def Collect.control (slot : Collect) : Collect :=
  { slot with displs := fun _ => 0, iovec := none, count := 0 }

/-- The state after `get_current_slot` by `self` has claimed its slot. -/
def World.claimed (w : World) (self : Nat) : World :=
  let turn := w.ticket self % umpiOutstandingCollectiveOperations
  let slot := w.slots turn
  { w.setSlot turn
      { slot with
        mutex := some self
        ticket := w.ticket self
        joined := (if slot.box = [] then 0 else slot.joined) + 1
        made := if slot.box = [] then [] else slot.made } with
    ticket := Function.update w.ticket self ((w.ticket self + 1) % 2 ^ 32) }

/-- The other slots stay as they are. -/
theorem claimed_slots_of_ne (w : World) (self : Nat) {other : Nat}
    (different : other ≠ w.ticket self % umpiOutstandingCollectiveOperations) :
    (w.claimed self).slots other = w.slots other := by
  simp [World.claimed, different]

/-- Entering a slot claims it, unless it is locked or in use by another operation. -/
theorem getCurrentSlot_eq_ok {w w' : World} {self turn : Nat}
    (entered : w.getCurrentSlot self = .ok (turn, w')) :
    turn = w.ticket self % umpiOutstandingCollectiveOperations ∧ w' = w.claimed self ∧
      (w.slots turn).mutex = none ∧
      ((w.slots turn).box ≠ [] → (w.slots turn).ticket = w.ticket self) := by
  unfold World.getCurrentSlot at entered
  simp only at entered
  split at entered
  case isTrue => cases entered
  case isFalse unlocked =>
    split at entered
    case isTrue => cases entered
    case isFalse mine =>
      obtain ⟨rfl, rfl⟩ := Prod.mk.inj (Outcome.ok.inj entered)
      have ticket : (w.slots (w.ticket self % umpiOutstandingCollectiveOperations)).box ≠ [] →
          (w.slots (w.ticket self % umpiOutstandingCollectiveOperations)).ticket = w.ticket self :=
        fun busy => not_not.mp fun different => mine ⟨busy, different⟩
      refine ⟨rfl, ?_, not_not.mp unlocked, ticket⟩
      unfold World.claimed
      by_cases idle : (w.slots (w.ticket self % umpiOutstandingCollectiveOperations)).box = []
      · simp [idle]
      · simp [idle, ticket idle]

theorem getCurrentSlot_yields {w : World} {self : Nat} {post : Nat × World → Prop}
    (exact : (w.slots (w.ticket self % umpiOutstandingCollectiveOperations)).mutex = none →
      ((w.slots (w.ticket self % umpiOutstandingCollectiveOperations)).box ≠ [] →
        (w.slots (w.ticket self % umpiOutstandingCollectiveOperations)).ticket = w.ticket self) →
      post (w.ticket self % umpiOutstandingCollectiveOperations, w.claimed self)) :
    (w.getCurrentSlot self).Yields post := by
  cases entered : w.getCurrentSlot self with
  | ok result =>
      obtain ⟨turn, w'⟩ := result
      obtain ⟨rfl, rfl, unlocked, mine⟩ := getCurrentSlot_eq_ok entered
      exact exact unlocked mine
  | blocked => trivial
  | exited => trivial
  | undefined fault =>
      unfold World.getCurrentSlot at entered
      simp only at entered
      split at entered
      · cases entered
      · split at entered <;> cases entered

/-- The fields of a cookie that are fixed when it is made. -/
def Cookie.stable (cookie : Cookie) : Cookie :=
  { cookie with count := 0, err := 0, used := 0, busy := 0, notified := 0 }

section Stable

variable {cookie cookie' : Cookie} (same : cookie.stable = cookie'.stable)
include same

theorem Cookie.owner_of_stable : cookie.owner = cookie'.owner := (congrArg Cookie.owner same :)

theorem Cookie.buf_of_stable : cookie.buf = cookie'.buf := (congrArg Cookie.buf same :)

theorem Cookie.iovec_of_stable : cookie.iovec = cookie'.iovec := (congrArg Cookie.iovec same :)

theorem Cookie.size_of_stable : cookie.size = cookie'.size := (congrArg Cookie.size same :)

theorem Cookie.src_of_stable : cookie.src = cookie'.src := (congrArg Cookie.src same :)

theorem Cookie.num_of_stable : cookie.num = cookie'.num := (congrArg Cookie.num same :)

end Stable

/-- `w'` differs from `w` in memory, in the data of slots, and in the transfer fields of at most one
    cookie, which has been notified once. -/
structure Midway (w w' : World) (now : Option Nat) : Prop where
  size : w'.size = w.size
  next : w'.next = w.next
  ticket : w'.ticket = w.ticket
  lists : ∀ rank, (w'.procs rank).lists = (w.procs rank).lists
  slots : ∀ turn, (w'.slots turn).control = (w.slots turn).control
  others : ∀ id, now ≠ some id → w'.cookies id = w.cookies id
  fixed : ∀ id, (w'.cookies id).fixed = (w.cookies id).fixed
  busy : ∀ id, now = some id → (w'.cookies id).busy = int16 ((w.cookies id).busy - 1)
  notified : ∀ id, now = some id → (w'.cookies id).notified = (w.cookies id).notified + 1
  err : ∀ id, (w.cookies id).err ≠ 0 → (w'.cookies id).err ≠ 0

namespace Midway

variable {w w' w'' : World} {now : Option Nat}

theorem refl (w : World) : Midway w w none where
  size := rfl
  next := rfl
  ticket := rfl
  lists := fun _ => rfl
  slots := fun _ => rfl
  others := fun _ _ => rfl
  fixed := fun _ => rfl
  busy := fun _ impossible => nomatch impossible
  notified := fun _ impossible => nomatch impossible
  err := fun _ => id

/-- Changing memory and the data of slots only. -/
theorem of_data (size : w'.size = w.size) (next : w'.next = w.next) (ticket : w'.ticket = w.ticket)
    (procs : w'.procs = w.procs) (cookies : w'.cookies = w.cookies)
    (slots : ∀ turn, (w'.slots turn).control = (w.slots turn).control) : Midway w w' none where
  size := size
  next := next
  ticket := ticket
  lists := fun rank => by rw [procs]
  slots := slots
  others := fun id _ => by rw [cookies]
  fixed := fun id => by rw [cookies]
  busy := fun _ impossible => nomatch impossible
  notified := fun _ impossible => nomatch impossible
  err := fun id => by rw [cookies]; exact fun failed => failed

theorem of_touches {id : Nat} (touches : Touches id w w') : Midway w w' (some id) where
  size := touches.size
  next := touches.next
  ticket := touches.ticket
  lists := touches.lists
  slots := fun turn => by rw [touches.slots]
  others := fun other different => touches.others other fun same => different (by rw [same])
  fixed := touches.fixed_all
  busy := fun other same => by
    obtain rfl := Option.some.inj same
    exact touches.busy
  notified := fun other same => by
    obtain rfl := Option.some.inj same
    exact touches.notified
  err := fun other failed => by
    by_cases same : other = id
    · subst same
      exact touches.err failed
    · rwa [touches.others other same]

/-- Data moved after or before a transfer does not count. -/
theorem trans_data (first : Midway w w' now) (second : Midway w' w'' none) : Midway w w'' now where
  size := second.size.trans first.size
  next := second.next.trans first.next
  ticket := second.ticket.trans first.ticket
  lists := fun rank => (second.lists rank).trans (first.lists rank)
  slots := fun turn => (second.slots turn).trans (first.slots turn)
  others := fun id different => (second.others id (by simp)).trans (first.others id different)
  fixed := fun id => (second.fixed id).trans (first.fixed id)
  busy := fun id same => by rw [second.others id (by simp), first.busy id same]
  notified := fun id same => by rw [second.others id (by simp), first.notified id same]
  err := fun id failed => second.err id (first.err id failed)

theorem copy (vm : ProcessVm) (w : World) (readBuf : Loc) (readIovec : Iovec)
    (readCount readSkip : Int) (writeBuf : Loc) (writeIovec : Iovec) (writeCount writeSeek : Int) :
    Midway w (w.copy vm readBuf readIovec readCount readSkip writeBuf writeIovec writeCount writeSeek)
      none :=
  of_data rfl rfl rfl rfl rfl fun _ => rfl

theorem reduce (w : World) (op : UmpiOp) (invec inoutvec : Loc) (count : Int) (iovec : Iovec) :
    Midway w (w.reduce op invec inoutvec count iovec) none :=
  of_data rfl rfl rfl rfl rfl fun _ => rfl

/-- Storing data in a slot. -/
theorem setSlot {turn : Nat} {slot : Collect} (same : slot.control = (w.slots turn).control) :
    Midway w (w.setSlot turn slot) none := by
  refine of_data rfl rfl rfl rfl rfl fun other => ?_
  by_cases here : other = turn
  · subst here
    simpa using same
  · simp [here]

theorem joined (midway : Midway w w' now) (turn : Nat) :
    (w'.slots turn).joined = (w.slots turn).joined :=
  (congrArg Collect.joined (midway.slots turn) :)

theorem box (midway : Midway w w' now) (turn : Nat) : (w'.slots turn).box = (w.slots turn).box :=
  (congrArg Collect.box (midway.slots turn) :)

theorem free (midway : Midway w w' now) (rank : Nat) :
    (w'.procs rank).free = (w.procs rank).free :=
  (congrArg (fun lists => lists.1) (midway.lists rank) :)

theorem stable (midway : Midway w w' now) (id : Nat) :
    (w'.cookies id).stable = (w.cookies id).stable :=
  (congrArg Cookie.stable (midway.fixed id) :)

end Midway

/-! ### Settling the slot -/

/-- The name of the next cookie a process makes. -/
def World.newName (w : World) (process : Nat) : Nat :=
  match (w.procs process).free with
  | [] => w.next
  | id :: _ => id

@[simp] theorem World.createRequest_fst (w : World) (process : Nat) (cookie : Cookie) :
    (w.createRequest process cookie).1 = w.newName process := by
  unfold World.createRequest World.newName
  cases (w.procs process).free <;> rfl

theorem createRequest_free_of_ne {w : World} {process rank : Nat} {cookie : Cookie} (other : rank ≠ process) :
    ((w.createRequest process cookie).2.procs rank).free = (w.procs rank).free := by
  unfold World.createRequest
  split <;> simp [other]

theorem le_createRequest_next (w : World) (process : Nat) (cookie : Cookie) :
    w.next ≤ (w.createRequest process cookie).2.next := by
  unfold World.createRequest
  split <;> simp

/-- A new cookie is taken from the free list, or its name is new. -/
theorem newName_cases (w : World) (process : Nat) (cookie : Cookie) :
    w.newName process ∈ (w.procs process).free ∨
      w.next ≤ w.newName process ∧ w.newName process < (w.createRequest process cookie).2.next := by
  unfold World.newName World.createRequest
  cases (w.procs process).free <;> simp

/-- The new name leaves the free list, or the free list is empty and the name is the next one. -/
theorem createRequest_free_self (w : World) (process : Nat) (cookie : Cookie) :
    (w.procs process).free =
        w.newName process :: ((w.createRequest process cookie).2.procs process).free ∨
      (w.procs process).free = [] ∧ ((w.createRequest process cookie).2.procs process).free = [] ∧
        w.newName process = w.next ∧ (w.createRequest process cookie).2.next = w.next + 1 := by
  unfold World.newName World.createRequest
  cases list : (w.procs process).free <;> simp [list]

/-- Moving data does not change which cookie is made next. -/
theorem Midway.newName {w w' : World} {now : Option Nat} (midway : Midway w w' now) (process : Nat) :
    w'.newName process = w.newName process := by
  unfold World.newName
  rw [midway.free, midway.next]

/-- The buffer a rank offers with its cookie. -/
structure Offer where
  buf : Loc
  iovec : Iovec
  size : Int
  count : Int

/-- The cookie of a collective operation made by `self` to be notified `num` times. -/
def Offer.cookie (offer : Offer) (self : Nat) (num : Int) : Cookie :=
  Cookie.make self offer.buf offer.iovec offer.size offer.count self umpiTagCc num

/-- Ranks are small enough for the type of `src_`. -/
theorem Offer.cookie_src (offer : Offer) {self : Nat} (small : self < 2 ^ 15) (num : Int) :
    (offer.cookie self num).src = self := by
  have exactly : int16 (self : Int) = self := int16_of_range (by omega) (by omega)
  rw [Offer.cookie, Cookie.make_src, exactly]

/-- How a call leaves its slot, in terms of ranks: the cookie it makes, whose cookies are then in the
    box, whose it takes into its own list, whose it hands to `pending_`, whose it waits for, and the
    actions it still has to do. -/
structure Settlement where
  cookie : Option Cookie
  box : List Nat
  taken : List Nat
  retired : Option Nat
  request : Nat
  cont : List Action

/-- The part of a critical section after which the mutex is released. `made` names the cookies of the
    ranks before, `made'` after. -/
structure Settles (w w' : World) (frame : Frame) (caller turn : Nat) (result : Settlement)
    (made made' : Nat → Nat) : Prop where
  size : w'.size = w.size
  mem : w'.mem = w.mem
  ticket : w'.ticket = w.ticket
  otherSlots : ∀ other ≠ turn, w'.slots other = w.slots other
  slot : w'.slots turn =
    { w.slots turn with
      mutex := none
      box := result.box.map made'
      made := (w.slots turn).made ++ result.cookie.toList.map fun _ => made' caller }
  madeOthers : ∀ rank ≠ caller, made' rank = made rank
  created : ∀ c, result.cookie = some c →
    made' caller = w.newName caller ∧ w'.cookies (made' caller) = c ∧
      w'.next = (w.createRequest caller c).2.next ∧
      ∀ rank, (w'.procs rank).free = ((w.createRequest caller c).2.procs rank).free
  kept : result.cookie = none → made' caller = made caller ∧ w'.next = w.next ∧
    ∀ rank, (w'.procs rank).free = (w.procs rank).free
  /-- Apart from the new cookie, only usage counts change. -/
  cookies : ∀ id, (result.cookie ≠ none → id ≠ made' caller) →
    w'.cookies id = { w.cookies id with used := (w'.cookies id).used }
  /-- The call uses the cookie it waits for. -/
  used : ∀ id, (result.cookie ≠ none → id ≠ made' caller) →
    (w'.cookies id).used =
      if frame.request = some id then int16 ((w.cookies id).used + 1) else (w.cookies id).used
  pending : ∀ rank, (w'.procs rank).pending =
    match result.retired with
    | none => (w.procs rank).pending
    | some other => ((w.moveToPending (made other)).procs rank).pending
  queues : ∀ rank, (w'.procs rank).inbox = (w.procs rank).inbox ∧
    (w'.procs rank).outbox = (w.procs rank).outbox
  request : frame.request = some (made' result.request)
  todo : frame.todo = result.taken.map made'
  cont : frame.cont = result.cont
  ret : frame.ret = mpiSuccess

section Settling

variable {w : World} {self turn : Nat} {made : Nat → Nat} {boxRanks : List Nat}

/-- Names of other ranks' cookies do not depend on the new one. -/
theorem map_made_of_notMem {made' : Nat → Nat} (others : ∀ rank ≠ self, made' rank = made rank)
    {ranks : List Nat} (absent : self ∉ ranks) : ranks.map made' = ranks.map made :=
  List.map_congr_left fun rank member => others rank fun same => absent (same ▸ member)

@[simp] theorem setBox_slots_self (w : World) (turn : Nat) (box : List Nat) :
    (w.setBox turn box).slots turn = { w.slots turn with box := box } := by
  simp [World.setBox]

/-- Creating a cookie does not look at slots. -/
theorem createRequest_setSlot (w : World) (turn : Nat) (slot : Collect) (self : Nat)
    (cookie : Cookie) :
    (w.setSlot turn slot).createRequest self cookie =
      ((w.createRequest self cookie).1, (w.createRequest self cookie).2.setSlot turn slot) := by
  unfold World.createRequest
  simp only [World.setSlot_procs]
  split <;> rfl

@[simp] theorem createRequest_pending (w : World) (self : Nat) (cookie : Cookie) (rank : Nat) :
    ((w.createRequest self cookie).2.procs rank).pending = (w.procs rank).pending := by
  unfold World.createRequest
  split
  · rfl
  · by_cases same : rank = self <;> simp [same]

/-- Leaving a cookie in the box. -/
theorem createInBox_settles (cookie : Cookie) {taken : List Nat} {todo : List Nat} (cont : List Action)
    (box : (w.slots turn).box = boxRanks.map made) (absent : self ∉ boxRanks)
    (own : todo = taken.map made) (absent' : self ∉ taken) :
    Settles w ((w.createInBox self turn cookie).2.unlock turn)
      { request := some (w.createInBox self turn cookie).1
        todo := todo
        cont := cont
        ret := mpiSuccess }
      self turn
      { cookie := some cookie
        box := boxRanks ++ [self]
        taken := taken
        retired := none
        request := self
        cont := cont }
      made (Function.update made self (w.newName self)) where
  size := by simp [World.createInBox, World.unlock]
  mem := by simp [World.createInBox, World.unlock]
  ticket := by simp [World.createInBox, World.unlock]
  otherSlots := fun other different => by simp [World.createInBox, World.unlock, different]
  slot := by
    have before : boxRanks.map (Function.update made self (w.newName self)) =
        boxRanks.map made :=
      map_made_of_notMem (fun rank different => Function.update_of_ne different _ _) absent
    simp [World.createInBox, World.unlock, box, before]
  madeOthers := fun rank different => Function.update_of_ne different _ _
  created := by
    intro c same
    obtain rfl := Option.some.inj same
    simp [World.createInBox, World.unlock]
  kept := fun impossible => nomatch impossible
  cookies := by
    intro id other
    have different : id ≠ w.newName self := by simpa using other
    simp [World.createInBox, World.unlock, different]
  used := by
    intro id other
    have different : id ≠ w.newName self := by simpa using other
    simp [World.createInBox, World.unlock, different, Ne.symm different]
  pending := fun rank => by simp [World.createInBox, World.unlock]
  queues := fun rank => ⟨World.createRequest_inbox w self cookie rank, World.createRequest_outbox w self cookie rank⟩
  request := by simp [World.createInBox]
  todo := by
    rw [own]
    exact (map_made_of_notMem (fun rank different => Function.update_of_ne different _ _) absent').symm
  cont := rfl
  ret := rfl

/-- Waiting for a cookie that is there. -/
theorem settles_of_join {w' : World} (id : Nat) {request : Nat} (named : made request = id)
    {box taken todo : List Nat} (own : todo = taken.map made) (retired : Option Nat)
    (cont : List Action) (size : w'.size = w.size)
    (mem : w'.mem = w.mem) (ticket : w'.ticket = w.ticket) (next : w'.next = w.next)
    (free : ∀ rank, (w'.procs rank).free = (w.procs rank).free)
    (cookies : w'.cookies = (w.join id).cookies)
    (otherSlots : ∀ other ≠ turn, w'.slots other = w.slots other)
    (slot : w'.slots turn = { w.slots turn with mutex := none, box := box.map made })
    (pending : ∀ rank, (w'.procs rank).pending =
      match retired with
      | none => (w.procs rank).pending
      | some other => ((w.moveToPending (made other)).procs rank).pending)
    (queues : ∀ rank, (w'.procs rank).inbox = (w.procs rank).inbox ∧
      (w'.procs rank).outbox = (w.procs rank).outbox) :
    Settles w w' { request := some id, todo := todo, cont := cont, ret := mpiSuccess }
      self turn
      { cookie := none
        box := box
        taken := taken
        retired := retired
        request := request
        cont := cont }
      made made where
  size := size
  mem := mem
  ticket := ticket
  otherSlots := otherSlots
  slot := by simpa using slot
  madeOthers := fun _ _ => rfl
  created := fun _ impossible => nomatch impossible
  kept := fun _ => ⟨rfl, next, free⟩
  cookies := by
    intro other _
    rw [cookies, World.join_cookies]
    by_cases same : other = id <;> simp [same]
  used := by
    intro other _
    rw [cookies, World.join_cookies]
    by_cases same : other = id
    · simp [same]
    · simp [same, Ne.symm same]
  pending := pending
  queues := queues
  request := by rw [named]
  todo := own
  cont := rfl
  ret := rfl

/-- The box may have been emptied or filled before. -/
theorem Settles.of_setBox {w' : World} {frame : Frame} {result : Settlement} {made' : Nat → Nat}
    (oldBox : List Nat)
    (settles : Settles (w.setBox turn oldBox) w' frame self turn result made made') :
    Settles w w' frame self turn result made made' where
  size := settles.size
  mem := settles.mem
  ticket := settles.ticket
  otherSlots := fun other different => by
    rw [settles.otherSlots other different]
    simp [World.setBox, different]
  slot := by rw [settles.slot, setBox_slots_self]
  madeOthers := settles.madeOthers
  created := by
    intro c same
    have created := settles.created c same
    rw [World.setBox, createRequest_setSlot] at created
    exact created
  kept := settles.kept
  cookies := settles.cookies
  used := settles.used
  pending := settles.pending
  queues := settles.queues
  request := settles.request
  todo := settles.todo
  cont := settles.cont
  ret := settles.ret

/-- After it has left its cookie a call may take everything out of the box. -/
theorem Settles.takeAll {w' : World} {frame : Frame} {result : Settlement} {made' : Nat → Nat}
    (settles : Settles w w' frame self turn result made made') (cont : List Action) :
    Settles w (w'.setBox turn [])
      { request := frame.request, todo := (w'.slots turn).box, cont := cont, ret := mpiSuccess }
      self turn { result with box := [], taken := result.box, cont := cont } made made' where
  size := settles.size
  mem := settles.mem
  ticket := settles.ticket
  otherSlots := fun other different => by
    rw [← settles.otherSlots other different]
    simp [World.setBox, different]
  slot := by rw [setBox_slots_self, settles.slot]; rfl
  madeOthers := settles.madeOthers
  created := settles.created
  kept := settles.kept
  cookies := settles.cookies
  used := settles.used
  pending := settles.pending
  queues := settles.queues
  request := settles.request
  todo := by rw [settles.slot]
  cont := rfl
  ret := rfl

/-- A slot that has been claimed by a rank joining after the ranks of `past`. -/
structure Claimed (schedule : Schedule) (n : Nat) (past : List Nat) (w : World) (turn : Nat)
    (made : Nat → Nat) : Prop where
  size : w.size = n
  box : (w.slots turn).box = (schedule.box n past).map made
  joined : (w.slots turn).joined = (past.length + 1 : Nat)
  src : ∀ rank ∈ schedule.box n past, (w.cookies (made rank)).src = rank

/-- How a rank that joins after `past`, offering a buffer, leaves the slot. -/
def Schedule.settlement (schedule : Schedule) (n : Nat) (past : List Nat) (self : Nat) (offer : Offer)
    (cont : List Action) : Settlement :=
  { cookie := (schedule.num n past self).map (offer.cookie self)
    box := schedule.box n (self :: past)
    taken := schedule.taken n past self
    retired := schedule.retired n past self
    request := schedule.request n past self
    cont := cont }

variable {n : Nat} {past : List Nat} {schedule : Schedule}

theorem Claimed.joinedLast (claimed : Claimed schedule n past w turn made) :
    w.joinedLast turn = decide (past.length + 1 = n) := by
  rw [World.joinedLast, claimed.joined, claimed.size, Bool.eq_iff_iff]
  simp only [beq_iff_eq, decide_eq_true_eq]
  omega

theorem Claimed.joinedFirst (claimed : Claimed schedule n past w turn made) :
    w.joinedFirst turn = decide (past = []) := by
  rw [World.joinedFirst, claimed.joined, Bool.eq_iff_iff]
  simp only [beq_iff_eq, decide_eq_true_eq, ← List.length_eq_zero_iff]
  omega

section Rooted

variable {root : Nat}

/-- A rank other than the root joins the root's cookie, or leaves one if the root is not there. -/
theorem memberRequest_settles (claimed : Claimed (.rooted root) n past w turn made)
    (joining : Schedule.Joining n (self :: past)) (rootValid : root < n) (member : self ≠ root)
    (buf : Loc) (iovec : Iovec) (count : Int) (transfer : Nat → Action) :
    ∃ made', Settles w (memberRequest w self turn buf iovec count root transfer).1
      (memberRequest w self turn buf iovec count root transfer).2 self turn
      ((Schedule.rooted root).settlement n past self
        { buf := buf, iovec := iovec, size := count, count := count }
        (if root ∈ past then [transfer (made root)] else []))
      made made' := by
  have short : past.length < n := joining.length_le
  have box := claimed.box
  have src := claimed.src
  have last := claimed.joinedLast
  simp only [Schedule.box, if_neg (Nat.ne_of_lt short)] at box src
  by_cases joined : root ∈ past
  · -- the root's cookie is the only one in the box
    simp only [if_pos joined, List.map_singleton, List.mem_singleton, forall_eq] at box src
    have present : w.rootCookie turn root = some (made root) := by
      rw [World.rootCookie, box]
      simp [src]
    refine ⟨made, ?_⟩
    unfold memberRequest
    simp only [present, if_pos joined]
    have lastJoined : (w.join (made root)).joinedLast turn = w.joinedLast turn := rfl
    have nothing : ([] : List Nat) = ([] : List Nat).map made := rfl
    rw [lastJoined, last]
    by_cases isLast : past.length + 1 = n
    · have settlement : (Schedule.rooted root).settlement n past self
          { buf := buf, iovec := iovec, size := count, count := count } [transfer (made root)] =
          { cookie := none
            box := []
            taken := []
            retired := some root
            request := root
            cont := [transfer (made root)] } := by
        simp [Schedule.settlement, Schedule.num, Schedule.box, Schedule.taken, Schedule.retired,
          Schedule.request, member, joined, isLast]
      rw [settlement]
      simp only [isLast, decide_true, if_true]
      refine settles_of_join (made root) rfl nothing _ _ ?_ ?_ ?_ ?_ ?_ rfl ?_ ?_ ?_ ?_
      · simp [World.setBox, World.unlock]
      · simp [World.setBox, World.unlock]
      · simp [World.setBox, World.unlock]
      · simp [World.setBox, World.unlock]
      · intro rank
        by_cases same : rank = (w.cookies (made root)).owner <;>
          simp [World.setBox, World.unlock, World.moveToPending, same]
      · intro other different
        simp [World.setBox, World.unlock, different]
      · simp [World.unlock, box]
      · intro rank
        simp [World.setBox, World.unlock, World.moveToPending]
      · intro rank
        by_cases same : rank = (w.cookies (made root)).owner <;>
          simp [World.setBox, World.unlock, World.moveToPending, same]
    · have settlement : (Schedule.rooted root).settlement n past self
          { buf := buf, iovec := iovec, size := count, count := count } [transfer (made root)] =
          { cookie := none
            box := [root]
            taken := []
            retired := none
            request := root
            cont := [transfer (made root)] } := by
        simp [Schedule.settlement, Schedule.num, Schedule.box, Schedule.taken, Schedule.retired,
          Schedule.request, member, joined, isLast]
      rw [settlement]
      simp only [isLast, decide_false, Bool.false_eq_true, if_false]
      refine settles_of_join (made root) rfl nothing _ _ ?_ ?_ ?_ ?_ ?_ rfl ?_ ?_ ?_ ?_
      · simp [World.unlock]
      · simp [World.unlock]
      · simp [World.unlock]
      · simp [World.unlock]
      · intro rank
        simp [World.unlock]
      · intro other different
        simp [World.unlock, different]
      · simp [World.unlock, box]
      · intro rank
        simp [World.unlock]
      · intro rank
        simp [World.unlock]
  · -- every rank that is there has left a cookie
    simp only [if_neg joined] at box src
    have absent : self ∉ past.reverse := fun inside => joining.fresh (List.mem_reverse.mp inside)
    have notLast : past.length + 1 ≠ n := fun full =>
      (joining.mem_of_full full rootValid |> List.mem_cons.mp).elim (fun same => member same.symm) joined
    let offer : Offer := { buf := buf, iovec := iovec, size := count, count := count }
    have settlement : (Schedule.rooted root).settlement n past self offer [] =
        { cookie := some (offer.cookie self 1)
          box := past.reverse ++ [self]
          taken := []
          retired := none
          request := self
          cont := [] } := by
      simp [Schedule.settlement, Schedule.num, Schedule.box, Schedule.taken, Schedule.retired,
        Schedule.request, member, joined, notLast, Ne.symm member]
    have alone : w.rootCookie turn root = none := by
      rw [World.rootCookie, box]
      cases earlier : past.reverse with
      | nil => rfl
      | cons first rest =>
          have listed : first ∈ past.reverse := earlier ▸ List.mem_cons_self
          have other : first ≠ root := fun same => joined (same ▸ List.mem_reverse.mp listed)
          simp [src first listed, other]
    have nothing : ([] : List Nat) = ([] : List Nat).map made := rfl
    have settled := createInBox_settles (offer.cookie self 1) [] box absent nothing (by simp)
    refine ⟨Function.update made self (w.newName self), ?_⟩
    rw [if_neg joined, settlement]
    unfold memberRequest
    simp only [alone]
    exact settled

/-- What the root does to each cookie it finds. -/
def serve (transfer : Nat → Action) (todo : List Nat) : List Action :=
  todo.flatMap fun id => [.moveToPending id, transfer id]

/-- The root takes all cookies, and leaves its own or borrows the last one. -/
theorem rootRequest_settles (claimed : Claimed (.rooted root) n past w turn made)
    (joining : Schedule.Joining n (root :: past)) (several : 2 ≤ n) (buf : Loc) (iovec : Iovec)
    (size count : Int) (transfer : Nat → Action) :
    (rootRequest w root turn buf iovec size count transfer).Yields fun result =>
      ∃ made', Settles w result.1 result.2 root turn
        ((Schedule.rooted root).settlement n past root
          { buf := buf, iovec := iovec, size := size, count := count }
          (serve transfer (past.reverse.map made)))
        made made' := by
  have short : past.length < n := joining.length_le
  have fresh := joining.fresh
  have box : (w.slots turn).box = past.reverse.map made := by
    rw [claimed.box, Schedule.box, if_neg (Nat.ne_of_lt short), if_neg fresh]
  have last : (w.setBox turn []).joinedLast turn = decide (past.length + 1 = n) := by
    rw [← claimed.joinedLast]
    simp [World.joinedLast, World.setBox]
  let offer : Offer := { buf := buf, iovec := iovec, size := size, count := count }
  unfold rootRequest
  simp only [box, last]
  by_cases isLast : past.length + 1 = n
  · obtain ⟨latest, rest, rfl⟩ : ∃ latest rest, past = latest :: rest :=
      List.exists_cons_of_ne_nil (by rintro rfl; simp at isLast; omega)
    have settlement : (Schedule.rooted root).settlement n (latest :: rest) root offer
        (serve transfer ((latest :: rest).reverse.map made)) =
        { cookie := none
          box := []
          taken := (latest :: rest).reverse
          retired := none
          request := latest
          cont := serve transfer ((latest :: rest).reverse.map made) } := by
      simp only [List.length_cons] at isLast
      simp [Schedule.settlement, Schedule.num, Schedule.box, Schedule.taken, Schedule.retired,
        Schedule.request, isLast]
    have borrowed : ((latest :: rest).reverse.map made).getLast? = some (made latest) := by simp
    simp only [isLast, decide_true, if_true, borrowed]
    refine ⟨made, ?_⟩
    rw [settlement]
    refine settles_of_join (made latest) rfl rfl _ _ ?_ ?_ ?_ ?_ ?_ ?_ ?_ ?_ ?_ ?_
    · simp [World.setBox, World.unlock]
    · simp [World.setBox, World.unlock]
    · simp [World.setBox, World.unlock]
    · simp [World.setBox, World.unlock]
    · intro rank
      simp [World.setBox, World.unlock]
    · simp [World.setBox, World.unlock]
    · intro other different
      simp [World.setBox, World.unlock, different]
    · simp [World.unlock]
    · intro rank
      simp [World.setBox, World.unlock]
    · intro rank
      simp [World.setBox, World.unlock]
  · let num : Int := (n : Int) - (past.length + 1 : Nat)
    have settlement : (Schedule.rooted root).settlement n past root offer
        (serve transfer (past.reverse.map made)) =
        { cookie := some (offer.cookie root num)
          box := [root]
          taken := past.reverse
          retired := none
          request := root
          cont := serve transfer (past.reverse.map made) } := by
      simp [Schedule.settlement, Schedule.num, Schedule.box, Schedule.taken, Schedule.retired,
        Schedule.request, isLast, num]
    have number : ((w.setBox turn []).size - ((w.setBox turn []).slots turn).joined : Int) = num := by
      rw [setBox_slots_self, claimed.joined]
      simp [World.setBox, claimed.size, num]
    have empty : ((w.setBox turn []).slots turn).box = ([] : List Nat).map made := by simp
    have absent : root ∉ ([] : List Nat) := by simp
    have untaken : root ∉ past.reverse := fun inside => fresh (List.mem_reverse.mp inside)
    have settled := createInBox_settles (offer.cookie root num)
      (serve transfer (past.reverse.map made)) empty absent rfl untaken
    simp only [isLast, decide_false, Bool.false_eq_true, if_false, number]
    refine ⟨Function.update made root ((w.setBox turn []).newName root), ?_⟩
    rw [settlement]
    exact settled.of_setBox []

end Rooted

end Settling

end Umpi
