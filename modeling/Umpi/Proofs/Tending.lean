/-
Module: Umpi.Proofs.Tending
Layer: Proofs
Purpose: The books of every cookie in runs of point-to-point and collective operations. `Account` says of one
  cookie that its counter is the number of transfers that are due or still expected, that `used_` is the number
  of handles, and that its owner has a handle as long as the counter is not zero. `Tended` says what is
  expected on every shelf, and that nothing refers to a cookie that is free, in the pool, or not allocated.
  There is one lemma for each kind of event.
Imports: Umpi.Proofs.Shelves
Trusted boundary: none
Main exports: Account, Counted, Tended, Tended.start, Tended.enter, Tended.act, Tended.leave, Tended.takes,
  Tended.queues, Tended.perform, runs_tended
Open obligations: none
-/
import Umpi.Proofs.Shelves

namespace Umpi

open Foundation Sys

/-! ### The account of one cookie -/

/-- The books of the cookie `id`, through which `expected` transfers will come from calls that have not been
    made yet. -/
structure Account (n : Nat) (s : Sys) (id expected most : Nat) : Prop where
  busy : (s.world.cookies id).busy = (due n s.ranks id + expected : Nat)
  used : (s.world.cookies id).used = held n s.ranks id
  most : held n s.ranks id ≤ most
  owner : (s.world.cookies id).owner < n
  /-- The owner does not leave before everything has arrived. -/
  waits : 0 < due n s.ranks id + expected → id ∈ (s.ranks (s.world.cookies id).owner).requests
  bounded : due n s.ranks id + expected ≤ n + 1

/-- Nobody has a handle on the cookie, and no transfer through it is due. -/
structure Spent (n : Nat) (s : Sys) (id : Nat) : Prop where
  held : held n s.ranks id = 0
  due : due n s.ranks id = 0

section Updates

variable {n : Nat} {ranks : Nat → RankState} {self : Nat} {state : RankState}

/-- A rank that was in no call has got some actions. -/
theorem due_entered (state : RankState) (valid : self < n) (idle : (ranks self).cont = []) (id : Nat) :
    due n (Function.update ranks self state) id =
      due n ranks id + (state.cont.filterMap Action.transfer).count id := by
  have updated := due_update ranks valid state id
  rw [idle] at updated
  simpa using updated

/-- A rank has got a handle. -/
theorem held_entered (valid : self < n) {request : Nat}
    (requests : state.requests = request :: (ranks self).requests) (id : Nat) :
    held n (Function.update ranks self state) id = held n ranks id + if request = id then 1 else 0 := by
  have updated := held_update ranks valid state id
  rw [requests, List.count_cons] at updated
  simp only [beq_iff_eq] at updated
  omega

/-- A rank has performed its next action. -/
theorem due_advanced (state : RankState) (valid : self < n) {action : Action} {rest : List Action}
    (todo : (ranks self).cont = action :: rest) (after : state.cont = rest) (id : Nat) :
    due n (Function.update ranks self state) id + action.transfer.toList.count id = due n ranks id := by
  have updated := due_update ranks valid state id
  rw [after, todo, List.filterMap_cons] at updated
  cases transfers : action.transfer with
  | none =>
      rw [transfers] at updated
      simpa using updated
  | some other =>
      rw [transfers] at updated
      simp only [List.count_cons, Option.toList_some, List.count_nil] at updated ⊢
      omega

/-- A rank has left a handle. -/
theorem held_left (valid : self < n) {id : Nat} (listed : id ∈ (ranks self).requests) (err : Int)
    (other : Nat) :
    held n (Function.update ranks self ((ranks self).leave id err)) other +
      (if other = id then 1 else 0) = held n ranks other := by
  have updated := held_update ranks valid ((ranks self).leave id err) other
  have positive := List.count_pos_iff.mpr listed
  rw [RankState.leave_requests, List.count_erase] at updated
  by_cases same : other = id
  · subst same
    simp only [beq_self_eq_true, if_true] at updated ⊢
    omega
  · simp only [beq_iff_eq, Ne.symm same, same, if_false] at updated ⊢
    omega

/-- A step that leaves all remaining actions alone. -/
theorem due_kept (cont : state.cont = (ranks self).cont) (id : Nat) :
    due n (Function.update ranks self state) id = due n ranks id := by
  refine Finset.sum_congr rfl fun rank _ => ?_
  by_cases own : rank = self
  · subst own
    rw [Function.update_self, cont]
  · rw [Function.update_of_ne own]

/-- A step that leaves all handles alone. -/
theorem held_kept (requests : state.requests = (ranks self).requests) (id : Nat) :
    held n (Function.update ranks self state) id = held n ranks id := by
  refine Finset.sum_congr rfl fun rank _ => ?_
  by_cases own : rank = self
  · subst own
    rw [Function.update_self, requests]
  · rw [Function.update_of_ne own]

end Updates

namespace Account

variable {n : Nat} {s s' : Sys} {id expected most : Nat}

/-- A step that does not concern the cookie. -/
theorem kept (account : Account n s id expected most)
    (cookie : s'.world.cookies id = s.world.cookies id) (due : due n s'.ranks id = due n s.ranks id)
    (held : held n s'.ranks id = held n s.ranks id)
    (requests : ∀ rank, id ∈ (s.ranks rank).requests → id ∈ (s'.ranks rank).requests) :
    Account n s' id expected most where
  busy := by rw [cookie, due, account.busy]
  used := by rw [cookie, held, account.used]
  most := held.symm ▸ account.most
  owner := cookie.symm ▸ account.owner
  waits := by
    rw [cookie, due]
    exact fun pos => requests _ (account.waits pos)
  bounded := due.symm ▸ account.bounded

/-- More handles are allowed. -/
theorem mono (account : Account n s id expected most) {more : Nat} (le : most ≤ more) :
    Account n s id expected more :=
  { account with most := account.most.trans le }

/-- A cookie that has a transfer to come has a handle. -/
theorem held_pos (account : Account n s id expected most) (pos : 0 < due n s.ranks id + expected) :
    0 < held n s.ranks id :=
  Umpi.held_pos account.owner (account.waits pos)

/-- A cookie nobody uses any more is done with. -/
theorem spent (account : Account n s id expected most) (unused : (s.world.cookies id).used = 0) :
    Spent n s id ∧ expected = 0 := by
  have none : Umpi.held n s.ranks id = 0 := by
    have same := account.used
    omega
  have finished : ¬ 0 < Umpi.due n s.ranks id + expected := fun pos => by
    have some := account.held_pos pos
    omega
  exact ⟨⟨none, by omega⟩, by omega⟩

/-- A rank performs an action. -/
theorem act (account : Account n s id expected most) (small : n + 1 < 2 ^ 15) {self : Nat}
    (valid : self < n) {vm : ProcessVm} {action : Action} {rest : List Action} {done : Transferred}
    (todo : (s.ranks self).cont = action :: rest) (performed : action.exec vm s.world self = .ok done)
    (goesOn : done.ret = mpiSuccess ∨ rest = []) :
    Account n
      { s with
        world := done.world
        ranks := Function.update s.ranks self
          ((s.ranks self).advance action.moved rest done.ret) } id expected most := by
  have paid := due_advanced ((s.ranks self).advance action.moved rest done.ret) valid todo
    (RankState.advance_cont _ _ _ _ goesOn) id
  have sameHeld := held_kept (n := n) (RankState.advance_requests (s.ranks self) action.moved rest done.ret)
    id
  have bounded := account.bounded
  have requests : ∀ rank, ((Function.update s.ranks self
      ((s.ranks self).advance action.moved rest done.ret)) rank).requests = (s.ranks rank).requests := by
    intro rank
    by_cases own : rank = self <;> simp [own]
  have cookie : (done.world.cookies id).fixed = (s.world.cookies id).fixed ∧
      (done.world.cookies id).busy =
        (s.world.cookies id).busy - (action.transfer.toList.count id : Nat) := by
    rcases Action.exec_cases performed with ⟨moved, rfl, world, _⟩ | ⟨_, midway⟩
    · rw [world]
      exact ⟨rfl, (Int.sub_zero _).symm⟩
    · refine ⟨midway.fixed id, ?_⟩
      by_cases through : action.transfer = some id
      · have busy := account.busy
        rw [through] at paid ⊢
        simp only [Option.toList_some, List.count_singleton_self] at paid ⊢
        rw [midway.busy id through, busy, int16_of_range (by omega) (by omega)]
        rfl
      · have never : action.transfer.toList.count id = 0 :=
          List.count_eq_zero.mpr fun member => through (Option.mem_toList.mp member)
        rw [midway.others id through, never]
        exact (Int.sub_zero _).symm
  obtain ⟨fixed, busy⟩ := cookie
  have owner : (done.world.cookies id).owner = (s.world.cookies id).owner :=
    (congrArg Cookie.owner fixed :)
  refine { busy := ?_, used := ?_, most := ?_, owner := ?_, waits := ?_, bounded := ?_ }
  · dsimp only
    rw [busy, account.busy]
    omega
  · dsimp only
    rw [sameHeld, ← account.used]
    exact (congrArg Cookie.used fixed :)
  · exact sameHeld.trans_le account.most
  · exact owner.trans_lt account.owner
  · dsimp only
    rw [owner, requests]
    exact fun pos => account.waits (by omega)
  · dsimp only
    omega

/-- A rank leaves a cookie that is ready for it. -/
theorem leave (account : Account n s id expected most) (small : n < 2 ^ 15) (few : most ≤ n) {self left : Nat}
    (valid : self < n) (listed : left ∈ (s.ranks self).requests)
    (ready : (s.world.cookies left).Ready self) : Account n (s.leave self left) id expected most := by
  have fewer := held_left valid listed (s.world.cookies left).err id
  have sameDue := due_kept (n := n) (RankState.leave_cont (s.ranks self) (s.world.cookies left).err left) id
  have owner : ((s.leave self left).world.cookies id).owner = (s.world.cookies id).owner := by
    by_cases same : id = left <;> simp [Sys.leave, same]
  refine { busy := ?_, used := ?_, most := ?_, owner := ?_, waits := ?_, bounded := ?_ }
  · rw [show due n (s.leave self left).ranks id = due n s.ranks id from sameDue, ← account.busy]
    by_cases same : id = left <;> simp [Sys.leave, same]
  · have before := account.used
    have bound := account.most
    simp only [Sys.leave]
    by_cases same : id = left
    · subst same
      rw [if_pos rfl] at fewer
      simp only [World.finalize_cookies, Function.update_self]
      rw [before, int16_of_range (by omega) (by omega)]
      omega
    · rw [if_neg same] at fewer
      simpa [same, ← fewer] using before
  · have bound := account.most
    simp only [Sys.leave]
    omega
  · rw [owner]
    exact account.owner
  · rw [show due n (s.leave self left).ranks id = due n s.ranks id from sameDue, owner]
    intro pos
    have handle := account.waits pos
    by_cases own : (s.world.cookies id).owner = self
    · have other : id ≠ left := by
        rintro rfl
        have idle := ready own
        rw [account.busy] at idle
        omega
      rw [own] at handle ⊢
      simp only [Sys.leave, Function.update_self, RankState.leave_requests]
      exact (List.mem_erase_of_ne other).mpr handle
    · simpa [Sys.leave, own] using handle
  · rw [show due n (s.leave self left).ranks id = due n s.ranks id from sameDue]
    exact account.bounded

end Account

/-! ### The invariant -/

/-- The cookies in the box of an operation that the ranks of `past` have joined. -/
structure Counted (schedule : Schedule) (n : Nat) (past : List Nat) (made : Nat → Nat) (turn : Nat)
    (s : Sys) : Prop where
  box : (s.world.slots turn).box = (schedule.box n past).map made
  owner : ∀ rank ∈ schedule.box n past, (s.world.cookies (made rank)).owner = rank
  account : ∀ rank ∈ schedule.box n past,
    Account n s (made rank) (schedule.future n past rank) past.length

/-- The cookie is in a `free_` list or in the pool. -/
def Sys.Idle (s : Sys) (pool : List Nat) (id : Nat) : Prop :=
  (∃ rank, id ∈ (s.world.procs rank).free) ∨ id ∈ pool

/-- The books of all cookies are in order, those of `pool` included. -/
structure Tended (program : Program) (n : Nat) (pool : List Nat) (s : Sys) : Prop where
  tickets : Tickets program n s
  shelved : Shelved pool s
  boxes : ∀ turn < umpiOutstandingCollectiveOperations, ∃ position past made,
    Stage program n turn position past made s ∧
      ∀ call, program 0 position = some call → Counted call.schedule n past made turn s
  elsewhere : ∀ turn, umpiOutstandingCollectiveOperations ≤ turn → (s.world.slots turn).box = []
  queued : ∀ rank id, id ∈ (s.world.procs rank).inbox ∨ id ∈ (s.world.procs rank).outbox →
    Account n s id 1 1
  settled : ∀ rank id, id ∈ (s.ranks rank).todo ∨ id ∈ (s.world.procs rank).pending → Account n s id 0 n
  unused : ∀ id, s.Idle pool id → (s.world.cookies id).used = 0
  spent : ∀ id, s.Idle pool id ∨ s.world.next ≤ id → Spent n s id
  order : ∀ rank, MovesFirst (s.ranks rank).cont
  beyond : ∀ rank, n ≤ rank → s.ranks rank = RankState.new

namespace Tended

variable {program : Program} {n : Nat} {pool pool' : List Nat} {s s' : Sys} {self id : Nat}

theorem start (program : Program) (mem : Memory) (several : 0 < n) : Tended program n [] (Sys.init n mem) where
  tickets := Tickets.start program mem several
  shelved := Shelved.start n mem
  boxes := by
    intro turn valid
    obtain ⟨position, past, made, stage⟩ := (Tickets.start program mem several).slots turn valid
    have empty : past = [] := stage.box_eq_nil.mp rfl
    subst empty
    refine ⟨position, [], made, stage, fun call _ => ?_⟩
    have nobody : call.schedule.box n [] = [] := by
      cases call.schedule <;> simp [Schedule.box]
    exact
      { box := by rw [nobody]; rfl
        owner := fun rank inBox => by simp [nobody] at inBox
        account := fun rank inBox => by simp [nobody] at inBox }
  elsewhere := fun _ _ => rfl
  queued := fun _ _ listed => by simp [Sys.init, World.start, Process.new] at listed
  settled := fun _ _ listed => by simp [Sys.init, World.start, Process.new, RankState.new] at listed
  unused := fun _ idle => by simp [Sys.Idle, Sys.init, World.start, Process.new] at idle
  spent := fun id _ =>
    { held := Finset.sum_eq_zero fun _ _ => rfl
      due := Finset.sum_eq_zero fun _ _ => rfl }
  order := fun _ => trivial
  beyond := fun _ _ => rfl

/-- A rank that has something to do, or a handle, is one of the ranks. -/
theorem valid_of_ne (tended : Tended program n pool s) (busy : s.ranks self ≠ RankState.new) : self < n := by
  by_contra outside
  exact busy (tended.beyond self (Nat.le_of_not_lt outside))

theorem valid_of_cont (tended : Tended program n pool s) {action : Action} {rest : List Action}
    (todo : (s.ranks self).cont = action :: rest) : self < n :=
  tended.valid_of_ne fun new => by
    rw [new] at todo
    cases todo

theorem valid_of_request (tended : Tended program n pool s) (listed : id ∈ (s.ranks self).requests) :
    self < n :=
  tended.valid_of_ne fun new => by
    rw [new] at listed
    cases listed

/-- What is known about a cookie in a box. -/
theorem boxed (tended : Tended program n pool s)
    (alike : ∀ rank < n, ∀ pos,
      (program rank pos).map Call.operation = (program 0 pos).map Call.operation)
    {turn : Nat} (inBox : id ∈ (s.world.slots turn).box) :
    ∃ position past made call rank, turn < umpiOutstandingCollectiveOperations ∧
      Stage program n turn position past made s ∧ program 0 position = some call ∧
      Counted call.schedule n past made turn s ∧ rank ∈ call.schedule.box n past ∧ made rank = id := by
  have valid : turn < umpiOutstandingCollectiveOperations := by
    by_contra outside
    rw [tended.elsewhere turn (Nat.le_of_not_lt outside)] at inBox
    cases inBox
  obtain ⟨position, past, made, stage, counted⟩ := tended.boxes turn valid
  have nonempty : past ≠ [] := by
    intro first
    rw [stage.idle first] at inBox
    cases inBox
  obtain ⟨rank, rankValid, call, listed, _, _⟩ := stage.standing nonempty
  have same := alike rank rankValid position
  rw [listed] at same
  obtain ⟨first, listed', _⟩ := Option.map_eq_some_iff.mp same.symm
  have here := counted first listed'
  rw [here.box] at inBox
  obtain ⟨maker, inRanks, named⟩ := List.mem_map.mp inBox
  exact ⟨position, past, made, first, maker, valid, stage, listed', here, inRanks, named⟩

/-- A step that is no call, seen from the shelves and the accounts. -/
theorem update (tended : Tended program n pool s) (tickets : Tickets program n s') (shelved : Shelved pool' s')
    (size : s'.world.size = s.world.size) (next : s'.world.next = s.world.next)
    (control : ∀ turn, (s'.world.slots turn).control = (s.world.slots turn).control)
    (stable : ∀ id, (s'.world.cookies id).stable = (s.world.cookies id).stable)
    (pos : ∀ rank, (s'.ranks rank).pos = (s.ranks rank).pos) (joins : s'.joins = s.joins)
    (account : ∀ id expected most, most ≤ n → Account n s id expected most → Account n s' id expected most)
    (spent : ∀ id, Spent n s id → Spent n s' id ∧ (s'.world.cookies id).used = (s.world.cookies id).used)
    (queues : ∀ rank, (s'.world.procs rank).inbox = (s.world.procs rank).inbox ∧
      (s'.world.procs rank).outbox = (s.world.procs rank).outbox)
    (settled : ∀ rank id, id ∈ (s'.ranks rank).todo ∨ id ∈ (s'.world.procs rank).pending →
      ∃ other, id ∈ (s.ranks other).todo ∨ id ∈ (s.world.procs other).pending)
    (gone : ∀ id, s'.Idle pool' id → s.Idle pool id ∨
      (∃ rank, id ∈ (s.world.procs rank).pending) ∧ (s'.world.cookies id).used = 0)
    (order : ∀ rank, MovesFirst (s'.ranks rank).cont)
    (beyond : ∀ rank, n ≤ rank → s'.ranks rank = s.ranks rank) (several : 2 ≤ n) :
    Tended program n pool' s' where
  tickets := tickets
  shelved := shelved
  boxes := by
    intro turn valid
    obtain ⟨position, past, made, stage, counted⟩ := tended.boxes turn valid
    refine ⟨position, past, made, ?_, fun call listed => ?_⟩
    · exact stage.frame size (control turn) (fun id _ => stable id) (fun rank _ => Or.inl (pos rank))
        (congrFun joins turn)
    · obtain ⟨box, owner, accounts⟩ := counted call listed
      exact
        { box := ((congrArg Collect.box (control turn) :)).trans box
          owner := fun rank inBox => (Cookie.owner_of_stable (stable _)).trans (owner rank inBox)
          account := fun rank inBox => account _ _ _ stage.partly.le (accounts rank inBox) }
  elsewhere := fun turn outside =>
    ((congrArg Collect.box (control turn) :)).trans (tended.elsewhere turn outside)
  queued := by
    intro rank id listed
    rw [(queues rank).1, (queues rank).2] at listed
    exact account id 1 1 (by omega) (tended.queued rank id listed)
  settled := by
    intro rank id listed
    obtain ⟨other, before⟩ := settled rank id listed
    exact account id 0 n le_rfl (tended.settled other id before)
  unused := by
    intro id idle
    rcases gone id idle with before | ⟨_, unused⟩
    · exact (spent id (tended.spent id (Or.inl before))).2.trans (tended.unused id before)
    · exact unused
  spent := by
    rintro id (idle | new)
    · rcases gone id idle with before | ⟨⟨rank, pending⟩, unused⟩
      · exact (spent id (tended.spent id (Or.inl before))).1
      · exact ((account id 0 n le_rfl (tended.settled rank id (Or.inr pending))).spent unused).1
    · rw [next] at new
      exact (spent id (tended.spent id (Or.inr new))).1
  order := order
  beyond := fun rank outside => (beyond rank outside).trans (tended.beyond rank outside)

section Acting

variable {vm : ProcessVm} {action : Action} {rest : List Action} {done : Transferred}

/-- A rank performs an action. -/
theorem act (tended : Tended program n pool s) (several : 2 ≤ n) (limit : n ≤ 10000)
    (todo : (s.ranks self).cont = action :: rest) (performed : action.exec vm s.world self = .ok done)
    (goesOn : done.ret = mpiSuccess ∨ rest = []) :
    Tended program n pool
      { s with
        world := done.world
        ranks := Function.update s.ranks self
          ((s.ranks self).advance action.moved rest done.ret) } := by
  have valid := tended.valid_of_cont todo
  have placed := tended.tickets.placed
  have movesBefore := placed.moves self
  rw [todo] at movesBefore
  have ownTodo : (rest.flatMap Action.moved).Perm
      ((s.ranks self).advance action.moved rest done.ret).todo := by
    exact Placed.advance_todo movesBefore (placed.exclusive.nodup (.todo self)) goesOn
  have frame : done.world.size = s.world.size ∧ done.world.next = s.world.next ∧
      (∀ turn, (done.world.slots turn).control = (s.world.slots turn).control) ∧
      (∀ id, (done.world.cookies id).fixed = (s.world.cookies id).fixed) ∧
      (∀ rank, (done.world.procs rank).free = (s.world.procs rank).free ∧
        (done.world.procs rank).inbox = (s.world.procs rank).inbox ∧
        (done.world.procs rank).outbox = (s.world.procs rank).outbox) ∧
      ∀ rank, ∀ id ∈ (done.world.procs rank).pending,
        id ∈ (s.world.procs rank).pending ∨ id ∈ action.moved := by
    rcases Action.exec_cases performed with ⟨moved, rfl, world, _⟩ | ⟨_, midway⟩
    · rw [world]
      refine ⟨rfl, rfl, fun _ => rfl, fun _ => rfl, fun rank => ?_, fun rank id listed => ?_⟩
      · by_cases own : rank = (s.world.cookies moved).owner <;> simp [World.moveToPending, own]
      · by_cases own : rank = (s.world.cookies moved).owner
        · subst own
          simp only [World.moveToPending, World.setProc_procs, Function.update_self, List.mem_cons] at listed
          exact listed.symm.imp_right fun same => List.mem_singleton.mpr same
        · exact Or.inl (by simpa [World.moveToPending, own] using listed)
    · refine ⟨midway.size, midway.next, midway.slots, midway.fixed, fun rank => ?_, fun rank id listed => ?_⟩
      · have lists := midway.lists rank
        exact ⟨midway.free rank, (congrArg (fun lists => lists.2.1) lists :),
          (congrArg (fun lists => lists.2.2.1) lists :)⟩
      · have same : (done.world.procs rank).pending = (s.world.procs rank).pending :=
          (congrArg (fun lists => lists.2.2.2) (midway.lists rank) :)
        exact Or.inl (same ▸ listed)
  obtain ⟨size, next, control, fixed, lists, pending⟩ := frame
  have others : ∀ rank ≠ self, Function.update s.ranks self
      ((s.ranks self).advance action.moved rest done.ret) rank = s.ranks rank :=
    fun rank other => Function.update_of_ne other _ _
  refine tended.update (tended.tickets.act todo performed goesOn)
    (tended.shelved.act placed todo performed goesOn) size next control
    (fun id => (congrArg Cookie.stable (fixed id) :)) ?_ rfl ?_ ?_ (fun rank => (lists rank).2) ?_ ?_ ?_ ?_
    several
  · intro rank
    by_cases own : rank = self <;> simp [own]
  · intro id expected most _ account
    exact account.act (by omega) valid todo performed goesOn
  · intro id spent
    have paid := due_advanced ((s.ranks self).advance action.moved rest done.ret) valid todo
      (RankState.advance_cont _ _ _ _ goesOn) id
    have nothing := spent.due
    refine ⟨⟨?_, ?_⟩, (congrArg Cookie.used (fixed id) :)⟩
    · exact (held_kept (RankState.advance_requests _ _ _ _) id).trans spent.held
    · dsimp only
      omega
  · rintro rank id (inTodo | inPending)
    · refine ⟨rank, Or.inl ?_⟩
      by_cases own : rank = self
      · subst own
        simp only [Function.update_self] at inTodo
        have left := ownTodo.mem_iff.mpr inTodo
        refine movesBefore.mem_iff.mp ?_
        rw [List.flatMap_cons]
        exact List.mem_append_right _ left
      · simpa [own] using inTodo
    · rcases pending rank id inPending with before | moved
      · exact ⟨rank, Or.inr before⟩
      · refine ⟨self, Or.inl (movesBefore.mem_iff.mp ?_)⟩
        rw [List.flatMap_cons]
        exact List.mem_append_left _ moved
  · rintro id (⟨rank, free⟩ | pooled)
    · exact Or.inl (Or.inl ⟨rank, (lists rank).1 ▸ free⟩)
    · exact Or.inl (Or.inr pooled)
  · intro rank
    by_cases own : rank = self
    · subst own
      have before := tended.order rank
      rw [todo] at before
      simp only [Function.update_self]
      rw [RankState.advance_cont _ _ _ _ goesOn]
      exact before.2
    · simpa [own] using tended.order rank
  · intro rank outside
    exact others rank (by omega)

/-- A rank leaves its handle on a cookie that is ready for it. -/
theorem leave (tended : Tended program n pool s) (several : 2 ≤ n) (limit : n ≤ 10000)
    (listed : id ∈ (s.ranks self).requests) (ready : (s.world.cookies id).Ready self) :
    Tended program n (s.world.released id ++ pool) (s.leave self id) := by
  have valid := tended.valid_of_request listed
  have cookies : ∀ other ≠ id, (s.leave self id).world.cookies other = s.world.cookies other := by
    intro other different
    simp [Sys.leave, different]
  refine tended.update (tended.tickets.leave self id _) (tended.shelved.leave self id) rfl rfl (fun _ => rfl)
    ?_ ?_ rfl ?_ ?_ ?_ ?_ ?_ ?_ ?_ several
  · intro other
    by_cases same : other = id <;> simp [Sys.leave, same, Cookie.stable]
  · intro rank
    by_cases own : rank = self <;> simp [Sys.leave, own]
  · intro other expected most few account
    exact account.leave (by omega) few valid listed ready
  · intro other spent
    have fewer := held_left valid listed (s.world.cookies id).err other
    have nothing := spent.held
    have different : other ≠ id := by
      rintro rfl
      exact notMem_of_held_eq_zero nothing valid listed
    rw [if_neg different] at fewer
    refine ⟨⟨fewer.trans nothing, ?_⟩, by rw [cookies other different]⟩
    exact (due_kept (RankState.leave_cont _ _ _) other).trans spent.due
  · intro rank
    by_cases own : rank = (s.world.cookies id).owner <;> simp [Sys.leave, World.finalize, own]
  · rintro rank other (inTodo | inPending)
    · refine ⟨rank, Or.inl ?_⟩
      by_cases own : rank = self
      · subst own
        simpa [Sys.leave] using inTodo
      · simpa [Sys.leave, own] using inTodo
    · refine ⟨rank, Or.inr ?_⟩
      by_cases own : rank = (s.world.cookies id).owner
      · subst own
        simp only [Sys.leave, World.finalize, World.setProc_procs, Function.update_self] at inPending
        exact List.mem_of_mem_filter inPending
      · simpa [Sys.leave, World.finalize, own] using inPending
  · -- what is idle now was idle before or has just been found finished
    have origin : ∀ other, other ∈ ((s.world.procs (s.world.cookies id).owner).pending.filter fun other =>
        ((s.leave self id).world.cookies other).used = 0).reverse ++
          (s.world.procs (s.world.cookies id).owner).free →
        s.Idle pool other ∨ (∃ rank, other ∈ (s.world.procs rank).pending) ∧
          ((s.leave self id).world.cookies other).used = 0 := by
      intro other member
      rcases List.mem_append.mp member with finished | free
      · obtain ⟨pending, unused⟩ := List.mem_filter.mp (List.mem_reverse.mp finished)
        exact Or.inr ⟨⟨_, pending⟩, by simpa using unused⟩
      · exact Or.inl (Or.inl ⟨_, free⟩)
    rintro other (⟨rank, free⟩ | pooled)
    · by_cases own : rank = (s.world.cookies id).owner
      · subst own
        simp only [Sys.leave, World.finalize, World.setProc_procs, Function.update_self] at free
        refine origin other ?_
        split at free
        · exact List.mem_of_mem_take free
        · exact free
      · exact Or.inl (Or.inl ⟨rank, by simpa [Sys.leave, World.finalize, own] using free⟩)
    · rcases List.mem_append.mp pooled with now | before
      · refine origin other ?_
        simp only [World.released] at now
        split at now
        · exact List.mem_of_mem_drop now
        · cases now
      · exact Or.inl (Or.inr before)
  · intro rank
    by_cases own : rank = self
    · subst own
      simpa [Sys.leave] using tended.order rank
    · simpa [Sys.leave, own] using tended.order rank
  · intro rank outside
    have other : rank ≠ self := by omega
    simp [Sys.leave, other]

end Acting

section Posting

variable {target : Nat} {queue home : Shelf} {frame : Frame}

/-- A point-to-point call, seen from the shelves and the accounts: the cookie `id` is now on the shelf
    `home`, and all others are where they were. -/
theorem posted (home : Shelf) (target id : Nat) (tended : Tended program n pool s) (valid : self < n)
    (idle : (s.ranks self).cont = [])
    (beside : Beside s s') (next : s.world.next ≤ s'.world.next) (shelved : Shelved pool s')
    (kind : home = .place (.pending target) ∨ home.QueueOf target)
    (others : ∀ shelf other, other ≠ id → (other ∈ s'.shelved pool shelf ↔ other ∈ s.shelved pool shelf))
    (here : id ∈ s'.shelved pool home) (notBoxed : ∀ turn, id ∉ (s.world.slots turn).box)
    (cookies : ∀ other ≠ id, s'.world.cookies other = s.world.cookies other)
    (request : frame.request = some id) (todo : frame.todo = [])
    (transfers : ∀ action ∈ frame.cont, action.transfer = some id)
    (ranks : s'.ranks = Function.update s.ranks self ((s.ranks self).post frame))
    (queued : home.QueueOf target → Account n s' id 1 1)
    (settled : home = .place (.pending target) → Account n s' id 0 n) : Tended program n pool s' := by
  have only : ∀ shelf, id ∈ s'.shelved pool shelf → shelf = home :=
    fun shelf held => shelved.exclusive.eq_of_mem held here
  have unmoved : ∀ action ∈ frame.cont, action.moved = [] :=
    fun action listed => Action.moved_of_transfer (transfers action listed)
  have nothing : (frame.cont.flatMap Action.moved) = [] :=
    List.flatMap_eq_nil_iff.mpr unmoved
  have requests : ((s.ranks self).post frame).requests = id :: (s.ranks self).requests := by
    simp [request]
  have due : ∀ other ≠ id, Umpi.due n s'.ranks other = Umpi.due n s.ranks other := by
    intro other different
    have none : (frame.cont.filterMap Action.transfer).count other = 0 := by
      refine List.count_eq_zero.mpr fun listed => ?_
      obtain ⟨action, inCont, through⟩ := List.mem_filterMap.mp listed
      exact different (Option.some.inj (through.symm.trans (transfers action inCont)))
    rw [ranks, due_entered _ valid idle, RankState.post_cont, none, Nat.add_zero]
  have held : ∀ other ≠ id, Umpi.held n s'.ranks other = Umpi.held n s.ranks other := by
    intro other different
    rw [ranks, held_entered valid requests, if_neg (Ne.symm different), Nat.add_zero]
  have more : ∀ other rank, other ∈ (s.ranks rank).requests → other ∈ (s'.ranks rank).requests := by
    intro other rank listed
    rw [ranks]
    by_cases own : rank = self
    · subst own
      rw [Function.update_self, requests]
      exact List.mem_cons_of_mem id listed
    · rwa [Function.update_of_ne own]
  have account : ∀ other ≠ id, ∀ expected most, Account n s other expected most →
      Account n s' other expected most := fun other different expected most account =>
    account.kept (cookies other different) (due other different) (held other different) (more other)
  have pos : ∀ rank, (s'.ranks rank).pos = (s.ranks rank).pos := by
    intro rank
    rw [ranks]
    by_cases own : rank = self <;> simp [own]
  have stages : ∀ {turn position : Nat} {past : List Nat} {made : Nat → Nat},
      Stage program n turn position past made s → Stage program n turn position past made s' := by
    intro turn position past made stage
    refine stage.frame beside.size (by rw [beside.slots]) (fun other boxed => ?_)
      (fun rank _ => Or.inl (pos rank)) (congrFun beside.joins turn)
    rw [cookies other fun same => notBoxed turn (same ▸ boxed)]
  have moves : ∀ rank, ((s'.ranks rank).cont.flatMap Action.moved).Perm (s'.ranks rank).todo := by
    intro rank
    rw [ranks]
    by_cases own : rank = self
    · subst own
      simp [nothing, todo]
    · simpa [own] using tended.tickets.placed.moves rank
  -- the cookie itself is on its shelf, and the others are where they were
  have elsewhere : ∀ shelf other, other ∈ s'.shelved pool shelf → shelf ≠ home →
      other ≠ id ∧ other ∈ s.shelved pool shelf := by
    intro shelf other member away
    have different : other ≠ id := by
      rintro rfl
      exact away (only shelf member)
    exact ⟨different, (others shelf other different).mp member⟩
  have idleHome : ∀ other, s'.Idle pool other → other ≠ id ∧ s.Idle pool other := by
    rintro other (⟨rank, free⟩ | pooled)
    · have away : Shelf.place (.free rank) ≠ home := by
        rcases kind with rfl | rfl | rfl <;> simp
      obtain ⟨different, before⟩ := elsewhere (.place (.free rank)) other free away
      exact ⟨different, Or.inl ⟨rank, before⟩⟩
    · have away : Shelf.pool ≠ home := by
        rcases kind with rfl | rfl | rfl <;> simp
      obtain ⟨different, before⟩ := elsewhere .pool other pooled away
      exact ⟨different, Or.inr before⟩
  have spentKept : ∀ other ≠ id, Spent n s other → Spent n s' other := fun other different spent =>
    { held := (held other different).trans spent.held
      due := (due other different).trans spent.due }
  refine
    { tickets := ?_, shelved := shelved, boxes := ?_, elsewhere := ?_, queued := ?_, settled := ?_,
      unused := ?_, spent := ?_, order := ?_, beyond := ?_ }
  · refine
      { size := beside.size.trans tended.tickets.size
        placed := shelved.placed moves
        ticket := fun rank => by rw [beside.ticket, tended.tickets.ticket, pos]
        slots := ?_ }
    intro turn inRange
    obtain ⟨position, past, made, stage⟩ := tended.tickets.slots turn inRange
    exact ⟨position, past, made, stages stage⟩
  · intro turn inRange
    obtain ⟨position, past, made, stage, counted⟩ := tended.boxes turn inRange
    refine ⟨position, past, made, stages stage, fun call listed => ?_⟩
    obtain ⟨box, owner, accounts⟩ := counted call listed
    have different : ∀ rank ∈ call.schedule.box n past, made rank ≠ id := by
      rintro rank inBox rfl
      exact notBoxed turn (box ▸ List.mem_map_of_mem inBox)
    exact
      { box := by rw [beside.slots, box]
        owner := fun rank inBox => by rw [cookies _ (different rank inBox), owner rank inBox]
        account := fun rank inBox => account _ (different rank inBox) _ _ (accounts rank inBox) }
  · intro turn outside
    rw [beside.slots]
    exact tended.elsewhere turn outside
  · intro rank other listed
    by_cases same : other = id
    · subst same
      refine queued ?_
      rcases listed with inbox | outbox
      · rcases kind with rfl | queueOf
        · exact absurd (only (.inbox rank) inbox) (by simp)
        · exact queueOf
      · rcases kind with rfl | queueOf
        · exact absurd (only (.outbox rank) outbox) (by simp)
        · exact queueOf
    · refine account other same _ _ (tended.queued rank other ?_)
      exact listed.imp (others (.inbox rank) other same).mp (others (.outbox rank) other same).mp
  · intro rank other listed
    by_cases same : other = id
    · subst same
      refine settled (kind.resolve_right fun queueOf => ?_)
      rcases listed with inTodo | inPending
      · rcases queueOf with rfl | rfl
        · exact absurd (only (.place (.todo rank)) inTodo) (by simp)
        · exact absurd (only (.place (.todo rank)) inTodo) (by simp)
      · rcases queueOf with rfl | rfl
        · exact absurd (only (.place (.pending rank)) inPending) (by simp)
        · exact absurd (only (.place (.pending rank)) inPending) (by simp)
    · refine account other same _ _ (tended.settled rank other ?_)
      exact listed.imp (others (.place (.todo rank)) other same).mp
        (others (.place (.pending rank)) other same).mp
  · intro other idle
    obtain ⟨different, before⟩ := idleHome other idle
    rw [cookies other different, tended.unused other before]
  · rintro other (idle | new)
    · obtain ⟨different, before⟩ := idleHome other idle
      exact spentKept other different (tended.spent other (Or.inl before))
    · have different : other ≠ id := by
        rintro rfl
        have allocated := shelved.of_mem here
        omega
      exact spentKept other different (tended.spent other (Or.inr (next.trans new)))
  · intro rank
    rw [ranks]
    by_cases own : rank = self
    · subst own
      rw [Function.update_self, RankState.post_cont]
      generalize frame.cont = actions at unmoved
      induction actions with
      | nil => trivial
      | cons action actions ih =>
          refine ⟨fun moved listed => ?_, ih fun other member => unmoved other (List.mem_cons_of_mem action member)⟩
          rw [unmoved action List.mem_cons_self] at listed
          cases listed
    · simpa [own] using tended.order rank
  · intro rank outside
    rw [ranks, Function.update_of_ne (by omega)]
    exact tended.beyond rank outside

/-- A call takes a cookie from a queue. -/
theorem takes (tended : Tended program n pool s) (several : 2 ≤ n) (limit : n ≤ 10000) (valid : self < n)
    (idle : (s.ranks self).cont = []) (takes : Takes s s' self queue target id) :
    Tended program n pool s' := by
  have shelved := tended.shelved.takes takes
  have found : id ∈ s.shelved pool queue := by
    rcases takes.queueOf with rfl | rfl <;> exact takes.found
  have account : Account n s id 1 1 := by
    rcases takes.queueOf with rfl | rfl
    · exact tended.queued target id (Or.inl takes.found)
    · exact tended.queued target id (Or.inr takes.found)
  obtain ⟨action, transfers, ranks⟩ := takes.ranks
  have pending : s'.shelved pool (.place (.pending target)) =
      id :: s.shelved pool (.place (.pending target)) := takes.pending
  have requests : ((s.ranks self).post (Frame.done id [action])).requests = id :: (s.ranks self).requests :=
    rfl
  refine tended.posted (.place (.pending target)) target id valid idle takes.beside
    takes.next.ge shelved (Or.inl rfl) ?_ ?_ ?_ takes.others rfl rfl ?_ ranks ?_ fun _ => ?_
  · intro shelf other different
    by_cases same : shelf = queue
    · subst same
      rw [takes.taken pool]
      exact List.mem_erase_of_ne different
    · by_cases here : shelf = .place (.pending target)
      · subst here
        rw [pending]
        simp [different]
      · rw [takes.elsewhere pool shelf same here]
  · rw [pending]
    exact List.mem_cons_self
  · intro turn boxed
    have same := tended.shelved.exclusive.eq_of_mem (i := .place (.box turn)) boxed found
    rcases takes.queueOf with rfl | rfl <;> cases same
  · intro other listed
    rw [List.mem_singleton.mp listed]
    exact transfers
  · rintro (impossible | impossible) <;> cases impossible
  · -- the transfer that was expected is due now
    have newDue := due_entered ((s.ranks self).post (Frame.done id [action])) valid idle id
    have newHeld := held_entered valid requests id
    have one : ((Frame.done id [action]).cont.filterMap Action.transfer).count id = 1 := by
      simp [Frame.done, transfers]
    rw [RankState.post_cont, one] at newDue
    rw [if_pos rfl] at newHeld
    rw [← ranks] at newDue newHeld
    have few := account.most
    have bounded := account.bounded
    refine
      { busy := ?_, used := ?_, most := by omega, owner := takes.owner.trans_lt account.owner, waits := ?_
        bounded := by omega }
    · rw [takes.busy, account.busy, newDue]
    · rw [takes.used, account.used, newHeld, int16_of_range (by omega) (by omega)]
      rfl
    · intro _
      have handle := account.waits (Nat.lt_add_left _ Nat.one_pos)
      rw [takes.owner, ranks]
      by_cases own : (s.world.cookies id).owner = self
      · rw [own, Function.update_self]
        exact List.mem_cons_self
      · rwa [Function.update_of_ne own]

/-- A call leaves a new cookie in a queue. -/
theorem queues (tended : Tended program n pool s) (valid : self < n) (idle : (s.ranks self).cont = [])
    (queues : Queues s s' self queue target id) : Tended program n pool s' := by
  have shelved := tended.shelved.queues queues
  have unborn : s.Idle pool id ∨ s.world.next ≤ id := by
    rcases queues.free with ⟨free, _⟩ | ⟨_, _, rfl, _⟩
    · exact Or.inl (Or.inl ⟨target, free ▸ List.mem_cons_self⟩)
    · exact Or.inr le_rfl
  have spent := tended.spent id unborn
  have left : id ∈ s'.shelved pool queue := by
    rw [queues.left pool]
    exact List.mem_append_right _ (List.mem_singleton_self id)
  have requests : ((s.ranks self).post (Frame.done id [])).requests = id :: (s.ranks self).requests := rfl
  have next : s.world.next ≤ s'.world.next := by
    rcases queues.free with ⟨_, same⟩ | ⟨_, _, _, grown⟩ <;> omega
  have apart : queue ≠ .place (.free target) := by
    rcases queues.queueOf with rfl | rfl <;> simp
  refine tended.posted queue target id valid idle queues.beside next shelved
    (Or.inr queues.queueOf) ?_ left ?_ queues.others rfl rfl
    (fun _ impossible => absurd impossible List.not_mem_nil) queues.ranks (fun _ => ?_) ?_
  · intro shelf other different
    by_cases same : shelf = queue
    · subst same
      rw [queues.left pool]
      simp [different]
    · by_cases here : shelf = .place (.free target)
      · subst here
        show other ∈ (s'.world.procs target).free ↔ other ∈ (s.world.procs target).free
        rcases queues.free with ⟨free, _⟩ | ⟨empty, empty', _, _⟩
        · rw [free]
          simp [different]
        · rw [empty, empty']
      · rw [queues.elsewhere pool shelf same here]
  · intro turn boxed
    rcases queues.free with ⟨free, _⟩ | ⟨_, _, rfl, _⟩
    · have inFree : id ∈ s.shelved pool (.place (.free target)) := by
        show id ∈ (s.world.procs target).free
        rw [free]
        exact List.mem_cons_self
      cases tended.shelved.exclusive.eq_of_mem (i := .place (.box turn)) boxed inFree
    · exact lt_irrefl _ (tended.shelved.of_mem (i := .place (.box turn)) boxed)
  · have newDue := due_entered ((s.ranks self).post (Frame.done id [])) valid idle id
    have newHeld := held_entered valid requests id
    rw [← queues.ranks, spent.due] at newDue
    rw [← queues.ranks, spent.held, if_pos rfl] at newHeld
    have nothing : due n s'.ranks id = 0 := newDue
    refine
      { busy := ?_, used := ?_, most := newHeld.le, owner := queues.owner.trans_lt valid, waits := ?_
        bounded := by omega }
    · rw [queues.busy, nothing]
      rfl
    · rw [queues.used, newHeld]
      rfl
    · intro _
      rw [queues.owner, queues.ranks, Function.update_self]
      exact List.mem_cons_self
  · intro impossible
    rcases queues.queueOf with rfl | rfl <;> cases impossible

end Posting

section Entering

variable {vm : ProcessVm} {past : List Nat} {made made' : Nat → Nat} {schedule : Schedule}
  {mid w' : World} {offer : Offer} {cont : List Action} {frame : Frame} {joins : Nat → List Join}

/-- A rank whose cookie is in the box, or who makes one now. -/
def Known (schedule : Schedule) (n : Nat) (past : List Nat) (self rank : Nat) : Prop :=
  rank ∈ schedule.box n past ∨ rank = self ∧ (schedule.num n past self).isSome

/-- The state after the critical section of a call. -/
abbrev afterCall (s : Sys) (self : Nat) (w' : World) (frame : Frame) (joins : Nat → List Join) : Sys :=
  { world := w'
    ranks := Function.update s.ranks self ((s.ranks self).enter frame)
    joins := joins }

/-- Everything that is known when a call joins. -/
structure Joined (schedule : Schedule) (n : Nat) (past : List Nat) (s : Sys) (caller : Nat) (mid : World)
    (offer : Offer) (cont : List Action) (w' : World) (frame : Frame) (made made' : Nat → Nat) : Prop where
  valid : caller < n
  idle : (s.ranks caller).cont = []
  suits : schedule.Suits n
  arriving : Arriving schedule n past s.world caller made
  entered : Entered schedule n past s.world caller mid offer cont (w', frame) made made'
  counted : Counted schedule n past made (s.world.turnOf caller) s

namespace Joined

variable (joined : Joined schedule n past s self mid offer cont w' frame made made')
  (joins : Nat → List Join)
include joined

theorem joining : Schedule.Joining n (self :: past) := joined.arriving.joining

theorem short : past.length < n := joined.joining.length_le

/-- An older cookie keeps its name, and the new one has another. -/
theorem old {rank : Nat} (inBox : rank ∈ schedule.box n past) :
    made' rank = made rank ∧ ((schedule.num n past self).isSome → made rank ≠ made' self) := by
  have other : rank ≠ self := by
    rintro rfl
    exact Schedule.notMem_box joined.joining joined.suits inBox
  refine ⟨joined.entered.settles.madeOthers rank other, fun new => ?_⟩
  obtain ⟨k, makes⟩ := Option.isSome_iff_exists.mp new
  rw [(joined.entered.newCookie makes).1]
  exact joined.arriving.fresh rank inBox

theorem old_ne {rank : Nat} (inBox : rank ∈ schedule.box n past) : rank ≠ self := by
  rintro rfl
  exact Schedule.notMem_box joined.joining joined.suits inBox

/-- Different ranks' cookies have different names. -/
theorem distinct (shelved : Shelved pool s) {rank other : Nat} (first : Known schedule n past self rank)
    (second : Known schedule n past self other) (equal : made' rank = made' other) : rank = other := by
  have nodup : ((schedule.box n past).map made).Nodup := by
    rw [← joined.counted.box]
    exact shelved.exclusive.nodup (.place (.box (s.world.turnOf self)))
  rcases first with inBox | ⟨rfl, new⟩ <;> rcases second with inBox' | ⟨rfl, new'⟩
  · rw [(joined.old inBox).1, (joined.old inBox').1] at equal
    exact List.inj_on_of_nodup_map nodup inBox inBox' equal
  · rw [(joined.old inBox).1] at equal
    exact absurd equal ((joined.old inBox).2 new')
  · rw [(joined.old inBox').1] at equal
    exact absurd equal.symm ((joined.old inBox').2 new)
  · rfl

theorem due_eq (id : Nat) : due n (afterCall s self w' frame joins).ranks id =
    due n s.ranks id + ((schedule.later n past self).map made').count id := by
  have contEq : frame.cont = cont := joined.entered.settles.cont
  rw [due_entered _ joined.valid joined.idle, RankState.enter_cont, contEq, joined.entered.script.transfers]

theorem requests_eq : ((s.ranks self).enter frame).requests =
    made' (schedule.request n past self) :: (s.ranks self).requests := by
  have request : frame.request = some (made' (schedule.request n past self)) :=
    joined.entered.settles.request
  rw [RankState.enter_requests, request]
  rfl

theorem held_eq (id : Nat) : held n (afterCall s self w' frame joins).ranks id =
    held n s.ranks id + if made' (schedule.request n past self) = id then 1 else 0 :=
  held_entered joined.valid joined.requests_eq id

/-- Handles are only added. -/
theorem requests_mono {id : Nat} (rank : Nat) (listed : id ∈ (s.ranks rank).requests) :
    id ∈ ((afterCall s self w' frame joins).ranks rank).requests := by
  dsimp only
  by_cases own : rank = self
  · subst own
    rw [Function.update_self, joined.requests_eq]
    exact List.mem_cons_of_mem _ listed
  · rwa [Function.update_of_ne own]

/-- The transfers the caller has got to do, counted by rank. -/
theorem later_count (shelved : Shelved pool s) {rank : Nat} (known : Known schedule n past self rank) :
    ((schedule.later n past self).map made').count (made' rank) =
      (schedule.later n past self).count rank :=
  count_map_of_distinct fun _ listed equal =>
    joined.distinct shelved (Schedule.mem_box_of_later joined.joining listed) known equal

theorem request_eq (shelved : Shelved pool s) {rank : Nat} (known : Known schedule n past self rank) :
    made' (schedule.request n past self) = made' rank ↔ schedule.request n past self = rank :=
  ⟨joined.distinct shelved (Schedule.request_cases joined.joining joined.suits) known, fun same => by rw [same]⟩

/-- The account of a cookie that was in the box. -/
theorem account_old (shelved : Shelved pool s) (limit : n ≤ 10000) {rank : Nat}
    (inBox : rank ∈ schedule.box n past) :
    (w'.cookies (made' rank)).owner = rank ∧
      Account n (afterCall s self w' frame joins) (made' rank) (schedule.future n (self :: past) rank)
        (past.length + 1) := by
  have known : Known schedule n past self rank := Or.inl inBox
  obtain ⟨name, apart⟩ := joined.old inBox
  have account := joined.counted.account rank inBox
  have member : rank ∈ past := Schedule.mem_of_box joined.joining.tail joined.suits inBox
  have step : (schedule.now past).toList.count rank + (schedule.later n past self).count rank +
      schedule.future n (self :: past) rank = schedule.future n past rank :=
    Schedule.future_step joined.joining member
  obtain ⟨stable, untouched, touched⟩ := joined.entered.oldCookie apart
  have owner : (w'.cookies (made rank)).owner = rank :=
    (Cookie.owner_of_stable stable).trans (joined.counted.owner rank inBox)
  have newDue := joined.due_eq joins (made' rank)
  have newHeld := joined.held_eq joins (made' rank)
  rw [joined.later_count shelved known] at newDue
  rw [name] at newDue newHeld ⊢
  have bounded := account.bounded
  have short := joined.short
  have few := account.most
  have busyBefore := account.busy
  -- the rank may notify the cookie while it holds the mutex
  have busy : (w'.cookies (made rank)).busy =
      (s.world.cookies (made rank)).busy - ((schedule.now past).toList.count rank : Nat) := by
    by_cases now : schedule.now past = some rank
    · have once : (schedule.now past).toList.count rank = 1 := by rw [now]; simp
      rw [once] at step ⊢
      rw [(touched (by rw [now, Option.map_some])).1, busyBefore, int16_of_range (by omega) (by omega)]
      rfl
    · have never : (schedule.now past).toList.count rank = 0 :=
        List.count_eq_zero.mpr fun listed => now (Option.mem_toList.mp listed)
      have otherName : (schedule.now past).map made ≠ some (made rank) := by
        intro same
        obtain ⟨other, isNow, equal⟩ := Option.map_eq_some_iff.mp same
        have otherInBox := Schedule.mem_box_of_now short isNow
        rw [← name, ← (joined.old otherInBox).1] at equal
        exact now (isNow.trans (congrArg some (joined.distinct shelved (Or.inl otherInBox) known equal)))
      rw [never, (untouched otherName).1]
      exact (Int.sub_zero _).symm
  refine ⟨owner, { busy := ?_, used := ?_, most := ?_, owner := ?_, waits := ?_, bounded := ?_ }⟩
  · dsimp only
    rw [busy, busyBefore, newDue]
    omega
  · dsimp only
    rw [joined.entered.used apart, newHeld, account.used]
    split
    · rw [int16_of_range (by omega) (by omega)]
      rfl
    · rfl
  · rw [newHeld]
    split <;> omega
  · dsimp only
    rw [owner]
    exact joined.joining.bound rank (List.mem_cons_of_mem self member)
  · intro _
    have handle := account.waits (Nat.lt_add_left _ (Schedule.future_pos short inBox))
    rw [joined.counted.owner rank inBox] at handle
    dsimp only
    rw [owner]
    exact joined.requests_mono joins rank handle
  · rw [newDue]
    omega

/-- The account of the new cookie. -/
theorem account_new (spent : ∀ id, s.Idle pool id ∨ s.world.next ≤ id → Spent n s id)
    (shelved : Shelved pool s) (limit : n ≤ 10000) (new : (schedule.num n past self).isSome) :
    (w'.cookies (made' self)).owner = self ∧
      Account n (afterCall s self w' frame joins) (made' self) (schedule.future n (self :: past) self)
        (past.length + 1) := by
  have known : Known schedule n past self self := Or.inr ⟨rfl, new⟩
  have unborn : s.Idle pool (made' self) ∨ s.world.next ≤ made' self :=
    (joined.entered.newName new).imp (fun free => Or.inl ⟨self, free⟩) And.left
  obtain ⟨k, makes⟩ := Option.isSome_iff_exists.mp new
  have cookie : w'.cookies (made' self) = offer.cookie self k := (joined.entered.newCookie makes).2
  have number := Schedule.future_new joined.joining joined.suits makes
  have range := Schedule.num_range joined.joining makes
  have newDue := joined.due_eq joins (made' self)
  have newHeld := joined.held_eq joins (made' self)
  obtain ⟨unheld, nothing⟩ := spent _ unborn
  rw [joined.later_count shelved known, nothing] at newDue
  rw [unheld, if_pos (by rw [Schedule.request_of_num makes])] at newHeld
  have owner : (w'.cookies (made' self)).owner = self := by rw [cookie]; rfl
  refine ⟨owner, { busy := ?_, used := ?_, most := ?_, owner := ?_, waits := ?_, bounded := ?_ }⟩
  · have busy : (w'.cookies (made' self)).busy = int16 k := by rw [cookie]; rfl
    dsimp only
    rw [busy, newDue, Nat.zero_add, number, int16_of_range (by omega) (by omega)]
  · have used : (w'.cookies (made' self)).used = 1 := by rw [cookie]; rfl
    dsimp only
    rw [used, newHeld]
    rfl
  · omega
  · exact owner.trans_lt joined.valid
  · intro _
    dsimp only
    rw [owner, Function.update_self, joined.requests_eq, Schedule.request_of_num makes]
    exact List.mem_cons_self
  · rw [newDue]
    omega

/-- Both kinds of accounts. -/
theorem account_known (spent : ∀ id, s.Idle pool id ∨ s.world.next ≤ id → Spent n s id)
    (shelved : Shelved pool s) (limit : n ≤ 10000) {rank : Nat} (known : Known schedule n past self rank) :
    (w'.cookies (made' rank)).owner = rank ∧
      Account n (afterCall s self w' frame joins) (made' rank) (schedule.future n (self :: past) rank)
        (past.length + 1) := by
  rcases known with inBox | ⟨rfl, new⟩
  · exact joined.account_old joins shelved limit inBox
  · exact joined.account_new joins spent shelved limit new

/-- A cookie that was not in the box and is not the new one is not touched. -/
theorem untouched {id : Nat} (notBoxed : id ∉ (s.world.slots (s.world.turnOf self)).box)
    (notNew : (schedule.num n past self).isSome → id ≠ made' self) :
    w'.cookies id = s.world.cookies id ∧
      due n (afterCall s self w' frame joins).ranks id = due n s.ranks id ∧
      held n (afterCall s self w' frame joins).ranks id = held n s.ranks id := by
  have unknown : ∀ rank, Known schedule n past self rank → made' rank ≠ id := by
    rintro rank (inBox | ⟨rfl, new⟩) rfl
    · refine notBoxed ?_
      rw [joined.counted.box, (joined.old inBox).1]
      exact List.mem_map_of_mem inBox
    · exact notNew new rfl
  have notRequest : made' (schedule.request n past self) ≠ id :=
    unknown _ (Schedule.request_cases joined.joining joined.suits)
  have notNow : (schedule.now past).map made ≠ some id := by
    intro same
    obtain ⟨other, isNow, equal⟩ := Option.map_eq_some_iff.mp same
    have inBox := Schedule.mem_box_of_now joined.short isNow
    exact unknown other (Or.inl inBox) ((joined.old inBox).1.trans equal)
  refine ⟨?_, ?_, ?_⟩
  · have used := joined.entered.used notNew
    rw [if_neg notRequest] at used
    have cookie := joined.entered.untouched notNew notNow
    simp only at used cookie
    rw [cookie, used]
  · have none : ((schedule.later n past self).map made').count id = 0 := by
      refine List.count_eq_zero.mpr fun listed => ?_
      obtain ⟨rank, inLater, same⟩ := List.mem_map.mp listed
      exact unknown rank (Schedule.mem_box_of_later joined.joining inLater) same
    rw [joined.due_eq joins, none, Nat.add_zero]
  · rw [joined.held_eq joins, if_neg notRequest, Nat.add_zero]

/-- The cookies of another slot are not touched. -/
theorem elsewhere (shelved : Shelved pool s) {turn id : Nat} (other : turn ≠ s.world.turnOf self)
    (boxed : id ∈ (s.world.slots turn).box) :
    w'.cookies id = s.world.cookies id ∧
      due n (afterCall s self w' frame joins).ranks id = due n s.ranks id ∧
      held n (afterCall s self w' frame joins).ranks id = held n s.ranks id := by
  have held : id ∈ s.shelved pool (.place (.box turn)) := boxed
  refine joined.untouched joins ?_ ?_
  · intro inOwn
    have same := shelved.exclusive.eq_of_mem held (j := .place (.box (s.world.turnOf self))) inOwn
    simp only [Shelf.place.injEq, Place.box.injEq] at same
    exact other same
  · rintro new name
    rcases joined.entered.newName new with free | ⟨unborn, _⟩
    · rw [← name] at free
      cases shelved.exclusive.eq_of_mem held (j := .place (.free self)) free
    · have allocated := shelved.of_mem held
      omega

end Joined

/-- A rank joins an operation: what becomes of the cookies. The slots are dealt with apart. -/
theorem enter_accounts (tended : Tended program n pool s) (limit : n ≤ 10000)
    (joined : Joined schedule n past s self mid offer cont w' frame made made')
    (tickets : Tickets program n (afterCall s self w' frame joins))
    (shelved : Shelved pool (afterCall s self w' frame joins))
    (boxes : ∀ turn < umpiOutstandingCollectiveOperations, ∃ position past made,
      Stage program n turn position past made (afterCall s self w' frame joins) ∧
        ∀ call, program 0 position = some call →
          Counted call.schedule n past made turn (afterCall s self w' frame joins)) :
    Tended program n pool (afterCall s self w' frame joins) := by
  have settles := joined.entered.settles
  have known : ∀ {rank}, Known schedule n past self rank →
      Account n (afterCall s self w' frame joins) (made' rank) (schedule.future n (self :: past) rank)
        (past.length + 1) := fun known => (joined.account_known joins tended.spent tended.shelved limit known).2
  -- what has left the box expects nothing more
  have gone : ∀ {rank}, rank ∈ schedule.taken n past self ∨ schedule.retired n past self = some rank →
      Account n (afterCall s self w' frame joins) (made' rank) 0 n := by
    intro rank left
    obtain ⟨before, away⟩ := Schedule.gone_of_left joined.joining joined.suits left
    have member : rank ∈ self :: past := by
      rcases before with inBox | ⟨rfl, _⟩
      · exact List.mem_cons_of_mem self (Schedule.mem_of_box joined.joining.tail joined.suits inBox)
      · exact List.mem_cons_self
    have account := known before
    rw [Schedule.future_of_gone member joined.suits joined.joining away] at account
    exact account.mono joined.joining.length_le
  -- the new cookie has been in the caller's free list or in none
  have notNew : ∀ shelf, shelf ≠ .place (.free self) → ∀ id ∈ s.shelved pool shelf,
      (schedule.num n past self).isSome → id ≠ made' self := by
    rintro shelf elsewhere id held new rfl
    rcases joined.entered.newName new with free | ⟨unborn, _⟩
    · exact elsewhere (tended.shelved.exclusive.eq_of_mem held (j := .place (.free self)) free)
    · have allocated := tended.shelved.of_mem held
      omega
  have notBoxed : ∀ shelf, shelf ≠ .place (.box (s.world.turnOf self)) → ∀ id ∈ s.shelved pool shelf,
      id ∉ (s.world.slots (s.world.turnOf self)).box := fun shelf elsewhere id held inBox =>
    elsewhere (tended.shelved.exclusive.eq_of_mem held (j := .place (.box (s.world.turnOf self))) inBox)
  have kept : ∀ shelf, shelf ≠ .place (.free self) → shelf ≠ .place (.box (s.world.turnOf self)) →
      ∀ id ∈ s.shelved pool shelf, ∀ expected most, Account n s id expected most →
        Account n (afterCall s self w' frame joins) id expected most := by
    intro shelf notFree notBox id held expected most account
    obtain ⟨cookie, due, held⟩ := joined.untouched joins (notBoxed shelf notBox id held)
      (notNew shelf notFree id held)
    exact account.kept cookie due held fun rank listed => joined.requests_mono joins rank listed
  have queues : ∀ rank, (w'.procs rank).inbox = (s.world.procs rank).inbox ∧
      (w'.procs rank).outbox = (s.world.procs rank).outbox := by
    intro rank
    have lists := joined.entered.midway.lists rank
    obtain ⟨inbox, outbox⟩ := settles.queues rank
    exact ⟨inbox.trans (congrArg (fun lists => lists.2.1) lists :),
      outbox.trans (congrArg (fun lists => lists.2.2.1) lists :)⟩
  -- a cookie that is idle now was idle before, and is not the new one
  have idle : ∀ id, (afterCall s self w' frame joins).Idle pool id → s.Idle pool id ∧
      id ∉ (s.world.slots (s.world.turnOf self)).box ∧
        ((schedule.num n past self).isSome → id ≠ made' self) := by
    rintro id (⟨rank, free⟩ | pooled)
    · by_cases own : rank = self
      · subst own
        have before : id ∈ (s.world.procs rank).free ∧
            ((schedule.num n past rank).isSome → id ≠ made' rank) := by
          cases makes : schedule.num n past rank with
          | none => exact ⟨joined.entered.free_kept makes ▸ free, fun impossible => nomatch impossible⟩
          | some k =>
              have nodup : (s.world.procs rank).free.Nodup :=
                tended.shelved.exclusive.nodup (.place (.free rank))
              rcases joined.entered.free_taken makes with taken | ⟨_, empty, _⟩
              · rw [taken] at nodup ⊢
                refine ⟨List.mem_cons_of_mem _ free, fun _ => ?_⟩
                rintro rfl
                exact (List.nodup_cons.mp nodup).1 free
              · dsimp only at free empty
                rw [empty] at free
                cases free
        exact ⟨Or.inl ⟨rank, before.1⟩,
          notBoxed (.place (.free rank)) (by simp) id before.1, before.2⟩
      · have same : (w'.procs rank).free = (s.world.procs rank).free := joined.entered.free own
        have before : id ∈ s.shelved pool (.place (.free rank)) := by
          show id ∈ (s.world.procs rank).free
          rw [← same]
          exact free
        exact ⟨Or.inl ⟨rank, before⟩, notBoxed _ (by simp) id before, notNew _ (by simp [own]) id before⟩
    · exact ⟨Or.inr pooled, notBoxed .pool (by simp) id pooled, notNew .pool (by simp) id pooled⟩
  refine
    { tickets := tickets, shelved := shelved, boxes := boxes, elsewhere := ?_, queued := ?_, settled := ?_
      unused := ?_, spent := ?_, order := ?_, beyond := ?_ }
  · intro turn outside
    have here : s.world.turnOf self < umpiOutstandingCollectiveOperations := Nat.mod_lt _ (by decide)
    have other : turn ≠ s.world.turnOf self := by omega
    have same : w'.slots turn = mid.slots turn := settles.otherSlots turn other
    dsimp only
    rw [same, joined.entered.midway.box, claimed_slots_of_ne s.world self other]
    exact tended.elsewhere turn outside
  · intro rank id listed
    dsimp only at listed
    rw [(queues rank).1, (queues rank).2] at listed
    have account := tended.queued rank id listed
    rcases listed with inbox | outbox
    · exact kept (.inbox rank) (by simp) (by simp) id inbox 1 1 account
    · exact kept (.outbox rank) (by simp) (by simp) id outbox 1 1 account
  · rintro rank id (inTodo | inPending)
    · by_cases own : rank = self
      · subst own
        have todo : frame.todo = (schedule.taken n past rank).map made' := settles.todo
        dsimp only at inTodo
        rw [Function.update_self, RankState.enter_todo, todo] at inTodo
        obtain ⟨maker, taken, rfl⟩ := List.mem_map.mp inTodo
        exact gone (Or.inl taken)
      · dsimp only at inTodo
        rw [Function.update_of_ne own] at inTodo
        exact kept (.place (.todo rank)) (by simp) (by simp) id inTodo 0 n
          (tended.settled rank id (Or.inl inTodo))
    · obtain ⟨retiredOwner, grown, others⟩ := Placed.enter_pending joined.entered
      have cases : (∃ maker, schedule.retired n past self = some maker ∧ made maker = id) ∨
          id ∈ (s.world.procs rank).pending := by
        by_cases same : rank = retiredOwner
        · subst same
          dsimp only at inPending
          rw [grown] at inPending
          refine (List.mem_append.mp inPending).imp_left fun retired => ?_
          obtain ⟨maker, listed, named⟩ := List.mem_map.mp retired
          exact ⟨maker, Option.mem_toList.mp listed, named⟩
        · exact Or.inr (others rank same ▸ inPending)
      rcases cases with ⟨maker, retired, rfl⟩ | before
      · rw [← settles.madeOthers maker (Schedule.retired_ne retired)]
        exact gone (Or.inr retired)
      · exact kept (.place (.pending rank)) (by simp) (by simp) id before 0 n
          (tended.settled rank id (Or.inr before))
  · intro id isIdle
    obtain ⟨before, notInBox, notMade⟩ := idle id isIdle
    obtain ⟨cookie, _, _⟩ := joined.untouched joins notInBox notMade
    dsimp only
    rw [cookie]
    exact tended.unused id before
  · rintro id (isIdle | unborn)
    · obtain ⟨before, notInBox, notMade⟩ := idle id isIdle
      obtain ⟨_, due, held⟩ := joined.untouched joins notInBox notMade
      have spent := tended.spent id (Or.inl before)
      exact ⟨held.trans spent.held, due.trans spent.due⟩
    · have grown : s.world.next ≤ w'.next := joined.entered.next
      dsimp only at unborn
      have notInBox : id ∉ (s.world.slots (s.world.turnOf self)).box := fun inBox => by
        have allocated := tended.shelved.of_mem (i := .place (.box (s.world.turnOf self))) inBox
        omega
      have notMade : (schedule.num n past self).isSome → id ≠ made' self := by
        rintro new rfl
        rcases joined.entered.newName new with free | ⟨_, small⟩
        · have allocated := tended.shelved.of_mem (i := .place (.free self)) free
          omega
        · dsimp only at small
          omega
      obtain ⟨_, due, held⟩ := joined.untouched joins notInBox notMade
      have spent := tended.spent id (Or.inr (by omega))
      exact ⟨held.trans spent.held, due.trans spent.due⟩
  · intro rank
    dsimp only
    by_cases own : rank = self
    · subst own
      have contEq : frame.cont = cont := settles.cont
      rw [Function.update_self, RankState.enter_cont, contEq]
      exact joined.entered.script.order
    · rw [Function.update_of_ne own]
      exact tended.order rank
  · intro rank outside
    have other : rank ≠ self := by
      rintro rfl
      have valid := joined.valid
      omega
    dsimp only
    rw [Function.update_of_ne other]
    exact tended.beyond rank outside

/-- Calls that agree on the operation and on `MPI_IN_PLACE` follow one schedule. -/
theorem schedule_eq {program : Program}
    (alike : ∀ rank < n, ∀ pos,
      (program rank pos).map Call.operation = (program 0 pos).map Call.operation)
    (agree : ∀ rank < n, ∀ pos,
      (program rank pos).map Call.reducesInPlace = (program 0 pos).map Call.reducesInPlace)
    {rank pos : Nat} (valid : rank < n) {call other : Call} (listed : program rank pos = some call)
    (listed' : program 0 pos = some other) : other.schedule = call.schedule := by
  have operations := alike rank valid pos
  have places := agree rank valid pos
  rw [listed, listed'] at operations places
  rw [Call.schedule, Call.schedule, Option.some.inj operations, Option.some.inj places]

/-- A call that is accepted joins the operation its slot is in. -/
theorem exists_joined (tended : Tended program n pool s) (several : 2 ≤ n) (limit : n ≤ 10000)
    (alike : ∀ rank < n, ∀ pos,
      (program rank pos).map Call.operation = (program 0 pos).map Call.operation)
    (agree : ∀ rank < n, ∀ pos,
      (program rank pos).map Call.reducesInPlace = (program 0 pos).map Call.reducesInPlace)
    (valid : self < n) (idle : (s.ranks self).cont = []) {call : Call}
    (listed : program self (s.ranks self).pos = some call)
    (called : call.enter vm s.world self = .ok (w', frame)) (accepted : frame.Accepted) :
    ∃ past made mid offer cont made',
      Stage program n (s.world.turnOf self) (s.ranks self).pos past made s ∧
        Joined call.schedule n past s self mid offer cont w' frame made made' := by
  have tickets := tended.tickets
  obtain ⟨position, past, made, stage, counted⟩ :=
    tended.boxes (s.world.turnOf self) (Nat.mod_lt _ (by decide))
  have severalWorld : s.world.size ≠ 1 := by
    rw [tickets.size]
    omega
  obtain rfl := stage.position_eq valid (tickets.turnOf_eq self).symm fun busy => by
    rw [Call.ticket_of_enter severalWorld called accepted busy, tickets.ticket]
  have arriving := tickets.arriving several limit alike valid listed stage
  obtain ⟨suits, mid, offer, cont, made', entered⟩ :=
    (call.enter_joins vm arriving).of_ok called accepted
  have same := alike self valid (s.ranks self).pos
  rw [listed] at same
  obtain ⟨first, listed', _⟩ := Option.map_eq_some_iff.mp same.symm
  have counted := counted first listed'
  rw [schedule_eq alike agree valid listed listed'] at counted
  exact ⟨past, made, mid, offer, cont, made', stage,
    { valid := valid, idle := idle, suits := suits, arriving := arriving, entered := entered
      counted := counted }⟩

/-- The slot of a call that joins, and the other ones. -/
theorem enter (tended : Tended program n pool s) (several : 2 ≤ n) (limit : n ≤ 10000)
    (alike : ∀ rank < n, ∀ pos,
      (program rank pos).map Call.operation = (program 0 pos).map Call.operation)
    (agree : ∀ rank < n, ∀ pos,
      (program rank pos).map Call.reducesInPlace = (program 0 pos).map Call.reducesInPlace)
    (valid : self < n) (idle : (s.ranks self).cont = []) {call : Call}
    (listed : program self (s.ranks self).pos = some call)
    (called : call.enter vm s.world self = .ok (w', frame)) (accepted : frame.Accepted) :
    Tended program n pool (afterCall s self w' frame (s.record w' self)) := by
  have tickets := tended.tickets
  obtain ⟨past, made, mid, offer, cont, made', stage, joined⟩ :=
    tended.exists_joined several limit alike agree valid idle listed called accepted
  have suits := joined.suits
  have arriving := joined.arriving
  have entered := joined.entered
  have joining := arriving.joining
  have standing := entered.standing arriving suits
  have shelved := tended.shelved.enter tickets.placed idle arriving.standing suits joining entered
    (s.record w' self)
  refine tended.enter_accounts limit joined
    (tickets.enter several limit alike valid idle listed called accepted) shelved ?_
  intro turn turnValid
  by_cases own : turn = s.world.turnOf self
  · subst own
    have bounded : past.length + 1 ≤ n := joining.length_le
    have box : (w'.slots (s.world.turnOf self)).box = (call.schedule.box n (self :: past)).map made' :=
      standing.box
    by_cases full : past.length + 1 = n
    · refine ⟨_, _, _, tickets.enter_full stage joining full entered standing, fun other _ => ?_⟩
      have everyone : (self :: past).length = n := full
      have nobody : other.schedule.box n [] = [] := by
        cases other.schedule <;> simp [Schedule.box]
      exact
        { box := by rw [nobody, box, Schedule.box_full everyone, List.map_nil]
          owner := fun rank inBox => by simp [nobody] at inBox
          account := fun rank inBox => by simp [nobody] at inBox }
    · refine ⟨_, _, _, tickets.enter_partly valid listed suits stage joining (by omega) entered standing,
        fun other otherListed => ?_⟩
      rw [schedule_eq alike agree valid listed otherListed]
      have accounts : ∀ rank ∈ call.schedule.box n (self :: past), (w'.cookies (made' rank)).owner = rank ∧
          Account n (afterCall s self w' frame (s.record w' self)) (made' rank)
            (call.schedule.future n (self :: past) rank) (past.length + 1) := fun rank inBox =>
        joined.account_known _ tended.spent tended.shelved limit (Schedule.mem_box_cases joining suits inBox)
      exact
        { box := box
          owner := fun rank inBox => (accounts rank inBox).1
          account := fun rank inBox => (accounts rank inBox).2 }
  · obtain ⟨position, other, names, stage', counted'⟩ := tended.boxes turn turnValid
    refine ⟨_, _, _, tickets.enter_other stage' own stage entered standing, fun otherCall otherListed => ?_⟩
    obtain ⟨box, owner, accounts⟩ := counted' otherCall otherListed
    have same : (w'.slots turn).box = (s.world.slots turn).box := by
      have kept : w'.slots turn = mid.slots turn := entered.settles.otherSlots turn own
      rw [kept, entered.midway.box, claimed_slots_of_ne s.world self own]
    have boxed : ∀ rank ∈ otherCall.schedule.box n other, names rank ∈ (s.world.slots turn).box := by
      intro rank inBox
      rw [box]
      exact List.mem_map_of_mem inBox
    have elsewhere := fun rank inBox => joined.elsewhere (s.record w' self) tended.shelved own
      (boxed rank inBox)
    exact
      { box := same.trans box
        owner := fun rank inBox => by
          dsimp only
          rw [(elsewhere rank inBox).1]
          exact owner rank inBox
        account := fun rank inBox =>
          (accounts rank inBox).kept (elsewhere rank inBox).1 (elsewhere rank inBox).2.1
            (elsewhere rank inBox).2.2 fun holder handle => joined.requests_mono _ holder handle }

end Entering

/-- One event. -/
theorem perform (tended : Tended program n pool s) (several : 2 ≤ n) (limit : n ≤ 10000)
    (alike : ∀ rank < n, ∀ pos,
      (program rank pos).map Call.operation = (program 0 pos).map Call.operation)
    (agree : ∀ rank < n, ∀ pos,
      (program rank pos).map Call.reducesInPlace = (program 0 pos).map Call.reducesInPlace)
    {vm : ProcessVm} {event : Event} (performed : s.perform vm program event = .ok s') (clean : s'.Clean) :
    Tended program n (s.released event ++ pool) s' := by
  cases event with
  | collective label =>
      have stepped : s.step vm program label = .ok s' := performed
      cases label with
      | call self =>
          obtain ⟨call, w, frame, valid, idle, listed, entered, rfl⟩ := step_call stepped
          rw [tended.tickets.size] at valid
          refine tended.enter several limit alike agree valid idle listed entered fun finished => ?_
          refine clean self frame.ret ?_
          simp [RankState.enter, finished]
      | act self =>
          obtain ⟨action, rest, done, todo, acted, rfl⟩ := step_act stepped
          refine tended.act several limit todo acted (Or.inl ?_)
          by_contra failure
          refine failure (clean self done.ret ?_)
          simp [RankState.advance, failure]
      | wait self id =>
          obtain ⟨_, listed, ready, rfl⟩ := step_wait stepped
          exact tended.leave several limit listed ready
  | recv self buf count datatype source tag comm =>
      obtain ⟨valid, idle, posted⟩ := perform_recv performed tended.tickets.placed.todo_eq_nil clean
      rw [tended.tickets.size] at valid
      rcases posted with ⟨queue, target, id, takes⟩ | ⟨queue, target, id, queues⟩
      · exact tended.takes several limit valid idle takes
      · exact tended.queues valid idle queues
  | send self buf count datatype dest tag comm =>
      obtain ⟨valid, idle, posted⟩ := perform_send performed tended.tickets.placed.todo_eq_nil clean
      rw [tended.tickets.size] at valid
      rcases posted with ⟨queue, target, id, takes⟩ | ⟨queue, target, id, queues⟩
      · exact tended.takes several limit valid idle takes
      · exact tended.queues valid idle queues
  | test self id =>
      simp only [Sys.perform] at performed
      split at performed
      case isTrue possible =>
        split at performed
        case isTrue busy =>
          obtain rfl := Outcome.ok.inj performed
          simpa [Sys.released, Sys.leaves, busy] using tended
        case isFalse finished =>
          obtain rfl := Outcome.ok.inj performed
          simp only [Sys.released, Sys.leaves, if_neg finished]
          exact tended.leave several limit possible.2 fun _ => not_not.mp finished
      case isFalse => cases performed

end Tended

/-- Nothing had failed before an event. -/
theorem Sys.Clean.of_perform {vm : ProcessVm} {program : Program} {s s' : Sys} {event : Event}
    (performed : s.perform vm program event = .ok s') (clean : s'.Clean) : s.Clean := by
  have posts : ∀ {self : Nat} {called : World × Frame}, s.post self called = .ok s' → s.Clean := by
    intro self called posted
    obtain ⟨_, _, rfl⟩ := post_cases posted
    intro rank ret returned
    refine clean rank ret ?_
    by_cases own : rank = self
    · subst own
      dsimp only
      rw [Function.update_self]
      exact (RankState.enter_rets_suffix _ _).subset returned
    · simpa [own] using returned
  cases event with
  | collective label => exact clean.of_step performed
  | recv self buf count datatype source tag comm => exact posts performed
  | send self buf count datatype dest tag comm => exact posts performed
  | test self id =>
      simp only [Sys.perform] at performed
      split at performed
      · split at performed
        · exact Outcome.ok.inj performed ▸ clean
        · obtain rfl := Outcome.ok.inj performed
          intro rank ret returned
          refine clean rank ret ?_
          by_cases own : rank = self
          · subst own
            simp [Sys.leave, RankState.leave, returned]
          · simpa [Sys.leave, own] using returned
      · cases performed

/-- In every run without an error, of programs that agree, the books are in order. -/
theorem runs_tended {vm : ProcessVm} {program : Program} {n : Nat} {mem : Memory}
    {history : List (Sys × Event)} {s : Sys}
    (several : 2 ≤ n) (limit : n ≤ 10000)
    (alike : ∀ rank < n, ∀ pos,
      (program rank pos).map Call.operation = (program 0 pos).map Call.operation)
    (agree : ∀ rank < n, ∀ pos,
      (program rank pos).map Call.reducesInPlace = (program 0 pos).map Call.reducesInPlace)
    (run : Runs vm program (Sys.init n mem) history s) (clean : s.Clean) :
    Tended program n (Sys.pool history) s := by
  induction run with
  | refl => exact Tended.start program mem (by omega)
  | tail event _ performed ih =>
      exact (ih (clean.of_perform performed)).perform several limit alike agree performed clean

end Umpi
