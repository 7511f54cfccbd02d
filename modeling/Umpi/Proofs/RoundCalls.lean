/-
Module: Umpi.Proofs.RoundCalls
Layer: Proofs
Purpose: The calls of `MPI_Igatherv` in the rounds of `MPI_Allgatherv`: the root of a round opens its slot, the
  other ranks join it after that, and each call returns.
Imports: Umpi.Proofs.Rounds
Trusted boundary: none
Main exports: RoundSlots.rootJoins, RoundSlots.memberJoins, RoundSlots.returns
Open obligations: none
-/
import Umpi.Proofs.Rounds

namespace Umpi

open Foundation Sys

section Joining

variable {vm : ProcessVm} {args : Nat → AllgathervArgs} {send : Nat → Option Buffer}
  {recv : Nat → BlockVector} {n t era : Nat} {origin w : World} {joined delivered cookie : Nat → Nat}

/-- A rank that joins a slot takes the next ticket, and touches no other slot. -/
theorem enter_slots {root self : Nat} {mid : World} {offer : Offer} {cont : List Action}
    {result : World × Frame} {past : List Nat} {made made' : Nat → Nat}
    (entered : Entered (.rooted root) n past w self mid offer cont result made made')
    (kept : ∀ turn ≠ w.turnOf self, mid.slots turn = (w.claimed self).slots turn) {turn : Nat}
    (other : turn ≠ w.turnOf self) : result.1.slots turn = w.slots turn :=
  (entered.settles.otherSlots turn other).trans ((kept turn other).trans (claimed_slots_of_ne w self other))

/-- The slot a rank has claimed. -/
theorem claimed_slots_self (w : World) (self : Nat) :
    (w.claimed self).slots (w.turnOf self) =
      { w.slots (w.turnOf self) with
        mutex := some self
        ticket := w.ticket self
        joined := (if (w.slots (w.turnOf self)).box = [] then 0 else (w.slots (w.turnOf self)).joined) + 1
        made := if (w.slots (w.turnOf self)).box = [] then [] else (w.slots (w.turnOf self)).made } := by
  by_cases idle : (w.slots (w.turnOf self)).box = [] <;>
    simp only [World.turnOf] at idle <;> simp [World.claimed, World.turnOf, idle]

namespace RoundSlots

variable {self root : Nat}

/-- The ticket of a rank leads it to the slot of its next round. -/
theorem turnOf (slots : RoundSlots send recv n t origin era joined delivered cookie w) (valid : self < n)
    (before : joined self = root) : w.turnOf self = slotAt t root := by
  rw [World.turnOf, slots.ticket self valid, before]
  rfl

/-- Joining takes a ticket. -/
theorem ticket_joins (slots : RoundSlots send recv n t origin era joined delivered cookie w) (valid : self < n)
    (before : joined self = root) {rank : Nat} (rankValid : rank < n) :
    (w.claimed self).ticket rank = ticketAt t (Function.update joined self (root + 1) rank) := by
  by_cases own : rank = self
  · subst own
    simp [World.claimed, ticketAt, slots.ticket rank valid, before]
  · simp [World.claimed, own, slots.ticket rank rankValid]

variable (vm) in
/-- A rank other than the root joins after it. -/
theorem memberJoins (slots : RoundSlots send recv n t origin era joined delivered cookie w)
    (arguments : AllgathervArguments args send recv n) (limit : n ≤ 10000) (valid : self < n)
    (rootValid : root < n) (notRoot : self ≠ root) (before : joined self = root) (opened : root < joined root)
    (current : root + 1 = era) (ahead : ∀ rank < n, joined rank ≤ era + 1) :
    ((gathervCalls (roundSend send recv root) recv root self).enter vm w self).Yields fun result =>
      result.2.cont = [(roundPlan send recv n t root).pull self (cookie root)] ∧
      result.2.request = some (cookie root) ∧ result.1.mem = w.mem ∧
      RoundSlots send recv n t origin era (Function.update joined self (root + 1)) delivered cookie
        result.1 := by
  have here := slots.turnOf valid before
  have standing := slots.standing root rootValid opened current.ge
  have inPast : root ∈ joiners n joined root := mem_joiners.mpr ⟨rootValid, opened⟩
  have joining : Schedule.Joining n (self :: joiners n joined root) := joining_joiners valid before.le
  have standingHere : Standing (.rooted root) n (joiners n joined root) w (w.turnOf self)
    fun _ => cookie root := here ▸ standing
  refine (gathervPlan_member rootValid ((arguments.round rootValid).sendValid self valid)
    notRoot standingHere joining here).mono ?_
  rintro ⟨w', frame⟩ ⟨made', entered⟩
  rw [if_pos inPast] at entered
  have makes : (Schedule.rooted root).num n (joiners n joined root) self = none := by
    simp [Schedule.num, notRoot, inPast]
  have kept := entered.settles.kept (by simp [Schedule.settlement, makes])
  have names : ∀ rank, made' rank = cookie root := by
    intro rank
    by_cases own : rank = self
    · exact own ▸ kept.1
    · exact entered.settles.madeOthers rank own
  have untouched : ∀ id, w'.cookies id = { w.cookies id with used := (w'.cookies id).used } := fun id =>
    entered.untouched (fun new => by simp [makes] at new) (by simp [Schedule.now])
  have stays : ∀ other, other < Function.update joined self (root + 1) other ↔ other < joined other := by
    intro other
    by_cases own : other = self
    · subst own
      rw [Function.update_self, before]
      omega
    · rw [Function.update_of_ne own]
  have otherSlots : ∀ turn ≠ slotAt t root, w'.slots turn = w.slots turn := fun turn other =>
    enter_slots entered (fun _ _ => rfl) (here ▸ other)
  have elsewhere : ∀ other < n, other < joined other → era ≤ other + 1 → other ≠ root →
      slotAt t other ≠ slotAt t root := by
    intro other otherValid otherOpened otherCurrent different
    have later := ahead other otherValid
    obtain rfl : other = root + 1 := by omega
    exact (slotAt_succ_ne t root).symm
  have slot := entered.settles.slot
  rw [here] at slot
  have claimed := claimed_slots_self w self
  have busy : (w.slots (slotAt t root)).box ≠ [] := by
    have short : (joiners n joined root).length < n := joining.length_le
    rw [standing.box]
    simp [Schedule.box, short.ne, inPast]
  have ticket := slots.ticket self valid
  rw [before] at ticket
  rw [here, if_neg busy, if_neg busy, ticket, standing.joined (List.ne_nil_of_mem inPast)] at claimed
  refine ⟨entered.settles.cont, ?_, entered.settles.mem, ?_⟩
  · rw [entered.settles.request, names]
  exact
    { size := entered.settles.size.trans slots.size
      ticket := fun rank rankValid => by
        rw [entered.settles.ticket]
        exact slots.ticket_joins valid before rankValid
      unlocked := by
        intro turn
        by_cases same : turn = slotAt t root
        · rw [same, slot]
        · rw [otherSlots turn same]
          exact slots.unlocked turn
      standing := by
        intro other otherValid otherOpened otherCurrent
        by_cases same : other = root
        · subst same
          have settled : Standing (.rooted other) n (self :: joiners n joined other) w' (slotAt t other) made' := by
            refine (standing_of_root (List.mem_cons_of_mem self inPast)).mpr
              ⟨entered.settles.size.trans slots.size, ?_, ?_, fun _ => ?_⟩
            · rw [slot]
              simp only [Schedule.settlement, Schedule.box, List.mem_cons, inPast, or_true, if_true]
              split <;> simp
            · rw [slot, claimed]
              simp
            · rw [names]
              exact (congrArg Cookie.src (untouched _) :).trans (slots.src limit otherValid opened)
          exact settled.perm (List.mem_cons_of_mem self inPast) (joiners_joins valid before) (names other).symm
        · have standing := slots.standing other otherValid ((stays other).mp otherOpened) otherCurrent
          rw [joiners_other before same]
          have alone := elsewhere other otherValid ((stays other).mp otherOpened) otherCurrent same
          exact
            { size := entered.settles.size.trans slots.size
              box := (congrArg Collect.box (otherSlots _ alone)).trans standing.box
              joined := fun some => (congrArg Collect.joined (otherSlots _ alone)).trans (standing.joined some)
              src := fun rank member => (congrArg Cookie.src (untouched _) :).trans (standing.src rank member) }
      entry := by
        intro other otherValid otherOpened otherCurrent
        by_cases same : other = root
        · subst same
          rw [slot, claimed]
        · rw [otherSlots _ (elsewhere other otherValid ((stays other).mp otherOpened) otherCurrent same)]
          exact slots.entry other otherValid ((stays other).mp otherOpened) otherCurrent
      published := by
        intro other otherValid otherOpened otherCurrent
        by_cases same : other = root
        · subst same
          rw [slot, claimed]
          exact slots.published other otherValid opened otherCurrent
        · rw [otherSlots _ (elsewhere other otherValid ((stays other).mp otherOpened) otherCurrent same)]
          exact slots.published other otherValid ((stays other).mp otherOpened) otherCurrent
      idle := by
        intro turn unused
        have notHere : turn ≠ slotAt t root := fun same =>
          unused root rootValid ((stays root).mpr opened) current.ge same.symm
        rw [otherSlots turn notHere]
        exact slots.idle turn fun other otherValid otherOpened =>
          unused other otherValid ((stays other).mpr otherOpened)
      free := by
        intro rank rankValid later
        by_cases own : rank = self
        · subst own
          rw [Function.update_self] at later
          exact (entered.free_kept makes).trans (slots.free rank valid (by omega))
        · rw [Function.update_of_ne own] at later
          exact (entered.free own).trans (slots.free rank rankValid later)
      next := slots.next.trans entered.next
      names := fun other otherValid otherOpened =>
        (slots.names other otherValid ((stays other).mp otherOpened)).imp_right fun new =>
          ⟨new.1, new.2.trans_le entered.next⟩
      distinct := fun one oneValid oneOpened other otherValid otherOpened =>
        slots.distinct one oneValid ((stays one).mp oneOpened) other otherValid ((stays other).mp otherOpened)
      made := fun other otherValid otherOpened => (congrArg Cookie.stable (untouched _) :).trans
        (slots.made other otherValid ((stays other).mp otherOpened))
      counts := fun other otherValid otherOpened => (congrArg Cookie.count (untouched _) :).trans
        (slots.counts other otherValid ((stays other).mp otherOpened))
      errors := fun other otherValid otherOpened => (congrArg Cookie.err (untouched _) :).trans
        (slots.errors other otherValid ((stays other).mp otherOpened))
      busy := fun other otherValid otherOpened => (congrArg Cookie.busy (untouched _) :).trans
        (slots.busy other otherValid ((stays other).mp otherOpened)) }

end RoundSlots

end Joining

section Opening

variable {vm : ProcessVm} {args : Nat → AllgathervArgs} {send : Nat → Option Buffer}
  {recv : Nat → BlockVector} {n t : Nat} {ready origin w : World} {joined delivered cookie : Nat → Nat}

namespace RoundSlots

variable {root : Nat}

/-- The name a root would give its cookie is not that of another root. -/
theorem newName_ne {s : Sys} (slots : RoundSlots send recv n t s.world root joined delivered cookie w)
    (ready : s.Ready n t) (valid : root < n) (before : joined root = root) {other : Nat}
    (otherValid : other < n) (opened : other < joined other) : cookie other ≠ w.newName root := by
  have different : other ≠ root := by
    rintro rfl
    omega
  have free := slots.free root valid before.le
  have grown := slots.next
  have named := slots.names other otherValid opened
  unfold World.newName
  rw [free]
  cases list : (s.world.procs root).free with
  | nil =>
      rcases named with old | new
      · have small := ready.free other _ old
        simp only
        omega
      · simp only
        omega
  | cons id rest =>
      have listed : id ∈ (s.world.procs root).free := list ▸ List.mem_cons_self
      simp only
      rintro rfl
      rcases named with old | new
      · exact ready.apart other root different old listed
      · have small := ready.free root _ listed
        omega

variable (vm) in
/-- The root joins its round, before anybody else. -/
theorem rootJoins {s : Sys} (slots : RoundSlots send recv n t s.world root joined delivered cookie w)
    (ready : s.Ready n t) (arguments : AllgathervArguments args send recv n) (copies : CopiesAll vm)
    (several : 2 ≤ n) (limit : n ≤ 10000) (valid : root < n) (before : joined root = root)
    (deliveredRoot : delivered root = root) (deliveredBefore : ∀ rank < n, delivered rank ≤ joined rank)
    (nobody : ∀ rank < n, joined rank ≤ root) :
    ((gathervCalls (roundSend send recv root) recv root root).enter vm w root).Yields fun result =>
      ∃ id, result.2.cont = [] ∧ result.2.request = some id ∧ result.2.ret = mpiSuccess ∧
        result.1.mem = copyAll w.mem ((roundPlan send recv n t root).copy root).source
          ((roundPlan send recv n t root).copy root).target ∧
        RoundSlots send recv n t s.world root (Function.update joined root (root + 1))
          (Function.update delivered root (root + 1)) (Function.update cookie root id) result.1 := by
  have gathers := arguments.round valid
  have here := slots.turnOf valid before
  have elsewhere : ∀ other < n, other < joined other → root ≤ other + 1 → slotAt t other ≠ slotAt t root := by
    intro other otherValid otherOpened otherCurrent
    have behind := nobody other otherValid
    obtain rfl : root = other + 1 := by omega
    exact slotAt_succ_ne t other
  have empty : (w.slots (w.turnOf root)).box = [] := by
    rw [here]
    exact slots.idle _ elsewhere
  have none : joiners n joined root = [] := by
    refine List.filter_eq_nil_iff.mpr fun rank member => ?_
    have behind := nobody rank (List.mem_range.mp member)
    simpa using behind
  have arriving : Arriving (.rooted root) n [] w root cookie :=
    { standing :=
        { size := slots.size
          box := by
            rw [empty]
            simp [Schedule.box]
          joined := fun impossible => absurd rfl impossible
          src := by simp [Schedule.box] }
      joining := none ▸ joining_joiners valid before.le
      several := Or.inl several
      fresh := by simp [Schedule.box]
      small := by omega }
  refine (gathervPlan_root (gathers.sendValid root valid) gathers.recvGiven (gathers.agree root valid) arriving
    here).mono ?_
  rintro ⟨w', frame⟩ ⟨_, made', entered⟩
  have makes : (Schedule.rooted root).num n [] root = some ((n - 1 : Nat) : Int) := by
    simp only [Schedule.num, if_true, List.length_nil]
    rw [if_neg (by omega)]
    push_cast [show 1 ≤ n by omega]
    rfl
  obtain ⟨named, cookieMade⟩ := entered.newCookie makes
  simp only at cookieMade
  have fresh : ∀ other < n, other < joined other → cookie other ≠ made' root := by
    intro other otherValid opened
    rw [named]
    exact slots.newName_ne ready valid before otherValid opened
  have untouched : ∀ id ≠ made' root, w'.cookies id = { w.cookies id with used := (w'.cookies id).used } :=
    fun id other => entered.untouched (fun _ => other) (by simp [Schedule.now])
  have otherSlots : ∀ turn ≠ slotAt t root, w'.slots turn = w.slots turn := by
    intro turn other
    refine enter_slots entered (fun turn' other' => ?_) (here ▸ other)
    rw [here] at other'
    unfold gathervOwn
    split <;> simp [other', World.copy]
  have slot := entered.settles.slot
  have claimed := claimed_slots_self w root
  rw [here] at slot claimed empty
  rw [if_pos empty, if_pos empty] at claimed
  have ticket := slots.ticket root valid
  rw [before] at ticket
  have isOpen : ∀ other, other < Function.update joined root (root + 1) other → other ≠ root →
      other < joined other := by
    intro other opened different
    rwa [Function.update_of_ne different] at opened
  have past : (joiners n (Function.update joined root (root + 1)) root).Perm [root] :=
    (none ▸ joiners_joins valid before :
      [root].Perm (joiners n (Function.update joined root (root + 1)) root)).symm
  refine ⟨made' root, entered.settles.cont, ?_, entered.settles.ret, ?_, ?_⟩
  · have request := entered.settles.request
    simpa [Schedule.settlement, Schedule.request, show ¬ 1 = n by omega] using request
  · rw [entered.settles.mem]
    exact gathervOwn_mem copies gathers (w.claimed root) (slotAt t root)
  exact
    { size := entered.settles.size.trans (entered.midway.size.trans slots.size)
      ticket := fun rank rankValid => by
        rw [entered.settles.ticket, entered.midway.ticket]
        exact slots.ticket_joins valid before rankValid
      unlocked := by
        intro turn
        by_cases same : turn = slotAt t root
        · rw [same, slot]
        · rw [otherSlots turn same]
          exact slots.unlocked turn
      standing := by
        intro other otherValid otherOpened otherCurrent
        by_cases same : other = root
        · subst same
          have settled : Standing (.rooted other) n [other] w' (slotAt t other) made' := by
            refine (standing_of_root (List.mem_singleton_self other)).mpr
              ⟨entered.settles.size.trans (entered.midway.size.trans slots.size), ?_, ?_, fun _ => ?_⟩
            · rw [slot]
              simp only [Schedule.settlement, Schedule.box, List.length_singleton, List.mem_singleton, if_true]
              split <;> simp
            · rw [slot]
              simp [entered.midway.joined, claimed]
            · rw [cookieMade]
              exact Offer.cookie_src _ (by omega) _
          exact settled.perm (List.mem_singleton_self other) past.symm (Function.update_self ..)
        · have opened := isOpen other otherOpened same
          have standing := slots.standing other otherValid opened otherCurrent
          have alone := elsewhere other otherValid opened otherCurrent
          rw [joiners_other before same]
          exact
            { size := entered.settles.size.trans (entered.midway.size.trans slots.size)
              box := by
                rw [otherSlots _ alone, Function.update_of_ne same, standing.box]
              joined := fun some => (congrArg Collect.joined (otherSlots _ alone)).trans (standing.joined some)
              src := fun rank member => by
                rw [Function.update_of_ne same]
                exact (congrArg Cookie.src (untouched _ (fresh other otherValid opened)) :).trans
                  (standing.src rank member) }
      entry := by
        intro other otherValid otherOpened otherCurrent
        by_cases same : other = root
        · subst same
          rw [slot]
          have kept := (congrArg Collect.ticket (entered.midway.slots (slotAt t other)) :)
          simp only [Collect.control] at kept
          rw [kept, claimed]
          exact ticket
        · have opened := isOpen other otherOpened same
          rw [otherSlots _ (elsewhere other otherValid opened otherCurrent)]
          exact slots.entry other otherValid opened otherCurrent
      published := by
        intro other otherValid otherOpened otherCurrent
        by_cases same : other = root
        · subst same
          rw [slot]
          simp [roundPlan, gathervPlan, gathervOwn]
        · have opened := isOpen other otherOpened same
          rw [otherSlots _ (elsewhere other otherValid opened otherCurrent)]
          exact slots.published other otherValid opened otherCurrent
      idle := by
        intro turn unused
        have notHere : turn ≠ slotAt t root := fun same =>
          unused root valid (by simp) (Nat.le_succ root) same.symm
        rw [otherSlots turn notHere]
        refine slots.idle turn fun other otherValid opened => ?_
        have different : other ≠ root := by
          rintro rfl
          omega
        exact unused other otherValid (by rwa [Function.update_of_ne different])
      free := by
        intro rank rankValid later
        have different : rank ≠ root := by
          rintro rfl
          rw [Function.update_self] at later
          omega
        rw [Function.update_of_ne different] at later
        exact (entered.free different).trans (slots.free rank rankValid later)
      next := slots.next.trans entered.next
      names := by
        intro other otherValid otherOpened
        by_cases same : other = root
        · subst same
          rw [Function.update_self]
          have grown := slots.next
          rcases entered.newName (by rw [makes]; rfl) with old | new
          · exact Or.inl (slots.free other valid before.le ▸ old)
          · exact Or.inr ⟨by omega, new.2⟩
        · rw [Function.update_of_ne same]
          exact (slots.names other otherValid (isOpen other otherOpened same)).imp_right fun new =>
            ⟨new.1, new.2.trans_le entered.next⟩
      distinct := by
        intro one oneValid oneOpened other otherValid otherOpened equal
        by_cases first : one = root <;> by_cases second : other = root
        · exact first.trans second.symm
        · subst first
          rw [Function.update_self, Function.update_of_ne second] at equal
          exact absurd equal.symm (fresh other otherValid (isOpen other otherOpened second))
        · subst second
          rw [Function.update_self, Function.update_of_ne first] at equal
          exact absurd equal (fresh one oneValid (isOpen one oneOpened first))
        · rw [Function.update_of_ne first, Function.update_of_ne second] at equal
          exact slots.distinct one oneValid (isOpen one oneOpened first) other otherValid
            (isOpen other otherOpened second) equal
      made := by
        intro other otherValid otherOpened
        by_cases same : other = root
        · subst same
          rw [Function.update_self, cookieMade]
          rfl
        · have opened := isOpen other otherOpened same
          rw [Function.update_of_ne same]
          exact (congrArg Cookie.stable (untouched _ (fresh other otherValid opened)) :).trans
            (slots.made other otherValid opened)
      counts := by
        intro other otherValid otherOpened
        by_cases same : other = root
        · subst same
          rw [Function.update_self, cookieMade]
          rfl
        · have opened := isOpen other otherOpened same
          rw [Function.update_of_ne same]
          exact (congrArg Cookie.count (untouched _ (fresh other otherValid opened)) :).trans
            (slots.counts other otherValid opened)
      errors := by
        intro other otherValid otherOpened
        by_cases same : other = root
        · subst same
          rw [Function.update_self, cookieMade]
          rfl
        · have opened := isOpen other otherOpened same
          rw [Function.update_of_ne same]
          exact (congrArg Cookie.err (untouched _ (fresh other otherValid opened)) :).trans
            (slots.errors other otherValid opened)
      busy := by
        intro other otherValid otherOpened
        by_cases same : other = root
        · subst same
          have range : int16 ((n - 1 : Nat) : Int) = (n - 1 : Nat) := int16_of_range (by omega) (by omega)
          rw [Function.update_self, cookieMade, awaited_own, awaited_all valid fun rank rankValid =>
            (deliveredBefore rank rankValid).trans (nobody rank rankValid), Offer.cookie, Cookie.make_busy, range]
        · have opened := isOpen other otherOpened same
          rw [Function.update_of_ne same, awaited_other deliveredRoot same]
          exact (congrArg Cookie.busy (untouched _ (fresh other otherValid opened)) :).trans
            (slots.busy other otherValid opened) }

end RoundSlots

end Opening

/-! ### Calls that return -/

/-- A slot that is neither locked nor in use by another operation can be entered. -/
theorem getCurrentSlot_of_free {w : World} {self : Nat} (unlocked : (w.slots (w.turnOf self)).mutex = none)
    (mine : (w.slots (w.turnOf self)).box ≠ [] → (w.slots (w.turnOf self)).ticket = w.ticket self) :
    w.getCurrentSlot self = .ok (w.turnOf self, w.claimed self) := by
  have free : ¬ ((w.slots (w.turnOf self)).box ≠ [] ∧ (w.slots (w.turnOf self)).ticket ≠ w.ticket self) :=
    fun both => both.2 (mine both.1)
  cases entered : w.getCurrentSlot self with
  | ok entry =>
      obtain ⟨turn, w'⟩ := entry
      obtain ⟨first, second, _⟩ := getCurrentSlot_eq_ok entered
      rw [World.turnOf, ← first, ← second]
  | blocked =>
      unfold World.getCurrentSlot at entered
      simp only [World.turnOf] at unlocked free
      simp only [unlocked, ne_eq, not_true_eq_false, if_false, if_neg free] at entered
      cases entered
  | exited =>
      unfold World.getCurrentSlot at entered
      simp only [World.turnOf] at unlocked free
      simp only [unlocked, ne_eq, not_true_eq_false, if_false, if_neg free] at entered
      cases entered
  | undefined fault =>
      unfold World.getCurrentSlot at entered
      simp only [World.turnOf] at unlocked free
      simp only [unlocked, ne_eq, not_true_eq_false, if_false, if_neg free] at entered
      cases entered

section Returning

variable {vm : ProcessVm} {args : Nat → AllgathervArgs} {send : Nat → Option Buffer}
  {recv : Nat → BlockVector} {n t era : Nat} {origin w : World} {joined delivered cookie : Nat → Nat}

/-- A call of a round returns when only slots of neighbouring rounds are in use. -/
theorem RoundSlots.returns (slots : RoundSlots send recv n t origin era joined delivered cookie w)
    (arguments : AllgathervArguments args send recv n) {self root : Nat} (valid : self < n) (rootValid : root < n)
    (before : joined self = root)
    (near : ∀ other < n, other < joined other → era ≤ other + 1 → other ≠ root →
      slotAt t other ≠ slotAt t root) {post : World × Frame → Prop}
    (yields : ((gathervCalls (roundSend send recv root) recv root self).enter vm w self).Yields post) :
    ∃ result, (gathervCalls (roundSend send recv root) recv root self).enter vm w self = .ok result ∧
      post result := by
  have here := slots.turnOf valid before
  have entry : w.getCurrentSlot self = .ok (w.turnOf self, w.claimed self) := by
    refine getCurrentSlot_of_free (slots.unlocked _) fun busy => ?_
    rw [here] at busy ⊢
    rw [slots.ticket self valid, before]
    by_contra other
    refine busy (slots.idle _ fun root' rootValid' opened current same => ?_)
    by_cases own : root' = root
    · subst own
      exact other (slots.entry root' rootValid' opened current)
    · exact near root' rootValid' opened current own same
  rcases gathervCalls_accepted (arguments.round rootValid) (arguments.elements root rootValid) w self _ slots.size
    valid entry with ⟨result, returned⟩ | fault
  · exact ⟨result, returned, yields.of_ok returned⟩
  · exact absurd fault yields.ne_emptyList

end Returning

end Umpi
