/-
Module: Umpi.Foundation.Matching
Layer: Foundation
Purpose: A first-come-first-served matcher with two queues. Items of one kind (sends) and of the other
  (receives) arrive one by one; an arriving item is paired with the oldest queued partner that accepts
  it, and is queued if there is none. `Sound` collects what then holds after any sequence of arrivals:
  no queued pair fits together, every item is queued or paired exactly once, and on neither side is an
  item passed over in favour of a later one. The two kinds are treated alike by `swap`.
Imports: Mathlib list permutations and sublists
Trusted boundary: none
Main exports: Matcher, Matcher.send, Matcher.recv, Matcher.Sound, Matcher.Sound.send,
  Matcher.Sound.recv
Open obligations: none
-/
import Mathlib.Data.List.Basic
import Mathlib.Data.List.Nodup
import Mathlib.Data.List.Perm.Basic

namespace Umpi.Foundation

/-- In a list without duplicates two items have one order. -/
theorem not_sublist_of_sublist_swap {α : Type} {l : List α} {a b : α} (nodup : l.Nodup)
    (forth : [a, b].Sublist l) : ¬ [b, a].Sublist l := by
  intro back
  induction l with
  | nil => simp at forth
  | cons c l ih =>
      obtain ⟨fresh, nodupTail⟩ := List.nodup_cons.mp nodup
      by_cases forthTail : [a, b].Sublist l
      · by_cases backTail : [b, a].Sublist l
        · exact ih nodupTail forthTail backTail
        · cases back with
          | cons _ tail => exact backTail tail
          | cons_cons _ _ => exact fresh (forthTail.subset (by simp))
      · cases forth with
        | cons _ tail => exact forthTail tail
        | cons_cons _ rest =>
            cases back with
            | cons _ tail => exact fresh (tail.subset (by simp))
            | cons_cons _ _ => exact fresh (rest.subset (by simp))

/-- A pair listed in order after one more item was appended is either old or ends in the new item. -/
theorem sublist_append_singleton {α : Type} {l : List α} {a b c : α}
    (ordered : [a, b].Sublist (l ++ [c])) : [a, b].Sublist l ∨ b = c ∧ a ∈ l := by
  obtain ⟨front, back, split, inFront, inBack⟩ := List.sublist_append_iff.mp ordered
  rcases List.sublist_singleton.mp inBack with rfl | rfl
  · left
    rw [List.append_nil] at split
    exact split ▸ inFront
  · right
    have lengths : front.length = 1 := by
      have := congrArg List.length split
      simp at this
      omega
    obtain ⟨d, rfl⟩ := List.length_eq_one_iff.mp lengths
    simp at split
    obtain ⟨rfl, rfl⟩ := split
    exact ⟨rfl, inFront.subset (by simp)⟩

/-- What has arrived on each side in order of arrival, what is still queued, and the pairs formed. -/
structure Matcher (σ ρ : Type) where
  sent : List σ
  posted : List ρ
  sends : List σ
  recvs : List ρ
  pairs : List (σ × ρ)

namespace Matcher

variable {σ ρ : Type}

/-- Nothing has arrived. -/
def empty : Matcher σ ρ := { sent := [], posted := [], sends := [], recvs := [], pairs := [] }

/-- The matcher with the roles of the two kinds exchanged. -/
def swap (m : Matcher σ ρ) : Matcher ρ σ :=
  { sent := m.posted
    posted := m.sent
    sends := m.recvs
    recvs := m.sends
    pairs := m.pairs.map Prod.swap }

@[simp] theorem swap_swap (m : Matcher σ ρ) : m.swap.swap = m := by
  simp [swap]

/-- A send arrives. -/
def send [DecidableEq ρ] (accepts : ρ → σ → Bool) (m : Matcher σ ρ) (x : σ) : Matcher σ ρ :=
  match m.recvs.find? fun r => accepts r x with
  | some r =>
      { m with sent := m.sent ++ [x], recvs := m.recvs.erase r, pairs := m.pairs ++ [(x, r)] }
  | none => { m with sent := m.sent ++ [x], sends := m.sends ++ [x] }

/-- A receive arrives. -/
def recv [DecidableEq σ] (accepts : ρ → σ → Bool) (m : Matcher σ ρ) (r : ρ) : Matcher σ ρ :=
  (m.swap.send (fun x r => accepts r x) r).swap

section Arrivals

variable {accepts : ρ → σ → Bool} {m : Matcher σ ρ} {x : σ} {r : ρ}

/-- A send that finds a receive is paired with it. -/
theorem send_of_found [DecidableEq ρ] (found : m.recvs.find? (fun r => accepts r x) = some r) :
    m.send accepts x =
      { m with sent := m.sent ++ [x], recvs := m.recvs.erase r, pairs := m.pairs ++ [(x, r)] } := by
  rw [send, found]

/-- A send that finds no receive is queued. -/
theorem send_of_notFound [DecidableEq ρ] (notFound : m.recvs.find? (fun r => accepts r x) = none) :
    m.send accepts x = { m with sent := m.sent ++ [x], sends := m.sends ++ [x] } := by
  rw [send, notFound]

/-- A receive that finds a send is paired with it. -/
theorem recv_of_found [DecidableEq σ] (found : m.sends.find? (fun x => accepts r x) = some x) :
    m.recv accepts r =
      { m with posted := m.posted ++ [r], sends := m.sends.erase x, pairs := m.pairs ++ [(x, r)] } := by
  have found' : m.swap.recvs.find? (fun x => accepts r x) = some x := found
  rw [recv, send_of_found found']
  simp [swap]

/-- A receive that finds no send is queued. -/
theorem recv_of_notFound [DecidableEq σ] (notFound : m.sends.find? (fun x => accepts r x) = none) :
    m.recv accepts r = { m with posted := m.posted ++ [r], recvs := m.recvs ++ [r] } := by
  have notFound' : m.swap.recvs.find? (fun x => accepts r x) = none := notFound
  rw [recv, send_of_notFound notFound']
  simp [swap]

end Arrivals

/-- What holds after any sequence of arrivals. -/
structure Sound (accepts : ρ → σ → Bool) (m : Matcher σ ρ) : Prop where
  nodupSent : m.sent.Nodup
  nodupPosted : m.posted.Nodup
  sendsOrder : m.sends.Sublist m.sent
  recvsOrder : m.recvs.Sublist m.posted
  /-- Every send is queued or paired, and only once. -/
  sendsOnce : m.sent.Perm (m.sends ++ m.pairs.map Prod.fst)
  /-- Every receive is queued or paired, and only once. -/
  recvsOnce : m.posted.Perm (m.recvs ++ m.pairs.map Prod.snd)
  accepted : ∀ pair ∈ m.pairs, accepts pair.2 pair.1 = true
  /-- No queued send fits a queued receive. -/
  apart : ∀ x ∈ m.sends, ∀ r ∈ m.recvs, accepts r x = false
  /-- A receive is paired with a later send only if the earlier one is paired too. -/
  sendsFair : ∀ x₁ x₂ r, [x₁, x₂].Sublist m.sent → (x₂, r) ∈ m.pairs → accepts r x₁ = true →
    x₁ ∈ m.pairs.map Prod.fst
  /-- A send is paired with a later receive only if the earlier one is paired too. -/
  recvsFair : ∀ r₁ r₂ x, [r₁, r₂].Sublist m.posted → (x, r₂) ∈ m.pairs → accepts r₁ x = true →
    r₁ ∈ m.pairs.map Prod.snd

namespace Sound

variable {accepts : ρ → σ → Bool} {m : Matcher σ ρ}

theorem empty : Sound accepts (Matcher.empty : Matcher σ ρ) := by
  constructor <;> simp [Matcher.empty]

/-- Soundness does not distinguish the two kinds. -/
theorem swap (sound : Sound accepts m) : Sound (fun x r => accepts r x) m.swap where
  nodupSent := sound.nodupPosted
  nodupPosted := sound.nodupSent
  sendsOrder := sound.recvsOrder
  recvsOrder := sound.sendsOrder
  sendsOnce := by simpa [Matcher.swap, Function.comp_def] using sound.recvsOnce
  recvsOnce := by simpa [Matcher.swap, Function.comp_def] using sound.sendsOnce
  accepted := by
    rintro ⟨r, x⟩ member
    simp only [Matcher.swap, List.mem_map, Prod.exists, Prod.swap_prod_mk, Prod.mk.injEq] at member
    obtain ⟨x, r, member, rfl, rfl⟩ := member
    exact sound.accepted _ member
  apart := fun r queued x queued' => sound.apart x queued' r queued
  sendsFair := by
    intro r₁ r₂ x ordered paired fits
    have paired : (x, r₂) ∈ m.pairs := by simpa [Matcher.swap] using paired
    simpa [Matcher.swap, Function.comp_def] using sound.recvsFair r₁ r₂ x ordered paired fits
  recvsFair := by
    intro x₁ x₂ r ordered paired fits
    have paired : (x₂, r) ∈ m.pairs := by simpa [Matcher.swap] using paired
    simpa [Matcher.swap, Function.comp_def] using sound.sendsFair x₁ x₂ r ordered paired fits

theorem mem_sent_of_paired (sound : Sound accepts m) {x : σ} {r : ρ} (paired : (x, r) ∈ m.pairs) :
    x ∈ m.sent :=
  sound.sendsOnce.mem_iff.mpr
    (List.mem_append_right _ (List.mem_map.mpr ⟨(x, r), paired, rfl⟩))

/-- A send that has arrived and is not queued has been paired. -/
theorem sends_or_paired (sound : Sound accepts m) {x : σ} (arrived : x ∈ m.sent) :
    x ∈ m.sends ∨ x ∈ m.pairs.map Prod.fst :=
  List.mem_append.mp (sound.sendsOnce.mem_iff.mp arrived)

theorem recvs_or_paired (sound : Sound accepts m) {r : ρ} (arrived : r ∈ m.posted) :
    r ∈ m.recvs ∨ r ∈ m.pairs.map Prod.snd :=
  List.mem_append.mp (sound.recvsOnce.mem_iff.mp arrived)

/-- The pair formed by an arriving send respects the order of the receives: an earlier receive that
    accepts the send has been paired before. -/
private theorem earlier_paired (sound : Sound accepts m) {x : σ} {r₁ r : ρ}
    (found : m.recvs.find? (fun r => accepts r x) = some r) (ordered : [r₁, r].Sublist m.posted)
    (fits : accepts r₁ x = true) : r₁ ∈ m.pairs.map Prod.snd := by
  have arrived : r₁ ∈ m.posted := ordered.subset List.mem_cons_self
  rcases sound.recvs_or_paired arrived with queued | paired
  · exfalso
    obtain ⟨_, before, after, split, earlier⟩ := List.find?_eq_some_iff_append.mp found
    rw [split] at queued
    rcases List.mem_append.mp queued with inBefore | inAfter
    · simpa [fits] using earlier r₁ inBefore
    · rcases List.mem_cons.mp inAfter with rfl | inAfter
      · exact absurd (sound.nodupPosted.sublist ordered) (by simp)
      · have back : [r, r₁].Sublist m.recvs := by
          rw [split]
          exact (List.Sublist.cons_cons r (List.singleton_sublist.mpr inAfter)).trans
            (List.sublist_append_right before _)
        exact not_sublist_of_sublist_swap sound.nodupPosted ordered (back.trans sound.recvsOrder)
  · exact paired

/-- An arriving send keeps the matcher sound. -/
theorem send [DecidableEq ρ] (sound : Sound accepts m) {x : σ} (fresh : x ∉ m.sent) :
    Sound accepts (m.send accepts x) := by
  have nodup : (m.sent ++ [x]).Nodup :=
    List.nodup_append.mpr ⟨sound.nodupSent, by simp, by
      rintro a arrived b only rfl
      exact fresh (by simpa [List.mem_singleton.mp only] using arrived)⟩
  -- an old pair contains neither the new send nor anything that would be later than it
  have old : ∀ {r : ρ}, (x, r) ∉ m.pairs := fun paired => fresh (sound.mem_sent_of_paired paired)
  unfold Matcher.send
  cases found : m.recvs.find? (fun r => accepts r x) with
  | none =>
      have unfit := List.find?_eq_none.mp found
      refine
        { nodupSent := nodup
          nodupPosted := sound.nodupPosted
          sendsOrder := sound.sendsOrder.append (List.Sublist.refl [x])
          recvsOrder := sound.recvsOrder
          sendsOnce := ?_
          recvsOnce := sound.recvsOnce
          accepted := sound.accepted
          apart := ?_
          sendsFair := ?_
          recvsFair := sound.recvsFair }
      · have perm : (m.sent ++ [x]).Perm (m.sends ++ m.pairs.map Prod.fst ++ [x]) :=
          sound.sendsOnce.append_right [x]
        rw [List.append_assoc] at perm
        rw [List.append_assoc]
        exact perm.trans (List.perm_append_comm.append_left m.sends)
      · intro y queued r posted
        rcases List.mem_append.mp queued with earlier | only
        · exact sound.apart y earlier r posted
        · obtain rfl := List.mem_singleton.mp only
          simpa using unfit r posted
      · intro x₁ x₂ r ordered paired fits
        rcases sublist_append_singleton ordered with earlier | ⟨rfl, -⟩
        · exact sound.sendsFair x₁ x₂ r earlier paired fits
        · exact absurd paired old
  | some r =>
      have fitting : accepts r x = true := by simpa using List.find?_some found
      have queued : r ∈ m.recvs := List.mem_of_find?_eq_some found
      refine
        { nodupSent := nodup
          nodupPosted := sound.nodupPosted
          sendsOrder := sound.sendsOrder.trans (List.sublist_append_left _ _)
          recvsOrder := List.erase_sublist.trans sound.recvsOrder
          sendsOnce := ?_
          recvsOnce := ?_
          accepted := ?_
          apart := fun y member r' posted => sound.apart y member r' (List.mem_of_mem_erase posted)
          sendsFair := ?_
          recvsFair := ?_ }
      · simpa [List.append_assoc] using sound.sendsOnce.append_right [x]
      · have perm := sound.recvsOnce.trans ((List.perm_cons_erase queued).append_right _)
        refine perm.trans ?_
        simpa using @List.perm_append_comm _ [r] (m.recvs.erase r ++ m.pairs.map Prod.snd)
      · rintro pair member
        rcases List.mem_append.mp member with earlier | only
        · exact sound.accepted pair earlier
        · obtain rfl := List.mem_singleton.mp only
          exact fitting
      · intro x₁ x₂ r' ordered paired fits
        rw [List.map_append]
        apply List.mem_append_left
        rcases sublist_append_singleton ordered with earlier | ⟨rfl, arrived⟩
        · refine sound.sendsFair x₁ x₂ r' earlier ?_ fits
          rcases List.mem_append.mp paired with before | only
          · exact before
          · have same : x₂ = x := congrArg Prod.fst (List.mem_singleton.mp only)
            exact absurd (same ▸ earlier.subset (by simp)) fresh
        · have new : r' = r := by
            rcases List.mem_append.mp paired with before | only
            · exact absurd before old
            · exact congrArg Prod.snd (List.mem_singleton.mp only)
          subst new
          rcases sound.sends_or_paired arrived with waiting | before
          · simp [sound.apart x₁ waiting r' queued] at fits
          · exact before
      · intro r₁ r₂ y ordered paired fits
        rw [List.map_append]
        rcases List.mem_append.mp paired with before | only
        · exact List.mem_append_left _ (sound.recvsFair r₁ r₂ y ordered before fits)
        · obtain ⟨rfl, rfl⟩ := Prod.mk.inj (List.mem_singleton.mp only)
          exact List.mem_append_left _ (sound.earlier_paired found ordered fits)

/-- An arriving receive keeps the matcher sound. -/
theorem recv [DecidableEq σ] (sound : Sound accepts m) {r : ρ} (fresh : r ∉ m.posted) :
    Sound accepts (m.recv accepts r) :=
  (sound.swap.send fresh).swap

end Sound

end Matcher

end Umpi.Foundation
