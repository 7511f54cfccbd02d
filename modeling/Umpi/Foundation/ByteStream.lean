/-
Module: Umpi.Foundation.ByteStream
Layer: Foundation
Purpose: Memory as a function from locations to bytes, accessed through lists of locations. A list of
  locations is a stream view of a possibly scattered buffer: `readAll` reads it in stream order,
  `writeAll` writes it in stream order, and `copyAll` moves one view onto another. The lemmas say what
  a later read sees after a write: the bytes just written on the same view, the old bytes on a
  disjoint view. A view `Holds` a stream if writing the stream to it would change nothing, which also
  makes sense when the view lists a location twice. `Independent` families of copies can be performed in
  any order.
Imports: Mathlib list and function-update lemmas
Trusted boundary: none
Main exports: readAll, writeAll, copyAll, readAll_writeAll_self, readAll_writeAll_of_disjoint, Holds,
  copyEach, Independent, Independent.holds_target
Open obligations: none
-/
import Mathlib.Data.List.Basic
import Mathlib.Data.List.Nodup
import Mathlib.Data.List.Perm.Basic
import Mathlib.Logic.Function.Basic

namespace Umpi.Foundation

variable {α β : Type} [DecidableEq α]

/-- Read a stream view: the values at the listed locations, in order. -/
def readAll (m : α → β) (view : List α) : List β :=
  view.map m

/-- Write values to a stream view in order. A location listed twice keeps the last value, and the
    shorter of the two lists decides how many writes happen. -/
def writeAll (m : α → β) : List α → List β → α → β
  | location :: view, value :: values => writeAll (Function.update m location value) view values
  | _, _ => m

/-- Move the values seen through one view onto another view. -/
def copyAll (m : α → β) (source target : List α) : α → β :=
  writeAll m target (readAll m source)

omit [DecidableEq α] in
@[simp] theorem readAll_nil (m : α → β) : readAll m [] = [] := rfl

omit [DecidableEq α] in
@[simp] theorem readAll_cons (m : α → β) (location : α) (view : List α) :
    readAll m (location :: view) = m location :: readAll m view := rfl

omit [DecidableEq α] in
@[simp] theorem length_readAll (m : α → β) (view : List α) :
    (readAll m view).length = view.length :=
  List.length_map m

omit [DecidableEq α] in
theorem readAll_append (m : α → β) (first second : List α) :
    readAll m (first ++ second) = readAll m first ++ readAll m second :=
  List.map_append

omit [DecidableEq α] in
theorem readAll_take (m : α → β) (view : List α) (n : Nat) :
    readAll m (view.take n) = (readAll m view).take n :=
  List.map_take

omit [DecidableEq α] in
theorem readAll_congr {m m' : α → β} {view : List α}
    (same : ∀ location ∈ view, m location = m' location) :
    readAll m view = readAll m' view :=
  List.map_congr_left same

@[simp] theorem writeAll_nil_view (m : α → β) (values : List β) :
    writeAll m [] values = m := rfl

@[simp] theorem writeAll_nil_values (m : α → β) (view : List α) :
    writeAll m view [] = m := by
  cases view <;> rfl

@[simp] theorem writeAll_cons (m : α → β) (location : α) (view : List α) (value : β)
    (values : List β) :
    writeAll m (location :: view) (value :: values) =
      writeAll (Function.update m location value) view values := rfl

/-- A location outside the view keeps its value. -/
theorem writeAll_apply_of_notMem (m : α → β) (view : List α) (values : List β) {location : α}
    (outside : location ∉ view) : writeAll m view values location = m location := by
  induction view generalizing m values with
  | nil => rfl
  | cons head view ih =>
      cases values with
      | nil => simp
      | cons value values =>
          simp only [List.mem_cons, not_or] at outside
          rw [writeAll_cons, ih _ _ outside.2, Function.update_of_ne outside.1]

/-- Reading a disjoint view sees the memory from before the write. -/
theorem readAll_writeAll_of_disjoint (m : α → β) {view target : List α} (values : List β)
    (disjoint : view.Disjoint target) :
    readAll (writeAll m target values) view = readAll m view :=
  readAll_congr fun _ member => writeAll_apply_of_notMem m target values (disjoint member)

/-- Reading the view just written returns what was written, provided no location is listed twice. -/
theorem readAll_writeAll_self (m : α → β) {view : List α} {values : List β}
    (nodup : view.Nodup) (sameLength : view.length = values.length) :
    readAll (writeAll m view values) view = values := by
  induction view generalizing m values with
  | nil =>
      cases values with
      | nil => rfl
      | cons value values => simp at sameLength
  | cons head view ih =>
      cases values with
      | nil => simp at sameLength
      | cons value values =>
          obtain ⟨fresh, nodupTail⟩ := List.nodup_cons.mp nodup
          have tail := ih (Function.update m head value) nodupTail (by simpa using sameLength)
          rw [writeAll_cons, readAll_cons, tail, writeAll_apply_of_notMem _ _ _ fresh,
            Function.update_self]

/-- Writing a view in two parts. -/
theorem writeAll_append (m : α → β) (first second : List α) (values values' : List β)
    (sameLength : first.length = values.length) :
    writeAll m (first ++ second) (values ++ values') =
      writeAll (writeAll m first values) second values' := by
  induction first generalizing m values with
  | nil =>
      cases values with
      | nil => rfl
      | cons value values => simp at sameLength
  | cons head first ih =>
      cases values with
      | nil => simp at sameLength
      | cons value values =>
          simp only [List.cons_append, writeAll_cons]
          exact ih _ _ (by simpa using sameLength)

/-- Locations for which there is no value do not matter. -/
theorem writeAll_take_view (m : α → β) (view : List α) {values : List β} {n : Nat}
    (enough : values.length ≤ n) : writeAll m (view.take n) values = writeAll m view values := by
  induction view generalizing m values n with
  | nil => simp
  | cons head view ih =>
      cases values with
      | nil => simp
      | cons value values =>
          cases n with
          | zero => simp at enough
          | succ n =>
              rw [List.take_succ_cons, writeAll_cons, writeAll_cons]
              exact ih _ (Nat.le_of_succ_le_succ enough)

/-- Values for which there is no location do not matter. -/
theorem writeAll_take_values (m : α → β) {view : List α} (values : List β) {n : Nat}
    (enough : view.length ≤ n) : writeAll m view (values.take n) = writeAll m view values := by
  induction view generalizing m values n with
  | nil => rfl
  | cons head view ih =>
      cases values with
      | nil => simp
      | cons value values =>
          cases n with
          | zero => simp at enough
          | succ n =>
              rw [List.take_succ_cons, writeAll_cons, writeAll_cons]
              exact ih _ _ (Nat.le_of_succ_le_succ enough)

omit [DecidableEq α] in
@[simp] theorem copyAll_nil [DecidableEq α] (m : α → β) (target : List α) :
    copyAll m [] target = m := by
  simp [copyAll]

/-- A location outside the target keeps its value. -/
theorem copyAll_apply_of_notMem (m : α → β) (source : List α) {target : List α} {location : α}
    (outside : location ∉ target) : copyAll m source target location = m location :=
  writeAll_apply_of_notMem m target _ outside

/-- A disjoint view is not affected by a copy. -/
theorem readAll_copyAll_of_disjoint (m : α → β) {view target : List α} (source : List α)
    (disjoint : view.Disjoint target) :
    readAll (copyAll m source target) view = readAll m view :=
  readAll_writeAll_of_disjoint m _ disjoint

/-- After a copy the target shows the bytes the source had. -/
theorem readAll_copyAll_self (m : α → β) {source target : List α}
    (nodup : target.Nodup) (sameLength : target.length = source.length) :
    readAll (copyAll m source target) target = readAll m source :=
  readAll_writeAll_self m nodup (by simpa using sameLength)

/-- A copy goes no further than the shorter of the two views. -/
theorem copyAll_take_min (m : α → β) (source target : List α) (n : Nat) {bound : Nat}
    (short : source.length ≤ bound ∨ target.length ≤ bound) :
    copyAll m (source.take n) (target.take n) =
      copyAll m (source.take (min n bound)) (target.take (min n bound)) := by
  rcases Nat.le_total n bound with below | above
  · rw [Nat.min_eq_left below]
  · rw [Nat.min_eq_right above]
    rcases short with short | short
    · have whole : source.take n = source.take bound := by
        rw [List.take_of_length_le short, List.take_of_length_le (Nat.le_trans short above)]
      have few : (readAll m (source.take bound)).length ≤ bound := by
        rw [length_readAll]
        exact List.length_take_le bound source
      rw [whole, copyAll, copyAll, writeAll_take_view m target few,
        writeAll_take_view m target (Nat.le_trans few above)]
    · have whole : target.take n = target.take bound := by
        rw [List.take_of_length_le short, List.take_of_length_le (Nat.le_trans short above)]
      have few : (target.take bound).length ≤ bound := List.length_take_le bound target
      rw [whole, copyAll, copyAll, readAll_take, readAll_take, writeAll_take_values m _ few,
        writeAll_take_values m _ (Nat.le_trans few above)]

/-- A stream whose bytes are given place by place is found place by place, even where a place is listed
    twice. -/
theorem writeAll_map_apply {ι : Type} (m : α → β) {place : ι → α} (injective : Function.Injective place)
    (value : ι → β) {view : List ι} {i : ι} (member : i ∈ view) :
    writeAll m (view.map place) (view.map value) (place i) = value i := by
  induction view generalizing m with
  | nil => cases member
  | cons j view ih =>
      rw [List.map_cons, List.map_cons, writeAll_cons]
      by_cases later : i ∈ view
      · exact ih _ later
      · obtain rfl := (List.mem_cons.mp member).resolve_right later
        have absent : place i ∉ view.map place := fun listed => by
          obtain ⟨j, inView, same⟩ := List.mem_map.mp listed
          exact later (injective same ▸ inView)
        rw [writeAll_apply_of_notMem _ _ _ absent, Function.update_self]

/-- A copy between two buffers of the same layout moves every byte to its place. -/
theorem copyAll_map_apply {ι : Type} (m : α → β) (source : ι → α) {place : ι → α}
    (injective : Function.Injective place) {view : List ι} {i : ι} (member : i ∈ view) :
    copyAll m (view.map source) (view.map place) (place i) = m (source i) := by
  rw [copyAll, readAll, List.map_map]
  exact writeAll_map_apply m injective (m ∘ source) member

/-! ### Views that hold a stream -/

/-- The view holds the stream: writing it again changes nothing. -/
def Holds (m : α → β) (view : List α) (values : List β) : Prop := writeAll m view values = m

/-- What a write leaves in a view depends on the view's old contents only. -/
theorem writeAll_congr {m m' : α → β} {view : List α} (values : List β)
    (same : ∀ location ∈ view, m location = m' location) :
    ∀ location ∈ view, writeAll m view values location = writeAll m' view values location := by
  induction view generalizing m m' values with
  | nil => exact fun _ member => nomatch member
  | cons head view ih =>
      cases values with
      | nil => simpa using same
      | cons value values =>
          intro location member
          simp only [writeAll_cons]
          have agree : ∀ other ∈ head :: view,
              Function.update m head value other = Function.update m' head value other := by
            intro other listed
            by_cases first : other = head
            · subst first
              simp
            · simpa [first] using same other listed
          by_cases later : location ∈ view
          · exact ih values (fun other listed => agree other (List.mem_cons_of_mem head listed)) location
              later
          · rw [writeAll_apply_of_notMem _ _ _ later, writeAll_apply_of_notMem _ _ _ later]
            exact agree location member

/-- A write of as many values as the view has locations leaves nothing of the old contents. -/
theorem writeAll_overwrites (m m' : α → β) {view : List α} {values : List β}
    (sameLength : view.length = values.length) :
    ∀ location ∈ view, writeAll m view values location = writeAll m' view values location := by
  induction view generalizing m m' values with
  | nil => exact fun _ member => nomatch member
  | cons head view ih =>
      cases values with
      | nil => simp at sameLength
      | cons value values =>
          intro location member
          simp only [writeAll_cons]
          by_cases later : location ∈ view
          · exact ih _ _ (by simpa using sameLength) location later
          · obtain rfl := (List.mem_cons.mp member).resolve_right later
            rw [writeAll_apply_of_notMem _ _ _ later, writeAll_apply_of_notMem _ _ _ later]
            simp

theorem writeAll_readAll (m : α → β) (view : List α) : writeAll m view (readAll m view) = m := by
  induction view with
  | nil => rfl
  | cons head view ih => rwa [readAll_cons, writeAll_cons, Function.update_eq_self]

namespace Holds

variable {m m' : α → β} {view : List α} {values : List β}

theorem of_readAll (read : readAll m view = values) : Holds m view values := by
  rw [← read]
  exact writeAll_readAll m view

/-- A view without repetitions that holds a stream shows it. -/
theorem readAll_eq (holds : Holds m view values) (nodup : view.Nodup)
    (sameLength : view.length = values.length) : readAll m view = values := by
  rw [← holds]
  exact readAll_writeAll_self m nodup sameLength

theorem writeAll (m : α → β) (sameLength : view.length = values.length) :
    Holds (Foundation.writeAll m view values) view values := by
  funext location
  by_cases member : location ∈ view
  · exact writeAll_overwrites _ _ sameLength location member
  · exact writeAll_apply_of_notMem _ _ _ member

theorem copyAll (m : α → β) {source target : List α} (sameLength : target.length = source.length) :
    Holds (Foundation.copyAll m source target) target (readAll m source) :=
  writeAll m (by simpa using sameLength)

/-- Whether a view holds a stream depends on its own locations only. -/
theorem congr (holds : Holds m view values) (same : ∀ location ∈ view, m location = m' location) :
    Holds m' view values := by
  funext location
  by_cases member : location ∈ view
  · rw [← writeAll_congr values same location member, ← same location member]
    exact congrFun holds location
  · exact writeAll_apply_of_notMem _ _ _ member

end Holds

/-! ### Families of copies

A family of copies indexed by `ι` whose targets are pairwise disjoint and which never write what
another member reads can be performed in any order: each target ends up with the bytes its source
had before the first copy. -/

/-- One copy of a family: where its bytes come from and where they go. -/
structure Copy (α : Type) where
  source : List α
  target : List α

/-- Perform the copies of the listed members one after the other. -/
def copyEach {ι : Type} (m : α → β) (copy : ι → Copy α) (members : List ι) : α → β :=
  members.foldl (fun m i => copyAll m (copy i).source (copy i).target) m

/-- No member writes what another member reads or writes, and every target has the length of its
    source. -/
structure Independent {ι : Type} (copy : ι → Copy α) (members : List ι) : Prop where
  sameLength : ∀ i ∈ members, (copy i).target.length = (copy i).source.length
  targets : ∀ i ∈ members, ∀ j ∈ members, i ≠ j → (copy i).target.Disjoint (copy j).target
  sources : ∀ i ∈ members, ∀ j ∈ members, i ≠ j → (copy i).source.Disjoint (copy j).target

section CopyEach

variable {ι : Type} {copy : ι → Copy α}

@[simp] theorem copyEach_nil (m : α → β) : copyEach m copy [] = m := rfl

theorem copyEach_append_singleton (m : α → β) (members : List ι) (i : ι) :
    copyEach m copy (members ++ [i]) =
      copyAll (copyEach m copy members) (copy i).source (copy i).target := by
  simp [copyEach]

/-- A location that no listed copy targets keeps its value. -/
theorem copyEach_apply_of_notMem (m : α → β) (members : List ι) {location : α}
    (outside : ∀ i ∈ members, location ∉ (copy i).target) :
    copyEach m copy members location = m location := by
  induction members generalizing m with
  | nil => rfl
  | cons i members ih =>
      have rest : copyEach (copyAll m (copy i).source (copy i).target) copy members location =
          copyAll m (copy i).source (copy i).target location :=
        ih _ fun j member => outside j (List.mem_cons_of_mem i member)
      rw [copyEach, List.foldl_cons, ← copyEach, rest]
      exact copyAll_apply_of_notMem m _ (outside i List.mem_cons_self)

theorem readAll_copyEach_of_disjoint (m : α → β) (members : List ι) {view : List α}
    (disjoint : ∀ i ∈ members, view.Disjoint (copy i).target) :
    readAll (copyEach m copy members) view = readAll m view :=
  readAll_congr fun _ member =>
    copyEach_apply_of_notMem m members fun i listed => disjoint i listed member

/-- Whatever the order, every target of an independent family ends up with the bytes its source had
    at the start. -/
theorem Independent.holds_target {members all : List ι} (independent : Independent copy all)
    (inside : members ⊆ all) (once : members.Nodup) (m : α → β) {i : ι} (member : i ∈ members) :
    Holds (copyEach m copy members) (copy i).target (readAll m (copy i).source) := by
  obtain ⟨before, after, rfl⟩ := List.append_of_mem member
  have listed : i ∈ all := inside member
  obtain ⟨_, onceRest, apart⟩ := List.nodup_append'.mp once
  have later : ∀ j ∈ after, (copy i).target.Disjoint (copy j).target := by
    intro j isAfter
    refine independent.targets i listed j (inside (by simp [isAfter])) ?_
    rintro rfl
    exact (List.nodup_cons.mp onceRest).1 isAfter
  have split : copyEach m copy (before ++ i :: after) =
      copyEach (copyAll (copyEach m copy before) (copy i).source (copy i).target) copy after := by
    simp [copyEach]
  have source : readAll (copyEach m copy before) (copy i).source = readAll m (copy i).source := by
    refine readAll_copyEach_of_disjoint m before fun j isBefore => ?_
    refine independent.sources i listed j (inside (by simp [isBefore])) ?_
    rintro rfl
    exact apart isBefore List.mem_cons_self
  rw [split, ← source]
  refine (Holds.copyAll _ (independent.sameLength i listed)).congr fun location held => ?_
  exact (copyEach_apply_of_notMem _ after fun j isAfter => later j isAfter held).symm

end CopyEach

end Umpi.Foundation
