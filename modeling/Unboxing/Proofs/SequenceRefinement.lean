import Mathlib.Data.List.InsertIdx
import Unboxing.Proofs.SequenceOrder

/-
  Editable sequences behave as plain lists. However a sequence
  was edited from the empty one, going forward from its first
  element meets the live elements once each and stops at the
  last one, going back undoes going forward, and the recorded
  length counts the live elements. Every operation acts on the
  listed elements as the list operation at the same place, and
  no other handle changes its element or its rank.

  Main declarations:
    * `Sequence.Operation`
    * `Sequence.Edited`
    * `Sequence.Linked`
    * `Sequence.Operation.Refines`
    * `Sequence.Operation.whole_perform`
    * `Sequence.Edited.refines_list`
-/

namespace Unboxing

open List

namespace Sequence

variable {α : Type} {h : Handle} {seq : Sequence α} {other : Handle}

-- Operations and what they are on lists

/- The live elements in order, each with its handle. -/
def entries (seq : Sequence α) : List (Handle × α) :=
  seq.handles.filterMap fun h => (seq.get? h).map (Prod.mk h)

/- Change the element of a handle in place. -/
def alter (seq : Sequence α) (h : Handle) (change : α → α) : Sequence α :=
  seq.modifyLink h fun link => { link with item := change link.item }

inductive Operation (α : Type) where
  | push (item : α)
  | insertBefore (h : Handle) (item : α)
  | insertAfter (h : Handle) (item : α)
  | remove (h : Handle)
  | replace (h : Handle) (item : α)
  | alter (h : Handle) (change : α → α)

namespace Operation

/- Elements are entered next to live ones only. -/
def Permitted (seq : Sequence α) : Operation α → Prop
  | insertBefore h _ => seq.isLive h = true
  | insertAfter h _ => seq.isLive h = true
  | _ => True

def perform (seq : Sequence α) : Operation α → Sequence α
  | push item => (seq.push item).2
  | insertBefore h item => (seq.insertBefore h item).2
  | insertAfter h item => (seq.insertAfter h item).2
  | remove h => seq.remove h
  | replace h item => seq.replace h item
  | alter h change => seq.alter h change

/- The place of a handle, past the end for one that is not listed. -/
def place (h : Handle) (listed : List (Handle × α)) : Nat :=
  (listed.map Prod.fst).idxOf h

/- The operation on a plain list, where a new element gets the handle `fresh`. -/
def onList (fresh : Handle) (listed : List (Handle × α)) : Operation α → List (Handle × α)
  | push item => listed ++ [(fresh, item)]
  | insertBefore h item => listed.insertIdx (place h listed) (fresh, item)
  | insertAfter h item => listed.insertIdx (place h listed + 1) (fresh, item)
  | remove h => listed.eraseIdx (place h listed)
  | replace h item => listed.set (place h listed) (h, item)
  | alter h change =>
    listed.modify (place h listed) fun entry => (entry.1, change entry.2)

/- The handle whose own element an operation changes or takes out. -/
def target? : Operation α → Option Handle
  | remove h => some h
  | replace h _ => some h
  | alter h _ => some h
  | _ => none

/- A handle that was given out before, and that the operation is not about. -/
def Spares (seq : Sequence α) (op : Operation α) (h : Handle) : Prop :=
  h ≠ seq.links.size ∧ op.target? ≠ some h

instance (seq : Sequence α) (op : Operation α)
    (h : Handle) : Decidable (op.Spares seq h) :=
  inferInstanceAs (Decidable (_ ∧ _))

/- An operation does to a sequence what it does to the list of its elements. -/
structure Refines (op : Operation α) (seq : Sequence α) : Prop where
  entries : (op.perform seq).entries = op.onList seq.links.size seq.entries
  element : ∀ h, op.Spares seq h → (op.perform seq).get? h = seq.get? h
  liveness : ∀ h, op.Spares seq h → (op.perform seq).isLive h = seq.isLive h
  ranks :
    (op.perform seq).handles.filter (fun h => decide (op.Spares seq h)) =
      seq.handles.filter (fun h => decide (op.Spares seq h))

end Operation

/- The sequences that edits lead to. -/
inductive Edited : Sequence α → Prop where
  | empty : Edited empty
  | perform
      {seq : Sequence α}
      (hEdited : Edited seq)
      (op : Operation α)
      (hPermitted : op.Permitted seq) :
      Edited (op.perform seq)

/- The links of a sequence run through its live elements. -/
structure Linked (seq : Sequence α) : Prop where
  once : seq.handles.Nodup
  live : ∀ h, h ∈ seq.handles ↔ seq.isLive h = true
  first : seq.handles.head? = seq.first
  last : seq.handles.getLast? = seq.last
  onward : ∀ i h, seq.handles[i]? = some h → seq.next? h = seq.handles[i + 1]?
  inverse : ∀ h k, seq.isLive h = true → seq.isLive k = true →
    (seq.next? h = some k ↔ seq.prev? k = some h)
  ends : ∀ h, seq.isLive h = true → (seq.next? h = none ↔ seq.last = some h) ∧
      (seq.prev? h = none ↔ seq.first = some h)
  size : seq.size = (List.range seq.links.size).countP seq.isLive

-- Liveness and length after edits

theorem count_insertBetween (seq : Sequence α) (prev next : Option Handle) (item : α) :
    (seq.insertBetween prev next item).2.size = seq.size + 1 := by
  cases prev <;> cases next <;> rfl

theorem isLive_remove_self (seq : Sequence α) (h : Handle) :
    (seq.remove h).isLive h = false := by
  unfold Sequence.remove
  split
  · simp only [isLive, modifyLink, Array.getElem?_modify, if_true, Option.map_map]
    cases ((seq.setNext (seq.prev? h) (seq.next? h)).setPrev
      (seq.next? h) (seq.prev? h)).links[h]? <;> rfl
  · rename_i hDead
    simpa using hDead

theorem remove_of_dead (hDead : seq.isLive h = false) : seq.remove h = seq := by
  unfold Sequence.remove
  rw [if_neg (by simp [hDead])]

theorem count_remove (hLive : seq.isLive h = true) :
    (seq.remove h).size = seq.size - 1 := by
  unfold Sequence.remove
  rw [if_pos hLive]

theorem isLive_alter (seq : Sequence α) (h : Handle) (change : α → α) (other : Handle) :
    (seq.alter h change).isLive other = seq.isLive other := by
  simp only [isLive, alter, modifyLink, Array.getElem?_modify]
  split
  · rw [Option.map_map]
    rfl
  · rfl

theorem alter_eq_replace {item : α} (hItem : seq.get? h = some item) (change : α → α) :
    seq.alter h change = seq.replace h (change item) := by
  unfold alter Sequence.replace modifyLink
  congr 1
  apply Array.ext_getElem?
  intro other
  simp only [Array.getElem?_modify]
  split
  · rename_i hSame
    subst hSame
    obtain ⟨link, hLink, rfl⟩ := Option.map_eq_some_iff.mp hItem
    rw [hLink]
    rfl
  · rfl

/- A handle that was never given out stands for nothing. -/
theorem alter_of_unknown (hUnknown : seq.get? h = none) (change : α → α) :
    seq.alter h change = seq := by
  unfold alter modifyLink
  congr 1
  apply Array.ext_getElem?
  intro other
  rw [Array.getElem?_modify]
  split
  · rename_i hSame
    subst hSame
    rw [Option.map_eq_none_iff.mp hUnknown]
    rfl
  · rfl

theorem replace_eq_alter (seq : Sequence α) (h : Handle) (item : α) :
    seq.replace h item = seq.alter h fun _ => item :=
  rfl

theorem get?_alter_other (seq : Sequence α) (change : α → α) (hOther : h ≠ other) :
    (seq.alter h change).get? other = seq.get? other := by
  simp only [get?, alter, modifyLink, Array.getElem?_modify, if_neg hOther]

-- The view of a whole sequence

/- A list shows all live elements of a sequence. -/
structure Whole (seq : Sequence α) (view : List (Handle × α)) : Prop where
  shows : Shows seq view
  covers : ∀ h, seq.isLive h = true → h ∈ view.map Prod.fst
  size : seq.size = view.length

theorem Shows.entries_eq {view : List (Handle × α)} (hShows : Shows seq view) :
    seq.entries = view := by
  unfold entries
  rw [hShows.ordered.handles_eq, filterMap_map]
  have hItems : ∀ entry ∈ view,
      ((fun h => (seq.get? h).map (Prod.mk h)) ∘ Prod.fst) entry = some entry := by
    intro entry hEntry
    simp only [Function.comp, hShows.items entry hEntry, Option.map_some]
  rw [filterMap_congr hItems, filterMap_some]

theorem whole_empty : Whole (empty : Sequence α) [] where
  shows := ⟨listed_empty.ordered, by simp⟩
  covers := by simp [isLive, empty]
  size := rfl

namespace Whole

variable {seq : Sequence α} {view before after : List (Handle × α)} {h : Handle}
variable {x : α}

theorem mem_iff (hWhole : Whole seq view) (h : Handle) :
    h ∈ view.map Prod.fst ↔ seq.isLive h = true :=
  ⟨hWhole.shows.ordered.live h, hWhole.covers h⟩

/- A live handle splits the list. -/
theorem split_of_live (hWhole : Whole seq view) (hLive : seq.isLive h = true) :
    ∃ before x after, view = before ++ (h, x) :: after := by
  obtain ⟨entry, hEntry, rfl⟩ := mem_map.mp (hWhole.covers h hLive)
  obtain ⟨before, after, hSplit⟩ := append_of_mem hEntry
  exact ⟨before, entry.2, after, hSplit⟩

/- In a split list the handle stands after the first part. -/
theorem place_eq (hWhole : Whole seq (before ++ (h, x) :: after)) :
    Operation.place h (before ++ (h, x) :: after) = before.length := by
  have hNodup := hWhole.shows.ordered.nodup
  simp only [map_append, map_cons, nodup_append] at hNodup
  have hAbsent : h ∉ before.map Prod.fst := fun hMember =>
    hNodup.2.2 h hMember h (mem_cons_self ..) rfl
  unfold Operation.place
  rw [map_append, idxOf_append_of_notMem hAbsent, map_cons,
    idxOf_cons_self, length_map, Nat.add_zero]

theorem place_of_dead (hWhole : Whole seq view) (hDead : seq.isLive h = false) :
    Operation.place h view = view.length := by
  have hAbsent : h ∉ view.map Prod.fst := by
    rw [hWhole.mem_iff, hDead]
    simp
  unfold Operation.place
  rw [idxOf_of_notMem hAbsent, length_map]

/- An element entered between two neighbours. -/
theorem insertBetween (hWhole : Whole seq (before ++ after))
    {prev next : Option Handle} {item : α}
    (hShows : Shows (seq.insertBetween prev next item).2
      (before ++ (seq.links.size, item) :: after)) :
    Whole (seq.insertBetween prev next item).2
      (before ++ (seq.links.size, item) :: after) where
  shows := hShows
  covers := by
    intro h hLive
    by_cases hNew : h = seq.links.size
    · simp [hNew]
    · rw [isLive_insertBetween_old seq prev next item hNew] at hLive
      have hOld := hWhole.covers h hLive
      rw [map_append, mem_append] at hOld ⊢
      exact hOld.imp_right (mem_cons_of_mem _)
  size := by
    rw [count_insertBetween, hWhole.size]
    simp only [length_append, length_cons]
    omega

theorem push (hWhole : Whole seq view) (item : α) :
    Whole (seq.push item).2 (view ++ [(seq.links.size, item)]) := by
  have hSplit : Whole seq (view ++ []) := by
    rwa [append_nil]
  have hLast : seq.last = (view.map Prod.fst).getLast? := by
    rw [hWhole.shows.ordered.last, getLast?_eq_getElem?]
  have hShows := hSplit.shows.insertBetween item
  rw [← hLast] at hShows
  exact hSplit.insertBetween hShows

section

variable (hWhole : Whole seq (before ++ (h, x) :: after))
include hWhole

theorem insertBefore (item : α) :
    Whole (seq.insertBefore h item).2
      (before ++ (seq.links.size, item) :: (h, x) :: after) :=
  hWhole.insertBetween (hWhole.shows.insertBefore item)

theorem insertAfter (item : α) :
    Whole (seq.insertAfter h item).2
      (before ++ (h, x) :: (seq.links.size, item) :: after) := by
  have hSplit : Whole seq ((before ++ [(h, x)]) ++ after) := by
    simpa using hWhole
  have hInserted : Whole (seq.insertAfter h item).2
      ((before ++ [(h, x)]) ++ (seq.links.size, item) :: after) :=
    hSplit.insertBetween (by
      rw [append_assoc]
      exact hWhole.shows.insertAfter item)
  simpa using hInserted

theorem remove :
    Whole (seq.remove h) (before ++ after) where
  shows := hWhole.shows.remove
  covers := by
    intro other hLive
    have hOther : other ≠ h := by
      rintro rfl
      rw [isLive_remove_self] at hLive
      cases hLive
    rw [isLive_remove_other seq hOther] at hLive
    have hOld := hWhole.covers other hLive
    simp only [map_append, map_cons, mem_append, mem_cons, hOther,
      false_or] at hOld ⊢
    exact hOld
  size := by
    have hLive := hWhole.shows.ordered.live h (by simp)
    rw [count_remove hLive, hWhole.size]
    simp only [length_append, length_cons]
    omega

theorem alter (change : α → α) :
    Whole (seq.alter h change) (before ++ (h, change x) :: after) where
  shows := by
    rw [alter_eq_replace (hWhole.shows.items (h, x) (by simp)) change]
    exact hWhole.shows.replaceAt (change x)
  covers := by
    intro other hLive
    rw [isLive_alter] at hLive
    simpa using hWhole.covers other hLive
  size := by
    rw [length_append, length_cons]
    simpa using (show (seq.alter h change).size = _ from hWhole.size)

end

/- What stands under a dead handle is not listed. -/
theorem alter_of_dead (hWhole : Whole seq view) (hDead : seq.isLive h = false)
    (change : α → α) :
    Whole (seq.alter h change) view where
  shows := by
    cases hItem : seq.get? h with
    | none =>
      rw [alter_of_unknown hItem]
      exact hWhole.shows
    | some item =>
      rw [alter_eq_replace hItem change]
      have hReplaced := hWhole.shows.replace h (change item)
      have hKept : ∀ entry ∈ view, (if h = entry.1 then (h, change item) else entry) = entry := by
        intro entry hEntry
        apply if_neg
        rintro rfl
        have hLive := hWhole.shows.ordered.live entry.1 (mem_map_of_mem hEntry)
        rw [hDead] at hLive
        cases hLive
      rw [map_congr_left hKept, map_id'] at hReplaced
      exact hReplaced
  covers := by
    intro other hLive
    rw [isLive_alter] at hLive
    exact hWhole.covers other hLive
  size := hWhole.size

end Whole

-- One operation

/- A new element at the end of the first part of a list. -/
theorem insertIdx_append {β : Type} (before after : List β) (new : β) :
    (before ++ after).insertIdx before.length new = before ++ new :: after := by
  induction before with
  | nil => rfl
  | cons first rest ih => simpa using ih

namespace Operation

section AtLive

variable {seq : Sequence α} {before after : List (Handle × α)} {h : Handle}
variable {x : α}
variable (hWhole : Whole seq (before ++ (h, x) :: after))
include hWhole

theorem onList_insertBefore (fresh : Handle) (item : α) :
    (insertBefore h item).onList fresh (before ++ (h, x) :: after) =
      before ++ (fresh, item) :: (h, x) :: after := by
  simp only [onList, hWhole.place_eq, insertIdx_append]

theorem onList_insertAfter (fresh : Handle) (item : α) :
    (insertAfter h item).onList fresh (before ++ (h, x) :: after) =
      before ++ (h, x) :: (fresh, item) :: after := by
  have hInserted := insertIdx_append (before ++ [(h, x)]) after (fresh, item)
  simp only [onList, hWhole.place_eq]
  simpa using hInserted

theorem onList_remove (fresh : Handle) :
    (remove h).onList fresh (before ++ (h, x) :: after) = before ++ after := by
  simp only [onList, hWhole.place_eq]
  rw [eraseIdx_append_of_length_le (Nat.le_refl _), Nat.sub_self, eraseIdx_cons_zero]

theorem onList_replace (fresh : Handle) (item : α) :
    (replace h item).onList fresh (before ++ (h, x) :: after) = before ++ (h, item) :: after := by
  simp only [onList, hWhole.place_eq]
  rw [set_append_right _ _ (Nat.le_refl _), Nat.sub_self, set_cons_zero]

theorem onList_alter (fresh : Handle) (change : α → α) :
    (alter h change).onList fresh (before ++ (h, x) :: after) =
      before ++ (h, change x) :: after := by
  simp only [onList, hWhole.place_eq]
  rw [modify_eq_take_drop, take_left, drop_left]
  rfl

end AtLive

variable {seq : Sequence α} {view : List (Handle × α)}

theorem onList_of_dead (hWhole : Whole seq view) (fresh : Handle) {op : Operation α}
    (hTarget : op.target? = some h) (hDead : seq.isLive h = false) :
    op.onList fresh view = view := by
  have hPlace := hWhole.place_of_dead hDead
  cases op with
  | push item | insertBefore other item | insertAfter other item => cases hTarget
  | remove other =>
    cases hTarget
    simp only [onList, hPlace]
    exact eraseIdx_of_length_le (Nat.le_refl _)
  | replace other item =>
    cases hTarget
    simp only [onList, hPlace]
    exact set_eq_of_length_le (Nat.le_refl _)
  | alter other change =>
    cases hTarget
    simp only [onList, hPlace]
    rw [modify_eq_take_drop, take_length, drop_length]
    exact append_nil view

/-
  An operation keeps the view whole, and changes it as a list. The
  handles that it is not about stay in order.
-/
theorem whole_perform (hWhole : Whole seq view) (op : Operation α)
    (hPermitted : op.Permitted seq) :
    Whole (op.perform seq) (op.onList seq.links.size view) ∧
      ((op.onList seq.links.size view).map Prod.fst).filter
          (fun h => decide (op.Spares seq h)) =
        (view.map Prod.fst).filter (fun h => decide (op.Spares seq h)) := by
  cases op with
  | push item => exact ⟨hWhole.push item, by simp [onList, Spares]⟩
  | insertBefore h item =>
    obtain ⟨before, x, after, rfl⟩ := hWhole.split_of_live hPermitted
    rw [onList_insertBefore hWhole]
    exact ⟨hWhole.insertBefore item, by simp [Spares]⟩
  | insertAfter h item =>
    obtain ⟨before, x, after, rfl⟩ := hWhole.split_of_live hPermitted
    rw [onList_insertAfter hWhole]
    exact ⟨hWhole.insertAfter item, by simp [filter_cons, Spares]⟩
  | remove h =>
    cases hLive : seq.isLive h with
    | false =>
      rw [onList_of_dead hWhole _ rfl hLive, perform, remove_of_dead hLive]
      exact ⟨hWhole, rfl⟩
    | true =>
      obtain ⟨before, x, after, rfl⟩ := hWhole.split_of_live hLive
      rw [onList_remove hWhole]
      exact ⟨hWhole.remove, by simp [Spares, target?]⟩
  | replace h item =>
    cases hLive : seq.isLive h with
    | false =>
      rw [onList_of_dead hWhole _ rfl hLive, perform, replace_eq_alter]
      exact ⟨hWhole.alter_of_dead hLive _, rfl⟩
    | true =>
      obtain ⟨before, x, after, rfl⟩ := hWhole.split_of_live hLive
      rw [onList_replace hWhole, perform, replace_eq_alter]
      exact ⟨hWhole.alter _, by simp⟩
  | alter h change =>
    cases hLive : seq.isLive h with
    | false =>
      rw [onList_of_dead hWhole _ rfl hLive]
      exact ⟨hWhole.alter_of_dead hLive change, rfl⟩
    | true =>
      obtain ⟨before, x, after, rfl⟩ := hWhole.split_of_live hLive
      rw [onList_alter hWhole]
      exact ⟨hWhole.alter change, by simp⟩

/- The handles an operation is not about keep their elements and their liveness. -/
theorem spared (seq : Sequence α) (op : Operation α) (hSpares : op.Spares seq h) :
    (op.perform seq).get? h = seq.get? h ∧ (op.perform seq).isLive h = seq.isLive h := by
  obtain ⟨hKnown, hTarget⟩ := hSpares
  cases op with
  | push item | insertBefore other item | insertAfter other item =>
    exact ⟨get?_insertBetween_old seq _ _ item hKnown, isLive_insertBetween_old seq _ _ item hKnown⟩
  | remove other =>
    have hOther : h ≠ other := fun hSame => hTarget (congrArg some hSame.symm)
    exact ⟨get?_remove seq other h, isLive_remove_other seq hOther⟩
  | replace other item =>
    have hOther : other ≠ h := fun hSame => hTarget (congrArg some hSame)
    rw [perform, replace_eq_alter]
    exact ⟨get?_alter_other seq _ hOther, isLive_alter seq other _ h⟩
  | alter other change =>
    have hOther : other ≠ h := fun hSame => hTarget (congrArg some hSame)
    exact ⟨get?_alter_other seq change hOther, isLive_alter seq other change h⟩

theorem refines (hWhole : Whole seq view) (op : Operation α)
    (hPermitted : op.Permitted seq) :
    op.Refines seq := by
  obtain ⟨hPerformed, hOrder⟩ := whole_perform hWhole op hPermitted
  refine ⟨?_, fun h hSpares => (spared seq op hSpares).1,
    fun h hSpares => (spared seq op hSpares).2, ?_⟩
  · rw [hPerformed.shows.entries_eq, hWhole.shows.entries_eq]
  · rw [hPerformed.shows.ordered.handles_eq, hWhole.shows.ordered.handles_eq]
    exact hOrder

end Operation

-- All edits

namespace Whole

variable {seq : Sequence α} {view : List (Handle × α)} {h : Handle}
variable (hWhole : Whole seq view)
include hWhole

/- Going forward and going back are inverse among the live elements. -/
theorem next?_eq_iff {k : Handle} (hLive : seq.isLive h = true)
    (hOther : seq.isLive k = true) :
    seq.next? h = some k ↔ seq.prev? k = some h := by
  have hOrdered := hWhole.shows.ordered
  obtain ⟨i, hAt⟩ := List.mem_iff_getElem?.mp (hWhole.covers h hLive)
  obtain ⟨j, hAtOther⟩ := List.mem_iff_getElem?.mp (hWhole.covers k hOther)
  rw [hOrdered.next i h hAt, hOrdered.prev j k hAtOther]
  constructor
  · intro hNext
    have hPlace := place_unique hOrdered.nodup hNext hAtOther
    rw [← hPlace, if_neg (Nat.succ_ne_zero i), Nat.add_sub_cancel]
    exact hAt
  · intro hPrev
    split at hPrev
    · cases hPrev
    · have hPlace := place_unique hOrdered.nodup hPrev hAt
      have hNext : i + 1 = j := by omega
      rw [hNext]
      exact hAtOther

theorem next?_eq_none_iff (hLive : seq.isLive h = true) :
    seq.next? h = none ↔ seq.last = some h := by
  have hOrdered := hWhole.shows.ordered
  obtain ⟨i, hAt⟩ := List.mem_iff_getElem?.mp (hWhole.covers h hLive)
  have hInside := (List.getElem?_eq_some_iff.mp hAt).1
  rw [hOrdered.next i h hAt, hOrdered.last, List.getElem?_eq_none_iff]
  constructor
  · intro hEnd
    have hPlace : (view.map Prod.fst).length - 1 = i := by omega
    rw [hPlace]
    exact hAt
  · intro hLast
    have hPlace := place_unique hOrdered.nodup hLast hAt
    omega

theorem prev?_eq_none_iff (hLive : seq.isLive h = true) :
    seq.prev? h = none ↔ seq.first = some h := by
  have hOrdered := hWhole.shows.ordered
  obtain ⟨i, hAt⟩ := List.mem_iff_getElem?.mp (hWhole.covers h hLive)
  have hInside := (List.getElem?_eq_some_iff.mp hAt).1
  rw [hOrdered.prev i h hAt, hOrdered.first]
  constructor
  · intro hNone
    split at hNone
    · rename_i hStart
      rw [← hStart]
      exact hAt
    · rw [List.getElem?_eq_none_iff] at hNone
      omega
  · intro hFirst
    exact if_pos (place_unique hOrdered.nodup hAt hFirst)

theorem linked : Linked seq := by
  have hOrdered := hWhole.shows.ordered
  have hHandles := hOrdered.handles_eq
  have hLive (h : Handle) : h ∈ seq.handles ↔ seq.isLive h = true := by
    rw [hHandles]
    exact hWhole.mem_iff h
  refine ⟨?_, hLive, ?_, ?_, ?_, ?_, ?_, ?_⟩
  · rw [hHandles]
    exact hOrdered.nodup
  · rw [hHandles, hOrdered.first, head?_eq_getElem?]
  · rw [hHandles, hOrdered.last, getLast?_eq_getElem?]
  · rw [hHandles]
    exact hOrdered.next
  · intro h k hHere hThere
    exact hWhole.next?_eq_iff hHere hThere
  · intro h hHere
    exact ⟨hWhole.next?_eq_none_iff hHere, hWhole.prev?_eq_none_iff hHere⟩
  · -- the handles are the live ones among those given out, in another order
    have hPerm : (view.map Prod.fst).Perm
        ((List.range seq.links.size).filter seq.isLive) := by
      rw [perm_ext_iff_of_nodup hOrdered.nodup (nodup_range.filter _)]
      intro h
      rw [hWhole.mem_iff, mem_filter, mem_range]
      exact ⟨fun hHere => ⟨lt_of_live hHere, hHere⟩, And.right⟩
    rw [hWhole.size, countP_eq_length_filter, ← hPerm.length_eq, length_map]

end Whole

namespace Edited

theorem whole (hEdited : Edited seq) : ∃ view, Whole seq view := by
  induction hEdited with
  | empty => exact ⟨[], whole_empty⟩
  | perform _ op hPermitted ih =>
    obtain ⟨view, hWhole⟩ := ih
    exact ⟨_, (Operation.whole_perform hWhole op hPermitted).1⟩

/-
  After any edits the links run through the live elements, and
  the next operation does to the sequence what it does to the
  list of its elements. Removing a dead element does nothing.
-/
theorem refines_list
    {seq : Sequence α}
    (hEdited : Edited seq) :
    Linked seq ∧ (∀ op : Operation α, op.Permitted seq → op.Refines seq) ∧
      ∀ h, seq.isLive h = false → seq.remove h = seq := by
  obtain ⟨view, hWhole⟩ := hEdited.whole
  refine ⟨hWhole.linked, ?_, fun h hDead => remove_of_dead hDead⟩
  intro op hPermitted
  exact Operation.refines hWhole op hPermitted

/- Two elements, one entered before the second, and the first taken out. -/
def rearranged : Sequence Nat :=
  [Operation.push 10, .push 20, .insertBefore 1 15, .remove 0].foldl
    (fun seq op => op.perform seq) Sequence.empty

theorem refines_list_rearranged :
    Edited rearranged ∧ rearranged.entries = [(2, 15), (1, 20)] ∧ Linked rearranged ∧
      (Operation.insertAfter 2 17).Refines rearranged ∧ rearranged.remove 0 = rearranged := by
  have hPushed : Edited ((Operation.push 20).perform
      ((Operation.push 10).perform Sequence.empty)) :=
    (Edited.empty.perform (.push 10) trivial).perform (.push 20) trivial
  have hInserted := hPushed.perform (.insertBefore 1 15)
    (show Sequence.isLive _ 1 = true by decide +kernel)
  have hEdited : Edited rearranged := hInserted.perform (.remove 0) trivial
  obtain ⟨hLinked, hRefines, hDead⟩ := refines_list hEdited
  exact ⟨hEdited, by decide +kernel, hLinked,
    hRefines (.insertAfter 2 17) (show rearranged.isLive 2 = true by decide +kernel),
    hDead 0 (by decide +kernel)⟩

end Edited

end Sequence

end Unboxing
