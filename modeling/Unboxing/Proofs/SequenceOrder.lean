import Mathlib.Data.List.Nodup
import Mathlib.Data.List.Perm.Subperm
import Unboxing.Simulation.Seeding

/-
  The order of an editable sequence: the handles that are met
  by going from the first element to the last. Inserting puts a
  new handle next to a given one, removing takes one out, and
  all other handles keep their places and their elements. An
  edit puts instructions right before an element and keeps,
  replaces or removes that element.

  Main declarations:
    * `Sequence.Ordered`
    * `Sequence.Ordered.insertBetween`
    * `Sequence.Ordered.remove`
    * `Sequence.Shows`
    * `Sequence.Shows.apply`
    * `Sequence.Shows.insertAt`
-/

namespace Unboxing

open List

namespace Sequence

variable {α : Type} {seq : Sequence α} {h : Handle} {i : Nat}
variable {before after : List Handle} {prev next : Option Handle}
variable {order : List Handle}

/- The handles of a sequence in order, with neighbours that fit. -/
structure Ordered (seq : Sequence α) (order : List Handle) : Prop where
  nodup : order.Nodup
  live : ∀ h ∈ order, seq.isLive h = true
  first : seq.first = order[0]?
  last : seq.last = order[order.length - 1]?
  next : ∀ i h, order[i]? = some h → seq.next? h = order[i + 1]?
  prev : ∀ i h, order[i]? = some h → seq.prev? h = if i = 0 then none else order[i - 1]?

theorem lt_of_live (hLive : seq.isLive h = true) : h < seq.links.size := by
  refine Nat.lt_of_not_le fun hSize => ?_
  simp [isLive, Array.getElem?_eq_none hSize] at hLive

namespace Ordered

variable {seq : Sequence α} {order : List Handle}

section

variable (hOrdered : Ordered seq order)
include hOrdered

theorem lt_size (hMember : h ∈ order) : h < seq.links.size :=
  lt_of_live (hOrdered.live h hMember)

theorem length_le : order.length ≤ seq.links.size := by
  have hSubset : order ⊆ List.range seq.links.size := by
    intro h hMember
    exact mem_range.mpr (hOrdered.lt_size hMember)
  have hSub := subperm_of_subset hOrdered.nodup hSubset
  simpa using hSub.length_le

/- Going forward from a place meets the rest of the order. -/
theorem handlesFrom_eq (fuel place : Nat) (hFuel : order.length ≤ place + fuel) :
    seq.handlesFrom fuel order[place]? = order.drop place := by
  induction fuel generalizing place with
  | zero =>
    rw [drop_eq_nil_of_le (by omega)]
    rfl
  | succ fuel ih =>
    cases hPlace : order[place]? with
    | none =>
      rw [drop_eq_nil_of_le (getElem?_eq_none_iff.mp hPlace)]
      rfl
    | some h =>
      obtain ⟨hInside, hSame⟩ := List.getElem?_eq_some_iff.mp hPlace
      rw [List.drop_eq_getElem_cons hInside, hSame, handlesFrom,
        hOrdered.next place h hPlace, ih (place + 1) (by omega)]

theorem handles_eq : seq.handles = order := by
  unfold handles
  rw [hOrdered.first, hOrdered.handlesFrom_eq _ 0 (by simpa using hOrdered.length_le),
    drop_zero]

end

end Ordered

-- Links after edits

theorem links_setNext (seq : Sequence α) (before next : Option Handle) (h : Handle) :
    (seq.setNext before next).links[h]? = seq.links[h]?.map fun link =>
        { link with next := if before = some h then next else link.next } := by
  cases before with
  | none => simp [setNext]
  | some p =>
    simp only [setNext, modifyLink, Array.getElem?_modify, Option.some.injEq]
    by_cases hSame : p = h <;> simp [hSame]

theorem links_setPrev (seq : Sequence α) (after prev : Option Handle) (h : Handle) :
    (seq.setPrev after prev).links[h]? = seq.links[h]?.map fun link =>
        { link with prev := if after = some h then prev else link.prev } := by
  cases after with
  | none => simp [setPrev]
  | some p =>
    simp only [setPrev, modifyLink, Array.getElem?_modify, Option.some.injEq]
    by_cases hSame : p = h <;> simp [hSame]

theorem links_insertBetween_new (item : α) (hPrev : prev ≠ some seq.links.size)
    (hNext : next ≠ some seq.links.size) :
    (seq.insertBetween prev next item).2.links[seq.links.size]? =
      some ⟨item, prev, next, true⟩ := by
  simp only [insertBetween]
  rw [links_setPrev, links_setNext, Array.getElem?_push]
  simp [hPrev, hNext]

section

variable (seq : Sequence α) (prev next : Option Handle) (item : α)

/- The other links when an element is entered between two others. -/
theorem links_insertBetween_old (hKnown : h ≠ seq.links.size) :
    (seq.insertBetween prev next item).2.links[h]? = seq.links[h]?.map fun link =>
        { link with
          next := if prev = some h then some seq.links.size else link.next
          prev := if next = some h then some seq.links.size else link.prev } := by
  simp only [insertBetween]
  rw [links_setPrev, links_setNext, Array.getElem?_push, if_neg hKnown, Option.map_map]
  rfl

theorem size_insertBetween :
    (seq.insertBetween prev next item).2.links.size = seq.links.size + 1 := by
  cases prev <;> cases next <;>
    simp [insertBetween, setNext, setPrev, modifyLink]

theorem first_insertBetween :
    (seq.insertBetween prev next item).2.first =
      if prev = none then some seq.links.size else seq.first := by
  cases prev <;> cases next <;> rfl

theorem last_insertBetween :
    (seq.insertBetween prev next item).2.last =
      if next = none then some seq.links.size else seq.last := by
  cases prev <;> cases next <;> rfl

end

theorem getLast?_eq_place (before after : List Handle) :
    before.getLast? =
      if before.length = 0 then none else (before ++ after)[before.length - 1]? := by
  rw [getLast?_eq_getElem?, getElem?_append]
  by_cases hEmpty : before.length = 0
  · rw [if_pos hEmpty, length_eq_zero_iff.mp hEmpty]
    rfl
  · rw [if_neg hEmpty, if_pos (by omega)]

/- A handle stands at one place only. -/
theorem place_unique (hNodup : order.Nodup) {j : Nat} (hFirst : order[i]? = some h)
    (hSecond : order[j]? = some h) :
    i = j := by
  obtain ⟨hInside, _⟩ := List.getElem?_eq_some_iff.mp hFirst
  exact (List.getElem?_inj hInside hNodup).mp (hFirst.trans hSecond.symm)

theorem Ordered.prev?_eq (hOrdered : Ordered seq (before ++ h :: after)) :
    seq.prev? h = before.getLast? := by
  have hPlace : (before ++ h :: after)[before.length]? = some h := by simp
  rw [hOrdered.prev _ h hPlace, getLast?_eq_place before (h :: after)]

theorem Ordered.next?_eq (hOrdered : Ordered seq (before ++ h :: after)) :
    seq.next? h = after.head? := by
  have hPlace : (before ++ h :: after)[before.length]? = some h := by simp
  rw [hOrdered.next _ h hPlace, head?_eq_getElem?]
  rw [getElem?_append_right (by omega), Nat.add_sub_cancel_left, getElem?_cons_succ]

/- The place of a handle splits the order. -/
theorem split_of_place (hPlace : order[i]? = some h) :
    order = order.take i ++ h :: order.drop (i + 1) := by
  obtain ⟨hInside, rfl⟩ := List.getElem?_eq_some_iff.mp hPlace
  rw [← List.drop_eq_getElem_cons hInside, List.take_append_drop]

/- An order in which every handle has the neighbours that fit. -/
theorem Ordered.of_neighbours (hNodup : order.Nodup)
    (hLive : ∀ h ∈ order, seq.isLive h = true) (hFirst : seq.first = order.head?)
    (hLast : seq.last = order.getLast?)
    (hNeighbours : ∀ before h after, order = before ++ h :: after →
      seq.next? h = after.head? ∧ seq.prev? h = before.getLast?) :
    Ordered seq order where
  nodup := hNodup
  live := hLive
  first := by rw [hFirst, head?_eq_getElem?]
  last := by rw [hLast, getLast?_eq_getElem?]
  next i h hPlace := by rw [(hNeighbours _ _ _ (split_of_place hPlace)).1, head?_drop]
  prev i h hPlace := by
    have hInside := (List.getElem?_eq_some_iff.mp hPlace).1
    rw [(hNeighbours _ _ _ (split_of_place hPlace)).2, getLast?_eq_place _ (order.drop i),
      List.take_append_drop, List.length_take, Nat.min_eq_left (Nat.le_of_lt hInside)]

/- A handle of two lists in a row is one of the first or one of the second. -/
theorem split_append {left right : List Handle} (hSplit : before ++ after = left ++ h :: right) :
    (∃ mid, before = left ++ h :: mid ∧ right = mid ++ after) ∨
      ∃ mid, after = mid ++ h :: right ∧ left = before ++ mid := by
  rcases append_eq_append_iff.mp hSplit with ⟨mid, hLeft, hAfter⟩ | ⟨mid, hBefore, hRight⟩
  · exact .inr ⟨mid, hAfter, hLeft⟩
  · cases mid with
    | nil => exact .inr ⟨[], hRight.symm, by simpa using hBefore.symm⟩
    | cons first mid =>
      cases hRight
      exact .inl ⟨mid, hBefore, rfl⟩

/- Only the last of some handles is the last. -/
theorem getLast?_eq_some_iff {left mid : List Handle} (hNodup : (left ++ h :: mid).Nodup) :
    (left ++ h :: mid).getLast? = some h ↔ mid = [] := by
  cases mid with
  | nil => simp
  | cons first rest =>
    refine ⟨fun hLast => ?_, nofun⟩
    rw [getLast?_append, getLast?_cons_cons, getLast?_cons, Option.some_or] at hLast
    have hMember : h ∈ first :: rest := mem_of_getLast? (getLast?_cons.trans hLast)
    exact absurd hMember (nodup_cons.mp (nodup_append.mp hNodup).2.1).1

theorem head?_eq_some_iff {mid right : List Handle} (hNodup : (mid ++ h :: right).Nodup) :
    (mid ++ h :: right).head? = some h ↔ mid = [] := by
  cases mid with
  | nil => simp
  | cons first rest =>
    refine ⟨fun hHead => ?_, nofun⟩
    cases hHead
    simp at hNodup

theorem next?_insertBetween_old (prev next : Option Handle) (item : α)
    (hInside : h < seq.links.size) :
    (seq.insertBetween prev next item).2.next? h =
      if prev = some h then some seq.links.size else seq.next? h := by
  simp only [next?, links_insertBetween_old seq prev next item (Nat.ne_of_lt hInside),
    Array.getElem?_eq_getElem hInside]
  rfl

theorem prev?_insertBetween_old (prev next : Option Handle) (item : α)
    (hInside : h < seq.links.size) :
    (seq.insertBetween prev next item).2.prev? h =
      if next = some h then some seq.links.size else seq.prev? h := by
  simp only [prev?, links_insertBetween_old seq prev next item (Nat.ne_of_lt hInside),
    Array.getElem?_eq_getElem hInside]
  rfl

theorem isLive_insertBetween_old (seq : Sequence α) (prev next : Option Handle) (item : α)
    (hKnown : h ≠ seq.links.size) :
    (seq.insertBetween prev next item).2.isLive h = seq.isLive h := by
  simp only [isLive, links_insertBetween_old seq prev next item hKnown, Option.map_map]
  rfl

/- A new handle is put between those before a place and those after it. -/
theorem Ordered.insertBetween (hOrdered : Ordered seq (before ++ after)) (item : α) :
    Ordered (seq.insertBetween before.getLast? after.head? item).2
      (before ++ seq.links.size :: after) := by
  have hFresh : seq.links.size ∉ before ++ after := fun hMember =>
    Nat.lt_irrefl _ (hOrdered.lt_size hMember)
  have hPrev : before.getLast? ≠ some seq.links.size := fun hLast =>
    hFresh (mem_append_left _ (mem_of_getLast? hLast))
  have hNext : after.head? ≠ some seq.links.size := fun hHead =>
    hFresh (mem_append_right _ (mem_of_head? hHead))
  have hNew := links_insertBetween_new item hPrev hNext
  obtain ⟨hBefore, hAfter, hApart⟩ := nodup_append.mp hOrdered.nodup
  refine .of_neighbours ?_ ?_ ?_ ?_ ?_
  · exact nodup_middle.mpr (nodup_cons.mpr ⟨hFresh, hOrdered.nodup⟩)
  · intro h hMember
    by_cases hSame : h = seq.links.size
    · rw [hSame]
      simp [isLive, hNew]
    · rw [isLive_insertBetween_old seq _ _ item hSame]
      exact hOrdered.live h (by simpa [hSame] using hMember)
  · rw [first_insertBetween, hOrdered.first]
    cases before <;> simp
  · rw [last_insertBetween, hOrdered.last, ← getLast?_eq_getElem?]
    cases after <;> simp [getLast?_cons]
  · intro left h right hSplit
    rcases split_append hSplit with ⟨mid, rfl, rfl⟩ | ⟨mid, hMid, rfl⟩
    · -- the handle stands before the new one
      have hOther : after.head? ≠ some h := fun hHead =>
        hApart h (by simp) h (mem_of_head? hHead) rfl
      rw [append_assoc, cons_append] at hOrdered
      rw [next?_insertBetween_old _ _ item (hOrdered.lt_size (by simp)),
        prev?_insertBetween_old _ _ item (hOrdered.lt_size (by simp)), if_neg hOther,
        hOrdered.next?_eq, hOrdered.prev?_eq]
      refine ⟨?_, rfl⟩
      simp only [getLast?_eq_some_iff hBefore]
      cases mid <;> simp
    cases mid with
    | nil =>
      cases hMid
      simp [next?, prev?, hNew]
    | cons new mid =>
      -- the handle stands after the new one
      rw [cons_append, List.cons.injEq] at hMid
      obtain ⟨rfl, rfl⟩ := hMid
      have hOther : before.getLast? ≠ some h := fun hLast =>
        hApart h (mem_of_getLast? hLast) h (by simp) rfl
      rw [← append_assoc] at hOrdered
      rw [next?_insertBetween_old _ _ item (hOrdered.lt_size (by simp)),
        prev?_insertBetween_old _ _ item (hOrdered.lt_size (by simp)), if_neg hOther,
        hOrdered.next?_eq, hOrdered.prev?_eq]
      refine ⟨rfl, ?_⟩
      simp only [head?_eq_some_iff hAfter]
      cases mid <;> simp [getLast?_cons]

theorem get?_insertBetween_new (item : α) (hPrev : prev ≠ some seq.links.size)
    (hNext : next ≠ some seq.links.size) :
    (seq.insertBetween prev next item).2.get? seq.links.size = some item := by
  simp [get?, links_insertBetween_new item hPrev hNext]

theorem get?_insertBetween_old (seq : Sequence α) (prev next : Option Handle) (item : α)
    (hKnown : h ≠ seq.links.size) :
    (seq.insertBetween prev next item).2.get? h = seq.get? h := by
  simp only [get?, links_insertBetween_old seq prev next item hKnown, Option.map_map]
  rfl

-- Inserting

theorem Ordered.push (hOrdered : Ordered seq order) (item : α) :
    Ordered (seq.push item).2 (order ++ [seq.links.size]) := by
  have hSplit : Ordered seq (order ++ []) := by
    simpa using hOrdered
  have hLast : seq.last = order.getLast? := by
    rw [hOrdered.last, getLast?_eq_getElem?]
  unfold Sequence.push
  rw [hLast]
  exact hSplit.insertBetween item

-- Removing and replacing

section

variable (hLive : seq.isLive h = true)
include hLive

theorem links_remove {other : Handle} (hOther : other ≠ h) :
    (seq.remove h).links[other]? = seq.links[other]?.map fun link =>
        { link with
          next := if seq.prev? h = some other then seq.next? h else link.next
          prev := if seq.next? h = some other then seq.prev? h else link.prev } := by
  unfold Sequence.remove
  rw [if_pos hLive]
  simp only [modifyLink, Array.getElem?_modify, if_neg (Ne.symm hOther)]
  rw [links_setPrev, links_setNext, Option.map_map]
  rfl

theorem first_remove :
    (seq.remove h).first = if seq.prev? h = none then seq.next? h else seq.first := by
  unfold Sequence.remove
  rw [if_pos hLive]
  cases seq.prev? h <;> cases seq.next? h <;> rfl

theorem last_remove :
    (seq.remove h).last = if seq.next? h = none then seq.prev? h else seq.last := by
  unfold Sequence.remove
  rw [if_pos hLive]
  cases seq.prev? h <;> cases seq.next? h <;> rfl

theorem next?_remove {other : Handle} (hOther : other ≠ h) (hInside : other < seq.links.size) :
    (seq.remove h).next? other =
      if seq.prev? h = some other then seq.next? h else seq.next? other := by
  have hLink : seq.next? other = seq.links[other].next := by
    rw [next?, Array.getElem?_eq_getElem hInside, Option.bind_some]
  rw [hLink, next?, links_remove hLive hOther, Array.getElem?_eq_getElem hInside]
  rfl

theorem prev?_remove {other : Handle} (hOther : other ≠ h) (hInside : other < seq.links.size) :
    (seq.remove h).prev? other =
      if seq.next? h = some other then seq.prev? h else seq.prev? other := by
  have hLink : seq.prev? other = seq.links[other].prev := by
    rw [prev?, Array.getElem?_eq_getElem hInside, Option.bind_some]
  rw [hLink, prev?, links_remove hLive hOther, Array.getElem?_eq_getElem hInside]
  rfl

end

theorem isLive_remove_other (seq : Sequence α) (hOther : other ≠ h) :
    (seq.remove h).isLive other = seq.isLive other := by
  by_cases hLive : seq.isLive h = true
  · simp only [isLive, links_remove hLive hOther, Option.map_map]
    rfl
  · unfold Sequence.remove
    rw [if_neg hLive]

/- A handle is taken out, and the others stay. -/
theorem Ordered.remove (hOrdered : Ordered seq (before ++ h :: after)) :
    Ordered (seq.remove h) (before ++ after) := by
  have hLive : seq.isLive h = true := hOrdered.live h (by simp)
  obtain ⟨hAbsent, hNodup⟩ := nodup_cons.mp (nodup_middle.mp hOrdered.nodup)
  obtain ⟨hBefore, hAfter, hApart⟩ := nodup_append.mp hNodup
  have hMembers := ((sublist_cons_self h after).append_left before).subset
  have hOther : ∀ other ∈ before ++ after, other ≠ h := fun _ hMember hSame =>
    hAbsent (hSame ▸ hMember)
  refine .of_neighbours hNodup ?_ ?_ ?_ ?_
  · intro other hMember
    rw [isLive_remove_other seq (hOther other hMember)]
    exact hOrdered.live other (hMembers hMember)
  · rw [first_remove hLive, hOrdered.prev?_eq, hOrdered.next?_eq, hOrdered.first]
    cases before <;> simp
  · rw [last_remove hLive, hOrdered.prev?_eq, hOrdered.next?_eq, hOrdered.last,
      ← getLast?_eq_getElem?]
    cases after <;> simp [getLast?_cons]
  · intro left other right hSplit
    have hMember : other ∈ before ++ after := by simp [hSplit]
    rw [next?_remove hLive (hOther other hMember) (hOrdered.lt_size (hMembers hMember)),
      prev?_remove hLive (hOther other hMember) (hOrdered.lt_size (hMembers hMember)),
      hOrdered.next?_eq, hOrdered.prev?_eq]
    rcases split_append hSplit with ⟨mid, rfl, rfl⟩ | ⟨mid, rfl, rfl⟩
    · have hHead : after.head? ≠ some other := fun hHead =>
        hApart other (by simp) other (mem_of_head? hHead) rfl
      rw [append_assoc, cons_append] at hOrdered
      rw [if_neg hHead, hOrdered.next?_eq, hOrdered.prev?_eq]
      refine ⟨?_, rfl⟩
      simp only [getLast?_eq_some_iff hBefore]
      cases mid <;> simp
    · have hLast : before.getLast? ≠ some other := fun hLast =>
        hApart other (mem_of_getLast? hLast) other (by simp) rfl
      rw [← cons_append, ← append_assoc] at hOrdered
      rw [if_neg hLast, hOrdered.next?_eq, hOrdered.prev?_eq]
      refine ⟨rfl, ?_⟩
      simp only [head?_eq_some_iff hAfter]
      cases mid <;> simp [getLast?_cons]

/- A removed element can still be looked at. -/
theorem get?_remove (seq : Sequence α) (h other : Handle) :
    (seq.remove h).get? other = seq.get? other := by
  unfold Sequence.remove
  split
  · simp only [get?, modifyLink, Array.getElem?_modify]
    split
    · rw [links_setPrev, links_setNext]
      simp only [Option.map_map]
      rfl
    · rw [links_setPrev, links_setNext]
      simp only [Option.map_map]
      rfl
  · rfl

theorem Ordered.replace (hOrdered : Ordered seq order) (h : Handle) (item : α) :
    Ordered (seq.replace h item) order := by
  have hLinks (other : Handle) :
      (seq.replace h item).links[other]? = seq.links[other]?.map fun link =>
          if h = other then { link with item := item } else link := by
    simp only [Sequence.replace, modifyLink, Array.getElem?_modify]
    by_cases hSame : h = other <;> simp [hSame]
  have hNext (other : Handle) : (seq.replace h item).next? other = seq.next? other := by
    simp only [next?, hLinks, Option.bind_map]
    congr 1
    funext link
    simp only [Function.comp]
    split <;> rfl
  have hPrev (other : Handle) : (seq.replace h item).prev? other = seq.prev? other := by
    simp only [prev?, hLinks, Option.bind_map]
    congr 1
    funext link
    simp only [Function.comp]
    split <;> rfl
  have hLive (other : Handle) :
      (seq.replace h item).isLive other = seq.isLive other := by
    simp only [isLive, hLinks, Option.map_map]
    congr 2
    funext link
    simp only [Function.comp]
    split <;> rfl
  refine ⟨hOrdered.nodup, ?_, hOrdered.first, hOrdered.last, ?_, ?_⟩
  · intro other hMember
    rw [hLive]
    exact hOrdered.live other hMember
  · intro i other hPlace
    rw [hNext]
    exact hOrdered.next i other hPlace
  · intro i other hPlace
    rw [hPrev]
    exact hOrdered.prev i other hPlace

theorem get?_replace (seq : Sequence α) (h : Handle) (item : α) (other : Handle) :
    (seq.replace h item).get? other =
      if h = other then (seq.get? other).map fun _ => item else seq.get? other := by
  simp only [get?, Sequence.replace, modifyLink, Array.getElem?_modify]
  by_cases hSame : h = other
  · simp only [hSame, if_true, Option.map_map]
    rfl
  · simp [hSame]

-- Sequences from lists

/- A sequence whose elements were entered at the end, one after another. -/
structure Listed (seq : Sequence α) (items : List α) : Prop where
  ordered : Ordered seq (List.range items.length)
  size : seq.links.size = items.length
  get? : ∀ i : Nat, seq.get? i = items[i]?

theorem listed_empty : Listed (empty : Sequence α) [] where
  ordered := by
    constructor <;> simp [empty]
  size := rfl
  get? := by simp [Sequence.get?, empty]

theorem Listed.push {items : List α} (hListed : Listed seq items) (item : α) :
    Listed (seq.push item).2 (items ++ [item]) where
  ordered := by
    have hPushed := hListed.ordered.push item
    rw [hListed.size] at hPushed
    simpa [range_succ] using hPushed
  size := by
    rw [length_append, length_singleton, ← hListed.size]
    exact size_insertBetween seq _ _ item
  get? := by
    intro i
    have hLast : seq.last ≠ some seq.links.size := by
      rw [hListed.ordered.last, hListed.size]
      intro hSame
      have hMember := mem_of_getElem? hSame
      simp at hMember
    by_cases hNew : i = seq.links.size
    · subst hNew
      unfold Sequence.push
      rw [get?_insertBetween_new item hLast (by simp), hListed.size]
      simp
    · unfold Sequence.push
      rw [get?_insertBetween_old seq _ _ item hNew, hListed.get?, getElem?_append]
      rw [hListed.size] at hNew
      split
      · rfl
      · rw [getElem?_eq_none (by omega), getElem?_eq_none (by simp; omega)]

/- The elements of a list get handles from zero on. -/
theorem listed_ofList (items : List α) : Listed (ofList items) items := by
  have hFold (done rest : List α) (seq : Sequence α) (hListed : Listed seq done) :
      Listed (rest.foldl (fun seq item => (seq.push item).2) seq) (done ++ rest) := by
    induction rest generalizing done seq with
    | nil => simpa using hListed
    | cons item rest ih =>
      have hRest := ih (done ++ [item]) (seq.push item).2 (hListed.push item)
      simpa using hRest
  exact hFold [] items empty listed_empty

-- Handles with their elements

/- The live elements of a sequence in order, each with its handle. -/
structure Shows (seq : Sequence α) (view : List (Handle × α)) : Prop where
  ordered : Ordered seq (view.map Prod.fst)
  items : ∀ entry ∈ view, seq.get? entry.1 = some entry.2

namespace Shows

variable {seq : Sequence α} {view : List (Handle × α)}

theorem toList_eq (hShows : Shows seq view) : seq.toList = view.map Prod.snd := by
  unfold toList
  rw [hShows.ordered.handles_eq, filterMap_map]
  have hItems : ∀ entry ∈ view, (seq.get? ∘ Prod.fst) entry = (some ∘ Prod.snd) entry :=
    fun entry hEntry => hShows.items entry hEntry
  rw [filterMap_congr hItems, filterMap_eq_map]

/- The handles that are shown are not new ones. -/
theorem ne_size (hShows : Shows seq view) {entry : Handle × α} (hEntry : entry ∈ view) :
    entry.1 ≠ seq.links.size :=
  Nat.ne_of_lt (hShows.ordered.lt_size (mem_map_of_mem hEntry))

variable {before after : List (Handle × α)} {h : Handle} {x : α}

/- A new element between those before a place and those after it. -/
theorem insertBetween (hShows : Shows seq (before ++ after)) (item : α) :
    Shows
      (seq.insertBetween (before.map Prod.fst).getLast?
        (after.map Prod.fst).head? item).2
      (before ++ (seq.links.size, item) :: after) := by
  have hOrdered : Ordered seq (before.map Prod.fst ++ after.map Prod.fst) := by
    simpa using hShows.ordered
  have hFresh : seq.links.size ∉ before.map Prod.fst ++ after.map Prod.fst :=
    fun hMember => Nat.lt_irrefl _ (hOrdered.lt_size hMember)
  have hPrev : (before.map Prod.fst).getLast? ≠ some seq.links.size := fun hLast =>
    hFresh (mem_append_left _ (mem_of_getLast? hLast))
  have hNext : (after.map Prod.fst).head? ≠ some seq.links.size := fun hHead =>
    hFresh (mem_append_right _ (mem_of_head? hHead))
  refine ⟨?_, ?_⟩
  · simpa using hOrdered.insertBetween item
  · intro entry hEntry
    rw [mem_append, mem_cons] at hEntry
    rcases hEntry with hBefore | hNew | hAfter
    · have hOld := mem_append_left after hBefore
      rw [get?_insertBetween_old seq _ _ item (hShows.ne_size hOld)]
      exact hShows.items entry hOld
    · subst hNew
      exact get?_insertBetween_new item hPrev hNext
    · have hOld := mem_append_right before hAfter
      rw [get?_insertBetween_old seq _ _ item (hShows.ne_size hOld)]
      exact hShows.items entry hOld

theorem insertBefore (hShows : Shows seq (before ++ (h, x) :: after)) (item : α) :
    Shows (seq.insertBefore h item).2
      (before ++ (seq.links.size, item) :: (h, x) :: after) := by
  have hOrdered : Ordered seq (before.map Prod.fst ++ h :: after.map Prod.fst) := by
    simpa using hShows.ordered
  unfold Sequence.insertBefore
  rw [hOrdered.prev?_eq]
  exact hShows.insertBetween item

theorem insertAfter (hShows : Shows seq (before ++ (h, x) :: after)) (item : α) :
    Shows (seq.insertAfter h item).2
      (before ++ (h, x) :: (seq.links.size, item) :: after) := by
  have hOrdered : Ordered seq (before.map Prod.fst ++ h :: after.map Prod.fst) := by
    simpa using hShows.ordered
  have hSplit : Shows seq ((before ++ [(h, x)]) ++ after) := by
    simpa using hShows
  have hInserted := hSplit.insertBetween item
  rw [map_append, map_singleton, getLast?_concat] at hInserted
  unfold Sequence.insertAfter
  rw [hOrdered.next?_eq]
  simpa using hInserted

theorem remove (hShows : Shows seq (before ++ (h, x) :: after)) :
    Shows (seq.remove h) (before ++ after) := by
  have hOrdered : Ordered seq (before.map Prod.fst ++ h :: after.map Prod.fst) := by
    simpa using hShows.ordered
  refine ⟨by simpa using hOrdered.remove, ?_⟩
  intro entry hEntry
  rw [get?_remove]
  apply hShows.items
  rcases mem_append.mp hEntry with hBefore | hAfter
  · exact mem_append_left _ hBefore
  · exact mem_append_right _ (mem_cons_of_mem _ hAfter)

theorem replace (hShows : Shows seq view) (h : Handle) (item : α) :
    Shows (seq.replace h item)
      (view.map fun entry => if h = entry.1 then (h, item) else entry) := by
  refine ⟨?_, ?_⟩
  · have hHandles :
        (view.map fun entry => if h = entry.1 then (h, item) else entry).map
          Prod.fst = view.map Prod.fst := by
      rw [map_map]
      apply map_congr_left
      intro entry _
      simp only [Function.comp]
      split
      · rename_i hSame
        exact hSame
      · rfl
    rw [hHandles]
    exact hShows.ordered.replace h item
  · intro entry hEntry
    obtain ⟨old, hOld, hNew⟩ := mem_map.mp hEntry
    have hItem := hShows.items old hOld
    subst hNew
    rw [get?_replace]
    split
    · rename_i hSame
      simp [hSame, hItem]
    · simp [hItem]

theorem replaceAt (hShows : Shows seq (before ++ (h, x) :: after)) (item : α) :
    Shows (seq.replace h item) (before ++ (h, item) :: after) := by
  have hNodup := hShows.ordered.nodup
  simp only [map_append, map_cons, nodup_append, nodup_cons]
    at hNodup
  refine ⟨by simpa using hShows.ordered.replace h item, ?_⟩
  intro entry hEntry
  rw [get?_replace]
  rw [mem_append, mem_cons] at hEntry
  rcases hEntry with hBefore | hHere | hAfter
  · have hOther : ¬ h = entry.1 := fun hSame =>
      hNodup.2.2 entry.1 (mem_map_of_mem hBefore) h (mem_cons_self ..)
        hSame.symm
    rw [if_neg hOther]
    exact hShows.items entry (mem_append_left _ hBefore)
  · subst hHere
    rw [if_pos rfl, hShows.items (h, x) (by simp)]
    rfl
  · have hOther : ¬ h = entry.1 := fun hSame =>
      hNodup.2.1.1 (hSame ▸ mem_map_of_mem hAfter)
    rw [if_neg hOther]
    exact hShows.items entry
      (mem_append_right _ (mem_cons_of_mem _ hAfter))

end Shows

end Sequence

-- The edit of an element

open Sequence

/- Instructions with new handles, one after another. -/
def numbered (fresh : Handle) : List Instruction → List (Handle × Node)
  | [] => []
  | i :: rest => (fresh, .insn i) :: numbered (fresh + 1) rest

theorem numbered_snd (fresh : Handle) (instructions : List Instruction) :
    (numbered fresh instructions).map Prod.snd = instructions.map .insn := by
  induction instructions generalizing fresh with
  | nil => rfl
  | cons i rest ih => simp [numbered, ih]

/- What an edit makes of an element. -/
def Fate.view (fate : Fate) (h : Handle) (node : Node) : List (Handle × Node) :=
  match fate with
  | .kept => [(h, node)]
  | .replaced other => [(h, other)]
  | .removed => []

/- An element that is not taken out. -/
def Edit.Stands (edit : Edit) : Prop :=
  .remove ∉ edit.changes

/- Nothing is done at an element once it is taken out. -/
def Edit.Tidy (edit : Edit) : Prop :=
  .remove ∉ edit.changes.tail

theorem Edit.Stands.tidy {edit : Edit} (hStands : edit.Stands) : edit.Tidy :=
  fun hMember => hStands (mem_of_mem_tail hMember)

/- What comes to stand in the place of an element, with handles. -/
def Edit.view (edit : Edit) (fresh h : Handle) (node : Node) : List (Handle × Node) :=
  numbered fresh edit.before ++ edit.fate.view h node

section Applying

variable {code : Sequence Node} {before after : List (Handle × Node)}
variable {h : Handle} {node : Node} {α : Type}

theorem Sequence.size_insertBefore (code : Sequence Node) (h : Handle) (node : Node) :
    (code.insertBefore h node).2.links.size = code.links.size + 1 :=
  size_insertBetween code _ _ node

theorem Sequence.size_replace (seq : Sequence α) (h : Handle) (item : α) :
    (seq.replace h item).links.size = seq.links.size := by
  simp [replace, modifyLink]

theorem Sequence.size_remove (seq : Sequence α) (h : Handle) :
    (seq.remove h).links.size = seq.links.size := by
  unfold remove
  split
  · cases seq.prev? h <;> cases seq.next? h <;>
      simp [setNext, setPrev, modifyLink]
  · rfl

theorem numbered_concat (fresh : Handle) (block : List Instruction) (i : Instruction) :
    numbered fresh (block ++ [i]) =
      numbered fresh block ++ [(fresh + block.length, .insn i)] := by
  induction block generalizing fresh with
  | nil => rfl
  | cons first rest ih => simp [numbered, ih, Nat.add_assoc, Nat.add_comm 1]

/- Each new instruction gets a handle, and no handle is given up. -/
theorem Edit.size_apply (edit : Edit) (h : Handle) (code : Sequence Node) :
    (edit.apply h code).links.size = code.links.size + edit.before.length := by
  obtain ⟨changes⟩ := edit
  induction changes with
  | nil => rfl
  | cons change rest ih =>
    cases change with
    | insert i =>
      have hMore : (before ⟨.insert i :: rest⟩).length = (before ⟨rest⟩).length + 1 :=
        length_append
      rw [hMore, ← Nat.add_assoc, ← ih]
      exact size_insertBefore ..
    | replace other => exact (size_replace ..).trans ih
    | remove => exact (size_remove ..).trans ih

/- An element that stands is there as it was, or another in its place. -/
theorem Edit.Stands.view_fate {edit : Edit} (hStands : edit.Stands) (h : Handle) (node : Node) :
    ∃ current, edit.fate.view h node = [(h, current)] := by
  obtain ⟨changes⟩ := edit
  induction changes with
  | nil => exact ⟨node, rfl⟩
  | cons change rest ih =>
    cases change with
    | insert i => exact ih (not_mem_of_not_mem_cons hStands)
    | replace other => exact ⟨other, rfl⟩
    | remove => exact absurd mem_cons_self hStands

/- An edit is made in the place of its element. -/
theorem Sequence.Shows.apply {edit : Edit}
    (hShows : Shows code (before ++ (h, node) :: after)) (hTidy : edit.Tidy) :
    Shows (edit.apply h code)
      (before ++ edit.view code.links.size h node ++ after) := by
  obtain ⟨changes⟩ := edit
  induction changes with
  | nil => simpa [Edit.apply, Edit.view, Edit.before, numbered, Edit.fate, Fate.view] using hShows
  | cons change rest ih =>
    -- Before the last change the element stands, at the end of what it has become.
    have hStands : Edit.Stands ⟨rest⟩ := hTidy
    obtain ⟨current, hCurrent⟩ := hStands.view_fate h node
    have hRest := ih hStands.tidy
    rw [Edit.view, hCurrent, ← append_assoc, append_assoc, singleton_append] at hRest
    cases change with
    | insert i =>
      have hMade := hRest.insertBefore (.insn i)
      rw [Edit.size_apply] at hMade
      have hView : Edit.view ⟨.insert i :: rest⟩ code.links.size h node =
          numbered code.links.size (Edit.before ⟨rest⟩) ++
            [(code.links.size + (Edit.before ⟨rest⟩).length, .insn i), (h, current)] := by
        change numbered _ (Edit.before ⟨rest⟩ ++ [i]) ++ Fate.view (Edit.fate ⟨rest⟩) h node = _
        rw [numbered_concat, hCurrent, append_assoc]
        rfl
      rw [hView]
      simp only [append_assoc] at hMade ⊢
      exact hMade
    | replace other =>
      have hMade := hRest.replaceAt other
      rw [← singleton_append, ← append_assoc, append_assoc before] at hMade
      exact hMade
    | remove =>
      have hMade := hRest.remove
      rw [← append_nil (numbered _ _)] at hMade
      exact hMade

/- What is emitted is put before the element, which stands if it did. -/
theorem Edit.apply_emit (edit : Edit) (h : Handle) (code : Sequence Node)
    (block : List Instruction) :
    (edit.emit block).apply h code =
      block.foldl (fun code i => (code.insertBefore h (.insn i)).2) (edit.apply h code) := by
  induction block generalizing edit with
  | nil => rfl
  | cons i rest ih => exact ih (edit.add (.insert i))

theorem Edit.Stands.emit {edit : Edit} (hStands : edit.Stands) (block : List Instruction) :
    (edit.emit block).Stands := by
  induction block generalizing edit with
  | nil => exact hStands
  | cons i rest ih => exact ih (not_mem_cons_of_ne_of_not_mem nofun hStands)

theorem Edit.stands_none : none.Stands :=
  not_mem_nil

/- New instructions stand right before their element. -/
theorem Sequence.Shows.insertAllBefore
    (hShows : Shows code (before ++ (h, node) :: after))
    (instructions : List Instruction) :
    Shows
      (instructions.foldl
        (fun code i => (code.insertBefore h (.insn i)).2) code)
      (before ++ numbered code.links.size instructions ++ (h, node) :: after) := by
  have hApplied := hShows.apply (Edit.stands_none.emit instructions).tidy
  rw [Edit.apply_emit, Edit.view, Edit.before_emit, Edit.fate_emit] at hApplied
  simp only [append_assoc] at hApplied ⊢
  exact hApplied

-- Seeding

theorem Sequence.size_insertAfter (code : Sequence Node) (h : Handle) (node : Node) :
    (code.insertAfter h node).2.links.size = code.links.size + 1 :=
  size_insertBetween code _ _ node

theorem Sequence.Shows.insertAllAfter (hShows : Shows code (before ++ (h, node) :: after))
    (instructions : List Instruction) :
    Shows
      (instructions.foldl
        (fun (h, code) i => code.insertAfter h (.insn i)) (h, code)).2
      (before ++ (h, node) :: numbered code.links.size instructions ++ after) := by
  induction instructions generalizing code before h node with
  | nil => simpa [numbered] using hShows
  | cons i rest ih =>
    have hFirst := hShows.insertAfter (.insn i)
    have hSplit : Shows (code.insertAfter h (.insn i)).2
        ((before ++ [(h, node)]) ++ (code.links.size, .insn i) :: after) := by
      simpa using hFirst
    have hRest := ih hSplit
    rw [size_insertAfter] at hRest
    have hPair : code.insertAfter h (.insn i) =
        (code.links.size, (code.insertAfter h (.insn i)).2) := rfl
    rw [foldl_cons]
    simp only
    rw [hPair]
    simpa [numbered] using hRest

/- Seeding puts elements in and leaves the others. -/
theorem Sequence.Shows.insertAt {view : List (Handle × Node)} (hShows : Shows code view)
    {place : Option Handle} (hPlace : ∀ h, place = some h → h ∈ view.map Prod.fst)
    (block : List Instruction) :
    ∃ seeded, Shows (Simulation.insertAt place code block) seeded ∧ view.Sublist seeded := by
  cases place with
  | some h =>
    obtain ⟨entry, hEntry, hHandle⟩ := mem_map.mp (hPlace h rfl)
    obtain ⟨before, after, rfl⟩ := append_of_mem hEntry
    obtain ⟨handle, node⟩ := entry
    cases hHandle
    refine ⟨_, hShows.insertAllAfter block, ?_⟩
    rw [append_assoc]
    apply List.Sublist.append_left
    apply List.Sublist.cons_cons
    exact sublist_append_right _ _
  | none =>
    unfold Simulation.insertAt
    cases view with
    | nil =>
      have hFirst : code.first = none := hShows.ordered.first
      rw [hFirst]
      exact ⟨[], hShows, List.Sublist.refl _⟩
    | cons entry rest =>
      have hFirst : code.first = some entry.1 := hShows.ordered.first
      have hStart : Shows code ([] ++ (entry.1, entry.2) :: rest) := hShows
      rw [hFirst]
      refine ⟨_, hStart.insertAllBefore block, ?_⟩
      exact sublist_append_right _ _

end Applying

end Unboxing
