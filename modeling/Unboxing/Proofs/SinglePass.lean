import Unboxing.Proofs.Output
import Unboxing.Proofs.SequenceRefinement

/-
  The pass over a body goes along the links of code that changes on
  the way. It looks at the elements that the body has at the start,
  each once and in order, and at no other. Nothing is put next to an
  element that was removed, and what is left of the elements in the
  end stands in its order.

  Main declarations:
    * `Sequence.Made`
    * `Sequence.Made.in_order`
    * `Simulation.State.now`
    * `Simulation.single_pass`
-/

namespace Unboxing

open List

namespace Sequence

variable {α : Type} {start seq : Sequence α}

/- What permitted operations make of a sequence, one after another. -/
inductive Made (start : Sequence α) : Sequence α → Prop where
  | start : Made start start
  | perform
      {seq : Sequence α}
      (hMade : Made start seq)
      (op : Operation α)
      (hPermitted : op.Permitted seq) :
      Made start (op.perform seq)

theorem Made.trans {last : Sequence α} (hFirst : Made start seq) (hLast : Made seq last) :
    Made start last := by
  induction hLast with
  | start => exact hFirst
  | perform _ op hPermitted ih => exact ih.perform op hPermitted

theorem edited_ofList (items : List α) : Edited (ofList items) :=
  List.foldlRecOn items _ (motive := Edited) .empty fun _ hEdited item _ =>
    hEdited.perform (.push item) trivial

namespace Operation

theorem size_le_perform (op : Operation α) (seq : Sequence α) :
    seq.links.size ≤ (op.perform seq).links.size := by
  cases op with
  | push item | insertBefore h item | insertAfter h item =>
    exact Nat.le_trans (Nat.le_succ _) (Nat.le_of_eq (size_insertBetween ..).symm)
  | remove h => exact Nat.le_of_eq (size_remove seq h).symm
  | replace h item | alter h change => exact Nat.le_of_eq Array.size_modify.symm

/- Handles that were given out before keep their order, or are taken out. -/
theorem in_order {view : List (Handle × α)} (hWhole : Whole seq view) (op : Operation α)
    (hPermitted : op.Permitted seq) {limit : Nat} (hLimit : limit ≤ seq.links.size) :
    ((op.perform seq).handles.filter fun h => decide (h < limit)).Sublist
      (seq.handles.filter fun h => decide (h < limit)) := by
  have hNew : decide (seq.links.size < limit) = false := decide_eq_false (Nat.not_lt.mpr hLimit)
  have hPerformed := (whole_perform hWhole op hPermitted).1
  rw [hPerformed.shows.ordered.handles_eq, hWhole.shows.ordered.handles_eq]
  cases op with
  | push item => simp [onList, hNew]
  | insertBefore h item =>
    obtain ⟨before, x, after, rfl⟩ := hWhole.split_of_live hPermitted
    rw [onList_insertBefore hWhole]
    simp [hNew]
  | insertAfter h item =>
    obtain ⟨before, x, after, rfl⟩ := hWhole.split_of_live hPermitted
    rw [onList_insertAfter hWhole]
    simp [filter_cons, hNew]
  | remove h => exact ((eraseIdx_sublist ..).map _).filter _
  | replace h item =>
    cases hLive : seq.isLive h with
    | false => rw [onList_of_dead hWhole _ rfl hLive]
    | true =>
      obtain ⟨before, x, after, rfl⟩ := hWhole.split_of_live hLive
      rw [onList_replace hWhole]
      simp
  | alter h change =>
    cases hLive : seq.isLive h with
    | false => rw [onList_of_dead hWhole _ rfl hLive]
    | true =>
      obtain ⟨before, x, after, rfl⟩ := hWhole.split_of_live hLive
      rw [onList_alter hWhole]
      simp

end Operation

theorem Made.in_order (hStart : Edited start) (hMade : Made start seq) {limit : Nat}
    (hLimit : limit ≤ start.links.size) :
    Edited seq ∧ limit ≤ seq.links.size ∧
      (seq.handles.filter fun h => decide (h < limit)).Sublist
        (start.handles.filter fun h => decide (h < limit)) := by
  induction hMade with
  | start => exact ⟨hStart, hLimit, List.Sublist.refl _⟩
  | perform _ op hPermitted ih =>
    obtain ⟨hEdited, hSize, hOrder⟩ := ih
    obtain ⟨view, hWhole⟩ := hEdited.whole
    exact ⟨hEdited.perform op hPermitted, Nat.le_trans hSize (op.size_le_perform _),
      (op.in_order hWhole hPermitted hSize).trans hOrder⟩

end Sequence

open Sequence

-- The edits of a pass

section Edits

variable {code : Sequence Node} {h : Handle}

/- An element that is not taken out stands in the code. -/
theorem Sequence.Shows.live_apply {before after : List (Handle × Node)} {node : Node}
    (hShows : Shows code (before ++ (h, node) :: after)) {edit : Edit}
    (hStands : edit.Stands) :
    (edit.apply h code).isLive h = true := by
  obtain ⟨current, hCurrent⟩ := hStands.view_fate h node
  exact (hShows.apply hStands.tidy).ordered.live h (by simp [Edit.view, hCurrent])

/- Every change is made while its element stands. -/
theorem Edit.made {before after : List (Handle × Node)} {node : Node}
    (hShows : Shows code (before ++ (h, node) :: after)) {edit : Edit}
    (hTidy : edit.Tidy) :
    Made code (edit.apply h code) := by
  obtain ⟨changes⟩ := edit
  induction changes with
  | nil => exact .start
  | cons change rest ih =>
    have hStands : Edit.Stands ⟨rest⟩ := hTidy
    have hMade := ih hStands.tidy
    cases change with
    | insert i => exact hMade.perform (.insertBefore h (.insn i)) (hShows.live_apply hStands)
    | replace other => exact hMade.perform (.replace h other) trivial
    | remove => exact hMade.perform (.remove h) trivial

/- Each new element stands when the next one is put after it. -/
theorem made_after {before after : List (Handle × Node)} {node : Node}
    (hShows : Shows code (before ++ (h, node) :: after)) (block : List Instruction) :
    Made code (Simulation.insertAt (some h) code block) := by
  induction block generalizing code before h node with
  | nil => exact .start
  | cons i block ih =>
    have hNext := hShows.insertAfter (.insn i)
    rw [append_cons] at hNext
    have hFirst := Made.start.perform (.insertAfter h (.insn i))
      (hShows.ordered.live h (by simp))
    exact hFirst.trans (ih hNext)

theorem made_insertAt {view : List (Handle × Node)} (hShows : Shows code view)
    {place : Option Handle} (hPlace : ∀ h, place = some h → h ∈ view.map Prod.fst)
    (block : List Instruction) :
    Made code (Simulation.insertAt place code block) := by
  cases place with
  | some h =>
    rcases mem_map.mp (hPlace h rfl) with ⟨⟨handle, node⟩, hEntry, rfl⟩
    rcases append_of_mem hEntry with ⟨before, after, rfl⟩
    exact made_after hShows block
  | none =>
    have hFirst := hShows.ordered.first
    unfold Simulation.insertAt
    cases hStart : code.first with
    | none => exact .start
    | some first =>
      rw [hStart] at hFirst
      rcases mem_map.mp (mem_of_getElem? hFirst.symm) with ⟨⟨handle, node⟩, hEntry, rfl⟩
      rcases append_of_mem hEntry with ⟨before, after, rfl⟩
      have hMade := Edit.made hShows (Edit.stands_none.emit block).tidy
      rwa [Edit.apply_emit] at hMade

theorem made_withFrames (code : Sequence Node) (frames : List (Handle × FrameChange)) :
    Made code (Simulation.withFrames code frames) :=
  List.foldlRecOn frames _ (motive := Made code) .start fun _ hMade frame _ =>
    hMade.perform (.replace frame.1 (.frame frame.2)) trivial

end Edits

namespace Simulation

variable {ctx : Context} {i : Nat} {st : State}

-- The pass as a whole

/- The code at this moment, with the changes at the element that is looked at. -/
def State.now (st : State) : Sequence Node :=
  st.edit.apply st.here st.code

/-
  What the pass over a body does. It is a pass along the links, for which
  there are always steps enough, and looks at the elements of the body in
  order, until one fails. What it looks at is the element that the body
  has there. New code, another element or none is there at once, and all
  this is done while the element stands, in steps that fail, too. Seeding
  and frames are permitted when their turn comes. And in the body that
  comes out the elements that are left stand in order.
-/
structure SinglePass (ctx : Context) : Prop where
  run : ∀ st, run ctx st =
    if ctx.body.handlers = [] then
      (walk ctx.body.nodes.length (State.start ctx).code.first >>= fun _ => finish)
        ctx (State.start ctx)
    else
      .error .unsupportedHandlers st
  visits : ∀ extra,
    walk (ctx.body.nodes.length + extra) (State.start ctx).code.first ctx (State.start ctx) =
      (List.range ctx.body.nodes.length).forM visit ctx (State.start ctx)
  elements : ∀ i node st, ctx.body.nodes[i]? = some node →
    stateAfter ctx i = some st → st.code.get? i = some node ∧
      visit i ctx st =
        (do
          step node
          modify fun st : State => { st with scratch := 0 }
          applyEdit
          checkStack) ctx { st with here := i }
  emits : ∀ i st, (ended (emit i ctx st)).now =
    (st.now.insertBefore st.here (.insn i)).2
  replaces : ∀ node st, (ended (replaceNode node ctx st)).now =
    st.now.replace st.here node
  removes : ∀ st, (ended (removeNode ctx st)).now = st.now.remove st.here
  edits : ∀ i node st, ctx.body.nodes[i]? = some node → stateAfter ctx i = some st →
    ∀ later change earlier,
      (ended (step node ctx { st with here := i })).edit.changes =
        later ++ change :: earlier →
      ((Edit.mk earlier).apply i st.code).isLive i = true
  settled : ∀ i node st mid, ctx.body.nodes[i]? = some node →
    stateAfter ctx i = some st → step node ctx { st with here := i } = .ok () mid →
      mid.settled.code = mid.now ∧ Made st.code mid.settled.code
  seeding : ∀ last seeded, stateAfter ctx ctx.body.nodes.length = some last →
    seed ctx last = .ok () seeded → Made last.code seeded.code
  output : ∀ st out final, Simulation.run ctx st = .ok out final →
    (out.modified = false → out.body = ctx.body) ∧
      (out.modified = true →
        let code := withFrames final.code final.pendingFrames
        out.body.nodes = code.toList ∧ Made (State.start ctx).code code ∧
          (code.handles.filter fun h => decide (h < ctx.body.nodes.length)).Sublist
            (List.range ctx.body.nodes.length))

section

variable {node : Node} (hNode : ctx.body.nodes[i]? = some node)
variable (hState : stateAfter ctx i = some st)
include hNode hState

theorem between_element : Between ctx i st :=
  between_stateAfter (Nat.le_of_lt (List.getElem?_eq_some_iff.mp hNode).1) hState

theorem shows_element :
    Shows st.code ((List.range i).flatMap (blockView ctx) ++
      (i, node) :: restView ctx (i + 1)) := by
  rw [← restView_cons hNode]
  exact (between_element hNode hState).code

/- The element stands before each change at it, also in a step that fails. -/
theorem live_before_change {later earlier : List Change} {change : Change}
    (hChanges : (ended (step node ctx { st with here := i })).edit.changes =
      later ++ change :: earlier) :
    ((Edit.mk earlier).apply i st.code).isLive i = true := by
  have hBetween := between_element hNode hState
  have hStart : st.edit.Stands := hBetween.edit ▸ Edit.stands_none
  have hTidy : (ended (step node ctx { st with here := i })).edit.Tidy :=
    (closes_step node).tidy ctx hStart
  rw [Edit.Tidy, hChanges] at hTidy
  refine (shows_element hNode hState).live_apply fun hMember => hTidy ?_
  cases later <;> simp [hMember]

theorem made_edit {mid : State}
    (hStep : step node ctx { st with here := i } = .ok () mid) :
    Made st.code mid.settled.code := by
  have hBetween := between_element hNode hState
  have hPast : Past ctx.plan node { st with here := i } mid :=
    step_ok (hBetween.placed.of_same rfl rfl) hStep
  have hCode : mid.code = st.code := hPast.code
  have hHere : mid.here = i := hPast.here
  have hTidy : mid.edit.Tidy := hPast.tidy (hBetween.edit ▸ Edit.stands_none)
  have hSettled : mid.settled.code = mid.edit.apply mid.here mid.code := rfl
  rw [hSettled, hHere, hCode]
  exact Edit.made (shows_element hNode hState) hTidy

theorem visit_element :
    st.code.get? i = some node ∧
      visit i ctx st =
        (do
          step node
          modify fun st : State => { st with scratch := 0 }
          applyEdit
          checkStack) ctx { st with here := i } := by
  have hFound := (shows_element hNode hState).items (i, node) (by simp)
  refine ⟨hFound, ?_⟩
  unfold visit
  rw [bind_apply, modify_apply]
  simp only
  rw [get_bind]
  simp only [hFound]

end

theorem made_seed {last seeded : State}
    (hLast : stateAfter ctx ctx.body.nodes.length = some last)
    (hSeed : seed ctx last = .ok () seeded) :
    Made last.code seeded.code := by
  have hBetween := between_stateAfter (Nat.le_refl _) hLast
  rcases seed_cases hSeed with rfl | ⟨place, depth, hPlace, rfl⟩
  · exact .start
  · refine made_insertAt hBetween.shows_blocks ?_ _
    rintro h rfl
    rcases hPlace with hFound | ⟨_, hNone, _⟩
    · exact hBetween.seeding h depth hFound
    · cases hNone

theorem made_stateAfter (hInside : i ≤ ctx.body.nodes.length)
    (hState : stateAfter ctx i = some st) :
    Made (State.start ctx).code st.code :=
  stateAfter_induct (motive := fun _ st => Made (State.start ctx).code st.code) .start
    (fun _ _ _ _ hNode hState hVisited hMade => hMade.trans (made_edit hNode hState hVisited.step))
    hInside hState

theorem single_pass (ctx : Context) : SinglePass ctx where
  run := by
    intro st
    rw [run_apply, bind_apply, bind_apply]
    have hWalk := walk_start ctx 0
    rw [Nat.add_zero] at hWalk
    rw [hWalk]
    simp only [List.isEmpty_iff]
  visits := walk_start ctx
  elements _ _ _ := visit_element
  emits _ _ := rfl
  replaces _ _ := rfl
  removes _ := rfl
  edits _ _ _ hNode hState _ _ _ := live_before_change hNode hState
  settled _ _ _ _ hNode hState hStep := ⟨rfl, made_edit hNode hState hStep⟩
  seeding _ _ := made_seed
  output := by
    intro st out final hRun
    rcases run_ok hRun with ⟨_, last, hLast, hFinish⟩
    rcases finish_ok hFinish with ⟨seeded, hSeed, hModified, hOut⟩
    rcases hOut with ⟨hSame, hBody⟩ | ⟨hChanged, vars, _, rfl, hBody⟩
    · rw [hModified, hSame]
      refine ⟨fun _ => hBody, fun hTrue => ?_⟩
      cases hTrue
    · rw [hModified, hChanged, hBody]
      refine ⟨fun hFalse => absurd hFalse.symm Bool.false_ne_true, fun _ => ?_⟩
      have hListed := listed_ofList ctx.body.nodes
      have hMade := ((made_stateAfter (Nat.le_refl _) hLast).trans (made_seed hLast hSeed)).trans
        (made_withFrames seeded.code seeded.pendingFrames)
      have hOrder := (hMade.in_order (edited_ofList ctx.body.nodes)
        (Nat.le_of_eq hListed.size.symm)).2.2
      refine ⟨nodes_remade _ _ _, hMade, hOrder.trans ?_⟩
      rw [hListed.ordered.handles_eq]
      exact filter_sublist

end Simulation

end Unboxing
