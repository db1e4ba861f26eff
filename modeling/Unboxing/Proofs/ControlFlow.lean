import Unboxing.Proofs.BranchEffects

/-
  Which elements of a body are gone past as code that control
  comes to. The body is gone through once, in order, so a label
  counts as one that control comes to if the code before runs
  into it, a branch before jumps to it, or a frame describes it.
  A label that only later branches jump to, and that no frame
  describes, is taken for one that control never comes to.

  Main declarations:
    * `Flows`
    * `Entered`
    * `Simulation.live_of_entered`
    * `Simulation.sound_stateAfter`
    * `Method.reachable_code_unboxed`
    * `Method.backward_code_left`
-/

namespace Unboxing

open List

-- Control flow

/- Whether control can go on from an element to the next one. -/
def Node.fallsThrough : Node → Bool
  | .branch b => b.fallsThrough
  | _ => true

/- A branch of a body can jump to a label of it. -/
def Jumps (nodes : List Node) (i j : Nat) : Prop :=
  ∃ b l, nodes[i]? = some (.branch b) ∧ l ∈ b.targets ∧ nodes[j]? = some (.label l)

/- Control can go from an element of a body to another one. -/
inductive Flows (nodes : List Node) : Nat → Nat → Prop where
  | next
      {i : Nat} {node : Node}
      (hNode : nodes[i]? = some node)
      (hFalls : node.fallsThrough = true) :
      Flows nodes i (i + 1)
  | jump
      {i j : Nat}
      (hJumps : Jumps nodes i j) :
      Flows nodes i j

/- Control can come to an element from the first one. -/
def IsReachable (nodes : List Node) (i : Nat) : Prop :=
  Relation.ReflTransGen (Flows nodes) 0 i

/- Every label of a body has one place. -/
def PlacedOnce (nodes : List Node) : Prop :=
  ∀ (i j : Nat) (l : Label), nodes[i]? = some (.label l) → nodes[j]? = some (.label l) → i = j

/-
  Control can come to an element without jumping back, from the
  first one or from a label that a frame describes.
-/
inductive Entered (nodes : List Node) (frames : SourceFrames) : Nat → Prop where
  | start : Entered nodes frames 0
  | next
      {i : Nat} {node : Node}
      (hEntered : Entered nodes frames i)
      (hNode : nodes[i]? = some node)
      (hFalls : node.fallsThrough = true) :
      Entered nodes frames (i + 1)
  | jump
      {i j : Nat}
      (hEntered : Entered nodes frames i)
      (hJumps : Jumps nodes i j)
      (hForward : i < j) :
      Entered nodes frames j
  | framed
      {j : Nat} {l : Label}
      (hLabel : nodes[j]? = some (.label l))
      (hFrame : frames.frame? l ≠ none) :
      Entered nodes frames j

/- Control comes only to elements that it comes to without jumping back. -/
theorem Entered.of_isReachable {nodes : List Node} {frames : SourceFrames}
    (hBack : ∀ i j, IsReachable nodes i → Jumps nodes i j → j ≤ i → Entered nodes frames j)
    {i : Nat} (hReachable : IsReachable nodes i) :
    Entered nodes frames i := by
  induction hReachable with
  | refl => exact .start
  | @tail i j hBefore hLast ih =>
    cases hLast with
    | next hNode hFalls => exact ih.next hNode hFalls
    | jump hJumps =>
      rcases Nat.lt_or_ge i j with hForward | hBackward
      · exact ih.jump hJumps hForward
      · exact hBack i j hBefore hJumps hBackward

namespace Simulation

variable {ctx : Context} {plan : Array Nat} {st after : State}
variable {l target : Label} {before between last : State} {labels : List Label}
variable {test : RefTest} {node : Node} {i : Nat} {found : Join} {b : Branch}

-- Branches

/- Something is agreed at a label. -/
def State.Knows (st : State) (l : Label) : Prop :=
  st.agreed.lookup l ≠ none

theorem State.knows_of_lookup {join : Join} (hJoin : st.agreed.lookup l = some join) :
    st.Knows l := by
  rw [Knows, hJoin]
  exact Option.some_ne_none join

/- Where what is agreed at a label comes from: a first path, or its frame. -/
inductive Origin (ctx : Context) (plan : Array Nat) (l : Label) : Join → Prop where
  | path
      {st : State}
      (operands : Nat)
      (hPlaced : st.Placed plan) :
      Origin ctx plan l (freshJoin ctx st l operands)
  | frame
      {frame : Frame} {locals : SlotMap}
      (stack : OperandStack)
      (hFrame : ctx.frames.frame? l = some frame)
      (hLocals : SlotMap.Placed plan locals) :
      Origin ctx plan l
        ⟨(declaredStack ctx.reg frame stack).save,
          (declaredLocals ctx.reg frame locals).save⟩

/- Some labels are known now, and no others that were not known before. -/
structure Makes (ctx : Context) (plan : Array Nat) (labels : List Label)
    (before after : State) : Prop where
  kept : ∀ l, before.Knows l → after.Knows l
  made : ∀ l ∈ labels, after.Knows l
  others : ∀ l join, after.agreed.lookup l = some join →
    before.agreed.lookup l = some join ∨ l ∈ labels ∧ Origin ctx plan l join
  reachable : after.reachable = before.reachable

theorem Held.makes (hHeld : Held st after) : Makes ctx plan [] st after where
  kept := fun l hKnows => by rwa [State.Knows, hHeld.agreed]
  made := nofun
  others := fun l join hJoin => .inl (hHeld.agreed ▸ hJoin)
  reachable := hHeld.reachable

theorem Makes.trans {first second : List Label}
    (hFirst : Makes ctx plan first before between)
    (hSecond : Makes ctx plan second between last) :
    Makes ctx plan (first ++ second) before last where
  kept := fun l hKnows => hSecond.kept l (hFirst.kept l hKnows)
  made := forall_mem_append.mpr
    ⟨fun l hMember => hSecond.kept l (hFirst.made l hMember), hSecond.made⟩
  others := by
    intro l join hJoin
    rcases hSecond.others l join hJoin with hBetween | ⟨hLate, hOrigin⟩
    · rcases hFirst.others l join hBetween with hBefore | ⟨hEarly, hOrigin⟩
      · exact .inl hBefore
      · exact .inr ⟨mem_append_left _ hEarly, hOrigin⟩
    · exact .inr ⟨mem_append_right _ hLate, hOrigin⟩
  reachable := hSecond.reachable.trans hFirst.reachable

theorem Makes.of_held (hHeld : Held before between)
    (hMakes : Makes ctx plan labels between last) :
    Makes ctx plan labels before last :=
  hHeld.makes.trans hMakes

theorem Makes.held (hMakes : Makes ctx plan labels before between)
    (hHeld : Held between last) :
    Makes ctx plan labels before last := by
  have hBoth := hMakes.trans hHeld.makes
  rwa [append_nil] at hBoth

theorem Reconciled.makes {operands : Nat} {joined turned : State} (hPlaced : st.Placed plan)
    (hReconciled : Reconciled ctx plan l operands found st joined turned after)
    (hSettled : Settled l found st after) :
    Makes ctx plan [l] st after := by
  refine ⟨?_, ?_, ?_, hSettled.reachable⟩
  · intro other hKnows
    rcases Option.ne_none_iff_exists'.mp hKnows with ⟨join, hJoin⟩
    exact State.knows_of_lookup (hSettled.kept other join hJoin)
  · intro other hSame
    rw [mem_singleton.mp hSame]
    exact State.knows_of_lookup hReconciled.agreed
  · intro other join hJoin
    rcases hSettled.others other join hJoin with hBefore | ⟨rfl, rfl⟩
    · exact .inl hBefore
    · rcases (join_ok hReconciled.joins).2.2.2 with hKnown | ⟨_, hFresh⟩
      · exact .inl hKnown
      · refine .inr ⟨mem_singleton_self _, ?_⟩
        rw [hFresh]
        exact .path operands hPlaced

theorem Visits.makes {operands : Nat} (hPlaced : st.Placed plan)
    (hVisits : Visits ctx plan operands labels st after) :
    Makes ctx plan labels st after := by
  induction hVisits with
  | nil => exact Held.makes ⟨rfl, rfl⟩
  | cons hReconciled hSettled _ ih =>
    exact (hReconciled.makes hPlaced hSettled).trans (ih hReconciled.placed)

theorem Departs.makes {other : Branch} {readied turned : State}
    (hDeparts : Departs ctx plan b other st readied turned after) :
    Makes ctx plan b.targets st after := by
  have hReady : Held st readied := by
    cases hDeparts.ready with
    | keep _ => exact ⟨rfl, rfl⟩
    | flag _ _ _ hHeld _ => exact hHeld
  exact ((hDeparts.visits.makes hDeparts.placed).of_held hReady).held hDeparts.held

section

variable (hPlaced : st.Placed plan)
include hPlaced

theorem reconcile_makes {operands : Nat}
    (hOk : reconcile l operands ctx st = .ok found after) :
    Makes ctx plan [l] st after :=
  (Visits.single hPlaced hOk).1.makes hPlaced

theorem branchOnFlag_makes (hOk : branchOnFlag test target ctx st = .ok () after) :
    Makes ctx plan [target] st after := by
  unfold branchOnFlag at hOk
  rcases bind_ok.mp hOk with ⟨_, replaced, hReplace, hOk⟩
  rcases bind_ok.mp hOk with ⟨found, turned, hReconcile, hPop⟩
  have hTurned := reconcile_makes
    ((steps_replaceNode _).placed hPlaced hReplace) hReconcile
  exact (hTurned.of_held ((steps_replaceNode _).held hReplace)).held
    ((steps_popKind _).held hPop)

theorem branchOnReferences_makes
    (hOk : branchOnReferences target ctx st = .ok () after) :
    Makes ctx plan [target] st after := by
  unfold branchOnReferences at hOk
  rcases bind_ok.mp hOk with ⟨found, turned, hReconcile, hPops⟩
  exact (reconcile_makes hPlaced hReconcile).held
    ((steps_popReference.bind fun _ _ => steps_dropReference).held hPops)

theorem compareReferences_makes
    (hOk : compareReferences test target ctx st = .ok () after)
    (hIssues : after.stack.issues = []) :
    Makes ctx plan [target] st after := by
  rcases compareReferences_ok hOk with ⟨_, hIssue⟩ | ⟨top, under, _, ready, _, hReady, hOk⟩
  · exact absurd hIssues hIssue
  refine Makes.of_held (Steps.held (steps_prepare _ (.inl trivial) (.inl trivial)) hReady) ?_
  have hPlaced := Steps.placed (steps_prepare _ (.inl trivial) (.inl trivial)) hPlaced hReady
  split at hOk
  · exact branchOnFlag_makes hPlaced hOk
  · exact branchOnReferences_makes hPlaced hOk

/- A branch makes its targets known, and nothing else. -/
theorem branchEffect_makes (hOk : branchEffect b ctx st = .ok () after)
    (hIssues : after.stack.issues = []) :
    Makes ctx plan b.targets st after := by
  cases b with
  | ifRefs test target => exact compareReferences_makes hPlaced hOk hIssues
  | ret kind => exact ((steps_leave kind).held hOk).makes
  | throw => exact (steps_dropReference.held hOk).makes
  | _ =>
    rcases branchEffect_ok rfl (by nofun) hPlaced hOk with ⟨_, _, _, hDeparts⟩
    exact hDeparts.makes

end

-- One element

/-
  Control is taken to come to an element: from the one before,
  or to a label that something is known about.
-/
def Live (frames : SourceFrames) (node : Node) (st : State) : Prop :=
  st.reachable = true ∨ ∃ l, node = .label l ∧ (st.Knows l ∨ frames.frame? l ≠ none)

/- What going past an element does to labels, and where control goes on. -/
structure Passes (ctx : Context) (plan : Array Nat) (node : Node)
    (st after : State) : Prop where
  kept : ∀ l, st.Knows l → after.Knows l
  targets : st.reachable = true → ∀ b, node = .branch b → ∀ l ∈ b.targets, after.Knows l
  known : ∀ l join, after.agreed.lookup l = some join →
    st.agreed.lookup l = some join ∨ Origin ctx plan l join ∧ (node = .label l ∨
        st.reachable = true ∧ ∃ b, node = .branch b ∧ l ∈ b.targets)
  reachable : after.reachable = true ↔ Live ctx.frames node st ∧ node.fallsThrough = true

/- An element that is no branch and at which no label is settled. -/
theorem Held.passes (hHeld : Held st after)
    (hBranch : ∀ b, node = .branch b → st.reachable = false)
    (hLabel : ∀ l, node = .label l → ¬ st.Knows l ∧ ctx.frames.frame? l = none) :
    Passes ctx plan node st after where
  kept := fun l hKnows => by rwa [State.Knows, hHeld.agreed]
  targets := by
    intro hReachable b hNode
    rw [hBranch b hNode] at hReachable
    cases hReachable
  known := fun l join hJoin => .inl (hHeld.agreed ▸ hJoin)
  reachable := by
    rw [hHeld.reachable]
    constructor
    · intro hReachable
      refine ⟨.inl hReachable, ?_⟩
      cases node with
      | branch b =>
        rw [hBranch b rfl] at hReachable
        cases hReachable
      | _ => rfl
    · rintro ⟨hReachable | ⟨l, hNode, hMeant⟩, _⟩
      · exact hReachable
      · rcases hLabel l hNode with ⟨hUnknown, hFrame⟩
        exact absurd hMeant (not_or.mpr ⟨hUnknown, fun hSome => hSome hFrame⟩)

/- Control goes on at a label that it is taken to come to. -/
theorem Resumed.passes {turned : State} (hResumed : Resumed found turned after)
    (hKept : ∀ other, st.Knows other → after.Knows other)
    (hOthers : ∀ other join, turned.agreed.lookup other = some join →
      st.agreed.lookup other = some join ∨ other = l ∧ Origin ctx plan l join)
    (hLive : Live ctx.frames (.label l) st) :
    Passes ctx plan (.label l) st after where
  kept := hKept
  targets := nofun
  known := by
    intro other join hJoin
    rw [hResumed.agreed] at hJoin
    rcases hOthers other join hJoin with hBefore | ⟨rfl, hOrigin⟩
    · exact .inl hBefore
    · exact .inr ⟨hOrigin, .inl rfl⟩
  reachable := ⟨fun _ => ⟨hLive, rfl⟩, fun _ => hResumed.reachable⟩

theorem Landing.passes (hPlaced : st.Placed plan)
    (hLanding : Landing ctx plan l st after)
    (hKept : ∀ other, st.Knows other → after.Knows other) :
    Passes ctx plan (.label l) st after := by
  cases hLanding with
  | pass hKnown hFrame hTarget hHeld hBench =>
    apply hHeld.passes
    · intro b hNode
      cases hNode
    · intro other hNode
      cases hNode
      exact ⟨fun hKnows => hKnows hKnown, hFrame⟩
  | arrive hReachable hMeant hHeld hBench hReconciled hSettled hResumed =>
    refine hResumed.passes hKept ?_ (.inl hReachable)
    intro other join hJoin
    have hFirst := hPlaced.of_same (congrArg Bench.locals hBench) hHeld.agreed
    rw [← hHeld.agreed]
    rcases (hReconciled.makes hFirst hSettled).others other join hJoin with
      hBefore | ⟨hSame, hOrigin⟩
    · exact .inl hBefore
    · cases mem_singleton.mp hSame
      exact .inr ⟨rfl, hOrigin⟩
  | resume hReachable hKnown hResumed =>
    exact hResumed.passes hKept (fun other join hJoin => .inl hJoin)
      (.inr ⟨l, rfl, .inl (State.knows_of_lookup hKnown)⟩)
  | @declare _ _ stack _ hReachable hKnown hFrame hLocals hFound hResumed =>
    refine hResumed.passes hKept ?_ ?_
    · intro other join hJoin
      rcases lookup_settle hJoin with hBefore | ⟨rfl, rfl⟩
      · exact .inl hBefore
      · rw [hFound]
        exact .inr ⟨rfl, .frame stack hFrame hLocals⟩
    · refine .inr ⟨l, rfl, .inr ?_⟩
      rw [hFrame]
      exact Option.some_ne_none _

/- What is done at a branch that control comes to. -/
theorem Makes.passes {done : State} (hMakes : Makes ctx plan b.targets st done)
    (hDeparted : Departed b done after) (hReachable : st.reachable = true) :
    Passes ctx plan (.branch b) st after := by
  have hSame (l : Label) : after.Knows l ↔ done.Knows l := by
    rw [State.Knows, State.Knows, hDeparted.agreed]
  refine ⟨?_, ?_, ?_, ?_⟩
  · intro l hKnows
    exact (hSame l).mpr (hMakes.kept l hKnows)
  · intro _ other hNode l hTarget
    cases hNode
    exact (hSame l).mpr (hMakes.made l hTarget)
  · intro l join hJoin
    rw [hDeparted.agreed] at hJoin
    rcases hMakes.others l join hJoin with hBefore | ⟨hTarget, hOrigin⟩
    · exact .inl hBefore
    · exact .inr ⟨hOrigin, .inr ⟨hReachable, b, rfl, hTarget⟩⟩
  · cases hFalls : b.fallsThrough with
    | true =>
      rw [(hDeparted.falls hFalls).1, hMakes.reachable]
      exact ⟨fun _ => ⟨.inl hReachable, hFalls⟩, fun _ => hReachable⟩
    | false =>
      rw [(hDeparted.stops hFalls).1]
      constructor
      · intro hStops
        cases hStops
      · rintro ⟨_, hOn⟩
        rw [Node.fallsThrough, hFalls] at hOn
        cases hOn

theorem step_passes (hPlaced : st.Placed plan)
    (hOk : step node ctx st = .ok () after) (hIssues : after.stack.issues = []) :
    Passes ctx plan node st after := by
  cases node with
  | line number =>
    have hHeld : Held st after := by
      cases hOk
      exact ⟨rfl, rfl⟩
    exact hHeld.passes nofun nofun
  | frame change =>
    have hHeld : Held st after := by
      rcases step_frame_ok hOk with ⟨frames, label, rfl, _⟩
      exact ⟨rfl, rfl⟩
    exact hHeld.passes nofun nofun
  | label l =>
    apply (step_label_ok hPlaced hOk).passes hPlaced
    intro other hKnows
    rcases Option.ne_none_iff_exists'.mp hKnows with ⟨join, hJoin⟩
    exact State.knows_of_lookup ((step_ok hPlaced hOk).agreed other join hJoin)
  | insn i =>
    have hHeld : Held st after := by
      cases hReachable : st.reachable with
      | true =>
        rcases step_insn_ok hReachable hOk with ⟨done, hDone, rfl⟩
        have hHeld := Steps.held (steps_instruction trivial (fun _ _ _ => trivial)
          fun _ => trivial) hDone
        exact ⟨hHeld.agreed, hHeld.reachable⟩
      | false =>
        rw [step_unreachable_ok rfl hReachable hOk]
        exact ⟨rfl, rfl⟩
    exact hHeld.passes nofun nofun
  | branch b =>
    cases hReachable : st.reachable with
    | true =>
      rcases step_branch_ok hReachable hOk with
        ⟨marked, done, hMark, hEffect, hDeparted⟩
      have hMarked := Steps.placed (steps_markSeeding trivial) hPlaced hMark
      have hHeld := Steps.held (steps_markSeeding trivial) hMark
      rw [hDeparted.issues] at hIssues
      exact ((branchEffect_makes hMarked hEffect hIssues).of_held hHeld).passes
        hDeparted hReachable
    | false =>
      have hHeld : Held st after := by
        rw [step_unreachable_ok rfl hReachable hOk]
        exact ⟨rfl, rfl⟩
      exact hHeld.passes (fun _ _ => hReachable) nofun

-- The whole body

theorem Visited.passes (hVisited : Visited ctx i node st mid) :
    Passes ctx ctx.plan node st mid.settled := by
  have hPasses := step_passes hVisited.placed hVisited.step hVisited.issues
  exact ⟨hPasses.kept, hPasses.targets, hPasses.known, hPasses.reachable⟩

/- What is known about a label stays known. -/
theorem knows_of_le {j : Nat} (hLe : i ≤ j) (hInside : j ≤ ctx.body.nodes.length)
    (hState : stateAfter ctx i = some st)
    (hAfter : stateAfter ctx j = some after) (hKnows : st.Knows l) :
    after.Knows l :=
  kept_stateAfter (fun st => st.Knows l)
    (fun _ _ _ _ _ _ hVisited => hVisited.passes.kept l) hLe hInside hState hAfter hKnows

/- An element that control comes to without jumping back is taken for one. -/
theorem live_of_entered (hEntered : Entered ctx.body.nodes ctx.frames i)
    (hNode : ctx.body.nodes[i]? = some node)
    (hState : stateAfter ctx i = some st) :
    Live ctx.frames node st := by
  induction hEntered generalizing node st with
  | start =>
    cases hState
    exact .inl rfl
  | @next i before hEntered hBefore hFalls ih =>
    rcases stateAfter_of_le hState (Nat.le_succ i) with ⟨earlier, hEarlier⟩
    rcases visited_stateAfter hBefore hEarlier hState with ⟨mid, hVisited, rfl⟩
    exact .inl (hVisited.passes.reachable.mpr ⟨ih hBefore hEarlier, hFalls⟩)
  | @jump i j hEntered hJumps hForward ih =>
    rcases hJumps with ⟨b, l, hBranch, hTarget, hLabel⟩
    rw [hLabel] at hNode
    cases hNode
    have hInside := (List.getElem?_eq_some_iff.mp hLabel).1
    rcases visited_of_lt hState hBranch hForward with ⟨before, mid, hBefore, hVisited⟩
    have hReachable : before.reachable = true := by
      rcases ih hBranch hBefore with hReachable | ⟨_, hLabel, _⟩
      · exact hReachable
      · cases hLabel
    have hKnows := hVisited.passes.targets hReachable b rfl l hTarget
    exact .inr ⟨l, rfl,
      .inl (knows_of_le hForward (Nat.le_of_lt hInside) hVisited.after hState hKnows)⟩
  | framed hLabel hFrame =>
    rw [hLabel] at hNode
    cases hNode
    exact .inr ⟨_, rfl, .inr hFrame⟩

/-
  Where control is taken to come, it comes without jumping back,
  and what is known about a label was settled at the label or at
  a branch to it.
-/
structure Sound (ctx : Context) (i : Nat) (st : State) : Prop where
  reachable : st.reachable = true → Entered ctx.body.nodes ctx.frames i
  known : ∀ l join, st.agreed.lookup l = some join →
    Origin ctx ctx.plan l join ∧ ∃ k < i, ctx.body.nodes[k]? = some (.label l) ∨
        Entered ctx.body.nodes ctx.frames k ∧
          ∃ b, ctx.body.nodes[k]? = some (.branch b) ∧ l ∈ b.targets

theorem Sound.entered (hSound : Sound ctx i st)
    (hOnce : PlacedOnce ctx.body.nodes) (hNode : ctx.body.nodes[i]? = some node)
    (hLive : Live ctx.frames node st) :
    Entered ctx.body.nodes ctx.frames i := by
  rcases hLive with hReachable | ⟨l, rfl, hKnows | hFrame⟩
  · exact hSound.reachable hReachable
  · rcases Option.ne_none_iff_exists'.mp hKnows with ⟨join, hJoin⟩
    rcases (hSound.known l join hJoin).2 with
      ⟨k, hBefore, hLabel | ⟨hEntered, b, hBranch, hTarget⟩⟩
    · exact absurd (hOnce k i l hLabel hNode) (Nat.ne_of_lt hBefore)
    · exact hEntered.jump ⟨b, l, hBranch, hTarget, hNode⟩ hBefore
  · exact .framed hNode hFrame

theorem sound_stateAfter (hOnce : PlacedOnce ctx.body.nodes)
    (hInside : i ≤ ctx.body.nodes.length)
    (hState : stateAfter ctx i = some st) :
    Sound ctx i st := by
  refine stateAfter_induct (motive := Sound ctx) ?_ ?_ hInside hState
  · exact ⟨fun _ => .start, nofun⟩
  · intro i node before mid hNode _ hVisited hSound
    have hPasses := hVisited.passes
    refine ⟨?_, ?_⟩
    · intro hReachable
      rcases hPasses.reachable.mp hReachable with ⟨hLive, hFalls⟩
      exact (hSound.entered hOnce hNode hLive).next hNode hFalls
    · intro l join hJoin
      rcases hPasses.known l join hJoin with
        hEarlier | ⟨hOrigin, hLabel | ⟨hReachable, b, hBranch, hTarget⟩⟩
      · rcases hSound.known l join hEarlier with ⟨hOrigin, k, hLt, hPlace⟩
        exact ⟨hOrigin, k, Nat.lt_succ_of_lt hLt, hPlace⟩
      · exact ⟨hOrigin, i, Nat.lt_succ_self i, .inl (hLabel ▸ hNode)⟩
      · exact ⟨hOrigin, i, Nat.lt_succ_self i,
          .inr ⟨hSound.reachable hReachable, b, hBranch ▸ hNode, hTarget⟩⟩

/- An element is gone past as code that control comes to. -/
def Simulated (ctx : Context) (i : Nat) : Prop :=
  ∃ st, stateAfter ctx i = some st ∧ st.reachable = true

/- For instructions and branches, to be live is to be simulated. -/
theorem Live.simulated (hLive : Live ctx.frames node st)
    (hCode : node.isMark = false) (hState : stateAfter ctx i = some st) :
    Simulated ctx i := by
  rcases hLive with hReachable | ⟨l, rfl, _⟩
  · exact ⟨st, hState, hReachable⟩
  · cases hCode

/- Code that is not simulated stays as it is. -/
theorem blockView_of_not_simulated (hNode : ctx.body.nodes[i]? = some node)
    (hCode : node.isMark = false) (hState : stateAfter ctx i = some st)
    (hAfter : stateAfter ctx (i + 1) = some after) (hLeft : ¬ Simulated ctx i) :
    blockView ctx i = [(i, node)] := by
  rcases visited_stateAfter hNode hState hAfter with ⟨mid, hVisited, _⟩
  have hReachable : ({ st with here := i } : State).reachable = false := by
    rw [← Bool.not_eq_true]
    exact fun hReachable => hLeft ⟨st, hState, hReachable⟩
  have hEdit : mid.edit = .none := by
    rw [step_unreachable_ok hCode hReachable hVisited.step]
    exact hVisited.between.edit
  simp only [blockView, hVisited.edited, hNode, hEdit]
  rfl

end Simulation

-- Methods

namespace Method

open Simulation

/-
  In a body that is unboxed, instructions and branches that
  control comes to without jumping back are simulated, so all
  that control comes to are if no jump back leads to code that
  is not entered otherwise. If labels have one place each, these
  are all that are simulated, and the others stay as they are.
-/
theorem reachable_code_unboxed
    (method : Method)
    (reg : Registry)
    (settings : Settings)
    (layout : ClassLayout)
    (body : Body)
    (unboxed : UnboxedBody)
    (hOk : method.unbox reg settings layout body = .ok unboxed) :
    let ctx := Context.ofMethod reg settings layout method body
    (∀ i node, body.nodes[i]? = some node → node.isMark = false →
      Entered body.nodes ctx.frames i → Simulated ctx i) ∧
    ((∀ i j, IsReachable body.nodes i → Jumps body.nodes i j → j ≤ i →
        Entered body.nodes ctx.frames j) →
      ∀ i node, body.nodes[i]? = some node → node.isMark = false →
        IsReachable body.nodes i → Simulated ctx i) ∧
    (PlacedOnce body.nodes → ∀ i node, body.nodes[i]? = some node → node.isMark = false →
        (Simulated ctx i ↔ Entered body.nodes ctx.frames i) ∧
        (¬ Simulated ctx i → blockView ctx i = [(i, node)])) := by
  intro ctx
  have hEntered : ∀ i node, body.nodes[i]? = some node → node.isMark = false →
      Entered body.nodes ctx.frames i → Simulated ctx i := by
    intro i node hNode hCode hEntered
    have hInside := (List.getElem?_eq_some_iff.mp hNode).1
    rcases unbox_states hOk (Nat.le_of_lt hInside) with ⟨st, hState⟩
    exact (live_of_entered hEntered hNode hState).simulated hCode hState
  refine ⟨hEntered, ?_, ?_⟩
  · intro hBack i node hNode hCode hReachable
    exact hEntered i node hNode hCode (.of_isReachable hBack hReachable)
  · intro hOnce i node hNode hCode
    have hInside := (List.getElem?_eq_some_iff.mp hNode).1
    refine ⟨⟨?_, hEntered i node hNode hCode⟩, ?_⟩
    · rintro ⟨st, hState, hReachable⟩
      exact (sound_stateAfter hOnce (Nat.le_of_lt hInside) hState).reachable hReachable
    · intro hLeft
      rcases unbox_states hOk (Nat.le_of_lt hInside) with ⟨st, hState⟩
      rcases unbox_states hOk hInside with ⟨after, hAfter⟩
      exact blockView_of_not_simulated hNode hCode hState hAfter hLeft

-- A jump back

def backStart : Label := ⟨0⟩

def backEnd : Label := ⟨1⟩

/-
  A body with a local that moves to another slot, since a value
  is stored before it. The code that loads the local is jumped
  over and then jumped back to. Marks can follow the labels.
-/
def backBody (marks : List Node) : Body where
  maxStack := 1
  maxLocals := 3
  nodes :=
    [ .insn (.load .reference 0), .insn (.store .reference 1),
      .insn (.plain .iconst1), .insn (.store .int 2),
      .branch (.goto backEnd), .label backStart ] ++ marks ++
    [ .insn (.load .int 2), .branch (.ret (some .int)), .label backEnd ] ++ marks ++
    [.branch (.goto backStart)]
  vars := []
  handlers := []

def backMethod (marks : List Node) : Method :=
  ⟨⟨"back", by decide⟩, ⟨[.object Batch.moneyName], some (.base .int)⟩, 8, some (backBody marks)⟩

def backContext (marks : List Node) : Context :=
  .ofMethod moneyRegistry ⟨[], false⟩ accountLayout (backMethod marks)
    (backBody marks)

def backFrame : Node :=
  .frame (.full [.object (.object Batch.moneyName), .object (.object Batch.moneyName), .int] [])

/-
  With frames, all code is simulated: a frame describes each
  label, so the load of the local names its new slot.
-/
theorem reachable_code_unboxed_framed :
    ∃ unboxed, (backMethod [backFrame]).unbox moneyRegistry ⟨[], false⟩ accountLayout
          (backBody [backFrame]) = .ok unboxed ∧
        IsReachable (backBody [backFrame]).nodes 7 ∧ Simulated (backContext [backFrame]) 7 ∧
        .insn (.load .int 3) ∈ unboxed.body.nodes := by
  have hLoads : ((backMethod [backFrame]).unbox moneyRegistry ⟨[], false⟩
      accountLayout (backBody [backFrame])).toOption.any
        (fun unboxed => decide (.insn (.load .int 3) ∈ unboxed.body.nodes)) = true := by
    decide +kernel
  rcases ok_of_any hLoads with ⟨unboxed, hOk, hLoad⟩
  have hOver : IsReachable (backBody [backFrame]).nodes 9 :=
    ((((Relation.ReflTransGen.refl.tail (.next rfl rfl)).tail (.next rfl rfl)).tail
      (.next rfl rfl)).tail (.next rfl rfl)).tail
        (.jump ⟨_, backEnd, rfl, by decide, rfl⟩)
  have hBack : IsReachable (backBody [backFrame]).nodes 7 :=
    ((((hOver.tail (.next rfl rfl)).tail (.next rfl rfl)).tail
      (.jump ⟨_, backStart, rfl, by decide, rfl⟩)).tail (.next rfl rfl)).tail
        (.next rfl rfl)
  refine ⟨unboxed, hOk, hBack, ?_, of_decide_eq_true hLoad⟩
  refine (reachable_code_unboxed _ _ _ _ _ unboxed hOk).2.1 ?_ 7 _ rfl rfl hBack
  rintro i j _ ⟨b, l, _, _, hLabel⟩ _
  have hFramed : ∀ node ∈ (backBody [backFrame]).nodes, ∀ l, node = .label l →
      (backContext [backFrame]).frames.frame? l ≠ none := by
    intro node hNode l hLabel
    subst hLabel
    have hEither : l = backStart ∨ l = backEnd := by
      simpa [backBody, backFrame] using hNode
    rcases hEither with rfl | rfl
    · decide
    · decide
  exact .framed hLabel (hFramed _ (mem_of_getElem? hLabel) l rfl)

/-
  Without frames, code that only a jump back leads to is passed
  over. It loads its local from the old slot, while the store
  before has moved to the new one.
-/
theorem backward_code_left :
    ∃ unboxed, (backMethod []).unbox moneyRegistry ⟨[], false⟩ accountLayout (backBody []) =
          .ok unboxed ∧
        IsReachable (backBody []).nodes 6 ∧ (backBody []).nodes[6]? = some (.insn (.load .int 2)) ∧
        ¬ Simulated (backContext []) 6 ∧ .insn (.store .int 3) ∈ unboxed.body.nodes ∧
        .insn (.load .int 2) ∈ unboxed.body.nodes := by
  have hMoves : ((backMethod []).unbox moneyRegistry ⟨[], false⟩ accountLayout
      (backBody [])).toOption.any (fun unboxed =>
        decide (.insn (.store .int 3) ∈ unboxed.body.nodes ∧
          .insn (.load .int 2) ∈ unboxed.body.nodes)) = true := by
    decide +kernel
  rcases ok_of_any hMoves with ⟨unboxed, hOk, hMoved⟩
  have hOver : IsReachable (backBody []).nodes 8 :=
    ((((Relation.ReflTransGen.refl.tail (.next rfl rfl)).tail (.next rfl rfl)).tail
      (.next rfl rfl)).tail (.next rfl rfl)).tail
        (.jump ⟨_, backEnd, rfl, by decide, rfl⟩)
  have hBack : IsReachable (backBody []).nodes 6 :=
    ((hOver.tail (.next rfl rfl)).tail
      (.jump ⟨_, backStart, rfl, by decide, rfl⟩)).tail (.next rfl rfl)
  refine ⟨unboxed, hOk, hBack, rfl, ?_, of_decide_eq_true hMoved⟩
  rintro ⟨st, hState, hReachable⟩
  have hLeft : (stateAfter (backContext []) 6).all (!·.reachable) = true := by
    decide +kernel
  rw [hState, Option.all_some, hReachable] at hLeft
  cases hLeft

end Method

end Unboxing
