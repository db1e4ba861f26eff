import Unboxing.Proofs.ConcreteTags
import Unboxing.Proofs.SequenceOrder

/-
  Steps, what they keep and how far they go. A step is run in a
  context and a state, and ends with a result or with the cause
  of a failure, in both cases in a state. It is made of looks at
  the context and at the state, of changes, findings and
  failures. A scope says what is asked of the states and which
  parts of them may change. The proof that a step is within a
  scope follows the step, and says at once what the step keeps
  and that neither settings nor findings matter for it.

  Main declarations:
    * `Simulation.Keeps`
    * `Simulation.Scope`
    * `Simulation.State.Orderly`
    * `Simulation.Leads`
    * `Simulation.Steps`
    * `Simulation.Steps.keeps`
-/

namespace Unboxing

open Simulation

namespace Simulation

variable {α β : Type}

-- Running a step

section Running

variable (ctx : Context) (st : State)

theorem bind_apply (act : Simulation α) (next : α → Simulation β) :
    (act >>= next) ctx st = match act ctx st with
      | .ok result after => next result ctx after
      | .error cause after => .error cause after := by
  change EStateM.bind (act ctx) (fun result => next result ctx) st = _
  unfold EStateM.bind
  cases act ctx st <;> rfl

@[simp] theorem pure_apply (result : α) :
    (pure result : Simulation α) ctx st = .ok result st :=
  rfl

@[simp] theorem get_apply : (get : Simulation State) ctx st = .ok st st :=
  rfl

@[simp] theorem read_apply :
    (read : Simulation Context) ctx st = .ok ctx st :=
  rfl

theorem get_bind (next : State → Simulation α) :
    (get >>= next) ctx st = next st ctx st :=
  rfl

theorem read_bind (next : Context → Simulation α) :
    (read >>= next) ctx st = next ctx ctx st :=
  rfl

theorem tagAt_bind (depth : Nat) (next : Tag → Simulation α) :
    (tagAt depth >>= next) ctx st = next (st.stack.tagAt depth) ctx st :=
  rfl

@[simp] theorem set_apply (new : State) :
    (set new : Simulation PUnit) ctx st = .ok ⟨⟩ new :=
  rfl

@[simp] theorem modify_apply (change : State → State) :
    (modify change : Simulation PUnit) ctx st = .ok ⟨⟩ (change st) :=
  rfl

@[simp] theorem throw_apply (cause : FailureCause) :
    (throw cause : Simulation α) ctx st = .error cause st :=
  rfl

theorem ok_of_runs {act : Simulation α} {ctx : Context} {st : State}
    (hRuns : ((act ctx).run' st).isSome = true) :
    ∃ result after, act ctx st = .ok result after := by
  unfold EStateM.run' at hRuns
  split at hRuns
  · exact ⟨_, _, by assumption⟩
  · cases hRuns

/- A sequence of two steps succeeds if both do. -/
theorem bind_ok
    {ctx : Context} {st : State} {act : Simulation α} {next : α → Simulation β}
    {result : β} {after : State} :
    (act >>= next) ctx st = .ok result after ↔ ∃ first between,
        act ctx st = .ok first between ∧ next first ctx between = .ok result after := by
  rw [bind_apply]
  cases hAct : act ctx st with
  | ok first between =>
    constructor
    · exact fun hNext => ⟨first, between, rfl, hNext⟩
    · rintro ⟨_, _, hSame, hNext⟩
      cases hSame
      exact hNext
  | error cause between =>
    constructor
    · intro hNext
      cases hNext
    · rintro ⟨_, _, hSame, _⟩
      cases hSame

/- A step for each of some items succeeds if the first and the others do. -/
theorem forM_cons_ok {ctx : Context} {st after : State} {act : α → Simulation PUnit}
    {item : α} {items : List α} (hOk : (item :: items).forM act ctx st = .ok () after) :
    ∃ between, act item ctx st = .ok () between ∧
      items.forM act ctx between = .ok () after := by
  rcases bind_ok.mp hOk with ⟨_, between, hFirst, hRest⟩
  exact ⟨between, hFirst, hRest⟩

end Running

-- Invariants

/-
  In a context, a step keeps an invariant whether it succeeds
  or fails, its result has a property, and it fails only for
  causes of some sort.
-/
def Keeps (ctx : Context) (invariant : State → Prop) (allowed : FailureCause → Prop)
    (act : Simulation α) (want : α → Prop) : Prop :=
  ∀ st, invariant st → match act ctx st with
    | .ok result after => invariant after ∧ want result
    | .error cause after => invariant after ∧ allowed cause

namespace Keeps

variable {ctx : Context} {invariant : State → Prop}
variable {allowed : FailureCause → Prop} {act : Simulation α}
variable {want : α → Prop} {st : State} {after : State} {result : α}
variable {cause : FailureCause} {next : α → Simulation β} {final : β → Prop}

section

variable (hKeeps : Keeps ctx invariant allowed act want)
include hKeeps

theorem of_ok (hState : invariant st) (hOk : act ctx st = .ok result after) :
    invariant after ∧ want result := by
  have hAfter := hKeeps st hState
  rwa [hOk] at hAfter

theorem of_error (hState : invariant st)
    (hError : act ctx st = .error cause after) :
    invariant after ∧ allowed cause := by
  have hAfter := hKeeps st hState
  rwa [hError] at hAfter

theorem mono {weaker : α → Prop} (hWeaker : ∀ result, want result → weaker result) :
    Keeps ctx invariant allowed act weaker := by
  intro st hState
  have hAfter := hKeeps st hState
  split at hAfter
  · exact ⟨hAfter.1, hWeaker _ hAfter.2⟩
  · exact hAfter

end

/- The second step need only be fine where the first one leads. -/
theorem bind_at (hAct : Keeps ctx invariant allowed act want)
    (hState : invariant st)
    (hNext : ∀ result between, act ctx st = .ok result between →
        invariant between → want result → match next result ctx between with
          | .ok result after => invariant after ∧ final result
          | .error cause after => invariant after ∧ allowed cause) :
    match (act >>= next) ctx st with
    | .ok result after => invariant after ∧ final result
    | .error cause after => invariant after ∧ allowed cause := by
  have hFirst := hAct st hState
  rw [bind_apply]
  cases hRun : act ctx st with
  | ok result between =>
    rw [hRun] at hFirst
    exact hNext result between hRun hFirst.1 hFirst.2
  | error cause between =>
    rw [hRun] at hFirst
    exact hFirst

theorem bind (hAct : Keeps ctx invariant allowed act want)
    (hNext : ∀ result, want result → Keeps ctx invariant allowed (next result) final) :
    Keeps ctx invariant allowed (act >>= next) final :=
  fun _ hState => hAct.bind_at hState fun result between _ hBetween hResult =>
    hNext result hResult between hBetween

theorem pure (hResult : want result) :
    Keeps ctx invariant allowed (pure result) want :=
  fun _ hState => ⟨hState, hResult⟩

theorem read :
    Keeps ctx invariant allowed (read : Simulation Context)
      (· = ctx) :=
  fun _ hState => ⟨hState, rfl⟩

theorem get : Keeps ctx invariant allowed (get : Simulation State) invariant :=
  fun _ hState => ⟨hState, hState⟩

theorem modify {change : State → State}
    (hChange : ∀ st, invariant st → invariant (change st)) :
    Keeps ctx invariant allowed (modify change : Simulation PUnit)
      (fun _ => True) :=
  fun st hState => ⟨hChange st hState, trivial⟩

theorem throw (hCause : allowed cause) :
    Keeps ctx invariant allowed (throw cause : Simulation α) want :=
  fun _ hState => ⟨hState, hCause⟩

theorem ite {condition : Prop} [Decidable condition] {yes no : Simulation α}
    (hYes : condition → Keeps ctx invariant allowed yes want)
    (hNo : ¬ condition → Keeps ctx invariant allowed no want) :
    Keeps ctx invariant allowed (if condition then yes else no)
      want := by
  by_cases hCondition : condition
  · simpa only [hCondition, if_true] using hYes hCondition
  · simpa only [hCondition, if_false] using hNo hCondition

end Keeps

-- Relations along steps

/- A relation that holds between any two states of a run if it does so step by step. -/
class Lasts (related : Context → State → State → Prop) : Prop where
  refl : ∀ ctx st, related ctx st st
  trans : ∀ {ctx first second third}, related ctx first second →
    related ctx second third → related ctx first third

/- A step that succeeds leads to a related state. -/
def Along (related : Context → State → State → Prop) (act : Simulation α) : Prop :=
  ∀ ctx st result after, act ctx st = .ok result after →
    related ctx st after

namespace Along

variable {related : Context → State → State → Prop} {act : Simulation α}

theorem of_ok {ctx : Context} {st after : State} {result : α}
    (hAlong : Along related act) (hOk : act ctx st = .ok result after) :
    related ctx st after :=
  hAlong ctx st result after hOk

theorem throw (cause : FailureCause) : Along related (throw cause : Simulation α) := by
  intro ctx st result after hOk
  cases hOk

theorem modify {change : State → State}
    (hChange : ∀ ctx st, related ctx st (change st)) :
    Along related (modify change : Simulation PUnit) := by
  intro ctx st result after hOk
  cases hOk
  exact hChange ctx st

theorem ite {condition : Prop} [Decidable condition] {yes no : Simulation α}
    (hYes : Along related yes) (hNo : Along related no) :
    Along related (if condition then yes else no) := by
  split
  · exact hYes
  · exact hNo

variable [Lasts related]

theorem bind {next : α → Simulation β} (hAct : Along related act)
    (hNext : ∀ result, Along related (next result)) :
    Along related (act >>= next) := by
  intro ctx st result after hOk
  rcases bind_ok.mp hOk with ⟨first, between, hFirst, hOk⟩
  exact Lasts.trans (hAct.of_ok hFirst) ((hNext first).of_ok hOk)

theorem first {condition : Prop} [Decidable condition] {rest : Simulation β}
    (hAct : Along related act) (hRest : Along related rest) :
    Along related (if condition then act >>= fun _ => rest else rest) :=
  .ite (hAct.bind fun _ => hRest) hRest

theorem of_same (hSame : ∀ ctx st, ∃ result, act ctx st = .ok result st) :
    Along related act := by
  intro ctx st result after hOk
  rcases hSame ctx st with ⟨found, hFound⟩
  cases hOk.symm.trans hFound
  exact Lasts.refl ctx st

theorem pure (result : α) : Along related (pure result) :=
  .of_same fun _ _ => ⟨result, rfl⟩

theorem get : Along related (get : Simulation State) :=
  .of_same fun _ st => ⟨st, rfl⟩

theorem read : Along related (read : Simulation Context) :=
  .of_same fun ctx _ => ⟨ctx, rfl⟩

theorem forM {items : List α} {act : α → Simulation PUnit}
    (hAct : ∀ item, Along related (act item)) :
    Along related (items.forM act) := by
  induction items with
  | nil => exact Along.pure _
  | cons item items ih =>
    simp only [List.forM_eq_forM, List.forM_cons] at ih ⊢
    exact (hAct item).bind fun _ => ih

end Along

-- Failures and seeding

variable {first second third : State}

/- The cause of a failure to give a variable its place. -/
def noPlace : FailureCause :=
  .limitExceeded "local variable layout"

/-
  Where fields are seeded is as it was, or, if there are any, no
  longer open or, if it was searched, the place that is looked at.
-/
def SeededFrom (start st : State) : Prop :=
  st.seeding = start.seeding ∨ start.seeding ≠ .inapplicable ∧
    (st.seeding = .suppressed ∨ start.seeding = .searching ∧
      ∃ depth, st.seeding = .found (start.code.prev? start.here) depth)

theorem SeededFrom.trans (hCode : second.code = first.code)
    (hHere : second.here = first.here) (hFirst : SeededFrom first second)
    (hSecond : SeededFrom second third) :
    SeededFrom first third := by
  rcases hSecond with hSame | ⟨hSecond, hThird⟩
  · unfold SeededFrom
    rw [hSame]
    exact hFirst
  · rcases hFirst with hSame | ⟨hApplicable, hFirst⟩
    · rw [hSame] at hSecond hThird
      rw [hCode, hHere] at hThird
      exact .inr ⟨hSecond, hThird⟩
    · refine .inr ⟨hApplicable, hThird.imp id ?_⟩
      -- A place that was found or given up is not searched again.
      rintro ⟨hSearching, _⟩
      rcases hFirst with hSuppressed | ⟨_, depth, hFound⟩
      · rw [hSuppressed] at hSearching
        cases hSearching
      · rw [hFound] at hSearching
        cases hSearching

-- Settings and findings

/- The state with other findings. -/
def State.withFindings (st : State) (found : Diagnostics) : State :=
  { st with diagnostics := found }

/- The context with other settings. -/
def Context.under (ctx : Context) (settings : Settings) : Context :=
  { ctx with settings := settings }

/- A finding is skipped, or a failure, or noted. -/
theorem diagnose_apply (kind : DiagnosticKind) (ctx : Context) (st : State) :
    diagnose kind ctx st = if ctx.settings.isSuppressed kind then
        .ok () st
      else if ctx.settings.strict then
        .error (.strictDiagnostic kind) st
      else
        .ok () (st.withFindings
          (st.diagnostics.push ⟨kind, st.line⟩)) := by
  unfold diagnose
  rw [bind_apply, read_apply]
  simp only
  cases ctx.settings.isSuppressed kind with
  | true => rfl
  | false => cases ctx.settings.strict <;> rfl

-- Scopes

/-
  What is asked of states, and which parts of a state may
  change.
-/
structure Scope where
  /- Open classes are at large. -/
  wild : Prop
  /- The counters of the stack count. -/
  counts : Prop
  /- The plan that the slots follow, if they follow one. -/
  plan? : Option (Array Nat)
  /- Locals may change. -/
  stores : Prop
  /- Labels may be settled, and control may go elsewhere. -/
  agrees : Prop
  /- The place for seeding may be found or given up. -/
  marks : Prop
  /- The code may be edited. -/
  edits : Prop
  /- The element that is looked at may be taken out. -/
  removes : Prop

namespace Scope

variable {scope : Scope}

/- Every step is within this scope. -/
def any : Scope :=
  ⟨True, False, none, True, True, True, True, True⟩

/- Labels are left alone. -/
def held : Scope :=
  { any with agrees := False }

/- Slots follow a plan. -/
def following (wild : Prop) (plan : Array Nat) : Scope :=
  { any with wild := wild, plan? := some plan }

/- Slots follow a plan while one element is looked at. -/
def onward (plan : Array Nat) : Scope :=
  { any with plan? := some plan, edits := False }

/- The element that is looked at stays in the code. -/
def standing : Scope :=
  { any with edits := False, removes := False }

/- What may become of the stack. -/
abbrev Upholds (scope : Scope) : OperandStack → OperandStack → Prop :=
  OperandStack.Upholds scope.counts (Tag.Tame scope.wild)

/- The class of every call can be found out if that matters. -/
def Knows (scope : Scope) (ctx : Context) : Prop :=
  scope.wild ∨ ctx.reg.Inferable

/- All parts of a state may change. -/
structure Open (scope : Scope) : Prop where
  stores : scope.stores
  agrees : scope.agrees
  marks : scope.marks
  edits : scope.edits
  removes : scope.removes

theorem open_any : any.Open :=
  ⟨trivial, trivial, trivial, trivial, trivial⟩

/- There is room for a tag at a slot. -/
def Fits (scope : Scope) (slot : Nat) (tag : Tag) : Prop :=
  ∀ plan ∈ scope.plan?, tag.isPayload = true → 2 ≤ plannedRoom plan slot

/- The place for seeding may be found or given up where something holds of the context. -/
def MarksIf (scope : Scope) (property : Context → Prop) : Prop :=
  ∀ ctx, scope.Knows ctx → property ctx → scope.marks

end Scope

end Simulation

-- Orderly states

/- Locals with tame tags that follow the plan. -/
structure SlotMap.Orderly (scope : Scope) (map : SlotMap) : Prop where
  tags : map.All (Tag.Tame scope.wild)
  placed : ∀ plan ∈ scope.plan?, SlotMap.Placed plan map

/- What is agreed at a label is counted, tame and follows the plan. -/
structure Join.Orderly (scope : Scope) (join : Join) : Prop where
  stack : join.stack.Orderly scope.counts (Tag.Tame scope.wild)
  cells : AllCells (Tag.Tame scope.wild) join.locals.cells
  placed : ∀ plan ∈ scope.plan?, PlacedCells plan join.locals.cells

namespace Simulation

variable {α β : Type} {scope : Scope} {plan : Array Nat} {ctx : Context}
variable {st after start : State}

/- Locals and what is agreed at labels follow the plan. -/
structure State.Placed (plan : Array Nat) (st : State) : Prop where
  locals : SlotMap.Placed plan st.locals
  agreed : ∀ entry ∈ st.agreed, PlacedCells plan entry.2.locals.cells

theorem State.Placed.of_same (hPlaced : st.Placed plan)
    (hLocals : after.locals = st.locals) (hAgreed : after.agreed = st.agreed) :
    after.Placed plan := by
  refine ⟨?_, ?_⟩
  · rw [hLocals]
    exact hPlaced.locals
  · rw [hAgreed]
    exact hPlaced.agreed

/- What is found for a label is among what is known. -/
theorem mem_of_lookup {known : List (Label × α)} {label : Label} {result : α}
    (hFound : known.lookup label = some result) :
    (label, result) ∈ known := by
  obtain ⟨before, after, rfl, _⟩ := List.lookup_eq_some_iff.mp hFound
  simp

/- What is agreed at a label follows the plan. -/
theorem State.Placed.lookup (hPlaced : st.Placed plan) {label : Label} {join : Join}
    (hJoin : st.agreed.lookup label = some join) :
    PlacedCells plan join.locals.cells :=
  hPlaced.agreed _ (mem_of_lookup hJoin)

/- Stack, locals and what is agreed at labels are as the scope asks. -/
structure State.Orderly (scope : Scope) (st : State) : Prop where
  stack : st.stack.Orderly scope.counts (Tag.Tame scope.wild)
  locals : st.locals.Orderly scope
  agreed : ∀ entry ∈ st.agreed, entry.2.Orderly scope

namespace State.Orderly

variable (hState : st.Orderly scope)
include hState

theorem placed (hPlan : plan ∈ scope.plan?) : st.Placed plan where
  locals := hState.locals.placed plan hPlan
  agreed entry hEntry := (hState.agreed entry hEntry).placed plan hPlan

theorem lookup {label : Label} {join : Join}
    (hJoin : st.agreed.lookup label = some join) :
    join.Orderly scope :=
  hState.agreed _ (mem_of_lookup hJoin)

theorem tagAt (depth : Nat) : (st.stack.tagAt depth).Tame scope.wild :=
  hState.stack.tags.tagAt Tag.tame_void depth

end State.Orderly

/- If nothing is asked of tags and counters, only the plan counts. -/
theorem Join.orderly_of_placed {join : Join} (hWild : scope.wild) (hCounts : ¬ scope.counts)
    (hPlaced : ∀ plan ∈ scope.plan?, PlacedCells plan join.locals.cells) :
    join.Orderly scope :=
  ⟨⟨fun hCounted => absurd hCounted hCounts, fun _ _ => .inl hWild⟩, fun _ _ => .inl hWild,
    hPlaced⟩

theorem State.orderly_of_placed (hWild : scope.wild) (hCounts : ¬ scope.counts)
    (hPlaced : ∀ plan ∈ scope.plan?, st.Placed plan) :
    st.Orderly scope where
  stack := ⟨fun hCounted => absurd hCounted hCounts, fun _ _ => .inl hWild⟩
  locals := ⟨fun _ _ => .inl hWild, fun plan hPlan => (hPlaced plan hPlan).locals⟩
  agreed entry hEntry := Join.orderly_of_placed hWild hCounts fun plan hPlan =>
    (hPlaced plan hPlan).agreed entry hEntry

theorem State.Placed.orderly (hPlaced : st.Placed plan) :
    st.Orderly (.following True plan) :=
  orderly_of_placed trivial id fun _ hPlan => Option.mem_some_iff.mp hPlan ▸ hPlaced

theorem State.orderly_any (st : State) : st.Orderly .any :=
  orderly_of_placed trivial id nofun

-- Where steps lead

/- What is agreed at labels and whether control comes here is as before. -/
structure Held (start st : State) : Prop where
  agreed : st.agreed = start.agreed
  reachable : st.reachable = start.reachable

/-
  If nothing is noted as modified, then the edit at hand is the
  same too. An element that stands goes on doing so, unless it
  may be taken out.
-/
structure Edits (scope : Scope) (start st : State) : Prop where
  modified : st.modified = false → start.modified = false ∧ st.edit = start.edit
  stands : scope.removes ∨ (start.edit.Stands → st.edit.Stands)

theorem Edits.same (hModified : st.modified = start.modified)
    (hEdit : st.edit = start.edit) :
    Edits scope start st :=
  ⟨fun hFalse => ⟨hModified ▸ hFalse, hEdit⟩, .inr fun hStands => hEdit ▸ hStands⟩

theorem Edits.trans {first second third : State}
    (hFirst : Edits scope first second) (hSecond : Edits scope second third) :
    Edits scope first third where
  modified hThird := by
    obtain ⟨hMiddle, hEdit⟩ := hSecond.modified hThird
    obtain ⟨hStart, hBefore⟩ := hFirst.modified hMiddle
    exact ⟨hStart, hEdit.trans hBefore⟩
  stands := hSecond.stands.elim .inl fun hThird =>
    hFirst.stands.imp_right fun hMiddle hStands => hThird (hMiddle hStands)

/-
  The same element of the same code is looked at, and what is
  noted at labels follows the plan.
-/
structure AtPlace (scope : Scope) (start st : State) : Prop where
  code : st.code = start.code
  here : st.here = start.here
  frames : st.pendingFrames = start.pendingFrames
  seeding : st.seeding = start.seeding ∨ scope.marks ∧ SeededFrom start st
  edit : Edits scope start st
  noted : ∀ entry ∈ st.reached,
    entry ∈ start.reached ∨ ∀ plan ∈ scope.plan?, PlacedCells plan entry.2.cells

theorem AtPlace.seededFrom (hPlace : AtPlace scope start st) :
    SeededFrom start st :=
  hPlace.seeding.elim .inl And.right

theorem AtPlace.trans {first second third : State}
    (hFirst : AtPlace scope first second) (hSecond : AtPlace scope second third) :
    AtPlace scope first third where
  code := hSecond.code.trans hFirst.code
  here := hSecond.here.trans hFirst.here
  frames := hSecond.frames.trans hFirst.frames
  seeding := by
    have hSeeded := hFirst.seededFrom.trans hFirst.code hFirst.here hSecond.seededFrom
    rcases hSecond.seeding with hSame | ⟨hMarks, _⟩
    · rcases hFirst.seeding with hFirst | ⟨hMarks, _⟩
      · exact .inl (hSame.trans hFirst)
      · exact .inr ⟨hMarks, hSeeded⟩
    · exact .inr ⟨hMarks, hSeeded⟩
  edit := hFirst.edit.trans hSecond.edit
  noted entry hEntry := (hSecond.noted entry hEntry).elim (hFirst.noted entry) .inr

/- A state that a step within a scope can lead to. -/
structure Leads (scope : Scope) (start st : State) : Prop where
  orderly : st.Orderly scope
  locals : scope.stores ∨ st.locals = start.locals
  held : scope.agrees ∨ Held start st
  agreed : ∀ label join,
    start.agreed.lookup label = some join → st.agreed.lookup label = some join
  place : scope.edits ∨ AtPlace scope start st

theorem Leads.refl (hState : st.Orderly scope) : Leads scope st st where
  orderly := hState
  locals := .inr rfl
  held := .inr ⟨rfl, rfl⟩
  agreed _ _ hJoin := hJoin
  place := .inr ⟨rfl, rfl, rfl, .inl rfl, .same rfl rfl, fun _ => .inl⟩

theorem Leads.trans {first second third : State} (hFirst : Leads scope first second)
    (hSecond : Leads scope second third) :
    Leads scope first third where
  orderly := hSecond.orderly
  locals := hSecond.locals.elim .inl fun hThird => hFirst.locals.imp_right hThird.trans
  held := hSecond.held.elim .inl fun hThird => hFirst.held.imp_right fun hHeld =>
    ⟨hThird.agreed.trans hHeld.agreed, hThird.reachable.trans hHeld.reachable⟩
  agreed label join hJoin := hSecond.agreed label join (hFirst.agreed label join hJoin)
  place := hSecond.place.elim .inl fun hThird => hFirst.place.imp_right (·.trans hThird)

theorem Leads.placed {wild : Prop} (hLeads : Leads (.following wild plan) start st) :
    st.Placed plan :=
  hLeads.orderly.placed rfl

/- Whatever else may have changed. -/
theorem State.Placed.leads (hAfter : after.Placed plan)
    (hAgreed : after.agreed = st.agreed) :
    Leads (.following True plan) st after :=
  ⟨hAfter.orderly, .inl trivial, .inl trivial, fun _ _ hJoin => hAgreed ▸ hJoin, .inl trivial⟩

/- Another stack with the same locals and labels. -/
theorem Leads.of_same (hState : st.Orderly scope)
    (hStack : after.stack.Orderly scope.counts (Tag.Tame scope.wild))
    (hLocals : after.locals = st.locals) (hHeld : Held st after)
    (hPlace : scope.edits ∨ AtPlace scope st after) :
    Leads scope st after := by
  refine ⟨⟨hStack, ?_, ?_⟩, .inr hLocals, .inr hHeld, ?_, hPlace⟩
  · rw [hLocals]
    exact hState.locals
  · rw [hHeld.agreed]
    exact hState.agreed
  · rw [hHeld.agreed]
    exact fun _ _ hJoin => hJoin

/-
  What the work on one operand rests on: the locals, what is
  known about labels, and where in the code it is done.
-/
structure Ground where
  locals : SlotMap
  agreed : List (Label × Join)
  reached : List (Label × SlotSnapshot)
  reachable : Bool
  seeding : Seeding
  pendingFrames : List (Handle × FrameChange)
  code : Sequence Node
  here : Handle

/- The ground in a state. -/
def State.ground (st : State) : Ground where
  locals := st.locals
  agreed := st.agreed
  reached := st.reached
  reachable := st.reachable
  seeding := st.seeding
  pendingFrames := st.pendingFrames
  code := st.code
  here := st.here

/- Another stack on the same ground is within every scope. -/
theorem Leads.of_ground (hState : st.Orderly scope)
    (hStack : after.stack.Orderly scope.counts (Tag.Tame scope.wild))
    (hGround : after.ground = st.ground)
    (hEdit : Edits scope st after) :
    Leads scope st after :=
  .of_same hState hStack (congrArg Ground.locals hGround)
    ⟨congrArg Ground.agreed hGround, congrArg Ground.reachable hGround⟩
    (.inr ⟨congrArg Ground.code hGround, congrArg Ground.here hGround,
      congrArg Ground.pendingFrames hGround, .inl (congrArg Ground.seeding hGround), hEdit,
      fun _ hEntry => .inl ((congrArg (_ ∈ Ground.reached ·) hGround).mp hEntry)⟩)

-- Steps

/-
  A step within a scope: it looks neither at the settings nor at
  the findings, leads to states of the scope, and does not fail
  for want of a place if there is a plan.
-/
inductive Steps (scope : Scope) : {α : Type} → Simulation α → (α → Prop) → Prop where
  | pure
      {α : Type} {result : α} {want : α → Prop}
      (hResult : want result) :
      Steps scope (Pure.pure result) want
  | throw
      {α : Type} {cause : FailureCause} {want : α → Prop}
      (hCause : cause = noPlace → scope.plan? = none) :
      Steps scope (MonadExcept.throw cause : Simulation α) want
  | note (kind : DiagnosticKind) : Steps scope (diagnose kind) (fun _ => True)
  | bind
      {α β : Type} {act : Simulation α} {next : α → Simulation β} {want : α → Prop}
      {final : β → Prop}
      (hAct : Steps scope act want)
      (hNext : ∀ result, want result → Steps scope (next result) final) :
      Steps scope (act >>= next) final
  | look
      {β : Type} {next : State → Simulation β} {final : β → Prop}
      (hSame : ∀ st found, next (st.withFindings found) = next st)
      (hNext : ∀ st, st.Orderly scope → Steps scope (next st) final) :
      Steps scope (get >>= next) final
  | consult
      {β : Type} {next : Context → Simulation β} {final : β → Prop}
      (hSame : ∀ ctx settings, next (ctx.under settings) = next ctx)
      (hNext : ∀ ctx, scope.Knows ctx → Steps scope (next ctx) final) :
      Steps scope (read >>= next) final
  | change
      {change : State → State}
      (hFindings : ∀ st found,
        change (st.withFindings found) = (change st).withFindings found)
      (hChange : ∀ st, st.Orderly scope → Leads scope st (change st)) :
      Steps scope (modify change) (fun _ => True)
  /- More is known of the result if one looks at the run. -/
  | sharpen
      {α : Type} {act : Simulation α} {want sharper : α → Prop}
      (hAct : Steps scope act want)
      (hSharper : ∀ ctx st result after, st.Orderly scope →
        act ctx st = .ok result after → want result → sharper result) :
      Steps scope act sharper

/- A step within a scope of whose result nothing is asked. -/
abbrev Goes (scope : Scope) {α : Type} (act : Simulation α) : Prop :=
  Steps scope act fun _ => True

theorem keeps_diagnose (kind : DiagnosticKind)
    {invariant : State → Prop} {allowed : FailureCause → Prop}
    (hStrict : allowed (.strictDiagnostic kind))
    (hNoted : ∀ st found, invariant st → invariant (st.withFindings found)) :
    Keeps ctx invariant allowed (diagnose kind) (fun _ => True) := by
  intro st hState
  rw [diagnose_apply]
  cases ctx.settings.isSuppressed kind with
  | true => exact ⟨hState, trivial⟩
  | false =>
    cases ctx.settings.strict with
    | true => exact ⟨hState, hStrict⟩
    | false => exact ⟨hNoted st _ hState, trivial⟩

namespace Steps

variable {act : Simulation α} {want : α → Prop}

/- A step leads from one state of the scope to another. -/
theorem keeps (hSteps : Steps scope act want) (hContext : scope.Knows ctx) :
    Keeps ctx (Leads scope start) (fun cause => cause = noPlace → scope.plan? = none)
      act want := by
  induction hSteps with
  | pure hResult => exact Keeps.pure hResult
  | throw hCause => exact Keeps.throw hCause
  | note kind =>
    apply keeps_diagnose kind (by simp [noPlace])
    intro st found hState
    exact hState.trans (.of_ground hState.orderly hState.orderly.stack rfl (.same rfl rfl))
  | bind _ _ ihAct ihNext => exact ihAct.bind ihNext
  | look _ _ ihNext => exact Keeps.get.bind fun st hState => ihNext st hState.orderly
  | consult _ _ ihNext =>
    refine Keeps.read.bind fun found hFound => ?_
    subst hFound
    exact ihNext found hContext
  | change _ hChange =>
    exact Keeps.modify fun st hState => hState.trans (hChange st hState.orderly)
  | sharpen _ hSharper ih =>
    intro st hState
    have hAfter := ih st hState
    split at hAfter
    · rename_i hOk
      exact ⟨hAfter.1, hSharper _ _ _ _ hState.orderly hOk hAfter.2⟩
    · exact hAfter

theorem of_ok (hSteps : Steps scope act want) (hContext : scope.Knows ctx)
    (hState : st.Orderly scope) {result : α}
    (hOk : act ctx st = .ok result after) :
    Leads scope st after ∧ want result :=
  (hSteps.keeps hContext).of_ok (.refl hState) hOk

/- What is known of labels stays if no label may be settled. -/
theorem held (hSteps : Steps .held act want) {result : α}
    (hOk : act ctx st = .ok result after) :
    Held st after := by
  have hState : st.Orderly .held :=
    State.orderly_of_placed trivial id nofun
  exact (hSteps.of_ok (.inl trivial) hState hOk).1.held.resolve_left id

/- What follows a plan goes on doing so. -/
theorem leads (hSteps : Steps (.following True plan) act want)
    (hPlaced : st.Placed plan) {result : α} (hOk : act ctx st = .ok result after) :
    Leads (.following True plan) st after ∧ want result :=
  hSteps.of_ok (.inl trivial) hPlaced.orderly hOk

theorem placed (hSteps : Steps (.following True plan) act want)
    (hPlaced : st.Placed plan) {result : α} (hOk : act ctx st = .ok result after) :
    after.Placed plan :=
  (hSteps.leads hPlaced hOk).1.placed

-- Ways to put steps together

/- Nothing comes after a failure. -/
theorem throw_bind {cause : FailureCause} (next : α → Simulation β) {final : β → Prop}
    (hCause : cause = noPlace → scope.plan? = none)
    (hNext : ∀ result, Steps scope (next result) final) :
    Steps scope (MonadExcept.throw cause >>= next) final :=
  Steps.bind (.throw hCause : Goes scope _) fun result _ => hNext result

section

variable {condition : Prop} [Decidable condition]

theorem ite {yes no : Simulation α} (hYes : Steps scope yes want)
    (hNo : Steps scope no want) :
    Steps scope (if condition then yes else no) want := by
  split
  · exact hYes
  · exact hNo

theorem first {rest : Simulation β} {final : β → Prop} (hAct : Steps scope act want)
    (hRest : Steps scope rest final) :
    Steps scope (if condition then act >>= fun _ => rest else rest) final :=
  .ite (hAct.bind fun _ _ => hRest) hRest

/- A step fails under a condition. -/
theorem guarded {cause : FailureCause} (hCause : cause = noPlace → scope.plan? = none)
    (hAct : Steps scope act want) :
    Steps scope
      (if condition then MonadExcept.throw cause >>= fun (_ : PUnit) => act else act) want :=
  .ite (.throw_bind _ hCause fun _ => hAct) hAct

end

theorem forM {items : List α} {act : α → Simulation PUnit}
    (hAct : ∀ item ∈ items, Goes scope (act item)) :
    Goes scope (items.forM act) := by
  induction items with
  | nil => exact .pure trivial
  | cons item items ih =>
    simp only [List.forM_eq_forM, List.forM_cons] at ih ⊢
    rw [List.forall_mem_cons] at hAct
    exact hAct.1.bind fun _ _ => ih hAct.2

theorem mapM {items : List α} {act : α → Simulation β}
    (hAct : ∀ item, Goes scope (act item)) :
    Goes scope (items.mapM act) := by
  induction items with
  | nil => exact .pure trivial
  | cons item rest ih =>
    rw [List.mapM_cons]
    exact (hAct item).bind fun _ _ => ih.bind fun _ _ => .pure trivial

end Steps

end Simulation

end Unboxing
