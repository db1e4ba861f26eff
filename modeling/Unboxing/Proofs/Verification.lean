import Mathlib.Data.List.Forall2
import Unboxing.MethodUnboxing
import Unboxing.Proofs.FrameExpansion
import Unboxing.Proofs.Machine

/-
  The verification of a body: one pass that gives stack and
  locals a type before each element and compares them with the
  frames at the targets of branches. A run of a verified body
  never leaves the types.

  Main declarations:
    * `Typing`
    * `Verifier.step`
    * `Method.Verified`
    * `World.Typed`
    * `World.Typed.exec`
-/

namespace Unboxing

open List

variable {b : Branch} {next : Option Typing}

-- Types of stack and locals

namespace FrameType

/- The kind of instructions that move values of a type. -/
def kind? : FrameType → Option ValueKind
  | .top => none
  | .int => some .int
  | .float => some .float
  | .long => some .long
  | .double => some .double
  | .null | .uninitializedThis | .object _ | .uninitialized _ => some .reference

/- A type of values of a kind. -/
def ofKind : ValueKind → FrameType
  | .int => .int
  | .long => .long
  | .float => .float
  | .double => .double
  | .reference => .object (.object .object)

/- Whether an array type has no more dimensions than types can have. -/
def isWellFormed : FrameType → Bool
  | .object type => decide (type.depth ≤ 255)
  | _ => true

end FrameType

/- Whether all types of a frame are well-formed. -/
def Frame.isWellFormed (frame : Frame) : Bool :=
  (frame.locals.elements ++ frame.stack).all FrameType.isWellFormed

/- The types of the locals, by slot, and of the stack, the top first. -/
structure Typing where
  locals : Nat → FrameType
  stack : List FrameType

namespace Typing

def ofFrame (frame : Frame) : Typing where
  locals := fun slot => (frame.locals.startingAt? slot).getD .top
  stack := frame.stack.reverse

def push (typing : Typing) (type : FrameType) : Typing :=
  { typing with stack := type :: typing.stack }

/- The types without those of some operands, if these are of given kinds. -/
def pop? (typing : Typing) (kinds : List ValueKind) : Option Typing :=
  if (typing.stack.take kinds.length).map FrameType.kind? = kinds.map some then
    some { typing with stack := typing.stack.drop kinds.length }
  else
    none

/- The types after a value was stored. A value that loses a cell is gone. -/
def store (typing : Typing) (slot : Nat) (type : FrameType) : Typing :=
  { typing with
    locals := fun other =>
      if other = slot then
        type
      else if slot < other ∧ other < slot + width type then
        .top
      else if other < slot ∧ slot < other + width (typing.locals other) then
        .top
      else
        typing.locals other }

/- The types after an instruction, if it can be executed. -/
def after? (typing : Typing) : Instruction → Option Typing
  | .plain op => (typing.pop? op.takes).map fun popped =>
    { popped with
      stack := op.leaves.toList.map FrameType.ofKind ++ popped.stack }
  | .pushNull => some (typing.push .null)
  | .pushByte _ | .pushShort _ => some (typing.push .int)
  | .constant value => some (typing.push value.frameType)
  | .load kind slot =>
    if (typing.locals slot).kind? = some kind then
      some (typing.push (typing.locals slot))
    else
      none
  | .store kind slot =>
    match typing.stack with
    | type :: stack =>
      if type.kind? = some kind then
        some ((Typing.mk typing.locals stack).store slot type)
      else
        none
    | [] => none
  | .increment slot _ =>
    if typing.locals slot = .int then some typing else none
  | _ => none

/- Whether values of these types are of the types that a frame declares. -/
def fits (assignable : FrameType → FrameType → Bool) (typing : Typing)
    (frame : Frame) : Bool :=
  frame.locals.entries.all (fun (slot, declared) =>
      assignable (typing.locals slot) declared)
    && typing.stack.length == frame.stack.length
    && (typing.stack.zip frame.stack.reverse).all (fun (found, declared) =>
      assignable found declared)

end Typing

-- The pass

/- The kinds of the operands of a branch, the top of the stack first. -/
def Branch.takes : Branch → List ValueKind
  | .ifInt .. => [.int]
  | .ifInts .. => [.int, .int]
  | .ifRefs .. => [.reference, .reference]
  | .ifNull .. => [.reference]
  | .goto _ => []
  | .tableSwitch .. | .lookupSwitch .. => [.int]
  | .ret kind => kind.toList
  | .throw => [.reference]

/- Which types go where others are declared, the frames, and the result. -/
structure Verifier where
  assignable : FrameType → FrameType → Bool
  frames : SourceFrames
  result : Option FieldType

namespace Verifier

/- Whether there is a frame at a label that some types fit. -/
def accepts (verifier : Verifier) (typing : Typing) (target : Label) : Bool :=
  (verifier.frames.frame? target).any (typing.fits verifier.assignable)

/- Whether a branch returns only what is declared. -/
def returns (verifier : Verifier) (typing : Typing) : Branch → Bool
  | .ret none => verifier.result.isNone
  | .ret (some _) =>
    verifier.result.any fun type =>
      typing.stack.head?.any (verifier.assignable · (.ofFieldType type))
  | _ => true

/- The types after a branch, none if control cannot come there. -/
def branch? (verifier : Verifier) (typing : Typing)
    (b : Branch) : Option (Option Typing) :=
  (typing.pop? b.takes).bind fun popped =>
    if b.labels.all (verifier.accepts popped) && verifier.returns typing b then
      some (if b.fallsThrough then some popped else none)
    else
      none

/-
  The types after an element, none if control cannot come
  there. A frame settles the types at its label, and only such
  labels can be jumped to.
-/
def step (verifier : Verifier) (typing : Option Typing) : Node → Option (Option Typing)
  | .line _ | .frame _ => some typing
  | .label l =>
    match verifier.frames.frame? l with
    | some frame =>
      if typing.all (Typing.fits verifier.assignable · frame) then
        some (some (.ofFrame frame))
      else
        none
    | none => if verifier.frames.isTarget l then none else some typing
  | .insn i =>
    match typing with
    | some typing => (typing.after? i).map some
    | none => some none
  | .branch b =>
    match typing with
    | some typing => verifier.branch? typing b
    | none => some none

def typingAt? (verifier : Verifier) (initial : Typing) (nodes : List Node)
    (i : Nat) : Option (Option Typing) :=
  (nodes.take i).foldlM verifier.step (some initial)

end Verifier

/- Whether an instruction only moves constants, locals and primitives. -/
def Instruction.isBasic : Instruction → Bool
  | .plain _ | .pushNull | .pushByte _ | .pushShort _ | .constant _
  | .load .. | .store .. | .increment .. => true
  | _ => false

/- Whether a branch looks at no more than one reference. -/
def Branch.isBasic : Branch → Bool
  | .ifRefs .. | .throw => false
  | _ => true

/- Whether an element does not deal with objects but as values. -/
def Node.isBasic : Node → Bool
  | .insn i => i.isBasic
  | .branch b => b.isBasic
  | _ => true

def Method.verifier (method : Method) (assignable : FrameType → FrameType → Bool)
    (owner : ClassName) (body : Body) : Verifier where
  assignable := assignable
  frames := .scan body.nodes (method.initialFrame owner)
  result := method.type.result

/- A body that has only basic elements and passes the verification. -/
structure Method.Verified (method : Method) (assignable : FrameType → FrameType → Bool)
    (owner : ClassName) (body : Body) : Prop where
  basic : ∀ node ∈ body.nodes, node.isBasic = true
  initial : (method.initialFrame owner).isWellFormed = true
  frames : ∀ entry ∈ (method.verifier assignable owner body).frames.atLabel,
    entry.2.isWellFormed = true
  typed : ((method.verifier assignable owner body).typingAt?
    (.ofFrame (method.initialFrame owner)) body.nodes body.nodes.length).isSome = true

-- What the pass has checked

theorem Typing.eq_of_pop? {typing popped : Typing} {kinds : List ValueKind}
    (hPop : typing.pop? kinds = some popped) :
    popped = { typing with stack := typing.stack.drop kinds.length } := by
  unfold pop? at hPop
  split at hPop
  · cases hPop
    rfl
  · cases hPop

/- The type of a slot is assignable to the one that a frame declares for it. -/
theorem Typing.assignable_of_fits {assignable : FrameType → FrameType → Bool}
    (typing : Typing) {frame : Frame} (hFits : typing.fits assignable frame = true)
    {slot : Nat} {declared : FrameType}
    (hDeclared : frame.locals.startingAt? slot = some declared) :
    assignable (typing.locals slot) declared = true := by
  simp only [fits, Bool.and_eq_true, all_eq_true] at hFits
  exact hFits.1.1 _ (Layout.mem_of_startingAt? hDeclared)

/- Whether a branch can go on at a label, or right after it. -/
def Branch.CanGo (b : Branch) : Option Label → Prop
  | some target => target ∈ b.labels
  | none => b.fallsThrough = true

theorem Branch.canGo_jumpIf {target : Label} (hFalls : b.fallsThrough = true)
    (hTarget : target ∈ b.labels) (holds : Bool) :
    b.CanGo (jumpIf holds target) := by
  cases holds
  · exact hFalls
  · exact hTarget

/-
  A decided branch takes its operands off the stack and goes to
  one of its labels, or falls through if it can.
-/
theorem Branch.decide?_ok
    {Object : Type} {stack rest : List (Datum Object)} {target : Option Label}
    (hDecide : b.decide? stack = some (target, rest)) :
    rest = stack.drop b.takes.length ∧ b.CanGo target := by
  unfold decide? at hDecide
  split at hDecide
  · cases hDecide
    exact ⟨rfl, canGo_jumpIf rfl (mem_cons_self ..) _⟩
  · cases hDecide
    exact ⟨rfl, canGo_jumpIf rfl (mem_cons_self ..) _⟩
  · cases hDecide
    exact ⟨rfl, canGo_jumpIf rfl (mem_cons_self ..) _⟩
  · cases hDecide
    exact ⟨rfl, mem_cons_self ..⟩
  · rename_i default low targets number under
    cases hDecide
    refine ⟨rfl, ?_⟩
    change _ ∈ default :: targets
    split
    · cases hFound : targets[(number - low).toNat]? with
      | none => exact mem_cons_self ..
      | some found =>
        exact mem_cons_of_mem _ (mem_of_getElem? hFound)
    · exact mem_cons_self ..
  · rename_i default targets number under
    cases hDecide
    refine ⟨rfl, ?_⟩
    change _ ∈ default :: targets.map Prod.snd
    cases hFound : targets.lookup number with
    | none => exact mem_cons_self ..
    | some found =>
      rcases lookup_eq_some_iff.mp hFound with ⟨before, after, hSplit, _⟩
      simp [hSplit]
  · cases hDecide

/- The operands of a branch are checked, and the frames at its labels. -/
structure Verifier.Passed (verifier : Verifier) (typing popped : Typing)
    (b : Branch) : Prop where
  operands : typing.pop? b.takes = some popped
  labels : ∀ l ∈ b.labels, ∃ frame, verifier.frames.frame? l = some frame ∧
      popped.fits verifier.assignable frame = true
  returns : verifier.returns typing b = true

theorem Verifier.branch?_ok {verifier : Verifier} {typing : Typing}
    (hBranch : verifier.branch? typing b = some next) :
    ∃ popped, verifier.Passed typing popped b ∧
      next = if b.fallsThrough then some popped else none := by
  rw [branch?, Option.bind_eq_some_iff] at hBranch
  rcases hBranch with ⟨popped, hPop, hBranch⟩
  split at hBranch
  · rename_i hChecked
    cases hBranch
    rw [Bool.and_eq_true, all_eq_true] at hChecked
    refine ⟨popped, ⟨hPop, ?_, hChecked.2⟩, rfl⟩
    intro l hLabel
    exact (Option.any_eq_true _ _).mp (hChecked.1 l hLabel)
  · cases hBranch

theorem Verifier.step_label_frame
    {verifier : Verifier} {typing : Option Typing} {l : Label} {frame : Frame}
    (hFrame : verifier.frames.frame? l = some frame)
    (hStep : verifier.step typing (.label l) = some next) :
    next = some (.ofFrame frame) ∧ typing.all (Typing.fits verifier.assignable · frame) = true := by
  simp only [step, hFrame] at hStep
  split at hStep
  · rename_i hFits
    cases hStep
    exact ⟨rfl, hFits⟩
  · cases hStep

theorem Verifier.step_label_free
    {verifier : Verifier} {typing : Option Typing} {l : Label}
    (hFrame : verifier.frames.frame? l = none)
    (hStep : verifier.step typing (.label l) = some next) :
    next = typing ∧ verifier.frames.isTarget l = false := by
  simp only [step, hFrame] at hStep
  split at hStep
  · cases hStep
  · rename_i hFree
    cases hStep
    exact ⟨rfl, Bool.not_eq_true _ ▸ hFree⟩

/- The pass goes from the types before an element to those after it. -/
theorem Verifier.typingAt?_succ
    {verifier : Verifier} {initial : Typing} {nodes : List Node} {i : Nat} {node : Node}
    (hNode : nodes[i]? = some node) :
    verifier.typingAt? initial nodes (i + 1) =
      (verifier.typingAt? initial nodes i).bind (verifier.step · node) := by
  unfold typingAt?
  rw [take_add_one, hNode, foldlM_append]
  simp

/- If the pass goes through, it has come before every element. -/
theorem Verifier.typingAt?_of_le
    {verifier : Verifier} {initial : Typing} {nodes : List Node} {count i : Nat}
    (hTyped : (verifier.typingAt? initial nodes count).isSome = true) (hLe : i ≤ count) :
    ∃ typing, verifier.typingAt? initial nodes i = some typing := by
  unfold typingAt? at hTyped ⊢
  rw [← take_append_drop i (nodes.take count), take_take,
    Nat.min_eq_left hLe, foldlM_append] at hTyped
  cases hFirst : (nodes.take i).foldlM verifier.step (some initial) with
  | some typing => exact ⟨typing, rfl⟩
  | none =>
    rw [hFirst] at hTyped
    cases hTyped

-- Values of types

namespace World

/- Whether a value is of a type. No value is of an uninitialized one. -/
inductive HasType (world : World) : world.Val → FrameType → Prop where
  | top (value : world.Val) : HasType world value .top
  | int (number : Int) : HasType world (.int number) .int
  | long (number : Int) : HasType world (.long number) .long
  | float (number : Binary.Value) : HasType world (.float number) .float
  | double (number : Binary.Value) : HasType world (.double number) .double
  | null : HasType world (.ref none) .null
  | object
      {type : RefType} {reference : Option world.Object}
      (hFits : world.Fits type reference) :
      HasType world (.ref reference) (.object type)

/- Whether values of a type are also of every type it is assignable to. -/
def Sound (world : World) (assignable : FrameType → FrameType → Bool) : Prop :=
  ∀ found declared value, assignable found declared = true →
      world.HasType value found → world.HasType value declared

variable {world : World}

theorem HasType.width_eq {value : world.Val} {type : FrameType}
    (hType : world.HasType value type) (hTop : type ≠ .top) :
    width type = width value := by
  cases hType <;> first | rfl | exact absurd rfl hTop

theorem hasType_ofKind {value : world.Val} (hKind : value.kind ≠ .reference) :
    world.HasType value (.ofKind value.kind) := by
  cases value with
  | int number => exact .int number
  | long number => exact .long number
  | float number => exact .float number
  | double number => exact .double number
  | ref target => exact absurd rfl hKind

theorem leaves_ne_reference (op : Plain) : op.leaves ≠ some .reference := by
  cases op <;> decide

/- The results of a computation are of the kinds that it leaves. -/
theorem hasType_results {op : Plain} {operands results : List world.Val}
    (hCompute : world.compute op operands = some results) :
    Forall₂ world.HasType results
      (op.leaves.toList.map FrameType.ofKind) := by
  rw [← world.compute_kinds op operands results hCompute, map_map,
    List.forall₂_map_right_iff, List.forall₂_same]
  intro value hValue
  apply hasType_ofKind
  intro hKind
  have hMember : value.kind ∈ results.map Datum.kind :=
    mem_map_of_mem hValue
  rw [world.compute_kinds op operands results hCompute, hKind, Option.mem_toList] at hMember
  exact leaves_ne_reference op hMember

theorem hasType_constant (value : Constant) :
    world.HasType (world.constant value) value.frameType := by
  have hObject (type : RefType) (hType : value.frameType = .object type) :
      world.HasType (.ref (some (world.literal value))) (.object type) := by
    refine .object fun object hObject => ?_
    cases hObject
    exact world.literal_isInstance value type hType
  cases value with
  | int number => exact .int number
  | float number => exact .float number
  | long number => exact .long number
  | double number => exact .double number
  | string text | type named | methodType type => exact hObject _ rfl

/- Only the type of all values can be had by an integer and by null. -/
theorem Sound.ne_top {assignable : FrameType → FrameType → Bool}
    (hSound : world.Sound assignable) {found declared : FrameType}
    (hAssignable : assignable found declared = true) (hDeclared : declared ≠ .top) :
    found ≠ .top := by
  rintro rfl
  have hInt := hSound _ _ _ hAssignable (.top (.int 0))
  have hNull := hSound _ _ _ hAssignable (.top (.ref none))
  cases hInt <;> first | exact hDeclared rfl | cases hNull

theorem Sound.forall₂ {assignable : FrameType → FrameType → Bool}
    (hSound : world.Sound assignable)
    {values : List world.Val} {found declared : List FrameType}
    (hFound : Forall₂ world.HasType values found)
    (hAssignable : Forall₂ (fun first second =>
      assignable first second = true) found declared) :
    Forall₂ world.HasType values declared := by
  induction hFound generalizing declared with
  | nil =>
    cases hAssignable
    exact .nil
  | cons hType _ ih =>
    cases hAssignable with
    | cons hFirst hRest => exact .cons (hSound _ _ _ hFirst hType) (ih hRest)

/- Stack and locals hold values of their types. -/
structure Typed (world : World) (typing : Typing) (stack : List world.Val)
    (locals : Locals world.Object) : Prop where
  stack : Forall₂ world.HasType stack typing.stack
  locals : ∀ slot, typing.locals slot ≠ .top → ∃ value, locals slot = some value ∧
      world.HasType value (typing.locals slot)

namespace Typed

variable {typing : Typing} {stack : List world.Val}
variable {locals : Locals world.Object} {value : world.Val}

section

variable (hTyped : world.Typed typing stack locals)
include hTyped

theorem push {type : FrameType} (hType : world.HasType value type) :
    world.Typed (typing.push type) (value :: stack) locals where
  stack := .cons hType hTyped.stack
  locals := hTyped.locals

theorem drop (count : Nat) :
    world.Typed { typing with stack := typing.stack.drop count }
      (stack.drop count) locals where
  stack := List.forall₂_drop count hTyped.stack
  locals := hTyped.locals

theorem pop {kinds : List ValueKind} {popped : Typing}
    (hPop : typing.pop? kinds = some popped) :
    world.Typed popped (stack.drop kinds.length) locals := by
  rw [Typing.eq_of_pop? hPop]
  exact hTyped.drop kinds.length

/- A stored value keeps the others but those whose cells it takes. -/
theorem store {type : FrameType} (hType : world.HasType value type) (hTop : type ≠ .top)
    (slot : Nat) :
    world.Typed (typing.store slot type) stack (locals.store slot value) where
  stack := hTyped.stack
  locals := by
    intro other hOther
    simp only [Typing.store] at hOther ⊢
    split at hOther
    · rename_i hSame
      subst hSame
      simp only [if_true]
      exact ⟨value, locals.store_self other value, hType⟩
    · rename_i hDifferent
      split at hOther
      · exact absurd rfl hOther
      · rename_i hAfter
        split at hOther
        · exact absurd rfl hOther
        · rename_i hBefore
          rcases hTyped.locals other hOther with ⟨old, hOld, hOldType⟩
          rw [if_neg hDifferent, if_neg hAfter, if_neg hBefore]
          refine ⟨old, ?_, hOldType⟩
          rw [hType.width_eq hTop] at hAfter
          rw [hOldType.width_eq hOther] at hBefore
          exact Locals.store_of_apart hOld hDifferent (by omega)

theorem replace {slot : Nat} (hType : world.HasType value (typing.locals slot)) :
    world.Typed typing stack (locals.replace slot value) where
  stack := hTyped.stack
  locals := by
    intro other hOther
    unfold Locals.replace
    split
    · rename_i hSame
      subst hSame
      exact ⟨value, rfl, hType⟩
    · exact hTyped.locals other hOther

end

/- Values of types that fit a frame are of the types that it declares. -/
theorem fits {assignable : FrameType → FrameType → Bool} (hSound : world.Sound assignable)
    (hTyped : world.Typed typing stack locals) {frame : Frame}
    (hFits : typing.fits assignable frame = true) :
    world.Typed (.ofFrame frame) stack locals := by
  constructor
  · simp only [Typing.fits, Bool.and_eq_true, all_eq_true, beq_iff_eq] at hFits
    rcases hFits with ⟨⟨_, hLength⟩, hStack⟩
    have hAssignable : Forall₂ (fun found declared =>
        assignable found declared = true) typing.stack frame.stack.reverse := by
      rw [List.forall₂_iff_zip]
      refine ⟨by simpa using hLength, ?_⟩
      intro found declared hMember
      exact hStack _ hMember
    exact hSound.forall₂ hTyped.stack hAssignable
  · intro slot hTop
    simp only [Typing.ofFrame] at hTop ⊢
    cases hDeclared : frame.locals.startingAt? slot with
    | none =>
      rw [hDeclared] at hTop
      exact absurd rfl hTop
    | some declared =>
      rw [hDeclared] at hTop
      have hAssignable := typing.assignable_of_fits hFits hDeclared
      rcases hTyped.locals slot (hSound.ne_top hAssignable hTop) with
        ⟨value, hValue, hType⟩
      exact ⟨value, hValue, hSound _ _ _ hAssignable hType⟩

/- An instruction that can be executed by types leaves values of types. -/
theorem exec {i : Instruction} {after : Typing} {last : List world.Val}
    {lastLocals : Locals world.Object} (hTyped : world.Typed typing stack locals)
    (hAfter : typing.after? i = some after)
    (hExec : world.Exec i stack locals last lastLocals) :
    world.Typed after last lastLocals := by
  cases hExec with
  | plain hOperands hCompute rest =>
    rename_i op operands results
    simp only [Typing.after?, Option.map_eq_some_iff] at hAfter
    rcases hAfter with ⟨popped, hPop, rfl⟩
    have hLength : op.takes.length = operands.length := by
      rw [← hOperands, length_map]
    have hPopped := hTyped.pop hPop
    rw [hLength, drop_left] at hPopped
    refine ⟨?_, hPopped.locals⟩
    exact rel_append (hasType_results hCompute) hPopped.stack
  | pushNull =>
    cases hAfter
    exact hTyped.push .null
  | pushByte number | pushShort number =>
    cases hAfter
    exact hTyped.push (.int number)
  | constant value =>
    cases hAfter
    exact hTyped.push (hasType_constant value)
  | load hValue =>
    rename_i slot value
    simp only [Typing.after?] at hAfter
    split at hAfter
    · rename_i hKind
      cases hAfter
      have hTop : typing.locals slot ≠ .top := by
        intro hFree
        rw [hFree] at hKind
        cases hKind
      rcases hTyped.locals slot hTop with ⟨typed, hTypedValue, hType⟩
      rw [hValue] at hTypedValue
      cases hTypedValue
      exact hTyped.push hType
    · cases hAfter
  | store slot value rest =>
    rcases List.forall₂_cons_left_iff.mp hTyped.stack with
      ⟨type, types, hType, hRest, hTypes⟩
    simp only [Typing.after?, hTypes] at hAfter
    split at hAfter
    · rename_i hKind
      cases hAfter
      have hUnder : world.Typed ⟨typing.locals, types⟩ last locals :=
        ⟨hRest, hTyped.locals⟩
      refine hUnder.store hType ?_ slot
      rintro rfl
      cases hKind
    · cases hAfter
  | increment hValue delta =>
    simp only [Typing.after?] at hAfter
    split at hAfter
    · rename_i hInt
      cases hAfter
      apply hTyped.replace
      rw [hInt]
      exact .int _
    · cases hAfter
  | pop | invoke | checkCast => cases hAfter

end Typed

end World

end Unboxing
