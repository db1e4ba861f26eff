import Mathlib.Algebra.Group.Nat.Defs
import Unboxing.Registry.Basic
import Unboxing.Code.Node

/-
  A machine that runs method bodies without objects of its own:
  it computes with primitives, moves values between stack and
  locals, branches, calls static methods and returns. What it
  computes, what classes there are and what the called methods
  do is up to a world.

  Main declarations:
    * `Datum`
    * `World`
    * `World.Helpers`
    * `World.Exec`
    * `World.Step`
    * `World.Runs`
-/

namespace Unboxing

-- Values and locals

/- A datum on the stack or in a local. A reference can be null. -/
inductive Datum (Object : Type) where
  | int (number : Int)
  | long (number : Int)
  | float (number : Binary.Value)
  | double (number : Binary.Value)
  | ref (target : Option Object)

namespace Datum

variable {Object : Type}

def kind : Datum Object → ValueKind
  | .int _ => .int
  | .long _ => .long
  | .float _ => .float
  | .double _ => .double
  | .ref _ => .reference

end Datum

instance {Object : Type} : HasWidth (Datum Object) where
  width
    | .long _ | .double _ => 2
    | _ => 1

/- The values in locals, each found by the first of its cells. -/
abbrev Locals (Object : Type) := Nat → Option (Datum Object)

namespace Locals

variable {Object : Type}

/- The locals at the start: the arguments, one after another. -/
def ofArguments (arguments : List (Datum Object)) : Locals Object :=
  (Layout.ofList arguments).startingAt?

/- The locals with a value stored. A value that loses a cell is gone. -/
def store (locals : Locals Object) (cell : Nat) (value : Datum Object) : Locals Object :=
  fun other =>
    if other = cell then
      some value
    else if cell < other ∧ other < cell + width value then
      none
    else if other < cell ∧ (locals other).any (fun old => decide (cell < other + width old)) then
      none
    else
      locals other

/- The locals with another value of the same width in a cell. -/
def replace (locals : Locals Object) (cell : Nat)
    (value : Datum Object) : Locals Object :=
  fun other => if other = cell then some value else locals other

@[simp] theorem store_self (locals : Locals Object) (cell : Nat) (value : Datum Object) :
    locals.store cell value cell = some value := by
  simp [store]

theorem store_of_apart
    {locals : Locals Object} {cell other : Nat} {value old : Datum Object}
    (hOld : locals other = some old) (hDifferent : other ≠ cell)
    (hApart : other + width old ≤ cell ∨ cell + width value ≤ other) :
    locals.store cell value other = some old := by
  unfold store
  rw [if_neg hDifferent, if_neg (by omega), if_neg]
  · exact hOld
  · rw [hOld]
    rintro ⟨hBefore, hOverlap⟩
    simp only [Option.any_some, decide_eq_true_eq] at hOverlap
    omega

end Locals

-- Tests and branches

def IntTest.holds (test : IntTest) (left right : Int) : Bool :=
  match test with
  | .eq => left == right
  | .ge => decide (right ≤ left)
  | .gt => decide (right < left)
  | .le => decide (left ≤ right)
  | .lt => decide (left < right)
  | .ne => left != right

def RefTest.holdsOf (test : RefTest) (isNull : Bool) : Bool :=
  match test with
  | .eq => isNull
  | .ne => !isNull

/- The target of a jump that depends on a test. -/
def jumpIf (holds : Bool) (target : Label) : Option Label :=
  if holds then some target else none

/-
  Where a branch goes on: at a label, or right after it. The
  operands are taken off the stack.
-/
def Branch.decide? {Object : Type} :
    Branch → List (Datum Object) → Option (Option Label × List (Datum Object))
  | .ifInt test target, .int number :: stack =>
    some (jumpIf (test.holds number 0) target, stack)
  | .ifInts test target, .int right :: .int left :: stack =>
    some (jumpIf (test.holds left right) target, stack)
  | .ifNull test target, .ref reference :: stack =>
    some (jumpIf (test.holdsOf reference.isNone) target, stack)
  | .goto target, stack => some (some target, stack)
  | .tableSwitch default low targets, .int number :: stack =>
    let target :=
      if low ≤ number then targets[(number - low).toNat]? else none
    some (some (target.getD default), stack)
  | .lookupSwitch default targets, .int number :: stack =>
    some (some ((targets.lookup number).getD default), stack)
  | _, _ => none

/- The elements after the first place of a label. -/
def afterLabel? (target : Label) : List Node → Option (List Node)
  | [] => none
  | node :: nodes =>
    if node = .label target then some nodes else afterLabel? target nodes

/- Whether an element only marks a place. -/
def Node.isMark : Node → Bool
  | .label _ | .line _ | .frame _ => true
  | .insn _ | .branch _ => false

-- Worlds

def ClassName.string : ClassName := ⟨"java/lang/String", by decide⟩

def ClassName.«class» : ClassName := ⟨"java/lang/Class", by decide⟩

def ClassName.methodType : ClassName :=
  ⟨"java/lang/invoke/MethodType", by decide⟩

def Constant.frameType : Constant → FrameType
  | .int _ => .int
  | .float _ => .float
  | .long _ => .long
  | .double _ => .double
  | .string _ => .object (.object .string)
  | .type _ => .object (.object .«class»)
  | .methodType _ => .object (.object .methodType)

/-
  What the machine runs in: the objects and their classes, the
  results of computations, the objects of constants, the static
  methods, and the payloads of the instances of value classes.
-/
structure World where
  Object : Type
  isInstance : Object → RefType → Prop
  compute : Plain → List (Datum Object) → Option (List (Datum Object))
  literal : Constant → Object
  call : MethodRef → List (Datum Object) → Datum Object → Prop
  payload : ClassName → Object → Int
  compute_kinds : ∀ op operands results, compute op operands = some results →
      results.map Datum.kind = op.leaves.toList
  compute_lconst0 : compute .lconst0 [] = some [.long 0]
  compute_lconst1 : compute .lconst1 [] = some [.long 1]
  literal_isInstance : ∀ constant type,
    constant.frameType = .object type → isInstance (literal constant) type

namespace World

variable {world : World} {nodes : List Node} {taken : List (Option Label)}

abbrev Val (world : World) := Datum world.Object

def constant (world : World) : Constant → world.Val
  | .int number => .int number
  | .float number => .float number
  | .long number => .long number
  | .double number => .double number
  | value => .ref (some (world.literal value))

/- Whether a reference is null or to an instance of a type. -/
def Fits (world : World) (type : RefType) (reference : Option world.Object) : Prop :=
  ∀ object, reference = some object → world.isInstance object type

/- The payload of a reference to a value, or the one that stands for null. -/
def payloadOf (world : World) (info : ValueClass) : Option world.Object → Int
  | none => info.nullValue
  | some object => world.payload info.name object

/- Whether two references are to values of a class with the same payload. -/
structure SamePayload (world : World) (info : ValueClass)
    (left right : Option world.Object) : Prop where
  fits_left : world.Fits (.object info.name) left
  fits_right : world.Fits (.object info.name) right
  payload : world.payloadOf info left = world.payloadOf info right

/-
  What the methods of the value classes of a registry do. A
  payload other than the one for null is that of an instance,
  and no object is an instance of two value classes.
-/
structure Helpers (world : World) (reg : Registry) : Prop where
  unbox : ∀ cls info reference, reg.class? cls = some info →
      world.Fits (.object info.name) reference → world.call info.unbox [.ref reference]
          (.long (world.payloadOf info reference))
  box : ∀ cls info reference, reg.class? cls = some info →
      world.Fits (.object info.name) reference → ∃ boxed, world.SamePayload info reference boxed ∧
          world.call info.box [.long (world.payloadOf info reference)]
            (.ref boxed)
  isNull : ∀ cls info reference, reg.class? cls = some info →
      world.Fits (.object info.name) reference → ∃ flag, (flag ≠ 0 ↔ reference = none) ∧
          world.call info.isNull [.long (world.payloadOf info reference)]
            (.int flag)
  notNull : ∀ cls info object, reg.class? cls = some info →
      world.isInstance object (.object info.name) → world.payload info.name object ≠ info.nullValue
  apart : ∀ first second infoFirst infoSecond object, reg.class? first = some infoFirst →
      reg.class? second = some infoSecond → world.isInstance object (.object infoFirst.name) →
          world.isInstance object (.object infoSecond.name) → infoFirst.name = infoSecond.name

-- Instructions

/-
  What an instruction does with stack and locals. The top of
  the stack comes first.
-/
inductive Exec (world : World) :
    Instruction → List world.Val → Locals world.Object →
      List world.Val → Locals world.Object → Prop where
  | plain
      {op : Plain} {operands results : List world.Val}
      (hOperands : operands.map Datum.kind = op.takes)
      (hCompute : world.compute op operands = some results)
      (stack : List world.Val)
      (locals : Locals world.Object) :
      Exec world (.plain op) (operands ++ stack) locals (results ++ stack) locals
  | pushNull
      (stack : List world.Val)
      (locals : Locals world.Object) :
      Exec world .pushNull stack locals (.ref none :: stack) locals
  | pushByte
      (number : Int)
      (stack : List world.Val)
      (locals : Locals world.Object) :
      Exec world (.pushByte number) stack locals (.int number :: stack) locals
  | pushShort
      (number : Int)
      (stack : List world.Val)
      (locals : Locals world.Object) :
      Exec world (.pushShort number) stack locals (.int number :: stack) locals
  | constant
      (value : Constant)
      (stack : List world.Val)
      (locals : Locals world.Object) :
      Exec world (.constant value) stack locals
        (world.constant value :: stack) locals
  | load
      {slot : Nat} {value : world.Val} {locals : Locals world.Object}
      (hValue : locals slot = some value)
      (stack : List world.Val) :
      Exec world (.load value.kind slot) stack locals (value :: stack) locals
  | store
      (slot : Nat)
      (value : world.Val)
      (stack : List world.Val)
      (locals : Locals world.Object) :
      Exec world (.store value.kind slot) (value :: stack) locals stack
        (locals.store slot value)
  | increment
      {slot : Nat} {number : Int} {locals : Locals world.Object}
      (hValue : locals slot = some (.int number))
      (delta : Int)
      (stack : List world.Val) :
      Exec world (.increment slot delta) stack locals stack
        (locals.replace slot (.int ((number + delta).bmod (2 ^ 32))))
  | pop
      (value : world.Val)
      (hNarrow : width value = 1)
      (stack : List world.Val)
      (locals : Locals world.Object) :
      Exec world (.shuffle .pop) (value :: stack) locals stack locals
  | invoke
      {method : MethodRef} {arguments : List world.Val} {result : world.Val}
      (hCall : world.call method arguments result)
      (stack : List world.Val)
      (locals : Locals world.Object) :
      Exec world (.invoke .static method) (arguments.reverse ++ stack) locals
        (result :: stack) locals
  | checkCast
      {type : RefType} {reference : Option world.Object}
      (hFits : world.Fits type reference)
      (stack : List world.Val)
      (locals : Locals world.Object) :
      Exec world (.checkCast type) (.ref reference :: stack) locals
        (.ref reference :: stack) locals

/- What some instructions do one after another. -/
inductive ExecAll (world : World) :
    List Instruction → List world.Val → Locals world.Object →
      List world.Val → Locals world.Object → Prop where
  | nil
      (stack : List world.Val)
      (locals : Locals world.Object) :
      ExecAll world [] stack locals stack locals
  | cons
      {i : Instruction} {rest : List Instruction} {first between last : List world.Val}
      {before mid after : Locals world.Object}
      (hFirst : world.Exec i first before between mid)
      (hRest : ExecAll world rest between mid last after) :
      ExecAll world (i :: rest) first before last after

theorem ExecAll.append
    {code more : List Instruction} {first between last : List world.Val}
    {before mid after : Locals world.Object}
    (hCode : world.ExecAll code first before between mid)
    (hMore : world.ExecAll more between mid last after) :
    world.ExecAll (code ++ more) first before last after := by
  induction hCode with
  | nil => exact hMore
  | cons hFirst _ ih => exact .cons hFirst (ih hMore)

theorem Exec.all
    {i : Instruction} {first last : List world.Val} {before after : Locals world.Object}
    (hExec : world.Exec i first before last after) :
    world.ExecAll [i] first before last after :=
  .cons hExec (.nil _ _)

-- Runs

/- Where a run is: before some elements, or at its end. -/
inductive Config (world : World) where
  | running
      (rest : List Node)
      (stack : List world.Val)
      (locals : Locals world.Object)
  | returned (result : Option world.Val)

/- The start of a body with some arguments. -/
def start (world : World) (nodes : List Node)
    (arguments : List world.Val) : world.Config :=
  .running nodes [] (.ofArguments arguments)

/-
  Go past one element of a body. A branch that is decided tells
  its target, or that there is none.
-/
inductive Step (world : World) (nodes : List Node) :
    world.Config → List (Option Label) → world.Config → Prop where
  | mark
      {node : Node}
      (hMark : node.isMark = true)
      (rest : List Node)
      (stack : List world.Val)
      (locals : Locals world.Object) :
      Step world nodes (.running (node :: rest) stack locals) []
        (.running rest stack locals)
  | insn
      {i : Instruction} {first last : List world.Val}
      {before after : Locals world.Object}
      (hExec : world.Exec i first before last after)
      (rest : List Node) :
      Step world nodes (.running (.insn i :: rest) first before) []
        (.running rest last after)
  | fall
      {b : Branch} {first last : List world.Val}
      (hDecide : b.decide? first = some (none, last))
      (rest : List Node)
      (locals : Locals world.Object) :
      Step world nodes (.running (.branch b :: rest) first locals) [none]
        (.running rest last locals)
  | jump
      {b : Branch} {target : Label} {first last : List world.Val} {next : List Node}
      (hDecide : b.decide? first = some (some target, last))
      (hTarget : afterLabel? target nodes = some next)
      (rest : List Node)
      (locals : Locals world.Object) :
      Step world nodes (.running (.branch b :: rest) first locals)
        [some target] (.running next last locals)
  | leave
      (rest : List Node)
      (stack : List world.Val)
      (locals : Locals world.Object) :
      Step world nodes (.running (.branch (.ret none) :: rest) stack locals) []
        (.returned none)
  | ret
      (value : world.Val)
      (rest : List Node)
      (stack : List world.Val)
      (locals : Locals world.Object) :
      Step world nodes
        (.running (.branch (.ret (some value.kind)) :: rest) (value :: stack)
          locals) []
        (.returned (some value))

/- A run of a body from one place to another, with the branches it takes. -/
inductive Runs (world : World) (nodes : List Node) :
    world.Config → List (Option Label) → world.Config → Prop where
  | refl (config : world.Config) : Runs world nodes config [] config
  | step
      {first between last : world.Config} {taken later : List (Option Label)}
      (hStep : world.Step nodes first taken between)
      (hRuns : Runs world nodes between later last) :
      Runs world nodes first (taken ++ later) last

theorem Runs.trans {first between last : world.Config} {later : List (Option Label)}
    (hFirst : world.Runs nodes first taken between)
    (hSecond : world.Runs nodes between later last) :
    world.Runs nodes first (taken ++ later) last := by
  induction hFirst with
  | refl => exact hSecond
  | step hStep _ ih =>
    rw [List.append_assoc]
    exact .step hStep (ih hSecond)

theorem Step.runs {first last : world.Config}
    (hStep : world.Step nodes first taken last) :
    world.Runs nodes first taken last := by
  rw [← List.append_nil taken]
  exact .step hStep (.refl last)

/- A step that decides nothing, before a run. -/
theorem Runs.quiet {first between last : world.Config}
    (hStep : world.Step nodes first [] between)
    (hRuns : world.Runs nodes between taken last) :
    world.Runs nodes first taken last :=
  .step hStep hRuns

/- A branch that is decided, before a run. -/
theorem Runs.turn {first between last : world.Config} {target : Option Label}
    (hStep : world.Step nodes first [target] between)
    (hRuns : world.Runs nodes between taken last) :
    world.Runs nodes first (target :: taken) last :=
  .step hStep hRuns

/- Instructions that are executed before the rest of a body. -/
theorem ExecAll.runs {code : List Instruction} {first last : List world.Val}
    {before after : Locals world.Object}
    (hExec : world.ExecAll code first before last after) (nodes rest : List Node) :
    world.Runs nodes (.running (code.map .insn ++ rest) first before) []
      (.running rest last after) := by
  induction hExec with
  | nil => exact .refl _
  | cons hFirst _ ih => exact .quiet (.insn hFirst _) ih

end World

end Unboxing
