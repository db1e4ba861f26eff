import Unboxing.Proofs.OperandExecution
import Unboxing.Proofs.ReferenceOperands

/-
  Comparisons of references after unboxing, on a machine that
  shuffles cells and goes on only if whole values are left.
  Values of one class, and a value and null, are compared by
  methods that leave a flag, and the branch on that flag goes
  where the comparison went. A payload and a reference to an
  unknown class are compared in the same way, so the reference
  must fit the class. Some payloads are left to a comparison of
  references.

  Main declarations:
    * `World.WorksAll`
    * `World.worksAll_iff_execAll`
    * `Simulation.Compared`
    * `Simulation.comparison_decided`
    * `Simulation.comparison_with_object`
    * `Simulation.comparison_operands`
-/

namespace Unboxing

-- Cells

/- One of the cells of a value, by its place among them. -/
structure StackCell (Object : Type) where
  value : Datum Object
  place : Nat

section

variable {Object : Type} {first last : List (Datum Object)}

/- The cells of a value. -/
def Datum.cells (value : Datum Object) : List (StackCell Object) :=
  (List.range (width value)).map (StackCell.mk value)

/- The cells of the values on a stack. -/
def stackCells (values : List (Datum Object)) : List (StackCell Object) :=
  values.flatMap Datum.cells

theorem Datum.cells_eq (value : Datum Object) :
    value.cells = ⟨value, 0⟩ :: if width value = 2 then [⟨value, 1⟩] else [] := by
  cases value <;> rfl

@[simp] theorem stackCells_nil : stackCells ([] : List (Datum Object)) = [] :=
  rfl

@[simp] theorem stackCells_cons (value : Datum Object) (values : List (Datum Object)) :
    stackCells (value :: values) = value.cells ++ stackCells values :=
  rfl

/- The values can be told from their cells. -/
theorem stackCells_injective (hSame : stackCells first = stackCells last) : first = last := by
  induction first generalizing last with
  | nil =>
    cases last with
    | nil => rfl
    | cons value last => simp [Datum.cells_eq] at hSame
  | cons value first ih =>
    cases last with
    | nil => simp [Datum.cells_eq] at hSame
    | cons other last =>
      have hValue : value = other := by
        rw [stackCells_cons, stackCells_cons, value.cells_eq, other.cells_eq] at hSame
        exact congrArg StackCell.value (List.cons.inj hSame).1
      subst hValue
      rw [ih (List.append_cancel_left hSame)]

end

/- What a shuffle does with the cells of a stack, the top first. -/
def Shuffle.onCells {α : Type} : Shuffle → List α → Option (List α)
  | .pop, _ :: rest => some rest
  | .pop2, _ :: _ :: rest => some rest
  | .dup, a :: rest => some (a :: a :: rest)
  | .dupX1, a :: b :: rest => some (a :: b :: a :: rest)
  | .dupX2, a :: b :: c :: rest => some (a :: b :: c :: a :: rest)
  | .dup2, a :: b :: rest => some (a :: b :: a :: b :: rest)
  | .dup2X1, a :: b :: c :: rest => some (a :: b :: c :: a :: b :: rest)
  | .dup2X2, a :: b :: c :: d :: rest => some (a :: b :: c :: d :: a :: b :: rest)
  | .swap, a :: b :: rest => some (b :: a :: rest)
  | _, _ => none

-- A machine that shuffles

namespace World

variable {world : World} {first last : List world.Val} {code more : List Instruction}
variable {before after : Locals world.Object}

/- What an instruction does, where shuffles move cells. -/
def Works (world : World) : Instruction → List world.Val → Locals world.Object →
    List world.Val → Locals world.Object → Prop
  | .shuffle op, first, before, last, after =>
    op.onCells (stackCells first) = some (stackCells last) ∧ after = before
  | i, first, before, last, after => world.Exec i first before last after

/- What some instructions do one after another. -/
def WorksAll (world : World) : List Instruction → List world.Val → Locals world.Object →
    List world.Val → Locals world.Object → Prop
  | [], first, before, last, after => last = first ∧ after = before
  | i :: code, first, before, last, after =>
    ∃ between mid, world.Works i first before between mid ∧
      WorksAll world code between mid last after

/- A shuffle has no other outcome than the one it is known to have. -/
theorem worksAll_shuffle {op : Shuffle} {between : List world.Val}
    (hCells : op.onCells (stackCells first) = some (stackCells between)) :
    world.WorksAll (.shuffle op :: code) first before last after ↔
      world.WorksAll code between before last after := by
  constructor
  · rintro ⟨found, _, ⟨hFound, rfl⟩, hRest⟩
    rw [hCells, Option.some.injEq] at hFound
    rwa [stackCells_injective hFound]
  · exact fun hRest => ⟨between, before, ⟨hCells, rfl⟩, hRest⟩

/- Only a value of one cell can be dropped as one cell. -/
theorem works_pop :
    world.Works (.shuffle .pop) first before last after ↔
      world.Exec (.shuffle .pop) first before last after := by
  constructor
  · rintro ⟨hCells, rfl⟩
    cases first with
    | nil => cases hCells
    | cons value first =>
      rw [stackCells_cons, value.cells_eq] at hCells
      by_cases hWide : width value = 2
      · -- The second cell of a value is not the first cell of one.
        rw [if_pos hWide] at hCells
        cases last with
        | nil => cases hCells
        | cons other last =>
          rw [stackCells_cons, other.cells_eq] at hCells
          have hPlace := congrArg StackCell.place
            (List.cons.inj (Option.some.inj hCells)).1
          cases hPlace
      · rw [if_neg hWide] at hCells
        rw [← stackCells_injective (Option.some.inj hCells)]
        refine .pop value ?_ first after
        cases value <;> first | rfl | exact absurd rfl hWide
  · rintro ⟨⟩
    rename_i value hNarrow
    refine ⟨?_, rfl⟩
    rw [stackCells_cons, value.cells_eq, if_neg (by omega)]
    rfl

/- Without other shuffles than drops of one cell, the machine is the one that moves values. -/
theorem worksAll_iff_execAll (hPops : ∀ op, .shuffle op ∈ code → op = .pop) :
    world.WorksAll code first before last after ↔
      world.ExecAll code first before last after := by
  induction code generalizing first before with
  | nil => exact execAll_nil.symm
  | cons i code ih =>
    have hWorks {between : List world.Val} {mid : Locals world.Object} :
        world.Works i first before between mid ↔ world.Exec i first before between mid := by
      cases i with
      | shuffle op =>
        cases hPops op List.mem_cons_self
        exact works_pop
      | _ => exact Iff.rfl
    simp only [WorksAll, execAll_cons, hWorks,
      ih fun op hOp => hPops op (List.mem_cons_of_mem _ hOp)]

end World

-- Conversions

namespace Simulation

variable {reg : Registry} {code : List Instruction} {op : Shuffle}

theorem pops_conversion {found want : Tag}
    (hCode : ConversionCode reg found want code) (hOp : .shuffle op ∈ code) :
    op = .pop := by
  cases hCode with
  | keep => cases hOp
  | box => simp at hOp
  | unboxNull =>
    rcases List.mem_cons.mp hOp with hPop | hConstant
    · exact Instruction.shuffle.inj hPop
    · unfold nullConstant at hConstant
      repeat' split at hConstant
      all_goals simp at hConstant
  | unbox =>
    unfold unboxCheck at hOp
    repeat' split at hOp
    all_goals simp at hOp

theorem pops_reload {spilled : List Spilled} {want : List Tag}
    (hCode : ReloadCode reg spilled want code) (hOp : .shuffle op ∈ code) :
    op = .pop := by
  induction hCode with
  | plain => simp [Spilled.load] at hOp
  | convert _ hCode _ ih =>
    simp only [Spilled.load, List.mem_cons, List.mem_append, reduceCtorEq, false_or] at hOp
    exact hOp.elim (pops_conversion hCode) ih

/- Operands are converted without other shuffles than drops of one cell. -/
theorem pops_operandCode
    {cell : Nat} {operands stored : List Entry} {want : List Tag}
    (hCode : OperandCode reg cell operands want stored code)
    (hOp : .shuffle op ∈ code) :
    op = .pop := by
  cases hCode with
  | keep => cases hOp
  | convert _ _ _ _ hConversion hReload =>
    simp only [List.mem_append, List.mem_map, Spilled.store, reduceCtorEq, and_false,
      exists_false, false_or] at hOp
    exact hOp.elim (pops_conversion hConversion) (pops_reload hReload)

end Simulation

-- Flags

/- What a method returns that tells whether something holds. -/
def Datum.flag {Object : Type} (holds : Bool) : Datum Object :=
  .int (if holds then 1 else 0)

/- The branch on a flag goes where the branch on the operands went. -/
theorem decide?_flag {Object : Type} (test : RefTest) (target : Label) (equal : Bool)
    (rest : List (Datum Object)) :
    (Branch.ifInt test.negate.toIntTest target).decide? (.flag equal :: rest) =
      some (jumpIf (test.holdsOf equal) target, rest) := by
  cases test <;> cases equal <;> rfl

theorem Datum.long_of_kind {Object : Type} {value : Datum Object}
    (hKind : value.kind = .long) : ∃ number, value = .long number := by
  cases value <;> cases hKind
  exact ⟨_, rfl⟩

theorem Datum.ref_of_kind {Object : Type} {value : Datum Object}
    (hKind : value.kind = .reference) : ∃ reference, value = .ref reference := by
  cases value <;> cases hKind
  exact ⟨_, rfl⟩

namespace World

/- The methods that compare return flags, and all methods take what they are given. -/
structure Comparators (world : World) (reg : Registry) : Prop where
  unary : world.Unary reg
  isNull : ∀ cls info arguments result, reg.class? cls = some info →
    world.call info.isNull arguments result →
      arguments.length = 1 ∧ ∃ holds, result = .flag holds
  identityEquals : ∀ cls info arguments result, reg.class? cls = some info →
    world.call info.identityEquals arguments result →
      arguments.length = 2 ∧ ∃ holds, result = .flag holds

/- Unboxing a reference that fits a class returns its payload, and that alone. -/
def Unboxes (world : World) (reg : Registry) : Prop :=
  ∀ cls info reference result, reg.class? cls = some info →
    world.Fits (.object info.name) reference →
      (world.call info.unbox [.ref reference] result ↔
        result = .long (world.payloadOf info reference))

/-
  Whether two operands are equal, as the methods of their class
  tell. Of a payload beside null it is asked whether it stands
  for null; otherwise the payloads of both are compared.
-/
def Compares (world : World) (reg : Registry) (cls : ClassIndex) (info : ValueClass)
    (left right : Tag) (first second : world.Val) (equal : Bool) : Prop :=
  if right.isNull then
    world.call info.isNull [first] (.flag equal)
  else if left.isNull then
    world.call info.isNull [second] (.flag equal)
  else
    ∃ one two, world.Turned reg left (.payload cls) first one ∧
      world.Turned reg right (.payload cls) second two ∧
        world.call info.identityEquals [one, two] (.flag equal)

/-
  The code that compares two operands runs exactly if the
  methods return, and leaves their flag in the place of the
  operands. It writes scratch locals only.
-/
def ComparedBy (world : World) (reg : Registry) (cls : ClassIndex) (info : ValueClass)
    (left right : Tag) (cell : Nat) (code : List Instruction) : Prop :=
  ∀ first second, first.kind = left.valueKind → second.kind = right.valueKind →
    ∃ count, ∀ rest locals final finalLocals,
      world.WorksAll code (second :: first :: rest) locals final finalLocals ↔
        ∃ equal, world.Compares reg cls info left right first second equal ∧
          final = .flag equal :: rest ∧
            finalLocals = locals.storeFrom cell ([second, first].take count)

/- A reference to an unknown class becomes a payload if it fits the class. -/
theorem turned_object {world : World} {reg : Registry} {cls : ClassIndex}
    {info : ValueClass} (hInfo : reg.class? cls = some info)
    (hUnboxes : world.Unboxes reg) (reference : Option world.Object)
    (result : world.Val) :
    world.Turned reg .object (.payload cls) (.ref reference) result ↔
      world.Fits (.object info.name) reference ∧
        result = .long (world.payloadOf info reference) := by
  constructor
  · rintro ⟨found, hFound, hReference, method, hMethod, hCall⟩
    cases hFound.symm.trans hInfo
    cases hMethod
    rcases hReference rfl with ⟨_, ⟨⟩, hFits⟩
    exact ⟨hFits, (hUnboxes _ _ _ _ hInfo hFits).mp hCall⟩
  · rintro ⟨hFits, rfl⟩
    exact ⟨info, hInfo, fun _ => ⟨reference, rfl, hFits⟩, info.unbox, rfl,
      (hUnboxes _ _ _ _ hInfo hFits).mpr rfl⟩

/- A method that returns a flag is called with as many values as it takes. -/
theorem exec_flag {world : World} {method : MethodRef} {given : List world.Val}
    (hMethod : ∀ arguments result, world.call method arguments result →
      arguments.length = given.length ∧ ∃ holds, result = .flag holds)
    {rest final : List world.Val} {locals finalLocals : Locals world.Object} :
    world.ExecAll [.invoke .static method] (given.reverse ++ rest) locals final finalLocals ↔
      ∃ equal, world.call method given (.flag equal) ∧ final = .flag equal :: rest ∧
        finalLocals = locals := by
  simp only [execAll_cons, execAll_nil,
    exec_call_iff given fun arguments result hCall => (hMethod arguments result hCall).1]
  constructor
  · rintro ⟨_, _, ⟨result, hCall, rfl, rfl⟩, rfl, rfl⟩
    rcases (hMethod _ _ hCall).2 with ⟨equal, rfl⟩
    exact ⟨equal, hCall, rfl, rfl⟩
  · rintro ⟨equal, hCall, rfl, rfl⟩
    exact ⟨_, _, ⟨_, hCall, rfl, rfl⟩, rfl, rfl⟩

end World

namespace Simulation

variable {world : World} {ctx : Context} {st flagged after : State}
variable {plan : Array Nat} {cls : ClassIndex} {left right : Tag}
variable {leftName rightName : Option String} {below : List Entry}
variable {test : RefTest} {target : Label}

/- Two things, or the same in the other order. -/
def inOrder {α : Type} (swapped : Bool) (first second : α) : List α :=
  if swapped then [second, first] else [first, second]

/- Two tags of values of one class, or of a payload and null. -/
def Comparable (cls : ClassIndex) (left right : Tag) : Prop :=
  cls ≠ .wildcard ∧ left ∈ [.payload cls, .reference cls] ∧
      right ∈ [.payload cls, .reference cls] ∨
    left = .payload cls ∧ right = .null ∨ left = .null ∧ right = .payload cls

/- Code that compares two operands leaves a flag in their place. -/
structure Flagged (world : World) (ctx : Context) (cls : ClassIndex) (left right : Tag)
    (below : List Entry) (info : ValueClass) (code : List Instruction)
    (st flagged : State) : Prop where
  declared : ctx.reg.class? cls = some info
  entries : flagged.stack.entries = ⟨.int, none⟩ :: below
  edit : flagged.edit = st.edit.emit code
  runs : world.ComparedBy ctx.reg cls info left right
    (st.locals.dstSize + st.scratch) code

section

variable (hComparators : world.Comparators ctx.reg)
variable (hEntries : st.stack.entries = ⟨right, rightName⟩ :: ⟨left, leftName⟩ :: below)
include hComparators hEntries

/- Of a payload beside null it is asked whether it stands for null. -/
theorem flagged_with_null
    (hTags : left = .payload cls ∧ right = .null ∨ left = .null ∧ right = .payload cls)
    (hOk : prepare left right (Comparison.between left right) ctx st = .ok () flagged) :
    ∃ info code, Flagged world ctx cls left right below info code st flagged := by
  have hAsked {info : ValueClass} (hInfo : ctx.reg.class? cls = some info)
      (number : Int) (rest : List world.Val) (locals : Locals world.Object)
      (final : List world.Val) (finalLocals : Locals world.Object) :=
    (World.worksAll_iff_execAll (by simp)).trans (@World.exec_flag world info.isNull
      [.long number] (fun arguments result => hComparators.isNull _ _ arguments result hInfo)
        rest final locals finalLocals)
  rcases hTags with ⟨rfl, rfl⟩ | ⟨rfl, rfl⟩
  · rcases bind_ok.mp hOk with ⟨_, dropped, hDrop, hFlag⟩
    rcases flagNull_ok hFlag with ⟨info, hInfo, hBench⟩
    cases hDrop
    refine ⟨info, [.shuffle .pop, .invoke .static info.isNull], hInfo,
      (congrArg Bench.entries hBench).trans ?_, (congrArg Bench.edit hBench).trans ?_, ?_⟩
    · simp [State.bench, OperandStack.popEntry, hEntries, Bench.withEntries, Bench.emit]
    · simp [State.bench, OperandStack.popEntry, hEntries, Bench.withEntries, Bench.emit,
        Edit.emit, popOf, Tag.dstWidth, Tag.isDstWide, Tag.null]
    · intro first second hFirst hSecond
      rcases Datum.long_of_kind hFirst with ⟨number, rfl⟩
      rcases Datum.ref_of_kind hSecond with ⟨reference, rfl⟩
      exact ⟨0, fun rest locals final finalLocals =>
        (World.worksAll_shuffle rfl).trans (hAsked hInfo number ..)⟩
  · rcases bind_ok.mp hOk with ⟨_, dropped, hDrop, hFlag⟩
    rcases flagNull_ok hFlag with ⟨info, hInfo, hBench⟩
    obtain rfl := dropNullBelow_ok hEntries hDrop
    refine ⟨info, [.shuffle .dup2X1, .shuffle .pop2, .shuffle .pop,
      .invoke .static info.isNull], hInfo, (congrArg Bench.entries hBench).trans ?_,
        (congrArg Bench.edit hBench).trans ?_, ?_⟩
    · simp [State.bench, OperandStack.popEntry, OperandStack.reserve, OperandStack.push,
        OperandStack.pop, hEntries, Bench.withEntries, Bench.emit]
    · simp [State.bench, Bench.withEntries, Bench.emit, Edit.emit]
    · intro first second hFirst hSecond
      rcases Datum.ref_of_kind hFirst with ⟨reference, rfl⟩
      rcases Datum.long_of_kind hSecond with ⟨number, rfl⟩
      refine ⟨0, fun rest locals final finalLocals => ?_⟩
      rw [@World.worksAll_shuffle _ _ _ _ _ _ _
          (.long number :: .ref reference :: .long number :: rest) rfl,
        @World.worksAll_shuffle _ _ _ _ _ _ _ (.ref reference :: .long number :: rest) rfl,
        @World.worksAll_shuffle _ _ _ _ _ _ _ (.long number :: rest) rfl]
      exact hAsked hInfo number ..

/- The payloads of two operands are compared. -/
theorem flagged_payloads {downgraded : Bool}
    (hBetween : Comparison.between left right = .payloads downgraded)
    (hClass : left.class?.or right.class? = some cls)
    (hNulls : left.isNull = false ∧ right.isNull = false)
    (hOk : prepare left right (Comparison.between left right) ctx st = .ok () flagged) :
    ∃ info code, Flagged world ctx cls left right below info code st flagged := by
  have hEqual : flagEqual cls downgraded ctx st = .ok () flagged := by
    rw [hBetween, prepare, hClass] at hOk
    exact hOk
  unfold flagEqual at hEqual
  rcases bind_ok.mp hEqual with ⟨_, ready, hConvert, hEqual⟩
  rcases bind_ok.mp hEqual with ⟨info, _, hFound, hEqual⟩
  rcases valueClass_ok hFound with ⟨hInfo, rfl⟩
  have hConcrete : (Tag.payload cls).Concrete := by
    rintro ⟨⟩
    cases hInfo
  have hDirect : AllDirect [⟨left, leftName⟩, ⟨right, rightName⟩]
      [.payload cls, .payload cls] :=
    .cons (Tag.cast_ne_substitution _ hConcrete)
      (.cons (Tag.cast_ne_substitution _ hConcrete) .nil)
  have hOperands : st.bench.entries =
      [⟨left, leftName⟩, ⟨right, rightName⟩].reverse ++ below := hEntries
  rcases convertOperands_ok hOperands hDirect hConvert with ⟨stored, code, hConverted⟩
  rcases bind_ok.mp hEqual with ⟨_, called, hCall, hEqual⟩
  cases hCall
  rw [bind_apply, popMany_apply] at hEqual
  rcases bind_ok.mp hEqual with ⟨_, pushed, hPush, hEqual⟩
  have hBench : flagged.bench = pushed.bench := by
    split at hEqual
    · exact diagnose_ok hEqual
    · cases hEqual
      rfl
  cases hPush
  have hReady : ready.stack.entries = _ := congrArg Bench.entries hConverted.bench_eq
  have hEdit : ready.edit = _ := congrArg Bench.edit hConverted.bench_eq
  refine ⟨info, code ++ [.invoke .static info.identityEquals], hInfo,
    (congrArg Bench.entries hBench).trans ?_, (congrArg Bench.edit hBench).trans ?_, ?_⟩
  · simp [State.bench, OperandStack.push, OperandStack.entries_popped, hReady]
  · simp [State.bench, hEdit, Edit.emit]
  · intro first second hFirst hSecond
    refine ⟨stored.length, fun rest locals final finalLocals => ?_⟩
    have hMethod (arguments : List world.Val) (result : world.Val) :=
      hComparators.identityEquals _ _ arguments result hInfo
    have hKinds : World.AllOfKind [⟨left, leftName⟩, ⟨right, rightName⟩] [first, second] :=
      .cons hFirst (.cons hSecond .nil)
    have hPops : ∀ op, .shuffle op ∈ code ++ [.invoke .static info.identityEquals] →
        op = .pop := by
      intro op hOp
      simp only [List.mem_append, List.mem_singleton, reduceCtorEq, or_false] at hOp
      exact pops_operandCode hConverted.coded hOp
    rw [World.worksAll_iff_execAll hPops, World.execAll_append]
    constructor
    · rintro ⟨between, mid, hCode, hCall⟩
      rcases (World.exec_converted hComparators.unary hDirect hConverted hKinds).mp hCode with
        ⟨results, hTurned, rfl, rfl⟩
      rcases hTurned with _ | ⟨hOne, _ | ⟨hTwo, ⟨⟩⟩⟩
      rename_i one two
      rcases (@World.exec_flag _ _ [one, two] hMethod _ _ _ _).mp hCall with
        ⟨equal, hFlag, rfl, rfl⟩
      refine ⟨equal, ?_, rfl, rfl⟩
      simp only [World.Compares, hNulls, Bool.false_eq_true, if_false]
      exact ⟨one, two, hOne, hTwo, hFlag⟩
    · rintro ⟨equal, hCompares, rfl, rfl⟩
      simp only [World.Compares, hNulls, Bool.false_eq_true, if_false] at hCompares
      rcases hCompares with ⟨one, two, hOne, hTwo, hCall⟩
      refine ⟨_, _, (World.exec_converted hComparators.unary hDirect hConverted hKinds).mpr
        ⟨[one, two], .cons hOne (.cons hTwo .nil), rfl, rfl⟩, ?_⟩
      exact (@World.exec_flag _ _ [one, two] hMethod _ _ _ _).mpr ⟨equal, hCall, rfl, rfl⟩

end

-- The outcome of comparisons

/- A comparison leaves a flag in the place of its operands, and branches on it. -/
structure Compared (world : World) (ctx : Context) (test : RefTest) (target : Label)
    (cls : ClassIndex) (left right : Tag) (below : List Entry) (info : ValueClass)
    (code : List Instruction) (st flagged after : State) : Prop extends
    Flagged world ctx cls left right below info code st flagged where
  branch : branchOnFlag test target ctx flagged = .ok () after
  fate : after.edit.fate = .replaced (.branch (.ifInt test.negate.toIntTest target))
  decides : ∀ equal (rest : List world.Val),
    (Branch.ifInt test.negate.toIntTest target).decide? (.flag equal :: rest) =
      some (jumpIf (test.holdsOf equal) target, rest)

/- Whether a payload equals a reference to an unknown class. -/
theorem compares_object
    {swapped equal : Bool} {info : ValueClass} {number : Int}
    {reference : Option world.Object} {first second : world.Val}
    (hInfo : ctx.reg.class? cls = some info)
    (hUnboxes : world.Unboxes ctx.reg)
    (hTags : [left, right] = inOrder swapped (.payload cls) .object)
    (hValues : [first, second] = inOrder swapped (.long number) (.ref reference)) :
    world.Compares ctx.reg cls info left right first second equal ↔
      world.Fits (.object info.name) reference ∧ world.call info.identityEquals
        (inOrder swapped (.long number) (.long (world.payloadOf info reference)))
          (.flag equal) := by
  have hTurned := world.turned_object hInfo hUnboxes reference
  have hNulls : left.isNull = false ∧ right.isNull = false := by
    cases swapped <;> cases hTags <;> exact ⟨rfl, rfl⟩
  simp only [World.Compares, hNulls, Bool.false_eq_true, if_false]
  cases swapped <;> cases hTags <;> cases hValues <;>
    simp [hTurned, World.turned_self, inOrder]

-- Payloads that are left

/- References are made ready for a comparison, and paths to its target agree. -/
def readyReferences (left right : Tag) (target : Label) : Simulation Unit := do
  prepare left right (Comparison.between left right)
  let _ ← reconcile target 2

/- Whether a payload among two operands is compared as if it were a reference. -/
def leavesPayload (left right : Tag) : Bool :=
  left.isPayload && right.isArray && !right.isNull ||
    right.isPayload && left.isArray && !left.isNull ||
      (left.isWildcard || right.isWildcard) && !left.isArray && !right.isArray &&
        (left.isPayload && right.isValue || left.isValue && right.isPayload)

theorem leavesPayload_eq (hLeft : left.isSrcReference = true)
    (hRight : right.isSrcReference = true)
    (hFlag : leavesFlag (Comparison.between left right) = false) :
    (left.isPayload || right.isPayload) = leavesPayload left right := by
  rcases left with ⟨kind, depth⟩
  rcases right with ⟨other, dimensions⟩
  revert hLeft hRight hFlag
  cases kind <;> cases other <;>
    simp [Comparison.between, Comparison.ofValues, Comparison.ofArrays, leavesPayload,
      Comparison.isPlainObject, Tag.isValue, Tag.class?, Tag.isArray, Tag.isWildcard,
      Tag.isPayload, Tag.isNull, Tag.hasPayloadKind, Tag.isSrcReference,
      Tag.isPayloadArray] <;>
    grind [leavesFlag]

/- Only arrays are boxed for a comparison of references. -/
theorem isPayloadArray_of_boxArray {onTop : Bool}
    (hBetween : Comparison.between left right = .boxArray onTop) :
    (if onTop then right else left).isPayloadArray = true := by
  unfold Comparison.between Comparison.ofValues Comparison.ofArrays at hBetween
  repeat' split at hBetween
  all_goals cases hBetween
  all_goals
    rename_i hArrays
    simp_all

theorem cast_referenceOf (tag : Tag) : tag.cast tag.referenceOf ≠ .substitution := by
  rcases tag with ⟨kind, depth⟩
  cases kind <;>
    simp [Tag.cast, Tag.castValues, Tag.referenceOf, Tag.isVoid, Tag.isValue, Tag.class?,
      Tag.hasPayloadKind, Tag.hasReferenceKind]

/- Without a flag the operands are payloads as before. -/
theorem prepare_unflagged
    (hEntries : st.stack.entries = ⟨right, rightName⟩ :: ⟨left, leftName⟩ :: below)
    (hFlag : leavesFlag (Comparison.between left right) = false)
    (hOk : prepare left right (Comparison.between left right) ctx st = .ok () after) :
    after.edit.fate = st.edit.fate ∧ (after.stack.tagAt 1).isPayload = left.isPayload ∧
      (after.stack.tagAt 0).isPayload = right.isPayload := by
  have hTurned {first second : Tag} (hFirst : left.cast first ≠ .substitution)
      (hSecond : right.cast second ≠ .substitution)
      (hOk : convertOperands [first, second] ctx st = .ok () after) :
      after.edit.fate = st.edit.fate ∧ after.stack.tagAt 1 = first ∧
        after.stack.tagAt 0 = second := by
    have hOperands : st.bench.entries =
        [⟨left, leftName⟩, ⟨right, rightName⟩].reverse ++ below := hEntries
    rcases convertOperands_ok hOperands (.cons hFirst (.cons hSecond .nil)) hOk with
      ⟨_, _, hConverted⟩
    have hAfter : after.stack.entries = _ := congrArg Bench.entries hConverted.bench_eq
    rw [OperandStack.tagAt_eq, OperandStack.tagAt_eq, hAfter]
    have hFate := congrArg (Edit.fate ∘ Bench.edit) hConverted.bench_eq
    exact ⟨hFate.trans (Edit.fate_emit _ _), rfl, rfl⟩
  have hSame (tag : Tag) : tag.cast tag ≠ .substitution := by simp [Tag.cast_self]
  have hBoxed {tag : Tag} (hArray : tag.isPayloadArray = true) :
      tag.referenceOf.isPayload = tag.isPayload := by
    rcases tag with ⟨kind, depth⟩
    cases kind <;> cases depth <;> first | rfl | cases hArray
  cases hBetween : Comparison.between left right with
  | unchanged =>
    rw [hBetween] at hOk
    cases hOk
    simp [OperandStack.tagAt_eq, hEntries]
  | boxArray onTop =>
    have hArray := isPayloadArray_of_boxArray hBetween
    rw [hBetween] at hOk
    cases onTop with
    | false =>
      rcases hTurned (cast_referenceOf left) (hSame right) hOk with ⟨hFate, hLeft, hRight⟩
      rw [hLeft, hRight]
      exact ⟨hFate, hBoxed hArray, rfl⟩
    | true =>
      rcases hTurned (hSame left) (cast_referenceOf right) hOk with ⟨hFate, hLeft, hRight⟩
      rw [hLeft, hRight]
      exact ⟨hFate, rfl, hBoxed hArray⟩
  | never | withNull | payloads =>
    rw [hBetween] at hFlag
    cases hFlag

section

variable (hPlaced : st.Placed plan)
variable (hEntries : st.stack.entries = ⟨right, rightName⟩ :: ⟨left, leftName⟩ :: below)
variable (hOk : compareReferences test target ctx st = .ok () after)
include hEntries hOk

/- With enough operands a comparison makes them ready and branches. -/
theorem compareReferences_ready :
    ∃ ready, prepare left right (Comparison.between left right) ctx st = .ok () ready ∧
      (if leavesFlag (Comparison.between left right) then branchOnFlag test target
        else branchOnReferences target) ctx ready = .ok () after := by
  rcases compareReferences_ok hOk with ⟨hRequire, _⟩ | ⟨_, _, _, ready, hSame, hReady⟩
  · rcases require_ok hRequire with ⟨hEnough, _⟩ | ⟨_, hFew, _⟩
    · cases hEnough
    · rw [hEntries] at hFew
      exact absurd hFew (by simp)
  · rw [hEntries] at hSame
    cases hSame
    exact ⟨ready, hReady⟩

include hPlaced

omit hEntries hOk in
theorem placed_prepare {ready : State}
    (hReady : prepare left right (Comparison.between left right) ctx st =
      .ok () ready) :
    ready.Placed plan :=
  Steps.placed (steps_prepare _ (.inl trivial) (.inl trivial)) hPlaced hReady

/- What is made ready by code that compares is compared. -/
theorem compared_of_flagged (hFlag : leavesFlag (Comparison.between left right) = true)
    (hFlagged : ∀ {flagged}, prepare left right (Comparison.between left right) ctx st =
      .ok () flagged →
        ∃ info code, Flagged world ctx cls left right below info code st flagged) :
    ∃ info code flagged,
      Compared world ctx test target cls left right below info code st flagged after := by
  rcases compareReferences_ready hEntries hOk with ⟨flagged, hReady, hBranch⟩
  rw [if_pos hFlag] at hBranch
  rcases hFlagged hReady with ⟨info, code, hFlagged⟩
  exact ⟨info, code, flagged, hFlagged, hBranch,
    branchOnFlag_fate (placed_prepare hPlaced hReady) hBranch,
    fun equal rest => decide?_flag test target equal rest⟩

/-
  Comparing two values of one class, or a payload and null, goes
  where the methods of the class say.
-/
theorem comparison_decided (hComparators : world.Comparators ctx.reg)
    (hTags : Comparable cls left right) :
    ∃ info code flagged,
      Compared world ctx test target cls left right below info code st flagged after := by
  rcases hTags with ⟨hClass, hLeft, hRight⟩ | hNull
  · have hBetween : Comparison.between left right =
        .payloads (!(left.isPayload && right.isPayload)) ∧
          left.class?.or right.class? = some cls ∧
            left.isNull = false ∧ right.isNull = false := by
      simp only [List.mem_cons, List.not_mem_nil, or_false] at hLeft hRight
      rcases hLeft with rfl | rfl <;> rcases hRight with rfl | rfl <;>
        simp [Comparison.between, Comparison.ofValues, Tag.payload, Tag.reference, Tag.isValue,
          Tag.class?, Tag.isArray, Tag.isWildcard, Tag.isNull, hClass]
    exact compared_of_flagged hPlaced hEntries hOk (by rw [hBetween.1]; rfl)
      (flagged_payloads hComparators hEntries hBetween.1 hBetween.2.1 hBetween.2.2)
  · refine compared_of_flagged hPlaced hEntries hOk ?_
      (flagged_with_null hComparators hEntries hNull)
    rcases hNull with ⟨rfl, rfl⟩ | ⟨rfl, rfl⟩ <;> rfl

theorem compared_with_object {swapped : Bool}
    (hComparators : world.Comparators ctx.reg)
    (hTags : [left, right] = inOrder swapped (.payload cls) .object) :
    ∃ info code flagged,
      Compared world ctx test target cls left right below info code st flagged after := by
  have hBetween : Comparison.between left right = .payloads true ∧
      left.class?.or right.class? = some cls ∧
        left.isNull = false ∧ right.isNull = false := by
    cases swapped <;> cases hTags <;> exact ⟨rfl, rfl, rfl, rfl⟩
  exact compared_of_flagged hPlaced hEntries hOk (by rw [hBetween.1]; rfl)
    (flagged_payloads hComparators hEntries hBetween.1 hBetween.2.1 hBetween.2.2)

/-
  Comparing a payload and a reference to an unknown class ends
  only if the reference is null or to an instance of the class
  of the payload, and then compares the two payloads.
-/
theorem comparison_with_object {swapped : Bool}
    (hComparators : world.Comparators ctx.reg)
    (hUnboxes : world.Unboxes ctx.reg)
    (hTags : [left, right] = inOrder swapped (.payload cls) .object) :
    ∃ info code flagged,
      Compared world ctx test target cls left right below info code st flagged after ∧
      ∀ number reference first second equal,
        [first, second] = inOrder swapped (.long number) (.ref reference) →
        (world.Compares ctx.reg cls info left right first second equal ↔
          world.Fits (.object info.name) reference ∧ world.call info.identityEquals
            (inOrder swapped (.long number) (.long (world.payloadOf info reference)))
              (.flag equal)) := by
  rcases compared_with_object hPlaced hEntries hOk hComparators hTags with
    ⟨info, code, flagged, hCompared⟩
  refine ⟨info, code, flagged, hCompared, fun number reference first second equal hValues => ?_⟩
  exact compares_object hCompared.declared hUnboxes hTags hValues

/-
  A comparison that is left to references takes a payload exactly
  if the other operand is an array, or if the class of one of
  two values is open.
-/
theorem comparison_operands (hLeft : left.isSrcReference = true)
    (hRight : right.isSrcReference = true) :
    after.edit.fate = .replaced (.branch (.ifInt test.negate.toIntTest target)) ∨
      ∃ turned, readyReferences left right target ctx st = .ok () turned ∧
        after.edit = turned.edit ∧ after.edit.fate = st.edit.fate ∧
          ((turned.stack.tagAt 1).isPayload || (turned.stack.tagAt 0).isPayload) =
            leavesPayload left right := by
  rcases compareReferences_ready hEntries hOk with ⟨ready, hReady, hBranch⟩
  have hPlaced := placed_prepare hPlaced hReady
  by_cases hFlag : leavesFlag (Comparison.between left right) = true
  · rw [if_pos hFlag] at hBranch
    exact .inl (branchOnFlag_fate hPlaced hBranch)
  · rw [if_neg hFlag] at hBranch
    rcases bind_ok.mp hBranch with ⟨found, turned, hReconcile, hPop⟩
    rcases prepare_unflagged hEntries (Bool.eq_false_iff.mpr hFlag) hReady with
      ⟨hFate, hBelow, hTop⟩
    have hEdit : after.edit = turned.edit :=
      (unedited_popReference.bind fun _ => unedited_popReference.bind fun _ => .pure _).of_ok hPop
    rcases reconcile_operand hPlaced Nat.zero_lt_two hReconcile with ⟨hFirst, hSame⟩
    have hSecond := (reconcile_operand hPlaced Nat.one_lt_two hReconcile).1
    refine .inr ⟨turned, bind_ok.mpr ⟨_, ready, hReady, bind_ok.mpr
      ⟨found, turned, hReconcile, rfl⟩⟩, hEdit, by rw [hEdit, hSame, hFate], ?_⟩
    rw [hFirst, hSecond, hBelow, hTop]
    exact leavesPayload_eq hLeft hRight (Bool.eq_false_iff.mpr hFlag)

end

-- Comparisons of amounts

/- What the methods of amounts return, and the one that compares payloads. -/
inductive ComparingCall : MethodRef → List (Datum Amounts.Thing) → Datum Amounts.Thing → Prop where
  | other {method : MethodRef} {arguments : List (Datum Amounts.Thing)}
      {result : Datum Amounts.Thing}
      (hCall : Amounts.Call method arguments result) :
      ComparingCall method arguments result
  | same (first second : Int) :
      ComparingCall Batch.moneyClass.identityEquals [.long first, .long second]
        (.flag (first == second))

abbrev comparingAmounts : World :=
  { Amounts.world with call := ComparingCall }

theorem comparingAmounts_helpers :
    comparingAmounts.Comparators loopContext.reg ∧
      comparingAmounts.Unboxes loopContext.reg := by
  have hMoney {cls : ClassIndex} {info : ValueClass}
      (hInfo : loopContext.reg.class? cls = some info) : info = Batch.moneyClass := by
    rcases cls with ⟨_ | index, _⟩ | _ <;> cases hInfo
    rfl
  refine ⟨⟨?_, ?_, ?_⟩, ?_⟩
  · intro cls info depth method hInfo hMethod arguments result hCall
    cases hMoney hInfo
    rcases hCall with ⟨⟨⟩⟩ | ⟨first, second⟩
    · rfl
    · rfl
    · rfl
    · rcases depth with _ | _ | _ <;> rcases hMethod with hMethod | hMethod <;> cases hMethod
  · intro cls info arguments result hInfo hCall
    cases hMoney hInfo
    rcases hCall with ⟨hCall⟩
    cases hCall
    rename_i number
    exact ⟨rfl, decide (number = 0), by simp [Datum.flag]⟩
  · intro cls info arguments result hInfo hCall
    cases hMoney hInfo
    rcases hCall with ⟨⟨⟩⟩ | ⟨first, second⟩
    exact ⟨rfl, _, rfl⟩
  · intro cls info reference result hInfo hFits
    cases hMoney hInfo
    have hPayload : comparingAmounts.payloadOf Batch.moneyClass reference =
        Amounts.unboxed reference := by cases reference <;> rfl
    rw [hPayload]
    constructor
    · rintro ⟨⟨⟩⟩
      rfl
    · rintro rfl
      exact .other (.unbox reference)

def comparedState (left right : Tag) : State :=
  { State.initial with
    stack := (OperandStack.empty.push left none).push right none
    locals := .empty }

theorem placed_comparedState (left right : Tag) : (comparedState left right).Placed #[] :=
  ⟨⟨rfl, .empty, rfl⟩, nofun⟩

/- Two boxes are unboxed and compared. -/
theorem comparison_decided_boxes :
    ∃ after info code flagged,
      compareReferences .eq ⟨1⟩ loopContext
          (comparedState (.reference .first) (.reference .first)) = .ok () after ∧
        Compared comparingAmounts loopContext .eq ⟨1⟩ .first (.reference .first)
          (.reference .first) [] info code
          (comparedState (.reference .first) (.reference .first)) flagged after := by
  rcases ok_of_runs (show ((compareReferences .eq ⟨1⟩ loopContext).run'
    (comparedState (.reference .first) (.reference .first))).isSome = true by
      decide +kernel) with ⟨_, after, hOk⟩
  have hTags : Comparable .first (.reference .first) (.reference .first) :=
    .inl ⟨by decide, by decide, by decide⟩
  rcases comparison_decided (placed_comparedState _ _) rfl hOk comparingAmounts_helpers.1
    hTags with ⟨info, code, flagged, hCompared⟩
  exact ⟨after, info, code, flagged, hOk, hCompared⟩

/- A payload is compared with an object on top of it. -/
theorem comparison_with_object_on_top :
    ∃ after info code flagged,
      compareReferences .eq ⟨1⟩ loopContext (comparedState (.payload .first) .object) =
          .ok () after ∧
        Compared comparingAmounts loopContext .eq ⟨1⟩ .first (.payload .first) .object []
          info code (comparedState (.payload .first) .object) flagged after := by
  rcases ok_of_runs (show ((compareReferences .eq ⟨1⟩ loopContext).run'
    (comparedState (.payload .first) .object)).isSome = true by decide +kernel) with
      ⟨_, after, hOk⟩
  have hTags : [Tag.payload .first, .object] = inOrder false (.payload .first) .object := rfl
  rcases comparison_with_object (placed_comparedState _ _) rfl hOk
    comparingAmounts_helpers.1 comparingAmounts_helpers.2 hTags with
      ⟨info, code, flagged, hCompared, _⟩
  exact ⟨after, info, code, flagged, hOk, hCompared⟩

/- A payload and a string are not equal, but their comparison does not end. -/
theorem comparison_with_string :
    ∃ after code flagged,
      compareReferences .eq ⟨1⟩ loopContext (comparedState (.payload .first) .object) =
          .ok () after ∧
        flagged.edit = (comparedState (.payload .first) .object).edit.emit code ∧
        branchOnFlag .eq ⟨1⟩ loopContext flagged = .ok () after ∧
        ∀ locals final finalLocals, ¬ comparingAmounts.WorksAll code
          [.ref (some (.literal (.string ""))), .long 1] locals final finalLocals := by
  rcases ok_of_runs (show ((compareReferences .eq ⟨1⟩ loopContext).run'
    (comparedState (.payload .first) .object)).isSome = true by decide +kernel) with
      ⟨_, after, hOk⟩
  have hTags : [Tag.payload .first, .object] = inOrder false (.payload .first) .object := rfl
  rcases compared_with_object (placed_comparedState _ _) rfl hOk comparingAmounts_helpers.1
    hTags with ⟨info, code, flagged, hCompared⟩
  refine ⟨after, code, flagged, hOk, hCompared.edit, hCompared.branch,
    fun locals final finalLocals hWorks => ?_⟩
  rcases hCompared.runs (.long 1) (.ref _) rfl rfl with ⟨count, hRuns⟩
  rcases (hRuns [] locals final finalLocals).mp hWorks with ⟨equal, hEqual, _⟩
  have hFits := ((compares_object hCompared.declared comparingAmounts_helpers.2 hTags rfl).mp
    hEqual).1
  cases hCompared.declared
  rcases Amounts.amount_of_isInstance (hFits _ rfl) with ⟨_, _, _, hAmount⟩
  cases hAmount

/- A payload and an array of integers are compared as they are. -/
theorem comparison_with_array :
    ((do
      compareReferences .eq ⟨1⟩
      return (← get).edit.fate : Simulation Fate) loopContext).run'
        (comparedState (.payload .first) ⟨.int, 1⟩) = some .kept ∧
      ((do
        readyReferences (.payload .first) ⟨.int, 1⟩ ⟨1⟩
        tagAt 1 : Simulation Tag) loopContext).run'
          (comparedState (.payload .first) ⟨.int, 1⟩) = some (.payload .first) := by
  decide +kernel

/- What is left of that comparison. -/
theorem comparison_operands_array :
    ∃ after, compareReferences .eq ⟨1⟩ loopContext
        (comparedState (.payload .first) ⟨.int, 1⟩) = .ok () after ∧
      (after.edit.fate = .replaced (.branch (.ifInt RefTest.eq.negate.toIntTest ⟨1⟩)) ∨
        ∃ turned, readyReferences (.payload .first) ⟨.int, 1⟩ ⟨1⟩ loopContext
            (comparedState (.payload .first) ⟨.int, 1⟩) = .ok () turned ∧
          ((turned.stack.tagAt 1).isPayload || (turned.stack.tagAt 0).isPayload) = true) := by
  rcases ok_of_runs (show ((compareReferences .eq ⟨1⟩ loopContext).run'
    (comparedState (.payload .first) ⟨.int, 1⟩)).isSome = true by decide +kernel) with
      ⟨_, after, hOk⟩
  refine ⟨after, hOk, ?_⟩
  rcases comparison_operands (placed_comparedState _ _) rfl hOk rfl rfl with
    hFate | ⟨turned, hReady, _, _, hPayload⟩
  · exact .inl hFate
  · exact .inr ⟨turned, hReady, hPayload⟩

end Simulation

end Unboxing
