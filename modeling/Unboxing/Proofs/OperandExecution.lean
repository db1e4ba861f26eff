import Unboxing.Proofs.ForwardSimulation
import Unboxing.Proofs.OperandConversion
import Unboxing.Proofs.SlotLayout
import Unboxing.Proofs.StackDepths

/-
  What the code that converts operands does when it runs. Every
  operand becomes what is expected in its place, once and in
  order, and nothing is stored but in scratch locals of its own.

  Main declarations:
    * `World.Turned`
    * `World.TurnedAll`
    * `Locals.storeFrom`
    * `World.exec_operandCode`
    * `Simulation.ExactConversion`
    * `Simulation.convertOperands_exact`
-/

namespace Unboxing

open List Simulation

-- Forms of values

namespace Tag

variable {found want tag : Tag}

/- Whether a value is a payload and wanted as something else. -/
def boxesTo (found want : Tag) : Bool :=
  found.hasPayloadKind && !want.hasPayloadKind

/-
  Whether a value is something else and wanted as a payload.
  Null is an array of payloads as it is.
-/
def unboxesTo (found want : Tag) : Bool :=
  !found.hasPayloadKind && want.hasPayloadKind &&
    !(found.isNull && want.isArray)

/- Whether a value can become another without a class in place of a wildcard. -/
structure Fits (found want : Tag) : Prop where
  cast : found.cast want ≠ .failure
  direct : found.cast want ≠ .substitution

theorem Fits.refl (tag : Tag) : tag.Fits tag := by
  constructor <;> simp [cast_self]

/- A cast takes code exactly if the form of the value changes. -/
theorem Fits.cast_iff (hFits : found.Fits want) :
    (found.cast want = .boxing ↔ found.boxesTo want = true) ∧
      (found.cast want = .unboxing ↔ found.unboxesTo want = true) := by
  rcases hFits with ⟨hCast, hDirect⟩
  revert hCast hDirect
  rcases found with ⟨first, depth⟩
  rcases want with ⟨second, dimensions⟩
  cases first <;> cases second <;>
    simp [Tag.cast, castValues, castFromValue, castToValue, castOthers, boxesTo, unboxesTo,
      isVoid, isValue, class?, hasPayloadKind, hasReferenceKind, isPayload, isArray,
      isNull, isSrcReference, isWildcard] <;>
    grind

/- Values are moved in the same way if only their class becomes known. -/
theorem Fits.valueKind_eq (hFits : found.Fits want)
    (hFree : found.needsCode want = false) :
    want.valueKind = found.valueKind := by
  rcases hFits with ⟨hCast, hDirect⟩
  revert hCast hDirect hFree
  rcases found with ⟨first, depth⟩
  rcases want with ⟨second, dimensions⟩
  cases first <;> cases second <;>
    simp [Tag.cast, castValues, castFromValue, castToValue, castOthers, needsCode,
      isVoid, isValue, class?, hasPayloadKind, hasReferenceKind, isPayload, isArray,
      isSrcReference, isWildcard, valueKind] <;>
    grind

end Tag

/- The type of boxed values of a class, or of arrays of them. -/
def ValueClass.boxedType (info : ValueClass) : Nat → RefType
  | 0 => .object info.name
  | depth + 1 => (FieldType.object info.name).arrayTypeOf (depth + 1)

/- A reference to an unknown class is always checked before it is unboxed. -/
theorem unboxCheck_eq {reg : Registry} {info : ValueClass} {found want : Tag}
    (hPayload : want.hasPayloadKind = true)
    (hInfo : reg.class? (want.class?.getD .first) = some info) :
    unboxCheck reg found want =
      if found.isValue then [] else [.checkCast (info.boxedType want.depth)] := by
  rcases want with ⟨kind, depth⟩
  cases kind with
  | payload cls =>
    have hClass : reg.class? cls = some info := hInfo
    unfold unboxCheck
    cases depth <;>
      simp [Registry.typeOf?, Registry.typeOfKind?, Tag.referenceOf, hClass,
        ValueClass.boxedType, FieldType.object]
  | _ => cases hPayload

/- The class of a tag of payloads is the one that is asked for. -/
theorem class?_of_hasPayloadKind {reg : Registry} {info : ValueClass} {tag : Tag}
    (hPayload : tag.hasPayloadKind = true)
    (hInfo : reg.class? (tag.class?.getD .first) = some info) :
    tag.class?.bind reg.class? = some info := by
  rcases tag with ⟨kind, depth⟩
  cases kind with
  | payload cls => exact hInfo
  | _ => cases hPayload

-- Single instructions

namespace World

variable {world : World} {reg : Registry} {found want : Tag}
variable {value : world.Val} {stack final : List world.Val}
variable {locals finalLocals : Locals world.Object}

/- The cells of a value are those of the instructions that move it. -/
theorem width_of_kind {tag : Tag} (hKind : value.kind = tag.valueKind) :
    width value = tag.dstWidth := by
  rw [← tag.cells_valueKind, ← hKind]
  cases value <;> rfl

theorem execAll_nil :
    world.ExecAll [] stack locals final finalLocals ↔ final = stack ∧ finalLocals = locals := by
  constructor
  · rintro ⟨⟩
    exact ⟨rfl, rfl⟩
  · rintro ⟨rfl, rfl⟩
    exact .nil _ _

theorem execAll_cons {i : Instruction} {code : List Instruction} :
    world.ExecAll (i :: code) stack locals final finalLocals ↔
      ∃ between mid, world.Exec i stack locals between mid ∧
        world.ExecAll code between mid final finalLocals := by
  constructor
  · rintro (_ | ⟨hFirst, hRest⟩)
    exact ⟨_, _, hFirst, hRest⟩
  · rintro ⟨between, mid, hFirst, hRest⟩
    exact .cons hFirst hRest

theorem execAll_append {code more : List Instruction} :
    world.ExecAll (code ++ more) stack locals final finalLocals ↔
      ∃ between mid, world.ExecAll code stack locals between mid ∧
        world.ExecAll more between mid final finalLocals := by
  induction code generalizing stack locals with
  | nil => simp [execAll_nil]
  | cons i code ih =>
    simp only [cons_append, execAll_cons, ih]
    grind

theorem exec_store_iff {kind : ValueKind} {slot : Nat} (hKind : value.kind = kind) :
    world.Exec (.store kind slot) (value :: stack) locals final finalLocals ↔
      final = stack ∧ finalLocals = locals.store slot value := by
  constructor
  · rintro ⟨⟩
    exact ⟨rfl, rfl⟩
  · rintro ⟨rfl, rfl⟩
    rw [← hKind]
    exact .store slot value _ locals

theorem exec_load_iff {kind : ValueKind} {slot : Nat} (hKind : value.kind = kind)
    (hValue : locals slot = some value) :
    world.Exec (.load kind slot) stack locals final finalLocals ↔
      final = value :: stack ∧ finalLocals = locals := by
  constructor
  · rintro (_ | hLoaded)
    rename_i hLoaded
    rw [hValue] at hLoaded
    cases hLoaded
    exact ⟨rfl, rfl⟩
  · rintro ⟨rfl, rfl⟩
    rw [← hKind]
    exact .load hValue stack

theorem exec_pop_iff (hNarrow : width value = 1) :
    world.Exec (.shuffle .pop) (value :: stack) locals final finalLocals ↔
      final = stack ∧ finalLocals = locals := by
  constructor
  · rintro ⟨⟩
    exact ⟨rfl, rfl⟩
  · rintro ⟨rfl, rfl⟩
    exact .pop value hNarrow _ _

/- An instruction that computes a constant from nothing puts it on the stack. -/
theorem exec_plain_constant {op : Plain} (hTakes : op.takes = [])
    (hCompute : world.compute op [] = some [value])
    (hExec : world.Exec (.plain op) stack locals final finalLocals) :
    final = value :: stack ∧ finalLocals = locals := by
  cases hExec with
  | plain hOperands hResults =>
    rw [hTakes, map_eq_nil_iff] at hOperands
    subst hOperands
    rw [hCompute] at hResults
    cases hResults
    exact ⟨rfl, rfl⟩

theorem exec_nullConstant_iff (number : Int) :
    world.Exec (nullConstant number) stack locals final finalLocals ↔
      final = .long number :: stack ∧ finalLocals = locals := by
  constructor
  · intro hExec
    unfold nullConstant at hExec
    split at hExec
    · rename_i hZero
      subst hZero
      exact exec_plain_constant rfl world.compute_lconst0 hExec
    split at hExec
    · rename_i hOne
      subst hOne
      exact exec_plain_constant rfl world.compute_lconst1 hExec
    · cases hExec
      exact ⟨rfl, rfl⟩
  · rintro ⟨rfl, rfl⟩
    exact world.exec_nullConstant number stack _

theorem exec_checkCast_iff {type : RefType} :
    world.Exec (.checkCast type) (value :: stack) locals final finalLocals ↔
      (∃ reference, value = .ref reference ∧ world.Fits type reference) ∧
        final = value :: stack ∧ finalLocals = locals := by
  constructor
  · rintro ⟨⟩
    rename_i reference hFits
    exact ⟨⟨reference, rfl, hFits⟩, rfl, rfl⟩
  · rintro ⟨⟨reference, rfl, hFits⟩, rfl, rfl⟩
    exact .checkCast hFits stack _

/- A call of a method that takes as many values as are given. -/
theorem exec_call_iff {method : MethodRef} (given : List world.Val)
    (hArity : ∀ arguments result, world.call method arguments result →
      arguments.length = given.length) :
    world.Exec (.invoke .static method) (given.reverse ++ stack) locals final finalLocals ↔
      ∃ result, world.call method given result ∧ final = result :: stack ∧
        finalLocals = locals := by
  constructor
  · intro hExec
    generalize hStack : given.reverse ++ stack = first at hExec
    cases hExec with
    | invoke hCall rest =>
      rename_i arguments result
      rcases append_inj hStack (by simp [hArity _ _ hCall]) with ⟨hSame, rfl⟩
      cases reverse_inj.mp hSame
      exact ⟨result, hCall, rfl, rfl⟩
  · rintro ⟨result, hCall, rfl, rfl⟩
    exact .invoke hCall stack _

theorem exec_invoke_iff {method : MethodRef}
    (hUnary : ∀ arguments result, world.call method arguments result → arguments.length = 1) :
    world.Exec (.invoke .static method) (value :: stack) locals final finalLocals ↔
      ∃ result, world.call method [value] result ∧ final = result :: stack ∧
        finalLocals = locals :=
  exec_call_iff [value] hUnary

-- Conversions

/-
  What becomes of a value with one tag that is wanted with
  another. A payload is boxed, null becomes the payload that
  stands for it, and any other reference is unboxed, after a
  check if its class is not known. A value stays as it is if its
  form is the same.
-/
def Turned (world : World) (reg : Registry) (found want : Tag)
    (value result : world.Val) : Prop :=
  if found.boxesTo want then
    ∃ info method, found.class?.bind reg.class? = some info ∧
      info.boxMethod found.depth = .ok method ∧ world.call method [value] result
  else if found.unboxesTo want then
    ∃ info, want.class?.bind reg.class? = some info ∧ if found.isNull then
        result = .long info.nullValue
      else
        (found.isValue = false → ∃ reference, value = .ref reference ∧
          world.Fits (info.boxedType want.depth) reference) ∧
        ∃ method, info.unboxMethod want.depth = .ok method ∧ world.call method [value] result
  else
    result = value

/- What becomes of some values, each in its place. -/
inductive TurnedAll (world : World) (reg : Registry) :
    List Tag → List Tag → List world.Val → List world.Val → Prop where
  | nil : TurnedAll world reg [] [] [] []
  | cons
      {found want : Tag} {value result : world.Val} {others wanted : List Tag}
      {values results : List world.Val}
      (hFirst : world.Turned reg found want value result)
      (hOthers : TurnedAll world reg others wanted values results) :
      TurnedAll world reg (found :: others) (want :: wanted)
        (value :: values) (result :: results)

theorem turned_self {tag : Tag} {result : world.Val} :
    world.Turned reg tag tag value result ↔ result = value := by
  simp [Turned, Tag.boxesTo, Tag.unboxesTo]

theorem turnedAll_cons {others wanted : List Tag} {values results : List world.Val} :
    world.TurnedAll reg (found :: others) (want :: wanted) (value :: values)
        results ↔
      ∃ result rest, results = result :: rest ∧ world.Turned reg found want value result ∧
          world.TurnedAll reg others wanted values rest := by
  constructor
  · rintro (_ | ⟨hFirst, hOthers⟩)
    exact ⟨_, _, rfl, hFirst, hOthers⟩
  · rintro ⟨result, rest, rfl, hFirst, hOthers⟩
    exact .cons hFirst hOthers

/- Values that are wanted as they are come before others. -/
theorem turnedAll_self_append
    {tags found wanted : List Tag} {settled values results : List world.Val}
    (hLength : tags.length = settled.length) :
    world.TurnedAll reg (tags ++ found) (tags ++ wanted) (settled ++ values)
        results ↔
      ∃ rest, results = settled ++ rest ∧ world.TurnedAll reg found wanted values rest := by
  induction tags generalizing settled results with
  | nil =>
    rw [length_eq_zero_iff.mp hLength.symm]
    simp
  | cons tag tags ih =>
    cases settled with
    | nil => cases hLength
    | cons value settled =>
      simp only [cons_append, turnedAll_cons, turned_self, ih (Nat.succ.inj hLength)]
      grind

/- The methods that box and unbox values take one value each. -/
def Unary (world : World) (reg : Registry) : Prop :=
  ∀ cls info depth method, reg.class? cls = some info →
    (info.boxMethod depth = .ok method ∨ info.unboxMethod depth = .ok method) →
      ∀ arguments result, world.call method arguments result → arguments.length = 1

/- The code of a conversion does what the tags tell, and nothing else. -/
theorem exec_conversion {code : List Instruction} (hUnary : world.Unary reg)
    (hFits : found.Fits want) (hCode : ConversionCode reg found want code)
    (hKind : value.kind = found.valueKind) :
    world.ExecAll code (value :: stack) locals final finalLocals ↔
      ∃ result, world.Turned reg found want value result ∧
        final = result :: stack ∧ finalLocals = locals := by
  rcases hFits.cast_iff with ⟨hBoxing, hUnboxing⟩
  cases hCode with
  | keep hKeep =>
    have hSame : found.boxesTo want = false ∧ found.unboxesTo want = false := by
      rw [← Bool.not_eq_true, ← Bool.not_eq_true, ← hBoxing, ← hUnboxing,
        ← not_or, ← Tag.needsCode_iff, hKeep]
      exact Bool.false_ne_true
    simp [execAll_nil, Turned, hSame]
  | box hCast hInfo hMethod =>
    rename_i info method
    have hBoxes := hBoxing.mp hCast
    have hClass := class?_of_hasPayloadKind (Bool.and_eq_true_iff.mp hBoxes).1 hInfo
    have hOne := hUnary _ _ _ _ hInfo (.inl hMethod)
    simp only [execAll_cons, execAll_nil, Turned, hBoxes, if_true, hClass,
      Option.some.injEq, exec_invoke_iff hOne]
    grind
  | unboxNull hCast hNull hInfo =>
    rename_i info
    have hUnboxes := hUnboxing.mp hCast
    have hBoxes : ¬ found.boxesTo want = true := by simp [← hBoxing, hCast]
    have hPayload := (Tag.of_cast_unboxing hCast).1
    have hClass := class?_of_hasPayloadKind hPayload hInfo
    have hNarrow : width value = 1 := by
      rw [width_of_kind hKind]
      rcases found with ⟨kind, depth⟩
      cases kind <;> cases hNull
      simp [Tag.dstWidth, Tag.isDstWide]
    simp only [execAll_cons, execAll_nil, Turned, if_neg hBoxes, hUnboxes, if_true,
      hClass, Option.some.injEq, exists_eq_left', hNull, exec_pop_iff hNarrow,
      exec_nullConstant_iff]
    grind
  | unbox hCast hNull hInfo hMethod =>
    rename_i info method
    have hUnboxes := hUnboxing.mp hCast
    have hBoxes : ¬ found.boxesTo want = true := by simp [← hBoxing, hCast]
    have hPayload := (Tag.of_cast_unboxing hCast).1
    have hClass := class?_of_hasPayloadKind hPayload hInfo
    have hOne := hUnary _ _ _ _ hInfo (.inr hMethod)
    rw [unboxCheck_eq hPayload hInfo]
    cases hValue : found.isValue <;>
      simp only [execAll_cons, execAll_nil, Turned, if_neg hBoxes, hUnboxes, if_true,
        hClass, Option.some.injEq, exists_eq_left', hNull, hMethod, Except.ok.injEq,
        exec_checkCast_iff, hValue, Bool.false_eq_true, if_false, cons_append,
        nil_append, and_assoc, exists_and_left, exists_eq_left, exec_invoke_iff hOne]
    · grind
    · grind

-- Scratch locals

/- The tags of values are of the kinds that these have. -/
abbrev AllOfKind (entries : List Entry) (values : List world.Val) : Prop :=
  Forall₂ (fun entry value => value.kind = entry.tag.valueKind) entries values

end World

/- The locals with some values stored from a cell on. -/
def Locals.storeFrom {Object : Type} (locals : Locals Object)
    (cell : Nat) : List (Datum Object) → Locals Object
  | [] => locals
  | value :: values => (locals.store cell value).storeFrom (cell + width value) values

/- What ends before the cells that are stored to stays. -/
theorem Locals.storeFrom_of_before
    {Object : Type} {locals : Locals Object} {cell other : Nat} {old : Datum Object}
    (values : List (Datum Object)) (hOld : locals other = some old)
    (hBefore : other + width old ≤ cell) :
    locals.storeFrom cell values other = some old := by
  induction values generalizing locals cell with
  | nil => exact hOld
  | cons value values ih =>
    have hWidth : 0 < width old := by
      cases old <;> exact Nat.succ_pos _
    exact ih (store_of_apart hOld (by omega) (.inl hBefore)) (by omega)

namespace World

variable {world : World} {reg : Registry} {entries : List Entry}
variable {values : List world.Val} {stack final : List world.Val}
variable {locals finalLocals : Locals world.Object} {wanted : List Tag}
variable {code : List Instruction}

theorem exec_stores (hKinds : AllOfKind entries values) (cell : Nat) :
    world.ExecAll ((spilledFrom cell entries).map Spilled.store) (values ++ stack) locals
        final finalLocals ↔
      final = stack ∧ finalLocals = locals.storeFrom cell values := by
  induction hKinds generalizing cell locals with
  | nil => exact execAll_nil
  | cons hKind hKinds ih =>
    rename_i entry value entries values
    simp only [spilledFrom, map_cons, cons_append, execAll_cons,
      Spilled.store, exec_store_iff hKind, and_assoc, exists_and_left, exists_eq_left]
    rw [ih, Locals.storeFrom, width_of_kind hKind]

/- Every entry is found in its scratch local. -/
theorem storeFrom_slots (hKinds : AllOfKind entries values) (cell : Nat)
    (locals : Locals world.Object) :
    Forall₂ (fun spilled value =>
        locals.storeFrom cell values spilled.slot = some value)
      (spilledFrom cell entries) values := by
  induction hKinds generalizing cell locals with
  | nil => exact .nil
  | cons hKind hKinds ih =>
    rename_i entry value entries values
    rw [spilledFrom, ← width_of_kind hKind]
    refine .cons ?_ (ih (cell + width value) (locals.store cell value))
    exact Locals.storeFrom_of_before values (Locals.store_self ..) (Nat.le_refl _)

theorem exec_reloadCode {spilled : List Spilled} (hUnary : world.Unary reg)
    (hCode : ReloadCode reg spilled wanted code)
    (hFits : Forall₂ (fun (item : Spilled) tag => item.entry.tag.Fits tag) spilled
      wanted)
    (hKinds : AllOfKind (spilled.map Spilled.entry) values)
    (hSlots : Forall₂ (fun spilled value => locals spilled.slot = some value) spilled
      values) :
    world.ExecAll code stack locals final finalLocals ↔ ∃ results,
        world.TurnedAll reg (spilled.map (·.entry.tag)) wanted values results ∧
          final = results.reverse ++ stack ∧ finalLocals = locals := by
  induction hCode generalizing values stack with
  | plain spilled want hDone =>
    have hNone : spilled = [] ∧ want = [] := by
      rcases hDone with rfl | rfl <;> cases hFits <;> exact ⟨rfl, rfl⟩
    rcases hNone with ⟨rfl, rfl⟩
    cases hSlots
    rw [map_nil, execAll_nil]
    constructor
    · rintro ⟨rfl, rfl⟩
      exact ⟨[], .nil, rfl, rfl⟩
    · rintro ⟨_, ⟨⟩, hFinal⟩
      exact hFinal
  | convert _ hCode _ ih =>
    cases hFits with
    | cons hFit hFits =>
      cases hKinds with
      | cons hKind hKinds =>
        cases hSlots with
        | cons hSlot hSlots =>
          simp only [map_cons, execAll_cons, execAll_append, Spilled.load,
            exec_load_iff hKind hSlot, and_assoc, exists_and_left, exists_eq_left,
            exec_conversion hUnary hFit hCode hKind, turnedAll_cons]
          constructor
          · rintro ⟨_, _, ⟨result, hFirst, rfl, rfl⟩, hRest⟩
            rcases (ih hFits hKinds hSlots).mp hRest with
              ⟨results, hResults, rfl, rfl⟩
            exact ⟨_, ⟨result, results, rfl, hFirst, hResults⟩, by simp, rfl⟩
          · rintro ⟨_, ⟨result, results, rfl, hFirst, hResults⟩, rfl, rfl⟩
            refine ⟨_, _, ⟨result, hFirst, rfl, rfl⟩, ?_⟩
            exact (ih hFits hKinds hSlots).mpr ⟨results, hResults, by simp, rfl⟩

/- Pairs of two lists, one of which is made of two. -/
theorem split_forall₂
    {α β : Type} {related : α → β → Prop} {first second : List α} {all : List β}
    (hAll : Forall₂ related (first ++ second) all) :
    ∃ left right, all = left ++ right ∧ Forall₂ related first left ∧
      Forall₂ related second right := by
  induction first generalizing all with
  | nil => exact ⟨[], all, rfl, .nil, hAll⟩
  | cons item first ih =>
    cases hAll with
    | cons hItem hRest =>
      rcases ih hRest with ⟨left, right, rfl, hLeft, hRight⟩
      exact ⟨_ :: left, right, rfl, .cons hItem hLeft, hRight⟩

/- The code for operands converts every one of them, from the deepest on. -/
theorem exec_operandCode {cell : Nat} {stored : List Entry}
    (hUnary : world.Unary reg)
    (hCode : OperandCode reg cell entries wanted stored code)
    (hFits : Forall₂ (fun entry tag => entry.tag.Fits tag) entries wanted)
    (hKinds : AllOfKind entries values) :
    world.ExecAll code (values.reverse ++ stack) locals final finalLocals ↔ ∃ results,
        world.TurnedAll reg (entries.map Entry.tag) wanted values results ∧
          final = results.reverse ++ stack ∧
            finalLocals = locals.storeFrom cell (values.reverse.take stored.length) := by
  cases hCode with
  | keep hSame =>
    have hLength : wanted.length = values.length := by
      rw [← hSame, length_map, hKinds.length_eq]
    have hAll {results : List world.Val} := @turnedAll_self_append _ reg wanted [] []
      values [] results hLength
    simp only [append_nil] at hAll
    rw [execAll_nil, hSame]
    simp only [hAll]
    constructor
    · rintro ⟨rfl, rfl⟩
      exact ⟨values, ⟨[], by simp, .nil⟩, rfl, rfl⟩
    · rintro ⟨_, ⟨rest, rfl, ⟨⟩⟩, rfl, rfl⟩
      simp
  | convert hOperands hWant hSettled hAbove hConversion hReload =>
    rename_i settled above entry tags others tag code more
    subst hOperands hWant
    rcases split_forall₂ hKinds with ⟨done, _, rfl, hDone, ⟨⟩⟩
    rename_i value opened hKind hOpened
    rcases split_forall₂ hFits with ⟨front, _, hFront, hSettledFits, ⟨⟩⟩
    rename_i last later hFit hLater
    have hSame : tags.length = front.length := by
      rw [← hSettled, length_map, hSettledFits.length_eq]
    rcases append_inj hFront hSame with ⟨rfl, hRest⟩
    cases hRest
    generalize hSpilled : spilledFrom cell above.reverse = spilled at hReload ⊢
    have hBack : spilled.reverse.map Spilled.entry = above := by
      rw [← hSpilled, map_reverse, map_entry_spilledFrom, reverse_reverse]
    have hTags : spilled.reverse.map (·.entry.tag) = above.map Entry.tag := by
      rw [← hBack, map_map]
      rfl
    have hStack : (done ++ value :: opened).reverse =
        opened.reverse ++ (value :: done.reverse) := by
      simp
    have hCount : above.reverse.length = opened.reverse.length := by
      rw [length_reverse, length_reverse, hOpened.length_eq]
    have hLength : tags.length = done.length := by
      rw [← hSettled, length_map, hDone.length_eq]
    have hStores := List.forall₂_reverse_iff.mpr hOpened
    have hSlots := List.forall₂_reverse_iff.mpr (storeFrom_slots hStores cell locals)
    rw [hSpilled, reverse_reverse] at hSlots
    rw [← hBack, List.forall₂_map_left_iff] at hLater
    rw [← hBack] at hOpened
    rw [hStack, hCount, take_left, append_assoc, map_append, hSettled]
    constructor
    · intro hExec
      rcases execAll_append.mp hExec with ⟨_, _, hStore, hExec⟩
      rw [← hSpilled] at hStore
      rcases (exec_stores hStores cell).mp hStore with ⟨rfl, rfl⟩
      rcases execAll_append.mp hExec with ⟨_, _, hConvert, hMore⟩
      rcases (exec_conversion hUnary hFit hConversion hKind).mp hConvert with
        ⟨result, hTurned, rfl, rfl⟩
      rcases (exec_reloadCode hUnary hReload hLater hOpened hSlots).mp hMore with
        ⟨results, hResults, rfl, rfl⟩
      rw [hTags] at hResults
      refine ⟨done ++ result :: results, ?_, by simp, rfl⟩
      exact (turnedAll_self_append hLength).mpr ⟨_, rfl, .cons hTurned hResults⟩
    · rintro ⟨_, hAll, rfl, rfl⟩
      rcases (turnedAll_self_append hLength).mp hAll with ⟨_, rfl, hRest⟩
      rcases turnedAll_cons.mp hRest with ⟨result, results, rfl, hTurned, hResults⟩
      have hStore : world.ExecAll (spilled.map Spilled.store)
          (opened.reverse ++ (value :: done.reverse ++ stack)) locals
          (value :: done.reverse ++ stack) (locals.storeFrom cell opened.reverse) := by
        rw [← hSpilled]
        exact (exec_stores hStores cell).mpr ⟨rfl, rfl⟩
      refine hStore.append (ExecAll.append
        ((exec_conversion hUnary hFit hConversion hKind).mpr
          ⟨result, hTurned, rfl, rfl⟩) ?_)
      refine (exec_reloadCode hUnary hReload hLater hOpened hSlots).mpr
        ⟨results, ?_, by simp, rfl⟩
      rw [hTags]
      exact hResults

/- What an entry becomes does not depend on whether it was retagged before. -/
theorem turned_retagged {entry : Entry} {tag : Tag} {value result : world.Val}
    (hFits : entry.tag.Fits tag) :
    world.Turned reg (entry.retagged tag).tag tag value result ↔
      world.Turned reg entry.tag tag value result := by
  unfold Entry.retagged
  split
  · rfl
  · rename_i hFree
    rw [Tag.needsCode_iff, hFits.cast_iff.1, hFits.cast_iff.2, not_or] at hFree
    rw [Entry.withTag, turned_self, Turned, if_neg hFree.1, if_neg hFree.2]

section

variable (hFits : Forall₂ (fun entry tag => entry.tag.Fits tag) entries wanted)
include hFits

theorem turnedAll_retagged {results : List world.Val} :
    world.TurnedAll reg
        ((zipWith Entry.retagged entries wanted).map Entry.tag) wanted
        values results ↔
      world.TurnedAll reg (entries.map Entry.tag) wanted values results := by
  induction hFits generalizing values results with
  | nil => rfl
  | cons hFit _ ih =>
    cases values with
    | nil => constructor <;> rintro ⟨⟩
    | cons value values =>
      simp only [zipWith_cons_cons, map_cons, turnedAll_cons, turned_retagged hFit, ih]

/- Retagged entries fit, and their values are of the kinds of the new tags. -/
theorem retagged_fits (hKinds : AllOfKind entries values) :
    Forall₂ (fun entry tag => entry.tag.Fits tag)
        (zipWith Entry.retagged entries wanted) wanted ∧
      AllOfKind (zipWith Entry.retagged entries wanted) values := by
  induction hFits generalizing values with
  | nil => exact ⟨.nil, hKinds⟩
  | @cons entry tag entries wanted hFit _ ih =>
    cases hKinds with
    | cons hKind hKinds =>
      rcases ih hKinds with ⟨hFits, hOthers⟩
      have hEntry : (entry.retagged tag).tag.Fits tag ∧
          (entry.retagged tag).tag.valueKind = entry.tag.valueKind := by
        unfold Entry.retagged
        split
        · exact ⟨hFit, rfl⟩
        · rename_i hFree
          exact ⟨.refl tag, hFit.valueKind_eq (Bool.eq_false_iff.mpr hFree)⟩
      exact ⟨.cons hEntry.1 hFits, .cons (hKind.trans hEntry.2.symm) hOthers⟩

end

/- What the code of a conversion does with the operands. -/
theorem exec_converted {below stored : List Entry} {before after : Bench}
    (hUnary : world.Unary reg) (hDirect : AllDirect entries wanted)
    (hConverted : OperandsConverted reg entries below wanted stored code before after)
    (hKinds : AllOfKind entries values) :
    world.ExecAll code (values.reverse ++ stack) locals final finalLocals ↔ ∃ results,
      world.TurnedAll reg (entries.map Entry.tag) wanted values results ∧
        final = results.reverse ++ stack ∧
          finalLocals = locals.storeFrom (before.locals.dstSize + before.scratch)
            (values.reverse.take stored.length) := by
  have hFits : Forall₂ (fun entry tag => entry.tag.Fits tag) entries wanted :=
    List.forall₂_iff_zip.mpr ⟨hDirect.length_eq, fun hPair =>
      ⟨(List.forall₂_iff_zip.mp hConverted.casts).2 hPair,
        (List.forall₂_iff_zip.mp hDirect).2 hPair⟩⟩
  rcases retagged_fits hFits hKinds with ⟨hRetagged, hRetaggedKinds⟩
  rw [exec_operandCode hUnary hConverted.coded hRetagged hRetaggedKinds]
  simp only [turnedAll_retagged hFits]

end World

-- What is written

/- The cells of locals that an instruction writes: the first, and how many. -/
def Instruction.writes : Instruction → List (Nat × Nat)
  | .store kind slot => [(slot, kind.cells)]
  | .increment slot _ => [(slot, 1)]
  | _ => []

/- The cells of a value in a scratch local. -/
def Simulation.Spilled.range (spilled : Spilled) : Nat × Nat :=
  (spilled.slot, spilled.entry.tag.dstWidth)

namespace Simulation

variable {reg : Registry} {code : List Instruction}

theorem writes_conversion {found want : Tag}
    (hCode : ConversionCode reg found want code) :
    code.flatMap Instruction.writes = [] := by
  cases hCode with
  | keep | box => rfl
  | unboxNull =>
    unfold nullConstant
    split
    · rfl
    split <;> rfl
  | unbox =>
    unfold unboxCheck
    split
    · rfl
    split <;> rfl

theorem writes_reload {spilled : List Spilled} {want : List Tag}
    (hCode : ReloadCode reg spilled want code) :
    code.flatMap Instruction.writes = [] := by
  induction hCode with
  | plain spilled => simp [Spilled.load, Instruction.writes]
  | convert _ hCode _ ih =>
    simp [Spilled.load, Instruction.writes, writes_conversion hCode, ih]

/- Only scratch locals are written, each once. -/
theorem writes_operandCode
    {cell : Nat} {operands stored : List Entry} {want : List Tag}
    (hCode : OperandCode reg cell operands want stored code) :
    code.flatMap Instruction.writes = (spilledFrom cell stored).map Spilled.range := by
  cases hCode with
  | keep => rfl
  | convert _ _ _ _ hConversion hReload =>
    rw [flatMap_append, flatMap_append, writes_conversion hConversion,
      writes_reload hReload]
    simp [flatMap_map, Spilled.store, Instruction.writes, Tag.cells_valueKind,
      Spilled.range, ← map_eq_flatMap]

/- Scratch locals follow one another. -/
theorem range_spilledFrom (cell : Nat) (entries : List Entry) :
    (∀ range ∈ (spilledFrom cell entries).map Spilled.range,
        cell ≤ range.1 ∧ range.1 + range.2 ≤ cell + dstCells entries) ∧
      ((spilledFrom cell entries).map Spilled.range).Pairwise
        fun first second => first.1 + first.2 ≤ second.1 := by
  induction entries generalizing cell with
  | nil => simp [spilledFrom]
  | cons entry entries ih =>
    rcases ih (cell + entry.tag.dstWidth) with ⟨hWithin, hApart⟩
    simp only [spilledFrom, map_cons, forall_mem_cons, pairwise_cons,
      Spilled.range, dstCells, total_cons] at hWithin hApart ⊢
    refine ⟨⟨by omega, fun range hRange => ?_⟩, fun range hRange => ?_, hApart⟩
    · have hRange := hWithin range hRange
      omega
    · exact (hWithin range hRange).1

end Simulation

/- The variables of a map lie before its end. -/
theorem SlotMap.Sound.end_le_dstSize {map : SlotMap} {slot : Nat} {tag : Tag}
    (hMap : map.Sound) (hVar : (slot, tag) ∈ map.vars) :
    map.address slot + tag.dstWidth ≤ map.dstSize := by
  rcases mem_varsOf.mp hVar with ⟨hTag, hUsed⟩
  have hEnd : slot + tag.srcWidth ≤ map.size := by
    rw [← hTag] at hUsed ⊢
    exact hMap.cells.paired.end_le_size hUsed
  have hWidth := hMap.dstWidth_le_span hVar
  have hSpan : map.address slot + map.span slot tag.srcWidth =
      map.address (slot + tag.srcWidth) := by
    have hRange : List.range slot ++ List.range' slot tag.srcWidth =
        List.range (slot + tag.srcWidth) := by
      rw [range_eq_range', range_eq_range']
      simpa using @range'_append_1 0 slot tag.srcWidth
    rw [hMap.address_eq, hMap.address_eq, span, ← total_append, ← map_append, hRange]
  have hLast := hMap.address_mono hEnd
  rw [hMap.dstSize_eq_address]
  omega

namespace Simulation

/-
  The conversion of some operands on top of other entries is
  exact. The operands have the expected tags, and the other
  entries and the locals are as they were. The code writes
  scratch locals only: they start after all variables and after
  the scratch locals in use, and no two of them overlap. It runs
  exactly if every operand can be turned into what is expected
  in its place, and then it leaves what each has become, in
  order, on top of what lies below.
-/
structure ExactConversion (world : World) (reg : Registry) (want : List Tag)
    (operands below : List Entry) (code : List Instruction)
    (st after : State) : Prop where
  length : operands.length = want.length
  before : st.stack.entries = operands.reverse ++ below
  entries : after.stack.entries =
    (zipWith Entry.withTag operands want).reverse ++ below
  tags : (zipWith Entry.withTag operands want).map Entry.tag = want
  locals : after.locals = st.locals
  edit : after.edit = st.edit.emit code
  live : ∀ slot tag, (slot, tag) ∈ st.locals.vars → ∀ range ∈ code.flatMap Instruction.writes,
      st.locals.address slot + tag.dstWidth ≤ range.1
  scratch : ∀ range ∈ code.flatMap Instruction.writes,
    st.locals.dstSize + st.scratch ≤ range.1 ∧
      range.1 + range.2 ≤ st.locals.dstSize + after.scratch
  apart : (code.flatMap Instruction.writes).Pairwise
    fun first second => first.1 + first.2 ≤ second.1
  runs : ∀ (values : List world.Val), World.AllOfKind operands values →
      ∃ count, ∀ stack locals final finalLocals,
        world.ExecAll code (values.reverse ++ stack) locals final finalLocals ↔ ∃ results,
            world.TurnedAll reg (operands.map Entry.tag) want values results ∧
              final = results.reverse ++ stack ∧
                finalLocals = locals.storeFrom (st.locals.dstSize + st.scratch)
                  (values.reverse.take count)

theorem convertOperands_exact
    {world : World} {ctx : Context} {st after : State} {want : List Tag}
    (hUnary : world.Unary ctx.reg)
    (hLocals : st.locals.Sound)
    (hConcrete : ∀ tag ∈ want, tag.Concrete)
    (hSize : want.length ≤ st.stack.entries.length)
    (hOk : convertOperands want ctx st = .ok () after) :
    ∃ operands below code,
      ExactConversion world ctx.reg want operands below code st after := by
  rcases convertOperands_concrete hConcrete hSize hOk with
    ⟨operands, below, stored, code, hEntries, hDirect, hConverted⟩
  have hScratch : after.scratch = st.scratch + dstCells stored :=
    congrArg Bench.scratch hConverted.bench_eq
  have hWrites : code.flatMap Instruction.writes =
      (spilledFrom (st.locals.dstSize + st.scratch) stored).map Spilled.range :=
    writes_operandCode hConverted.coded
  rcases range_spilledFrom (st.locals.dstSize + st.scratch) stored with
    ⟨hWithin, hApart⟩
  rw [← hWrites] at hWithin hApart
  refine ⟨operands, below, code, hDirect.length_eq, hEntries, congrArg Bench.entries hConverted.bench_eq,
    map_tag_withTag hDirect.length_eq, congrArg Bench.locals hConverted.bench_eq,
    congrArg Bench.edit hConverted.bench_eq, ?_, ?_, hApart, ?_⟩
  · intro slot tag hVar range hRange
    have hEnd := hLocals.end_le_dstSize hVar
    have hStart := (hWithin range hRange).1
    omega
  · intro range hRange
    have hRange := hWithin range hRange
    omega
  · exact fun values hKinds => ⟨stored.length, fun stack locals final finalLocals =>
      World.exec_converted hUnary hDirect hConverted hKinds⟩

/- A payload, a box and null on the stack, the last on top, and a payload in a local. -/
def mixedState : State :=
  { State.initial with
    stack := ((OperandStack.empty.push (.payload .first) none).push
      (.reference .first) none).push .null none
    locals := (SlotMap.empty.add (.payload .first) none).2 }

/- The payload is boxed, and what lies on it is unboxed. -/
theorem convertOperands_exact_mixed :
    ∃ after operands below code,
      convertOperands [.reference .first, .payload .first, .payload .first] loopContext
          mixedState = .ok () after ∧
        ExactConversion Amounts.world loopContext.reg
          [.reference .first, .payload .first, .payload .first] operands below code
          mixedState after := by
  have hRuns : ((convertOperands [.reference .first, .payload .first, .payload .first]
      loopContext).run' mixedState).isSome = true := by
    decide
  have hUnary : Amounts.world.Unary loopContext.reg := by
    rintro cls info depth method _ _ arguments result ⟨⟩ <;> rfl
  rcases ok_of_runs hRuns with ⟨_, after, hOk⟩
  rcases convertOperands_exact hUnary ((SlotMap.Sound.withPlan #[]).add _ _).1
    (by decide) (by decide) hOk with ⟨operands, below, code, hExact⟩
  exact ⟨after, operands, below, code, hOk, hExact⟩

end Simulation

end Unboxing
