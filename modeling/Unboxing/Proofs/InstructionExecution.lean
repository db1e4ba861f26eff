import Unboxing.Proofs.Output
import Unboxing.Proofs.Representation

/-
  Instructions and what becomes of them do the same. If stack
  and locals are mirrored before an instruction, then they are
  mirrored after it and after the instructions in its place.

  Main declarations:
    * `World.Mirrored`
    * `World.Shown.put`
    * `World.Shown.replace`
    * `World.Mirrored.transfer`
-/

namespace Unboxing

open Simulation

namespace World

variable {world : World} {reg : Registry} {plan : Array Nat}
variable {value image : world.Val} {locals mirror : Locals world.Object}
variable {slot : Nat} {tag : Tag}

/-
  Stack and locals are mirrored: what the tracked tags say about
  the values, the mirrors hold. Locals without a type need no
  mirror.
-/
structure Mirrored (world : World) (reg : Registry) (plan : Array Nat)
    (typing : Typing) (entries : List Entry) (map : SlotMap)
    (values : List world.Val) (locals : Locals world.Object) (mirrors : List world.Val)
    (mirror : Locals world.Object) : Prop where
  stack : world.Stacked reg (entries.map Entry.tag) values mirrors
  locals : world.Shown reg plan (typing.locals · ≠ .top) map.tagAt locals mirror

-- Stores

/-
  Storing a value takes the types and tags of the variables that
  lose a cell away from both sides.
-/
theorem Shown.put
    {typing : Typing} {map : SlotMap} {stack : List world.Val} {name : Option String}
    {type : FrameType}
    (hShown :
      world.Shown reg plan (typing.locals · ≠ .top) map.tagAt locals mirror)
    (hTyped : world.Typed typing stack locals)
    (hPlaced : SlotMap.Placed plan map)
    (hStored :
      SlotMap.Placed plan (map.withCells (SlotMap.Placed.stored map slot tag name)))
    (hImage : world.Represents reg tag value image)
    (hType : world.HasType value type)
    (hTop : type ≠ .top) :
    world.Shown reg plan ((typing.store slot type).locals · ≠ .top)
      (map.withCells (SlotMap.Placed.stored map slot tag name)).tagAt
      (locals.store slot value) (mirror.store (planned plan slot) image) := by
  have hTags (other : Nat) :
      (map.withCells (SlotMap.Placed.stored map slot tag name)).tagAt other = _ :=
    SlotMap.tagIn_stored hPlaced.cells.paired slot tag name other
  refine hShown.store hStored.laid ?_ (locals.store_self slot value) ?_
  · intro other hOther hLive
    simp only [Typing.store, if_neg hOther] at hLive
    split at hLive
    · exact absurd rfl hLive
    rename_i hAfter
    split at hLive
    · exact absurd rfl hLive
    rename_i hBefore
    rcases hTyped.locals other hLive with ⟨old, hOld, hOldType⟩
    rcases hShown other hLive with ⟨same, oldImage, hSame, _, hOldImage⟩
    rw [hOld] at hSame
    cases hSame
    have hWidth : width type = tag.srcWidth :=
      (hType.width_eq hTop).trans hImage.width_value
    have hOldWidth : width (typing.locals other) = (map.tagAt other).srcWidth :=
      (hOldType.width_eq hLive).trans hOldImage.width_value
    refine ⟨hLive, ?_, ?_⟩
    · rw [hTags, if_neg (fun hSame => hOther hSame.symm), if_neg, if_neg]
      · rintro ⟨rfl, hWide⟩
        rw [hWidth, (Tag.srcWidth_eq_two tag).mpr hWide] at hAfter
        omega
      · rintro ⟨rfl, hTail⟩
        have hWide := (hPlaced.isTail_iff other).mp hTail
        rw [hOldWidth, (Tag.srcWidth_eq_two _).mpr hWide] at hBefore
        omega
    · rw [hOld]
      rw [hType.width_eq hTop] at hAfter
      rw [hOldType.width_eq hLive] at hBefore
      exact Locals.store_of_apart hOld hOther (by omega)
  · rw [hTags, if_pos rfl]
    exact hImage

theorem Shown.replace {live : Nat → Prop} {tags : Nat → Tag}
    (hShown : world.Shown reg plan live tags locals mirror) (hLaid : Laid plan tags)
    (hImage : world.Represents reg (tags slot) value image) :
    world.Shown reg plan live tags (locals.replace slot value)
      (mirror.replace (planned plan slot) image) := by
  intro other hOther
  by_cases hSame : other = slot
  · subst hSame
    exact ⟨value, image, if_pos rfl, if_pos rfl, hImage⟩
  · rcases hShown other hOther with ⟨old, oldImage, hOld, hOldImage, hRepresents⟩
    refine ⟨old, oldImage, (if_neg hSame).trans hOld, (if_neg ?_).trans hOldImage, hRepresents⟩
    exact hLaid.address_ne hSame hRepresents.not_void hImage.not_void

-- Values that instructions leave

theorem Stacked.of_primitives {kinds : List ValueKind} {results : List world.Val}
    (hKinds : results.map Datum.kind = kinds) (hPrimitive : .reference ∉ kinds) :
    world.Stacked reg (kinds.map Tag.ofKind) results results := by
  subst hKinds
  induction results with
  | nil => exact .nil
  | cons result results ih =>
    rw [List.map_cons, List.mem_cons, not_or] at hPrimitive
    exact .cons (.primitive fun hKind => hPrimitive.1 hKind.symm) (ih hPrimitive.2)

theorem valueKind_ofKind (kind : ValueKind) : (Tag.ofKind kind).valueKind = kind := by
  cases kind <;> rfl

theorem takes_ne_reference (op : Plain) : .reference ∉ op.takes := by
  cases op <;> decide

theorem Represents.int (number : Int) :
    world.Represents reg .int (.int number) (.int number) := by
  have hKind : (Datum.int number : world.Val).kind ≠ .reference := nofun
  exact .primitive hKind

theorem Represents.constant (value : Constant) :
    world.Represents reg value.tag (world.constant value)
      (world.constant value) := by
  have hPrimitive (number : world.Val) (hKind : number.kind ≠ .reference) :
      world.Represents reg (.ofKind number.kind) number number :=
    .primitive hKind
  have hLiteral : world.Represents reg .object
      (.ref (some (world.literal value))) (.ref (some (world.literal value))) :=
    .other rfl (.inl rfl)
  cases value with
  | int number => exact hPrimitive (.int number) nofun
  | float number => exact hPrimitive (.float number) nofun
  | long number => exact hPrimitive (.long number) nofun
  | double number => exact hPrimitive (.double number) nofun
  | string text | type named | methodType type => exact hLiteral

theorem storedAs_eq (tag : Tag) (room : Nat) :
    storedAs tag room = tag ∨ (∃ cls, tag = .reference cls ∧ storedAs tag room = .payload cls) ∨
        ∃ cls, tag = .payload cls ∧ storedAs tag room = .reference cls := by
  rcases tag with ⟨kind, depth⟩
  unfold storedAs
  split
  · rename_i hReference
    cases kind <;>
      simp_all [Tag.isReference, Tag.hasReferenceKind, Tag.isArray, Tag.reference,
        Tag.payloadOf, Tag.payload]
  · split
    · cases kind <;>
        simp_all [Tag.isPayload, Tag.hasPayloadKind, Tag.isArray, Tag.reference,
          Tag.referenceOf, Tag.payload]
    · exact .inl rfl

/- A value is stored as a payload, a box or what it is. -/
theorem Represents.stored {room : Nat} {code : List Instruction}
    (hHelpers : world.Helpers reg)
    (hImage : world.Represents reg tag value image)
    (hCast : tag.cast (storedAs tag room) ≠ .failure)
    (hCode : ConversionCode reg tag (storedAs tag room) code)
    (stack : List world.Val) (locals : Locals world.Object) :
    ∃ after, world.ExecAll code (image :: stack) locals (after :: stack) locals ∧
        world.Represents reg (storedAs tag room) value after := by
  rcases storedAs_eq tag room with hSame | ⟨cls, rfl, hStored⟩ | ⟨cls, rfl, hStored⟩
  · rw [hSame] at hCode ⊢
    rw [hCode.eq_nil]
    exact ⟨image, .nil _ _, hImage⟩
  · rw [hStored] at hCast hCode ⊢
    rcases hImage.of_reference with ⟨info, left, right, hClass, rfl, rfl, hPayload⟩
    refine hImage.convert hHelpers ?_ hCast hCode stack locals
    exact .of_class rfl rfl hClass hPayload.fits_left
  · rw [hStored] at hCast hCode ⊢
    rcases hImage.of_payloadKind rfl with
      ⟨same, info, reference, hSame, hClass, hFits, rfl, rfl⟩
    cases hSame
    refine hImage.convert hHelpers ?_ hCast hCode stack locals
    exact .of_class rfl rfl hClass hFits

-- Instructions

theorem Bench.use_self (bench : Bench) (i : Instruction) :
    bench.use i i = bench := by
  simp [Bench.use, Edit.use]

namespace Mirrored

variable {typing next : Typing} {before after : Bench}
variable {values lastValues mirrors : List world.Val}
variable {locals lastLocals mirror : Locals world.Object} {i : Instruction}
variable {tag : Tag} {kind : ValueKind} {slot : Nat} {name : Option String}

/- The instructions in the place of one, and what they do to the mirrors. -/
def Follows (world : World) (reg : Registry) (plan : Array Nat) (i : Instruction)
    (next : Typing) (before after : Bench) (values : List world.Val)
    (locals : Locals world.Object) (mirrors : List world.Val)
    (mirror : Locals world.Object) : Prop :=
  ∃ code wanted lastMirrors lastMirror, after.edit = (before.edit.emit code).use i wanted ∧
      world.ExecAll (code ++ [wanted]) mirrors mirror lastMirrors lastMirror ∧
        world.Mirrored reg plan next after.entries after.locals values locals
          lastMirrors lastMirror

variable (hMirrored : world.Mirrored reg plan typing before.entries before.locals
  values locals mirrors mirror)
include hMirrored

theorem compute {op : Plain} (hAfter : typing.after? (.plain op) = some next)
    (hExec : world.Exec (.plain op) values locals lastValues lastLocals) :
    Follows world reg plan (.plain op) next before
      (before.withEntries
        (op.leaves.toList.map (⟨.ofKind ·, none⟩) ++ before.entries.drop op.takes.length))
      lastValues lastLocals mirrors mirror := by
  cases hExec with
  | plain hOperands hCompute rest =>
    rename_i operands results
    simp only [Typing.after?, Option.map_eq_some_iff] at hAfter
    rcases hAfter with ⟨popped, hPop, rfl⟩
    have hPrimitive : ∀ operand ∈ operands, operand.kind ≠ .reference := by
      intro operand hOperand hKind
      apply takes_ne_reference op
      rw [← hOperands, ← hKind]
      exact List.mem_map_of_mem hOperand
    rcases hMirrored.stack.eq_of_primitive hPrimitive with ⟨below, rfl, hBelow⟩
    refine ⟨[], .plain op, results ++ below, mirror, ?_,
      (Exec.plain hOperands hCompute below mirror).all, ?_, ?_⟩
    · rw [Edit.emit_nil]
      exact (congrArg Bench.edit (Bench.use_self before (.plain op))).symm
    · rw [Bench.entries_withEntries, List.map_append, List.map_map, List.map_drop]
      have hLength : op.takes.length = operands.length := by
        rw [← hOperands, List.length_map]
      rw [hLength]
      refine Stacked.append (Stacked.of_primitives
        (world.compute_kinds op operands results hCompute) ?_) hBelow
      rw [Option.mem_toList]
      exact leaves_ne_reference op
    · rw [Typing.eq_of_pop? hPop]
      exact hMirrored.locals

theorem push {wanted : Instruction} {type : FrameType}
    (hImage : world.Represents reg tag value image)
    (hExec : world.Exec wanted mirrors mirror (image :: mirrors) mirror) :
    Follows world reg plan i (typing.push type) before
      ((before.use i wanted).withEntries (⟨tag, name⟩ :: before.entries))
      (value :: values) locals mirrors mirror :=
  ⟨[], wanted, image :: mirrors, mirror, by rw [Edit.emit_nil]; rfl, hExec.all,
    .cons hImage hMirrored.stack, hMirrored.locals⟩

theorem pushConstant (hTag : pushed? i = some tag) (hAfter : typing.after? i = some next)
    (hExec : world.Exec i values locals lastValues lastLocals) :
    Follows world reg plan i next before
      (before.withEntries (⟨tag, none⟩ :: before.entries))
      lastValues lastLocals mirrors mirror := by
  have hPush {type : FrameType} {value : world.Val}
      (hImage : world.Represents reg tag value value)
      (hSame : world.Exec i mirrors mirror (value :: mirrors) mirror) :
      Follows world reg plan i (typing.push type) before
        (before.withEntries (⟨tag, none⟩ :: before.entries))
        (value :: values) locals mirrors mirror := by
    have hFollows : Follows world reg plan i (typing.push type) before
        ((before.use i i).withEntries (⟨tag, none⟩ :: before.entries))
        (value :: values) locals mirrors mirror := hMirrored.push hImage hSame
    rwa [Bench.use_self] at hFollows
  cases hExec with
  | pushNull =>
    cases hTag
    cases hAfter
    exact hPush .null (.pushNull _ _)
  | pushByte number =>
    cases hTag
    cases hAfter
    exact hPush (.int number) (.pushByte number _ _)
  | pushShort number =>
    cases hTag
    cases hAfter
    exact hPush (.int number) (.pushShort number _ _)
  | constant value =>
    cases hTag
    cases hAfter
    exact hPush (.constant value) (.constant value _ _)
  | _ => cases hTag

theorem load
    (hTag : kind = .reference ∧ tag = before.locals.tagAt slot ∨
      kind ≠ .reference ∧ tag = .ofKind kind)
    (hAfter : typing.after? (.load kind slot) = some next)
    (hExec : world.Exec (.load kind slot) values locals lastValues lastLocals)
    (name : Option String) :
    Follows world reg plan (.load kind slot) next before
      ((before.use (.load kind slot)
        (.load tag.valueKind (planned plan slot))).withEntries
          (⟨tag, name⟩ :: before.entries))
      lastValues lastLocals mirrors mirror := by
  cases hExec with
  | load hValue =>
    rename_i value
    simp only [Typing.after?] at hAfter
    split at hAfter
    · rename_i hKind
      cases hAfter
      have hLive : typing.locals slot ≠ .top := by
        intro hTop
        rw [hTop] at hKind
        cases hKind
      rcases hMirrored.locals slot hLive with
        ⟨same, image, hSame, hImage, hRepresents⟩
      rw [hValue] at hSame
      cases hSame
      have hTagged : world.Represents reg tag value image := by
        rcases hTag with ⟨_, rfl⟩ | ⟨hPrimitive, rfl⟩
        · exact hRepresents
        · rw [hRepresents.eq_of_primitive hPrimitive]
          exact .primitive hPrimitive
      refine hMirrored.push hTagged ?_
      rw [← hTagged.kind_eq]
      exact .load hImage mirrors
    · cases hAfter

section

variable (hTyped : world.Typed typing values locals) (hPlaced : SlotMap.Placed plan before.locals)
include hTyped hPlaced

/- A value that is stored takes the place of the same variables on both sides. -/
theorem store {stored : Tag} {entry : Entry} {entries : List Entry}
    (hStored : SlotMap.Placed plan (before.locals.withCells
      (SlotMap.Placed.stored before.locals slot stored name)))
    (hEntries : before.entries = entry :: entries) (code : List Instruction)
    (hConvert : ∀ value image, value.kind = kind →
      world.Represents reg entry.tag value image → ∀ stack, ∃ turned,
          world.ExecAll code (image :: stack) mirror (turned :: stack) mirror ∧
            world.Represents reg stored value turned)
    (hAfter : typing.after? (.store kind slot) = some next)
    (hExec : world.Exec (.store kind slot) values locals lastValues lastLocals) :
    Follows world reg plan (.store kind slot) next before
      ((((before.withEntries entries).emit code).put slot stored name).use
        (.store kind slot) (.store stored.valueKind (planned plan slot)))
      lastValues lastLocals mirrors mirror := by
  cases hExec with
  | store slot value =>
    have hStack := hMirrored.stack
    rw [hEntries, List.map_cons] at hStack
    cases hStack with
    | cons hTop hRest =>
      rename_i image below
      rcases hConvert value image rfl hTop below with ⟨turned, hCode, hTurned⟩
      rcases List.forall₂_cons_left_iff.mp hTyped.stack with
        ⟨type, types, hType, hTypes, hSplit⟩
      simp only [Typing.after?, hSplit] at hAfter
      split at hAfter
      · rename_i hKind
        cases hAfter
        have hTopType : type ≠ .top := by
          rintro rfl
          cases hKind
        refine ⟨code, _, below, mirror.store (planned plan slot) turned, rfl, ?_, hRest, ?_⟩
        · rw [← hTurned.kind_eq]
          exact hCode.append (Exec.store _ turned below mirror).all
        · have hUnder : world.Typed ⟨typing.locals, types⟩ lastValues locals :=
            ⟨hTypes, hTyped.locals⟩
          exact Shown.put hMirrored.locals hUnder hPlaced hStored hTurned hType
            hTopType
      · cases hAfter

theorem storePrimitive
    (hStored : SlotMap.Placed plan (before.locals.withCells
      (SlotMap.Placed.stored before.locals slot (.ofKind kind) none)))
    (hKind : kind ≠ .reference) (hAfter : typing.after? (.store kind slot) = some next)
    (hExec : world.Exec (.store kind slot) values locals lastValues lastLocals) :
    Follows world reg plan (.store kind slot) next before
      (((before.withEntries before.entries.tail).put slot (.ofKind kind) none).use
        (.store kind slot) (.store kind (planned plan slot)))
      lastValues lastLocals mirrors mirror := by
  cases hEntries : before.entries with
  | nil =>
    have hStack := hMirrored.stack
    rw [hEntries] at hStack
    cases hStack
    cases hExec
  | cons entry entries =>
    have hFollows := hMirrored.store hTyped hPlaced hStored hEntries []
      (by
        intro value image hValue hImage stack
        rw [hImage.eq_of_primitive (hValue ▸ hKind)]
        refine ⟨value, .nil _ _, ?_⟩
        rw [← hValue]
        exact .primitive (hValue ▸ hKind)) hAfter hExec
    rw [valueKind_ofKind, Bench.emit_nil] at hFollows
    exact hFollows

end

theorem increment {delta : Int} (hPlaced : SlotMap.Placed plan before.locals)
    (hAfter : typing.after? (.increment slot delta) = some next)
    (hExec :
      world.Exec (.increment slot delta) values locals lastValues lastLocals) :
    Follows world reg plan (.increment slot delta) next before
      (before.use (.increment slot delta)
        (.increment (planned plan slot) delta))
      lastValues lastLocals mirrors mirror := by
  cases hExec with
  | increment hValue =>
    rename_i number
    simp only [Typing.after?] at hAfter
    split at hAfter
    · rename_i hInt
      cases hAfter
      have hLive : typing.locals slot ≠ .top := by
        rw [hInt]
        rintro ⟨⟩
      rcases hMirrored.locals slot hLive with
        ⟨same, image, hSame, hImage, hRepresents⟩
      rw [hValue] at hSame
      cases hSame
      have hKind : (Datum.int number : world.Val).kind ≠ .reference := by rintro ⟨⟩
      have hSameImage := hRepresents.eq_of_primitive hKind
      subst hSameImage
      refine ⟨[], _, mirrors, _, by rw [Edit.emit_nil]; rfl,
        (Exec.increment hImage delta mirrors).all, hMirrored.stack, ?_⟩
      refine Shown.replace hMirrored.locals hPlaced.laid ?_
      change world.Represents reg (before.locals.tagAt slot) _ _
      rw [hRepresents.tag_of_primitive hKind]
      exact .int _
    · cases hAfter

/- Every basic instruction is followed by what is put in its place. -/
theorem transfer (hHelpers : world.Helpers reg) (hTyped : world.Typed typing values locals)
    (hTransfer : Transfer reg plan i before after)
    (hPlaced : SlotMap.Placed plan before.locals)
    (hPlacedAfter : SlotMap.Placed plan after.locals)
    (hAfter : typing.after? i = some next)
    (hExec : world.Exec i values locals lastValues lastLocals) :
    Follows world reg plan i next before after lastValues lastLocals mirrors
      mirror := by
  cases hTransfer with
  | compute op => exact hMirrored.compute hAfter hExec
  | push hTag => exact hMirrored.pushConstant hTag hAfter hExec
  | load hKind slot =>
    have hFollows := hMirrored.load (.inr ⟨hKind, rfl⟩) hAfter hExec none
    rw [valueKind_ofKind] at hFollows
    exact hFollows
  | loadReference slot => exact hMirrored.load (.inl ⟨rfl, rfl⟩) hAfter hExec _
  | store hKind slot =>
    exact hMirrored.storePrimitive hTyped hPlaced hPlacedAfter hKind hAfter hExec
  | storeReference hEntries hStored hCast hCode =>
    subst hStored
    exact hMirrored.store hTyped hPlaced hPlacedAfter hEntries _
      (fun value image _ hImage stack =>
        hImage.stored hHelpers hCast hCode stack mirror) hAfter hExec
  | increment slot delta => exact hMirrored.increment hPlaced hAfter hExec

end Mirrored

end World

end Unboxing
