import Unboxing.Proofs.Conversions
import Unboxing.Proofs.Verification

/-
  How values look after unboxing: the payload of a reference to
  a value, another box of the same payload, or the value as it
  was. The code of a conversion turns one into another. The
  values of the stack correspond one by one. The value of a
  slot has moved to the address of the slot, and no two values
  that are in use share a cell there.

  Main declarations:
    * `World.Represents`
    * `World.Belongs`
    * `World.Represents.convert`
    * `World.Stacked`
    * `SlotMap.Placed.laid`
    * `World.Shown`
-/

namespace Unboxing

-- Tags of references

namespace Tag

variable {tag : Tag} {found want : Tag}

/- Whether the value is a reference and neither null nor of a value class. -/
def isOtherReference (tag : Tag) : Bool :=
  match tag.kind with
  | .void | .null | .payload _ => false
  | .object => true
  | _ => tag.isArray

theorem eq_payload (hKind : tag.hasPayloadKind = true)
    (hNoArray : tag.isPayloadArray = false) :
    ∃ cls, tag = .payload cls := by
  rcases tag with ⟨kind, depth⟩
  cases kind with
  | payload cls =>
    have hDepth : depth = 0 := by
      simpa [isPayloadArray, hasPayloadKind, isArray] using hNoArray
    exact ⟨cls, by rw [hDepth]; rfl⟩
  | _ => cases hKind

/- A reference of a value class is one to a box, or an array. -/
theorem isReference_or_other (hValue : tag.isValue = true)
    (hKind : tag.hasPayloadKind = false) :
    tag.isReference = true ∨ tag.isOtherReference = true := by
  rcases tag with ⟨kind, depth⟩
  cases kind with
  | reference cls =>
    by_cases hDepth : 0 < depth
    · exact .inr (by simp [isOtherReference, isArray, hDepth])
    · exact .inl (by simp [isReference, hasReferenceKind, isArray, hDepth])
  | payload cls => cases hKind
  | _ => cases hValue

theorem isSrcReference_of_isValue (hValue : tag.isValue = true) :
    tag.isSrcReference = true := by
  rcases tag with ⟨kind, depth⟩
  cases kind <;> simp_all [isValue, class?, isSrcReference]

theorem not_isPayload_of_not_isValue (hValue : tag.isValue = false) :
    tag.isPayload = false := by
  rcases tag with ⟨kind, depth⟩
  cases kind <;> simp_all [isValue, class?, isPayload, hasPayloadKind]

/-
  Without code only references that are not unboxed become
  something else, and that is not unboxed either.
-/
theorem of_cast_success (hCast : found.cast want = .success)
    (hDifferent : found ≠ want) (hNoArray : want.isPayloadArray = false) :
    found.isPayload = false ∧ found.isSrcReference = true ∧
      (want.isReference = true ∨ want.isOtherReference = true) := by
  cases turns_of_cast hCast with
  | same hSame => exact absurd hSame hDifferent
  | asObject hValue hFound hWant =>
    refine ⟨by simp [isPayload, hFound], isSrcReference_of_isValue hValue, .inr ?_⟩
    simp [isOtherReference, hWant]
  | null hFound hValue hWant =>
    refine ⟨by simp [isPayload, hasPayloadKind, hFound], by simp [isSrcReference, hFound], ?_⟩
    apply isReference_or_other hValue
    simp only [isPayload, isPayloadArray, Bool.and_eq_false_iff] at hWant hNoArray
    cases hArray : want.isArray <;> simp_all
  | object hFound hValue hWant =>
    refine ⟨by simp [isPayload, hasPayloadKind, hFound], by simp [isSrcReference, hFound], ?_⟩
    exact isReference_or_other hValue hWant
  | other hFound hWant hReferences hKind =>
    refine ⟨not_isPayload_of_not_isValue hFound, hReferences.1, .inr ?_⟩
    rcases want with ⟨kind, depth⟩
    cases kind <;> simp_all [isOtherReference, isSrcReference, isValue, class?]

end Tag

/- Whether a tag is a declared one, or of the payloads of its references. -/
def Tag.Suits (declared tag : Tag) : Prop :=
  tag = declared ∨ declared.isReference = true ∧ tag = declared.payloadOf

theorem Tag.Suits.eq_of_not_reference {declared tag : Tag} (hSuits : declared.Suits tag)
    (hReference : declared.isReference = false) :
    tag = declared := by
  rcases hSuits with hSame | ⟨hDeclared, _⟩
  · exact hSame
  · rw [hReference] at hDeclared
    cases hDeclared

namespace Registry

variable {reg : Registry}

/- An index found by name is that of a value class with the name. -/
theorem class?_of_index? {name : ClassName} {cls : ClassIndex}
    (hIndex : reg.index? name = some cls) :
    ∃ info, reg.class? cls = some info ∧ info.name = name := by
  rw [index?, Option.bind_eq_some_iff] at hIndex
  rcases hIndex with ⟨position, hPosition, hCls⟩
  rcases List.findIdx?_eq_some_iff_getElem.mp hPosition with ⟨hInside, hName, _⟩
  rw [ClassIndex.ofNat?] at hCls
  split at hCls
  · cases hCls
    refine ⟨reg.classes[position], ?_, by simpa using hName⟩
    exact List.getElem?_eq_getElem hInside
  · cases hCls

/- The tag of a class is that of references to it, or to some object. -/
theorem tagOfClass_cases (reg : Registry) (name : ClassName) :
    reg.tagOfClass name = .object ∨ ∃ cls info, reg.tagOfClass name = .reference cls ∧
        reg.class? cls = some info ∧ info.name = name := by
  unfold tagOfClass
  cases hIndex : reg.index? name with
  | none => exact .inl rfl
  | some cls =>
    rcases class?_of_index? hIndex with ⟨info, hClass, hName⟩
    exact .inr ⟨cls, info, rfl, hClass, hName⟩

/- Under dimensions, the tag of an element is that of an array. -/
theorem tagOfElement_array (reg : Registry) (element : Element) :
    (reg.tagOfElement element).depth = 0 ∧ ∀ depth, 0 < depth →
        (Tag.mk (reg.tagOfElement element).kind depth).isOtherReference = true := by
  cases element with
  | base type =>
    cases type <;>
      exact ⟨rfl, fun depth hDepth => decide_eq_true hDepth⟩
  | object name =>
    rcases reg.tagOfClass_cases name with hTag | ⟨cls, info, hTag, _⟩
    · rw [tagOfElement, hTag]
      exact ⟨rfl, fun depth hDepth => rfl⟩
    · rw [tagOfElement, hTag]
      exact ⟨rfl, fun depth hDepth => decide_eq_true hDepth⟩

/- The tag of a well-formed array type is one of arrays. -/
theorem tagOfRef_array {more : Nat} {element : Element}
    (hDepth : (RefType.array more element).depth ≤ 255) :
    (reg.tagOfRef (.array more element)).isOtherReference = true ∧
      0 < (reg.tagOfRef (.array more element)).depth := by
  have hSmall : more + 1 ≤ 255 := hDepth
  rcases reg.tagOfElement_array element with ⟨hElement, hArray⟩
  have hTag : reg.tagOfRef (.array more element) =
      ⟨(reg.tagOfElement element).kind, more + 1⟩ := by
    rw [tagOfRef, Tag.arrayOf, hElement, Tag.maxDepth]
    congr 1
    omega
  rw [hTag]
  exact ⟨hArray (more + 1) (by omega), Nat.succ_pos more⟩

/- Types never leave a value class open. -/
theorem tagOfRef_closed (reg : Registry) (type : RefType) :
    (reg.tagOfRef type).isWildcard = false := by
  have hClass (name : ClassName) :
      (reg.tagOfClass name).isWildcard = false := by
    rcases reg.tagOfClass_cases name with hTag | ⟨cls, info, hTag, hInfo, _⟩
    · rw [hTag]
      rfl
    · rw [hTag]
      cases cls with
      | declared index => rfl
      | wildcard => cases hInfo
  cases type with
  | object name => exact hClass name
  | array more element =>
    cases element with
    | base type => cases type <;> rfl
    | object name => exact hClass name

theorem tagOf_closed (reg : Registry) (type : FieldType) :
    (reg.tagOf type).isWildcard = false := by
  cases type with
  | base type => cases type <;> rfl
  | ref type => exact reg.tagOfRef_closed type

end Registry

-- References with the same meaning

namespace World

variable {world : World} {reg : Registry} {info : ValueClass}
variable {left right : Option world.Object} {cls : ClassIndex}

/- Whether two references are the same, or to values with the same payload. -/
def Alike (world : World) (reg : Registry)
    (left right : Option world.Object) : Prop :=
  left = right ∨ ∃ cls info, reg.class? cls = some info ∧ world.SamePayload info left right

theorem SamePayload.refl {reference : Option world.Object}
    (hFits : world.Fits (.object info.name) reference) :
    world.SamePayload info reference reference :=
  ⟨hFits, hFits, rfl⟩

/- Null has the same payload as nothing but null. -/
theorem SamePayload.eq_none_iff (hHelpers : world.Helpers reg)
    (hClass : reg.class? cls = some info)
    (hSame : world.SamePayload info left right) :
    left = none ↔ right = none := by
  have hNotNull (object : world.Object)
      (hFits : world.Fits (.object info.name) (some object)) :
      world.payload info.name object ≠ info.nullValue :=
    hHelpers.notNull cls info object hClass (hFits object rfl)
  have hPayload := hSame.payload
  cases left with
  | none =>
    cases right with
    | none => simp
    | some object => exact absurd hPayload.symm (hNotNull object hSame.fits_right)
  | some object =>
    cases right with
    | none => exact absurd hPayload (hNotNull object hSame.fits_left)
    | some other => simp

theorem Alike.eq_none_iff (hHelpers : world.Helpers reg)
    (hAlike : world.Alike reg left right) :
    left = none ↔ right = none := by
  rcases hAlike with rfl | ⟨cls, info, hClass, hSame⟩
  · rfl
  · exact hSame.eq_none_iff hHelpers hClass

/- Of a value class, references with the same meaning have the same payload. -/
theorem Alike.samePayload (hHelpers : world.Helpers reg)
    (hAlike : world.Alike reg left right) (hClass : reg.class? cls = some info)
    (hFits : world.Fits (.object info.name) left) :
    world.SamePayload info left right := by
  rcases hAlike with rfl | ⟨other, otherInfo, hOther, hSame⟩
  · exact .refl hFits
  cases left with
  | none =>
    rw [(hSame.eq_none_iff hHelpers hOther).mp rfl]
    exact .refl hFits
  | some object =>
    have hName : info.name = otherInfo.name :=
      hHelpers.apart cls other info otherInfo object hClass hOther
        (hFits object rfl) (hSame.fits_left object rfl)
    cases right with
    | none => cases (hSame.eq_none_iff hHelpers hOther).mpr rfl
    | some boxed =>
      refine ⟨hFits, ?_, ?_⟩
      · rw [hName]
        exact hSame.fits_right
      · simpa only [payloadOf, hName] using hSame.payload

-- Values after unboxing

/- What a value with a tag has become. -/
inductive Represents (world : World) (reg : Registry) :
    Tag → world.Val → world.Val → Prop where
  | primitive
      {value : world.Val}
      (hKind : value.kind ≠ .reference) :
      Represents world reg (.ofKind value.kind) value value
  | payload
      {cls : ClassIndex} {info : ValueClass} {reference : Option world.Object}
      (hClass : reg.class? cls = some info)
      (hFits : world.Fits (.object info.name) reference) :
      Represents world reg (.payload cls) (.ref reference)
        (.long (world.payloadOf info reference))
  | reference
      {cls : ClassIndex} {info : ValueClass} {left right : Option world.Object}
      (hClass : reg.class? cls = some info)
      (hSame : world.SamePayload info left right) :
      Represents world reg (.reference cls) (.ref left) (.ref right)
  | null :
      Represents world reg .null (.ref none) (.ref none)
  | other
      {tag : Tag} {left right : Option world.Object}
      (hTag : tag.isOtherReference = true)
      (hAlike : world.Alike reg left right) :
      Represents world reg tag (.ref left) (.ref right)

/- What is known of a value that a tag is expected of. -/
structure Belongs (world : World) (reg : Registry) (tag : Tag)
    (value : world.Val) : Prop where
  noArray : tag.isPayloadArray = false
  closed : tag.isWildcard = false
  fits : ∀ cls, tag.class? = some cls → tag.depth = 0 →
    ∃ info reference, reg.class? cls = some info ∧
      value = .ref reference ∧ world.Fits (.object info.name) reference

namespace Represents

variable {tag : Tag} {value shown : world.Val}

section

variable (hShown : world.Represents reg tag value shown)
include hShown

/- What a tag says of a value before and after unboxing. -/
theorem shape :
    shown.kind = tag.valueKind ∧ width value = tag.srcWidth ∧ width shown = tag.dstWidth ∧
      tag.isVoid = false := by
  cases hShown with
  | primitive => cases value <;> exact ⟨rfl, rfl, rfl, rfl⟩
  | payload | reference | null => exact ⟨rfl, rfl, rfl, rfl⟩
  | other hTag =>
    rcases tag with ⟨kind, depth⟩
    cases kind <;>
      simp_all [Tag.isOtherReference, Tag.valueKind, Tag.srcWidth, Tag.isSrcWide, Tag.dstWidth,
        Tag.isDstWide, Tag.isVoid, Tag.isArray, Datum.kind, width]

theorem kind_eq : shown.kind = tag.valueKind :=
  hShown.shape.1

theorem width_value : width value = tag.srcWidth :=
  hShown.shape.2.1

theorem width_shown : width shown = tag.dstWidth :=
  hShown.shape.2.2.1

theorem not_void : tag.isVoid = false :=
  hShown.shape.2.2.2

theorem tag_of_primitive (hKind : value.kind ≠ .reference) :
    tag = .ofKind value.kind := by
  cases hShown with
  | primitive => rfl
  | _ => exact absurd rfl hKind

theorem eq_of_primitive (hKind : value.kind ≠ .reference) : shown = value := by
  cases hShown with
  | primitive => rfl
  | payload | reference | null | other => exact absurd rfl hKind

/- What is not unboxed has the same meaning as a reference. -/
theorem alike (hReference : tag.isSrcReference = true)
    (hNoPayload : tag.isPayload = false) :
    ∃ left right, value = .ref left ∧ shown = .ref right ∧ world.Alike reg left right := by
  cases hShown with
  | primitive hKind =>
    cases value <;> first | exact absurd rfl hKind | cases hReference
  | payload => cases hNoPayload
  | reference hClass hSame =>
    exact ⟨_, _, rfl, rfl, .inr ⟨_, _, hClass, hSame⟩⟩
  | null => exact ⟨_, _, rfl, rfl, .inl rfl⟩
  | other _ hAlike => exact ⟨_, _, rfl, rfl, hAlike⟩

/- A tag of payloads is that of one payload. -/
theorem of_payloadKind (hKind : tag.hasPayloadKind = true) :
    ∃ cls info reference, tag = .payload cls ∧ reg.class? cls = some info ∧
        world.Fits (.object info.name) reference ∧ value = .ref reference ∧
          shown = .long (world.payloadOf info reference) := by
  cases hShown with
  | primitive hPrimitive =>
    cases value <;> first | exact absurd rfl hPrimitive | cases hKind
  | payload hClass hFits => exact ⟨_, _, _, rfl, hClass, hFits, rfl, rfl⟩
  | reference | null => cases hKind
  | other hTag =>
    rcases tag with ⟨kind, depth⟩
    cases kind <;> simp_all [Tag.isOtherReference, Tag.hasPayloadKind]

end

/- A reference to a box is to a value of its class. -/
theorem of_reference {cls : ClassIndex}
    (hShown : world.Represents reg (.reference cls) value shown) :
    ∃ info left right, reg.class? cls = some info ∧ value = .ref left ∧ shown = .ref right ∧
        world.SamePayload info left right := by
  generalize hTag : Tag.reference cls = tag at hShown
  cases hShown with
  | primitive => cases value <;> cases hTag
  | payload => cases hTag
  | reference hClass hSame =>
    cases hTag
    exact ⟨_, _, _, hClass, rfl, rfl, hSame⟩
  | null => cases hTag
  | other hOther =>
    subst hTag
    cases hOther

/- A reference can be used where it fits as what it means. -/
theorem of_alike {want : Tag} (hHelpers : world.Helpers reg)
    (hAlike : world.Alike reg left right)
    (hBelongs : world.Belongs reg want (.ref left))
    (hWant : want.isReference = true ∨ want.isOtherReference = true) :
    world.Represents reg want (.ref left) (.ref right) := by
  rcases hWant with hReference | hOther
  · rcases want with ⟨kind, depth⟩
    cases kind with
    | reference cls =>
      have hDepth : depth = 0 := by
        simpa [Tag.isReference, Tag.hasReferenceKind, Tag.isArray]
          using hReference
      subst hDepth
      rcases hBelongs.fits cls rfl rfl with
        ⟨info, reference, hClass, hValue, hFits⟩
      cases hValue
      exact .reference hClass (hAlike.samePayload hHelpers hClass hFits)
    | _ => cases hReference
  · exact .other hOther hAlike

end Represents

-- Conversions

/- The instruction for null puts the payload of null on the stack. -/
theorem exec_nullConstant (world : World) (number : Int) (stack : List world.Val)
    (locals : Locals world.Object) :
    world.Exec (nullConstant number) stack locals (.long number :: stack)
      locals := by
  unfold nullConstant
  split
  · rename_i hZero
    subst hZero
    exact .plain rfl world.compute_lconst0 stack locals
  · split
    · rename_i hOne
      subst hOne
      exact .plain rfl world.compute_lconst1 stack locals
    · exact .constant (.long number) stack locals

namespace Represents

variable {found want : Tag} {value shown : world.Val} {info : ValueClass}
variable {method : MethodRef}

section

variable (hHelpers : world.Helpers reg)
variable (hShown : world.Represents reg found value shown)
variable (hBelongs : world.Belongs reg want value)
include hHelpers hShown hBelongs

/- A cast without code changes nothing but what the value is known to be. -/
theorem keep (hCast : found.cast want ≠ .failure)
    (hKeep : found.needsCode want = false) :
    world.Represents reg want value shown := by
  by_cases hSame : found = want
  · rw [← hSame]
    exact hShown
  have hSuccess : found.cast want = .success := by
    cases hResult : found.cast want with
    | success => rfl
    | failure => exact absurd hResult hCast
    | boxing | unboxing => simp [Tag.needsCode, hResult] at hKeep
    | substitution =>
      have hOpen := (Tag.of_cast_substitution hResult).1
      rw [hBelongs.closed] at hOpen
      cases hOpen
  rcases Tag.of_cast_success hSuccess hSame hBelongs.noArray with
    ⟨hNoPayload, hReference, hWant⟩
  rcases hShown.alike hReference hNoPayload with ⟨left, right, rfl, rfl, hAlike⟩
  exact of_alike hHelpers hAlike hBelongs hWant

theorem box (hCast : found.cast want = .boxing)
    (hClass : reg.class? (found.class?.getD .first) = some info)
    (hMethod : info.boxMethod found.depth = .ok method) (stack : List world.Val)
    (locals : Locals world.Object) :
    ∃ after, world.Exec (.invoke .static method) (shown :: stack) locals
          (after :: stack) locals ∧
        world.Represents reg want value after := by
  rcases Tag.of_cast_boxing hCast with ⟨hKind, hWant⟩
  rcases hShown.of_payloadKind hKind with
    ⟨cls, otherInfo, reference, rfl, hOther, hFits, rfl, rfl⟩
  have hInfo : otherInfo = info := Option.some.inj (hOther.symm.trans hClass)
  subst hInfo
  cases hMethod
  rcases hHelpers.box cls otherInfo reference hClass hFits with
    ⟨boxed, hSame, hCall⟩
  refine ⟨.ref boxed, .invoke hCall stack locals, ?_⟩
  apply of_alike hHelpers (.inr ⟨cls, otherInfo, hClass, hSame⟩) hBelongs
  rcases hWant with ⟨hReference, _, hDepth⟩ | ⟨hObject, _⟩
  · refine .inl ?_
    rw [Tag.isReference, hReference, Tag.isArray, ← hDepth]
    rfl
  · exact .inr (by simp [Tag.isOtherReference, hObject])

end

theorem eq_null (hShown : world.Represents reg found value shown)
    (hNull : found.isNull = true) :
    value = .ref none ∧ shown = .ref none := by
  cases hShown with
  | primitive => cases value <;> cases hNull
  | payload | reference => cases hNull
  | null => exact ⟨rfl, rfl⟩
  | other hTag =>
    rcases found with ⟨kind, depth⟩
    cases kind <;> simp_all [Tag.isOtherReference, Tag.isNull]

/- Null as a payload is the one that stands for it. -/
theorem nullPayload (hKind : want.hasPayloadKind = true)
    (hNoArray : want.isPayloadArray = false)
    (hClass : reg.class? (want.class?.getD .first) = some info) :
    world.Represents reg want (.ref none) (.long info.nullValue) := by
  rcases Tag.eq_payload hKind hNoArray with ⟨cls, rfl⟩
  exact .payload hClass nofun

/- A reference passes the check before it is unboxed. -/
theorem exec_unboxCheck {cls : ClassIndex} (hClass : reg.class? cls = some info)
    {reference : Option world.Object} (hFits : world.Fits (.object info.name) reference)
    (found : Tag) (stack : List world.Val) (locals : Locals world.Object) :
    world.ExecAll (unboxCheck reg found (.payload cls))
      (.ref reference :: stack) locals (.ref reference :: stack) locals := by
  unfold unboxCheck
  split
  · exact .nil _ _
  · have hType : reg.typeOf? (Tag.payload cls).referenceOf =
        some (.ref (.object info.name)) := by
      simp [Registry.typeOf?, Registry.typeOfKind?, Tag.payload, Tag.referenceOf,
        hClass, FieldType.object]
    rw [hType]
    exact (Exec.checkCast hFits stack locals).all

/- An unboxed reference is the payload of its value. -/

section

variable (hHelpers : world.Helpers reg)
variable (hShown : world.Represents reg found value shown)
variable (hBelongs : world.Belongs reg want value)
include hHelpers hShown hBelongs

theorem unbox (hCast : found.cast want = .unboxing) (hNull : found.isNull = false)
    (hClass : reg.class? (want.class?.getD .first) = some info)
    (hMethod : info.unboxMethod want.depth = .ok method) (stack : List world.Val)
    (locals : Locals world.Object) :
    ∃ after, world.ExecAll
          (unboxCheck reg found want ++ [.invoke .static method])
          (shown :: stack) locals (after :: stack) locals ∧
        world.Represents reg want value after := by
  rcases Tag.of_cast_unboxing hCast with ⟨hKind, hFound⟩
  have hReference : found.isSrcReference = true ∧ found.isPayload = false := by
    rcases found with ⟨kind, depth⟩
    rcases hFound with ⟨hReference, _⟩ | ⟨hIsNull, _⟩ | ⟨hObject, _⟩ <;>
      cases kind <;>
        simp_all [Tag.hasReferenceKind, Tag.isSrcReference, Tag.isPayload,
          Tag.hasPayloadKind, Tag.isNull]
  rcases Tag.eq_payload hKind hBelongs.noArray with ⟨cls, rfl⟩
  rcases hShown.alike hReference.1 hReference.2 with
    ⟨left, right, rfl, rfl, hAlike⟩
  rcases hBelongs.fits cls rfl rfl with ⟨other, reference, hOther, hValue, hFits⟩
  cases hValue
  have hInfo : other = info := Option.some.inj (hOther.symm.trans hClass)
  subst hInfo
  cases hMethod
  have hSame := hAlike.samePayload hHelpers hOther hFits
  refine ⟨.long (world.payloadOf other left), ?_, .payload hOther hFits⟩
  refine (exec_unboxCheck hOther hSame.fits_right found stack locals).append ?_
  rw [hSame.payload]
  exact (Exec.invoke (hHelpers.unbox cls other right hOther hSame.fits_right)
    stack locals).all

/- The code of a conversion turns what a value has become into another form. -/
theorem convert {code : List Instruction} (hCast : found.cast want ≠ .failure)
    (hCode : ConversionCode reg found want code) (stack : List world.Val)
    (locals : Locals world.Object) :
    ∃ after, world.ExecAll code (shown :: stack) locals (after :: stack) locals ∧
        world.Represents reg want value after := by
  cases hCode with
  | keep hKeep =>
    exact ⟨shown, .nil _ _, hShown.keep hHelpers hBelongs hCast hKeep⟩
  | box hBoxing hClass hMethod =>
    rcases hShown.box hHelpers hBelongs hBoxing hClass hMethod stack locals with
      ⟨after, hExec, hAfter⟩
    exact ⟨after, hExec.all, hAfter⟩
  | unboxNull hUnboxing hNull hClass =>
    rename_i info
    rcases hShown.eq_null hNull with ⟨rfl, rfl⟩
    refine ⟨.long info.nullValue, ?_,
      nullPayload (Tag.of_cast_unboxing hUnboxing).1 hBelongs.noArray hClass⟩
    exact .cons (.pop _ rfl stack locals)
      (world.exec_nullConstant info.nullValue stack locals).all
  | unbox hUnboxing hNull hClass hMethod =>
    exact hShown.unbox hHelpers hBelongs hUnboxing hNull hClass hMethod stack
      locals

end

end Represents

-- Values of declared types

namespace Belongs

variable {tag : Tag} {value : world.Val}

theorem of_noClass (hClass : tag.class? = none) : world.Belongs reg tag value where
  noArray := by
    rcases tag with ⟨kind, depth⟩
    cases kind <;> simp_all [Tag.class?, Tag.isPayloadArray, Tag.hasPayloadKind]
  closed := by
    rw [Tag.isWildcard, hClass]
    rfl
  fits := by
    intro cls hOther
    rw [hClass] at hOther
    cases hOther

theorem of_class {cls : ClassIndex} {reference : Option world.Object}
    (hTag : tag.class? = some cls) (hNoArray : tag.isPayloadArray = false)
    (hClass : reg.class? cls = some info)
    (hFits : world.Fits (.object info.name) reference) :
    world.Belongs reg tag (.ref reference) where
  noArray := hNoArray
  closed := by
    rw [Tag.isWildcard, hTag]
    cases cls with
    | declared index => rfl
    | wildcard => cases hClass
  fits := by
    intro other hOther _
    rw [hTag] at hOther
    cases hOther
    exact ⟨info, reference, hClass, rfl, hFits⟩

/- A value of a declared type belongs where a tag for it is expected. -/
theorem of_hasType {type : FrameType} (hType : world.HasType value type)
    (hWellFormed : type.isWellFormed = true)
    (hSuits : (reg.tagOfFrame type).Suits tag) :
    world.Belongs reg tag value := by
  cases hType with
  | top => exact of_noClass (by rw [hSuits.eq_of_not_reference rfl]; rfl)
  | int => exact of_noClass (by rw [hSuits.eq_of_not_reference rfl]; rfl)
  | long | float | double | null => exact of_noClass (by rw [hSuits.eq_of_not_reference rfl]; rfl)
  | object hFits =>
    rename_i type reference
    have hClosed := reg.tagOfRef_closed type
    cases type with
    | object name =>
      rw [Registry.tagOfFrame, Registry.tagOfRef] at hSuits
      rw [Registry.tagOfRef] at hClosed
      rcases reg.tagOfClass_cases name with
        hTag | ⟨cls, info, hTag, hClass, hName⟩
      · rw [hTag] at hSuits
        exact of_noClass (by rw [hSuits.eq_of_not_reference rfl]; rfl)
      · rw [hTag] at hSuits hClosed
        rw [← hName] at hFits
        rcases hSuits with rfl | ⟨_, rfl⟩
        · exact of_class rfl rfl hClass hFits
        · exact of_class rfl rfl hClass hFits
    | array more element =>
      have hDepth : (RefType.array more element).depth ≤ 255 := by
        simpa [FrameType.isWellFormed] using hWellFormed
      have hArray : 0 < (reg.tagOfRef (.array more element)).depth :=
        (Registry.tagOfRef_array hDepth).2
      have hReference :
          (reg.tagOfRef (.array more element)).isReference = false := by
        simp [Tag.isReference, Tag.isArray, hArray]
      have hSame : tag = reg.tagOfRef (.array more element) :=
        hSuits.eq_of_not_reference hReference
      rw [hSame]
      refine ⟨?_, hClosed, fun cls _ hScalar => absurd hScalar (by omega)⟩
      simp [Tag.isPayloadArray, Registry.tagOfRef_not_payload]

end Belongs

theorem Represents.of_hasType {value : world.Val} {type : FrameType}
    (hType : world.HasType value type) (hTop : type ≠ .top)
    (hWellFormed : type.isWellFormed = true) :
    world.Represents reg (reg.tagOfFrame type) value value := by
  cases hType with
  | top => exact absurd rfl hTop
  | int number =>
    exact @Represents.primitive world reg (.int number) (by simp [Datum.kind])
  | long number =>
    exact @Represents.primitive world reg (.long number) (by simp [Datum.kind])
  | float number =>
    exact @Represents.primitive world reg (.float number) (by simp [Datum.kind])
  | double number =>
    exact @Represents.primitive world reg (.double number) (by simp [Datum.kind])
  | null => exact .null
  | object hFits =>
    rename_i type reference
    cases type with
    | object name =>
      rcases reg.tagOfClass_cases name with
        hTag | ⟨cls, info, hTag, hClass, hName⟩
      · rw [Registry.tagOfFrame, Registry.tagOfRef, hTag]
        exact .other rfl (.inl rfl)
      · rw [Registry.tagOfFrame, Registry.tagOfRef, hTag]
        rw [← hName] at hFits
        exact .reference hClass (.refl hFits)
    | array more element =>
      have hDepth : (RefType.array more element).depth ≤ 255 := by
        simpa [FrameType.isWellFormed] using hWellFormed
      exact .other (Registry.tagOfRef_array hDepth).1 (.inl rfl)

end World

variable {plan : Array Nat} {tags : Nat → Tag} {first second : Nat}

-- Stacks

namespace World

/- The values of a stack with their tags, and what they have become. -/
inductive Stacked (world : World) (reg : Registry) :
    List Tag → List world.Val → List world.Val → Prop where
  | nil : Stacked world reg [] [] []
  | cons
      {tag : Tag} {tags : List Tag} {value mirror : world.Val}
      {values mirrors : List world.Val}
      (hTop : world.Represents reg tag value mirror)
      (hRest : Stacked world reg tags values mirrors) :
      Stacked world reg (tag :: tags) (value :: values) (mirror :: mirrors)

namespace Stacked

variable {world : World} {reg : Registry} {tags more : List Tag}
variable {values mirrors otherValues otherMirrors : List world.Val}

theorem length_eq (hStacked : world.Stacked reg tags values mirrors) :
    values.length = tags.length ∧ mirrors.length = tags.length := by
  induction hStacked with
  | nil => exact ⟨rfl, rfl⟩
  | cons _ _ ih => exact ⟨congrArg (· + 1) ih.1, congrArg (· + 1) ih.2⟩

theorem append (hFirst : world.Stacked reg tags values mirrors)
    (hSecond : world.Stacked reg more otherValues otherMirrors) :
    world.Stacked reg (tags ++ more) (values ++ otherValues)
      (mirrors ++ otherMirrors) := by
  induction hFirst with
  | nil => exact hSecond
  | cons hTop _ ih => exact .cons hTop ih

theorem split (hStacked : world.Stacked reg (tags ++ more) values mirrors) :
    ∃ topValues restValues topMirrors restMirrors,
      values = topValues ++ restValues ∧ mirrors = topMirrors ++ restMirrors ∧
        world.Stacked reg tags topValues topMirrors ∧
          world.Stacked reg more restValues restMirrors := by
  induction tags generalizing values mirrors with
  | nil => exact ⟨[], values, [], mirrors, rfl, rfl, .nil, hStacked⟩
  | cons tag tags ih =>
    cases hStacked with
    | cons hTop hRest =>
      rcases ih hRest with
        ⟨topValues, restValues, topMirrors, restMirrors, rfl, rfl, hTags, hMore⟩
      exact ⟨_ :: topValues, restValues, _ :: topMirrors, restMirrors, rfl, rfl,
        .cons hTop hTags, hMore⟩

theorem reverse (hStacked : world.Stacked reg tags values mirrors) :
    world.Stacked reg tags.reverse values.reverse mirrors.reverse := by
  induction hStacked with
  | nil => exact .nil
  | cons hTop _ ih =>
    simp only [List.reverse_cons]
    exact ih.append (.cons hTop .nil)

theorem drop (hStacked : world.Stacked reg tags values mirrors) (count : Nat) :
    world.Stacked reg (tags.drop count) (values.drop count)
      (mirrors.drop count) := by
  induction hStacked generalizing count with
  | nil =>
    simp only [List.drop_nil]
    exact .nil
  | cons hTop hRest ih =>
    cases count with
    | zero => exact .cons hTop hRest
    | succ count => exact ih count

theorem eq_of_primitive {operands : List world.Val}
    (hStacked : world.Stacked reg tags (operands ++ values) mirrors)
    (hKinds : ∀ operand ∈ operands, operand.kind ≠ .reference) :
    ∃ rest, mirrors = operands ++ rest ∧
      world.Stacked reg (tags.drop operands.length) values rest := by
  induction operands generalizing tags mirrors with
  | nil => exact ⟨mirrors, rfl, hStacked⟩
  | cons operand operands ih =>
    cases hStacked with
    | cons hTop hRest =>
      rcases ih hRest (fun other hOther =>
        hKinds other (List.mem_cons_of_mem _ hOther)) with ⟨rest, rfl, hMore⟩
      rw [hTop.eq_of_primitive (hKinds operand (List.mem_cons_self ..))]
      exact ⟨rest, rfl, hMore⟩

end Stacked

end World

-- Addresses

/- The values of slots with these tags do not share a cell. -/
def Laid (plan : Array Nat) (tags : Nat → Tag) : Prop :=
  ∀ first second, first < second → (tags first).isVoid = false → (tags second).isVoid = false →
      planned plan first + (tags first).dstWidth ≤ planned plan second

section

variable (hLaid : Laid plan tags)
variable (hDifferent : first ≠ second)
variable (hFirst : (tags first).isVoid = false)
variable (hSecond : (tags second).isVoid = false)
include hLaid hDifferent hFirst hSecond

theorem Laid.apart :
    planned plan first + (tags first).dstWidth ≤ planned plan second ∨
      planned plan second + (tags second).dstWidth ≤ planned plan first := by
  rcases Nat.lt_or_gt_of_ne hDifferent with hLt | hGt
  · exact .inl (hLaid first second hLt hFirst hSecond)
  · exact .inr (hLaid second first hGt hSecond hFirst)

theorem Laid.address_ne : planned plan first ≠ planned plan second := by
  have hPositive (tag : Tag) : 0 < tag.dstWidth :=
    Nat.lt_of_lt_of_le tag.srcWidth_pos tag.srcWidth_le_dstWidth
  have hFirstWidth := hPositive (tags first)
  have hSecondWidth := hPositive (tags second)
  rcases hLaid.apart hDifferent hFirst hSecond with hBefore | hAfter
  · omega
  · omega

end

/-
  If no cell is shared with either of two tags for each slot,
  none is with any choice between them.
-/
theorem Laid.of_either {first second either : Nat → Tag} (hFirst : Laid plan first)
    (hSecond : Laid plan second)
    (hVoid : ∀ slot, (first slot).isVoid = (second slot).isVoid)
    (hEither : ∀ slot, either slot = first slot ∨ either slot = second slot) :
    Laid plan either := by
  have hUsed (slot : Nat) (hSlot : (either slot).isVoid = false) :
      (first slot).isVoid = false ∧ (second slot).isVoid = false := by
    rcases hEither slot with hSame | hSame
    · rw [← hVoid, ← hSame]
      exact ⟨hSlot, hSlot⟩
    · rw [hVoid, ← hSame]
      exact ⟨hSlot, hSlot⟩
  intro left right hLt hLeft hRight
  rcases hEither left with hSame | hSame
  · rw [hSame]
    exact hFirst left right hLt (hUsed left hLeft).1 (hUsed right hRight).1
  · rw [hSame]
    exact hSecond left right hLt (hUsed left hLeft).2 (hUsed right hRight).2

namespace SlotMap.Placed

variable {plan : Array Nat} {map : SlotMap}
variable (hPlaced : Placed plan map)
include hPlaced

/- A slot is a second half exactly if the value before it takes two slots. -/
theorem isTail_iff (slot : Nat) :
    map.isTail (slot + 1) = true ↔ (map.tagAt slot).isSrcWide = true := by
  rw [isTail, beq_iff_eq, content?_eq, hPlaced.cells.paired.tail_iff, tagAt_eq]

theorem isTail_zero : map.isTail 0 = false := by
  rw [isTail, beq_eq_false_iff_ne, content?_eq]
  exact hPlaced.cells.paired.first

/- The second half of a value is not the start of another. -/
theorem add_srcWidth_le {first second : Nat} (hLt : first < second)
    (hSecond : (map.tagAt second).isVoid = false) :
    first + (map.tagAt first).srcWidth ≤ second := by
  by_cases hWide : (map.tagAt first).isSrcWide = true
  · rw [(Tag.srcWidth_eq_two _).mpr hWide]
    by_contra hTouching
    have hNext : second = first + 1 := by omega
    subst hNext
    have hTail := (hPlaced.isTail_iff first).mpr hWide
    rw [isTail, beq_iff_eq, content?_eq] at hTail
    rw [tagAt_eq, tagIn_of_content hTail] at hSecond
    cases hSecond
  · rw [Tag.srcWidth_eq_one hWide]
    omega

theorem laid : Laid plan map.tagAt := by
  intro first second hLt _ hSecond
  calc planned plan first + (map.tagAt first).dstWidth
    _ ≤ planned plan (first + (map.tagAt first).srcWidth) :=
        planned_add_dstWidth (hPlaced.cells.payload first)
    _ ≤ planned plan second :=
        planned_mono plan (hPlaced.add_srcWidth_le hLt hSecond)

end SlotMap.Placed

-- Locals

namespace World

/- The values of the slots in use are at the addresses of the slots. -/
def Shown (world : World) (reg : Registry) (plan : Array Nat) (live : Nat → Prop)
    (tags : Nat → Tag) (locals mirror : Locals world.Object) : Prop :=
  ∀ slot, live slot → ∃ value image, locals slot = some value ∧
      mirror (planned plan slot) = some image ∧
        world.Represents reg (tags slot) value image

namespace Shown

variable {world : World} {reg : Registry} {plan : Array Nat}
variable {live stillLive : Nat → Prop} {tags after : Nat → Tag}
variable {locals stored mirror : Locals world.Object}

/- A value at the address of its slot leaves the others where they are. -/
theorem store (hShown : world.Shown reg plan live tags locals mirror)
    (hLaid : Laid plan after) {slot : Nat} {value image : world.Val}
    (hOthers : ∀ other, other ≠ slot → stillLive other →
      live other ∧ after other = tags other ∧ stored other = locals other)
    (hValue : stored slot = some value)
    (hImage : world.Represents reg (after slot) value image) :
    world.Shown reg plan stillLive after stored
      (mirror.store (planned plan slot) image) := by
  intro other hOther
  by_cases hSame : other = slot
  · subst hSame
    exact ⟨value, image, hValue, Locals.store_self .., hImage⟩
  · rcases hOthers other hSame hOther with ⟨hLive, hTag, hStored⟩
    rcases hShown other hLive with ⟨old, oldImage, hOld, hOldImage, hRepresents⟩
    rw [← hTag] at hRepresents
    refine ⟨old, oldImage, hStored.trans hOld, ?_, hRepresents⟩
    apply Locals.store_of_apart hOldImage
    · exact hLaid.address_ne hSame hRepresents.not_void hImage.not_void
    · rw [hRepresents.width_shown, hImage.width_shown]
      exact hLaid.apart hSame hRepresents.not_void hImage.not_void

/- What keeps the cells before the scratch locals keeps all values. -/
theorem of_below {map : SlotMap} {changed : Locals world.Object}
    (hShown : world.Shown reg plan live map.tagAt locals mirror)
    (hPlaced : SlotMap.Placed plan map)
    (hBelow : ∀ cell image, mirror cell = some image →
      cell + width image ≤ map.dstSize → changed cell = some image) :
    world.Shown reg plan live map.tagAt locals changed := by
  intro slot hLive
  rcases hShown slot hLive with ⟨value, image, hValue, hImage, hRepresents⟩
  refine ⟨value, image, hValue, hBelow _ _ hImage ?_, hRepresents⟩
  rw [hRepresents.width_shown]
  exact hPlaced.address_le_dstSize hRepresents.not_void

end Shown

end World

end Unboxing
