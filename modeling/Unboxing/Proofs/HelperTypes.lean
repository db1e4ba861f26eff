import Unboxing.Proofs.RegularStates
import Unboxing.Registry.Resolution

/-
  The methods of a resolved mapping. The methods of each value
  class have the types of their roles, so calls of them take and
  leave known numbers of cells, and the tags of bound methods
  are definite.

  Main declarations:
    * `ValueClass.Typed`
    * `Registry.Typed`
    * `Registry.typed_ofMapping`
-/

namespace Unboxing

-- Results of checks

section Checks

variable {ε α β : Type} {result : β}

theorem exists_of_bind_ok {act : Except ε α} {next : α → Except ε β}
    (hOk : (act >>= next) = .ok result) :
    ∃ value, act = .ok value ∧ next value = .ok result := by
  cases act with
  | error fault => cases hOk
  | ok value => exact ⟨value, rfl, hOk⟩

/- A traversal has a result for each element, in order. -/
theorem forall₂_of_mapM {check : α → Except ε β} {items : List α} {results : List β}
    (hOk : items.mapM check = .ok results) :
    List.Forall₂ (fun item result => check item = .ok result) items results := by
  induction items generalizing results with
  | nil =>
    cases hOk
    exact .nil
  | cons item items ih =>
    rw [List.mapM_cons] at hOk
    rcases exists_of_bind_ok hOk with ⟨first, hFirst, hOk⟩
    rcases exists_of_bind_ok hOk with ⟨rest, hRest, hOk⟩
    cases hOk
    exact .cons hFirst (ih hRest)

theorem exists_of_mem_mapM {check : α → Except ε β} {items : List α} {results : List β}
    (hOk : items.mapM check = .ok results) (hResult : result ∈ results) :
    ∃ item ∈ items, check item = .ok result := by
  have hAll := forall₂_of_mapM hOk
  clear hOk
  induction hAll with
  | nil => cases hResult
  | cons hFirst _ ih =>
    rcases List.mem_cons.mp hResult with rfl | hLater
    · exact ⟨_, List.mem_cons_self, hFirst⟩
    · rcases ih hLater with ⟨item, hItem, hCheck⟩
      exact ⟨item, List.mem_cons_of_mem _ hItem, hCheck⟩

end Checks

-- The methods of value classes

namespace ValueClass

variable {name : ClassName} {helper : String} {want : MethodType}
variable {info : ValueClass}

/- Each method of a value class has the type of its role. -/
structure Typed (info : ValueClass) : Prop where
  box : info.box.type = methodType [.base .long] (.object info.name)
  unbox : info.unbox.type = methodType [.object info.name] (.base .long)
  arrayBox : ∀ method, info.arrayBox = some method →
    method.type = methodType [.ref (FieldType.base .long).arrayType]
      (.ref (FieldType.object info.name).arrayType)
  arrayUnbox : ∀ method, info.arrayUnbox = some method →
    method.type = methodType [.ref (FieldType.object info.name).arrayType]
      (.ref (FieldType.base .long).arrayType)
  isNull : info.isNull.type = methodType [.base .long] (.base .boolean)
  identityEquals : info.identityEquals.type = methodType [.base .long, .base .long] (.base .boolean)

theorem type_of_resolveHelper {text : String} {method : MethodRef}
    (hOk : resolveHelper name helper text want = .ok method) :
    method.type = want := by
  unfold resolveHelper at hOk
  rcases exists_of_bind_ok hOk with ⟨found, _, hOk⟩
  split at hOk
  · rename_i hType
    cases hOk
    exact hType
  · cases hOk

theorem type_of_optional {text : Option String} {found : Option MethodRef}
    (hOk : text.mapM (fun text => resolveHelper name helper text want) = .ok found)
    (method : MethodRef) (hMethod : found = some method) :
    method.type = want := by
  subst hMethod
  cases text with
  | none => cases hOk
  | some text =>
    rcases exists_of_bind_ok hOk with ⟨resolved, hResolved, hOk⟩
    cases hOk
    exact type_of_resolveHelper hResolved

theorem resolve_ok {entry : ValueClassEntry} (hOk : resolve name entry = .ok info) :
    info.name = name ∧ info.Typed := by
  unfold resolve at hOk
  rcases exists_of_bind_ok hOk with ⟨box, hBox, hOk⟩
  rcases exists_of_bind_ok hOk with ⟨unbox, hUnbox, hOk⟩
  rcases exists_of_bind_ok hOk with ⟨arrayBox, hArrayBox, hOk⟩
  rcases exists_of_bind_ok hOk with ⟨arrayUnbox, hArrayUnbox, hOk⟩
  rcases exists_of_bind_ok hOk with ⟨isNull, hIsNull, hOk⟩
  rcases exists_of_bind_ok hOk with ⟨identityEquals, hIdentityEquals, hOk⟩
  cases hOk
  exact ⟨rfl,
    { box := type_of_resolveHelper hBox
      unbox := type_of_resolveHelper hUnbox
      arrayBox := type_of_optional hArrayBox
      arrayUnbox := type_of_optional hArrayUnbox
      isNull := type_of_resolveHelper hIsNull
      identityEquals := type_of_resolveHelper hIdentityEquals }⟩

theorem typed_resolveAll {entries : List ValueClassEntry} {classes : List ValueClass}
    (hOk : resolveAll entries = .ok classes) (hInfo : info ∈ classes) :
    info.Typed := by
  unfold resolveAll at hOk
  rcases exists_of_bind_ok hOk with ⟨names, _, hOk⟩
  rcases exists_of_mem_mapM hOk hInfo with ⟨⟨name, entry⟩, _, hResolve⟩
  exact (resolve_ok hResolve).2

namespace Typed

variable {info : ValueClass} {method : MethodRef} {tag : Tag}

/- A call with the type of a role takes and leaves its cells. -/
theorem cells_of_type {parameters : List FieldType} {result : FieldType}
    (hType : method.type = methodType parameters result) :
    (Instruction.invoke .static method).taken = total (parameters.map FieldType.width) ∧
      (Instruction.invoke .static method).left = result.width := by
  simp [Instruction.taken, Instruction.left, hType, methodType, MethodType.parameterCells,
    InvokeKind.hasReceiver]

/- Boxing takes what the payload, or the array of payloads, takes. -/
theorem cells_boxMethod (hTyped : info.Typed) (hPayload : tag.hasPayloadKind = true)
    (hMethod : info.boxMethod tag.depth = .ok method) :
    (Instruction.invoke .static method).taken = tag.dstWidth ∧
      (Instruction.invoke .static method).left = 1 := by
  rcases tag with ⟨kind, depth⟩
  cases kind <;> cases hPayload
  match depth with
  | 0 =>
    cases hMethod
    exact cells_of_type hTyped.box
  | 1 =>
    cases hFound : info.arrayBox with
    | none => simp [boxMethod, hFound] at hMethod
    | some found =>
      simp only [boxMethod, hFound, Except.ok.injEq] at hMethod
      subst hMethod
      exact cells_of_type (hTyped.arrayBox found hFound)
  | depth + 2 => cases hMethod

/- Unboxing leaves what the payload, or the array of payloads, takes. -/
theorem cells_unboxMethod (hTyped : info.Typed) (hPayload : tag.hasPayloadKind = true)
    (hMethod : info.unboxMethod tag.depth = .ok method) :
    (Instruction.invoke .static method).taken = 1 ∧
      (Instruction.invoke .static method).left = tag.dstWidth := by
  rcases tag with ⟨kind, depth⟩
  cases kind <;> cases hPayload
  match depth with
  | 0 =>
    cases hMethod
    exact cells_of_type hTyped.unbox
  | 1 =>
    cases hFound : info.arrayUnbox with
    | none => simp [unboxMethod, hFound] at hMethod
    | some found =>
      simp only [unboxMethod, hFound, Except.ok.injEq] at hMethod
      subst hMethod
      exact cells_of_type (hTyped.arrayUnbox found hFound)
  | depth + 2 => cases hMethod

theorem cells_isNull (hTyped : info.Typed) :
    (Instruction.invoke .static info.isNull).taken = 2 ∧
      (Instruction.invoke .static info.isNull).left = 1 :=
  cells_of_type hTyped.isNull

theorem cells_identityEquals (hTyped : info.Typed) :
    (Instruction.invoke .static info.identityEquals).taken = 4 ∧
      (Instruction.invoke .static info.identityEquals).left = 1 :=
  cells_of_type hTyped.identityEquals

end Typed

end ValueClass

-- Registries

/- The types of what a bound method takes, the receiver first. -/
def MethodBinding.sources (binding : MethodBinding) : List FieldType :=
  (if binding.hasReceiver then [.object binding.source.owner] else []) ++
    binding.source.type.parameters

/- The entries of a mapping for bindings that are generic, or that are not. -/
def Mapping.bindingEntries (mapping : Mapping) (generic : Bool) : List BindingEntry :=
  if generic then mapping.genericMethods else mapping.valueClasses.flatMap (·.methods)

namespace Registry

variable {reg : Registry} {generic : Bool} {binding : MethodBinding}

/-
  The value classes of a registry are typed, and the tags of its
  bound methods are definite.
-/
structure Typed (reg : Registry) : Prop where
  classes : ∀ info ∈ reg.classes, info.Typed
  arguments : ∀ binding ∈ reg.bindings, ∀ tag ∈ binding.arguments, tag.Definite
  results : ∀ binding ∈ reg.bindings, ∀ tag, binding.result = some tag → tag.Definite

theorem Typed.class? (hTyped : reg.Typed) {cls : ClassIndex} {info : ValueClass}
    (hClass : reg.class? cls = some info) :
    info.Typed := by
  cases cls with
  | declared index => exact hTyped.classes info (List.mem_of_getElem? hClass)
  | wildcard => cases hClass

/- What an implementation takes or returns is definite. -/
theorem definite_slotTag? {source target : FieldType} {tag : Tag}
    (hTag : reg.slotTag? generic source target = some tag) :
    tag.Definite := by
  unfold slotTag? at hTag
  simp only at hTag
  split at hTag
  case h_1 =>
    split at hTag <;> cases hTag
    exact nofun
  case h_2 =>
    split at hTag
    · cases hTag
      exact nofun
    · split at hTag <;> cases hTag
      exact (reg.concrete_tagOf target).definite
  case h_3 cls hClass _ =>
    split at hTag
    · cases hTag
      rcases Option.bind_eq_some_iff.mp hClass with ⟨name, _, hIndex⟩
      rcases class?_of_index? hIndex with ⟨info, hInfo, _⟩
      intro hKind
      injection hKind with hOpen
      subst hOpen
      cases hInfo
    · split at hTag <;> cases hTag
      exact (reg.concrete_tagOf target).definite
  case h_4 =>
    split at hTag <;> cases hTag
    exact (reg.concrete_tagOf target).definite

-- Bindings of a mapping

/- What is known about a binding that lines up two methods. -/
theorem bind_ok {source target : MethodRef}
    (hOk : reg.bind generic source target = .ok binding) :
    binding.source = source ∧ binding.target = target ∧
      receiverOf source.type.parameters.length target.type.parameters.length =
        .ok binding.hasReceiver ∧
      reg.argumentTags generic (binding.sources.zip target.type.parameters) =
        .ok binding.arguments ∧
      reg.resultTag generic source.type.result target.type.result = .ok binding.result := by
  unfold Registry.bind at hOk
  rcases exists_of_bind_ok hOk with ⟨hasReceiver, hReceiver, hOk⟩
  rcases exists_of_bind_ok hOk with ⟨arguments, hArguments, hOk⟩
  rcases exists_of_bind_ok hOk with ⟨result, hResult, hOk⟩
  cases hOk
  exact ⟨rfl, rfl, hReceiver, hArguments, hResult⟩

/- Each binding lines up the two methods of an entry. -/
theorem binding_ofMapping {mapping : Mapping} (hOk : ofMapping mapping = .ok reg)
    (hBinding : binding ∈ reg.bindings) :
    ∃ generic, ∃ entry ∈ mapping.bindingEntries generic,
      MethodRef.parse entry.source = .ok binding.source ∧
        MethodRef.parse entry.target = .ok binding.target ∧
          reg.bind generic binding.source binding.target = .ok binding := by
  unfold ofMapping at hOk
  split at hOk
  · cases hOk
  rcases exists_of_bind_ok hOk with ⟨classes, _, hOk⟩
  rcases exists_of_bind_ok hOk with ⟨specific, hSpecific, hOk⟩
  rcases exists_of_bind_ok hOk with ⟨general, hGeneral, hOk⟩
  cases hOk
  have hResolved : ∃ generic, ∃ entry ∈ mapping.bindingEntries generic,
      resolveBinding ⟨classes, [], mapping.scope⟩ generic entry = .ok binding := by
    rcases List.mem_append.mp (List.mem_reverse.mp hBinding) with hFirst | hSecond
    · exact ⟨false, exists_of_mem_mapM hSpecific hFirst⟩
    · exact ⟨true, exists_of_mem_mapM hGeneral hSecond⟩
  rcases hResolved with ⟨generic, entry, hEntry, hResolve⟩
  unfold resolveBinding at hResolve
  rcases exists_of_bind_ok hResolve with ⟨source, hSource, hResolve⟩
  rcases exists_of_bind_ok hResolve with ⟨target, hTarget, hResolve⟩
  split at hResolve
  · rename_i hBind
    cases hResolve
    rcases bind_ok hBind with ⟨rfl, rfl, _⟩
    exact ⟨generic, entry, hEntry, hSource, hTarget, hBind⟩
  · cases hResolve

/- The tags of a bound method are definite. -/
theorem definite_bind {source target : MethodRef}
    (hOk : reg.bind generic source target = .ok binding) :
    (∀ tag ∈ binding.arguments, tag.Definite) ∧
      ∀ tag, binding.result = some tag → tag.Definite := by
  rcases bind_ok hOk with ⟨_, _, _, hArguments, hResult⟩
  constructor
  · intro tag hTag
    rcases exists_of_mem_mapM hArguments hTag with ⟨⟨first, second⟩, _, hSlot⟩
    simp only at hSlot
    split at hSlot
    · rename_i hFound
      cases hSlot
      exact definite_slotTag? hFound
    · cases hSlot
  · intro tag hTag
    rw [hTag] at hResult
    unfold resultTag at hResult
    split at hResult
    · cases hResult
    · split at hResult
      · rename_i hFound
        cases hResult
        exact definite_slotTag? hFound
      · cases hResult
    · cases hResult

/- A mapping that is resolved gives a typed registry. -/
theorem typed_ofMapping {mapping : Mapping} (hOk : ofMapping mapping = .ok reg) :
    reg.Typed := by
  have hDefinite {binding : MethodBinding} (hBinding : binding ∈ reg.bindings) :=
    have ⟨_, _, _, _, _, hBind⟩ := binding_ofMapping hOk hBinding
    definite_bind hBind
  refine ⟨?_, fun binding hBinding => (hDefinite hBinding).1,
    fun binding hBinding => (hDefinite hBinding).2⟩
  unfold ofMapping at hOk
  split at hOk
  · cases hOk
  rcases exists_of_bind_ok hOk with ⟨classes, hClasses, hOk⟩
  rcases exists_of_bind_ok hOk with ⟨specific, _, hOk⟩
  rcases exists_of_bind_ok hOk with ⟨generic, _, hOk⟩
  cases hOk
  exact fun info hInfo => ValueClass.typed_resolveAll hClasses hInfo

end Registry

end Unboxing
