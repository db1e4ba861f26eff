import Unboxing.Proofs.SlotPlacement
import Unboxing.Proofs.StackAccounting

/-
  Tags of known classes. The wildcard stands for a class that is
  still open, and only bindings have it. What is made of tags
  without it, and of types, is without it again, on stacks and
  in locals.

  Main declarations:
    * `Tag.Concrete`
    * `Tag.Tame`
    * `MethodBinding.Inferable`
    * `OperandStack.Orderly`
    * `OperandStack.Upholds`
    * `SlotMap.All`
-/

namespace Unboxing

open List

variable {binding : MethodBinding}

namespace Tag

variable {tag : Tag}

-- Concrete tags

/- The value class of a tag, if it has one, is a known one. -/
def Concrete (tag : Tag) : Prop :=
  tag.class? ≠ some .wildcard

instance (tag : Tag) : Decidable tag.Concrete :=
  inferInstanceAs (Decidable (tag.class? ≠ some .wildcard))

theorem concrete_iff_isWildcard (tag : Tag) :
    tag.Concrete ↔ tag.isWildcard = false := by
  simp [Concrete, isWildcard]

theorem concrete_void : void.Concrete := by
  decide

theorem concrete_ofKind (kind : ValueKind) : (ofKind kind).Concrete := by
  cases kind <;> decide

section

variable (hTag : tag.Concrete)
include hTag

theorem Concrete.arrayOf (extra : Nat) : (tag.arrayOf extra).Concrete :=
  hTag

theorem Concrete.elementOf : tag.elementOf.Concrete := by
  unfold Tag.elementOf
  split
  · exact hTag
  · decide

theorem Concrete.payloadOf : tag.payloadOf.Concrete := by
  rcases tag with ⟨kind, depth⟩
  cases kind <;> exact hTag

theorem Concrete.referenceOf : tag.referenceOf.Concrete := by
  rcases tag with ⟨kind, depth⟩
  cases kind <;> exact hTag

end

theorem Concrete.merge {current declared : Tag} (hCurrent : current.Concrete)
    (hDeclared : declared.Concrete) (payloadFits : Bool) :
    (current.merge declared payloadFits).Concrete := by
  rcases current.merge_cases declared payloadFits with hTag | hTag | ⟨hTag, _⟩ | hTag
  all_goals rw [hTag]
  · exact concrete_void
  · exact hDeclared
  · exact hDeclared.payloadOf
  · exact hCurrent

theorem Concrete.substitute_eq (hTag : tag.Concrete) (cls : ClassIndex) :
    tag.substitute cls = tag := by
  unfold Tag.substitute
  split
  · rename_i hKind
    exact absurd (by rw [class?, hKind]) hTag
  · rename_i hKind
    exact absurd (by rw [class?, hKind]) hTag
  · rfl

/- With a known class in the place of the wildcard, a tag is concrete. -/
theorem concrete_substitute (tag : Tag) {cls : ClassIndex} (hClass : cls ≠ .wildcard) :
    (tag.substitute cls).Concrete := by
  by_cases hTag : tag.Concrete
  · rw [hTag.substitute_eq]
    exact hTag
  · rcases tag with ⟨kind, depth⟩
    cases kind with
    | payload other | reference other =>
      simp only [Concrete, class?, ne_eq, Option.some.injEq, Decidable.not_not] at hTag
      subst hTag
      simpa [Concrete, class?, Tag.substitute] using hClass
    | _ => exact absurd nofun hTag

/- A tag is concrete, unless open classes are at large. -/
def Tame (wild : Prop) (tag : Tag) : Prop :=
  wild ∨ tag.Concrete

theorem Concrete.tame (hTag : tag.Concrete) {wild : Prop} :
    tag.Tame wild :=
  .inr hTag

theorem tame_void {wild : Prop} : void.Tame wild :=
  concrete_void.tame

end Tag

theorem Constant.concrete_tag (value : Constant) : value.tag.Concrete := by
  cases value <;> exact nofun

namespace Simulation

variable {found : Tag}

theorem concrete_substituted (found : Tag) {want : Tag}
    (hWant : want.Concrete) :
    (substituted found want).Concrete := by
  unfold substituted
  split
  · rw [hWant.substitute_eq]
    exact hWant
  · exact hWant

/- One of two known classes is known. -/
theorem concrete_payload_or {left right : Tag} (hLeft : left.Concrete)
    (hRight : right.Concrete) :
    (Tag.payload ((left.class?.or right.class?).getD .first)).Concrete := by
  intro hOpen
  injection hOpen with hOpen
  cases hClass : left.class? with
  | some cls =>
    rw [hClass] at hOpen
    exact hLeft (hClass.trans (congrArg some hOpen))
  | none =>
    rw [hClass] at hOpen
    cases hOther : right.class? with
    | some cls =>
      rw [hOther] at hOpen
      exact hRight (hOther.trans (congrArg some hOpen))
    | none =>
      rw [hOther] at hOpen
      cases hOpen

theorem concrete_boxedFor {consumer : Tag} (hFound : found.Concrete)
    (hConsumer : consumer.Concrete) :
    (boxedFor found consumer).Concrete := by
  unfold boxedFor
  split
  · exact hFound
  split
  · exact hConsumer
  · exact hFound.referenceOf

theorem concrete_storedAs (hFound : found.Concrete) (room : Nat) :
    (storedAs found room).Concrete := by
  unfold storedAs
  split
  · exact hFound.payloadOf
  split
  · exact hFound.referenceOf
  · exact hFound

end Simulation

-- What a call says about an open class

/- A known class is found where an open one is expected. -/
def Offered (want found : List Tag) (cls : ClassIndex) : Prop :=
  cls ≠ .wildcard ∧ ∃ pair ∈ want.zip found, ¬ pair.1.Concrete ∧ pair.2.class? = some cls

/- Just one class is found. -/
def OneOffered (want found : List Tag) (cls : ClassIndex) : Prop :=
  ∀ other, Offered want found other ↔ other = cls

theorem mem_wildcardClasses {want found : List Tag} {cls : ClassIndex} :
    cls ∈ wildcardClasses want found ↔ Offered want found cls := by
  simp only [wildcardClasses, mem_eraseDups, mem_filterMap, Offered,
    Tag.concrete_iff_isWildcard, Bool.not_eq_false]
  constructor
  · rintro ⟨pair, hPair, hClass⟩
    split at hClass
    · rename_i hOpen
      simp only [Bool.and_eq_true, Bool.not_eq_true'] at hOpen
      refine ⟨?_, pair, hPair, hOpen.1, hClass⟩
      rintro rfl
      simp [Tag.isWildcard, hClass] at hOpen
    · cases hClass
  · rintro ⟨hKnown, pair, hPair, hOpen, hClass⟩
    have hFound : pair.2.isWildcard = false := by simp [Tag.isWildcard, hClass, hKnown]
    exact ⟨pair, hPair, by simp [hOpen, hFound, hClass]⟩

theorem wildcardClasses_eq_singleton {want found : List Tag} {cls : ClassIndex} :
    wildcardClasses want found = [cls] ↔ OneOffered want found cls := by
  refine ⟨fun hOne other => ?_, fun hOne => ?_⟩
  · rw [← mem_wildcardClasses, hOne, mem_singleton]
  · simp only [OneOffered, ← mem_wildcardClasses, wildcardClasses, mem_eraseDups] at hOne ⊢
    revert hOne
    generalize List.filterMap _ (want.zip found) = classes
    intro hOne
    cases classes with
    | nil => cases (hOne cls).mpr rfl
    | cons first others =>
      rw [eraseDups_cons, (hOne first).mp mem_cons_self]
      have hNone : others.filter (fun other => !other == cls) = [] := by
        rw [filter_eq_nil_iff]
        intro other hOther
        simp [(hOne other).mp (mem_cons_of_mem _ hOther)]
      rw [hNone]
      rfl

/-
  The class of a call is the one that is found where it is open.
  If none is found there, or more than one, that is a conflict.
-/
theorem inferClass_cases (want found : List Tag)
    (hLength : want.length = found.length) :
    (inferClass want found = .closed ∧ ∀ tag ∈ want, tag.Concrete) ∨
      (∃ tag ∈ want, ¬ tag.Concrete) ∧ ((∃ cls, inferClass want found = .resolved cls ∧
            OneOffered want found cls) ∨
          ∃ classes, inferClass want found = .conflict classes ∧
            ∀ cls, ¬ OneOffered want found cls) := by
  unfold inferClass
  split
  · rename_i hSome
    rcases any_eq_true.mp hSome with ⟨pair, hPair, hOpen⟩
    refine .inr ⟨⟨pair.1, (of_mem_zip hPair).1, ?_⟩, ?_⟩
    · simp [Tag.concrete_iff_isWildcard, hOpen]
    split
    · rename_i cls hClasses
      exact .inl ⟨cls, rfl, wildcardClasses_eq_singleton.mp hClasses⟩
    · rename_i hOthers
      exact .inr ⟨_, rfl, fun cls hOne =>
        hOthers cls (wildcardClasses_eq_singleton.mpr hOne)⟩
  · rename_i hNone
    refine .inl ⟨rfl, ?_⟩
    intro tag hTag
    -- With as many found, every tag is in a pair.
    have hFirsts : (want.zip found).map Prod.fst = want :=
      map_fst_zip (by omega)
    rw [← hFirsts] at hTag
    rcases mem_map.mp hTag with ⟨pair, hPair, rfl⟩
    rw [Tag.concrete_iff_isWildcard]
    rw [Bool.eq_false_iff]
    exact fun hOpen => hNone (any_eq_true.mpr ⟨pair, hPair, hOpen⟩)

-- Bindings

/- An open class in the result of a binding is open in an argument too. -/
def MethodBinding.Inferable (binding : MethodBinding) : Prop :=
  (∀ tag ∈ binding.result, tag.Concrete) ∨ ∃ tag ∈ binding.arguments, ¬ tag.Concrete

instance (binding : MethodBinding) : Decidable binding.Inferable :=
  inferInstanceAs (Decidable (_ ∨ _))

/- The classes of all calls can be found out, with the bindings that are used. -/
def Registry.Inferable (reg : Registry) : Prop :=
  ∀ binding ∈ reg.bindings, reg.binding? binding.source = some binding → binding.Inferable

instance (reg : Registry) : Decidable reg.Inferable :=
  inferInstanceAs (Decidable (∀ binding ∈ reg.bindings, _ → binding.Inferable))

theorem Registry.Inferable.binding? {reg : Registry}
    (hInferable : reg.Inferable) {method : MethodRef}
    (hBinding : reg.binding? method = some binding) :
    binding.Inferable := by
  have hSame := find?_some hBinding
  have hSource : binding.source = method := beq_iff_eq.mp hSame
  exact hInferable binding (mem_of_find?_eq_some hBinding) (hSource ▸ hBinding)

/-
  A binding as a call uses it: with one known class for the open
  one, if there is one among the arguments. A result of an open
  class stays so if no argument tells the class.
-/
structure MethodBinding.Resolution (binding resolved : MethodBinding) : Prop where
  class_ : resolved = binding ∨ ∃ index, resolved = binding.substitute (.declared index)
  arguments : ∀ tag ∈ resolved.arguments, tag.Concrete
  result : (∀ tag ∈ resolved.result, tag.Concrete) ↔ binding.Inferable

theorem MethodBinding.resolution_self
    (hArguments : ∀ tag ∈ binding.arguments, tag.Concrete) :
    binding.Resolution binding where
  class_ := .inl rfl
  arguments := hArguments
  result := by
    refine ⟨.inl, ?_⟩
    rintro (hResult | ⟨tag, hTag, hOpen⟩)
    · exact hResult
    · exact absurd (hArguments tag hTag) hOpen

theorem MethodBinding.resolution_substitute
    (hOpen : ∃ tag ∈ binding.arguments, ¬ tag.Concrete) {cls : ClassIndex}
    (hClass : cls ≠ .wildcard) :
    binding.Resolution (binding.substitute cls) where
  class_ := by
    cases cls with
    | declared index => exact .inr ⟨index, rfl⟩
    | wildcard => exact absurd rfl hClass
  arguments := forall_mem_map.mpr fun argument _ => argument.concrete_substitute hClass
  result := by
    refine ⟨fun _ => .inr hOpen, fun _ tag hTag => ?_⟩
    rcases Option.map_eq_some_iff.mp hTag with ⟨result, _, rfl⟩
    exact result.concrete_substitute hClass

-- Tags of types

namespace Registry

variable (reg : Registry)

theorem concrete_tagOfClass (name : ClassName) :
    (reg.tagOfClass name).Concrete := by
  unfold tagOfClass index?
  split
  · rename_i cls hIndex
    rcases Option.bind_eq_some_iff.mp hIndex with ⟨place, _, hPlace⟩
    unfold ClassIndex.ofNat? at hPlace
    split at hPlace
    · cases hPlace
      exact nofun
    · cases hPlace
  · decide

theorem concrete_tagOfBase (type : BaseType) : (tagOfBase type).Concrete := by
  cases type <;> decide

theorem concrete_tagOfRef (type : RefType) : (reg.tagOfRef type).Concrete := by
  cases type with
  | object name => exact reg.concrete_tagOfClass name
  | array more element =>
    cases element with
    | base type => exact concrete_tagOfBase type
    | object name => exact reg.concrete_tagOfClass name

theorem concrete_tagOf (type : FieldType) : (reg.tagOf type).Concrete := by
  cases type with
  | base type => exact concrete_tagOfBase type
  | ref type => exact reg.concrete_tagOfRef type

theorem concrete_tagOfFrame (type : FrameType) :
    (reg.tagOfFrame type).Concrete := by
  cases type with
  | object type => exact reg.concrete_tagOfRef type
  | _ => exact nofun

end Registry

/- A property that tags keep when they are narrowed to frames. -/
structure Tag.Lasting (good : Tag → Prop) : Prop where
  void : good .void
  merge : ∀ current declared fits, good current → good declared → good (current.merge declared fits)
  declared : ∀ (reg : Registry) type, good (reg.tagOfFrame type)

theorem Tag.lasting_tame {wild : Prop} : Lasting (Tame wild) where
  void := tame_void
  merge _ _ fits hCurrent hDeclared :=
    hCurrent.elim .inl fun hCurrent => hDeclared.imp_right fun hDeclared =>
      hCurrent.merge hDeclared fits
  declared reg type := (reg.concrete_tagOfFrame type).tame

-- Stacks

namespace OperandStack

theorem entries_pop (stack : OperandStack) :
    stack.pop.2.entries = stack.entries.tail := by
  unfold pop popEntry
  cases hEntries : stack.entries with
  | nil => simp [report, hEntries]
  | cons entry entries => simp

/- The stack without its top entries. -/
def popped : Nat → OperandStack → OperandStack
  | 0, stack => stack
  | count + 1, stack => popped count stack.pop.2

theorem entries_popped (count : Nat) (stack : OperandStack) :
    (stack.popped count).entries = stack.entries.drop count := by
  induction count generalizing stack with
  | zero => rfl
  | succ count ih => rw [popped, ih, entries_pop, drop_tail]

def topTags (stack : OperandStack) (count : Nat) : List Tag :=
  ((stack.entries.take count).map Entry.tag).reverse

theorem entries_popIf (stack : OperandStack) (want : String) (accepts : Tag → Bool) :
    (stack.popIf want accepts).2.entries = stack.entries.tail := by
  rw [← entries_pop]
  unfold popIf
  simp only
  split <;> rfl

theorem tagAt_eq (stack : OperandStack) (depth : Nat) :
    stack.tagAt depth = (stack.entries[depth]?.map Entry.tag).getD .void :=
  rfl

def All (good : Tag → Prop) (stack : OperandStack) : Prop :=
  ∀ entry ∈ stack.entries, good entry.tag

theorem entries_requireNarrowAt (stack : OperandStack) (depth : Nat) :
    (stack.requireNarrowAt depth).entries = stack.entries := by
  unfold requireNarrowAt
  simp only
  split <;> rfl

namespace All

variable {good : Tag → Prop} {stack : OperandStack} {tag : Tag}

theorem tagAt (hStack : stack.All good) (hVoid : good .void) (depth : Nat) :
    good (stack.tagAt depth) := by
  rw [tagAt_eq]
  cases hEntry : stack.entries[depth]? with
  | none => exact hVoid
  | some entry => exact hStack entry (mem_of_getElem? hEntry)

theorem clear (stack : OperandStack) : stack.clear.All good :=
  nofun

section

variable (hStack : stack.All good)
include hStack

theorem push (name : Option String) (hTag : good tag) :
    (stack.push tag name).All good :=
  forall_mem_cons.mpr ⟨hTag, hStack⟩

theorem popEntry : stack.popEntry.2.All good := by
  intro entry hEntry
  rw [← pop_snd, entries_pop] at hEntry
  exact hStack entry (mem_of_mem_tail hEntry)

theorem entry {entry : Entry} (hEntry : stack.popEntry.1 = some entry) :
    good entry.tag := by
  apply hStack
  unfold OperandStack.popEntry at hEntry
  split at hEntry
  · cases hEntry
  · rename_i top entries hEntries
    cases hEntry
    rw [hEntries]
    exact mem_cons_self ..

theorem popIf (want : String) (accepts : Tag → Bool) :
    (stack.popIf want accepts).2.All good := by
  intro entry hEntry
  rw [entries_popIf] at hEntry
  exact hStack entry (mem_of_mem_tail hEntry)

theorem retag (depth : Nat) (hTag : good tag) :
    (stack.retag depth tag).All good := by
  intro entry hEntry
  unfold OperandStack.retag at hEntry
  split at hEntry
  · exact hStack entry hEntry
  · rcases mem_or_eq_of_mem_set hEntry with hOld | rfl
    · exact hStack entry hOld
    · exact hTag

theorem forgetNameAt (depth : Nat) : (stack.forgetNameAt depth).All good := by
  intro entry hEntry
  have hTag : entry.tag ∈ (stack.forgetNameAt depth).entries.map Entry.tag :=
    mem_map_of_mem hEntry
  rw [map_tag_forgetNameAt] at hTag
  rcases mem_map.mp hTag with ⟨old, hOld, hSame⟩
  rw [← hSame]
  exact hStack old hOld

theorem retagNamed (name : String) (hTag : good tag) :
    (stack.retagNamed name tag).All good := by
  unfold OperandStack.retagNamed
  generalize stack.depthsNamed name = depths
  induction depths generalizing stack with
  | nil => exact hStack
  | cons depth depths ih => exact ih ((hStack.retag depth hTag).forgetNameAt depth)

theorem require (required : Nat) : (stack.require required).2.All good := by
  unfold OperandStack.require
  split <;> exact hStack

theorem dupShape (copied skipped : Nat) :
    (stack.dupShape copied skipped).2.All good := by
  unfold OperandStack.dupShape
  split
  · exact hStack
  · split <;> exact hStack

theorem dupAt (count depth : Nat) : (stack.dupAt count depth).All good := by
  intro entry hEntry
  apply hStack
  unfold OperandStack.dupAt at hEntry
  by_cases hShort : stack.size < count + depth
  · simp only [OperandStack.require, if_pos hShort] at hEntry
    exact hEntry
  · simp only [OperandStack.require, if_neg hShort] at hEntry
    rcases mem_append.mp hEntry with hFirst | hRest
    · rcases mem_append.mp hFirst with hTop | hCopy
      · exact mem_of_mem_take hTop
      · exact mem_of_mem_take hCopy
    · exact mem_of_mem_drop hRest

theorem swap : stack.swap.All good := by
  intro entry hEntry
  apply hStack
  unfold OperandStack.swap at hEntry
  by_cases hShort : stack.size < 2
  · simp only [OperandStack.require, if_pos hShort] at hEntry
    exact hEntry
  · simp only [OperandStack.require, if_neg hShort] at hEntry
    split at hEntry
    · rename_i top under entries hEntries
      -- Issues with widths are noted and leave the entries.
      rw [entries_requireNarrowAt, entries_requireNarrowAt] at hEntries
      rw [hEntries]
      simp only [mem_cons] at hEntry ⊢
      exact or_left_comm.mp hEntry
    · rwa [entries_requireNarrowAt, entries_requireNarrowAt] at hEntry

end

end All

-- Orderly stacks

/- A stack that is counted, if that matters, with good tags only. -/
structure Orderly (counts : Prop) (good : Tag → Prop) (stack : OperandStack) : Prop where
  counted : counts → stack.Counted
  tags : stack.All good

/- One stack follows another: as orderly as before, with no smaller peak. -/
structure Upholds (counts : Prop) (good : Tag → Prop) (before after : OperandStack) : Prop where
  orderly : before.Orderly counts good → after.Orderly counts good
  peak : before.peak ≤ after.peak

section

variable {counts : Prop} {good : Tag → Prop} {tag : Tag}

theorem Upholds.refl (stack : OperandStack) : Upholds counts good stack stack :=
  ⟨id, Nat.le_refl _⟩

theorem Upholds.trans {first second third : OperandStack}
    (hFirst : Upholds counts good first second) (hSecond : Upholds counts good second third) :
    Upholds counts good first third :=
  ⟨hSecond.orderly ∘ hFirst.orderly, Nat.le_trans hFirst.peak hSecond.peak⟩

/- The counters are accounted for, and the tags stay good. -/
theorem Accounts.upholds {before after : OperandStack} (hAccounts : Accounts before after)
    (hTags : before.All good → after.All good) :
    Upholds counts good before after where
  orderly hBefore :=
    ⟨fun hCounts => hAccounts.counted (hBefore.counted hCounts), hTags hBefore.tags⟩
  peak := hAccounts.peak

variable (stack : OperandStack)

theorem upholds_reserve (cells : Nat) : Upholds counts good stack (stack.reserve cells) :=
  (accounts_reserve stack cells).upholds id

theorem upholds_clear : Upholds counts good stack stack.clear :=
  (accounts_clear stack).upholds fun _ => All.clear stack

theorem upholds_push (name : Option String) (hTag : good tag) :
    Upholds counts good stack (stack.push tag name) :=
  (accounts_push stack tag name).upholds fun hStack => hStack.push name hTag

theorem upholds_popEntry : Upholds counts good stack stack.popEntry.2 :=
  (accounts_popEntry stack).upholds All.popEntry

theorem upholds_pop : Upholds counts good stack stack.pop.2 := by
  rw [pop_snd]
  exact upholds_popEntry stack

theorem upholds_popIf (want : String) (accepts : Tag → Bool) :
    Upholds counts good stack (stack.popIf want accepts).2 :=
  (accounts_popIf stack want accepts).upholds fun hStack =>
    hStack.popIf want accepts

theorem upholds_retag (depth : Nat) (hTag : good tag) :
    Upholds counts good stack (stack.retag depth tag) :=
  (accounts_retag stack depth tag).upholds fun hStack => hStack.retag depth hTag

theorem upholds_retagNamed (name : String) (hTag : good tag) :
    Upholds counts good stack (stack.retagNamed name tag) :=
  (accounts_retagNamed stack name tag).upholds fun hStack => hStack.retagNamed name hTag

theorem upholds_require (required : Nat) :
    Upholds counts good stack (stack.require required).2 :=
  (accounts_require stack required).upholds fun hStack => hStack.require required

theorem upholds_dupShape (copied skipped : Nat) :
    Upholds counts good stack (stack.dupShape copied skipped).2 :=
  (accounts_dupShape stack copied skipped).upholds fun hStack =>
    hStack.dupShape copied skipped

theorem upholds_dupAt (count depth : Nat) :
    Upholds counts good stack (stack.dupAt count depth) :=
  (accounts_dupAt stack count depth).upholds fun hStack => hStack.dupAt count depth

theorem upholds_swap : Upholds counts good stack stack.swap :=
  (accounts_swap stack).upholds All.swap

/- The stack that a frame declares. -/
theorem upholds_declaredStack (hGood : Tag.Lasting good) (reg : Registry)
    (frame : Frame) :
    Upholds counts good stack (Simulation.declaredStack reg frame stack) := by
  refine (upholds_clear stack).trans ?_
  unfold Simulation.declaredStack
  generalize stack.clear = start
  generalize frame.stack = types
  induction types generalizing start with
  | nil => exact .refl start
  | cons type types ih =>
    exact (upholds_push start none (hGood.declared reg type)).trans (ih _)

end

end OperandStack

-- Snapshots of stacks

/- A snapshot that is counted, if that matters, with good tags only. -/
structure StackSnapshot.Orderly (counts : Prop) (good : Tag → Prop)
    (snapshot : StackSnapshot) : Prop where
  counted : counts → snapshot.Counted
  tags : ∀ entry ∈ snapshot.entries, good entry.tag

section

variable {counts : Prop} {good : Tag → Prop} {snapshot : StackSnapshot}

theorem OperandStack.Orderly.save {stack : OperandStack}
    (hStack : stack.Orderly counts good) :
    stack.save.Orderly counts good :=
  ⟨fun hCounts => (hStack.counted hCounts).save, hStack.tags⟩

variable (hSnapshot : snapshot.Orderly counts good)
include hSnapshot

theorem OperandStack.upholds_restore (stack : OperandStack) :
    Upholds counts good stack (stack.restore snapshot) where
  orderly hStack := ⟨fun hCounts =>
    (accounts_restore stack (hSnapshot.counted hCounts)).counted (hStack.counted hCounts),
    hSnapshot.tags⟩
  peak := Nat.le_max_left _ _

namespace StackSnapshot.Orderly

theorem withoutTop (count : Nat) : (snapshot.withoutTop count).Orderly counts good :=
  ⟨fun _ => .ofEntries _, fun entry hEntry =>
    hSnapshot.tags entry (mem_of_mem_drop hEntry)⟩

theorem mem_tags {tag : Tag} (hTag : tag ∈ snapshot.tags) :
    good tag := by
  rcases mem_map.mp (mem_reverse.mp hTag) with ⟨entry, hEntry, rfl⟩
  exact hSnapshot.tags entry hEntry

theorem narrow (hGood : Tag.Lasting good) (reg : Registry) (frame : Frame) :
    (snapshot.narrow reg frame).Orderly counts good := by
  unfold StackSnapshot.narrow
  split
  · refine ⟨fun _ => .ofEntries _, fun entry hEntry => ?_⟩
    rcases mem_mapIdx.mp hEntry with ⟨depth, hDepth, rfl⟩
    have hOld := hSnapshot.tags _ (getElem_mem hDepth)
    simp only
    split
    · exact hGood.merge _ _ false hOld (hGood.declared reg _)
    · exact hOld
  · exact hSnapshot

end StackSnapshot.Orderly

end

-- Locals

def AllCells (good : Tag → Prop) (cells : Array SlotCell) : Prop :=
  ∀ cell ∈ cells, good cell.content.tag

namespace SlotMap

def All (good : Tag → Prop) (map : SlotMap) : Prop :=
  AllCells good map.cells

end SlotMap

namespace AllCells

variable {good : Tag → Prop} {cells : Array SlotCell}

section

variable (hCells : AllCells good cells)
include hCells

theorem tagIn (hVoid : good .void) (slot : Nat) :
    good (SlotMap.tagIn cells slot) := by
  unfold SlotMap.tagIn SlotMap.contentAt
  cases hCell : cells[slot]? with
  | none => exact hVoid
  | some cell => exact hCells cell (Array.mem_of_getElem? hCell)

theorem vars {entry : Nat × Tag} (hEntry : entry ∈ varsOf cells) :
    good entry.2 := by
  unfold varsOf at hEntry
  rcases mem_filterMap.mp hEntry with ⟨⟨cell, slot⟩, hCell, hVar⟩
  simp only at hVar
  split at hVar
  · cases hVar
  · cases hVar
    exact hCells cell (Array.mem_toList_iff.mp (fst_mem_of_mem_zipIdx hCell))

theorem push (cell : SlotCell) (hCell : good cell.content.tag) :
    AllCells good (cells.push cell) := by
  intro other hOther
  rcases Array.mem_push.mp hOther with hOld | rfl
  · exact hCells other hOld
  · exact hCell

/- A change of some cells that keeps good tags good. -/
theorem modify (slot : Nat) (change : SlotCell → SlotCell)
    (hChange : ∀ cell, good cell.content.tag → good (change cell).content.tag) :
    AllCells good (cells.modify slot change) := by
  intro cell hCell
  rcases Array.mem_iff_getElem?.mp hCell with ⟨place, hPlace⟩
  rw [Array.getElem?_modify] at hPlace
  split at hPlace
  · rcases Option.map_eq_some_iff.mp hPlace with ⟨old, hOld, rfl⟩
    exact hChange old (hCells old (Array.mem_of_getElem? hOld))
  · exact hCells cell (Array.mem_of_getElem? hPlace)

theorem setContent (slot : Nat) (content : SlotContent) (hContent : good content.tag) :
    AllCells good (SlotMap.setContent cells slot content) :=
  hCells.modify slot _ fun _ _ => hContent

theorem detach (hVoid : good .void) (slot : Nat) :
    AllCells good (SlotMap.detach cells slot) := by
  unfold SlotMap.detach
  split
  · exact hCells
  · refine AllCells.setContent ?_ slot .void hVoid
    split
    · exact hCells
    · exact hCells.setContent _ .void hVoid
  · refine AllCells.setContent ?_ slot .void hVoid
    split
    · exact hCells.setContent _ .void hVoid
    · exact hCells

theorem grow (slot : Nat) (tag : Tag) :
    AllCells good (SlotMap.grow cells slot tag) := by
  unfold SlotMap.grow
  simp only
  split
  · refine AllCells.modify ?_ _ _ fun _ hCell => hCell
    intro cell hCell
    rw [Array.take_eq_extract, Array.mem_extract_iff_getElem] at hCell
    rcases hCell with ⟨place, hPlace, rfl⟩
    exact hCells _ (Array.getElem_mem _)
  · exact hCells

end

theorem padded {map : SlotMap} (hMap : map.All good) (hVoid : good .void) (count : Nat) :
    AllCells good (map.padded count) := by
  intro cell hCell
  unfold SlotMap.padded at hCell
  rcases Array.mem_append.mp hCell with hOld | hNew
  · exact hMap cell hOld
  · rcases mem_map.mp (mem_toArray.mp hNew) with ⟨slot, _, rfl⟩
    exact hVoid

end AllCells

namespace SlotMap.All

variable {good : Tag → Prop} {map : SlotMap} {tag : Tag} {slot : Nat}
variable {after : SlotMap}

section

variable (hMap : map.All good)
include hMap

theorem tagAt (hVoid : good .void) (slot : Nat) :
    good (map.tagAt slot) := by
  rw [tagAt_eq]
  exact AllCells.tagIn hMap hVoid slot

theorem put (hVoid : good .void) {address : Nat} {name : Option String} (hTag : good tag)
    (hPut : map.put slot tag name = some (address, after)) :
    after.All good := by
  have hDetached (slots : List Nat) (cells : Array SlotCell)
      (hCells : AllCells good cells) :
      AllCells good (slots.foldl SlotMap.detach cells) := by
    induction slots generalizing cells with
    | nil => exact hCells
    | cons first rest ih => exact ih _ (hCells.detach hVoid first)
  unfold SlotMap.put at hPut
  split at hPut
  · cases hPut
    apply AllCells.grow
    have hHead := (hDetached (List.range' slot tag.srcWidth) _
      (AllCells.padded hMap hVoid (slot + tag.srcWidth))).setContent slot
        (.head tag name) hTag
    split
    · exact hHead.setContent _ .tail hVoid
    · exact hHead
  · cases hPut

theorem retag? (hTag : good tag) (hRetag : map.retag? slot tag = some after) :
    after.All good := by
  rcases retag?_eq_some.mp hRetag with ⟨_, _, _, _, _, _, rfl⟩
  exact AllCells.grow (AllCells.setContent hMap slot (.head tag _) hTag) slot tag

theorem kill (hVoid : good .void) (slot : Nat) :
    (map.kill slot).All good :=
  AllCells.detach hMap hVoid slot

theorem forgetName (name : String) : (map.forgetName name).All good := by
  intro cell hCell
  rcases Array.mem_map.mp hCell with ⟨old, hOld, rfl⟩
  have hTag : (old.content.forget name).tag = old.content.tag := by
    cases old.content <;> rfl
  simp only [hTag]
  exact hMap old hOld

end

theorem clear (map : SlotMap) : map.clear.All good :=
  fun _ hCell => by cases Array.mem_def.mp hCell

theorem add (hMap : map.All good) (hVoid : good .void) (name : Option String)
    (hTag : good tag) :
    (map.add tag name).2.All good := by
  unfold SlotMap.add
  simp only
  split
  · exact (AllCells.push hMap ⟨.head tag name, _⟩ hTag).push ⟨.tail, _⟩ hVoid
  · exact AllCells.push hMap ⟨.head tag name, _⟩ hTag

-- Declared locals

theorem narrowAt (hMap : map.All good) (hGood : Tag.Lasting good) (slot : Nat)
    {declared : Tag} (hDeclared : good declared) :
    (map.narrowAt slot declared).All good := by
  unfold SlotMap.narrowAt
  split
  · exact hMap
  simp only
  split
  · exact hMap
  split
  · exact hMap.kill hGood.void slot
  have hMerged := hGood.merge _ _ (2 ≤ map.room slot) (hMap.tagAt hGood.void slot)
    hDeclared
  split
  · rename_i hPut
    exact hMap.put hGood.void hMerged hPut
  · split
    · rename_i hPut
      exact hMap.put hGood.void hDeclared hPut
    · exact hMap

theorem narrow (hMap : map.All good) (hGood : Tag.Lasting good) (reg : Registry)
    (frame : Frame) :
    (map.narrow reg frame).All good :=
  narrow_induct hGood.void (hGood.declared reg)
    (fun _ slot _ hTag hMap => hMap.narrowAt hGood slot hTag) hMap

theorem declaredLocals (hGood : Tag.Lasting good) (reg : Registry) (frame : Frame)
    (map : SlotMap) :
    (Simulation.declaredLocals reg frame map).All good :=
  declaredLocals_induct
    (fun _ _ type _ _ hMap hPut => hMap.put hGood.void (hGood.declared reg type) hPut)
    (clear map)

end SlotMap.All

/- The receiver and the parameters of a method are of known classes. -/
theorem Method.concrete_initialLocals (method : Method) (reg : Registry)
    (owner : ClassName) (body : Body) :
    (method.initialLocals reg owner body).All Tag.Concrete :=
  method.initialLocals_induct body (reg.concrete_tagOfClass owner)
    reg.concrete_tagOf
    (fun _ _ name hTag hMap => hMap.add Tag.concrete_void name hTag)
    (fun _ hCell => by cases Array.mem_def.mp hCell)

end Unboxing
