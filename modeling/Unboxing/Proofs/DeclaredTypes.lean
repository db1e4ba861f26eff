import Unboxing.Proofs.DescriptorText
import Unboxing.Proofs.FieldAgreement
import Unboxing.Proofs.HelperTypes
import Unboxing.Registry.Words

/-
  Words carry declared types. The word of a type counts its array
  dimensions and knows its value class, so the type can be told
  from the word, as it was and with payloads in place of values.
  Words count dimensions up to 255, and types have no limit. What
  is true of tags is true of words, since each part of a word is
  read back as it was put in, and a table of names finds the
  classes that a registry has.

  Main declarations:
    * `Word.kind_new`
    * `Word.depth_new`
    * `NameTable.ofMapping_index?`
    * `Word.ofType_eq_pack`
    * `Registry.CarriesType`
    * `Registry.word_carriesType`
    * `Registry.deep_array_as_scalar`
-/

namespace Unboxing

------------------------------------------------------------
-- The parts of a word
------------------------------------------------------------

namespace Word

variable (kind : Kind) (depth : BitVec 8)

/- A mask reads each part of a word by itself. -/
theorem new_and (mask : Word) :
    new kind depth &&& mask =
      kindBits kind &&& mask |||
        depth.setWidth 32 <<< 8 &&& mask |||
        classBits kind &&& mask |||
        widthBits kind depth &&& mask := by
  simp only [new, BitVec.and_or_distrib_right]

theorem kindBits_and :
    kindBits kind &&& kindMask = kindBits kind ∧
      kindBits kind &&& depthMask = 0#32 ∧
      kindBits kind &&& classMask = 0#32 := by
  cases kind <;> simp only [kindBits] <;> decide

theorem depthBits_and (depth : BitVec 8) :
    depth.setWidth 32 <<< 8 &&& kindMask = 0#32 ∧
      ((depth.setWidth 32 <<< 8 &&& depthMask) >>> 8).setWidth 8 = depth ∧
      depth.setWidth 32 <<< 8 &&& classMask = 0#32 := by
  revert depth
  decide +kernel

theorem classBits_and :
    classBits kind &&& kindMask = 0#32 ∧
      classBits kind &&& depthMask = 0#32 ∧
      classBits kind &&& classMask = classBits kind := by
  cases kind with
  | payload cls | reference cls =>
    rcases cls with index | _
    · revert index
      decide +kernel
    · decide
  | _ => decide

theorem widthBits_and :
    widthBits kind depth &&& kindMask = 0#32 ∧
      widthBits kind depth &&& depthMask = 0#32 ∧
      widthBits kind depth &&& classMask = 0#32 := by
  unfold widthBits
  split
  · decide
  · cases kind <;> dsimp only <;> decide

/- The class of a word is that of its kind. -/
theorem classOf_new {cls : ClassIndex}
    (hKind : kind = .payload cls ∨ kind = .reference cls) :
    (new kind depth).classOf = cls := by
  have hBits : classBits kind = BitVec.ofNat 32 cls.number <<< 16 := by
    rcases hKind with rfl | rfl <;> rfl
  unfold classOf
  rw [new_and, (kindBits_and kind).2.2, (depthBits_and depth).2.2,
    (classBits_and kind).2.2, (widthBits_and kind depth).2.2, hBits]
  clear hKind hBits
  rcases cls with index | _
  · revert index
    decide +kernel
  · decide

/- The kind of a word is read back as it was put in. -/
theorem kind_new : (new kind depth).kind = kind := by
  have hBits : new kind depth &&& kindMask = kindBits kind := by
    rw [new_and, (kindBits_and kind).1, (depthBits_and depth).1,
      (classBits_and kind).1, (widthBits_and kind depth).1]
    simp only [BitVec.or_zero]
  unfold Word.kind
  rw [hBits]
  cases kind with
  | payload cls => exact congrArg _ (classOf_new _ depth (.inl rfl))
  | reference cls => exact congrArg _ (classOf_new _ depth (.inr rfl))
  | _ => rfl

/- The dimensions of a word are read back as they were put in. -/
theorem depth_new : (new kind depth).depth = depth := by
  unfold Word.depth
  rw [new_and, (kindBits_and kind).2.1, (classBits_and kind).2.1,
    (widthBits_and kind depth).2.1, BitVec.zero_or, BitVec.or_zero,
    BitVec.or_zero]
  exact (depthBits_and depth).2.1

end Word

/- The word of a tag. -/
def Tag.pack (tag : Tag) : Word :=
  .new tag.kind (BitVec.ofNat 8 tag.depth)

namespace Word

variable {tag : Tag}

theorem kind_pack (tag : Tag) : tag.pack.kind = tag.kind :=
  kind_new ..

theorem depth_pack (hDepth : tag.depth ≤ Tag.maxDepth) :
    tag.pack.depth.toNat = tag.depth := by
  rw [Tag.pack, depth_new, BitVec.toNat_ofNat]
  exact Nat.mod_eq_of_lt (Nat.lt_succ_of_le hDepth)

theorem isValue_pack (tag : Tag) : tag.pack.isValue = tag.isValue := by
  unfold isValue Tag.isValue Tag.class?
  rw [kind_pack]
  cases tag.kind <;> rfl

theorem payloadOf_pack (tag : Tag) : tag.pack.payloadOf = tag.payloadOf.pack := by
  unfold payloadOf Tag.payloadOf
  rw [kind_pack]
  cases hKind : tag.kind <;> simp only [Tag.pack, depth_new]

theorem referenceOf_pack (tag : Tag) :
    tag.pack.referenceOf = tag.referenceOf.pack := by
  unfold referenceOf Tag.referenceOf
  rw [kind_pack]
  cases hKind : tag.kind <;> simp only [Tag.pack, depth_new]

theorem arrayOf_pack (hDepth : tag.depth ≤ Tag.maxDepth) (extra : Nat) :
    tag.pack.arrayOf (BitVec.ofNat 8 extra) = (tag.arrayOf (extra % 256)).pack := by
  unfold arrayOf
  rw [kind_pack, depth_pack hDepth, BitVec.toNat_ofNat]
  rfl

theorem typeOf?_pack (reg : Registry) (hDepth : tag.depth ≤ Tag.maxDepth) :
    tag.pack.typeOf? reg = reg.typeOf? tag := by
  rw [typeOf?, kind_pack, depth_pack hDepth]

end Word

------------------------------------------------------------
-- The table of names
------------------------------------------------------------

namespace NameTable

theorem index?_cons (table : NameTable) (name other : ClassName) (cls : ClassIndex) :
    index? ((name, cls) :: table) other =
      if other == name then some cls else table.index? other := by
  unfold index?
  rw [List.lookup_cons]
  cases other == name <;> rfl

/- Names are resolved one by one, and none is known before. -/
theorem resolveNames_cons {known names : List ClassName} {entry : ValueClassEntry}
    {entries : List ValueClassEntry}
    (hNames : ValueClass.resolveNames known (entry :: entries) = .ok names) :
    ∃ name rest, ClassName.parse entry.name = .ok name ∧ known.contains name = false ∧
      ValueClass.resolveNames (name :: known) entries = .ok rest ∧ names = name :: rest := by
  unfold ValueClass.resolveNames at hNames
  cases hName : ClassName.parse entry.name with
  | error fault =>
    rw [hName] at hNames
    cases hNames
  | ok name =>
    simp only [hName] at hNames
    cases hSeen : known.contains name with
    | true =>
      rw [hSeen] at hNames
      cases hNames
    | false =>
      rw [hSeen] at hNames
      rcases exists_of_bind_ok hNames with ⟨rest, hRest, hNames⟩
      cases hNames
      exact ⟨name, rest, rfl, hSeen, hRest, rfl⟩

/-
  The names that can be resolved can be entered, and each is
  found where it stands. The induction is on the entries, with
  the names so far in the table.
-/
theorem enter_ok {known names : List ClassName} {table : NameTable}
    {index : Nat} {entries : List ValueClassEntry}
    (hKnown : ∀ name, known.contains name = (table.index? name).isSome)
    (hRoom : index + entries.length ≤ ClassIndex.limit)
    (hNames : ValueClass.resolveNames known entries = .ok names) :
    names.length = entries.length ∧
      ∃ full, table.enter index entries = .ok full ∧ ∀ name, full.index? name =
        (table.index? name).or ((names.findIdx? (· == name)).bind fun place =>
          ClassIndex.ofNat? (index + place)) := by
  induction entries generalizing known names table index with
  | nil =>
    cases hNames
    exact ⟨rfl, table, rfl, fun name => by simp⟩
  | cons entry entries ih =>
    rcases resolveNames_cons hNames with ⟨name, rest, hName, hSeen, hRest, rfl⟩
    have hNew : (table.index? name).isSome = false := (hKnown name).symm.trans hSeen
    rw [List.length_cons] at hRoom
    have hNext : index + 1 + entries.length ≤ ClassIndex.limit := by omega
    have hLess : index < ClassIndex.limit := by omega
    have hIndex : ClassIndex.ofNat? index = some (.declared ⟨index, hLess⟩) := dif_pos hLess
    obtain ⟨hLength, full, hEnter, hFull⟩ := ih
      (fun other => by
        rw [index?_cons, List.contains_cons, hKnown]
        cases other == name <;> rfl)
      hNext hRest
    refine ⟨congrArg Nat.succ hLength, full, ?_, fun other => ?_⟩
    · unfold enter
      simp only [hName, hIndex, hNew]
      exact hEnter
    · rw [hFull, index?_cons, List.findIdx?_cons, BEq.comm]
      by_cases hSame : name == other
      · rw [if_pos hSame, if_pos hSame, ← beq_iff_eq.mp hSame]
        rw [Option.isSome_eq_false_iff, Option.isNone_iff_eq_none] at hNew
        rw [hNew]
        exact hIndex.symm
      · rw [if_neg hSame, if_neg hSame, Option.bind_map]
        simp only [Function.comp_def, Nat.add_assoc, Nat.add_comm 1]

/- The table of a mapping finds the classes that its registry has. -/
theorem ofMapping_index? {mapping : Mapping} {reg : Registry}
    (hOk : Registry.ofMapping mapping = .ok reg) :
    ∃ table, ofMapping mapping = .ok table ∧
      ∀ name, table.index? name = reg.index? name := by
  unfold Registry.ofMapping at hOk
  split at hOk
  · cases hOk
  rename_i hRoom
  rcases exists_of_bind_ok hOk with ⟨classes, hClasses, hOk⟩
  rcases exists_of_bind_ok hOk with ⟨specific, _, hOk⟩
  rcases exists_of_bind_ok hOk with ⟨generic, _, hOk⟩
  cases hOk
  rcases exists_of_bind_ok hClasses with ⟨names, hNames, hResolve⟩
  have hStart (name : ClassName) : [].contains name = (index? [] name).isSome := rfl
  obtain ⟨hLength, table, hEnter, hTable⟩ := enter_ok hStart
    (by rw [Nat.zero_add]; exact Nat.le_of_not_lt hRoom) hNames
  refine ⟨table, (if_neg hRoom).trans hEnter, fun name => ?_⟩
  have hSame : classes.map ValueClass.name = names := by
    rw [← List.map_fst_zip (Nat.le_of_eq hLength), ← List.forall₂_eq_eq_eq,
      List.forall₂_map_left_iff, List.forall₂_map_right_iff]
    exact (forall₂_of_mapM hResolve).flip.imp fun _ _ hOne => (ValueClass.resolve_ok hOne).1
  rw [hTable, ← hSame, List.findIdx?_map]
  simp [Registry.index?, index?, Function.comp_def]

end NameTable

------------------------------------------------------------
-- The word of a type
------------------------------------------------------------

namespace Word

theorem ofBase_eq_pack (type : BaseType) :
    ofBase type = (Registry.tagOfBase type).pack := by
  cases type <;> decide

/- The word of a type is that of its tag. -/
theorem ofType_eq_pack {table : NameTable} {reg : Registry}
    (hTable : ∀ name, table.index? name = reg.index? name) (type : FieldType) :
    ofType table type = (reg.tagOf type).pack := by
  have hLeast : 0 ≤ Tag.maxDepth := Nat.zero_le _
  rcases type with type | ⟨name | ⟨more, type | name⟩⟩
  · exact ofBase_eq_pack type
  · simp only [ofType, ofClass, hTable, Registry.tagOf, Registry.tagOfRef, Registry.tagOfClass]
    cases reg.index? name with
    | none => decide
    | some cls => rfl
  · have hDepth : (Registry.tagOfBase type).depth ≤ Tag.maxDepth := by
      cases type <;> exact hLeast
    simp only [ofType, ofBase_eq_pack, arrayOf_pack hDepth]
    rfl
  · simp only [ofType, hTable, Registry.tagOf, Registry.tagOfRef, Registry.tagOfElement,
      Registry.tagOfClass]
    cases reg.index? name with
    | none =>
      have hObject : (5#32 : Word) = Tag.object.pack := by decide
      rw [hObject, arrayOf_pack hLeast]
    | some cls =>
      refine congrArg (new _) (BitVec.eq_of_toNat_eq ?_)
      simp only [BitVec.toNat_ofNat, Tag.arrayOf, Tag.reference, Tag.maxDepth]
      omega

end Word

------------------------------------------------------------
-- The tag of a type
------------------------------------------------------------

namespace Registry

variable {reg : Registry} {type : FieldType}

/- The dimensions of a type are counted modulo 256. -/
theorem depth_tagOf (reg : Registry) (type : FieldType) :
    (reg.tagOf type).depth = type.depth % 256 := by
  cases type with
  | base type => cases type <;> rfl
  | ref type =>
    cases type with
    | object name => exact (reg.tagOfElement_array (.object name)).1
    | array more element =>
      simp only [tagOf, tagOfRef, Tag.arrayOf, Tag.maxDepth,
        (reg.tagOfElement_array element).1, FieldType.depth, RefType.depth]
      omega

theorem depth_tagOf_le (reg : Registry) (type : FieldType) :
    (reg.tagOf type).depth ≤ Tag.maxDepth := by
  rw [depth_tagOf]
  exact Nat.le_of_lt_succ (Nat.mod_lt _ (by decide))

/- The tags of value classes, and of arrays of them, are those of values. -/
theorem isValue_tagOf (reg : Registry) (type : FieldType) :
    (reg.tagOf type).isValue = reg.mentions type := by
  have hClass (name : ClassName) :
      (reg.tagOfClass name).isValue = (reg.index? name).isSome := by
    unfold tagOfClass
    cases reg.index? name <;> rfl
  rcases type with type | ⟨name | ⟨more, type | name⟩⟩
  · cases type <;> rfl
  · exact hClass name
  · cases type <;> rfl
  · exact hClass name

/- A type that mentions a value class is that of references with its tag. -/
theorem typeOf?_tagOf (hDepth : type.depth ≤ Tag.maxDepth)
    (hMentions : reg.mentions type = true) :
    reg.typeOf? (reg.tagOf type) = some type := by
  rcases Option.isSome_iff_exists.mp hMentions with ⟨cls, hBound⟩
  rcases Option.bind_eq_some_iff.mp hBound with ⟨name, hName, hIndex⟩
  rcases class?_of_index? hIndex with ⟨info, hInfo, rfl⟩
  have hKind : reg.typeOfKind? (.reference cls) = some (.object info.name) := by
    rw [typeOfKind?, hInfo]
    rfl
  have hTag : reg.tagOfClass info.name = .reference cls := by
    rw [tagOfClass, hIndex]
  rcases type with _ | ⟨_ | ⟨more, _ | _⟩⟩ <;> cases hName
  · simp only [tagOf, tagOfRef, hTag]
    exact hKind
  · have hMore : min Tag.maxDepth ((more + 1) % 256) = more + 1 := by
      simp only [Tag.maxDepth, FieldType.depth, RefType.depth] at hDepth ⊢
      omega
    simp only [tagOf, tagOfRef, tagOfElement, hTag, Tag.arrayOf, Tag.reference, Nat.zero_add,
      hMore, typeOf?, Nat.succ_ne_zero, if_false, hKind, Option.map_some, reduceCtorEq]
    exact congrArg _ (congrArg _ (FieldType.arrayTypeWith_eq rfl more))

/-
  The word of a type is that of its tag. It has the dimensions of
  the type and is that of a value if the type mentions a value
  class. Then the word gives back the type, its payload gives
  the type with `long` for the class, and the word is found again
  from the payload.
-/
structure CarriesType (reg : Registry) (table : NameTable)
    (type : FieldType) : Prop where
  packed : Word.ofType table type = (reg.tagOf type).pack
  depth : (Word.ofType table type).depth.toNat = type.depth
  value : (Word.ofType table type).isValue = true ↔ table.mentions type = true
  boxed : table.mentions type = true →
    (Word.ofType table type).typeOf? reg = some type
  unboxed : table.mentions type = true →
    (Word.ofType table type).payloadOf.typeOf? reg = some (.longs type.depth)
  back : table.mentions type = true →
    (Word.ofType table type).payloadOf.referenceOf = Word.ofType table type

section

variable {table : NameTable}
variable (hTable : ∀ name, table.index? name = reg.index? name)
include hTable

theorem mentions_table (type : FieldType) : table.mentions type = reg.mentions type := by
  unfold NameTable.mentions mentions
  rw [funext hTable]

theorem depth_ofType (type : FieldType) :
    (Word.ofType table type).depth.toNat = type.depth % 256 := by
  rw [Word.ofType_eq_pack hTable, Word.depth_pack (depth_tagOf_le reg type), depth_tagOf]

theorem typeOf?_payload_ofType (hMentions : reg.mentions type = true) :
    (Word.ofType table type).payloadOf.typeOf? reg = some (.longs (type.depth % 256)) := by
  rcases tagOf_of_mentions hMentions with ⟨cls, hTag⟩
  have hDepth : type.depth % 256 ≤ Tag.maxDepth :=
    depth_tagOf reg type ▸ depth_tagOf_le reg type
  rw [Word.ofType_eq_pack hTable, Word.payloadOf_pack, hTag]
  exact (Word.typeOf?_pack reg hDepth).trans (typeOf?_payload reg cls _)

end

/- Words carry all types with dimensions that they can count. -/
theorem word_carriesType
    (mapping : Mapping)
    (reg : Registry)
    (type : FieldType)
    (hOk : ofMapping mapping = .ok reg)
    (hDepth : type.depth ≤ Tag.maxDepth) :
    ∃ table, NameTable.ofMapping mapping = .ok table ∧ reg.CarriesType table type := by
  rcases NameTable.ofMapping_index? hOk with ⟨table, hMade, hTable⟩
  have hWord := Word.ofType_eq_pack hTable type
  have hCounted : type.depth % 256 = type.depth := Nat.mod_eq_of_lt (Nat.lt_succ_of_le hDepth)
  refine ⟨table, hMade, hWord, (depth_ofType hTable type).trans hCounted, ?_, ?_, ?_, ?_⟩
  · rw [mentions_table hTable, hWord, Word.isValue_pack, isValue_tagOf]
  · intro hMentions
    rw [hWord, Word.typeOf?_pack reg (depth_tagOf_le reg type)]
    exact typeOf?_tagOf hDepth (mentions_table hTable type ▸ hMentions)
  · intro hMentions
    rw [typeOf?_payload_ofType hTable (mentions_table hTable type ▸ hMentions), hCounted]
  · intro hMentions
    rcases tagOf_of_mentions (mentions_table hTable type ▸ hMentions) with ⟨cls, hTag⟩
    rw [hWord, Word.payloadOf_pack, Word.referenceOf_pack, hTag]
    rfl

-- Arrays of one value class

theorem ledger_index :
    ∃ reg, ofMapping Batch.ledgerMapping = .ok reg ∧
      reg.index? Batch.moneyName = some .first := by
  have hAny : (ofMapping Batch.ledgerMapping).toOption.any (fun reg =>
      decide (reg.index? Batch.moneyName = some .first)) = true := by
    decide +kernel
  cases hOk : ofMapping Batch.ledgerMapping with
  | error fault =>
    rw [hOk] at hAny
    cases hAny
  | ok reg =>
    rw [hOk] at hAny
    exact ⟨reg, rfl, of_decide_eq_true hAny⟩

def moneyArray (more : Nat) : FieldType :=
  .ref (.array more (.object Batch.moneyName))

theorem mentions_moneyArray (hIndex : reg.index? Batch.moneyName = some .first)
    (more : Nat) :
    reg.mentions (moneyArray more) = true :=
  Option.isSome_iff_exists.mpr ⟨.first, hIndex⟩

/- An array of arrays of values becomes one of arrays of `long`. -/
theorem word_carriesType_nested :
    ∃ reg table, ofMapping Batch.ledgerMapping = .ok reg ∧
      NameTable.ofMapping Batch.ledgerMapping = .ok table ∧
      FieldType.parse "[[LMoney;" = .ok (moneyArray 1) ∧ (moneyArray 1).depth ≤ Tag.maxDepth ∧
      (Word.ofType table (moneyArray 1)).typeOf? reg = some (moneyArray 1) ∧
      (Word.ofType table (moneyArray 1)).payloadOf.typeOf? reg = some (.longs 2) := by
  rcases ledger_index with ⟨reg, hOk, hIndex⟩
  have hDepth : (moneyArray 1).depth ≤ Tag.maxDepth := by decide
  rcases word_carriesType Batch.ledgerMapping reg (moneyArray 1) hOk hDepth with
    ⟨table, hMade, hCarries⟩
  rcases NameTable.ofMapping_index? hOk with ⟨same, hSame, hTable⟩
  cases hSame.symm.trans hMade
  have hMentions := (mentions_table hTable _).trans (mentions_moneyArray hIndex 1)
  exact ⟨reg, table, hOk, hMade, by decide +kernel, hDepth, hCarries.boxed hMentions,
    hCarries.unboxed hMentions⟩

/- With 256 dimensions an array of values has the word of a single value. -/
theorem deep_array_as_scalar :
    ∃ reg table, ofMapping Batch.ledgerMapping = .ok reg ∧
      NameTable.ofMapping Batch.ledgerMapping = .ok table ∧
      FieldType.parse (String.ofList (moneyArray 255).render) = .ok (moneyArray 255) ∧
      table.mentions (moneyArray 255) = true ∧ (moneyArray 255).depth = 256 ∧
      (Word.ofType table (moneyArray 255)).depth = 0#8 ∧
      (Word.ofType table (moneyArray 255)).payloadOf.typeOf? reg = some (.base .long) ∧
      ¬ reg.CarriesType table (moneyArray 255) := by
  rcases ledger_index with ⟨reg, hOk, hIndex⟩
  rcases NameTable.ofMapping_index? hOk with ⟨table, hMade, hTable⟩
  have hMentions := mentions_moneyArray hIndex 255
  have hDepth := depth_ofType hTable (moneyArray 255)
  have hParse := (moneyArray 255).parseFrom_render []
  rw [List.append_nil] at hParse
  refine ⟨reg, table, hOk, hMade, ?_, (mentions_table hTable _).trans hMentions, rfl,
    BitVec.eq_of_toNat_eq hDepth, typeOf?_payload_ofType hTable hMentions, fun hCarries => ?_⟩
  · simp only [FieldType.parse, Descriptor.complete, String.toList_ofList, hParse]
  · cases hDepth.symm.trans hCarries.depth

end Registry

end Unboxing
