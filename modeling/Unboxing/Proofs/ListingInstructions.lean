import Unboxing.Listing.Node
import Unboxing.Proofs.ListingWords

/-
  The instructions of a listing. An instruction that is read has
  operands that can be written, and an instruction whose operands
  can be written is read back from its line.

  Main declarations:
    * `Constant.Listable`
    * `Instruction.Listable`
    * `Listing.listable_of_instruction?`
    * `Listing.instruction?_operands`
    * `Listing.instruction?_string`
    * `Listing.leads_mnemonic`
-/

namespace Unboxing

open List Listing Reading Text

-- String constants

namespace Listing

variable {value : String} {line : Line}

theorem unescape?_escapeChar (c : Char) (rest : List Char) :
    unescape? (escapeChar c ++ rest) = (unescape? rest).map (c :: ·) := by
  unfold escapeChar
  split
  · rfl
  · rfl
  · rfl
  · rfl
  case h_5 hBackslash _ _ _ =>
    rw [singleton_append, unescape?]
    all_goals
      intros
      contradiction

theorem unescape?_escaped (text : List Char) :
    unescape? (text.flatMap escapeChar) = some text := by
  induction text with
  | nil => rfl
  | cons c text ih => rw [flatMap_cons, unescape?_escapeChar, ih, Option.map_some]

theorem stripCommentFrom_escapeChar (c : Char) (rest : List Char) :
    stripCommentFrom true false (escapeChar c ++ rest) =
      escapeChar c ++ stripCommentFrom true false rest := by
  unfold escapeChar
  split
  · simp [stripCommentFrom]
  · simp [stripCommentFrom]
  · simp [stripCommentFrom]
  · simp [stripCommentFrom]
  case h_5 hBackslash hQuote _ _ =>
    have hBackslash : ¬ c = '\\' := hBackslash
    have hQuote : ¬ c = '"' := hQuote
    simp [stripCommentFrom, hBackslash, hQuote]

/- In a string, nothing of the escaped text ends the string or is cut. -/
theorem stripCommentFrom_escaped (text rest : List Char) :
    stripCommentFrom true false (text.flatMap escapeChar ++ rest) =
      text.flatMap escapeChar ++ stripCommentFrom true false rest := by
  induction text with
  | nil => rfl
  | cons c text ih =>
    rw [List.flatMap_cons, List.append_assoc, stripCommentFrom_escapeChar, ih, List.append_assoc]

theorem unbroken_escaped (text : List Char) : '\n' ∉ text.flatMap escapeChar := by
  intro hBreak
  rcases List.mem_flatMap.mp hBreak with ⟨c, _, hChar⟩
  unfold escapeChar at hChar
  split at hChar
  · exact absurd hChar (by decide)
  · exact absurd hChar (by decide)
  · exact absurd hChar (by decide)
  · exact absurd hChar (by decide)
  case h_5 _ _ hOther _ => exact hOther (List.mem_singleton.mp hChar).symm

theorem lineText_string (value : String) :
    lineText ["ldc", quoted value] =
      "ldc ".toList ++ '"' :: (value.toList.flatMap escapeChar ++ ['"']) := by
  rw [lineText_cons_cons, lineText_eq]
  simp [quoted]

theorem kept_string (value : String) : Kept (lineText ["ldc", quoted value]) := by
  rw [lineText_string]
  constructor
  · simp
  · have hEscaped := unbroken_escaped value.toList
    simp only [List.mem_append, List.mem_cons, List.not_mem_nil, or_false, not_or]
    exact ⟨by decide, by decide, hEscaped, by decide⟩
  · rw [stripComment_append (by decide)]
    simp [stripComment, stripCommentFrom, stripCommentFrom_escaped]
  · constructor
    · intro c hChar
      cases hChar
      decide
    · intro c hChar
      rw [← List.cons_append, ← List.append_assoc, List.getLast?_concat] at hChar
      cases hChar
      decide

/- The string between the quotes of the line is the constant. -/
theorem stringConstant_quoted (hLine : line.text = lineText ["ldc", quoted value]) :
    stringConstant line = .ok value := by
  generalize hText : value.toList.flatMap escapeChar = text
  have hFirst : cutFirst? '"' ("ldc ".toList ++ '"' :: (text ++ ['"'])) =
      some ("ldc ".toList, text ++ ['"']) :=
    cutFirst?_append (by decide) _
  have hLast : cutLast? '"' (text ++ ['"']) = some (text, []) :=
    cutLast?_append text (by simp)
  have hBack : unescape? text = some value.toList := hText ▸ unescape?_escaped value.toList
  rw [stringConstant, hLine, lineText_string, hText]
  simp only [hFirst, Option.bind_some, hLast, hBack, String.ofList_toList]

/- The line of a string constant as its reader sees it. -/
theorem words_string (hLine : line.text = lineText ["ldc", quoted value]) :
    ∃ word operands, line.words = "ldc" :: word :: operands ∧ word.toList.head? = some '"' := by
  have hQuote : isBlank '"' = false := by decide
  have hMnemonic : IsWord "ldc".toList := ⟨by decide, by decide⟩
  have hSpace : isBlank ' ' = true := by decide
  rcases words_unblank hQuote (value.toList.flatMap escapeChar ++ ['"']) with
    ⟨rest, others, hOperands⟩
  have hWords : Text.words line.text = "ldc".toList :: ('"' :: rest) :: others := by
    rw [hLine, lineText_string, ← hOperands]
    exact words_cons hMnemonic hSpace _
  refine ⟨String.ofList ('"' :: rest), others.map String.ofList, ?_, by simp⟩
  rw [Line.words, hWords, map_cons, map_cons, String.ofList_toList]

end Listing

-- Constants

/- A constant whose text is read as that constant. -/
def Constant.Listable : Constant → Prop
  | .int value => Spells (number Numeral.int32?) (toString value) value
  | .long value => Spells (number Numeral.int64?) (toString value) value
  | .float value =>
    Spells (number (Decimal.read? .single)) (String.ofList (Decimal.render .single value)) value
  | .double value =>
    Spells (number (Decimal.read? .double)) (String.ofList (Decimal.render .double value)) value
  | .string _ => True
  | .type value => Spells refType (String.ofList value.operand) value
  | .methodType value => Spells Reading.methodType (String.ofList value.render) value

namespace Listing

variable {value : Constant}

theorem listable_of_constant {line : Line} {operands : List String}
    (hWords : ∀ word ∈ operands, IsWord word.toList)
    (hRead : constant line operands = .ok value) :
    value.Listable := by
  simp only [constant] at hRead
  split at hRead
  case isTrue =>
    rcases made_of_ok hRead with ⟨text, _, rfl⟩
    exact trivial
  case isFalse =>
    split at hRead
    case h_1 | h_2 =>
      rcases made_of_ok hRead with ⟨n, hNumber, rfl⟩
      exact spells_of_signed (by decide) hNumber
    case h_3 =>
      rcases made_of_ok hRead with ⟨n, hNumber, rfl⟩
      exact spells_of_decimal Binary.Format.usual_single hNumber
    case h_4 =>
      rcases made_of_ok hRead with ⟨n, hNumber, rfl⟩
      exact spells_of_decimal Binary.Format.usual_double hNumber
    case h_5 _ word _ =>
      rcases made_of_ok hRead with ⟨type, hType, rfl⟩
      exact spells_of_refType (hWords word (by simp)) hType
    case h_6 _ word _ =>
      rcases made_of_ok hRead with ⟨type, hType, rfl⟩
      exact spells_of_methodType (hWords word (by simp)) hType
    case h_7 => cases hRead

theorem constant_words (hValue : value.Listable) (hOther : ∀ text, value ≠ .string text)
    (line : Line) :
    constant line value.words = .ok value := by
  cases value with
  | int value => exact Spells.make hValue Constant.int line.number
  | long value => exact Spells.make hValue Constant.long line.number
  | float value => exact Spells.make hValue Constant.float line.number
  | double value => exact Spells.make hValue Constant.double line.number
  | string value => exact absurd rfl (hOther value)
  | type value => exact Spells.make hValue Constant.type line.number
  | methodType value => exact Spells.make hValue Constant.methodType line.number

end Listing

-- Instructions that are read

/- An instruction whose operands are read as those operands. -/
def Instruction.Listable : Instruction → Prop
  | .pushByte value => Spells (number Numeral.int8?) (toString value) value
  | .pushShort value => Spells (number Numeral.int16?) (toString value) value
  | .load _ slot | .store _ slot => Spells (number Numeral.word16?) (toString slot) slot
  | .increment slot delta =>
    Spells (number Numeral.word16?) (toString slot) slot ∧
      Spells (number Numeral.int16?) (toString delta) delta
  | .constant value => value.Listable
  | .field _ ref =>
    Spells member (memberText ref.owner ref.name) (ref.owner, ref.name) ∧
      Spells fieldType (String.ofList ref.type.render) ref.type
  | .invoke _ method => Spells (fun line word => methodRef line [word]) method.text method
  | .invokeDynamic call =>
    Spells dynamicCall (call.name.text ++ String.ofList call.type.render) call
  | .newObject name => Spells className name.text name
  | .newRefArray type | .checkCast type | .instanceOf type =>
    Spells refType (String.ofList type.operand) type
  | .newMultiArray type dimensions =>
    Spells refType (String.ofList type.operand) type ∧
      Spells (number Numeral.word8?) (toString dimensions) dimensions
  | _ => True

namespace Listing

variable {insn : Instruction} {mnemonic : String} {operands : List String}
variable {line : Nat} {ref : FieldRef}

theorem listable_of_mem_bare (hBare : insn ∈ Instruction.bare) :
    insn.Listable ∧ insn.operands = [] := by
  simp only [Instruction.bare, mem_append, mem_map, mem_cons, not_mem_nil,
    or_false] at hBare
  rcases hBare with (((⟨_, _, rfl⟩ | ⟨_, _, rfl⟩) | ⟨_, _, rfl⟩) | ⟨_, _, rfl⟩) |
    rfl | rfl | rfl | rfl <;>
    exact ⟨trivial, rfl⟩

theorem listable_of_shortForm? (hRead : shortForm? mnemonic operands = some insn) :
    insn.Listable := by
  unfold shortForm? at hRead
  simp only [Option.bind_eq_bind, Option.bind_eq_some_iff] at hRead
  rcases hRead with ⟨⟨stem, digits⟩, _, slot, hSlot, hRead⟩
  have hSpells : Spells (number Numeral.word16?) (toString slot) slot :=
    spells_unsigned (lt_of_unsigned? hSlot)
  split at hRead
  · cases hRead
  · simp only [Option.orElse_eq_orElse, Option.orElse_eq_or, Option.or_eq_some_iff,
      Option.map_eq_some_iff] at hRead
    rcases hRead with ⟨kind, _, rfl⟩ | ⟨_, kind, _, rfl⟩
    · exact hSpells
    · exact hSpells

/- The operand of an instruction that has one. -/
theorem operand_of_ok {α : Type} {read : String → Except Error α} {make : α → Instruction}
    (hRead : (single line mnemonic operands >>= fun word =>
      read word >>= fun value => pure (make value)) = .ok insn) :
    ∃ word ∈ operands, ∃ value, read word = .ok value ∧ make value = insn := by
  rcases ok_of_bind hRead with ⟨word, hSingle, hRead⟩
  refine ⟨word, ?_, made_of_ok hRead⟩
  unfold single at hSingle
  split at hSingle
  · cases hSingle
    exact mem_singleton_self word
  · cases hSingle

section

variable (hWords : ∀ word ∈ operands, IsWord word.toList)
include hWords

theorem spells_of_fieldRef (hRead : fieldRef line operands = .ok ref) :
    Spells member (memberText ref.owner ref.name) (ref.owner, ref.name) ∧
      Spells fieldType (String.ofList ref.type.render) ref.type := by
  unfold fieldRef at hRead
  split at hRead
  case h_1 word type =>
    rcases ok_of_bind hRead with ⟨⟨owner, name⟩, hMember, hRead⟩
    rcases made_of_ok hRead with ⟨found, hType, rfl⟩
    exact ⟨spells_of_member (hWords word (by simp)) hMember,
      spells_of_fieldType (hWords type (by simp)) hType⟩
  case h_2 => cases hRead

theorem spells_of_methodRef_words {method : MethodRef}
    (hRead : methodRef line operands = .ok method) :
    Spells (fun line word => methodRef line [word]) method.text method := by
  cases operands with
  | nil => cases hRead
  | cons word others => exact spells_of_methodRef (hWords word mem_cons_self) hRead

theorem listable_of_operandInstruction? {line : Line}
    (hRead : operandInstruction? line mnemonic operands = some (.ok insn)) :
    insn.Listable := by
  simp only [operandInstruction?] at hRead
  split at hRead
  case h_1 | h_2 =>
    rcases operand_of_ok (Option.some.inj hRead) with ⟨word, _, slot, hSlot, rfl⟩
    exact spells_of_unsigned hSlot
  case h_3 =>
    split at hRead
    case h_1 | h_2 =>
      rcases operand_of_ok (Option.some.inj hRead) with ⟨word, hWord, value, hValue, rfl⟩
      exact spells_of_signed (by decide) hValue
    case h_3 | h_4 | h_5 =>
      rcases made_of_ok (Option.some.inj hRead) with ⟨value, hValue, rfl⟩
      exact listable_of_constant hWords hValue
    case h_6 =>
      split at hRead
      case h_1 =>
        rcases ok_of_bind (Option.some.inj hRead) with ⟨slot, hSlot, hRest⟩
        rcases made_of_ok hRest with ⟨delta, hDelta, rfl⟩
        exact ⟨spells_of_unsigned hSlot, spells_of_signed (by decide) hDelta⟩
      case h_2 => cases Option.some.inj hRead
    case h_7 | h_8 | h_9 | h_10 =>
      rcases made_of_ok (Option.some.inj hRead) with ⟨value, hValue, rfl⟩
      exact spells_of_fieldRef hWords hValue
    case h_11 | h_12 | h_13 | h_14 =>
      rcases made_of_ok (Option.some.inj hRead) with ⟨value, hValue, rfl⟩
      exact spells_of_methodRef_words hWords hValue
    case h_15 =>
      rcases operand_of_ok (Option.some.inj hRead) with ⟨word, hWord, value, hValue, rfl⟩
      exact spells_of_dynamicCall (hWords word hWord) hValue
    case h_16 =>
      rcases operand_of_ok (Option.some.inj hRead) with ⟨word, hWord, value, hValue, rfl⟩
      exact spells_of_className (hWords word hWord) hValue
    case h_17 =>
      rcases ok_of_bind (Option.some.inj hRead) with ⟨word, _, hRest⟩
      split at hRest
      · cases hRest
        exact trivial
      · cases hRest
    case h_18 | h_19 | h_20 =>
      rcases operand_of_ok (Option.some.inj hRead) with ⟨word, hWord, value, hValue, rfl⟩
      exact spells_of_refType (hWords word hWord) hValue
    case h_21 =>
      split at hRead
      case h_1 word _ =>
        rcases ok_of_bind (Option.some.inj hRead) with ⟨type, hType, hRest⟩
        rcases made_of_ok hRest with ⟨dimensions, hDimensions, rfl⟩
        exact ⟨spells_of_refType (hWords word (by simp)) hType, spells_of_unsigned hDimensions⟩
      case h_2 => cases Option.some.inj hRead
    case h_22 => cases hRead

/- Whatever is read has operands that can be written. -/
theorem listable_of_instruction? {line : Line}
    (hRead : instruction? line mnemonic operands = some (.ok insn)) :
    insn.Listable := by
  unfold instruction? at hRead
  split at hRead
  case h_1 found hBare =>
    split at hRead
    · cases hRead
      exact (listable_of_mem_bare (mem_of_find?_eq_some hBare)).1
    · cases hRead
  case h_2 =>
    split at hRead
    case h_1 hShort =>
      cases hRead
      exact listable_of_shortForm? hShort
    case h_2 => exact listable_of_operandInstruction? hWords hRead

end

-- Instructions that are written

theorem ofMnemonic?_mnemonic :
    ∀ insn ∈ Instruction.bare, Instruction.ofMnemonic? insn.mnemonic = some insn := by
  decide +kernel

/- Every instruction that is written without operands is in the list of these. -/
theorem mem_bare (hOperands : insn.operands = []) : insn ∈ Instruction.bare := by
  cases insn with
  | plain op => cases op <;> decide +kernel
  | arrayLoad kind | arrayStore kind => cases kind <;> decide +kernel
  | shuffle op => cases op <;> decide +kernel
  | pushNull | arrayLength | monitorEnter | monitorExit => decide +kernel
  | constant value => cases value <;> cases hOperands
  | _ => cases hOperands

/- The mnemonics of instructions that have operands. -/
def operandMnemonics : List String :=
  ValueKind.all.map (·.letter ++ "load") ++ ValueKind.all.map (·.letter ++ "store")
    ++ [ "bipush", "sipush", "ldc", "ldc2_w", "iinc", "getstatic", "putstatic", "getfield",
      "putfield", "invokevirtual", "invokespecial", "invokestatic", "invokeinterface",
      "invokedynamic", "new", "newarray", "anewarray", "checkcast", "instanceof", "multianewarray" ]

theorem ofMnemonic?_operandMnemonics :
    ∀ mnemonic ∈ operandMnemonics, Instruction.ofMnemonic? mnemonic = none := by
  decide +kernel

theorem mem_operandMnemonics (hOperands : insn.operands ≠ []) :
    insn.mnemonic ∈ operandMnemonics := by
  cases insn with
  | load kind slot | store kind slot =>
    rw [Instruction.mnemonic]
    cases kind <;> decide
  | field access ref =>
    rw [Instruction.mnemonic]
    cases access <;> decide
  | invoke kind method =>
    rw [Instruction.mnemonic]
    cases kind <;> decide
  | constant value =>
    rw [Instruction.mnemonic]
    cases value.isWide <;> decide
  | plain | pushNull | arrayLoad | arrayStore | arrayLength | shuffle | monitorEnter
  | monitorExit => exact absurd rfl hOperands
  | _ =>
    rw [Instruction.mnemonic]
    decide

/- With operands, only the mnemonics of instructions that have some count. -/
theorem instruction?_cons (hMnemonic : mnemonic ∈ operandMnemonics) (line : Line)
    (word : String) (operands : List String) :
    instruction? line mnemonic (word :: operands) =
      operandInstruction? line mnemonic (word :: operands) := by
  have hShort : shortForm? mnemonic (word :: operands) = none := by
    simp [shortForm?]
  simp only [instruction?, ofMnemonic?_operandMnemonics mnemonic hMnemonic, hShort]

theorem instruction?_of_operands (hOperands : insn.operands ≠ []) (line : Line) :
    instruction? line insn.mnemonic insn.operands =
      operandInstruction? line insn.mnemonic insn.operands := by
  rcases exists_cons_of_ne_nil hOperands with ⟨word, operands, hCons⟩
  rw [hCons]
  exact instruction?_cons (mem_operandMnemonics hOperands) line word operands

theorem instruction?_bare (hBare : insn ∈ Instruction.bare) (line : Line) :
    instruction? line insn.mnemonic insn.operands = some (.ok insn) := by
  rw [(listable_of_mem_bare hBare).2]
  simp only [instruction?, ofMnemonic?_mnemonic insn hBare]
  rfl

theorem fieldRef_words
    (hMember : Spells member (memberText ref.owner ref.name) (ref.owner, ref.name))
    (hType : Spells fieldType (String.ofList ref.type.render) ref.type) (line : Nat) :
    fieldRef line ref.words = .ok ref := by
  show (member line (memberText ref.owner ref.name) >>= fun pair =>
    fieldType line (String.ofList ref.type.render) >>= fun type =>
      pure (⟨pair.1, pair.2, type⟩ : FieldRef)) = _
  rw [hMember.reads]
  exact hType.make (fun type => (⟨ref.owner, ref.name, type⟩ : FieldRef)) line

theorem instruction?_operands (hInsn : insn.Listable)
    (hOther : ∀ text, insn ≠ .constant (.string text)) (line : Line) :
    instruction? line insn.mnemonic insn.operands = some (.ok insn) := by
  by_cases hOperands : insn.operands = []
  case pos => exact instruction?_bare (mem_bare hOperands) line
  rw [instruction?_of_operands hOperands line]
  cases insn with
  | pushByte value =>
    exact congrArg some (Spells.make hInsn Instruction.pushByte line.number)
  | pushShort value =>
    exact congrArg some (Spells.make hInsn Instruction.pushShort line.number)
  | load kind slot =>
    cases kind <;> exact congrArg some (Spells.make hInsn (Instruction.load _) line.number)
  | store kind slot =>
    cases kind <;> exact congrArg some (Spells.make hInsn (Instruction.store _) line.number)
  | increment slot delta =>
    refine congrArg some ?_
    show (number Numeral.word16? line.number (toString slot) >>= fun slot => _) = _
    rw [hInsn.1.reads]
    exact Spells.make hInsn.2 (Instruction.increment slot) line.number
  | constant value =>
    have hText : ∀ text, value ≠ .string text :=
      fun text hString => hOther text (congrArg Instruction.constant hString)
    have hRead : (constant line value.words >>= fun value => pure (.constant value)) =
        .ok (Instruction.constant value) := by
      rw [constant_words hInsn hText line]
      rfl
    cases value <;> exact congrArg some hRead
  | field access ref =>
    have hRead : (fieldRef line.number ref.words >>= fun ref => pure (.field access ref)) =
        .ok (Instruction.field access ref) := by
      rw [fieldRef_words hInsn.1 hInsn.2]
      rfl
    cases access <;> exact congrArg some hRead
  | invoke kind method =>
    cases kind <;> exact congrArg some (Spells.make hInsn (Instruction.invoke _) line.number)
  | invokeDynamic call =>
    exact congrArg some (Spells.make hInsn Instruction.invokeDynamic line.number)
  | newObject name =>
    exact congrArg some (Spells.make hInsn Instruction.newObject line.number)
  | newArray type =>
    refine congrArg some ?_
    cases type <;> rfl
  | newRefArray type =>
    exact congrArg some (Spells.make hInsn Instruction.newRefArray line.number)
  | checkCast type =>
    exact congrArg some (Spells.make hInsn Instruction.checkCast line.number)
  | instanceOf type =>
    exact congrArg some (Spells.make hInsn Instruction.instanceOf line.number)
  | newMultiArray type dimensions =>
    refine congrArg some ?_
    show (refType line.number _ >>= fun type => _) = _
    rw [hInsn.1.reads]
    exact Spells.make hInsn.2 (Instruction.newMultiArray type) line.number
  | _ => exact absurd rfl hOperands

theorem instruction?_string {value : String} {line : Line}
    (hLine : line.text = lineText ["ldc", quoted value]) {word : String}
    (hWord : word.toList.head? = some '"') (operands : List String) :
    instruction? line "ldc" (word :: operands) = some (.ok (.constant (.string value))) := by
  have hRead : constant line (word :: operands) = .ok (.string value) := by
    simp only [constant, List.head?_cons, Option.bind_some, hWord, if_true,
      stringConstant_quoted hLine, ok_bind]
    rfl
  have hMade : (constant line (word :: operands) >>= fun value => pure (.constant value)) =
      .ok (Instruction.constant (.string value)) := by
    rw [hRead]
    rfl
  exact (instruction?_cons (by decide) line word operands).trans (congrArg some hMade)

/- The words of an instruction that loads no string can stand in a line. -/
theorem clean_operands (hInsn : insn.Listable)
    (hOther : ∀ text, insn ≠ .constant (.string text)) :
    ∀ word ∈ insn.operands, Clean word := by
  cases insn with
  | pushByte | pushShort | load | store | invoke | invokeDynamic | newObject | newRefArray
  | checkCast | instanceOf => exact List.forall_mem_singleton.mpr hInsn.clean
  | increment | field | newMultiArray =>
    exact List.forall_mem_cons.mpr
      ⟨hInsn.1.clean, List.forall_mem_singleton.mpr hInsn.2.clean⟩
  | newArray type =>
    refine List.forall_mem_singleton.mpr ?_
    cases type <;> decide
  | constant value =>
    cases value with
    | string text => exact absurd rfl (hOther text)
    | _ =>
      exact List.forall_mem_cons.mpr
        ⟨by decide, List.forall_mem_singleton.mpr hInsn.clean⟩
  | _ => exact fun _ hWord => nomatch hWord

-- Mnemonics

/- The words that start lines of other kinds. -/
def reserved : List String :=
  ["maxs", "line", "local", "catch", "frame", "end"]

/- A word that starts the line of an instruction or branch. -/
def Leads (word : String) : Prop :=
  Clean word ∧ word ∉ reserved ∧ word.toList.getLast? ≠ some ':'

instance (word : String) : Decidable (Leads word) :=
  inferInstanceAs (Decidable (_ ∧ _ ∧ _))

theorem leads_operandMnemonics : ∀ mnemonic ∈ operandMnemonics, Leads mnemonic := by
  decide +kernel

theorem leads_bare : ∀ insn ∈ Instruction.bare, Leads insn.mnemonic := by
  decide +kernel

theorem leads_mnemonic (insn : Instruction) : Leads insn.mnemonic := by
  by_cases hOperands : insn.operands = []
  · exact leads_bare insn (mem_bare hOperands)
  · exact leads_operandMnemonics _ (mem_operandMnemonics hOperands)

end Listing

end Unboxing
