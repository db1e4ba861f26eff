import Unboxing.Listing.Body
import Unboxing.Proofs.ListingInstructions

/-
  The elements of a method body in a listing: frames, branches,
  instructions, debug entries and handlers. What is read can be
  written, and what can be written is read back from its line.

  Main declarations:
    * `Node.Listable`
    * `Handler.Listable`
    * `Listing.Rereads`
    * `Listing.rereads_node`
    * `Listing.rereads_variable`
    * `Listing.rereads_handler`
-/

namespace Unboxing

open List Listing Reading Text

-- Frames

/- The words that name a type in a frame by themselves. -/
def FrameType.keywords : List String :=
  ["top", "int", "float", "long", "double", "null", "uninit_this"]

/- A type in a frame whose word is read as that type. -/
def FrameType.Listable : FrameType → Prop
  | .object type =>
    Spells refType (String.ofList type.operand) type ∧
      String.ofList type.operand ∉ FrameType.keywords ∧
      ¬"uninit:".toList.isPrefixOf (String.ofList type.operand).toList = true
  | .uninitialized origin => origin.Valid
  | _ => True

/- A frame whose words are read as that frame. -/
def FrameChange.Listable : FrameChange → Prop
  | .same => True
  | .sameOne entry => entry.Listable
  | .chop count => Spells (number Numeral.word64?) (toString count) count
  | .append locals => locals ≠ [] ∧ ∀ type ∈ locals, type.Listable
  | .full locals stack =>
    (∀ type ∈ locals, type.Listable ∧ type.word ≠ "|") ∧ ∀ type ∈ stack, type.Listable

namespace Listing

variable {word : String} {words : List String}

/- What is left of the reading of a type that is no keyword. -/
theorem frameType_other (hWord : word ∉ FrameType.keywords) (line : Nat) :
    frameType line word = if "uninit:".toList.isPrefixOf word.toList then do
        let origin ← label (String.ofList (word.toList.drop 7))
        return .uninitialized origin
      else do
        let type ← refType line word
        return .object type := by
  unfold frameType
  split
  case h_8 => rfl
  all_goals exact absurd (by decide) hWord

theorem toList_uninitialized (origin : Label) :
    (FrameType.uninitialized origin).word.toList = "uninit:".toList ++ origin.text.toList := by
  have hWord : (FrameType.uninitialized origin).word = "uninit:" ++ origin.text := rfl
  rw [hWord, String.toList_append]

theorem yields_frameType (hWord : IsWord word.toList) (line : Nat) :
    Yields (frameType line word) fun type =>
      type.Listable ∧ (type.word = "|" → word = "|") := by
  by_cases hKeyword : word ∈ FrameType.keywords
  · simp only [FrameType.keywords, mem_cons, not_mem_nil, or_false] at hKeyword
    rcases hKeyword with rfl | rfl | rfl | rfl | rfl | rfl | rfl <;>
      exact yields_pure ⟨trivial, by decide⟩
  · rw [frameType_other hKeyword]
    split
    case isTrue =>
      refine yields_bind (yields_label _) ?_
      intro origin hOrigin
      refine yields_pure ⟨hOrigin, ?_⟩
      intro hBar
      have hChars := toList_uninitialized origin
      rw [hBar] at hChars
      cases (List.cons.inj hChars).1
    case isFalse hPrefix =>
      refine yields_bind (yields_lift fun type hType => hType) ?_
      intro type hType
      have hText := RefType.text_of_parseOperand (parse_of_descriptor hType)
      have hSame : String.ofList type.operand = word := by rw [hText, String.ofList_toList]
      refine yields_pure ⟨⟨spells_of_refType hWord hType, hSame ▸ hKeyword, ?_⟩, ?_⟩
      · rw [hSame]
        exact hPrefix
      · exact fun hBar => hSame ▸ hBar

theorem yields_frameTypes (hWords : ∀ word ∈ words, IsWord word.toList) (line : Nat) :
    Yields (frameTypes line words) fun types =>
      types.length = words.length ∧
        ∀ type ∈ types, type.Listable ∧ (type.word = "|" → "|" ∈ words) := by
  induction words with
  | nil => exact yields_pure ⟨rfl, fun _ hType => nomatch hType⟩
  | cons word words ih =>
    have hRest := ih (forall_mem_cons.mp hWords).2
    refine yields_bind (yields_frameType (hWords word mem_cons_self) line) ?_
    intro type hType
    refine yields_bind hRest ?_
    intro types hTypes
    refine yields_pure ⟨congrArg (· + 1) hTypes.1, forall_mem_cons.mpr
      ⟨⟨hType.1, fun hBar => hType.2 hBar ▸ mem_cons_self⟩, fun other hLater => ?_⟩⟩
    exact (hTypes.2 other hLater).imp_right fun hWord hBar => mem_cons_of_mem _ (hWord hBar)

theorem yields_frame (hWords : ∀ word ∈ words, IsWord word.toList) (line : Nat) :
    Yields (frame line words) FrameChange.Listable := by
  unfold frame
  split
  case h_1 => exact yields_pure trivial
  case h_2 word =>
    refine yields_bind (yields_frameType (hWords word (by simp)) line) ?_
    exact fun type hType => yields_pure hType.1
  case h_3 word =>
    refine yields_bind (yields_lift fun count hCount => hCount) ?_
    exact fun count hCount => yields_pure (spells_of_unsigned hCount)
  case h_4 word words =>
    refine yields_bind (yields_frameTypes (forall_mem_cons.mp hWords).2 line) ?_
    intro types hTypes
    refine yields_pure ⟨?_, fun type hType => (hTypes.2 type hType).1⟩
    exact ne_nil_of_length_pos (by rw [hTypes.1]; exact Nat.succ_pos _)
  case h_5 words =>
    have hOthers := (forall_mem_cons.mp hWords).2
    refine yields_bind (yields_frameTypes
      (fun word hWord => hOthers word ((takeWhile_sublist _).mem hWord)) line) ?_
    intro locals hLocals
    refine yields_bind (yields_frameTypes
      (fun word hWord =>
        hOthers word ((dropWhile_sublist _).mem (mem_of_mem_drop hWord))) line) ?_
    intro stack hStack
    refine yields_pure ⟨?_, fun type hType => (hStack.2 type hType).1⟩
    intro type hType
    refine ⟨(hLocals.2 type hType).1, ?_⟩
    intro hBar
    have hMem := (hLocals.2 type hType).2 hBar
    simpa using all_eq_true.mp all_takeWhile _ hMem
  case h_6 => exact yields_lift nofun

theorem reads_frameType {type : FrameType} (hType : type.Listable) (line : Nat) :
    Reads (frameType line type.word) type := by
  cases type with
  | object type =>
    rcases hType with ⟨hSpells, hKeyword, hPrefix⟩
    rw [FrameType.word, frameType_other hKeyword, if_neg hPrefix]
    exact reads_bind (reads_lift (hSpells.reads line)) (reads_pure _)
  | uninitialized origin =>
    have hPrefix : "uninit:".toList.isPrefixOf (FrameType.uninitialized origin).word.toList =
        true := by
      rw [toList_uninitialized]
      exact isPrefixOf_iff_prefix.mpr (prefix_append _ _)
    have hKeyword : (FrameType.uninitialized origin).word ∉ FrameType.keywords := by
      have hNone : ∀ word ∈ FrameType.keywords, "uninit:".toList.isPrefixOf word.toList = false := by
        decide
      intro hMem
      rw [hNone _ hMem] at hPrefix
      cases hPrefix
    rw [frameType_other hKeyword, if_pos hPrefix, toList_uninitialized]
    have hDrop : ("uninit:".toList ++ origin.text.toList).drop 7 = origin.text.toList := rfl
    rw [hDrop, String.ofList_toList]
    exact reads_bind (reads_label hType) (reads_pure _)
  | _ => exact reads_pure _

theorem reads_frameTypes {types : List FrameType} (hTypes : ∀ type ∈ types, type.Listable)
    (line : Nat) :
    Reads (frameTypes line (types.map FrameType.word)) types := by
  induction types with
  | nil => exact reads_pure _
  | cons type types ih =>
    have hRest := ih (forall_mem_cons.mp hTypes).2
    exact reads_bind (reads_frameType (hTypes type mem_cons_self) line)
      (reads_bind hRest (reads_pure _))

theorem reads_frame {change : FrameChange} (hChange : change.Listable) (line : Nat) :
    Reads (frame line change.words) change := by
  cases change with
  | same => exact reads_pure _
  | sameOne entry => exact reads_bind (reads_frameType hChange line) (reads_pure _)
  | chop count => exact reads_bind (reads_lift (hChange.reads line)) (reads_pure _)
  | append locals =>
    have hReads := reads_frameTypes hChange.2 line
    cases locals with
    | nil => exact absurd rfl hChange.1
    | cons type locals => exact reads_bind hReads (reads_pure _)
  | full locals stack =>
    have hWords : ∀ word ∈ locals.map FrameType.word, (word != "|") = true :=
      forall_mem_map.mpr fun type hType => by simpa using (hChange.1 type hType).2
    have hLocals := reads_frameTypes (fun type hType => (hChange.1 type hType).1) line
    have hStack := reads_frameTypes hChange.2 line
    simp only [FrameChange.words, frame, takeWhile_append_of_pos hWords,
      dropWhile_append_of_pos hWords]
    cases stack with
    | nil =>
      simp only [isEmpty_nil, if_true, takeWhile_nil, append_nil]
      exact reads_bind hLocals (reads_bind hStack (reads_pure _))
    | cons type stack =>
      simp only [isEmpty_cons, Bool.false_eq_true, if_false, takeWhile_cons,
        dropWhile_cons, bne_self_eq_false, append_nil, drop_succ_cons,
        drop_zero]
      exact reads_bind hLocals (reads_bind hStack (reads_pure _))

end Listing

-- Branches

/- A branch whose operands are read as those operands. -/
def Branch.Listable : Branch → Prop
  | .ifInt _ target
  | .ifInts _ target
  | .ifRefs _ target
  | .ifNull _ target
  | .goto target => target.Valid
  | .tableSwitch default low targets =>
    default.Valid ∧ Spells (number Numeral.int32?) (toString low) low ∧
      ∀ target ∈ targets, target.Valid
  | .lookupSwitch default targets =>
    default.Valid ∧ ∀ entry ∈ targets,
      Spells (number Numeral.int32?) (toString entry.1) entry.1 ∧ entry.2.Valid
  | .ret _ | .throw => True

namespace Listing

variable {mnemonic : String}

theorem yields_labels (names : List String) :
    Yields (labels names) fun found => ∀ label ∈ found, label.Valid := by
  induction names with
  | nil => exact yields_pure fun _ hLabel => nomatch hLabel
  | cons name names ih =>
    refine yields_bind (yields_label name) ?_
    intro first hFirst
    refine yields_bind ih ?_
    intro rest hRest
    exact yields_pure (forall_mem_cons.mpr ⟨hFirst, hRest⟩)

theorem yields_switchPairs (line : Nat) (words : List String) :
    Yields (switchPairs line words) fun found => ∀ entry ∈ found,
      Spells (number Numeral.int32?) (toString entry.1) entry.1 ∧ entry.2.Valid := by
  induction words with
  | nil => exact yields_pure fun _ hEntry => nomatch hEntry
  | cons word words ih =>
    unfold switchPairs
    split
    case h_1 => exact yields_lift nofun
    case h_2 =>
      refine yields_bind (yields_lift fun key hKey => hKey) ?_
      intro key hKey
      refine yields_bind (yields_label _) ?_
      intro target hTarget
      refine yields_bind ih ?_
      intro rest hRest
      exact yields_pure
        (forall_mem_cons.mpr ⟨⟨spells_of_signed (by decide) hKey, hTarget⟩, hRest⟩)

theorem yields_tableSwitch (line : Nat) (operands : List String) :
    Yields (tableSwitch line operands) Branch.Listable := by
  unfold tableSwitch
  split
  case h_1 =>
    refine yields_bind (yields_label _) ?_
    intro default hDefault
    refine yields_bind (yields_lift fun low hLow => hLow) ?_
    intro low hLow
    refine yields_bind (yields_labels _) ?_
    intro targets hTargets
    exact yields_pure ⟨hDefault, spells_of_signed (by decide) hLow, hTargets⟩
  case h_2 => exact yields_lift nofun

theorem yields_lookupSwitch (line : Nat) (operands : List String) :
    Yields (lookupSwitch line operands) Branch.Listable := by
  unfold lookupSwitch
  split
  case h_1 =>
    refine yields_bind (yields_switchPairs line _) ?_
    intro pairs hPairs
    refine yields_bind (yields_label _) ?_
    intro default hDefault
    exact yields_pure ⟨hDefault, hPairs⟩
  case h_2 => exact yields_lift nofun

theorem yields_branch? {line : Nat} {operands : List String} {act : Reading Branch}
    (hBranch : branch? line mnemonic operands = some act) :
    Yields act Branch.Listable := by
  have hJump {make : Label → Branch} (hMake : ∀ label, label.Valid → (make label).Listable) :
      Yields (do
        let word ← single line mnemonic operands
        return make (← label word)) Branch.Listable := by
    refine yields_bind (yields_lift fun word hWord => hWord) ?_
    intro word _
    refine yields_bind (yields_label word) ?_
    exact fun label hLabel => yields_pure (hMake label hLabel)
  unfold branch? at hBranch
  split at hBranch
  case h_1 | h_2 =>
    cases hBranch
    exact hJump fun label hLabel => hLabel
  case h_3 =>
    cases hBranch
    exact yields_pure trivial
  case h_4 =>
    split at hBranch
    case h_7 =>
      cases hBranch
      exact yields_tableSwitch line operands
    case h_8 =>
      cases hBranch
      exact yields_lookupSwitch line operands
    case h_9 | h_10 =>
      cases hBranch
      exact yields_pure trivial
    case h_11 => cases hBranch
    all_goals
      cases hBranch
      exact hJump fun label hLabel => hLabel

theorem reads_labels {targets : List Label}
    (hTargets : ∀ target ∈ targets, target.Valid) :
    Reads (labels (targets.map Label.text)) targets := by
  induction targets with
  | nil => exact reads_pure _
  | cons first rest ih =>
    rcases forall_mem_cons.mp hTargets with ⟨hFirst, hRest⟩
    exact reads_bind (reads_label hFirst) (reads_bind (ih hRest) (reads_pure _))

/- A key and a label, as a switch is written. -/
def pairText (entry : Int × Label) : String :=
  toString entry.1 ++ ":" ++ entry.2.text

theorem not_mem_colon (n : Int) : ':' ∉ (toString n).toList := by
  have hDigits (n : Nat) : ':' ∉ Nat.toDigits 10 n := fun hColon =>
    absurd (Nat.isDigit_of_mem_toDigits (by decide) (by decide) hColon) (by decide)
  rw [Int.toString_eq_repr, Int.repr_eq_if]
  split
  · rw [Nat.toList_repr]
    exact hDigits n.toNat
  · rw [String.toList_append, Nat.toList_repr, mem_append, not_or]
    exact ⟨by decide, hDigits _⟩

theorem reads_switchPairs {targets : List (Int × Label)}
    (hTargets : ∀ entry ∈ targets,
      Spells (number Numeral.int32?) (toString entry.1) entry.1 ∧ entry.2.Valid)
    (line : Nat) :
    Reads (switchPairs line (targets.map pairText)) targets := by
  induction targets with
  | nil => exact reads_pure _
  | cons first rest ih =>
    rcases forall_mem_cons.mp hTargets with ⟨hFirst, hRest⟩
    have hCut : cutFirst? ':' (pairText first).toList =
        some ((toString first.1).toList, first.2.text.toList) := by
      have hText : (pairText first).toList =
          (toString first.1).toList ++ ':' :: first.2.text.toList := by
        simp [pairText]
      rw [hText]
      exact cutFirst?_append (not_mem_colon first.1) _
    rw [map_cons, switchPairs, hCut]
    simp only [String.ofList_toList]
    exact reads_bind (reads_lift (hFirst.1.reads line))
      (reads_bind (reads_label hFirst.2) (reads_bind (ih hRest) (reads_pure _)))

theorem cutDefault?_append (words : List String) (default : String) :
    cutDefault? (words ++ ["default", default]) = some (words, default) := by
  simp [cutDefault?]

/- The mnemonics of branches. -/
def branchMnemonics : List String :=
  [ "ifeq", "ifge", "ifgt", "ifle", "iflt", "ifne",
    "if_icmpeq", "if_icmpge", "if_icmpgt", "if_icmple", "if_icmplt", "if_icmpne",
    "if_acmpeq", "if_acmpne", "ifnull", "ifnonnull", "goto", "tableswitch", "lookupswitch",
    "ireturn", "lreturn", "freturn", "dreturn", "areturn", "return", "athrow" ]

theorem mem_branchMnemonics (branch : Branch) : branch.mnemonic ∈ branchMnemonics := by
  cases branch with
  | ifInt test | ifInts test | ifRefs test =>
    rw [Branch.mnemonic]
    cases test <;> decide
  | ifNull test =>
    cases test with
    | eq => exact (show "ifnull" ∈ branchMnemonics by decide)
    | ne => exact (show "ifnonnull" ∈ branchMnemonics by decide)
  | ret kind =>
    cases kind with
    | none => decide
    | some kind => cases kind <;> decide
  | _ =>
    rw [Branch.mnemonic]
    decide

theorem leads_branchMnemonics : ∀ mnemonic ∈ branchMnemonics, Leads mnemonic := by
  decide +kernel

/- A branch is not taken for another instruction. -/
theorem instruction?_branch (line : Line) (hMnemonic : mnemonic ∈ branchMnemonics)
    (operands : List String) :
    instruction? line mnemonic operands = none := by
  have hCases : ∀ mnemonic ∈ branchMnemonics, instruction? line mnemonic operands = none := by
    simp only [branchMnemonics, forall_mem_cons, not_mem_nil, false_imp_iff,
      implies_true, and_true]
    and_intros <;> rfl
  exact hCases mnemonic hMnemonic

theorem reads_branch? {branch : Branch} (hBranch : branch.Listable) (line : Nat) :
    ∃ act, branch? line branch.mnemonic branch.operands = some act ∧ Reads act branch := by
  have hJump (mnemonic : String) (make : Label → Branch) {target : Label}
      (hTarget : target.Valid) :
      Reads (do
        let word ← single line mnemonic [target.text]
        return make (← label word)) (make target) :=
    reads_bind (reads_lift rfl) (reads_bind (reads_label hTarget) (reads_pure _))
  cases branch with
  | ifInt test target => cases test <;> exact ⟨_, rfl, hJump _ _ hBranch⟩
  | ifInts test target => cases test <;> exact ⟨_, rfl, hJump _ _ hBranch⟩
  | ifRefs test target | ifNull test target => cases test <;> exact ⟨_, rfl, hJump _ _ hBranch⟩
  | goto target => exact ⟨_, rfl, hJump _ _ hBranch⟩
  | tableSwitch default low targets =>
    refine ⟨_, rfl, ?_⟩
    have hCut := cutDefault?_append (toString low :: targets.map Label.text) default.text
    simp only [Branch.operands, tableSwitch]
    rw [← cons_append, hCut]
    exact reads_bind (reads_label hBranch.1) (reads_bind (reads_lift (hBranch.2.1.reads line))
      (reads_bind (reads_labels hBranch.2.2) (reads_pure _)))
  | lookupSwitch default targets =>
    refine ⟨_, rfl, ?_⟩
    have hCut := cutDefault?_append (targets.map pairText) default.text
    show Reads (lookupSwitch line (targets.map pairText ++ ["default", default.text])) _
    rw [lookupSwitch, hCut]
    exact reads_bind (reads_switchPairs hBranch.2 line)
      (reads_bind (reads_label hBranch.1) (reads_pure _))
  | ret kind =>
    cases kind with
    | none => exact ⟨_, rfl, reads_pure _⟩
    | some kind => cases kind <;> exact ⟨_, rfl, reads_pure _⟩
  | throw => exact ⟨_, rfl, reads_pure _⟩

end Listing

-- Elements of a body

/- An element of a body whose line is read as that element. -/
def Node.Listable : Node → Prop
  | .insn i => i.Listable
  | .branch b => b.Listable
  | .label l => l.Valid
  | .line n => Spells (number Numeral.word32?) (toString n) n
  | .frame change => change.Listable

/- A debug entry whose line is read as that entry. -/
structure Variable.Listable (entry : Variable) : Prop where
  isWord : IsWord entry.name.toList
  uncommented : stripComment entry.name.toList = entry.name.toList
  type : Spells fieldType (String.ofList entry.type.render) entry.type
  start : entry.start.Valid
  stop : entry.stop.Valid
  slot : Spells (number Numeral.word16?) (toString entry.slot) entry.slot

/- A handler whose line is read as that handler. -/
structure Handler.Listable (entry : Handler) : Prop where
  start : entry.start.Valid
  stop : entry.stop.Valid
  target : entry.target.Valid
  caught : ∀ name ∈ entry.caught, Spells className name.text name

namespace Listing

variable {mnemonic : String} {operands words : List String} {line : Line}
variable {found : Node}

theorem yields_node (hWords : ∀ word ∈ operands, IsWord word.toList) :
    Yields (node line mnemonic operands) fun found =>
      found.Listable ∧ ∀ label, found ≠ .label label := by
  unfold node
  split
  case h_1 act hInsn =>
    refine yields_bind (yields_lift fun insn hRead => hRead) ?_
    intro insn hRead
    rw [hRead] at hInsn
    exact yields_pure ⟨listable_of_instruction? hWords hInsn, fun _ => nofun⟩
  case h_2 =>
    split
    case h_1 act hBranch =>
      refine yields_bind (yields_branch? hBranch) ?_
      intro branch hListable
      exact yields_pure ⟨hListable, fun _ => nofun⟩
    case h_2 =>
      split
      · intro scope found after _ hRun
        cases hRun
      · exact yields_lift nofun

theorem yields_debugEntry (hWords : ∀ word ∈ words, IsWord word.toList)
    (hName : ∀ name ∈ words.head?, stripComment name.toList = name.toList) (line : Nat) :
    Yields (debugEntry line words) Variable.Listable := by
  unfold debugEntry
  split
  case h_1 name type start stop slot =>
    refine yields_bind (yields_lift fun found hType => hType) ?_
    intro found hType
    refine yields_bind (yields_label _) ?_
    intro start hStart
    refine yields_bind (yields_label _) ?_
    intro stop hStop
    refine yields_bind (yields_lift fun slot hSlot => hSlot) ?_
    intro slot hSlot
    exact yields_pure ⟨hWords name (by simp), hName name rfl,
      spells_of_fieldType (hWords type (by simp)) hType, hStart, hStop, spells_of_unsigned hSlot⟩
  case h_2 => exact yields_lift nofun

theorem yields_handler (hWords : ∀ word ∈ words, IsWord word.toList) (line : Nat) :
    Yields (handler line words) Handler.Listable := by
  unfold handler
  split
  case h_1 =>
    refine yields_bind (yields_label _) ?_
    intro start hStart
    refine yields_bind (yields_label _) ?_
    intro stop hStop
    refine yields_bind (yields_label _) ?_
    intro target hTarget
    exact yields_pure ⟨hStart, hStop, hTarget, fun _ => nofun⟩
  case h_2 _ _ _ word =>
    refine yields_bind (yields_lift fun name hName => hName) ?_
    intro name hName
    refine yields_bind (yields_label _) ?_
    intro start hStart
    refine yields_bind (yields_label _) ?_
    intro stop hStop
    refine yields_bind (yields_label _) ?_
    intro target hTarget
    refine yields_pure ⟨hStart, hStop, hTarget, ?_⟩
    rintro _ ⟨rfl⟩
    exact spells_of_className (hWords word (by simp)) hName
  case h_3 => exact yields_lift nofun

-- Lines of a body

/- A line of words that changes a body in one way, whatever its number. -/
structure Rereads (words : List String) (update : Body → Body) : Prop where
  kept : Kept (lineText words)
  inner : lineText words ≠ "end".toList
  reads : ∀ line : Line, line.text = lineText words →
    ∀ body, Reads (bodyLine body line) (update body)

/- A line of words that are not just `end` does not end a body. -/
theorem lineText_ne_end (hWords : ∀ word ∈ words, IsWord word.toList)
    (hEnd : words ≠ ["end"]) :
    lineText words ≠ "end".toList := by
  intro hText
  have hLine : (⟨0, "end".toList⟩ : Line).words = words := words_lineText hWords hText.symm
  have hWord : (⟨0, "end".toList⟩ : Line).words = ["end"] := by decide
  exact hEnd (hLine.symm.trans hWord)

theorem rereads_of_clean {update : Body → Body} (hNonempty : words ≠ [])
    (hWords : ∀ word ∈ words, Clean word) (hEnd : words ≠ ["end"])
    (hReads : ∀ line : Line, line.words = words →
      ∀ body, Reads (bodyLine body line) (update body)) :
    Rereads words update where
  kept := kept_lineText hNonempty hWords
  inner := lineText_ne_end (fun word hWord => (hWords word hWord).isWord) hEnd
  reads line hLine :=
    hReads line (words_lineText (fun word hWord => (hWords word hWord).isWord) hLine)

theorem rereads_maxs {stack locals : Nat}
    (hStack : Spells (number Numeral.word16?) (toString stack) stack)
    (hLocals : Spells (number Numeral.word16?) (toString locals) locals) :
    Rereads ["maxs", toString stack, toString locals]
      (fun body => { body with maxStack := stack, maxLocals := locals }) := by
  refine rereads_of_clean (by simp) ?_ (by simp) ?_
  · simp only [forall_mem_cons, hStack.clean, hLocals.clean, true_and]
    exact ⟨by decide, fun _ => nofun⟩
  · intro line hLine body
    simp only [bodyLine, hLine, definedName?]
    exact reads_bind (reads_lift (hStack.reads _))
      (reads_bind (reads_lift (hLocals.reads _)) (reads_pure _))

/- The line of a node is none of the other kinds. -/
theorem bodyLine_leads (hLine : line.words = mnemonic :: operands)
    (hLeads : Leads mnemonic) (body : Body) :
    bodyLine body line = (do return addNode body (← node line mnemonic operands)) := by
  have hName : definedName? (mnemonic :: operands) = none := by
    cases operands with
    | cons word operands => rfl
    | nil =>
      simp only [definedName?]
      split
      case h_1 name hColon =>
        have hLast := hLeads.2.2
        rw [← head?_reverse, hColon] at hLast
        exact absurd rfl hLast
      case h_2 => rfl
  simp only [bodyLine, hLine, hName]
  split
  case h_1 hWords => cases hWords
  case h_9 hWords =>
    cases hWords
    rfl
  all_goals
    rename_i hWords
    cases hWords
    exact absurd (by decide) hLeads.2.1

theorem clean_frameType {type : FrameType} (hType : type.Listable) :
    Clean type.word := by
  cases type with
  | object type => exact hType.1.clean
  | uninitialized origin =>
    refine clean_of_all ?_ ?_
    · rw [toList_uninitialized]
      simp
    · rw [toList_uninitialized, all_append, origin.all_text]
      decide
  | _ =>
    rw [FrameType.word]
    decide

theorem clean_frame {change : FrameChange} (hChange : change.Listable) :
    ∀ word ∈ change.words, Clean word := by
  have hTypes {types : List FrameType} (hAll : ∀ type ∈ types, type.Listable) :
      ∀ word ∈ types.map FrameType.word, Clean word :=
    forall_mem_map.mpr fun type hType => clean_frameType (hAll type hType)
  cases change with
  | same => decide
  | sameOne entry =>
    exact forall_mem_cons.mpr
      ⟨by decide, forall_mem_singleton.mpr (clean_frameType hChange)⟩
  | chop count =>
    exact forall_mem_cons.mpr ⟨by decide, forall_mem_singleton.mpr hChange.clean⟩
  | append locals => exact forall_mem_cons.mpr ⟨by decide, hTypes hChange.2⟩
  | full locals stack =>
    have hLocals := hTypes fun type hType => (hChange.1 type hType).1
    refine forall_mem_cons.mpr ⟨by decide, forall_mem_append.mpr ⟨hLocals, ?_⟩⟩
    split
    · exact fun _ => nofun
    · exact forall_mem_cons.mpr ⟨by decide, hTypes hChange.2⟩

theorem clean_branch {branch : Branch} (hBranch : branch.Listable) :
    ∀ word ∈ branch.operands, Clean word := by
  have hDefault (default : Label) : ∀ word ∈ ["default", default.text], Clean word :=
    forall_mem_cons.mpr ⟨by decide, forall_mem_singleton.mpr default.clean_text⟩
  cases branch with
  | ifInt _ target | ifInts _ target | ifRefs _ target | ifNull _ target | goto target =>
    exact forall_mem_singleton.mpr target.clean_text
  | tableSwitch default low targets =>
    refine forall_mem_cons.mpr
      ⟨hBranch.2.1.clean, forall_mem_append.mpr ⟨?_, hDefault default⟩⟩
    exact forall_mem_map.mpr fun target _ => target.clean_text
  | lookupSwitch default targets =>
    refine forall_mem_append.mpr
      ⟨forall_mem_map.mpr fun entry _ => ?_, hDefault default⟩
    have hAll : (pairText entry).toList.all isPlainChar = true := by
      rw [pairText, String.toList_append, String.toList_append, all_append,
        all_append, all_toString_int, entry.2.all_text]
      decide
    have hNonempty : (pairText entry).toList ≠ [] := by simp [pairText]
    exact clean_of_all hNonempty hAll
  | ret | throw => exact fun _ => nofun

/- The words of a node that starts with its mnemonic. -/
theorem rereads_leads (hLeads : Leads mnemonic)
    (hOperands : ∀ word ∈ operands, Clean word)
    (hReads : ∀ line, Reads (node line mnemonic operands) found) :
    Rereads (mnemonic :: operands) (addNode · found) := by
  refine rereads_of_clean (by simp) (forall_mem_cons.mpr ⟨hLeads.1, hOperands⟩) ?_ ?_
  · intro hEnd
    cases hEnd
    exact hLeads.2.1 (by decide)
  · intro line hLine body
    rw [bodyLine_leads hLine hLeads]
    exact reads_bind (hReads line) (reads_pure _)

theorem rereads_string (value : String) :
    Rereads ["ldc", quoted value] (addNode · (.insn (.constant (.string value)))) where
  kept := kept_string value
  inner := by
    rw [lineText_string]
    simp
  reads := by
    intro line hLine body
    rcases words_string hLine with ⟨word, operands, hWords, hWord⟩
    rw [bodyLine_leads hWords (by decide), node, instruction?_string hLine hWord]
    exact reads_bind (reads_bind (reads_lift rfl) (reads_pure _)) (reads_pure _)

/- A node that can be written is read back from its line; labels are apart. -/
theorem rereads_node (hNode : found.Listable) (hLabel : ∀ label, found ≠ .label label) :
    Rereads found.words (addNode · found) := by
  cases found with
  | insn insn =>
    by_cases hString : ∃ value, insn = .constant (.string value)
    · rcases hString with ⟨value, rfl⟩
      exact rereads_string value
    · have hOther : ∀ value, insn ≠ .constant (.string value) :=
        fun value hSame => hString ⟨value, hSame⟩
      refine rereads_leads (leads_mnemonic insn) (clean_operands hNode hOther) ?_
      intro line
      rw [node, instruction?_operands hNode hOther]
      exact reads_bind (reads_lift rfl) (reads_pure _)
  | branch branch =>
    have hMnemonic := mem_branchMnemonics branch
    refine rereads_leads (leads_branchMnemonics _ hMnemonic) (clean_branch hNode) ?_
    intro line
    rcases reads_branch? hNode line.number with ⟨act, hAct, hReads⟩
    rw [node, instruction?_branch line hMnemonic, hAct]
    exact reads_bind hReads (reads_pure _)
  | label label => exact absurd rfl (hLabel label)
  | line n =>
    refine rereads_of_clean (by simp [Node.words]) ?_ (by simp [Node.words]) ?_
    · exact forall_mem_cons.mpr ⟨by decide, forall_mem_singleton.mpr hNode.clean⟩
    · intro line hLine body
      simp only [bodyLine, hLine, Node.words, definedName?]
      exact reads_bind (reads_lift (hNode.reads _)) (reads_pure _)
  | frame change =>
    refine rereads_of_clean (by simp [Node.words]) ?_ (by simp [Node.words]) ?_
    · exact forall_mem_cons.mpr ⟨by decide, clean_frame hNode⟩
    · intro line hLine body
      have hWords : ∃ word words, change.words = word :: words := by
        cases change <;> exact ⟨_, _, rfl⟩
      rcases hWords with ⟨word, words, hWords⟩
      have hReads := reads_frame hNode line.number
      simp only [Node.words, hWords] at hLine
      simp only [bodyLine, hLine, definedName?]
      rw [hWords] at hReads
      exact reads_bind hReads (reads_pure _)

/- The line of a local, whose name may be any word that starts no comment. -/
theorem rereads_variable {entry : Variable} (hEntry : entry.Listable) :
    Rereads entry.words (fun body => { body with vars := body.vars ++ [entry] }) := by
  have hRest : ∀ word ∈ [String.ofList entry.type.render, entry.start.text, entry.stop.text,
      toString entry.slot], Clean word := by
    simp only [forall_mem_cons, hEntry.type.clean, hEntry.slot.clean, Label.clean_text,
      true_and]
    exact fun _ => nofun
  have hWords : ∀ word ∈ entry.words, IsWord word.toList := by
    refine forall_mem_cons.mpr ⟨(by decide : Clean "local").isWord, ?_⟩
    exact forall_mem_cons.mpr ⟨hEntry.isWord, fun word hWord => (hRest word hWord).isWord⟩
  have hUncommented : stripComment (lineText entry.words) = lineText entry.words := by
    have hTail : slashless (' ' :: lineText [String.ofList entry.type.render, entry.start.text,
        entry.stop.text, toString entry.slot]) = true := by
      rw [slashless_cons (by decide)]
      exact slashless_lineText hRest
    have hName := stripCommentFrom_append hEntry.uncommented hTail (by simp)
    rw [Variable.words, lineText_cons_cons, lineText_cons_cons, ← singleton_append,
      ← append_assoc, stripComment_append (by decide), stripComment, hName]
  refine ⟨kept_of_uncommented (cons_ne_nil _ _) hWords hUncommented,
    lineText_ne_end hWords (by simp [Variable.words]), ?_⟩
  intro line hLine body
  simp only [bodyLine, words_lineText hWords hLine, Variable.words, definedName?]
  exact reads_bind (reads_bind (reads_lift (hEntry.type.reads _))
    (reads_bind (reads_label hEntry.start) (reads_bind (reads_label hEntry.stop)
      (reads_bind (reads_lift (hEntry.slot.reads _)) (reads_pure _))))) (reads_pure _)

theorem rereads_handler {entry : Handler} (hEntry : entry.Listable) :
    Rereads entry.words (fun body => { body with handlers := body.handlers ++ [entry] }) := by
  have hCaught : ∀ word ∈ (entry.caught.map ClassName.text).toList, Clean word := by
    intro word hWord
    rcases Option.map_eq_some_iff.mp (Option.mem_toList.mp hWord) with ⟨name, hName, rfl⟩
    exact (hEntry.caught name hName).clean
  refine rereads_of_clean (by simp [Handler.words]) ?_ (by simp [Handler.words]) ?_
  · refine forall_mem_append.mpr ⟨?_, hCaught⟩
    simp only [forall_mem_cons, Label.clean_text, true_and]
    exact ⟨by decide, fun _ => nofun⟩
  · intro line hLine body
    simp only [bodyLine, hLine, Handler.words, cons_append, nil_append, definedName?]
    refine reads_bind ?_ (reads_pure _)
    rcases entry with ⟨start, stop, target, caught⟩
    cases caught with
    | none =>
      exact reads_bind (reads_label hEntry.start) (reads_bind (reads_label hEntry.stop)
        (reads_bind (reads_label hEntry.target) (reads_pure _)))
    | some name =>
      exact reads_bind (reads_lift ((hEntry.caught name rfl).reads _))
        (reads_bind (reads_label hEntry.start) (reads_bind (reads_label hEntry.stop)
          (reads_bind (reads_label hEntry.target) (reads_pure _))))

end Listing

end Unboxing
