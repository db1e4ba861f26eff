import Unboxing.Listing.Operand
import Unboxing.Listing.Printer
import Unboxing.Proofs.DecimalReading
import Unboxing.Proofs.DescriptorText

/-
  The words of a listing: which words a line can be made of, and
  that the word that is written for a name, a number or a
  descriptor is read as the value it is written for. Whatever
  names of labels a body uses, the labels given to them are
  32-bit labels; and if every label is written by its own name,
  the names are read as those labels.

  Main declarations:
    * `Listing.Clean`
    * `Listing.Spells`
    * `Listing.spells_member`
    * `Listing.Scope.Canonical`
    * `Listing.Yields`
    * `Listing.Reads`
-/

namespace Unboxing

open List

namespace Listing

open Text

variable {words : List String} {word : String} {α β : Type} {bound n line : Nat}
variable {name : MemberName} {c : Char} {act : Except Error α} {result : β}
variable {value : α} {text : List Char}
variable {parse : String → Except DescriptorError α} {type : MethodType}
variable {owner : ClassName}

-- Lines made of words

/- A word that can stand anywhere in a line: it starts no comment. -/
structure Clean (word : String) : Prop where
  isWord : IsWord word.toList
  slashless : slashless word.toList = true

instance (word : String) : Decidable (Clean word) :=
  decidable_of_iff
    ((word.toList ≠ [] ∧ ∀ c ∈ word.toList, isBlank c = false) ∧ Text.slashless word.toList = true)
    ⟨fun h => ⟨⟨h.1.1, h.1.2⟩, h.2⟩, fun h => ⟨⟨h.isWord.1, h.isWord.2⟩, h.slashless⟩⟩

/- The text of a line of words, as a listing writes it. -/
def lineText (words : List String) : List Char :=
  (" ".intercalate words).toList

theorem lineText_eq (words : List String) :
    lineText words = List.intercalate [' '] (words.map String.toList) :=
  String.toList_intercalate

theorem lineText_cons_cons (first second : String) (words : List String) :
    lineText (first :: second :: words) = first.toList ++ ' ' :: lineText (second :: words) := by
  simp [lineText_eq, intercalate_cons_cons]

theorem words_lineText (hWords : ∀ word ∈ words, IsWord word.toList) {line : Line}
    (hLine : line.text = lineText words) :
    line.words = words := by
  rw [Line.words, hLine, lineText_eq, words_intercalate (forall_mem_map.mpr hWords),
    map_map]
  have hBack : String.ofList ∘ String.toList = id := funext fun _ => String.ofList_toList
  rw [hBack, map_id]

theorem mem_lineText (hChar : c ∈ lineText words) :
    c = ' ' ∨ ∃ word ∈ words, c ∈ word.toList := by
  induction words with
  | nil => cases hChar
  | cons first words ih =>
    cases words with
    | nil =>
      rw [lineText_eq] at hChar
      exact Or.inr ⟨first, mem_singleton_self _, by simpa using hChar⟩
    | cons second words =>
      rw [lineText_cons_cons, mem_append, mem_cons] at hChar
      rcases hChar with hFirst | hSpace | hRest
      · exact Or.inr ⟨first, mem_cons_self, hFirst⟩
      · exact Or.inl hSpace
      · rcases ih hRest with hSpace | ⟨word, hWord, hIn⟩
        · exact Or.inl hSpace
        · exact Or.inr ⟨word, mem_cons_of_mem _ hWord, hIn⟩

theorem head?_lineText {first : String} (hFirst : first.toList ≠ [])
    (words : List String) :
    (lineText (first :: words)).head? = first.toList.head? := by
  cases words with
  | nil => simp [lineText_eq]
  | cons second words =>
    rw [lineText_cons_cons, head?_append]
    cases hText : first.toList with
    | nil => exact absurd hText hFirst
    | cons c text => rfl

theorem getLast?_lineText {last : String} (hLast : last.toList ≠ [])
    (words : List String) :
    (lineText (words ++ [last])).getLast? = last.toList.getLast? := by
  induction words with
  | nil => simp [lineText_eq]
  | cons first words ih =>
    rcases hRest : words ++ [last] with _ | ⟨second, rest⟩
    · simp at hRest
    · rw [cons_append, hRest, lineText_cons_cons, getLast?_append,
        getLast?_cons, ← hRest, ih]
      cases hText : last.toList.getLast? with
      | none => exact absurd (getLast?_eq_none_iff.mp hText) hLast
      | some c => rfl

/- A line of words that has no comment survives as it is. -/
theorem kept_of_uncommented (hNonempty : words ≠ [])
    (hWords : ∀ word ∈ words, IsWord word.toList)
    (hUncommented : stripComment (lineText words) = lineText words) :
    Kept (lineText words) where
  nonempty := by
    rcases exists_cons_of_ne_nil hNonempty with ⟨first, rest, rfl⟩
    have hFirst := (hWords first mem_cons_self).nonempty
    intro hEmpty
    have hHead := head?_lineText hFirst rest
    rw [hEmpty] at hHead
    exact hFirst (head?_eq_none_iff.mp hHead.symm)
  unbroken := by
    intro hBreak
    rcases mem_lineText hBreak with hSpace | ⟨word, hWord, hIn⟩
    · exact absurd hSpace (by decide)
    · exact absurd ((hWords word hWord).unblank '\n' hIn) (by decide)
  uncommented := hUncommented
  trimmed := by
    constructor
    · intro c hChar
      rcases exists_cons_of_ne_nil hNonempty with ⟨first, rest, rfl⟩
      have hFirst := hWords first mem_cons_self
      rw [head?_lineText hFirst.nonempty] at hChar
      exact hFirst.unblank c (mem_of_mem_head? hChar)
    · intro c hChar
      have hLast := hWords _ (getLast_mem hNonempty)
      rw [← dropLast_append_getLast hNonempty, getLast?_lineText hLast.nonempty] at hChar
      exact hLast.unblank c (mem_of_getLast? hChar)

theorem slashless_lineText (hWords : ∀ word ∈ words, Clean word) :
    Text.slashless (lineText words) = true := by
  rw [lineText_eq]
  apply slashless_intercalate
  exact forall_mem_map.mpr fun word hWord => (hWords word hWord).slashless

theorem kept_lineText (hNonempty : words ≠ []) (hWords : ∀ word ∈ words, Clean word) :
    Kept (lineText words) :=
  kept_of_uncommented hNonempty (fun word hWord => (hWords word hWord).isWord)
    (stripCommentFrom_slashless (slashless_lineText hWords) false false)

/- The words of a line of a source are words. -/
theorem isWord_of_mem_line {line : Line} (hWord : word ∈ line.words) :
    IsWord word.toList := by
  rcases mem_map.mp hWord with ⟨part, hPart, rfl⟩
  rw [String.toList_ofList]
  exact isWord_of_mem_words hPart

-- Spellings

/- A word that a reader takes for a value at every line. -/
structure Spells {α : Type} (read : Nat → String → Except Error α) (word : String)
    (value : α) : Prop where
  clean : Clean word
  reads : ∀ line, read line word = .ok value

open Reading

@[simp] theorem ok_bind (value : α) (next : α → Except Error β) :
    ((.ok value : Except Error α) >>= next) = next value :=
  rfl

theorem ok_of_bind {next : α → Except Error β} (hBind : (act >>= next) = .ok result) :
    ∃ value, act = .ok value ∧ next value = .ok result := by
  cases act with
  | error fault => cases hBind
  | ok value => exact ⟨value, rfl, hBind⟩

theorem mem_of_lookup {entries : List (String × α)} {name : String}
    (hLookup : entries.lookup name = some value) :
    (name, value) ∈ entries := by
  rcases lookup_eq_some_iff.mp hLookup with ⟨before, after, rfl, _⟩
  exact mem_append_right before mem_cons_self

theorem made_of_ok {make : α → β}
    (hMade : (act >>= fun value => pure (make value)) = .ok result) :
    ∃ value, act = .ok value ∧ make value = result := by
  rcases ok_of_bind hMade with ⟨value, hAct, hPure⟩
  exact ⟨value, hAct, Except.ok.inj hPure⟩

/- A spelled value can be made part of another one. -/
theorem Spells.make {read : Nat → String → Except Error α}
    (hSpells : Spells read word value) (make : α → β) (line : Nat) :
    (read line word >>= fun value => pure (make value)) = .ok (make value) := by
  rw [hSpells.reads]
  rfl

-- Integers

/- A character that neither separates words nor starts a comment. -/
def isPlainChar (c : Char) : Bool :=
  !isBlank c && c != '/'

theorem isPlainChar_of_isDigit (hDigit : c.isDigit = true) : isPlainChar c = true := by
  have hRange : 48 ≤ c.toNat ∧ c.toNat ≤ 57 := by
    simpa [Char.isDigit, UInt32.le_iff_toNat_le] using hDigit
  have hBlank : isBlank c = false := by
    simp only [isBlank, Bool.or_eq_false_iff, Bool.and_eq_false_iff, decide_eq_false_iff_not,
      beq_eq_false_iff_ne]
    omega
  have hSlash : c ≠ '/' := by
    rintro rfl
    exact absurd hRange.1 (by decide)
  simp [isPlainChar, hBlank, hSlash]

theorem clean_of_all (hNonempty : word.toList ≠ [])
    (hChars : word.toList.all isPlainChar = true) :
    Clean word := by
  simp only [all_eq_true, isPlainChar, Bool.and_eq_true, Bool.not_eq_true',
    bne_iff_ne] at hChars
  exact ⟨⟨hNonempty, fun c hChar => (hChars c hChar).1⟩,
    slashless_of_not_mem fun hSlash => (hChars '/' hSlash).2 rfl⟩

theorem toList_toString_nat (n : Nat) : (toString n).toList = Nat.toDigits 10 n := by
  rw [Nat.toString_eq_ofList_toDigits, String.toList_ofList]

theorem all_toDigits (n : Nat) : (Nat.toDigits 10 n).all isPlainChar = true :=
  all_eq_true.mpr fun _ hChar =>
    isPlainChar_of_isDigit (Nat.isDigit_of_mem_toDigits (by decide) (by decide) hChar)

theorem all_toString_int (n : Int) : (toString n).toList.all isPlainChar = true := by
  rw [Int.toString_eq_repr, Int.repr_eq_if]
  split
  case isTrue =>
    rw [Nat.toList_repr]
    exact all_toDigits n.toNat
  case isFalse =>
    rw [String.toList_append, all_append, Nat.toList_repr, all_toDigits, Bool.and_true]
    decide

theorem clean_toString_nat (n : Nat) : Clean (toString n) := by
  refine clean_of_all ?_ ?_
  · rw [toList_toString_nat]
    exact Nat.toDigits_ne_nil
  · rw [toList_toString_nat]
    exact all_toDigits n

theorem clean_toString_int (n : Int) : Clean (toString n) := by
  refine clean_of_all ?_ (all_toString_int n)
  rw [Int.toString_eq_repr, Int.repr_eq_if]
  split
  · rw [Nat.toList_repr]
    exact Nat.toDigits_ne_nil
  · simp

theorem toDigits_eq_cons (n : Nat) :
    ∃ c rest, Nat.toDigits 10 n = c :: rest ∧ c ≠ '-' ∧ c ≠ '+' := by
  rcases hText : Nat.toDigits 10 n with _ | ⟨c, rest⟩
  · exact absurd hText Nat.toDigits_ne_nil
  · have hDigit : c.isDigit = true :=
      Nat.isDigit_of_mem_toDigits (by decide) (by decide) (hText ▸ mem_cons_self)
    exact ⟨c, rest, rfl, Decimal.ne_sign_of_isDigit hDigit⟩

theorem unsigned?_toDigits (hBound : n < bound) :
    Numeral.unsigned? bound (Nat.toDigits 10 n) = some n := by
  have hRead := Numeral.natural?_toDigits n
  rcases toDigits_eq_cons n with ⟨c, rest, hText, _, hPlus⟩
  unfold Numeral.unsigned?
  rw [hText] at hRead ⊢
  split
  · simp_all
  · simp [hRead, hBound]

theorem signed?_toString {n : Int} (hLow : -(bound : Int) ≤ n) (hHigh : n < bound) :
    Numeral.signed? bound (toString n).toList = some n := by
  rw [Int.toString_eq_repr, Int.repr_eq_if]
  split
  case isTrue hPositive =>
    have hRead := Numeral.natural?_toDigits n.toNat
    rcases toDigits_eq_cons n.toNat with ⟨c, rest, hText, hMinus, hPlus⟩
    rw [Nat.toList_repr, hText]
    rw [hText] at hRead
    have hBound : n.toNat < bound := by omega
    unfold Numeral.signed?
    split
    · simp_all
    · simp_all
    · simp [hRead, hBound, Int.toNat_of_nonneg hPositive]
  case isFalse hNegative =>
    have hRead := Numeral.natural?_toDigits (-n).toNat
    rw [String.toList_append, Nat.toList_repr]
    simp only [String.reduceToList, cons_append, nil_append, Numeral.signed?, hRead]
    have hBound : (-n).toNat ≤ bound := by omega
    have hBack : -((-n).toNat : Int) = n := by omega
    simp only [Option.bind_eq_bind, Option.bind_some, if_pos hBound, hBack]

theorem spells_unsigned (hBound : n < bound) :
    Spells (number (Numeral.unsigned? bound)) (toString n) n where
  clean := clean_toString_nat n
  reads := by
    intro line
    rw [number, toList_toString_nat, unsigned?_toDigits hBound]

theorem spells_signed {n : Int} (hLow : -(bound : Int) ≤ n) (hHigh : n < bound) :
    Spells (number (Numeral.signed? bound)) (toString n) n where
  clean := clean_toString_int n
  reads := by
    intro line
    rw [number, signed?_toString hLow hHigh]

theorem lt_of_unsigned? (hRead : Numeral.unsigned? bound text = some n) :
    n < bound := by
  unfold Numeral.unsigned? at hRead
  simp only [Option.bind_eq_bind, Option.bind_eq_some_iff] at hRead
  rcases hRead with ⟨found, _, hFound⟩
  split at hFound
  · cases hFound
    assumption
  · cases hFound

theorem range_of_signed? (hPositive : 0 < bound) {n : Int}
    (hRead : Numeral.signed? bound text = some n) :
    -(bound : Int) ≤ n ∧ n < bound := by
  unfold Numeral.signed? at hRead
  split at hRead <;>
    · simp only [Option.bind_eq_bind, Option.bind_eq_some_iff] at hRead
      rcases hRead with ⟨found, _, hFound⟩
      split at hFound
      · cases hFound
        omega
      · cases hFound

theorem some_of_number {read? : List Char → Option α}
    (hNumber : number read? line word = .ok value) :
    read? word.toList = some value := by
  unfold number at hNumber
  split at hNumber
  · cases hNumber
    assumption
  · cases hNumber

/- An unsigned number is spelled by its digits, however it was written. -/
theorem spells_of_unsigned
    (hNumber : number (Numeral.unsigned? bound) line word = .ok n) :
    Spells (number (Numeral.unsigned? bound)) (toString n) n :=
  spells_unsigned (lt_of_unsigned? (some_of_number hNumber))

theorem spells_of_signed (hPositive : 0 < bound) {n : Int}
    (hNumber : number (Numeral.signed? bound) line word = .ok n) :
    Spells (number (Numeral.signed? bound)) (toString n) n := by
  have hRange := range_of_signed? hPositive (some_of_number hNumber)
  exact spells_signed hRange.1 hRange.2

-- Floating-point numbers

theorem all_positional (d : Decimal) : d.positional.all isPlainChar = true := by
  have hDigits : d.digitChars.all isPlainChar = true := all_toDigits d.digits
  have hZeros (count : Nat) : (List.replicate count '0').all isPlainChar = true := by
    rw [all_replicate]
    split
    · rfl
    · decide
  have hPoint : isPlainChar '.' = true := by decide
  have hZero : isPlainChar '0' = true := by decide
  simp only [Decimal.positional]
  split
  · simp [all_append, hDigits, hZeros, hPoint, hZero]
  · split
    · have hTake (count : Nat) : (d.digitChars.take count).all isPlainChar = true :=
        all_eq_true.mpr fun c hChar =>
          all_eq_true.mp hDigits c (mem_of_mem_take hChar)
      have hDrop (count : Nat) : (d.digitChars.drop count).all isPlainChar = true :=
        all_eq_true.mpr fun c hChar =>
          all_eq_true.mp hDigits c (mem_of_mem_drop hChar)
      simp only [all_append, all_cons, hTake, hDrop, hPoint, Bool.and_true]
    · simp only [all_append, all_cons, all_nil, hDigits, hZeros, hPoint, hZero,
        Bool.and_true]

theorem all_scientific (d : Decimal) : d.scientific.all isPlainChar = true := by
  have hDigits : d.digitChars.all isPlainChar = true := all_toDigits d.digits
  have hPoint : isPlainChar '.' = true := by decide
  have hMark : isPlainChar 'e' = true := by decide
  simp only [Decimal.scientific, all_append, all_cons, all_toString_int, hMark,
    Bool.and_true]
  split
  · simp_all
  · exact hDigits

theorem all_render (format : Binary.Format) (value : Binary.Value) :
    (Decimal.render format value).all isPlainChar = true := by
  cases value with
  | nan =>
    rw [Decimal.render]
    decide
  | infinite negative =>
    rw [Decimal.render]
    cases negative <;> decide
  | finite negative significand exp =>
    have hSign : (if negative then ['-'] else []).all isPlainChar = true := by
      cases negative <;> decide
    simp only [Decimal.render]
    split
    · rw [all_append, hSign]
      decide
    · rw [all_append, hSign]
      split
      · exact all_positional _
      · exact all_scientific _

/- A floating-point number is spelled by the decimal that is written for it. -/
theorem spells_of_decimal {format : Binary.Format} (hFormat : format.Usual)
    {value : Binary.Value}
    (hNumber : number (Decimal.read? format) line word = .ok value) :
    Spells (number (Decimal.read? format)) (String.ofList (Decimal.render format value)) value := by
  have hReadable := Decimal.readable_of_read? hFormat (some_of_number hNumber)
  have hRead := Decimal.read?_render hFormat hReadable
  constructor
  · refine clean_of_all ?_ ?_
    · rw [String.toList_ofList]
      intro hEmpty
      rw [hEmpty] at hRead
      cases hRead
    · rw [String.toList_ofList]
      exact all_render format value
  · intro line
    rw [number, String.toList_ofList, hRead]

-- Names and descriptors

theorem parse_of_className {name : ClassName} (hRead : className line word = .ok name) :
    ClassName.parse word = .ok name := by
  unfold className at hRead
  split at hRead
  · cases hRead
    assumption
  · cases hRead

theorem parse_of_memberName (hRead : memberName line word = .ok name) :
    MemberName.parse word = .ok name := by
  unfold memberName at hRead
  split at hRead
  · cases hRead
    assumption
  · cases hRead

theorem parse_of_descriptor (hRead : descriptor parse line word = .ok value) :
    parse word = .ok value := by
  unfold descriptor at hRead
  split at hRead
  · cases hRead
    assumption
  · cases hRead

theorem spells_of_className {name : ClassName} (hWord : IsWord word.toList)
    (hRead : className line word = .ok name) :
    Spells className name.text name := by
  have hParse := parse_of_className hRead
  have hText := ClassName.text_of_parse hParse
  refine ⟨⟨hText ▸ hWord, name.slashless_text⟩, ?_⟩
  intro line
  rw [className, hText, hParse]

theorem spells_of_memberName (hWord : IsWord word.toList)
    (hRead : memberName line word = .ok name) :
    Spells memberName name.text name := by
  have hParse := parse_of_memberName hRead
  have hText := MemberName.text_of_parse hParse
  refine ⟨⟨hText ▸ hWord, slashless_of_not_mem name.not_mem_slash⟩, ?_⟩
  intro line
  rw [memberName, hText, hParse]

/- A descriptor that is written as it is read. -/
theorem spells_of_descriptor {render : α → List Char}
    (hText : ∀ {word value}, parse word = .ok value → render value = word.toList)
    (hSlashless : ∀ value, slashless (render value) = true) (hWord : IsWord word.toList)
    (hRead : descriptor parse line word = .ok value) :
    Spells (descriptor parse) (String.ofList (render value)) value := by
  have hParse := parse_of_descriptor hRead
  have hSame : String.ofList (render value) = word := by
    rw [hText hParse, String.ofList_toList]
  constructor
  · refine ⟨hSame ▸ hWord, ?_⟩
    rw [String.toList_ofList]
    exact hSlashless value
  · intro line
    rw [descriptor, hSame, hParse]

theorem spells_of_fieldType {type : FieldType} (hWord : IsWord word.toList)
    (hRead : fieldType line word = .ok type) :
    Spells fieldType (String.ofList type.render) type :=
  spells_of_descriptor FieldType.text_of_parse FieldType.slashless_render hWord hRead

theorem spells_of_refType {type : RefType} (hWord : IsWord word.toList)
    (hRead : refType line word = .ok type) :
    Spells refType (String.ofList type.operand) type :=
  spells_of_descriptor RefType.text_of_parseOperand RefType.slashless_operand hWord hRead

theorem spells_of_methodType (hWord : IsWord word.toList)
    (hRead : methodType line word = .ok type) :
    Spells methodType (String.ofList type.render) type :=
  spells_of_descriptor MethodType.text_of_parse MethodType.slashless_render hWord hRead

-- Members

/- What is read of a name with its descriptor. -/
theorem split_of_signature {nameWord typeWord : String}
    (hRead : signature line word = .ok (nameWord, typeWord)) :
    word = nameWord ++ typeWord ∧ ∀ line, signature line word = .ok (nameWord, typeWord) := by
  unfold signature at hRead
  split at hRead
  case h_1 name type hCut =>
    cases hRead
    constructor
    · rw [← String.toList_inj, (cutBefore?_eq hCut).1, String.toList_append, String.toList_ofList,
        String.toList_ofList]
    · intro line
      rw [signature, hCut]
  case h_2 => cases hRead

/- An owner and a name, as members are referred to. -/
def memberText (owner : ClassName) (name : MemberName) : String :=
  owner.text ++ "." ++ name.text

theorem toList_memberText (owner : ClassName) (name : MemberName) :
    (memberText owner name).toList = owner.text.toList ++ '.' :: name.text.toList := by
  simp [memberText]

theorem slashless_memberText (owner : ClassName) (name : MemberName) :
    slashless (memberText owner name).toList = true := by
  have hName : slashless ('.' :: name.text.toList) = true := by
    rw [slashless_cons (by decide)]
    exact slashless_of_not_mem name.not_mem_slash
  rw [toList_memberText]
  exact slashless_append owner.slashless_text hName (by simp)

theorem text_of_member (hRead : member line word = .ok (owner, name)) :
    memberText owner name = word ∧ ∀ line, member line word = .ok (owner, name) := by
  unfold member at hRead
  split at hRead
  case h_1 => cases hRead
  case h_2 before after hCut =>
    rcases ok_of_bind hRead with ⟨owner', hOwner, hRead⟩
    rcases ok_of_bind hRead with ⟨name', hName, hRead⟩
    cases hRead
    have hOwner := parse_of_className hOwner
    have hName := parse_of_memberName hName
    constructor
    · rw [← String.toList_inj, toList_memberText, ClassName.text_of_parse hOwner,
        MemberName.text_of_parse hName, cutLast?_eq hCut, String.toList_ofList,
        String.toList_ofList]
    · intro line
      simp only [member, hCut, className, hOwner, ok_bind, memberName, hName]
      rfl

theorem spells_of_member (hWord : IsWord word.toList)
    (hRead : member line word = .ok (owner, name)) :
    Spells member (memberText owner name) (owner, name) := by
  rcases text_of_member hRead with ⟨rfl, hReads⟩
  exact ⟨⟨hWord, slashless_memberText owner name⟩, hReads⟩

/- A name and a descriptor after it can stand anywhere in a line. -/
theorem clean_signature {name : String}
    (hWord : IsWord (name ++ String.ofList type.render).toList)
    (hName : slashless name.toList = true) :
    Clean (name ++ String.ofList type.render) := by
  refine ⟨hWord, ?_⟩
  rw [String.toList_append, String.toList_ofList]
  exact slashless_append hName type.slashless_render (by simp [MethodType.render])

/- A reference to a method is spelled by its text. -/
theorem spells_of_methodRef {others : List String} {method : MethodRef}
    (hWord : IsWord word.toList) (hRead : methodRef line (word :: others) = .ok method) :
    Spells (fun line word => methodRef line [word]) method.text method := by
  unfold methodRef at hRead
  rcases ok_of_bind hRead with ⟨⟨memberWord, typeWord⟩, hSignature, hRead⟩
  rcases ok_of_bind hRead with ⟨⟨owner, name⟩, hMember, hRead⟩
  rcases ok_of_bind hRead with ⟨type, hType, hRead⟩
  cases hRead
  rcases split_of_signature hSignature with ⟨hSplit, hSignature⟩
  rcases text_of_member hMember with ⟨hMemberWord, hMember⟩
  have hType := parse_of_descriptor hType
  have hText : memberText owner name ++ String.ofList type.render = word := by
    rw [hSplit, hMemberWord, MethodType.text_of_parse hType, String.ofList_toList]
  constructor
  · exact clean_signature (hText ▸ hWord) (slashless_memberText owner name)
  · intro line
    have hWordText : (⟨owner, name, type⟩ : MethodRef).text = word := hText
    simp only [methodRef, hWordText, hSignature, ok_bind, hMember, methodType, descriptor, hType]
    rfl

theorem spells_of_dynamicCall {call : DynamicCall} (hWord : IsWord word.toList)
    (hRead : dynamicCall line word = .ok call) :
    Spells dynamicCall (call.name.text ++ String.ofList call.type.render) call := by
  unfold dynamicCall at hRead
  rcases ok_of_bind hRead with ⟨⟨nameWord, typeWord⟩, hSignature, hRead⟩
  rcases ok_of_bind hRead with ⟨name, hName, hRead⟩
  rcases ok_of_bind hRead with ⟨type, hType, hRead⟩
  cases hRead
  rcases split_of_signature hSignature with ⟨hSplit, hSignature⟩
  have hName := parse_of_memberName hName
  have hType := parse_of_descriptor hType
  have hText : name.text ++ String.ofList type.render = word := by
    rw [hSplit, MemberName.text_of_parse hName, MethodType.text_of_parse hType,
      String.ofList_toList]
  constructor
  · exact clean_signature (hText ▸ hWord) (slashless_of_not_mem name.not_mem_slash)
  · intro line
    simp only [dynamicCall, hText, hSignature, ok_bind, memberName, hName, methodType, descriptor,
      hType]
    rfl

end Listing

-- Names of labels

namespace Label

/- A label whose number is a 32-bit word. -/
def Valid (label : Label) : Prop :=
  label.number < count

theorem toList_text (label : Label) :
    label.text.toList = 'L' :: Nat.toDigits 10 label.number := by
  have hText : label.text = "L" ++ toString label.number := rfl
  rw [hText, String.toList_append, Listing.toList_toString_nat]
  rfl

theorem text_injective {left right : Label} (hText : left.text = right.text) :
    left = right := by
  have hDigits : Nat.toDigits 10 left.number = Nat.toDigits 10 right.number := by
    have hChars := congrArg String.toList hText
    rw [toList_text, toList_text] at hChars
    exact (List.cons.inj hChars).2
  have hNumber := Numeral.natural?_toDigits left.number
  rw [hDigits, Numeral.natural?_toDigits, Option.some.injEq] at hNumber
  rw [Label.mk.injEq]
  exact hNumber.symm

theorem all_text (label : Label) :
    label.text.toList.all Listing.isPlainChar = true := by
  rw [toList_text, all_cons, Listing.all_toDigits]
  decide

theorem clean_text (label : Label) : Listing.Clean label.text :=
  Listing.clean_of_all (by rw [toList_text]; simp) label.all_text

end Label

namespace Listing

variable {label : Label} {scope : Scope}

theorem labelNumber?_text (hValid : label.Valid) :
    labelNumber? label.text.toList = some label.number := by
  rw [Label.toList_text]
  exact unsigned?_toDigits hValid

theorem valid_of_labelNumber? {name : List Char} {n : Nat}
    (hNumber : labelNumber? name = some n) :
    (Label.mk n).Valid := by
  unfold labelNumber? at hNumber
  split at hNumber
  · exact lt_of_unsigned? hNumber
  · cases hNumber

-- Scopes

namespace Scope

variable {scope : Scope}

/- All labels of a scope are 32-bit labels. -/
structure Bounded (scope : Scope) : Prop where
  free : scope.free.Valid
  names : ∀ entry ∈ scope.names, entry.2.Valid

/- Every label of a scope goes by its own name. -/
def Canonical (scope : Scope) : Prop :=
  ∀ entry ∈ scope.names, entry.1 = entry.2.text

theorem valid_freeAfter (words : List (List Char)) : (freeAfter words).Valid := by
  refine List.foldlRecOn words _ (motive := Label.Valid) (Nat.zero_lt_succ _)
    fun free hFree word _ => ?_
  split
  · exact Nat.max_lt.mpr ⟨hFree, Nat.mod_lt _ (by decide)⟩
  · exact hFree

theorem bounded_reserve (lines : List Line) : (reserve lines).Bounded :=
  ⟨valid_freeAfter _, nofun⟩

theorem canonical_reserve (lines : List Line) : (reserve lines).Canonical :=
  nofun

/- A name is given a 32-bit label. -/
theorem bounded_resolve (hScope : scope.Bounded) (name : String) :
    (scope.resolve name).1.Valid ∧ (scope.resolve name).2.Bounded ∧
      (scope.resolve name).2.defined = scope.defined := by
  have hAdd {label free : Label} (hLabel : label.Valid) (hFree : free.Valid) :
      (⟨(name, label) :: scope.names, scope.defined, free⟩ : Scope).Bounded :=
    ⟨hFree, forall_mem_cons.mpr ⟨hLabel, hScope.names⟩⟩
  unfold resolve
  split
  case h_1 label hLookup => exact ⟨hScope.names _ (mem_of_lookup hLookup), hScope, rfl⟩
  case h_2 =>
    split
    case h_1 n hNumber =>
      have hValid := valid_of_labelNumber? hNumber
      exact ⟨hValid, hAdd hValid hScope.free, rfl⟩
    case h_2 => exact ⟨hScope.free, hAdd hScope.free (Nat.mod_lt _ (by decide)), rfl⟩

/- The name of a label is read as that label. -/
theorem canonical_resolve (hScope : scope.Canonical) (hValid : label.Valid) :
    (scope.resolve label.text).1 = label ∧ (scope.resolve label.text).2.Canonical ∧
      (scope.resolve label.text).2.defined = scope.defined := by
  unfold resolve
  split
  case h_1 found hLookup =>
    have hName : label.text = found.text := hScope _ (mem_of_lookup hLookup)
    exact ⟨(Label.text_injective hName).symm, hScope, rfl⟩
  case h_2 =>
    rw [labelNumber?_text hValid]
    exact ⟨rfl, forall_mem_cons.mpr ⟨rfl, hScope⟩, rfl⟩

end Scope

-- Reading with labels

/- Whatever an action reads has a property; it defines no label. -/
def Yields {α : Type} (act : Reading α) (post : α → Prop) : Prop :=
  ∀ scope value after, scope.Bounded → act scope = .ok (value, after) →
    post value ∧ after.Bounded ∧ after.defined = scope.defined

/- An action reads a value if labels go by their own names; it defines none. -/
def Reads {α : Type} (act : Reading α) (value : α) : Prop :=
  ∀ scope : Scope, scope.Canonical →
    ∃ after : Scope, act scope = .ok (value, after) ∧ after.Canonical ∧
      after.defined = scope.defined

section Rules

variable {α β : Type} {act : Reading α} {next : α → Reading β} {value : α}
variable {scope : Scope} {result : β} {post : α → Prop}

theorem ok_of_run_bind {after : Scope}
    (hBind : (act >>= next) scope = .ok (result, after)) :
    ∃ value middle, act scope = .ok (value, middle) ∧ next value middle = .ok (result, after) := by
  rcases ok_of_bind hBind with ⟨⟨value, middle⟩, hAct, hNext⟩
  exact ⟨value, middle, hAct, hNext⟩

theorem run_bind {middle : Scope} (hAct : act scope = .ok (value, middle)) :
    (act >>= next) scope = next value middle := by
  have hBind : (act >>= next) scope = (act scope >>= fun pair => next pair.1 pair.2) := rfl
  rw [hBind, hAct]
  rfl

theorem yields_pure (hValue : post value) : Yields (pure value) post := by
  intro scope found after hScope hRun
  cases hRun
  exact ⟨hValue, hScope, rfl⟩

theorem yields_bind {middle : α → Prop} {post : β → Prop} (hAct : Yields act middle)
    (hNext : ∀ value, middle value → Yields (next value) post) :
    Yields (act >>= next) post := by
  intro scope result after hScope hRun
  rcases ok_of_run_bind hRun with ⟨value, between, hFirst, hSecond⟩
  rcases hAct scope value between hScope hFirst with ⟨hMiddle, hBetween, hSame⟩
  rcases hNext value hMiddle between result after hBetween hSecond with ⟨hPost, hAfter, hKept⟩
  exact ⟨hPost, hAfter, hKept.trans hSame⟩

theorem yields_lift {act : Except Error α}
    (hAct : ∀ value, act = .ok value → post value) :
    Yields (liftM act) post := by
  intro scope found after hScope hRun
  cases act with
  | error fault => cases hRun
  | ok value =>
    have hPair : (value, scope) = (found, after) := Except.ok.inj hRun
    cases hPair
    exact ⟨hAct found rfl, hScope, rfl⟩

theorem yields_label (name : String) : Yields (Reading.label name) Label.Valid := by
  intro scope label after hScope hRun
  have hResolve := Scope.bounded_resolve hScope name
  have hPair : scope.resolve name = (label, after) := Except.ok.inj hRun
  rw [hPair] at hResolve
  exact hResolve

theorem reads_pure (value : α) : Reads (pure value) value :=
  fun scope hScope => ⟨scope, rfl, hScope, rfl⟩

theorem reads_bind (hAct : Reads act value) (hNext : Reads (next value) result) :
    Reads (act >>= next) result := by
  intro scope hScope
  rcases hAct scope hScope with ⟨between, hFirst, hBetween, hSame⟩
  rcases hNext between hBetween with ⟨after, hSecond, hAfter, hKept⟩
  exact ⟨after, (run_bind hFirst).trans hSecond, hAfter, hKept.trans hSame⟩

theorem reads_lift {act : Except Error α} (hAct : act = .ok value) :
    Reads (liftM act) value := by
  intro scope hScope
  rw [hAct]
  exact ⟨scope, rfl, hScope, rfl⟩

theorem reads_label (hValid : label.Valid) :
    Reads (Reading.label label.text) label := by
  intro scope hScope
  rcases Scope.canonical_resolve hScope hValid with ⟨hLabel, hAfter, hDefined⟩
  refine ⟨_, ?_, hAfter, hDefined⟩
  exact congrArg Except.ok (Prod.ext hLabel rfl)

end Rules

-- Definitions of labels

/- A name defines a 32-bit label that was not defined before. -/
theorem bounded_of_definition {after : Scope} (hScope : scope.Bounded)
    {line : Nat} {name : String}
    (hRun : Reading.definition line name scope = .ok (label, after)) :
    label.Valid ∧ after.Bounded ∧ label ∉ scope.defined ∧
      after.defined = label :: scope.defined := by
  rcases Scope.bounded_resolve hScope name with ⟨hValid, hBounded, hDefined⟩
  simp only [Reading.definition, Scope.define] at hRun
  split at hRun
  case isTrue => cases hRun
  case isFalse hNew =>
    cases hRun
    rw [hDefined, contains_iff_mem] at hNew
    exact ⟨hValid, ⟨hBounded.free, hBounded.names⟩, hNew, by rw [hDefined]⟩

/- The name of a label that was not defined before defines it. -/
theorem definition_text (hScope : scope.Canonical) (hValid : label.Valid)
    (hNew : label ∉ scope.defined) (line : Nat) :
    ∃ after : Scope, Reading.definition line label.text scope = .ok (label, after) ∧
      after.Canonical ∧ after.defined = label :: scope.defined := by
  rcases Scope.canonical_resolve hScope hValid with ⟨hLabel, hCanonical, hDefined⟩
  refine ⟨{ (scope.resolve label.text).2 with defined := label :: scope.defined }, ?_,
    hCanonical, rfl⟩
  simp only [Reading.definition, Scope.define, hLabel, hDefined, contains_iff_mem, if_neg hNew]

end Listing

end Unboxing
