import Unboxing.Listing.Line

/-
  The text of a listing: which texts survive the cut into lines,
  the removal of comments and the cut into words.

  Main declarations:
    * `Text.IsWord`
    * `Text.words_intercalate`
    * `Text.slashless`
    * `Listing.stripCommentFrom_slashless`
    * `Listing.Kept`
    * `Listing.texts_linesOf`
-/

namespace Unboxing

open List

namespace Text

variable {word text : List Char} {c : Char} {parts rest : List (List Char)}
variable {before blanks line : List Char}

-- Words

/-
  What is said of all characters of a text is decided by going
  through the text, and never by going through all characters.
-/
instance (priority := 2000) decidableAllChars (property : Char → Prop)
    [DecidablePred property] (text : List Char) :
    Decidable (∀ c ∈ text, property c) :=
  List.decidableBAll property text

/- A text that is one word: not empty, and without blanks. -/
structure IsWord (text : List Char) : Prop where
  nonempty : text ≠ []
  unblank : ∀ c ∈ text, isBlank c = false

theorem wordsFrom_append (hWord : ∀ c ∈ word, isBlank c = false)
    (before rest : List Char) :
    wordsFrom before (word ++ rest) = wordsFrom (word.reverse ++ before) rest := by
  induction word generalizing before with
  | nil => rfl
  | cons c word ih =>
    rcases forall_mem_cons.mp hWord with ⟨hFirst, hRest⟩
    simpa [wordsFrom, hFirst] using ih hRest (c :: before)

theorem words_cons (hWord : IsWord word) (hBlank : isBlank c = true) (rest : List Char) :
    words (word ++ c :: rest) = word :: words rest := by
  have hNonempty := hWord.nonempty
  unfold words
  rw [wordsFrom_append hWord.unblank]
  simp [wordsFrom, hBlank, flushWord, hNonempty]

theorem words_single (hWord : IsWord word) : words word = [word] := by
  have hNonempty := hWord.nonempty
  have hAll := wordsFrom_append hWord.unblank [] []
  rw [append_nil] at hAll
  unfold words
  rw [hAll]
  simp [wordsFrom, flushWord, hNonempty]

theorem words_intercalate (hParts : ∀ part ∈ parts, IsWord part) :
    words (List.intercalate [' '] parts) = parts := by
  induction parts with
  | nil => rfl
  | cons part parts ih =>
    rcases forall_mem_cons.mp hParts with ⟨hPart, hRest⟩
    cases parts with
    | nil => simpa using words_single hPart
    | cons next parts =>
      rw [intercalate_cons_cons, append_assoc]
      exact (words_cons hPart (by decide) _).trans (congrArg (part :: ·) (ih hRest))

/-
  Where the first word of a text stands: after some blanks, and
  before the words that are left.
-/
theorem split_of_wordsFrom (hBefore : before ≠ [])
    (hWords : wordsFrom before text = word :: rest) :
    ∃ more after, text = more ++ after ∧ word = before.reverse ++ more ∧
      (∀ c ∈ more, isBlank c = false) ∧ words after = rest := by
  induction text generalizing before with
  | nil =>
    simp only [wordsFrom, flushWord, List.isEmpty_iff, if_neg hBefore, List.cons.injEq] at hWords
    exact ⟨[], [], rfl, by simp [hWords.1], by simp, by rw [← hWords.2]; rfl⟩
  | cons c text ih =>
    simp only [wordsFrom] at hWords
    split at hWords
    case isTrue hBlank =>
      simp only [flushWord, List.isEmpty_iff, if_neg hBefore, List.cons.injEq] at hWords
      refine ⟨[], c :: text, rfl, by simp [hWords.1], by simp, ?_⟩
      rw [← hWords.2, words, wordsFrom, if_pos hBlank]
      rfl
    case isFalse hChar =>
      rcases ih (cons_ne_nil _ _) hWords with ⟨more, after, hText, hWord, hMore, hAfter⟩
      refine ⟨c :: more, after, by rw [hText]; rfl, by simp [hWord], ?_, hAfter⟩
      exact forall_mem_cons.mpr ⟨Bool.not_eq_true _ ▸ hChar, hMore⟩

theorem split_of_words (hWords : words text = word :: rest) :
    ∃ blanks after, text = blanks ++ (word ++ after) ∧
      (∀ c ∈ blanks, isBlank c = true) ∧ IsWord word ∧ words after = rest := by
  induction text with
  | nil => cases hWords
  | cons c text ih =>
    by_cases hBlank : isBlank c = true
    · have hText : words text = word :: rest := by
        rw [← hWords]
        simp [words, wordsFrom, hBlank, flushWord]
      rcases ih hText with ⟨blanks, after, hSplit, hBlanks, hWord, hAfter⟩
      refine ⟨c :: blanks, after, by rw [hSplit]; rfl, ?_, hWord, hAfter⟩
      exact forall_mem_cons.mpr ⟨hBlank, hBlanks⟩
    · have hFrom : wordsFrom [c] text = word :: rest := by
        rw [← hWords]
        simp [words, wordsFrom, hBlank]
      rcases split_of_wordsFrom (cons_ne_nil _ _) hFrom with
        ⟨more, after, hText, hWord, hMore, hAfter⟩
      have hWordEq : word = c :: more := hWord
      refine ⟨[], after, by rw [hText, hWordEq]; rfl, by simp, ⟨by simp [hWordEq], ?_⟩, hAfter⟩
      rw [hWordEq]
      exact forall_mem_cons.mpr ⟨Bool.not_eq_true _ ▸ hBlank, hMore⟩

theorem wordsFrom_ne_nil (hBefore : before ≠ []) (text : List Char) :
    wordsFrom before text ≠ [] := by
  induction text generalizing before with
  | nil => simp [wordsFrom, flushWord, hBefore]
  | cons c text ih =>
    simp only [wordsFrom]
    split
    · simp [flushWord, hBefore]
    · exact ih (cons_ne_nil c before)

/- A character that is not blank starts the first word. -/
theorem words_unblank (hChar : isBlank c = false) (text : List Char) :
    ∃ rest others, words (c :: text) = (c :: rest) :: others := by
  have hWords : words (c :: text) = wordsFrom [c] text := by simp [words, wordsFrom, hChar]
  rcases exists_cons_of_ne_nil (wordsFrom_ne_nil (cons_ne_nil c []) text) with
    ⟨word, others, hFrom⟩
  rcases split_of_wordsFrom (cons_ne_nil c []) hFrom with ⟨more, _, _, hWord, _⟩
  refine ⟨more, others, ?_⟩
  rw [hWords, hFrom, hWord]
  rfl

/- The words of a text are words. -/
theorem isWord_of_mem_words (hMem : word ∈ words text) : IsWord word := by
  generalize hWords : words text = parts at hMem
  induction parts generalizing text with
  | nil => cases hMem
  | cons part parts ih =>
    rcases split_of_words hWords with ⟨blanks, after, _, _, hWord, hAfter⟩
    rcases mem_cons.mp hMem with hSame | hLater
    · rw [hSame]
      exact hWord
    · exact ih hAfter hLater

-- Slashes

/- Whether no two slashes follow each other. -/
def slashless : List Char → Bool
  | [] => true
  | c :: text => !(c == '/' && text.head? == some '/') && slashless text

theorem slashless_of_not_mem (hNone : '/' ∉ text) : slashless text = true := by
  induction text with
  | nil => rfl
  | cons c text ih =>
    have hFirst := (ne_of_not_mem_cons hNone).symm
    have hRest := ih (not_mem_of_not_mem_cons hNone)
    simp [slashless, hFirst, hRest]

theorem slashless_append {left right : List Char} (hLeft : slashless left = true)
    (hRight : slashless right = true) (hHead : right.head? ≠ some '/') :
    slashless (left ++ right) = true := by
  induction left with
  | nil => exact hRight
  | cons c left ih =>
    simp only [slashless, Bool.and_eq_true] at hLeft
    simp only [cons_append, slashless, ih hLeft.2, Bool.and_true]
    cases left with
    | nil => simp [hHead]
    | cons next left => simpa using hLeft.1

theorem slashless_cons (hChar : c ≠ '/') (text : List Char) :
    slashless (c :: text) = slashless text := by
  simp [slashless, hChar]

/- Words without two slashes can stand in one line. -/
theorem slashless_intercalate (hParts : ∀ part ∈ parts, slashless part = true) :
    slashless (List.intercalate [' '] parts) = true := by
  induction parts with
  | nil => rfl
  | cons part parts ih =>
    rcases forall_mem_cons.mp hParts with ⟨hPart, hRest⟩
    cases parts with
    | nil => simpa using hPart
    | cons next parts =>
      rw [intercalate_cons_cons, append_assoc]
      refine slashless_append hPart ?_ (by simp)
      rw [singleton_append, slashless_cons (by decide)]
      exact ih hRest

-- Outer blanks

/- A text that neither starts nor ends with a blank. -/
structure Trimmed (text : List Char) : Prop where
  first : ∀ c ∈ text.head?, isBlank c = false
  last : ∀ c ∈ text.getLast?, isBlank c = false

theorem dropWhile_blanks (hBlanks : ∀ c ∈ blanks, isBlank c = true)
    (hText : ∀ c ∈ text.head?, isBlank c = false) :
    (blanks ++ text).dropWhile isBlank = text := by
  rw [dropWhile_append_of_pos hBlanks]
  cases text with
  | nil => rfl
  | cons c text => simp [hText c rfl]

/- Blanks before a trimmed text are what is cut. -/
theorem trim_append (hBlanks : ∀ c ∈ blanks, isBlank c = true) (hText : Trimmed text) :
    trim (blanks ++ text) = text := by
  have hReverse : ∀ c ∈ text.reverse.head?, isBlank c = false := by
    rw [head?_reverse]
    exact hText.last
  have hRight : text.reverse.dropWhile isBlank = text.reverse :=
    @dropWhile_blanks text.reverse [] (by simp) hReverse
  unfold trim trimRight
  rw [dropWhile_blanks hBlanks hText.first, hRight, reverse_reverse]

/- What is cut off a text are blanks at its ends. -/
theorem split_of_trim (text : List Char) :
    ∃ before after, text = before ++ (trim text ++ after) ∧
      (∀ c ∈ before, isBlank c = true) ∧ (∀ c ∈ after, isBlank c = true) := by
  have hBlank {part : List Char} : ∀ c ∈ part.takeWhile isBlank, isBlank c = true :=
    fun c hChar => all_eq_true.mp all_takeWhile c hChar
  refine ⟨text.takeWhile isBlank,
    ((text.dropWhile isBlank).reverse.takeWhile isBlank).reverse, ?_, hBlank, ?_⟩
  · unfold trim trimRight
    rw [← reverse_append, takeWhile_append_dropWhile, reverse_reverse,
      takeWhile_append_dropWhile]
  · intro c hChar
    exact hBlank c (mem_reverse.mp hChar)

-- Lines

theorem linesFrom_append (hLine : '\n' ∉ line) (before rest : List Char) :
    linesFrom before (line ++ rest) = linesFrom (line.reverse ++ before) rest := by
  induction line generalizing before with
  | nil => rfl
  | cons c line ih =>
    have hFirst := (ne_of_not_mem_cons hLine).symm
    have hRest := ih (not_mem_of_not_mem_cons hLine) (c :: before)
    rw [cons_append, linesFrom]
    · rw [hRest]
      simp
    · exact hFirst

theorem lines_cons (hLine : '\n' ∉ line) (hEnd : line.getLast? ≠ some '\r')
    (rest : List Char) :
    lines (line ++ '\n' :: rest) = line :: lines rest := by
  have hFinish : finishLine line.reverse = line := by
    unfold finishLine
    split
    case h_1 text hText =>
      rw [← head?_reverse, hText] at hEnd
      exact absurd rfl hEnd
    case h_2 => rw [reverse_reverse]
  unfold lines
  rw [linesFrom_append hLine, append_nil, linesFrom, hFinish]

end Text

namespace Listing

open Text

variable {left : List Char} {text right : List Char} {inString escaped : Bool}

-- Comments

/-
  One character is kept unless it is the first slash of a
  comment. What follows is read in a state that depends on the
  character and the state before it alone.
-/
theorem stripCommentFrom_cons (inString escaped : Bool) (c : Char) :
    ∃ nextInString nextEscaped, ∀ text, stripCommentFrom inString escaped (c :: text) =
        if (escaped = false ∧ inString = false ∧ c = '/') ∧ text.head? = some '/' then
          []
        else
          c :: stripCommentFrom nextInString nextEscaped text := by
  cases escaped with
  | true => exact ⟨inString, false, by simp [stripCommentFrom]⟩
  | false =>
    by_cases hBackslash : c = '\\' ∧ inString = true
    · refine ⟨inString, true, ?_⟩
      intro text
      simp [stripCommentFrom, hBackslash.1, hBackslash.2]
    · by_cases hQuote : c = '"'
      · refine ⟨!inString, false, ?_⟩
        intro text
        simp [stripCommentFrom, hQuote]
      · refine ⟨inString, false, ?_⟩
        intro text
        rw [stripCommentFrom, if_neg (by simp), if_neg hBackslash, if_neg hQuote]
        cases inString <;> simp

/- A text without two slashes in a row has no comment, wherever it stands. -/
theorem stripCommentFrom_slashless (hText : slashless text = true)
    (inString escaped : Bool) :
    stripCommentFrom inString escaped text = text := by
  induction text generalizing inString escaped with
  | nil => rfl
  | cons c text ih =>
    simp only [slashless, Bool.and_eq_true, Bool.not_eq_true', Bool.and_eq_false_iff,
      beq_eq_false_iff_ne] at hText
    rcases stripCommentFrom_cons inString escaped c with ⟨_, _, hStep⟩
    rw [hStep, if_neg, ih hText.2]
    rintro ⟨⟨_, _, hFirst⟩, hSecond⟩
    rcases hText.1 with hNot | hNot
    · exact hNot hFirst
    · exact hNot hSecond

/- A text without a comment, followed by one that has none anywhere. -/
theorem stripCommentFrom_append (hLeft : stripCommentFrom inString escaped left = left)
    (hRight : slashless right = true) (hHead : right.head? ≠ some '/') :
    stripCommentFrom inString escaped (left ++ right) = left ++ right := by
  induction left generalizing inString escaped with
  | nil => exact stripCommentFrom_slashless hRight inString escaped
  | cons c left ih =>
    have hNext : (left ++ right).head? = some '/' → left.head? = some '/' := by
      cases left with
      | nil => exact fun hSlash => absurd hSlash hHead
      | cons next left => exact id
    rcases stripCommentFrom_cons inString escaped c with ⟨_, _, hStep⟩
    rw [hStep] at hLeft
    split at hLeft
    case isTrue => cases hLeft
    case isFalse hKept =>
      rw [List.cons_append, hStep, if_neg (fun hComment => hKept ⟨hComment.1, hNext hComment.2⟩),
        ih (List.cons.inj hLeft).2]

/- What has no comment has none in its first part. -/
theorem stripCommentFrom_prefix
    (hBoth : stripCommentFrom inString escaped (left ++ right) = left ++ right) :
    stripCommentFrom inString escaped left = left := by
  induction left generalizing inString escaped with
  | nil => rfl
  | cons c left ih =>
    have hNext : left.head? = some '/' → (left ++ right).head? = some '/' := by
      cases left with
      | nil => exact nofun
      | cons next left => exact id
    rcases stripCommentFrom_cons inString escaped c with ⟨_, _, hStep⟩
    rw [List.cons_append, hStep] at hBoth
    split at hBoth
    case isTrue => cases hBoth
    case isFalse hKept =>
      rw [hStep, if_neg (fun hComment => hKept ⟨hComment.1, hNext hComment.2⟩),
        ih (List.cons.inj hBoth).2]

/- Removing a comment leaves a text without one. -/
theorem stripCommentFrom_idem (inString escaped : Bool) (text : List Char) :
    stripCommentFrom inString escaped (stripCommentFrom inString escaped text) =
      stripCommentFrom inString escaped text := by
  induction text generalizing inString escaped with
  | nil => rfl
  | cons c text ih =>
    have hNext (inString escaped : Bool) :
        (stripCommentFrom inString escaped text).head? = some '/' → text.head? = some '/' := by
      cases text with
      | nil => exact id
      | cons next text =>
        rcases stripCommentFrom_cons inString escaped next with ⟨_, _, hStep⟩
        rw [hStep]
        split
        · exact nofun
        · exact id
    rcases stripCommentFrom_cons inString escaped c with ⟨_, _, hStep⟩
    rw [hStep]
    split
    case isTrue => rfl
    case isFalse hKept =>
      rw [hStep, if_neg (fun hComment => hKept ⟨hComment.1, hNext _ _ hComment.2⟩), ih]

/- The characters that removing comments looks at. -/
def isCommentChar (c : Char) : Bool :=
  c == '\\' || c == '"' || c == '/'

theorem stripComment_append (hLeft : ∀ c ∈ left, isCommentChar c = false)
    (right : List Char) :
    stripComment (left ++ right) = left ++ stripComment right := by
  unfold stripComment
  induction left with
  | nil => rfl
  | cons c left ih =>
    rcases forall_mem_cons.mp hLeft with ⟨hFirst, hRest⟩
    simp only [isCommentChar, Bool.or_eq_false_iff, beq_eq_false_iff_ne] at hFirst
    rw [cons_append, stripCommentFrom]
    simp [hFirst.1.1, hFirst.1.2, hFirst.2, ih hRest]

theorem isCommentChar_of_isBlank {c : Char} (hBlank : isBlank c = true) :
    isCommentChar c = false := by
  simp only [isCommentChar, Bool.or_eq_false_iff, beq_eq_false_iff_ne]
  refine ⟨⟨?_, ?_⟩, ?_⟩ <;>
    · rintro rfl
      revert hBlank
      decide

-- Lines that survive

/- The text of a line as it is after comments and outer blanks are gone. -/
structure Kept (text : List Char) : Prop where
  nonempty : text ≠ []
  unbroken : '\n' ∉ text
  uncommented : stripComment text = text
  trimmed : Trimmed text

/- The lines of a source, each cut at its comment and trimmed. -/
theorem texts_linesOf (source : List Char) :
    (linesOf source).map Line.text = (Text.lines source).filterMap fun text =>
        let text := Text.trim (stripComment text)
        if text.isEmpty then none else some text := by
  have hFrom (texts : List (List Char)) (number : Nat) :
      ((texts.zipIdx number).filterMap fun entry =>
          let text := Text.trim (stripComment entry.1)
          if text.isEmpty then none else some (⟨entry.2, text⟩ : Line)).map Line.text =
        texts.filterMap fun text =>
          let text := Text.trim (stripComment text)
          if text.isEmpty then none else some text := by
    induction texts generalizing number with
    | nil => rfl
    | cons text texts ih =>
      simp only [zipIdx_cons, filterMap_cons]
      by_cases hEmpty : (Text.trim (stripComment text)).isEmpty = true
      · simpa [hEmpty] using ih (number + 1)
      · simpa [hEmpty] using ih (number + 1)
  exact hFrom (Text.lines source) 1

/- A line of a source has no comment. -/
theorem uncommented_of_mem {source : List Char} {line : Line}
    (hLine : line ∈ linesOf source) :
    stripComment line.text = line.text := by
  have hText : line.text ∈ (linesOf source).map Line.text := mem_map_of_mem hLine
  rw [texts_linesOf, mem_filterMap] at hText
  rcases hText with ⟨raw, _, hRaw⟩
  simp only [Option.ite_none_left_eq_some, Option.some.injEq] at hRaw
  rw [← hRaw.2]
  rcases split_of_trim (stripComment raw) with ⟨before, after, hSplit, hBefore, _⟩
  have hIdem : stripComment (stripComment raw) = stripComment raw :=
    stripCommentFrom_idem false false raw
  rw [hSplit, stripComment_append (fun c hChar => isCommentChar_of_isBlank (hBefore c hChar))]
    at hIdem
  exact stripCommentFrom_prefix (append_cancel_left hIdem)

/- A line that is written with its indentation is read as its text. -/
theorem texts_linesOf_cons (hText : Kept text) (depth : Nat) (rest : List Char) :
    (linesOf (List.replicate depth ' ' ++ text ++ '\n' :: rest)).map Line.text =
      text :: (linesOf rest).map Line.text := by
  have hSpaces : ∀ c ∈ List.replicate depth ' ', isBlank c = true := by
    intro c hChar
    rw [eq_of_mem_replicate hChar]
    decide
  have hUnbroken : '\n' ∉ List.replicate depth ' ' ++ text := by
    intro hBreak
    rcases mem_append.mp hBreak with hBreak | hBreak
    · exact absurd (eq_of_mem_replicate hBreak) (by decide)
    · exact hText.unbroken hBreak
  have hEnd : (List.replicate depth ' ' ++ text).getLast? ≠ some '\r' := by
    rcases exists_cons_of_ne_nil hText.nonempty with ⟨first, others, hCons⟩
    rcases hLast : text.getLast? with _ | c
    · simp [hCons] at hLast
    · rw [getLast?_append, hLast, Option.some_or]
      rintro ⟨rfl⟩
      have hBlank := hText.trimmed.last '\r' hLast
      revert hBlank
      decide
  have hStrip : Text.trim (stripComment (List.replicate depth ' ' ++ text)) = text := by
    rw [stripComment_append (fun c hChar => isCommentChar_of_isBlank (hSpaces c hChar)),
      hText.uncommented, trim_append hSpaces hText.trimmed]
  rw [texts_linesOf, texts_linesOf, lines_cons hUnbroken hEnd, filterMap_cons]
  simp [hStrip, hText.nonempty]

theorem texts_linesOf_break (rest : List Char) :
    (linesOf ('\n' :: rest)).map Line.text = (linesOf rest).map Line.text := by
  have hLines : Text.lines ('\n' :: rest) = [] :: Text.lines rest :=
    @lines_cons [] (by simp) (by simp) rest
  rw [texts_linesOf, texts_linesOf, hLines, filterMap_cons]
  rfl

end Listing

end Unboxing
