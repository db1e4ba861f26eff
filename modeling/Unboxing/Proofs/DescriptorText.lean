import Unboxing.Descriptor.Parser
import Unboxing.Proofs.ListingText

/-
  Names and descriptors are written exactly as they are read,
  and read exactly as they are written. What a reader takes from
  the front of a text is the text of the value that it returns,
  so no two values have one text. No such text has two slashes
  in a row, because no part of a class name is empty.

  Main declarations:
    * `MethodType.text_of_parse`
    * `RefType.text_of_parseOperand`
    * `MethodType.parseFrom_render`
    * `Descriptor.ReadAsWritten`
    * `Descriptor.read_as_written`
-/

namespace Unboxing

open List

variable {word : String} {text rest : List Char} {type : RefType}
variable {name : ClassName}

namespace Text

variable {mark : Char} {text before after : List Char}

-- Cuts

theorem cutFirst?_eq (hCut : cutFirst? mark text = some (before, after)) :
    text = before ++ mark :: after ∧ mark ∉ before := by
  induction text generalizing before with
  | nil => cases hCut
  | cons c text ih =>
    simp only [cutFirst?] at hCut
    split at hCut
    case isTrue hMark =>
      simp only [Option.some.injEq, Prod.mk.injEq] at hCut
      simp [← hCut.1, ← hCut.2, hMark]
    case isFalse hOther =>
      rcases Option.map_eq_some_iff.mp hCut with ⟨⟨first, rest⟩, hRest, hPair⟩
      simp only [Prod.mk.injEq] at hPair
      rcases hPair with ⟨hBefore, hAfter⟩
      subst hBefore hAfter
      rcases ih hRest with ⟨hText, hNone⟩
      refine ⟨by rw [hText]; rfl, ?_⟩
      rw [mem_cons, not_or]
      exact ⟨fun hSame => hOther hSame.symm, hNone⟩

theorem cutFirst?_append (hNone : mark ∉ before) (after : List Char) :
    cutFirst? mark (before ++ mark :: after) = some (before, after) := by
  induction before with
  | nil => simp [cutFirst?]
  | cons c before ih =>
    rw [mem_cons, not_or] at hNone
    have hRest := ih hNone.2
    simp [cutFirst?, Ne.symm hNone.1, hRest]

theorem cutLast?_eq (hCut : cutLast? mark text = some (before, after)) :
    text = before ++ mark :: after := by
  induction text generalizing before with
  | nil => cases hCut
  | cons c text ih =>
    simp only [cutLast?] at hCut
    split at hCut
    case h_1 first rest hRest =>
      simp only [Option.some.injEq, Prod.mk.injEq] at hCut
      rcases hCut with ⟨hBefore, hAfter⟩
      subst hBefore hAfter
      rw [ih hRest]
      rfl
    case h_2 hNone =>
      split at hCut
      case isTrue hMark =>
        simp only [Option.some.injEq, Prod.mk.injEq] at hCut
        simp [← hCut.1, ← hCut.2, hMark]
      case isFalse => cases hCut

theorem cutLast?_of_not_mem (hNone : mark ∉ text) : cutLast? mark text = none := by
  induction text with
  | nil => rfl
  | cons c text ih =>
    rw [mem_cons, not_or] at hNone
    simp [cutLast?, ih hNone.2, Ne.symm hNone.1]

theorem cutLast?_append (before : List Char) (hNone : mark ∉ after) :
    cutLast? mark (before ++ mark :: after) = some (before, after) := by
  induction before with
  | nil => simp [cutLast?, cutLast?_of_not_mem hNone]
  | cons c before ih => simp [cutLast?, ih]

theorem cutBefore?_eq (hCut : cutBefore? mark text = some (before, after)) :
    text = before ++ after ∧ after.head? = some mark := by
  induction text generalizing before with
  | nil => cases hCut
  | cons c text ih =>
    simp only [cutBefore?] at hCut
    split at hCut
    case isTrue hMark =>
      simp only [Option.some.injEq, Prod.mk.injEq] at hCut
      simp [← hCut.1, ← hCut.2, hMark]
    case isFalse hOther =>
      rcases Option.map_eq_some_iff.mp hCut with ⟨⟨first, rest⟩, hRest, hPair⟩
      simp only [Prod.mk.injEq] at hPair
      rcases hPair with ⟨hBefore, hAfter⟩
      subst hBefore hAfter
      rcases ih hRest with ⟨hText, hHead⟩
      exact ⟨by rw [hText]; rfl, hHead⟩

theorem splitAll_ne_nil (mark : Char) (text : List Char) :
    splitAll mark text ≠ [] := by
  cases text with
  | nil => simp [splitAll]
  | cons c text =>
    simp only [splitAll]
    split
    · simp
    · split <;> simp

/- A text that starts with the mark has nothing before it. -/
theorem mem_splitAll_of_head? (hHead : text.head? = some mark) :
    [] ∈ splitAll mark text := by
  cases text with
  | nil => cases hHead
  | cons c text =>
    cases hHead
    simp [splitAll]

/- If no part after the first is empty, no two slashes meet. -/
theorem slashless_of_tail (hParts : ∀ part ∈ (splitAll '/' text).tail, part ≠ []) :
    slashless text = true := by
  induction text with
  | nil => rfl
  | cons c text ih =>
    by_cases hSlash : c = '/'
    · simp only [splitAll, if_pos hSlash, tail_cons] at hParts
      -- A second slash in a row would start an empty part.
      have hHead : text.head? ≠ some '/' :=
        fun hHead => hParts [] (mem_splitAll_of_head? hHead) rfl
      have hRest := ih (fun part hPart => hParts part (mem_of_mem_tail hPart))
      simp [slashless, hHead, hRest]
    · rw [slashless_cons hSlash]
      simp only [splitAll, if_neg hSlash] at hParts
      -- The character joins the first part, and the others are as before.
      apply ih
      split at hParts
      case h_1 hNone => exact absurd hNone (splitAll_ne_nil '/' text)
      case h_2 part parts hSplit =>
        rw [hSplit]
        exact hParts

end Text

-- Names

theorem MemberName.text_of_parse {name : MemberName}
    (hParse : MemberName.parse word = .ok name) :
    name.text = word := by
  unfold MemberName.parse at hParse
  split at hParse
  · cases hParse
    rfl
  · cases hParse

theorem ClassName.text_of_parse (hParse : ClassName.parse word = .ok name) :
    name.text = word := by
  unfold ClassName.parse at hParse
  split at hParse
  · cases hParse
    rfl
  · cases hParse

theorem MemberName.not_mem_slash (name : MemberName) : '/' ∉ name.text.toList := by
  intro hSlash
  have hValid := name.valid
  have hAny : name.text.toList.any (['.', ';', '[', '/'].contains ·) = true :=
    any_eq_true.mpr ⟨'/', hSlash, by decide⟩
  unfold memberFault? at hValid
  rw [hAny] at hValid
  split at hValid <;> simp at hValid

/- No two slashes in a row are in the name of a class. -/
theorem ClassName.slashless_text (name : ClassName) :
    Text.slashless name.text.toList = true := by
  have hValid := name.valid
  unfold classFault? at hValid
  split at hValid
  · cases hValid
  · split at hValid
    · cases hValid
    · rw [findSome?_eq_none_iff] at hValid
      refine Text.slashless_of_tail ?_
      intro part hPart hEmpty
      have hFault := hValid part (mem_of_mem_tail hPart)
      rw [hEmpty] at hFault
      exact absurd hFault (by decide)

-- Types

theorem BaseType.letter_of_ofLetter? {c : Char} {type : BaseType}
    (hLetter : ofLetter? c = some type) :
    type.letter = c := by
  have hFound := find?_some hLetter
  exact beq_iff_eq.mp hFound

theorem BaseType.text_of_parseFrom {type : BaseType}
    (hParse : BaseType.parseFrom text = .ok (type, rest)) :
    text = type.letter :: rest := by
  unfold BaseType.parseFrom at hParse
  split at hParse
  case h_1 => cases hParse
  case h_2 c tail =>
    split at hParse
    case h_1 found hLetter =>
      cases hParse
      rw [BaseType.letter_of_ofLetter? hLetter]
    case h_2 => cases hParse

theorem ClassName.text_of_parseTerminated
    (hParse : ClassName.parseTerminated text = .ok (name, rest)) :
    text = name.text.toList ++ ';' :: rest := by
  unfold ClassName.parseTerminated at hParse
  split at hParse
  case h_1 => cases hParse
  case h_2 before after hCut =>
    split at hParse
    case h_1 found hName =>
      cases hParse
      rw [ClassName.text_of_parse hName, String.toList_ofList]
      exact (Text.cutFirst?_eq hCut).1
    case h_2 => cases hParse

theorem Element.text_of_parseFrom {element : Element}
    (hParse : Element.parseFrom text = .ok (element, rest)) :
    text = element.render ++ rest := by
  unfold Element.parseFrom at hParse
  split at hParse
  case h_1 tail =>
    split at hParse
    case h_1 name after hName =>
      cases hParse
      rw [ClassName.text_of_parseTerminated hName]
      simp [Element.render]
    case h_2 => cases hParse
  case h_2 =>
    split at hParse
    case h_1 type after hType =>
      cases hParse
      exact BaseType.text_of_parseFrom hType
    case h_2 => cases hParse

/- The brackets that are left to read belong to the array type. -/
theorem RefType.text_of_parseArray {more : Nat}
    (hParse : RefType.parseArray more text = .ok (type, rest)) :
    List.replicate (more + 1) '[' ++ text = type.render ++ rest := by
  fun_induction RefType.parseArray more text with
  | case1 more text ih =>
    rw [← ih hParse, replicate_succ' (n := more + 1), append_assoc]
    rfl
  | case2 more text _ element tail hElement =>
    cases hParse
    rw [Element.text_of_parseFrom hElement, RefType.render, append_assoc]
  | case3 => cases hParse

theorem RefType.text_of_parseFrom (hParse : RefType.parseFrom text = .ok (type, rest)) :
    text = type.render ++ rest := by
  unfold RefType.parseFrom at hParse
  split at hParse
  case h_1 => cases hParse
  case h_2 tail =>
    split at hParse
    case h_1 name after hName =>
      cases hParse
      rw [ClassName.text_of_parseTerminated hName]
      simp [RefType.render, Element.render]
    case h_2 => cases hParse
  case h_3 tail => exact RefType.text_of_parseArray hParse
  case h_4 => cases hParse

theorem FieldType.text_of_parseFrom {type : FieldType}
    (hParse : FieldType.parseFrom text = .ok (type, rest)) :
    text = type.render ++ rest := by
  unfold FieldType.parseFrom at hParse
  split at hParse
  case h_1 => cases hParse
  case h_2 c tail =>
    split at hParse
    case h_1 base hLetter =>
      cases hParse
      simp [FieldType.render, BaseType.letter_of_ofLetter? hLetter]
    case h_2 =>
      split at hParse
      · split at hParse
        case h_1 found after hRef =>
          cases hParse
          exact RefType.text_of_parseFrom hRef
        case h_2 => cases hParse
      · cases hParse

theorem MethodType.text_of_parseParameters {types : List FieldType}
    (hParse : MethodType.parseParameters text = .ok (types, rest)) :
    text = types.flatMap FieldType.render ++ rest := by
  fun_induction MethodType.parseParameters text generalizing types rest with
  | case1 | case2 tail =>
    cases hParse
    rfl
  | case3 | case4 => cases hParse
  | case5 c tail _ type after hType _ types' rest' hRest ih =>
    cases hParse
    rw [FieldType.text_of_parseFrom hType, ih hRest, flatMap_cons, append_assoc]

theorem MethodType.text_of_parseFrom {type : MethodType}
    (hParse : MethodType.parseFrom text = .ok (type, rest)) :
    text = type.render ++ rest := by
  unfold MethodType.parseFrom at hParse
  split at hParse
  case h_1 tail =>
    split at hParse
    case h_1 => cases hParse
    case h_2 parameters after hParameters =>
      split at hParse
      case h_1 result left hResult =>
        cases hParse
        rw [MethodType.text_of_parseParameters hParameters]
        unfold MethodType.parseResult at hResult
        split at hResult
        · cases hResult
          simp [MethodType.render]
        · split at hResult
          case h_1 found left' hType =>
            cases hResult
            rw [FieldType.text_of_parseFrom hType]
            simp [MethodType.render]
          case h_2 => cases hResult
      case h_2 => cases hParse
    case h_3 => cases hParse
  case h_2 => cases hParse

-- Whole texts

theorem Descriptor.read_of_complete {α : Type} {read : Descriptor.Reader α} {value : α}
    (hComplete : Descriptor.complete read text = .ok value) :
    read text = .ok (value, []) := by
  unfold Descriptor.complete at hComplete
  split at hComplete
  case h_1 => cases hComplete
  case h_2 found hRead =>
    cases hComplete
    exact hRead
  case h_3 => cases hComplete

theorem FieldType.text_of_parse {type : FieldType}
    (hParse : FieldType.parse word = .ok type) :
    type.render = word.toList := by
  rw [FieldType.text_of_parseFrom (Descriptor.read_of_complete hParse), append_nil]

theorem RefType.text_of_parse (hParse : RefType.parse word = .ok type) :
    type.render = word.toList := by
  rw [RefType.text_of_parseFrom (Descriptor.read_of_complete hParse), append_nil]

theorem MethodType.text_of_parse {type : MethodType}
    (hParse : MethodType.parse word = .ok type) :
    type.render = word.toList := by
  rw [MethodType.text_of_parseFrom (Descriptor.read_of_complete hParse), append_nil]

/- A class is an operand by its bare name, an array by its descriptor. -/
theorem RefType.text_of_parseOperand (hParse : RefType.parseOperand word = .ok type) :
    type.operand = word.toList := by
  unfold RefType.parseOperand at hParse
  split at hParse
  case h_1 tail hWord =>
    have hRender := RefType.text_of_parse hParse
    cases type with
    | object name =>
      rw [hWord] at hRender
      simp [RefType.render, Element.render] at hRender
    | array more element => exact hRender
  case h_2 =>
    split at hParse
    case h_1 name hName =>
      cases hParse
      rw [RefType.operand, ClassName.text_of_parse hName]
    case h_2 => cases hParse

-- No two slashes in a row

theorem BaseType.letter_ne_slash (type : BaseType) : type.letter ≠ '/' := by
  cases type <;> decide

theorem Element.slashless_render (element : Element) :
    Text.slashless element.render = true := by
  cases element with
  | base type => exact Text.slashless_cons type.letter_ne_slash []
  | object name =>
    rw [Element.render, Text.slashless_cons (by decide)]
    exact Text.slashless_append name.slashless_text rfl (by simp)

theorem RefType.slashless_render (type : RefType) :
    Text.slashless type.render = true := by
  cases type with
  | object name => exact Element.slashless_render (.object name)
  | array more element =>
    have hHead : element.render.head? ≠ some '/' := by
      cases element with
      | base type => simpa [Element.render] using type.letter_ne_slash
      | object name => simp [Element.render]
    have hBrackets : '/' ∉ List.replicate (more + 1) '[' := by simp
    exact Text.slashless_append (Text.slashless_of_not_mem hBrackets)
      element.slashless_render hHead

theorem RefType.slashless_operand (type : RefType) :
    Text.slashless type.operand = true := by
  cases type with
  | object name => exact name.slashless_text
  | array more element => exact RefType.slashless_render (.array more element)

theorem FieldType.slashless_render (type : FieldType) :
    Text.slashless type.render = true := by
  cases type with
  | base type => exact Text.slashless_cons type.letter_ne_slash []
  | ref type => exact type.slashless_render

theorem FieldType.render_eq_cons (type : FieldType) :
    ∃ c rest, type.render = c :: rest ∧ c ∉ ['/', ')', 'V'] := by
  cases type with
  | base type => exact ⟨type.letter, [], rfl, by cases type <;> decide⟩
  | ref type =>
    cases type with
    | object name => exact ⟨'L', _, rfl, by decide⟩
    | array more element => exact ⟨'[', _, rfl, by decide⟩

theorem MethodType.slashless_render (type : MethodType) :
    Text.slashless type.render = true := by
  rw [MethodType.render, Text.slashless_cons (by decide)]
  induction type.parameters with
  | nil =>
    change Text.slashless (')' :: _) = true
    rw [Text.slashless_cons (by decide)]
    cases type.result with
    | none => rfl
    | some result => exact result.slashless_render
  | cons parameter parameters ih =>
    rw [flatMap_cons, append_assoc]
    refine Text.slashless_append parameter.slashless_render ih ?_
    cases parameters with
    | nil => simp
    | cons next parameters =>
      rcases next.render_eq_cons with ⟨c, rest, hRender, hChar⟩
      simp only [mem_cons, not_or] at hChar
      simpa [hRender] using hChar.1

-- Names

/- A character of a text is the mark, or in one of the parts. -/
theorem Text.mem_splitAll {mark c : Char} {text : List Char} (hMember : c ∈ text)
    (hOther : c ≠ mark) :
    ∃ part ∈ splitAll mark text, c ∈ part := by
  induction text with
  | nil => cases hMember
  | cons first text ih =>
    simp only [splitAll]
    rcases mem_cons.mp hMember with rfl | hText
    · rw [if_neg hOther]
      split <;> exact ⟨_, mem_cons_self .., mem_cons_self ..⟩
    · rcases ih hText with ⟨part, hPart, hIn⟩
      split
      · exact ⟨part, mem_cons_of_mem _ hPart, hIn⟩
      · split
        case h_1 hNone => exact absurd hNone (splitAll_ne_nil mark text)
        case h_2 head parts hSplit =>
          rw [hSplit] at hPart
          rcases mem_cons.mp hPart with rfl | hOld
          · exact ⟨_, mem_cons_self .., mem_cons_of_mem _ hIn⟩
          · exact ⟨part, mem_cons_of_mem _ hOld, hIn⟩

/- Dots, semicolons and brackets are not in the name of a class. -/
theorem ClassName.not_mem_text (name : ClassName) {c : Char} (hMark : c ∈ ['.', ';', '[']) :
    c ∉ name.text.toList := by
  intro hMember
  have hSlash : c ≠ '/' := by
    rintro rfl
    exact absurd hMark (by decide)
  rcases Text.mem_splitAll hMember hSlash with ⟨part, hPart, hIn⟩
  have hAny : part.any (['.', ';', '[', '/'].contains ·) = true :=
    any_eq_true.mpr ⟨c, hIn, contains_iff_mem.mpr (mem_append_left ['/'] hMark)⟩
  have hValid := name.valid
  unfold classFault? at hValid
  split at hValid
  · cases hValid
  · split at hValid
    · cases hValid
    · have hFault := findSome?_eq_none_iff.mp hValid part hPart
      unfold memberFault? at hFault
      rw [String.toList_ofList, hAny] at hFault
      split at hFault <;> simp at hFault

theorem ClassName.parse_text (name : ClassName) : ClassName.parse name.text = .ok name := by
  unfold ClassName.parse
  split
  · rfl
  · rename_i hFault
    cases name.valid.symm.trans hFault

-- Readers

variable (rest : List Char)

theorem BaseType.parseFrom_letter (type : BaseType) :
    BaseType.parseFrom (type.letter :: rest) = .ok (type, rest) := by
  simp [BaseType.parseFrom]

theorem ClassName.parseTerminated_text (name : ClassName) :
    ClassName.parseTerminated (name.text.toList ++ ';' :: rest) = .ok (name, rest) := by
  unfold ClassName.parseTerminated
  rw [Text.cutFirst?_append (name.not_mem_text (by decide))]
  simp only [String.ofList_toList, name.parse_text]

theorem ClassName.parseFrom_render (name : ClassName) :
    ClassName.parseFrom ((Element.object name).render ++ rest) = .ok (name, rest) := by
  simp [Element.render, ClassName.parseFrom, name.parseTerminated_text rest]

theorem ClassName.text_of_parseFrom {name : ClassName} {text rest : List Char}
    (hParse : ClassName.parseFrom text = .ok (name, rest)) :
    text = (Element.object name).render ++ rest := by
  unfold ClassName.parseFrom at hParse
  split at hParse
  case h_1 tail =>
    rw [ClassName.text_of_parseTerminated hParse]
    simp [Element.render]
  case h_2 => cases hParse

theorem Element.parseFrom_render (element : Element) :
    Element.parseFrom (element.render ++ rest) = .ok (element, rest) := by
  cases element with
  | base type =>
    have hLetter : type.letter ≠ 'L' := by cases type <;> decide
    unfold Element.parseFrom
    split
    case h_1 hText => exact absurd (List.cons.inj hText).1 hLetter
    case h_2 => simp [Element.render, type.parseFrom_letter rest]
  | object name => simp [Element.render, Element.parseFrom, name.parseTerminated_text rest]

/- The brackets that are left to read are counted with those read before. -/
theorem RefType.parseArray_render (element : Element) (count more : Nat) :
    RefType.parseArray more (List.replicate count '[' ++ element.render ++ rest) =
      .ok (.array (more + count) element, rest) := by
  induction count generalizing more with
  | zero =>
    have hHead : ∀ text, element.render ++ rest ≠ '[' :: text := by
      cases element with
      | base type => cases type <;> simp [Element.render, BaseType.letter]
      | object name => simp [Element.render]
    rw [replicate_zero, nil_append]
    unfold RefType.parseArray
    split
    case h_1 text hText => exact absurd hText (hHead text)
    case h_2 => simp [Element.parseFrom_render]
  | succ count ih =>
    rw [replicate_succ, cons_append, cons_append, RefType.parseArray, ih (more + 1),
      Nat.add_right_comm, Nat.add_assoc]

theorem RefType.parseFrom_render (type : RefType) :
    RefType.parseFrom (type.render ++ rest) = .ok (type, rest) := by
  cases type with
  | object name =>
    simp [RefType.render, Element.render, RefType.parseFrom, name.parseTerminated_text rest]
  | array more element =>
    have hRead := RefType.parseArray_render rest element more 0
    rw [Nat.zero_add] at hRead
    exact hRead

theorem FieldType.parseFrom_render (type : FieldType) :
    FieldType.parseFrom (type.render ++ rest) = .ok (type, rest) := by
  cases type with
  | base type => simp [FieldType.render, FieldType.parseFrom]
  | ref type =>
    have hRead := type.parseFrom_render rest
    have hHead : ∃ c tail, type.render = c :: tail ∧ (c = 'L' ∨ c = '[') ∧
        BaseType.ofLetter? c = none := by
      cases type with
      | object name => exact ⟨'L', _, rfl, .inl rfl, by decide⟩
      | array more element => exact ⟨'[', _, rfl, .inr rfl, by decide⟩
    rcases hHead with ⟨c, tail, hRender, hChar, hLetter⟩
    rw [hRender, cons_append] at hRead
    simp only [FieldType.render, hRender, cons_append, FieldType.parseFrom, hLetter,
      if_pos hChar, hRead]

theorem MethodType.parseParameters_render (types : List FieldType) :
    MethodType.parseParameters (types.flatMap FieldType.render ++ ')' :: rest) =
      .ok (types, ')' :: rest) := by
  induction types with
  | nil => simp [MethodType.parseParameters]
  | cons type types ih =>
    have hRead := type.parseFrom_render (types.flatMap FieldType.render ++ ')' :: rest)
    rcases type.render_eq_cons with ⟨c, tail, hRender, hChar⟩
    rw [hRender, cons_append] at hRead
    rw [flatMap_cons, append_assoc, hRender, cons_append,
      MethodType.parseParameters]
    · split
      case h_1 fault hFault => cases hFault.symm.trans hRead
      case h_2 found left hFound =>
        cases hFound.symm.trans hRead
        rw [ih]
    · intro hSame
      simp [hSame] at hChar

theorem MethodType.parseFrom_render (type : MethodType) :
    MethodType.parseFrom (type.render ++ rest) = .ok (type, rest) := by
  rcases type with ⟨parameters, result⟩
  simp only [MethodType.render, cons_append, append_assoc, MethodType.parseFrom,
    MethodType.parseParameters_render]
  cases result with
  | none => rfl
  | some result =>
    have hRead := result.parseFrom_render rest
    rcases result.render_eq_cons with ⟨c, tail, hRender, hChar⟩
    -- No type starts with the letter for no result.
    have hResult : MethodType.parseResult (result.render ++ rest) = .ok (some result, rest) := by
      unfold MethodType.parseResult
      split
      case h_1 hText =>
        rw [hRender] at hText
        simp [(List.cons.inj hText).1] at hChar
      case h_2 => simp only [hRead]
    simp only [hResult]

-- Values and texts

/-
  What is written is read back from the front of any text, with
  the rest left over, and what is read from a whole text is
  written as that text.
-/
structure Descriptor.ReadAsWritten {α : Type} (read : Descriptor.Reader α)
    (render : α → List Char) : Prop where
  reads : ∀ value rest, read (render value ++ rest) = .ok (value, rest)
  writes : ∀ text value, Descriptor.complete read text = .ok value → render value = text

theorem Descriptor.readAsWritten_of {α : Type} {read : Descriptor.Reader α}
    {render : α → List Char}
    (hReads : ∀ rest value, read (render value ++ rest) = .ok (value, rest))
    (hText : ∀ {text value rest}, read text = .ok (value, rest) → text = render value ++ rest) :
    Descriptor.ReadAsWritten read render := by
  refine ⟨fun value rest => hReads rest value, fun text value hComplete => ?_⟩
  rw [hText (Descriptor.read_of_complete hComplete), append_nil]

/-
  The descriptors of primitive types, classes, reference types,
  fields and methods are read as they are written, and so are
  the operands that name a class or an array type.
-/
theorem Descriptor.read_as_written :
    ReadAsWritten BaseType.parseFrom (fun type => [type.letter]) ∧
      ReadAsWritten ClassName.parseFrom (fun name => (Element.object name).render) ∧
      ReadAsWritten RefType.parseFrom RefType.render ∧
      ReadAsWritten FieldType.parseFrom FieldType.render ∧
      ReadAsWritten MethodType.parseFrom MethodType.render ∧
      (∀ type : RefType, RefType.parseOperand (String.ofList type.operand) = .ok type) ∧
      ∀ word type, RefType.parseOperand word = .ok type → String.ofList type.operand = word := by
  refine ⟨readAsWritten_of BaseType.parseFrom_letter BaseType.text_of_parseFrom,
    readAsWritten_of ClassName.parseFrom_render ClassName.text_of_parseFrom,
    readAsWritten_of RefType.parseFrom_render RefType.text_of_parseFrom,
    readAsWritten_of FieldType.parseFrom_render FieldType.text_of_parseFrom,
    readAsWritten_of MethodType.parseFrom_render MethodType.text_of_parseFrom, ?_, ?_⟩
  · intro type
    unfold RefType.parseOperand
    rw [String.toList_ofList]
    cases type with
    | object name =>
      split
      case h_1 tail hText =>
        refine absurd ?_ (name.not_mem_text (c := '[') (by decide))
        rw [show name.text.toList = '[' :: tail from hText]
        exact mem_cons_self ..
      case h_2 => rw [RefType.operand, String.ofList_toList, name.parse_text]
    | array more element =>
      have hRead := RefType.parseFrom_render [] (.array more element)
      rw [append_nil] at hRead
      split
      case h_1 => simp only [RefType.parse, Descriptor.complete, RefType.operand,
        String.toList_ofList, hRead]
      case h_2 hOther => exact absurd rfl (hOther _)
  · intro word type hParse
    rw [RefType.text_of_parseOperand hParse, String.ofList_toList]

end Unboxing
