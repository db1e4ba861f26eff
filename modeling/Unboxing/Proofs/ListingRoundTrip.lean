import Unboxing.Listing.Parser
import Unboxing.Proofs.ListingBodies

/-
  Whole listings: the listing that is written for classes that
  were read is read as those classes.

  Main declarations:
    * `Listing.flags_keywords`
    * `Class.Listable`
    * `Listing.listable_of_parseLines`
    * `Listing.parseLines_lineWords`
    * `Listing.parseClasses_renderClasses`
-/

namespace Unboxing

open List Listing Reading Text

-- Access flags

namespace Listing

variable {table : Access.Table} {found : Access.Flags} {line : Nat}
variable {words : List String}

theorem testBit_foldl_or (parts : List Access.Flags) (start : Access.Flags) (bit : Nat) :
    (parts.foldl (· ||| ·) start).testBit bit =
      (start.testBit bit || parts.any (·.testBit bit)) := by
  induction parts generalizing start with
  | nil => simp
  | cons part parts ih => simp [ih, Nat.testBit_or, Bool.or_assoc]

/- Add the flag of a keyword. -/
def addFlag (table : Access.Table) (line : Nat) (found : Access.Flags)
    (word : String) : Except Error Access.Flags :=
  match Access.ofKeyword? table word with
  | some flag => .ok (found ||| flag)
  | none => refuse line (.unknownFlag word)

theorem flags_eq (table : Access.Table) (line : Nat) (words : List String) :
    flags table line words = words.foldlM (addFlag table line) 0 :=
  rfl

/- Flags that are read are made of flags of the table. -/
theorem parts_of_flags {start : Access.Flags}
    (hRead : words.foldlM (addFlag table line) start = .ok found) :
    ∃ parts : List Access.Flags, (∀ part ∈ parts, part ∈ table.map Prod.snd) ∧
      found = parts.foldl (· ||| ·) start := by
  induction words generalizing start with
  | nil =>
    cases hRead
    exact ⟨[], fun _ => nofun, rfl⟩
  | cons word words ih =>
    rw [foldlM_cons] at hRead
    rcases ok_of_bind hRead with ⟨next, hFirst, hRest⟩
    rcases ih hRest with ⟨parts, hParts, hFound⟩
    unfold addFlag at hFirst
    split at hFirst
    case h_1 flag hFlag =>
      cases hFirst
      have hMem : flag ∈ table.map Prod.snd := mem_map_of_mem (mem_of_lookup hFlag)
      exact ⟨flag :: parts, forall_mem_cons.mpr ⟨hMem, hParts⟩, hFound⟩
    case h_2 => cases hFirst

/- The keywords of entries of a table are read as their flags. -/
theorem foldlM_addFlag
    (hTable : ∀ entry ∈ table, Access.ofKeyword? table entry.1 = some entry.2)
    {entries : Access.Table} (hEntries : ∀ entry ∈ entries, entry ∈ table) (line : Nat)
    (start : Access.Flags) :
    (entries.map Prod.fst).foldlM (addFlag table line) start =
      .ok ((entries.map Prod.snd).foldl (· ||| ·) start) := by
  induction entries generalizing start with
  | nil => rfl
  | cons entry entries ih =>
    rcases forall_mem_cons.mp hEntries with ⟨hEntry, hRest⟩
    rw [map_cons, foldlM_cons, addFlag, hTable entry hEntry]
    exact ih hRest _

/-
  The flags that are included in a combination of flags of the
  table combine to the same.
-/
theorem foldl_included {parts : List Access.Flags}
    (hParts : ∀ part ∈ parts, part ∈ table.map Prod.snd)
    (hFound : found = parts.foldl (· ||| ·) 0) :
    ((table.filter fun entry => Access.includes found entry.2).map Prod.snd).foldl (· ||| ·) 0 =
      found := by
  have hBits (bit : Nat) : found.testBit bit = true ↔ ∃ part ∈ parts, part.testBit bit = true := by
    rw [hFound, testBit_foldl_or, Nat.zero_testBit, Bool.false_or, any_eq_true]
  refine Nat.eq_of_testBit_eq fun bit => ?_
  rw [testBit_foldl_or, Nat.zero_testBit, Bool.false_or, Bool.eq_iff_iff, any_eq_true, hBits]
  constructor
  · rintro ⟨flag, hFlag, hBit⟩
    rcases mem_map.mp hFlag with ⟨entry, hEntry, rfl⟩
    have hIncluded := (mem_filter.mp hEntry).2
    rw [← hBits]
    rw [Access.includes, beq_iff_eq] at hIncluded
    rw [← hIncluded, Nat.testBit_and, Bool.and_eq_true] at hBit
    exact hBit.1
  · rintro ⟨part, hPart, hBit⟩
    rcases mem_map.mp (hParts part hPart) with ⟨entry, hEntry, rfl⟩
    refine ⟨entry.2, mem_map_of_mem (mem_filter.mpr ⟨hEntry, ?_⟩), hBit⟩
    rw [Access.includes, beq_iff_eq]
    refine Nat.eq_of_testBit_eq fun bit => ?_
    rw [Nat.testBit_and]
    cases hBit : entry.2.testBit bit with
    | false => rw [Bool.and_false]
    | true => rw [(hBits bit).mpr ⟨entry.2, hPart, hBit⟩, Bool.and_true]

/- Flags that are read are read back from their keywords. -/
theorem flags_keywords
    (hTable : ∀ entry ∈ table, Access.ofKeyword? table entry.1 = some entry.2)
    (hRead : flags table line words = .ok found) (other : Nat) :
    flags table other (Access.keywords table found) = .ok found := by
  rcases parts_of_flags hRead with ⟨parts, hParts, hFound⟩
  have hEntries : ∀ entry ∈ table.filter fun entry => Access.includes found entry.2,
      entry ∈ table :=
    fun entry hEntry => mem_of_mem_filter hEntry
  rw [flags_eq, Access.keywords, foldlM_addFlag hTable hEntries, foldl_included hParts hFound]

end Listing

-- Declarations that can be written

/- Flags whose keywords are read as those flags. -/
def Access.Listable (table : Access.Table) (found : Access.Flags) : Prop :=
  ∀ line, flags table line (Access.keywords table found) = .ok found

/- The words of the line of a field, after the first. -/
def Field.headerWords (field : Field) : List String :=
  Access.keywords Access.fieldTable field.flags
    ++ [field.name.text, String.ofList field.type.render]

/- The words of the first line of a method, after the first. -/
def Method.headerWords (method : Method) : List String :=
  Access.keywords Access.methodTable method.flags ++ [method.signature]

/- The words of the first line of a class, after the first. -/
def Class.headerWords (cls : Class) : List String :=
  Access.keywords Access.classTable cls.flags ++ [cls.name.text]
    ++ (match cls.parent with
      | some parent => ["extends", parent.text]
      | none => [])

/- A field whose line is read as that field. -/
structure Field.Listable (field : Field) : Prop where
  clean : ∀ word ∈ field.headerWords, Clean word
  reads : ∀ line, parseField line field.headerWords = .ok field

/- A method whose lines are read as that method. -/
structure Method.Listable (method : Method) : Prop where
  clean : ∀ word ∈ method.headerWords, Clean word
  reads : ∀ line, parseMethodHeader line method.headerWords = .ok { method with body := none }
  body : ∀ body ∈ method.body, body.Listable
  bodiless : method.body = none → Access.meets method.flags Access.bodilessFlags = true

/- A class whose lines are read as that class. -/
structure Class.Listable (cls : Class) : Prop where
  clean : ∀ word ∈ cls.headerWords, Clean word
  reads : ∀ line,
    parseClassHeader line cls.headerWords = .ok { cls with fields := [], methods := [] }
  fields : ∀ field ∈ cls.fields, field.Listable
  methods : ∀ method ∈ cls.methods, method.Listable

namespace Listing

variable {line : Nat} {words : List String} {method : Method} {cls : Class}
variable {lines rest : List Line} {table : Access.Table}

/- A table whose keywords are words, each with its own flag. -/
def IsTable (table : Access.Table) : Prop :=
  ∀ entry ∈ table, Clean entry.1 ∧ Access.ofKeyword? table entry.1 = some entry.2

instance (table : Access.Table) : Decidable (IsTable table) :=
  inferInstanceAs (Decidable (∀ entry ∈ table, _ ∧ _))

theorem clean_keywords (hTable : IsTable table) (found : Access.Flags) :
    ∀ word ∈ Access.keywords table found, Clean word :=
  forall_mem_map.mpr fun entry hEntry => (hTable entry (mem_of_mem_filter hEntry)).1

theorem listable_of_flags (hTable : IsTable table) {found : Access.Flags}
    (hRead : flags table line words = .ok found) :
    Access.Listable table found :=
  flags_keywords (fun entry hEntry => (hTable entry hEntry).2) hRead

theorem listable_of_parseField {field : Field}
    (hWords : ∀ word ∈ words, IsWord word.toList)
    (hRead : parseField line words = .ok field) :
    field.Listable := by
  have hTable : IsTable Access.fieldTable := by decide
  unfold parseField at hRead
  split at hRead
  case h_1 typeWord nameWord flagWords hReverse =>
    have hSplit : ∀ word ∈ [typeWord, nameWord], IsWord word.toList := by
      intro word hWord
      refine hWords word (mem_reverse.mp ?_)
      rw [hReverse]
      exact mem_append_left flagWords hWord
    rcases ok_of_bind hRead with ⟨name, hName, hRead⟩
    rcases ok_of_bind hRead with ⟨type, hType, hRead⟩
    rcases made_of_ok hRead with ⟨found, hFlags, rfl⟩
    have hName := spells_of_memberName (hSplit nameWord (by simp)) hName
    have hType := spells_of_fieldType (hSplit typeWord (by simp)) hType
    have hFlags := listable_of_flags hTable hFlags
    constructor
    · refine forall_mem_append.mpr ⟨clean_keywords hTable found, ?_⟩
      exact forall_mem_cons.mpr ⟨hName.clean, forall_mem_singleton.mpr hType.clean⟩
    · intro line
      simp only [Field.headerWords, parseField, reverse_append, reverse_cons,
        reverse_nil, nil_append, cons_append, reverse_reverse,
        hName.reads, hType.reads, hFlags line, ok_bind]
      rfl
  case h_2 => cases hRead

theorem listable_of_parseMethodHeader (hWords : ∀ word ∈ words, IsWord word.toList)
    (hRead : parseMethodHeader line words = .ok method) :
    method.body = none ∧ (∀ word ∈ method.headerWords, Clean word) ∧
      ∀ line, parseMethodHeader line method.headerWords = .ok method := by
  have hTable : IsTable Access.methodTable := by decide
  unfold parseMethodHeader at hRead
  split at hRead
  case h_1 => cases hRead
  case h_2 word hLast =>
    rcases ok_of_bind hRead with ⟨⟨nameWord, typeWord⟩, hSignature, hRead⟩
    rcases ok_of_bind hRead with ⟨found, hFlags, hRead⟩
    rcases ok_of_bind hRead with ⟨type, hType, hRead⟩
    rcases made_of_ok hRead with ⟨name, hName, rfl⟩
    rcases split_of_signature hSignature with ⟨hSplit, hSignature⟩
    have hName := parse_of_memberName hName
    have hType := parse_of_descriptor hType
    have hFlags := listable_of_flags hTable hFlags
    have hText : name.text ++ String.ofList type.render = word := by
      rw [hSplit, MemberName.text_of_parse hName, MethodType.text_of_parse hType,
        String.ofList_toList]
    have hWord : IsWord word.toList := hWords word (mem_of_getLast? hLast)
    have hClean : Clean (name.text ++ String.ofList type.render) :=
      clean_signature (hText ▸ hWord) (slashless_of_not_mem name.not_mem_slash)
    refine ⟨rfl, forall_mem_append.mpr
      ⟨clean_keywords hTable found, forall_mem_singleton.mpr hClean⟩, ?_⟩
    intro line
    have hHeader : (⟨name, type, found, none⟩ : Method).headerWords =
        Access.keywords Access.methodTable found ++ [word] := by
      rw [← hText]
      rfl
    simp only [hHeader, parseMethodHeader, getLast?_concat, dropLast_concat, hSignature,
      hFlags line, methodType, descriptor, hType, memberName, hName, ok_bind]
    rfl

theorem spells_of_cutParent {front : List String} {parent : Option ClassName}
    (hWords : ∀ word ∈ words, IsWord word.toList)
    (hCut : cutParent line words = .ok (front, parent)) :
    (∀ word ∈ front, IsWord word.toList) ∧ ∀ name ∈ parent, Spells className name.text name := by
  unfold cutParent at hCut
  split at hCut
  case h_1 word rest hReverse =>
    have hMem : ∀ other ∈ word :: "extends" :: rest, other ∈ words := by
      intro other hOther
      rw [← mem_reverse, hReverse]
      exact hOther
    rcases made_of_ok hCut with ⟨name, hName, hPair⟩
    cases hPair
    constructor
    · intro other hOther
      exact hWords other (hMem other (by simp [mem_reverse.mp hOther]))
    · rintro _ ⟨rfl⟩
      exact spells_of_className (hWords word (hMem word mem_cons_self)) hName
  case h_2 =>
    cases hCut
    exact ⟨hWords, fun _ => nofun⟩

/- What is written of a superclass is cut off again. -/
theorem cutParent_headerWords
    (hParent : ∀ name ∈ cls.parent, Spells className name.text name) (line : Nat) :
    cutParent line cls.headerWords =
      .ok (Access.keywords Access.classTable cls.flags ++ [cls.name.text], cls.parent) := by
  rcases cls with ⟨name, found, parent, fields, methods⟩
  have hKeyword : "extends" ∉ Access.keywords Access.classTable found := by
    intro hMem
    rcases mem_map.mp hMem with ⟨entry, hEntry, hWord⟩
    have hNone : ∀ entry ∈ Access.classTable, entry.1 ≠ "extends" := by decide
    exact hNone entry (mem_of_mem_filter hEntry) hWord
  cases parent with
  | some parent =>
    simp only [Class.headerWords, cutParent, reverse_append, reverse_cons,
      reverse_nil, nil_append, cons_append, reverse_reverse,
      (hParent parent rfl).reads, ok_bind]
    rfl
  | none =>
    simp only [Class.headerWords, cutParent, append_nil, reverse_append,
      reverse_cons, reverse_nil, nil_append, cons_append]
    split
    case h_1 hReverse =>
      have hMem : "extends" ∈ (Access.keywords Access.classTable found).reverse := by
        rw [(List.cons.inj hReverse).2]
        exact mem_cons_self
      exact absurd (mem_reverse.mp hMem) hKeyword
    case h_2 => rfl

theorem listable_of_parseClassHeader (hWords : ∀ word ∈ words, IsWord word.toList)
    (hRead : parseClassHeader line words = .ok cls) :
    cls.Listable := by
  have hTable : IsTable Access.classTable := by decide
  unfold parseClassHeader at hRead
  rcases ok_of_bind hRead with ⟨⟨front, parent⟩, hCut, hRead⟩
  rcases spells_of_cutParent hWords hCut with ⟨hFront, hParent⟩
  dsimp only at hRead
  split at hRead
  case h_1 => cases hRead
  case h_2 word hLast =>
    rcases ok_of_bind hRead with ⟨name, hName, hRead⟩
    rcases made_of_ok hRead with ⟨found, hFlags, rfl⟩
    have hName := spells_of_className (hFront word (mem_of_getLast? hLast)) hName
    have hFlags := listable_of_flags hTable hFlags
    refine ⟨?_, ?_, fun _ => nofun, fun _ => nofun⟩
    · refine forall_mem_append.mpr ⟨forall_mem_append.mpr
        ⟨clean_keywords hTable found, forall_mem_singleton.mpr hName.clean⟩, ?_⟩
      cases parent with
      | none => exact fun _ => nofun
      | some parent =>
        exact forall_mem_cons.mpr
          ⟨by decide, forall_mem_singleton.mpr (hParent parent rfl).clean⟩
    · intro line
      rw [parseClassHeader, cutParent_headerWords hParent]
      simp only [ok_bind, getLast?_concat, dropLast_concat, hName.reads, hFlags line]
      rfl

-- Listings that are read

theorem split_of_cutEnd? {body : List Line} (hCut : cutEnd? lines = some (body, rest)) :
    ∃ last, lines = body ++ last :: rest := by
  induction lines generalizing body with
  | nil => cases hCut
  | cons line lines ih =>
    simp only [cutEnd?] at hCut
    split at hCut
    · cases hCut
      exact ⟨line, rfl⟩
    · rcases Option.map_eq_some_iff.mp hCut with ⟨⟨inner, left⟩, hInner, hPair⟩
      cases hPair
      rcases ih hInner with ⟨last, rfl⟩
      exact ⟨last, rfl⟩

theorem listable_of_parseMethodBody {found : Option Body}
    (hLines : ∀ line ∈ lines, stripComment line.text = line.text)
    (hRead : parseMethodBody method lines = .ok found) :
    (∀ body ∈ found, body.Listable) ∧
      (found = none → Access.meets method.flags Access.bodilessFlags = true) := by
  unfold parseMethodBody at hRead
  split at hRead
  case isTrue hBodiless =>
    cases hRead
    exact ⟨fun _ => nofun, fun _ => (Bool.and_eq_true _ _ ▸ hBodiless).2⟩
  case isFalse =>
    rcases made_of_ok hRead with ⟨body, hBody, rfl⟩
    refine ⟨?_, nofun⟩
    rintro _ ⟨rfl⟩
    exact listable_of_body hLines hBody

theorem listable_of_parseMethod (hWords : ∀ word ∈ words, IsWord word.toList)
    (hLines : ∀ line ∈ lines, stripComment line.text = line.text)
    (hRead : parseMethod line words lines = .ok (method, rest)) :
    method.Listable ∧ ∀ line ∈ rest, line ∈ lines := by
  unfold parseMethod at hRead
  split at hRead
  case h_1 => cases hRead
  case h_2 header hHeader =>
    split at hRead
    case h_1 => cases hRead
    case h_2 inner left hCut =>
      split at hRead
      case h_1 => cases hRead
      case h_2 found hBody =>
        cases hRead
        rcases split_of_cutEnd? hCut with ⟨last, rfl⟩
        rcases listable_of_parseMethodHeader hWords hHeader with ⟨hNone, hClean, hReads⟩
        rcases header with ⟨name, type, flags, body⟩
        cases hNone
        rcases listable_of_parseMethodBody
          (fun line hLine => hLines line (mem_append_left _ hLine)) hBody with
          ⟨hListable, hBodiless⟩
        exact ⟨⟨hClean, hReads, hListable, hBodiless⟩,
          fun line hLine => mem_append_right _ (mem_cons_of_mem _ hLine)⟩

theorem listable_of_parseMembers {header : Nat} {found : Class} (hClass : cls.Listable)
    (hLines : ∀ line ∈ lines, stripComment line.text = line.text)
    (hRead : parseMembers header cls lines = .ok (found, rest)) :
    found.Listable ∧ ∀ line ∈ rest, line ∈ lines := by
  have hTail {line : Line} {word : String} {words : List String}
      (hWords : line.words = word :: words) : ∀ other ∈ words, IsWord other.toList :=
    fun other hOther => isWord_of_mem_line (hWords ▸ mem_cons_of_mem word hOther)
  fun_induction parseMembers header cls lines with
  | case1 => cases hRead
  | case2 cls line lines hWords ih =>
    rcases ih hClass (forall_mem_cons.mp hLines).2 hRead with ⟨hFound, hRest⟩
    exact ⟨hFound, fun other hOther => mem_cons_of_mem _ (hRest other hOther)⟩
  | case3 cls line lines words hWords =>
    cases hRead
    exact ⟨hClass, fun other hOther => mem_cons_of_mem _ hOther⟩
  | case4 => cases hRead
  | case5 cls line lines words field hField hWords hEnd ih =>
    have hListable : field.Listable := listable_of_parseField (hTail hWords) hField
    have hNext : Class.Listable { cls with fields := cls.fields ++ [field] } :=
      ⟨hClass.clean, hClass.reads,
        forall_mem_append.mpr ⟨hClass.fields, forall_mem_singleton.mpr hListable⟩,
        hClass.methods⟩
    rcases ih hNext (forall_mem_cons.mp hLines).2 hRead with ⟨hFound, hRest⟩
    exact ⟨hFound, fun other hOther => mem_cons_of_mem _ (hRest other hOther)⟩
  | case6 => cases hRead
  | case7 cls line lines words method left hMethod _ hWords hEnd hField ih =>
    have hOthers := (forall_mem_cons.mp hLines).2
    rcases listable_of_parseMethod (hTail hWords) hOthers hMethod with ⟨hListable, hLeft⟩
    have hNext : Class.Listable { cls with methods := cls.methods ++ [method] } :=
      ⟨hClass.clean, hClass.reads, hClass.fields,
        forall_mem_append.mpr ⟨hClass.methods, forall_mem_singleton.mpr hListable⟩⟩
    rcases ih hNext (fun other hOther => hOthers other (hLeft other hOther)) hRead with
      ⟨hFound, hRest⟩
    exact ⟨hFound, fun other hOther => mem_cons_of_mem _ (hLeft other (hRest other hOther))⟩
  | case8 => cases hRead

theorem listable_of_parseLines {classes : List Class}
    (hLines : ∀ line ∈ lines, stripComment line.text = line.text)
    (hRead : parseLines lines = .ok classes) :
    ∀ cls ∈ classes, cls.Listable := by
  fun_induction parseLines lines generalizing classes with
  | case1 =>
    cases hRead
    exact fun _ => nofun
  | case2 | case3 | case4 => cases hRead
  | case5 line lines words hWords cls hHeader found rest hMembers _ others hOthers ih =>
    cases hRead
    rcases forall_mem_cons.mp hLines with ⟨_, hAfter⟩
    have hClass : cls.Listable := listable_of_parseClassHeader
      (fun word hWord => isWord_of_mem_line (hWords ▸ mem_cons_of_mem _ hWord)) hHeader
    rcases listable_of_parseMembers hClass hAfter hMembers with ⟨hFound, hRest⟩
    have hOthers := ih (fun other hOther => hAfter other (hRest other hOther)) hOthers
    exact forall_mem_cons.mpr ⟨hFound, hOthers⟩
  | case6 => cases hRead

end Listing

-- Listings that are written

def Method.lineWords (method : Method) : List (List String) :=
  ("method" :: method.headerWords)
    :: ((method.body.map Body.lineWords).getD [] ++ [["end"]])

def Class.lineWords (cls : Class) : List (List String) :=
  ("class" :: cls.headerWords)
    :: (cls.fields.map (fun field => "field" :: field.headerWords)
      ++ (cls.methods.flatMap Method.lineWords ++ [["end"]]))

namespace Listing

variable {words : List String} {after : List (List Char)} {method : Method}
variable {lines : List Line} {line : Line} {α : Type} {classes : List Class}

/- A text that is read as some lines, whatever follows it. -/
def Lays (text : String) (lines : List (List Char)) : Prop :=
  ∀ rest, (linesOf (text.toList ++ rest)).map Line.text = lines ++ (linesOf rest).map Line.text

theorem lays_empty : Lays "" [] :=
  fun _ => rfl

theorem lays_break : Lays "\n" [] :=
  texts_linesOf_break

theorem lays_line (hKept : Kept (lineText words)) (depth : Nat) :
    Lays (renderLine depth words) [lineText words] := by
  intro rest
  have hText : (renderLine depth words).toList ++ rest =
      List.replicate (2 * depth) ' ' ++ lineText words ++ '\n' :: rest := by
    simp [renderLine, lineText]
  rw [hText, texts_linesOf_cons hKept]
  rfl

theorem lays_append {first second : String} {before : List (List Char)}
    (hFirst : Lays first before) (hSecond : Lays second after) :
    Lays (first ++ second) (before ++ after) := by
  intro rest
  rw [String.toList_append, append_assoc, hFirst, hSecond, append_assoc]

theorem lays_join {items : List α} {render : α → String} {lines : α → List (List Char)}
    (hItems : ∀ item ∈ items, Lays (render item) (lines item)) :
    Lays (String.join (items.map render)) (items.flatMap lines) := by
  induction items with
  | nil => exact lays_empty
  | cons item items ih =>
    rcases forall_mem_cons.mp hItems with ⟨hItem, hRest⟩
    rw [map_cons, String.join_cons, flatMap_cons]
    exact lays_append hItem (ih hRest)

theorem lays_lines {items : List α} {wordsOf : α → List String}
    (hKept : ∀ item ∈ items, Kept (lineText (wordsOf item))) (depth : Nat) :
    Lays (String.join (items.map fun item => renderLine depth (wordsOf item)))
      ((items.map wordsOf).map lineText) := by
  have hJoin : Lays (String.join (items.map fun item => renderLine depth (wordsOf item)))
      (items.flatMap fun item => [lineText (wordsOf item)]) :=
    lays_join fun item hItem => lays_line (hKept item hItem) depth
  have hLines : (items.map wordsOf).map lineText =
      items.flatMap fun item => [lineText (wordsOf item)] := by
    rw [map_map, map_eq_flatMap]
    rfl
  rw [hLines]
  exact hJoin

theorem lays_body {body : Body} (hBody : body.Listable) :
    Lays body.render (body.lineWords.map lineText) := by
  rcases forall_mem_cons.mp (kept_lineWords hBody) with ⟨hMaxs, hRest⟩
  rcases forall_mem_append.mp hRest with ⟨hNodes, hRest⟩
  rcases forall_mem_append.mp hRest with ⟨hVars, hHandlers⟩
  have hLines : body.lineWords.map lineText =
      [lineText ["maxs", toString body.maxStack, toString body.maxLocals]]
        ++ (body.nodes.map Node.words).map lineText ++ (body.vars.map Variable.words).map lineText
        ++ (body.handlers.map Handler.words).map lineText := by
    simp [Body.lineWords]
  rw [hLines]
  refine lays_append (lays_append (lays_append (lays_line hMaxs.1 2) ?_) ?_) ?_
  · exact lays_lines (fun found hFound => (hNodes _ (mem_map_of_mem hFound)).1) 2
  · exact lays_lines (fun entry hEntry => (hVars _ (mem_map_of_mem hEntry)).1) 2
  · exact lays_lines (fun entry hEntry => (hHandlers _ (mem_map_of_mem hEntry)).1) 2

theorem kept_end : Kept (lineText ["end"]) :=
  kept_lineText (by decide) (by decide)

theorem lays_method (hMethod : method.Listable) :
    Lays method.render (method.lineWords.map lineText) := by
  have hHeader : Kept (lineText ("method" :: method.headerWords)) :=
    kept_lineText (cons_ne_nil _ _) (forall_mem_cons.mpr ⟨by decide, hMethod.clean⟩)
  have hBody : Lays ((method.body.map Body.render).getD "")
      (((method.body.map Body.lineWords).getD []).map lineText) := by
    cases hFound : method.body with
    | none => exact lays_empty
    | some body => exact lays_body (hMethod.body body hFound)
  have hLines : method.lineWords.map lineText = [lineText ("method" :: method.headerWords)]
      ++ ((method.body.map Body.lineWords).getD []).map lineText ++ [lineText ["end"]] := by
    simp [Method.lineWords]
  rw [hLines]
  exact lays_append (lays_append (lays_line hHeader 1) hBody) (lays_line kept_end 1)

theorem lays_class {cls : Class} (hClass : cls.Listable) :
    Lays cls.render (cls.lineWords.map lineText) := by
  have hHeader : Kept (lineText ("class" :: cls.headerWords)) :=
    kept_lineText (cons_ne_nil _ _) (forall_mem_cons.mpr ⟨by decide, hClass.clean⟩)
  have hField (field : Field) (hField : field ∈ cls.fields) :
      Kept (lineText ("field" :: field.headerWords)) :=
    kept_lineText (cons_ne_nil _ _)
      (forall_mem_cons.mpr ⟨by decide, (hClass.fields field hField).clean⟩)
  have hFields := lays_lines hField 1
  have hMethods := lays_join fun method hMethod => lays_method (hClass.methods method hMethod)
  have hLines : cls.lineWords.map lineText = [lineText ("class" :: cls.headerWords)]
      ++ (cls.fields.map (fun field => "field" :: field.headerWords)).map lineText
      ++ cls.methods.flatMap (fun method => method.lineWords.map lineText)
      ++ [lineText ["end"]] := by
    simp [Class.lineWords, map_flatMap]
  rw [hLines]
  exact lays_append (lays_append (lays_append (lays_line hHeader 0) hFields) hMethods)
    (lays_line kept_end 0)

theorem lays_classes (hClasses : ∀ cls ∈ classes, cls.Listable) :
    Lays (renderClasses classes) (classes.flatMap fun cls => cls.lineWords.map lineText) := by
  unfold renderClasses
  induction classes with
  | nil => exact lays_empty
  | cons cls classes ih =>
    rcases forall_mem_cons.mp hClasses with ⟨hClass, hRest⟩
    have hFirst := lays_class hClass
    cases classes with
    | nil => simpa using hFirst
    | cons next classes =>
      rw [map_cons, map_cons, String.intercalate_cons_cons, flatMap_cons]
      have hBoth := lays_append (lays_append hFirst lays_break) (ih hRest)
      rwa [append_nil] at hBoth

-- Listings that are read back

theorem lineText_end : lineText ["end"] = "end".toList := by
  decide

theorem cutEnd?_append {inner : List Line}
    (hInner : ∀ line ∈ inner, line.text ≠ "end".toList) {last : Line}
    (hLast : last.text = "end".toList) (rest : List Line) :
    cutEnd? (inner ++ last :: rest) = some (inner, rest) := by
  induction inner with
  | nil => simp [cutEnd?, hLast]
  | cons line inner ih =>
    rcases forall_mem_cons.mp hInner with ⟨hLine, hRest⟩
    rw [cons_append, cutEnd?, if_neg hLine, ih hRest]
    rfl

theorem parseMethodBody_lines (hMethod : method.Listable)
    (hLines : lines.map Line.text = ((method.body.map Body.lineWords).getD []).map lineText) :
    parseMethodBody { method with body := none } lines = .ok method.body := by
  unfold parseMethodBody
  cases hBody : method.body with
  | none =>
    rw [hBody] at hLines
    rw [map_eq_nil_iff.mp hLines, if_pos]
    simpa using hMethod.bodiless hBody
  | some body =>
    rw [hBody] at hLines
    have hNonempty : lines.isEmpty = false := by
      cases lines with
      | nil => cases hLines
      | cons line lines => rfl
    rw [hNonempty, if_neg (by simp), body_lineWords (hMethod.body body hBody) hLines]
    rfl

theorem parseMethod_lines (hMethod : method.Listable)
    (hLines : lines.map Line.text =
      ((method.body.map Body.lineWords).getD [] ++ [["end"]]).map lineText ++ after)
    (line : Nat) :
    ∃ rest, rest.map Line.text = after ∧
      parseMethod line method.headerWords lines = .ok (method, rest) := by
  rw [map_append, append_assoc] at hLines
  rcases map_eq_append_iff.mp hLines with ⟨inner, others, rfl, hInner, hOthers⟩
  rcases map_eq_cons_iff.mp hOthers with ⟨last, rest, rfl, hLast, hRest⟩
  rw [lineText_end] at hLast
  refine ⟨rest, hRest, ?_⟩
  have hOpen : ∀ line ∈ inner, line.text ≠ "end".toList := by
    intro line hLine hEnd
    have hText : line.text ∈ inner.map Line.text := mem_map_of_mem hLine
    rw [hInner] at hText
    rcases mem_map.mp hText with ⟨words, hWords, hSame⟩
    cases hBody : method.body with
    | none =>
      rw [hBody] at hWords
      cases hWords
    | some body =>
      rw [hBody] at hWords
      exact (kept_lineWords (hMethod.body body hBody) words hWords).2 (hSame.trans hEnd)
  simp only [parseMethod, hMethod.reads, cutEnd?_append hOpen hLast,
    parseMethodBody_lines hMethod hInner]

theorem parseMembers_field (hWords : line.words = "field" :: words) {field : Field}
    (hField : parseField line.number words = .ok field) (header : Nat) (cls : Class)
    (lines : List Line) :
    parseMembers header cls (line :: lines) =
      parseMembers header { cls with fields := cls.fields ++ [field] } lines := by
  rw [parseMembers]
  simp only [hWords, hField]
  rfl

theorem parseMembers_method (hWords : line.words = "method" :: words) {rest : List Line}
    (hMethod : parseMethod line.number words lines = .ok (method, rest)) (header : Nat)
    (cls : Class) :
    parseMembers header cls (line :: lines) =
      parseMembers header { cls with methods := cls.methods ++ [method] } rest := by
  rw [parseMembers]
  simp only [hWords]
  rw [if_neg (by decide), if_neg (by decide), if_pos trivial]
  split
  case h_1 hError =>
    rw [hMethod] at hError
    cases hError
  case h_2 hFound =>
    rw [hMethod] at hFound
    cases hFound
    rfl

theorem parseMembers_end (hWords : line.words = ["end"]) (header : Nat) (cls : Class)
    (lines : List Line) :
    parseMembers header cls (line :: lines) = .ok (cls, lines) := by
  rw [parseMembers]
  simp only [hWords, if_true]

theorem words_header {word : String} (hWord : Clean word)
    (hWords : ∀ other ∈ words, Clean other)
    (hLine : line.text = lineText (word :: words)) :
    line.words = word :: words :=
  words_lineText
    (forall_mem_cons.mpr ⟨hWord.isWord, fun other hOther => (hWords other hOther).isWord⟩)
    hLine

theorem parseMembers_fields {fields : List Field}
    (hFields : ∀ field ∈ fields, field.Listable)
    (hLines : lines.map Line.text =
      (fields.map fun field => "field" :: field.headerWords).map lineText ++ after)
    (header : Nat)
    (cls : Class) :
    ∃ rest, rest.map Line.text = after ∧ parseMembers header cls lines =
      parseMembers header { cls with fields := cls.fields ++ fields } rest := by
  induction fields generalizing lines cls with
  | nil => exact ⟨lines, hLines, by simp⟩
  | cons field fields ih =>
    rcases forall_mem_cons.mp hFields with ⟨hField, hOthers⟩
    rcases map_eq_cons_iff.mp hLines with ⟨line, left, rfl, hLine, hLeft⟩
    rcases ih hOthers hLeft { cls with fields := cls.fields ++ [field] } with
      ⟨rest, hRest, hParse⟩
    refine ⟨rest, hRest, ?_⟩
    rw [parseMembers_field (words_header (by decide) hField.clean hLine) (hField.reads _), hParse]
    simp

theorem parseMembers_methods {methods : List Method}
    (hMethods : ∀ method ∈ methods, method.Listable)
    (hLines : lines.map Line.text =
      (methods.flatMap fun method => method.lineWords.map lineText) ++ after)
    (header : Nat)
    (cls : Class) :
    ∃ rest, rest.map Line.text = after ∧ parseMembers header cls lines =
      parseMembers header { cls with methods := cls.methods ++ methods } rest := by
  induction methods generalizing lines cls with
  | nil => exact ⟨lines, hLines, by simp⟩
  | cons method methods ih =>
    rcases forall_mem_cons.mp hMethods with ⟨hMethod, hOthers⟩
    rw [flatMap_cons, append_assoc] at hLines
    rcases map_eq_cons_iff.mp hLines with ⟨line, left, rfl, hLine, hLeft⟩
    rcases parseMethod_lines hMethod hLeft line.number with ⟨middle, hMiddle, hRead⟩
    rcases ih hOthers hMiddle { cls with methods := cls.methods ++ [method] } with
      ⟨rest, hRest, hParse⟩
    refine ⟨rest, hRest, ?_⟩
    rw [parseMembers_method (words_header (by decide) hMethod.clean hLine) hRead, hParse]
    simp

/- The lines of classes that can be written are read as those classes. -/
theorem parseLines_lineWords (hClasses : ∀ cls ∈ classes, cls.Listable)
    (hLines : lines.map Line.text = classes.flatMap fun cls => cls.lineWords.map lineText) :
    parseLines lines = .ok classes := by
  induction classes generalizing lines with
  | nil =>
    rw [map_eq_nil_iff.mp hLines, parseLines]
  | cons cls classes ih =>
    rcases forall_mem_cons.mp hClasses with ⟨hClass, hOthers⟩
    rw [flatMap_cons] at hLines
    rcases map_eq_cons_iff.mp hLines with ⟨line, left, rfl, hLine, hLeft⟩
    have hMembers : left.map Line.text =
        (cls.fields.map fun field => "field" :: field.headerWords).map lineText
          ++ ((cls.methods.flatMap fun method => method.lineWords.map lineText)
            ++ (lineText ["end"] :: classes.flatMap fun cls => cls.lineWords.map lineText)) := by
      rw [hLeft]
      simp [map_flatMap]
    let bare : Class := { cls with fields := [], methods := [] }
    rcases parseMembers_fields hClass.fields hMembers line.number bare with
      ⟨methodLines, hMethods, hFields⟩
    rcases parseMembers_methods hClass.methods hMethods line.number
      { bare with fields := cls.fields } with ⟨lastLines, hLast, hParse⟩
    rcases map_eq_cons_iff.mp hLast with ⟨last, rest, rfl, hEnd, hRest⟩
    have hEndWords : last.words = ["end"] := words_header (by decide) (forall_mem_nil _) hEnd
    have hRead : parseMembers line.number bare left = .ok (cls, rest) := by
      rw [hFields]
      exact hParse.trans (parseMembers_end hEndWords line.number _ rest)
    rw [parseLines]
    simp only [words_header (by decide) hClass.clean hLine, hClass.reads]
    split
    case h_1 hError =>
      rw [hRead] at hError
      cases hError
    case h_2 hFound =>
      rw [hRead] at hFound
      cases hFound
      simp only [ih hOthers hRest]

/-
  The listing that is written for the classes of a listing is
  read as the same classes, so writing them again gives the same
  text.
-/
theorem parseClasses_renderClasses
    (source : String)
    (classes : List Class)
    (hParse : parseClasses source = .ok classes) :
    parseClasses (renderClasses classes) = .ok classes ∧
      (parseClasses (renderClasses classes)).map renderClasses = .ok (renderClasses classes) := by
  have hListable := listable_of_parseLines (fun line hLine => uncommented_of_mem hLine) hParse
  have hTexts := lays_classes hListable []
  rw [append_nil] at hTexts
  have hRead : parseClasses (renderClasses classes) = .ok classes :=
    parseLines_lineWords hListable (hTexts.trans (append_nil _))
  exact ⟨hRead, by rw [hRead]; rfl⟩

/- A listing with a comment, a named label, short forms and signs. -/
def looseListing : String :=
  "class a/B // no superclass
method static f(I)V
iload_0
top:
ldc_w \"//\\t\"
tableswitch +1 top L7 default top
local x I top L7 +0
end
field final private k I
end"

def looseClasses : List Class :=
  [ ⟨⟨"a/B", by decide⟩, 0, none, [⟨⟨"k", by decide⟩, .base .int, 0x0012⟩],
      [ ⟨⟨"f", by decide⟩, ⟨[.base .int], none⟩, 0x0008, some ⟨0, 1, [ .insn (.load .int 0),
              .label ⟨8⟩, .insn (.constant (.string "//\t")),
              .branch (.tableSwitch ⟨8⟩ 1 [⟨8⟩, ⟨7⟩]) ], [⟨"x", .base .int, ⟨8⟩, ⟨7⟩, 0⟩], []⟩⟩ ]⟩ ]

theorem parseClasses_renderClasses_loose :
    parseClasses looseListing = .ok looseClasses ∧
      parseClasses (renderClasses looseClasses) = .ok looseClasses ∧
      (parseClasses (renderClasses looseClasses)).map renderClasses =
        .ok (renderClasses looseClasses) := by
  have hParse : parseClasses looseListing = .ok looseClasses := by decide +kernel
  exact ⟨hParse, parseClasses_renderClasses looseListing looseClasses hParse⟩

end Listing

end Unboxing
