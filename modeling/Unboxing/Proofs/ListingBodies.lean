import Unboxing.Proofs.ListingNodes

/-
  Method bodies in a listing. A body that is read defines each of
  its labels once and can be written, and a body that can be
  written is read back from its lines.

  Main declarations:
    * `Body.definitions`
    * `Body.Listable`
    * `Listing.listable_of_body`
    * `Body.lineWords`
    * `Listing.body_lineWords`
-/

namespace Unboxing

open List Listing Reading Text

-- Bodies that can be written

/- The label that an element of a body defines. -/
def Node.defined? : Node → Option Label
  | .label l => some l
  | _ => none

/- The labels that a body defines, in order. -/
def Body.definitions (body : Body) : List Label :=
  body.nodes.filterMap Node.defined?

/- A body whose lines are read as that body. -/
structure Body.Listable (body : Body) : Prop where
  maxStack : Spells (number Numeral.word16?) (toString body.maxStack) body.maxStack
  maxLocals : Spells (number Numeral.word16?) (toString body.maxLocals) body.maxLocals
  nodes : ∀ node ∈ body.nodes, node.Listable
  distinct : body.definitions.Nodup
  vars : ∀ entry ∈ body.vars, entry.Listable
  handlers : ∀ entry ∈ body.handlers, entry.Listable

namespace Listing

variable {body : Body} {line : Line} {after : Body} {scope left : Scope}
variable {lines : List Line}

theorem definitions_addNode (body : Body) (found : Node) :
    (addNode body found).definitions = body.definitions ++ found.defined?.toList := by
  unfold Body.definitions addNode
  rw [filterMap_append]
  cases hDefined : found.defined? <;> simp [hDefined]

theorem listable_addNode (hBody : body.Listable) {found : Node} (hNode : found.Listable)
    (hNew : ∀ label ∈ found.defined?, label ∉ body.definitions) :
    (addNode body found).Listable where
  maxStack := hBody.maxStack
  maxLocals := hBody.maxLocals
  nodes := forall_mem_append.mpr ⟨hBody.nodes, forall_mem_singleton.mpr hNode⟩
  distinct := by
    rw [definitions_addNode]
    cases hDefined : found.defined? with
    | none => simpa using hBody.distinct
    | some label =>
      rw [Option.toList_some, nodup_append]
      refine ⟨hBody.distinct, nodup_singleton label, ?_⟩
      rintro other hOther _ hLast rfl
      rw [mem_singleton.mp hLast] at hOther
      exact hNew label hDefined hOther
  vars := hBody.vars
  handlers := hBody.handlers

-- Bodies that are read

/- The name of a local in a line without comments starts none. -/
theorem uncommented_name (hLine : stripComment line.text = line.text)
    {words : List String} (hWords : line.words = "local" :: words) :
    ∀ name ∈ words.head?, stripComment name.toList = name.toList := by
  intro name hName
  rcases words with _ | ⟨first, rest⟩
  · cases hName
  cases hName
  rcases map_eq_cons_iff.mp hWords with ⟨start, others, hText, hStart, hOthers⟩
  rcases map_eq_cons_iff.mp hOthers with ⟨word, left, rfl, rfl, _⟩
  rcases split_of_words hText with ⟨before, after, hSplit, hBefore, _, hAfter⟩
  rcases split_of_words hAfter with ⟨between, tail, rfl, hBetween, _, _⟩
  have hLocal : start = "local".toList := by rw [← hStart, String.toList_ofList]
  have hFirst : ∀ c ∈ before ++ (start ++ between), isCommentChar c = false := by
    rw [hLocal]
    refine forall_mem_append.mpr ⟨fun c hChar => isCommentChar_of_isBlank (hBefore c hChar),
      forall_mem_append.mpr ⟨by decide, fun c hChar => isCommentChar_of_isBlank (hBetween c hChar)⟩⟩
  have hWhole : line.text = (before ++ (start ++ between)) ++ (word ++ tail) := by
    rw [hSplit]
    simp
  rw [hWhole, stripComment_append hFirst] at hLine
  rw [String.toList_ofList]
  exact stripCommentFrom_prefix (append_cancel_left hLine)

/- A line that defines no label adds what can be written. -/
theorem yields_bodyLine (hBody : body.Listable)
    (hLine : stripComment line.text = line.text)
    (hName : definedName? line.words = none) :
    Yields (bodyLine body line) fun found =>
      found.Listable ∧ found.definitions = body.definitions := by
  have hWords : ∀ word ∈ line.words, IsWord word.toList :=
    fun word hWord => isWord_of_mem_line hWord
  have hAdd {found : Node} (hNode : found.Listable) (hLabel : found.defined? = none) :
      (addNode body found).Listable ∧ (addNode body found).definitions = body.definitions := by
    refine ⟨listable_addNode hBody hNode (by simp [hLabel]), ?_⟩
    rw [definitions_addNode, hLabel]
    simp
  simp only [bodyLine, hName]
  split
  case h_1 => exact yields_pure ⟨hBody, rfl⟩
  case h_2 =>
    refine yields_bind (yields_lift fun stack hStack => hStack) ?_
    intro stack hStack
    refine yields_bind (yields_lift fun locals hLocals => hLocals) ?_
    intro locals hLocals
    exact yields_pure ⟨⟨spells_of_unsigned hStack, spells_of_unsigned hLocals, hBody.nodes,
      hBody.distinct, hBody.vars, hBody.handlers⟩, rfl⟩
  case h_3 => exact yields_lift (by simp [refuse])
  case h_4 =>
    refine yields_bind (yields_lift fun n hNumber => hNumber) ?_
    intro n hNumber
    exact yields_pure (hAdd (spells_of_unsigned hNumber) rfl)
  case h_5 => exact yields_lift (by simp [refuse])
  case h_6 words hLocal =>
    have hOthers : ∀ word ∈ words, IsWord word.toList :=
      fun word hWord => hWords word (hLocal ▸ mem_cons_of_mem _ hWord)
    refine yields_bind (yields_debugEntry hOthers (uncommented_name hLine hLocal) _) ?_
    intro entry hEntry
    exact yields_pure ⟨⟨hBody.maxStack, hBody.maxLocals, hBody.nodes, hBody.distinct,
      forall_mem_append.mpr ⟨hBody.vars, forall_mem_singleton.mpr hEntry⟩,
      hBody.handlers⟩, rfl⟩
  case h_7 words hCatch =>
    have hOthers : ∀ word ∈ words, IsWord word.toList :=
      fun word hWord => hWords word (hCatch ▸ mem_cons_of_mem _ hWord)
    refine yields_bind (yields_handler hOthers _) ?_
    intro entry hEntry
    exact yields_pure ⟨⟨hBody.maxStack, hBody.maxLocals, hBody.nodes, hBody.distinct,
      hBody.vars, forall_mem_append.mpr
        ⟨hBody.handlers, forall_mem_singleton.mpr hEntry⟩⟩, rfl⟩
  case h_8 words hFrame =>
    have hOthers : ∀ word ∈ words, IsWord word.toList :=
      fun word hWord => hWords word (hFrame ▸ mem_cons_of_mem _ hWord)
    refine yields_bind (yields_frame hOthers _) ?_
    intro change hChange
    exact yields_pure (hAdd hChange rfl)
  case h_9 mnemonic operands _ _ _ _ _ _ _ hNode =>
    have hOthers : ∀ word ∈ operands, IsWord word.toList :=
      fun word hWord => hWords word (hNode ▸ mem_cons_of_mem _ hWord)
    refine yields_bind (yields_node hOthers) ?_
    intro found hFound
    refine yields_pure (hAdd hFound.1 ?_)
    cases found with
    | label label => exact absurd rfl (hFound.2 label)
    | _ => rfl

/- A body as far as it is read, with the labels of its scope. -/
structure Tracks (body : Body) (scope : Scope) : Prop where
  listable : body.Listable
  bounded : scope.Bounded
  defined : scope.defined = body.definitions.reverse

theorem tracks_bodyLine (hTracks : Tracks body scope)
    (hLine : stripComment line.text = line.text)
    (hRun : bodyLine body line scope = .ok (after, left)) :
    Tracks after left := by
  cases hName : definedName? line.words with
  | none =>
    rcases yields_bodyLine hTracks.listable hLine hName scope after left hTracks.bounded hRun with
      ⟨⟨hBody, hSame⟩, hBounded, hDefined⟩
    exact ⟨hBody, hBounded, by rw [hDefined, hTracks.defined, hSame]⟩
  | some name =>
    simp only [bodyLine, hName] at hRun
    rcases ok_of_run_bind hRun with ⟨label, middle, hDefinition, hPure⟩
    cases hPure
    rcases bounded_of_definition hTracks.bounded hDefinition with
      ⟨hValid, hBounded, hNew, hDefined⟩
    rw [hTracks.defined, mem_reverse] at hNew
    have hLabel : Node.defined? (.label label) = some label := rfl
    refine ⟨listable_addNode hTracks.listable hValid ?_, hBounded, ?_⟩
    · rintro _ ⟨rfl⟩
      exact hNew
    · rw [hDefined, hTracks.defined, definitions_addNode, hLabel]
      simp

theorem tracks_foldlM (hLines : ∀ line ∈ lines, stripComment line.text = line.text)
    (hTracks : Tracks body scope)
    (hRun : lines.foldlM bodyLine body scope = .ok (after, left)) :
    Tracks after left := by
  induction lines generalizing body scope with
  | nil =>
    cases hRun
    exact hTracks
  | cons line lines ih =>
    rcases forall_mem_cons.mp hLines with ⟨hLine, hRest⟩
    rcases ok_of_run_bind hRun with ⟨middle, between, hFirst, hOthers⟩
    exact ih hRest (tracks_bodyLine hTracks hLine hFirst) hOthers

/- A body that is read from lines without comments can be written. -/
theorem listable_of_body {cells : Nat}
    (hLines : ∀ line ∈ lines, stripComment line.text = line.text)
    (hRead : Reading.body cells lines = .ok body) :
    body.Listable := by
  have hStart : Tracks ⟨0, cells % 0x10000, [], [], []⟩ (Scope.reserve lines) := by
    refine ⟨⟨spells_unsigned (Nat.zero_lt_succ _), spells_unsigned (Nat.mod_lt _ (by decide)), ?_,
      nodup_nil, ?_, ?_⟩, Scope.bounded_reserve lines, rfl⟩ <;>
      exact fun _ => nofun
  rcases ok_of_bind hRead with ⟨⟨found, left⟩, hRun, hPure⟩
  cases hPure
  exact (tracks_foldlM hLines hStart hRun).listable

end Listing

-- Bodies that are written

def Body.lineWords (body : Body) : List (List String) :=
  ["maxs", toString body.maxStack, toString body.maxLocals]
    :: (body.nodes.map Node.words ++ (body.vars.map Variable.words
      ++ body.handlers.map Handler.words))

namespace Listing

variable {lines : List Line} {body : Body}

/- The name of a label and a colon. -/
def labelText (label : Label) : String :=
  label.text ++ ":"

theorem clean_labelText (label : Label) : Clean (labelText label) := by
  refine clean_of_all (by simp [labelText]) ?_
  rw [labelText, String.toList_append, all_append, label.all_text]
  decide

theorem kept_label (label : Label) : Kept (lineText [labelText label]) :=
  kept_lineText (cons_ne_nil _ _) (forall_mem_singleton.mpr (clean_labelText label))

theorem inner_label (label : Label) : lineText [labelText label] ≠ "end".toList := by
  have hText : lineText [labelText label] = label.text.toList ++ [':'] := by
    simp [lineText_eq, labelText]
  rw [hText]
  intro hEnd
  have hLast := congrArg List.getLast? hEnd
  rw [getLast?_concat] at hLast
  cases hLast

theorem bodyLine_label {line : Line} {label : Label}
    (hLine : line.text = lineText [labelText label]) (body : Body) :
    bodyLine body line =
      (do return addNode body (.label (← definition line.number label.text))) := by
  have hWords : line.words = [labelText label] :=
    words_lineText (forall_mem_singleton.mpr (clean_labelText label).isWord) hLine
  have hName : definedName? [labelText label] = some label.text := by
    simp [definedName?, labelText]
  simp only [bodyLine, hWords, hName]

/- Lines that are read one by one without a label being defined. -/
theorem reads_foldlM
    {α : Type} {wordsOf : α → List String} {update : Body → α → Body} {items : List α}
    (hItems : ∀ item ∈ items, Rereads (wordsOf item) (update · item))
    (hLines : lines.map Line.text = items.map fun item => lineText (wordsOf item))
    (body : Body) :
    Reads (lines.foldlM bodyLine body) (items.foldl update body) := by
  induction items generalizing lines body with
  | nil =>
    rw [map_eq_nil_iff.mp hLines]
    exact reads_pure body
  | cons item items ih =>
    rcases forall_mem_cons.mp hItems with ⟨hItem, hRest⟩
    rcases map_eq_cons_iff.mp hLines with ⟨line, left, rfl, hLine, hLeft⟩
    exact reads_bind (hItem.reads line hLine body) (ih hRest hLeft (update body item))

/-
  The nodes of a body are read back from their lines: each label
  is new when its line is read.
-/
theorem nodes_foldlM {nodes : List Node} (hNodes : ∀ found ∈ nodes, found.Listable)
    (hLines : lines.map Line.text = nodes.map fun found => lineText found.words)
    {scope : Scope} (hScope : scope.Canonical)
    (hDistinct : (scope.defined.reverse ++ nodes.filterMap Node.defined?).Nodup)
    (body : Body) :
    ∃ after : Scope, lines.foldlM bodyLine body scope =
        .ok ({ body with nodes := body.nodes ++ nodes }, after) ∧
      after.Canonical := by
  induction nodes generalizing lines body scope with
  | nil =>
    rw [map_eq_nil_iff.mp hLines, append_nil]
    exact ⟨scope, rfl, hScope⟩
  | cons first rest ih =>
    rcases forall_mem_cons.mp hNodes with ⟨hFirst, hRest⟩
    rcases map_eq_cons_iff.mp hLines with ⟨line, left, rfl, hLine, hLeft⟩
    have hStep : ∃ middle : Scope, bodyLine body line scope = .ok (addNode body first, middle) ∧
        middle.Canonical ∧ (middle.defined.reverse ++ rest.filterMap Node.defined?).Nodup := by
      cases first with
      | label label =>
        have hLabel : Node.defined? (.label label) = some label := rfl
        rw [filterMap_cons_some hLabel] at hDistinct
        have hNew : label ∉ scope.defined := by
          intro hOld
          have hApart := (nodup_append.mp hDistinct).2.2
          exact hApart label (mem_reverse.mpr hOld) label mem_cons_self rfl
        rcases definition_text hScope hFirst hNew line.number with
          ⟨middle, hDefinition, hMiddle, hDefined⟩
        refine ⟨middle, ?_, hMiddle, ?_⟩
        · rw [bodyLine_label hLine]
          exact run_bind hDefinition
        · rw [hDefined, reverse_cons, append_assoc]
          exact hDistinct
      | _ =>
        rcases (rereads_node hFirst (fun _ => nofun)).reads line hLine body scope hScope with
          ⟨middle, hRun, hMiddle, hDefined⟩
        rw [filterMap_cons_none rfl, ← hDefined] at hDistinct
        exact ⟨middle, hRun, hMiddle, hDistinct⟩
    rcases hStep with ⟨middle, hRun, hMiddle, hOthers⟩
    rcases ih hRest hLeft hMiddle hOthers (addNode body first) with ⟨after, hAfter, hCanonical⟩
    refine ⟨after, ?_, hCanonical⟩
    have hBody : { body with nodes := body.nodes ++ first :: rest } =
        { addNode body first with nodes := (addNode body first).nodes ++ rest } := by
      simp [addNode]
    rw [hBody, ← hAfter]
    exact run_bind hRun

theorem foldl_vars (entries : List Variable) (body : Body) :
    entries.foldl (fun body entry => { body with vars := body.vars ++ [entry] }) body =
      { body with vars := body.vars ++ entries } := by
  induction entries generalizing body with
  | nil => simp
  | cons entry entries ih => rw [foldl_cons, ih]; simp

theorem foldl_handlers (entries : List Handler) (body : Body) :
    entries.foldl (fun body entry => { body with handlers := body.handlers ++ [entry] }) body =
      { body with handlers := body.handlers ++ entries } := by
  induction entries generalizing body with
  | nil => simp
  | cons entry entries ih => rw [foldl_cons, ih]; simp

theorem body_lineWords (hBody : body.Listable)
    (hLines : lines.map Line.text = body.lineWords.map lineText) (cells : Nat) :
    Reading.body cells lines = .ok body := by
  rcases map_eq_cons_iff.mp hLines with ⟨first, rest, rfl, hFirst, hRest⟩
  rw [map_append, map_append] at hRest
  rcases map_eq_append_iff.mp hRest with ⟨nodeLines, others, rfl, hNodes, hOthers⟩
  rcases map_eq_append_iff.mp hOthers with ⟨varLines, handlerLines, rfl, hVars, hHandlers⟩
  rw [map_map] at hNodes hVars hHandlers
  generalize hAll : first :: (nodeLines ++ (varLines ++ handlerLines)) = lines
  let start : Body := ⟨0, cells % 0x10000, [], [], []⟩
  let limited : Body := { start with maxStack := body.maxStack, maxLocals := body.maxLocals }
  rcases (rereads_maxs hBody.maxStack hBody.maxLocals).reads first hFirst start
    (Scope.reserve lines) (Scope.canonical_reserve lines) with ⟨limits, hLimits, hCanonical, hDefined⟩
  have hDistinct : (limits.defined.reverse ++ body.nodes.filterMap Node.defined?).Nodup := by
    rw [hDefined]
    exact hBody.distinct
  rcases nodes_foldlM hBody.nodes hNodes hCanonical hDistinct limited with ⟨placed, hPlaced, hCanonical⟩
  have hReadVars := reads_foldlM (fun entry hEntry => rereads_variable (hBody.vars entry hEntry))
    hVars { limited with nodes := body.nodes }
  rw [foldl_vars] at hReadVars
  rcases hReadVars placed hCanonical with ⟨named, hNamed, hCanonical, _⟩
  have hReadHandlers := reads_foldlM
    (fun entry hEntry => rereads_handler (hBody.handlers entry hEntry))
    hHandlers { limited with nodes := body.nodes, vars := body.vars }
  rw [foldl_handlers] at hReadHandlers
  rcases hReadHandlers named hCanonical with ⟨left, hLeft, _, _⟩
  have hRun : lines.foldlM bodyLine start (Scope.reserve lines) = .ok (body, left) := by
    rw [← hAll, foldlM_cons, hAll, run_bind hLimits, foldlM_append, run_bind hPlaced,
      foldlM_append]
    exact (run_bind hNamed).trans hLeft
  show (lines.foldlM bodyLine start (Scope.reserve lines) >>= fun pair => pure pair.1) = _
  rw [hRun]
  rfl

theorem kept_lineWords (hBody : body.Listable) :
    ∀ words ∈ body.lineWords, Kept (lineText words) ∧ lineText words ≠ "end".toList := by
  refine forall_mem_cons.mpr ⟨?_, forall_mem_append.mpr ⟨?_,
    forall_mem_append.mpr ⟨?_, ?_⟩⟩⟩
  · have hMaxs := rereads_maxs hBody.maxStack hBody.maxLocals
    exact ⟨hMaxs.kept, hMaxs.inner⟩
  · refine forall_mem_map.mpr fun found hFound => ?_
    have hNode := hBody.nodes found hFound
    cases found with
    | label label => exact ⟨kept_label label, inner_label label⟩
    | _ =>
      have hRereads := rereads_node hNode (fun _ => nofun)
      exact ⟨hRereads.kept, hRereads.inner⟩
  · refine forall_mem_map.mpr fun entry hEntry => ?_
    have hRereads := rereads_variable (hBody.vars entry hEntry)
    exact ⟨hRereads.kept, hRereads.inner⟩
  · refine forall_mem_map.mpr fun entry hEntry => ?_
    have hRereads := rereads_handler (hBody.handlers entry hEntry)
    exact ⟨hRereads.kept, hRereads.inner⟩

end Listing

end Unboxing
