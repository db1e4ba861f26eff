import Unboxing.Proofs.BranchEffects

/-
  How the operands of an instruction become what it expects:
  the code that is put before it, and the entries that are left.
  A conversion to something that is no payload leaves none. What
  is written to a field is turned into what the field holds, and
  then it is accessed with the type that it has after unboxing.

  Main declarations:
    * `Simulation.OperandCode`
    * `Simulation.OperandsConverted`
    * `Simulation.convertOperands_ok`
    * `Simulation.convertOperands_boxed`
    * `Simulation.boxOperands_boxed`
    * `Simulation.accessField_ok`
-/

namespace Unboxing

open List

variable {want : Tag}

/- A cast that substitutes no class leaves what is expected. -/
theorem converted_of_cast {found : Tag} (hCast : found.cast want ≠ .substitution) :
    converted found want = want :=
  if_neg hCast

/- Only a wildcard is substituted. -/
theorem Tag.cast_ne_substitution (found : Tag) (hConcrete : want.Concrete) :
    found.cast want ≠ .substitution := by
  rw [concrete_iff_isWildcard] at hConcrete
  intro hCast
  rw [(of_cast_substitution hCast).1] at hConcrete
  cases hConcrete

namespace Simulation

variable {ctx : Context} {st after : State}
variable {below operands : List Entry} {want rest : List Tag}

theorem entries_split (entries : List Entry) (count : Nat) :
    entries = (entries.take count).reverse.reverse ++ entries.drop count := by
  rw [reverse_reverse, take_append_drop]

/- No operand gets another class. -/
abbrev AllDirect (operands : List Entry) (want : List Tag) : Prop :=
  Forall₂ (fun entry tag => entry.tag.cast tag ≠ .substitution) operands want

theorem retagOperands_ok (hEntries : st.bench.entries = operands.reverse ++ below)
    (hDirect : AllDirect operands want)
    (hOk : retagOperands want ctx st = .ok rest after) :
    Retagging [] below operands want rest st.bench after.bench := by
  refine retagging_of_steps converted (fun _ => rfl) ?_ hEntries
    (hDirect.imp fun _ _ hCast => converted_of_cast hCast) hOk
  intro want others st rest hOk
  rw [length_nil, Nat.zero_add]
  exact retagOperands_cons_ok hOk

/-
  The code that turns retagged operands into expected ones, and
  the operands that go to scratch locals for it. The first one
  that takes code is converted in its place while those above it
  are stored, and these are converted as they come back.
-/
inductive OperandCode (reg : Registry) (cell : Nat) (operands : List Entry)
    (want : List Tag) : List Entry → List Instruction → Prop where
  | keep
      (hSame : operands.map Entry.tag = want) :
      OperandCode reg cell operands want [] []
  | convert
      {settled above : List Entry}
      {entry : Entry}
      {tags others : List Tag}
      {tag : Tag}
      {code more : List Instruction}
      (hOperands : operands = settled ++ entry :: above)
      (hWant : want = tags ++ tag :: others)
      (hSettled : settled.map Entry.tag = tags)
      (hAbove : above.length = others.length)
      (hCode : ConversionCode reg entry.tag tag code)
      (hMore : ReloadCode reg (spilledFrom cell above.reverse).reverse others
        more) :
      OperandCode reg cell operands want above.reverse
        ((spilledFrom cell above.reverse).map Spilled.store ++ (code ++ more))

/- How operands on top of other entries become what is expected. -/
structure OperandsConverted (reg : Registry) (operands below : List Entry)
    (want : List Tag) (stored : List Entry) (code : List Instruction)
    (before after : Bench) : Prop where
  casts : Forall₂ (fun entry tag => entry.tag.cast tag ≠ .failure) operands
    want
  coded : OperandCode reg (before.locals.dstSize + before.scratch)
    (zipWith Entry.retagged operands want) want stored code
  bench_eq : after =
    { entries := (zipWith Entry.withTag operands want).reverse ++ below
      locals := before.locals
      scratch := before.scratch + dstCells stored
      edit := before.edit.emit code }

/- Operands from the first one on that takes code are converted. -/
theorem convertPending_ok {tag : Tag} {others : List Tag} {spilled : List Spilled}
    {stored turned : State}
    (hEntries : st.bench.entries =
      (zipWith Entry.retagged operands want).reverse ++ below)
    (hLength : operands.length = want.length)
    (hPending : pendingTags operands want = tag :: others)
    (hSpill : spill others.length ctx st = .ok spilled stored)
    (hConvert : convertTop tag ctx stored = .ok () turned)
    (hReload : reloadAs spilled.reverse others ctx turned = .ok () after) :
    ∃ above code,
      OperandCode ctx.reg
          (st.bench.locals.dstSize + st.bench.scratch)
          (zipWith Entry.retagged operands want) want above code ∧
        after.bench =
          { entries :=
              (zipWith Entry.withTag operands want).reverse ++ below
            locals := st.bench.locals
            scratch := st.bench.scratch + dstCells above
            edit := st.bench.edit.emit code } := by
  rcases exists_settled hLength with
    ⟨done, opened, tags, hTurned, hFinal, hTags, hDone, hOpened⟩
  rw [hPending] at hFinal hTags hOpened
  rcases opened with _ | ⟨entry, opened⟩
  · cases hOpened
  have hOpened := Nat.succ.inj hOpened
  rw [hTurned] at hEntries ⊢
  rw [hFinal]
  have hEntries : st.bench.entries =
      opened.reverse ++ (entry :: (done.reverse ++ below)) := by
    simpa using hEntries
  have hDepth : others.length = opened.reverse.length := by
    rw [length_reverse, hOpened]
  rcases spill_ok hSpill with ⟨hSpilled, hStored⟩
  rw [hEntries, hDepth, take_left] at hSpilled hStored
  rw [drop_left] at hStored
  rcases convertTop_ok hConvert with ⟨_, code, hCode, hConverted⟩
  rcases reloadAs_ok hReload with ⟨more, hMore, hAfter⟩
  have hTop : stored.bench.tagAt 0 = entry.tag := by
    rw [hStored]
    rfl
  rw [hTop] at hCode hConverted
  have hBack : spilled.reverse.map Spilled.entry = opened ++ [] := by
    rw [hSpilled, map_reverse, map_entry_spilledFrom]
    simp
  rw [reloaded_eq hBack hOpened] at hAfter
  subst hSpilled
  refine ⟨opened.reverse, _, .convert rfl hTags hDone hOpened hCode hMore, ?_⟩
  rw [hAfter, hConverted, hStored]
  simp [Bench.withEntries, Bench.emit, Entry.withTag]

theorem convertOperands_ok (hEntries : st.bench.entries = operands.reverse ++ below)
    (hDirect : AllDirect operands want)
    (hOk : convertOperands want ctx st = .ok () after) :
    ∃ stored code, OperandsConverted ctx.reg operands below want stored
      code st.bench after.bench := by
  have hLength : operands.length = want.length := hDirect.length_eq
  unfold convertOperands at hOk
  rw [bind_ok] at hOk
  rcases hOk with ⟨enough, required, hRequire, hOk⟩
  rcases require_ok hRequire with ⟨rfl, _, rfl⟩ | ⟨_, hFew, _⟩
  swap
  · have hSize : st.stack.entries.length = operands.length + below.length := by
      have hSame : st.stack.entries = operands.reverse ++ below := hEntries
      simp [hSame]
    omega
  simp only [if_true] at hOk
  rcases bind_ok.mp hOk with ⟨rest, retagged, hRetag, hOk⟩
  have hRetagged := retagOperands_ok hEntries hDirect hRetag
  have hBench := hRetagged.bench_eq
  have hRest := hRetagged.rest_eq
  rw [nil_append] at hBench
  cases rest with
  | nil =>
    cases hOk
    rw [retagged_eq_of_pendingTags hLength hRest.symm] at hBench
    refine ⟨[], [], hRetagged.casts, .keep ?_, ?_⟩
    · rw [retagged_eq_of_pendingTags hLength hRest.symm, map_tag_withTag hLength]
    · rw [hBench, Edit.emit_nil]
      rfl
  | cons tag others =>
    rcases bind_ok.mp hOk with ⟨spilled, stored, hSpill, hOk⟩
    rcases bind_ok.mp hOk with ⟨_, turned, hConvert, hReload⟩
    rcases convertPending_ok (by rw [hBench, Bench.entries_withEntries]) hLength
      hRest.symm hSpill hConvert hReload with ⟨above, code, hCode, hAfter⟩
    rw [hBench] at hCode hAfter
    exact ⟨above, code, hRetagged.casts, hCode, hAfter⟩

/- If known classes are expected, no operand gets another one. -/
theorem convertOperands_concrete (hConcrete : ∀ tag ∈ want, tag.Concrete)
    (hSize : want.length ≤ st.stack.entries.length)
    (hOk : convertOperands want ctx st = .ok () after) :
    ∃ operands below stored code,
      st.stack.entries = operands.reverse ++ below ∧ AllDirect operands want ∧
        OperandsConverted ctx.reg operands below want stored code
          st.bench after.bench := by
  have hLength : (st.stack.entries.take want.length).reverse.length =
      want.length := by
    rw [length_reverse, length_take]
    omega
  have hDirect : AllDirect (st.stack.entries.take want.length).reverse want :=
    List.forall₂_iff_zip.mpr ⟨hLength, fun hPair =>
      Tag.cast_ne_substitution _ (hConcrete _ (of_mem_zip hPair).2)⟩
  have hEntries := entries_split st.stack.entries want.length
  rcases convertOperands_ok hEntries hDirect hOk with ⟨stored, code, hConverted⟩
  exact ⟨_, _, stored, code, hEntries, hDirect, hConverted⟩

end Simulation

-- Tags

namespace Tag

variable {tag : Tag}

theorem isPayload_substitute (tag : Tag) (cls : ClassIndex) :
    (tag.substitute cls).isPayload = tag.isPayload := by
  rcases tag with ⟨kind, depth⟩
  cases kind with
  | payload old | reference old => cases old <;> rfl
  | _ => rfl

theorem isPayload_referenceOf (tag : Tag) : tag.referenceOf.isPayload = false := by
  rcases tag with ⟨kind, depth⟩
  cases kind <;> rfl

theorem isPayload_of_not_isUnboxed (hBoxed : tag.isUnboxed = false) :
    tag.isPayload = false :=
  (Bool.or_eq_false_iff.mp hBoxed).1

theorem isPayload_of_isArray (hArray : tag.isArray = true) : tag.isPayload = false := by
  rw [isPayload, hArray, Bool.not_true, Bool.and_false]

/- What was a reference before unboxing still is one if it is no payload. -/
theorem isDstReference_of_not_isPayload (hBoxed : tag.isPayload = false)
    (hReference : tag.isSrcReference = true) :
    tag.isDstReference = true := by
  rw [isDstReference, hReference, hBoxed]
  rfl

end Tag

namespace Registry

variable (reg : Registry)

theorem isPayload_tagOfClass (name : ClassName) :
    (reg.tagOfClass name).isPayload = false := by
  unfold tagOfClass
  split <;> rfl

theorem hasPayloadKind_tagOfElement (element : Element) :
    (reg.tagOfElement element).hasPayloadKind = false := by
  cases element with
  | base type => cases type <;> rfl
  | object name =>
    change (reg.tagOfClass name).hasPayloadKind = false
    unfold tagOfClass
    split <;> rfl

theorem isPayload_tagOfRef (type : RefType) :
    (reg.tagOfRef type).isPayload = false := by
  cases type with
  | object name => exact reg.isPayload_tagOfClass name
  | array more element =>
    have hElement : (reg.tagOfRef (.array more element)).hasPayloadKind = false :=
      reg.hasPayloadKind_tagOfElement element
    rw [Tag.isPayload, hElement, Bool.false_and]

theorem isPayload_tagOf (type : FieldType) :
    (reg.tagOf type).isPayload = false := by
  cases type with
  | base type => cases type <;> rfl
  | ref type => exact reg.isPayload_tagOfRef type

end Registry

/- A conversion to something that is no payload leaves none. -/
theorem isPayload_converted {want : Tag} (found : Tag)
    (hWant : want.isPayload = false) :
    (converted found want).isPayload = false := by
  unfold converted
  split
  · unfold Simulation.substituted
    split
    · rw [Tag.isPayload_substitute]
      exact hWant
    · exact hWant
  · exact hWant

namespace Simulation

variable {want : Tag} {below : List Entry} {consumer : Tag}
variable {operands : List Entry} {consumers : List Tag}

theorem isPayload_boxedFor (found : Tag) (hConsumer : consumer.isPayload = false) :
    (boxedFor found consumer).isPayload = false := by
  unfold boxedFor
  split
  · rename_i hBoxed
    exact Tag.isPayload_of_not_isUnboxed (by simpa using hBoxed)
  · split
    · exact hConsumer
    · exact found.isPayload_referenceOf

variable {α β : Type} {ctx : Context} {st after : State}

-- Steps that edit nothing

instance : Lasts fun _ st after => after.edit = st.edit where
  refl _ _ := rfl
  trans hFirst hSecond := hSecond.trans hFirst

/- A step that leaves the edit at hand as it is. -/
abbrev Unedited (act : Simulation α) : Prop :=
  Along (fun _ st after => after.edit = st.edit) act

theorem unedited_withStack (act : OperandStack → α × OperandStack) :
    Unedited (withStack act) := by
  intro ctx st result after hOk
  cases hOk
  rfl

theorem unedited_push (tag : Tag) (name : Option String) :
    Unedited (push tag name) :=
  .modify fun _ _ => rfl

-- Steps that only emit code

instance : Lasts fun _ st after => ∃ code, after.edit = st.edit.emit code where
  refl _ st := ⟨[], st.edit.emit_nil.symm⟩
  trans := by
    rintro _ first second third ⟨code, hSecond⟩ ⟨more, hThird⟩
    exact ⟨code ++ more, by rw [hThird, hSecond, Edit.emit_emit]⟩

/- A step that does nothing to the edit at hand but to put code before. -/
abbrev Emits (act : Simulation α) : Prop :=
  Along (fun _ st after => ∃ code, after.edit = st.edit.emit code) act

theorem Unedited.emits {act : Simulation α} (hUnedited : Unedited act) :
    Emits act := by
  intro ctx st result after hOk
  exact ⟨[], (hUnedited.of_ok hOk).trans st.edit.emit_nil.symm⟩

theorem unedited_tagAt (depth : Nat) : Unedited (tagAt depth) :=
  Along.get.bind fun _ => .pure _

theorem emits_convertTop (want : Tag) : Emits (convertTop want) := by
  intro ctx st result after hOk
  rcases convertTop_ok hOk with ⟨_, code, _, hBench⟩
  exact ⟨code, congrArg Bench.edit hBench⟩

theorem emits_boxTopFor (consumer : Tag) : Emits (boxTopFor consumer) :=
  (unedited_tagAt 0).emits.bind fun _ => .ite (emits_convertTop _) (.pure _)

-- The top of the stack

/- The entry on top may have changed, and no other has. -/
structure TopBoxed (st after : State) : Prop where
  top : (after.stack.tagAt 0).isPayload = false
  below : ∀ depth, after.stack.tagAt (depth + 1) = st.stack.tagAt (depth + 1)

theorem entries_convertTop (hOk : convertTop want ctx st = .ok () after) :
    after.stack.entries = retagTop st.stack.entries
      (converted (st.stack.tagAt 0) want) := by
  rcases convertTop_ok hOk with ⟨_, code, _, hBench⟩
  exact congrArg Bench.entries hBench

/- A conversion of the entry on top leaves those below alone. -/
theorem convertTop_below (hOk : convertTop want ctx st = .ok () after)
    (depth : Nat) :
    after.stack.tagAt (depth + 1) = st.stack.tagAt (depth + 1) := by
  rw [OperandStack.tagAt_eq, OperandStack.tagAt_eq, entries_convertTop hOk]
  cases st.stack.entries with
  | nil | cons entry entries => rfl

theorem convertTop_boxed (hWant : want.isPayload = false)
    (hOk : convertTop want ctx st = .ok () after) :
    TopBoxed st after := by
  refine ⟨?_, convertTop_below hOk⟩
  have hEntries := entries_convertTop hOk
  rw [OperandStack.tagAt_eq, hEntries]
  cases st.stack.entries with
  | nil => rfl
  | cons entry entries => exact isPayload_converted _ hWant

theorem boxTopFor_boxed (hConsumer : consumer.isPayload = false)
    (hOk : boxTopFor consumer ctx st = .ok () after) :
    TopBoxed st after := by
  unfold boxTopFor at hOk
  rw [tagAt_bind] at hOk
  split at hOk
  · exact convertTop_boxed (isPayload_boxedFor _ hConsumer) hOk
  · rename_i hKeep
    cases hOk
    refine ⟨?_, fun _ => rfl⟩
    cases hUnboxed : (st.stack.tagAt 0).isUnboxed with
    | false => exact Tag.isPayload_of_not_isUnboxed hUnboxed
    | true =>
      have hSame : st.stack.tagAt 0 = consumer := by simpa [hUnboxed] using hKeep
      rw [hSame]
      exact hConsumer

-- Operands

/- None of some entries is a payload. -/
def AllBoxed (entries : List Entry) : Prop :=
  ∀ entry ∈ entries, entry.tag.isPayload = false

/- No operand that is among the top entries is a payload. -/
theorem AllBoxed.tagAt {count depth : Nat}
    (hBoxed : AllBoxed (st.stack.entries.take count)) (hDepth : depth < count) :
    (st.stack.tagAt depth).isPayload = false := by
  rw [OperandStack.tagAt_eq]
  cases hEntry : st.stack.entries[depth]? with
  | none => rfl
  | some entry =>
    apply hBoxed entry
    rw [← getElem?_take_of_lt hDepth] at hEntry
    exact mem_of_getElem? hEntry

theorem allBoxed_withTag {entries : List Entry} {tags : List Tag}
    (hLength : entries.length = tags.length)
    (hTags : ∀ tag ∈ tags, tag.isPayload = false) :
    AllBoxed (zipWith Entry.withTag entries tags) := by
  intro entry hEntry
  apply hTags
  rw [← map_tag_withTag hLength]
  exact mem_map_of_mem hEntry

theorem convertOperands_boxed {want : List Tag}
    (hEntries : st.bench.entries = operands.reverse ++ below)
    (hDirect : AllDirect operands want)
    (hWant : ∀ tag ∈ want, tag.isPayload = false)
    (hOk : convertOperands want ctx st = .ok () after) :
    AllBoxed (after.stack.entries.take want.length) := by
  rcases convertOperands_ok hEntries hDirect hOk with ⟨stored, code, hConverted⟩
  have hAfter : after.stack.entries =
      (zipWith Entry.withTag operands want).reverse ++ below :=
    congrArg Bench.entries hConverted.bench_eq
  have hLength : operands.length = want.length := hDirect.length_eq
  have hCount : want.length =
      (zipWith Entry.withTag operands want).reverse.length := by
    rw [length_reverse, length_zipWith, hLength, Nat.min_self]
  rw [hAfter, hCount, take_left]
  intro entry hEntry
  exact allBoxed_withTag hLength hWant entry (mem_reverse.mp hEntry)

/- Boxing substitutes no class. -/
theorem cast_boxedFor (found : Tag) (hConsumer : consumer.Concrete) :
    found.cast (boxedFor found consumer) ≠ .substitution := by
  unfold boxedFor
  split
  · simp [Tag.cast_self]
  split
  · exact Tag.cast_ne_substitution found hConsumer
  · intro hCast
    apply (Tag.of_cast_substitution hCast).2
    rcases found with ⟨kind, depth⟩
    cases kind <;> rfl

theorem allDirect_boxedFor (hLength : operands.length = consumers.length)
    (hConsumers : ∀ tag ∈ consumers, tag.Concrete) :
    AllDirect operands
      (((operands.map Entry.tag).zip consumers).map fun (found, consumer) =>
        boxedFor found consumer) := by
  induction operands generalizing consumers with
  | nil => exact .nil
  | cons entry operands ih =>
    cases consumers with
    | nil => cases hLength
    | cons consumer consumers =>
      rcases forall_mem_cons.mp hConsumers with ⟨hFirst, hOthers⟩
      exact .cons (cast_boxedFor entry.tag hFirst) (ih (Nat.succ.inj hLength) hOthers)

theorem boxOperands_boxed (hSize : consumers.length ≤ st.stack.entries.length)
    (hConsumers : ∀ tag ∈ consumers, tag.isPayload = false ∧ tag.Concrete)
    (hOk : boxOperands consumers ctx st = .ok () after) :
    AllBoxed (after.stack.entries.take consumers.length) := by
  unfold boxOperands at hOk
  rcases bind_ok.mp hOk with ⟨found, _, hFound, hOk⟩
  cases hFound
  split at hOk
  · rw [← map_reverse] at hOk
    have hLength : (st.stack.entries.take consumers.length).reverse.length =
        consumers.length := by
      rw [length_reverse, length_take]
      omega
    have hDirect := allDirect_boxedFor hLength fun tag hTag => (hConsumers tag hTag).2
    have hBoxed := convertOperands_boxed (entries_split _ _) hDirect ?_ hOk
    · rwa [← hDirect.length_eq, hLength] at hBoxed
    · intro tag hTag
      rcases mem_map.mp hTag with ⟨⟨found, consumer⟩, hPair, rfl⟩
      exact isPayload_boxedFor found
        (hConsumers consumer (of_mem_zip hPair).2).1
  · rename_i hNone
    cases hOk
    intro entry hEntry
    apply Tag.isPayload_of_not_isUnboxed
    by_contra hUnboxed
    apply hNone
    rw [any_reverse, any_map]
    exact any_eq_true.mpr ⟨entry, hEntry, by simpa using hUnboxed⟩

variable {accessed : FieldRef} {access : FieldAccess} {payload : Option (Tag × FieldRef)}

-- The type of a field

/- The payload that a field holds, with the field as it is then. -/
def Context.payloadOf (ctx : Context)
    (accessed : FieldRef) : Option (Tag × FieldRef) :=
  if ctx.layout.storesPayloads ctx.reg accessed.owner
      && ctx.reg.mentions accessed.type then
    let tag := (ctx.reg.tagOf accessed.type).payloadOf
    (ctx.reg.typeOf? tag).map fun type => (tag, { accessed with type := type })
  else
    none

theorem payloadField?_ok
    (hOk : payloadField? (ctx.reg.tagOf accessed.type) accessed ctx st =
      .ok payload after) :
    payload = ctx.payloadOf accessed ∧ after = st := by
  unfold payloadField? at hOk
  rw [read_bind] at hOk
  unfold Context.payloadOf
  simp only at hOk
  split at hOk
  · rename_i hHolds
    rw [if_pos hHolds]
    simp only
    cases hType : ctx.reg.typeOf?
        (ctx.reg.tagOf accessed.type).payloadOf with
    | none =>
      rw [hType] at hOk
      cases hOk
    | some type =>
      rw [hType] at hOk
      cases hOk
      exact ⟨rfl, rfl⟩
  · rename_i hHolds
    rw [if_neg hHolds]
    cases hOk
    exact ⟨rfl, rfl⟩

-- Field accesses

theorem unedited_moveField (access : FieldAccess) (held : Tag) :
    Unedited (moveField access held) :=
  .first (unedited_withStack _) (.first (unedited_withStack _)
    (.ite (unedited_push _ _) (.pure _)))

theorem emits_readyValue (access : FieldAccess) (declared : Tag)
    (payload : Option (Tag × FieldRef)) :
    Emits (readyValue access declared payload) := by
  refine Along.ite ?_ (Along.pure _)
  cases payload with
  | none => exact emits_boxTopFor declared
  | some payload => exact emits_convertTop payload.1

theorem readyField_ok {result : Tag × Option (Tag × FieldRef)}
    (hOk : readyField access accessed ctx st = .ok result after) :
    result = (ctx.reg.tagOf accessed.type, ctx.payloadOf accessed) ∧
      ∃ marked, marked.bench = st.bench ∧
        readyValue access (ctx.reg.tagOf accessed.type)
          (ctx.payloadOf accessed) ctx marked = .ok () after := by
  have hRest {marked : State}
      (hOk : (do
        let payload ← payloadField? (ctx.reg.tagOf accessed.type) accessed
        readyValue access (ctx.reg.tagOf accessed.type) payload
        return (ctx.reg.tagOf accessed.type, payload)) ctx marked = .ok result after) :
      result = (ctx.reg.tagOf accessed.type, ctx.payloadOf accessed) ∧
        readyValue access (ctx.reg.tagOf accessed.type)
          (ctx.payloadOf accessed) ctx marked = .ok () after := by
    rw [bind_ok] at hOk
    rcases hOk with ⟨payload, found, hPayload, hOk⟩
    rcases payloadField?_ok hPayload with ⟨rfl, rfl⟩
    rcases bind_ok.mp hOk with ⟨_, readied, hReady, hSame⟩
    cases hSame
    exact ⟨rfl, hReady⟩
  unfold readyField at hOk
  rw [read_bind] at hOk
  split at hOk
  · rcases bind_ok.mp hOk with ⟨_, marked, hMark, hOk⟩
    rcases hRest hOk with ⟨hResult, hReady⟩
    exact ⟨hResult, marked, bench_markSeeding hMark, hReady⟩
  · rcases hRest hOk with ⟨hResult, hReady⟩
    exact ⟨hResult, st, rfl, hReady⟩

theorem performField_ok {declared : Tag}
    (hOk : performField access declared payload ctx st = .ok () after) :
    after.edit = payload.elim st.edit fun payload =>
      st.edit.add (.replace (.insn (.field access payload.2))) := by
  unfold performField at hOk
  rcases bind_ok.mp hOk with ⟨_, moved, hMove, hOk⟩
  have hMoved := (unedited_moveField _ _).of_ok hMove
  rw [← hMoved]
  cases payload with
  | none | some payload =>
    cases hOk
    rfl

/- A field access comes out with the type that the field has after unboxing. -/
theorem accessField_ok (hOk : accessField access accessed ctx st = .ok () after) :
    ∃ readied code, readyField access accessed ctx st =
        .ok (ctx.reg.tagOf accessed.type, ctx.payloadOf accessed) readied ∧
      readied.edit = st.edit.emit code ∧
      after.edit = (ctx.payloadOf accessed).elim readied.edit fun payload =>
        readied.edit.add (.replace (.insn (.field access payload.2))) := by
  rw [accessField_eq] at hOk
  rcases bind_ok.mp hOk with ⟨result, readied, hReady, hPerform⟩
  rcases readyField_ok hReady with ⟨rfl, marked, hMarked, hValue⟩
  rcases emits_readyValue _ _ _ _ _ _ _ hValue with ⟨code, hCode⟩
  have hEdit : marked.edit = st.edit := congrArg Bench.edit hMarked
  rw [hEdit] at hCode
  exact ⟨readied, code, hReady, hCode, performField_ok hPerform⟩

end Simulation

end Unboxing
