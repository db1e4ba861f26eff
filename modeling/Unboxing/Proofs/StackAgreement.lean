import Mathlib.Data.List.Forall2
import Unboxing.Proofs.BodySteps

/-
  How the stack becomes what is agreed at a label: the code that
  is put before the element that is looked at, and the tags that
  the entries are left with.

  Main declarations:
    * `Simulation.freshJoin`
    * `Simulation.join_ok`
    * `Simulation.Retagging`
    * `Simulation.StackCode`
    * `Simulation.StackReconciled`
    * `Simulation.reconcileStack_ok`
-/

namespace Unboxing

open List SlotMap

def Entry.withTag (entry : Entry) (tag : Tag) : Entry :=
  { entry with tag := tag }

/- An entry with the expected tag, unless that takes code. -/
def Entry.retagged (entry : Entry) (want : Tag) : Entry :=
  if entry.tag.needsCode want then entry else entry.withTag want

namespace Simulation

variable {ctx : Context} {plan : Array Nat} {st after : State}
variable {label : Label} {operands : Nat} {found : Join}
variable {tops below entries : List Entry} {want rest : List Tag}
variable {first last : Bench} {entry : Entry} {tag : Tag}
variable {spilled : List Spilled}

-- What is agreed

/- What a first path brings to a label. -/
def freshJoin (ctx : Context) (st : State) (label : Label)
    (operands : Nat) : Join :=
  let stack := st.stack.save.withoutTop operands
  match ctx.frames.frame? label with
  | none => ⟨stack, st.locals.save⟩
  | some frame =>
    ⟨stack.narrow ctx.reg frame,
      (st.locals.narrow ctx.reg frame).save⟩

/- The first path to a label changes no cell and no entry of its own. -/
theorem firstJoin_ok (hOk : firstJoin label operands ctx st = .ok found after) :
    found = freshJoin ctx st label operands ∧
      ∃ locals, locals.cells = st.locals.cells ∧
        after = { st with locals := locals } := by
  unfold firstJoin at hOk
  simp only [bind_apply, read_apply, get_apply] at hOk
  unfold freshJoin
  cases hFrame : ctx.frames.frame? label with
  | none =>
    rw [hFrame] at hOk
    cases hOk
    exact ⟨rfl, _, rfl, rfl⟩
  | some frame =>
    rw [hFrame] at hOk
    cases hOk
    exact ⟨rfl, (st.locals.narrow ctx.reg frame).restore
      st.locals.save, rfl, rfl⟩

/- A label keeps what was agreed, or gets what the first path brings. -/
theorem join_ok (hOk : join label operands ctx st = .ok found after) :
    after.agreed.lookup label = some found ∧
      after.locals.cells = st.locals.cells ∧
      after.bench = { st.bench with locals := after.locals } ∧
      (st.agreed.lookup label = some found ∨
        st.agreed.lookup label = none ∧
          found = freshJoin ctx st label operands) := by
  unfold join at hOk
  rw [get_bind] at hOk
  cases hKnown : st.agreed.lookup label with
  | some known =>
    rw [hKnown] at hOk
    cases hOk
    exact ⟨hKnown, rfl, rfl, .inl rfl⟩
  | none =>
    rw [hKnown] at hOk
    rcases bind_ok.mp hOk with ⟨fresh, joined, hFirst, hOk⟩
    rcases firstJoin_ok hFirst with ⟨hFresh, locals, hCells, hJoined⟩
    subst hJoined
    rcases bind_ok.mp hOk with ⟨_, settled, hAgree, hOk⟩
    cases hAgree
    cases hOk
    refine ⟨?_, hCells, rfl, .inr ⟨rfl, hFresh⟩⟩
    simp [lookup_append, hKnown]

theorem join_known (hKnown : st.agreed.lookup label = some found) (operands : Nat) :
    join label operands ctx st = .ok found st := by
  unfold join
  rw [bind_apply, get_apply]
  simp only [hKnown]
  rfl

-- The stack

/- The expected tags from the first one on that takes code. -/
def pendingTags : List Entry → List Tag → List Tag
  | entry :: entries, want :: others =>
    if entry.tag.needsCode want then
      want :: others
    else
      pendingTags entries others
  | _, _ => []

/-
  How some entries between others are retagged. They are given,
  like the expected tags, with the deepest first.
-/
structure Retagging (tops below entries : List Entry) (want rest : List Tag)
    (before after : Bench) : Prop where
  rest_eq : rest = pendingTags entries want
  casts : Forall₂ (fun entry tag => entry.tag.cast tag ≠ .failure)
    entries want
  bench_eq : after =
    before.withEntries
      (tops ++ ((zipWith Entry.retagged entries want).reverse ++ below))

/- An entry that takes no code gets its tag. -/
theorem Retagging.free {between : Bench} (hCode : entry.tag.needsCode tag = false)
    (hCast : entry.tag.cast tag ≠ .failure)
    (hBetween : between =
      first.withEntries (tops ++ (entries.reverse ++ (entry.withTag tag :: below))))
    (hRest : Retagging tops (entry.withTag tag :: below) entries want rest
      between last) :
    Retagging tops below (entry :: entries) (tag :: want) rest first last where
  rest_eq := by simp [pendingTags, hCode, hRest.rest_eq]
  casts := .cons hCast hRest.casts
  bench_eq := by
    rw [hRest.bench_eq, hBetween]
    simp [Entry.retagged, hCode]

/- An entry that takes code keeps its tag for now. -/
theorem Retagging.pending (hCode : entry.tag.needsCode tag = true)
    (hCast : entry.tag.cast tag ≠ .failure)
    (hRest : Retagging tops (entry :: below) entries want rest first last) :
    Retagging tops below (entry :: entries) (tag :: want) (tag :: want)
      first last where
  rest_eq := by simp [pendingTags, hCode]
  casts := .cons hCast hRest.casts
  bench_eq := by
    rw [hRest.bench_eq]
    simp [Entry.retagged, hCode]

/- An entry below others gets another tag. -/
theorem retag_below {above : List Entry}
    (hEntries : st.bench.entries = above ++ (entry :: below))
    (hOk : retag above.length tag ctx st = .ok () after) :
    after.bench = st.bench.withEntries (above ++ (entry.withTag tag :: below)) := by
  have hDepth : above.length = above.length + 0 := rfl
  rw [retag_ok hOk, hEntries]
  unfold List.modify
  rw [hDepth, modifyTailIdx_add]
  rfl

/- Entries are retagged one by one if what they are retagged as is expected. -/
theorem retagging_of_steps {retagAll : List Tag → Simulation (List Tag)}
    (turned : Tag → Tag → Tag) (hNil : ∀ st, retagAll [] ctx st = .ok [] st)
    (hStep : ∀ {want others st rest},
      retagAll (want :: others) ctx st = .ok rest after →
        RetagStep ctx (tops.length + others.length)
          (st.bench.tagAt (tops.length + others.length)) want
          (turned (st.bench.tagAt (tops.length + others.length)) want) others
          (retagAll others) st rest after)
    (hEntries : st.bench.entries = tops ++ (entries.reverse ++ below))
    (hTurned : Forall₂ (fun entry tag => turned entry.tag tag = tag) entries
      want)
    (hOk : retagAll want ctx st = .ok rest after) :
    Retagging tops below entries want rest st.bench after.bench := by
  induction hTurned generalizing below st rest with
  | nil =>
    rw [hNil] at hOk
    cases hOk
    refine ⟨rfl, .nil, ?_⟩
    rw [zipWith_nil_left, ← hEntries, Bench.withEntries_self]
  | @cons entry want entries others hTag hOthers ih =>
    have hLength : tops.length + others.length = (tops ++ entries.reverse).length := by
      rw [length_append, length_reverse, hOthers.length_eq]
    have hSplit : st.bench.entries =
        (tops ++ entries.reverse) ++ (entry :: below) := by
      simpa using hEntries
    have hFound : st.bench.tagAt (tops.length + others.length) = entry.tag := by
      rw [hLength, Bench.tagAt, hSplit, getElem?_append_right (Nat.le_refl _)]
      simp
    have hOk := hStep hOk
    rw [hFound, hTag] at hOk
    cases hOk with
    | same hSame hAbove =>
      have hCast : entry.tag.cast want = .success := by
        rw [hSame, Tag.cast_self]
      have hWith : entry.withTag want = entry := by
        simp [Entry.withTag, ← hSame]
      refine .free (by simp [Tag.needsCode, hCast]) (by simp [hCast]) ?_
        (ih ?_ hAbove)
      · rw [hWith, ← append_assoc, ← hSplit, Bench.withEntries_self]
      · rw [hWith, ← append_assoc, hSplit]
    | wait hCode hRest hAbove =>
      subst hRest
      refine .pending hCode ?_ (ih (by rw [hSplit, append_assoc]) hAbove)
      rcases Tag.needsCode_iff.mp hCode with hBoxing | hUnboxing
      · simp [hBoxing]
      · simp [hUnboxing]
    | turn hFree hCast hTurn hAbove =>
      rw [hLength] at hTurn
      have hBetween := retag_below hSplit hTurn
      rw [append_assoc] at hBetween
      exact .free hFree hCast hBetween
        (ih (by rw [hBetween, Bench.entries_withEntries]) hAbove)

theorem retagEntries_ok
    (hEntries : st.bench.entries = tops ++ (entries.reverse ++ below))
    (hLength : entries.length = want.length)
    (hOk : retagEntries label tops.length want ctx st = .ok rest after) :
    Retagging tops below entries want rest st.bench after.bench := by
  refine retagging_of_steps (fun _ want => want) (fun _ => rfl)
    retagEntries_cons_ok hEntries ?_ hOk
  exact List.forall₂_iff_get.mpr ⟨hLength, fun _ _ _ => rfl⟩

/- An entry that was retagged can become what is expected. -/
theorem converted_retagged (entry : Entry) (tag : Tag) :
    (entry.retagged tag).withTag (converted (entry.retagged tag).tag tag) =
      entry.withTag tag := by
  unfold Entry.retagged
  split
  · rename_i hCode
    rw [converted_of_needsCode hCode]
  · simp [Entry.withTag, converted, Tag.cast_self]

theorem converted_retagged_all (entries : List Entry) (want : List Tag) :
    zipWith (fun entry tag => entry.withTag (converted entry.tag tag))
        (zipWith Entry.retagged entries want) want =
      zipWith Entry.withTag entries want := by
  induction entries generalizing want with
  | nil => rfl
  | cons entry entries ih =>
    cases want with
    | nil => rfl
    | cons tag want =>
      rw [zipWith_cons_cons, zipWith_cons_cons, zipWith_cons_cons,
        ih, converted_retagged]

/-
  Retagged entries up to the first one that takes code have their
  tags, and the others can become what is expected.
-/
theorem exists_settled (hLength : entries.length = want.length) :
    ∃ done opened tags,
      zipWith Entry.retagged entries want = done ++ opened ∧
        zipWith Entry.withTag entries want = done ++
            zipWith (fun entry tag => entry.withTag (converted entry.tag tag)) opened
              (pendingTags entries want) ∧
          want = tags ++ pendingTags entries want ∧
            done.map Entry.tag = tags ∧
              opened.length = (pendingTags entries want).length := by
  induction entries generalizing want with
  | nil =>
    rw [length_eq_zero_iff.mp hLength.symm]
    exact ⟨[], [], [], rfl, rfl, rfl, rfl, rfl⟩
  | cons entry entries ih =>
    cases want with
    | nil => cases hLength
    | cons tag want =>
      by_cases hCode : entry.tag.needsCode tag = true
      · simp only [pendingTags, if_pos hCode]
        refine ⟨[], _, [], rfl, (converted_retagged_all _ _).symm, rfl, rfl, ?_⟩
        simp [Nat.succ.inj hLength]
      · rcases ih (Nat.succ.inj hLength) with
          ⟨done, opened, tags, hTurned, hFinal, hWant, hDone, hOpened⟩
        simp only [pendingTags, if_neg hCode]
        refine ⟨entry.withTag tag :: done, opened, tag :: tags, ?_, ?_, ?_, ?_, hOpened⟩
        · simp [Entry.retagged, hCode, hTurned]
        · rw [zipWith_cons_cons, hFinal, cons_append]
        · rw [cons_append, ← hWant]
        · rw [map_cons, hDone]
          rfl

theorem map_entry_spilledFrom (cell : Nat) (entries : List Entry) :
    (spilledFrom cell entries).map Spilled.entry = entries := by
  induction entries generalizing cell with
  | nil => rfl
  | cons entry entries ih => simp [spilledFrom, ih]

/- Entries come back as what is expected, and the others as they were. -/
theorem reloaded_eq {first second : List Entry}
    (hSpilled : spilled.map Spilled.entry = first ++ second)
    (hLength : first.length = want.length) :
    reloaded spilled want =
      zipWith (fun entry tag => entry.withTag (converted entry.tag tag))
        first want ++ second := by
  induction first generalizing spilled want with
  | nil =>
    rw [length_eq_zero_iff.mp hLength.symm]
    cases spilled <;> simpa [reloaded] using hSpilled
  | cons entry first ih =>
    cases want with
    | nil => cases hLength
    | cons tag want =>
      cases spilled with
      | nil => cases hSpilled
      | cons spilled rest =>
        simp only [map_cons, cons_append, List.cons.injEq] at hSpilled
        rw [reloaded, ih hSpilled.2 (Nat.succ.inj hLength), hSpilled.1]
        rfl

/-
  The code that turns retagged entries below some others into
  what is expected. Entries from the first one on that takes
  code go to scratch locals, with all that lies on them.
-/
inductive StackCode (reg : Registry) (cell : Nat) (tops entries : List Entry)
    (want : List Tag) : List Instruction → Prop where
  | keep
      (hSame : entries.map Entry.tag = want) :
      StackCode reg cell tops entries want []
  | reload
      {settled pending : List Entry}
      {tags others : List Tag}
      {spilled : List Spilled}
      {code : List Instruction}
      (hEntries : entries = settled ++ pending)
      (hWant : want = tags ++ others)
      (hSettled : settled.map Entry.tag = tags)
      (hPending : pending.length = others.length)
      (hSpilled : spilled = spilledFrom cell (tops ++ pending.reverse))
      (hCode : ReloadCode reg spilled.reverse others code) :
      StackCode reg cell tops entries want
        (spilled.map Spilled.store ++ code)

/- How the entries below some others become what is agreed. -/
structure StackReconciled (reg : Registry) (want : List Tag)
    (tops entries : List Entry) (code : List Instruction)
    (before after : Bench) : Prop where
  entries_eq : before.entries = tops ++ entries.reverse
  casts : Forall₂ (fun entry tag => entry.tag.cast tag ≠ .failure)
    entries want
  coded : StackCode reg (before.locals.dstSize + before.scratch) tops
    (zipWith Entry.retagged entries want) want code
  bench_eq : ∃ scratch, after =
    { entries := tops ++ (zipWith Entry.withTag entries want).reverse
      locals := before.locals
      scratch := scratch
      edit := before.edit.emit code }

/- Entries that take no code have their tags when they are retagged. -/
theorem retagged_eq_of_pendingTags (hLength : entries.length = want.length)
    (hNone : pendingTags entries want = []) :
    zipWith Entry.retagged entries want =
      zipWith Entry.withTag entries want := by
  rcases exists_settled hLength with ⟨done, opened, _, hTurned, hFinal, _, _, hOpened⟩
  rw [hNone] at hFinal hOpened
  rw [hTurned, hFinal, length_eq_zero_iff.mp hOpened]
  rfl

theorem map_tag_withTag {tags : List Tag} (hLength : entries.length = tags.length) :
    (zipWith Entry.withTag entries tags).map Entry.tag = tags := by
  induction entries generalizing tags with
  | nil => exact (length_eq_zero_iff.mp hLength.symm).symm
  | cons entry entries ih =>
    cases tags with
    | nil => cases hLength
    | cons tag tags =>
      rw [zipWith_cons_cons, map_cons, ih (Nat.succ.inj hLength)]
      rfl

/- Entries that need code go through scratch locals. -/
theorem reload_pending_ok {stored : State}
    (hEntries : st.bench.entries =
      tops ++ (zipWith Entry.retagged entries want).reverse)
    (hLength : entries.length = want.length)
    (hSpill : spill ((pendingTags entries want).length + tops.length) ctx
      st = .ok spilled stored)
    (hReload : reloadAs spilled.reverse (pendingTags entries want) ctx
      stored = .ok () after) :
    ∃ code,
      StackCode ctx.reg (st.bench.locals.dstSize + st.bench.scratch)
          tops (zipWith Entry.retagged entries want) want code ∧
        ∃ scratch, after.bench =
          { entries :=
              tops ++ (zipWith Entry.withTag entries want).reverse
            locals := st.bench.locals
            scratch := scratch
            edit := st.bench.edit.emit code } := by
  rcases exists_settled hLength with
    ⟨done, opened, tags, hTurned, hFinal, hTags, hDone, hOpened⟩
  generalize pendingTags entries want = others at *
  have hEntries : st.bench.entries = (tops ++ opened.reverse) ++ done.reverse := by
    rw [hEntries, hTurned, reverse_append, append_assoc]
  have hCount : others.length + tops.length = (tops ++ opened.reverse).length := by
    rw [length_append, length_reverse, hOpened, Nat.add_comm]
  rcases spill_ok hSpill with ⟨hSpilled, hStored⟩
  rcases reloadAs_ok hReload with ⟨code, hCode, hAfter⟩
  rw [hEntries, hCount, take_left] at hSpilled hStored
  rw [drop_left] at hStored
  have hBack : spilled.reverse.map Spilled.entry = opened ++ tops.reverse := by
    rw [hSpilled, map_reverse, map_entry_spilledFrom]
    simp
  refine ⟨_, .reload hTurned hTags hDone hOpened hSpilled hCode,
    st.bench.scratch + dstCells (tops ++ opened.reverse), ?_⟩
  rw [hAfter, hStored, reloaded_eq hBack hOpened, hFinal]
  simp [Bench.withEntries, Bench.emit]

theorem reconcileStack_ok {agreed : StackSnapshot}
    (hOk : reconcileStack label agreed operands ctx st = .ok () after) :
    ∃ tops entries code, tops.length = operands ∧
      StackReconciled ctx.reg agreed.tags tops entries code st.bench
        after.bench := by
  unfold reconcileStack at hOk
  rw [get_bind] at hOk
  by_cases hSize : st.stack.size = agreed.size + operands
  swap
  · rw [if_pos hSize] at hOk
    cases hOk
  rw [if_neg (not_not_intro hSize), bind_ok] at hOk
  rcases hOk with ⟨rest, turned, hRetag, hOk⟩
  have hLength : st.bench.entries.length = agreed.tags.length + operands := by
    have hTags : agreed.tags.length = agreed.size := by
      simp [StackSnapshot.tags, StackSnapshot.size]
    rw [hTags]
    exact hSize
  have hTops : (st.bench.entries.take operands).length = operands := by
    rw [length_take]
    omega
  have hBelow : ((st.bench.entries.drop operands).reverse).length =
      agreed.tags.length := by
    rw [length_reverse, length_drop]
    omega
  have hEntries : st.bench.entries = st.bench.entries.take operands ++
      ((st.bench.entries.drop operands).reverse).reverse := by
    rw [reverse_reverse, take_append_drop]
  generalize st.bench.entries.take operands = tops at hTops hEntries
  generalize (st.bench.entries.drop operands).reverse = entries at hBelow hEntries
  subst hTops
  have hAll : st.bench.entries = tops ++ (entries.reverse ++ []) := by
    rw [hEntries, append_nil]
  have hRetagged := retagEntries_ok hAll hBelow hRetag
  have hTurned := hRetagged.bench_eq
  rw [append_nil] at hTurned
  have hRest := hRetagged.rest_eq
  cases rest with
  | nil =>
    cases hOk
    rw [retagged_eq_of_pendingTags hBelow hRest.symm] at hTurned
    refine ⟨tops, entries, [], rfl, hEntries, hRetagged.casts, .keep ?_, ?_⟩
    · rw [retagged_eq_of_pendingTags hBelow hRest.symm, map_tag_withTag hBelow]
    · exact ⟨st.bench.scratch, by rw [hTurned, Edit.emit_nil]; rfl⟩
  | cons tag others =>
    rcases bind_ok.mp hOk with ⟨spilled, stored, hSpill, hReload⟩
    rw [hRest] at hSpill hReload
    rcases reload_pending_ok (by rw [hTurned, Bench.entries_withEntries]) hBelow
      hSpill hReload with ⟨code, hCode, scratch, hAfter⟩
    rw [hTurned] at hCode hAfter
    exact ⟨tops, entries, code, rfl, hEntries, hRetagged.casts, hCode, scratch,
      hAfter⟩

end Simulation

end Unboxing
