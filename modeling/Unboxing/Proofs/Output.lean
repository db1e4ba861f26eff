import Unboxing.Proofs.Passes
import Unboxing.Proofs.Verification

/-
  What going past a basic instruction does: which entries and
  locals there are afterwards, and what is put before it or in
  its place. One that accesses a local accesses the planned
  address of its slot. The body that comes out of a run is what
  the elements have become, one after another, with seeding put
  in and with the frames that belong to it.

  Main declarations:
    * `Simulation.Transfer`
    * `Simulation.instruction_ok`
    * `Simulation.finish_ok`
    * `Simulation.reachedAccesses`
    * `Simulation.ComesOut.in_output`
    * `Simulation.accesses_in_output`
-/

namespace Unboxing

open List

-- Accesses

/- Whether an instruction loads, stores or increments a local. -/
def Instruction.accessesLocal : Instruction → Bool
  | .load .. | .store .. | .increment .. => true
  | _ => false

/-
  An access to a local, and the same one at another address.
  Only where a reference was moved can it be something else.
-/
inductive AccessMoved (address : Nat → Nat) : Node → Node → Prop where
  | load
      (slot : Nat)
      {kind moved : ValueKind}
      (hKind : kind ≠ .reference → moved = kind) :
      AccessMoved address (.insn (.load kind slot))
        (.insn (.load moved (address slot)))
  | store
      (slot : Nat)
      {kind moved : ValueKind}
      (hKind : kind ≠ .reference → moved = kind) :
      AccessMoved address (.insn (.store kind slot))
        (.insn (.store moved (address slot)))
  | increment
      (slot : Nat)
      (delta : Int) :
      AccessMoved address (.insn (.increment slot delta))
        (.insn (.increment (address slot) delta))

/- The edit with an instruction in the place of one that it differs from. -/
def Edit.use (edit : Edit) (found wanted : Instruction) : Edit :=
  if wanted = found then edit else edit.add (.replace (.insn wanted))

theorem Edit.before_use (edit : Edit) (found wanted : Instruction) :
    (edit.use found wanted).before = edit.before := by
  unfold use
  split <;> rfl

theorem Edit.view_use {edit : Edit} (hKept : edit.fate = .kept)
    (found wanted : Instruction) (h : Handle) :
    (edit.use found wanted).fate.view h (.insn found) = [(h, .insn wanted)] := by
  unfold use
  split
  · rename_i hSame
    rw [hKept, hSame]
    rfl
  · rfl

namespace Simulation

section Accesses

variable {ctx : Context} {plan : Array Nat} {st mid : State} {slot : Nat}
variable {kind : ValueKind} {target : Nat} {i : Instruction}

theorem useInstead_ok {found wanted : Instruction}
    (hOk : useInstead found wanted ctx st = .ok () mid) :
    mid.bench = { st.bench with edit := st.bench.edit.use found wanted } := by
  unfold useInstead at hOk
  unfold Edit.use
  by_cases hSame : wanted = found
  · rw [if_neg (not_not_intro hSame)] at hOk
    cases hOk
    rw [if_pos hSame]
  · rw [if_pos hSame] at hOk
    cases hOk
    rw [if_neg hSame]
    rfl

section

variable (hPlaced : st.Placed plan)
include hPlaced

theorem remap_ok (hOk : remap slot ctx st = .ok target mid) :
    target = planned plan slot ∧ st = mid := by
  unfold remap at hOk
  rw [get_bind] at hOk
  obtain ⟨hTarget, hSame⟩ := slotNumber_ok hOk
  rw [hPlaced.locals.address_eq] at hTarget
  exact ⟨hTarget, hSame⟩

def Bench.use (bench : Bench) (found wanted : Instruction) : Bench :=
  { bench with edit := bench.edit.use found wanted }

theorem increment_ok {delta : Int}
    (hOk : increment slot delta ctx st = .ok () mid) :
    mid.bench = st.bench.use (.increment slot delta)
        (.increment (planned plan slot) delta) := by
  unfold increment at hOk
  rw [bind_ok] at hOk
  obtain ⟨target, _, hRemap, hOk⟩ := hOk
  obtain ⟨rfl, rfl⟩ := remap_ok hPlaced hRemap
  exact useInstead_ok hOk

theorem loadPrimitive_ok (hOk : loadPrimitive kind slot ctx st = .ok () mid) :
    mid.bench = (st.bench.use (.load kind slot)
        (.load kind (planned plan slot))).withEntries
          (⟨.ofKind kind, none⟩ :: st.bench.entries) := by
  unfold loadPrimitive at hOk
  rw [bind_ok] at hOk
  obtain ⟨target, _, hRemap, hOk⟩ := hOk
  obtain ⟨rfl, rfl⟩ := remap_ok hPlaced hRemap
  rw [bind_ok] at hOk
  obtain ⟨_, used, hUse, hOk⟩ := hOk
  rw [push_ok hOk, useInstead_ok hUse]
  rfl

theorem loadReference_ok (hOk : loadReference slot ctx st = .ok () mid) :
    (st.locals.tagAt slot).isVoid = false ∧ mid.bench = (st.bench.use (.load .reference slot)
          (.load (st.locals.tagAt slot).valueKind
            (planned plan slot))).withEntries
              (⟨st.locals.tagAt slot, st.locals.nameAt slot⟩ ::
                st.bench.entries) := by
  unfold loadReference at hOk
  rw [get_bind] at hOk
  by_cases hVoid : (st.locals.tagAt slot).isVoid = true
  · rw [if_pos hVoid] at hOk
    cases hOk
  · rw [if_neg hVoid, bind_ok] at hOk
    obtain ⟨target, _, hRemap, hOk⟩ := hOk
    obtain ⟨rfl, rfl⟩ := remap_ok hPlaced hRemap
    rw [bind_ok] at hOk
    obtain ⟨_, used, hUse, hOk⟩ := hOk
    refine ⟨by simpa using hVoid, ?_⟩
    rw [push_ok hOk, useInstead_ok hUse]
    rfl

def Bench.put (bench : Bench) (slot : Nat) (tag : Tag) (name : Option String) : Bench :=
  { bench with
    locals := bench.locals.withCells
      (SlotMap.Placed.stored bench.locals slot tag name) }

theorem putLocal_ok {tag : Tag} {name : Option String}
    (hRoom : tag.HasRoom plan slot)
    (hOk : putLocal slot tag name ctx st = .ok target mid) :
    target = planned plan slot ∧ mid.bench = st.bench.put slot tag name := by
  rw [putLocal_apply name hPlaced hRoom] at hOk
  obtain ⟨hTarget, rfl⟩ := slotNumber_ok hOk
  exact ⟨hTarget, rfl⟩

theorem storePrimitive_ok (hOk : storePrimitive kind slot ctx st = .ok () mid) :
    mid.bench = ((st.bench.withEntries st.bench.entries.tail).put slot
        (.ofKind kind) none).use (.store kind slot)
          (.store kind (planned plan slot)) := by
  have hRoom : (Tag.ofKind kind).HasRoom plan slot := by
    cases kind <;> exact nofun
  unfold storePrimitive at hOk
  rw [bind_ok] at hOk
  obtain ⟨_, popped, hPop, hOk⟩ := hOk
  have hPopped : popped.Placed plan :=
    (steps_popKind kind).placed hPlaced hPop
  rw [bind_ok] at hOk
  obtain ⟨target, stored, hStore, hOk⟩ := hOk
  obtain ⟨rfl, hStored⟩ := putLocal_ok hPopped hRoom hStore
  rw [useInstead_ok hOk, hStored, popKind_ok hPop]
  rfl

/- A reference is converted for its slot, and then stored. -/
theorem storeReference_ok {entry : Entry} {entries : List Entry}
    (hEntries : st.bench.entries = entry :: entries)
    (hOk : storeReference slot ctx st = .ok () mid) :
    let wanted := storedAs entry.tag (plannedRoom plan slot)
    let stored := converted entry.tag wanted
    entry.tag.cast wanted ≠ .failure ∧
      ∃ code, ConversionCode ctx.reg entry.tag wanted code ∧ mid.bench =
          (((st.bench.withEntries entries).emit code).put slot stored
            entry.name).use (.store .reference slot)
              (.store stored.valueKind (planned plan slot)) := by
  intro wanted stored
  unfold storeReference at hOk
  rw [bind_ok] at hOk
  obtain ⟨found, _, hFound, hOk⟩ := hOk
  obtain ⟨rfl, rfl⟩ := tagAt_ok hFound
  have hTop : st.bench.tagAt 0 = entry.tag := by
    unfold Bench.tagAt
    rw [hEntries]
    rfl
  rw [get_bind] at hOk
  rw [hTop, hPlaced.locals.room_eq, bind_ok] at hOk
  obtain ⟨_, turned, hTurn, hOk⟩ := hOk
  have hTurned : turned.Placed plan :=
    Steps.placed (steps_convertTop (.inl trivial)) hPlaced hTurn
  obtain ⟨hCast, code, hCode, hBench⟩ := convertTop_ok hTurn
  rw [hTop] at hCast hCode hBench
  rw [hEntries, retagTop_cons] at hBench
  refine ⟨hCast, code, hCode, ?_⟩
  rw [bind_ok] at hOk
  obtain ⟨top, popped, hPop, hOk⟩ := hOk
  have hPopped : popped.Placed plan :=
    steps_popEntry.placed hTurned hPop
  obtain ⟨rfl, hRest⟩ := popEntry_ok hPop
  rw [hBench] at hOk hRest
  simp only [Bench.entries_emit, Bench.entries_withEntries, head?_cons] at hOk
  rw [bind_ok] at hOk
  obtain ⟨target, put, hPut, hOk⟩ := hOk
  obtain ⟨rfl, hStored⟩ := putLocal_ok hPopped storedAs_payload hPut
  rw [useInstead_ok hOk, hStored, hRest]
  rfl

end

theorem storeReference_issues (hEntries : st.bench.entries = [])
    (hOk : storeReference slot ctx st = .ok () mid) :
    mid.stack.issues ≠ [] := by
  unfold storeReference at hOk
  rw [bind_ok] at hOk
  obtain ⟨found, _, hFound, hOk⟩ := hOk
  obtain ⟨rfl, rfl⟩ := tagAt_ok hFound
  rw [get_bind] at hOk
  rw [bind_ok] at hOk
  obtain ⟨_, turned, hTurn, hOk⟩ := hOk
  obtain ⟨_, code, _, hBench⟩ := convertTop_ok hTurn
  have hNone : turned.stack.entries = [] := by
    have hSame := congrArg Bench.entries hBench
    rw [hEntries] at hSame
    exact hSame
  rw [bind_ok] at hOk
  obtain ⟨top, popped, hPop, hOk⟩ := hOk
  have hPopped : withStack OperandStack.popEntry ctx turned =
      .ok none { turned with stack := turned.stack.report (.underflow 1 0) } := by
    have hEmpty : turned.stack.popEntry = (none, turned.stack.report (.underflow 1 0)) := by
      unfold OperandStack.popEntry
      rw [hNone]
    change EStateM.Result.ok turned.stack.popEntry.1
      { turned with stack := turned.stack.popEntry.2 } = _
    rw [hEmpty]
  rw [hPopped] at hPop
  cases hPop
  cases hOk
  simp [OperandStack.report]

-- What becomes of an access

/- An instruction that control reaches is simulated. -/
theorem step_insn_ok (hReachable : st.reachable = true)
    (hOk : step (.insn i) ctx st = .ok () mid) :
    ∃ done, instruction i ctx st = .ok () done ∧ mid = { done with label := none } := by
  unfold step at hOk
  rw [get_bind] at hOk
  simp only at hOk
  rw [if_pos hReachable, bind_ok] at hOk
  obtain ⟨_, done, hDone, hOk⟩ := hOk
  cases hOk
  exact ⟨done, hDone, rfl⟩

theorem instruction_load (hKind : kind ≠ .reference) (slot : Nat) :
    instruction (.load kind slot) = loadPrimitive kind slot := by
  cases kind <;> first | rfl | exact absurd rfl hKind

theorem instruction_store (hKind : kind ≠ .reference) (slot : Nat) :
    instruction (.store kind slot) = storePrimitive kind slot := by
  cases kind <;> first | rfl | exact absurd rfl hKind

/-
  An access that was gone past without an issue stays in its
  place and is moved to the planned address.
-/
theorem access_fate (hPlaced : st.Placed plan) (hEdit : st.edit = .none)
    (hReachable : st.reachable = true) (hAccess : i.accessesLocal = true)
    (hOk : step (.insn i) ctx st = .ok () mid) (hIssues : mid.stack.issues = [])
    (h : Handle) :
    ∃ moved, AccessMoved (planned plan) (.insn i) moved ∧
      mid.edit.fate.view h (.insn i) = [(h, moved)] := by
  obtain ⟨done, hDone, rfl⟩ := step_insn_ok hReachable hOk
  have hView {edit : Edit} {found wanted : Instruction}
      (hKept : edit.fate = .kept)
      (hUsed : done.edit = edit.use found wanted) :
      done.edit.fate.view h (.insn found) = [(h, .insn wanted)] := by
    rw [hUsed]
    exact Edit.view_use hKept found wanted h
  have hKept : st.edit.fate = .kept := by
    rw [hEdit]
    rfl
  cases i with
  | load kind slot =>
    by_cases hKind : kind = .reference
    · subst hKind
      have hUsed := congrArg Bench.edit (loadReference_ok hPlaced hDone).2
      exact ⟨_, .load slot (fun hKind => absurd rfl hKind), hView hKept hUsed⟩
    · rw [instruction_load hKind slot] at hDone
      have hUsed := congrArg Bench.edit (loadPrimitive_ok hPlaced hDone)
      exact ⟨_, .load slot (fun _ => rfl), hView hKept hUsed⟩
  | store kind slot =>
    by_cases hKind : kind = .reference
    · subst hKind
      cases hEntries : st.bench.entries with
      | nil =>
        have hSome : done.stack.issues ≠ [] :=
          storeReference_issues hEntries hDone
        exact absurd hIssues hSome
      | cons entry entries =>
        obtain ⟨_, code, _, hBench⟩ := storeReference_ok hPlaced hEntries hDone
        have hUsed := congrArg Bench.edit hBench
        have hStillKept : (st.edit.emit code).fate = .kept :=
          (Edit.fate_emit _ _).trans hKept
        exact ⟨_, .store slot (fun hKind => absurd rfl hKind), hView hStillKept hUsed⟩
    · rw [instruction_store hKind slot] at hDone
      have hUsed := congrArg Bench.edit (storePrimitive_ok hPlaced hDone)
      exact ⟨_, .store slot (fun _ => rfl), hView hKept hUsed⟩
  | increment slot delta =>
    have hUsed := congrArg Bench.edit (increment_ok hPlaced hDone)
    exact ⟨_, .increment slot delta, hView hKept hUsed⟩
  | _ => cases hAccess

end Accesses

variable {ctx : Context} {plan : Array Nat} {st after : State}

-- Labels that are left alone

theorem Held.placed (hHeld : Held st after) (hBench : after.bench = st.bench)
    (hPlaced : st.Placed plan) :
    after.Placed plan := by
  have hLocals : after.locals = st.locals := congrArg Bench.locals hBench
  exact ⟨hLocals ▸ hPlaced.locals, hHeld.agreed ▸ hPlaced.agreed⟩

-- Instructions

/- The tag of what a constant instruction puts on the stack. -/
def pushed? : Instruction → Option Tag
  | .pushNull => some .null
  | .pushByte _ | .pushShort _ => some .int
  | .constant value => some value.tag
  | _ => none

/- What a basic instruction does with entries, locals and code. -/
inductive Transfer (reg : Registry) (plan : Array Nat) :
    Instruction → Bench → Bench → Prop where
  | compute
      (op : Plain)
      (bench : Bench) :
      Transfer reg plan (.plain op) bench
        (bench.withEntries
          (op.leaves.toList.map (⟨.ofKind ·, none⟩) ++ bench.entries.drop op.takes.length))
  | push
      {i : Instruction} {tag : Tag}
      (hTag : pushed? i = some tag)
      (bench : Bench) :
      Transfer reg plan i bench
        (bench.withEntries (⟨tag, none⟩ :: bench.entries))
  | load
      {kind : ValueKind}
      (hKind : kind ≠ .reference)
      (slot : Nat)
      (bench : Bench) :
      Transfer reg plan (.load kind slot) bench
        ((bench.use (.load kind slot)
          (.load kind (planned plan slot))).withEntries
            (⟨.ofKind kind, none⟩ :: bench.entries))
  | loadReference
      (slot : Nat)
      (bench : Bench) :
      Transfer reg plan (.load .reference slot) bench
        ((bench.use (.load .reference slot)
          (.load (bench.locals.tagAt slot).valueKind
            (planned plan slot))).withEntries
              (⟨bench.locals.tagAt slot, bench.locals.nameAt slot⟩ ::
                bench.entries))
  | store
      {kind : ValueKind}
      (hKind : kind ≠ .reference)
      (slot : Nat)
      (bench : Bench) :
      Transfer reg plan (.store kind slot) bench
        (((bench.withEntries bench.entries.tail).put slot
          (.ofKind kind) none).use (.store kind slot)
            (.store kind (planned plan slot)))
  | storeReference
      {slot : Nat} {bench : Bench} {entry : Entry} {entries : List Entry}
      {stored : Tag} {code : List Instruction}
      (hEntries : bench.entries = entry :: entries)
      (hStored : stored = storedAs entry.tag (plannedRoom plan slot))
      (hCast : entry.tag.cast stored ≠ .failure)
      (hCode : ConversionCode reg entry.tag stored code) :
      Transfer reg plan (.store .reference slot) bench
        ((((bench.withEntries entries).emit code).put slot stored entry.name).use
          (.store .reference slot)
            (.store stored.valueKind (planned plan slot)))
  | increment
      (slot : Nat)
      (delta : Int)
      (bench : Bench) :
      Transfer reg plan (.increment slot delta) bench
        (bench.use (.increment slot delta)
          (.increment (planned plan slot) delta))

theorem popKinds_ok {kinds : List ValueKind}
    (hOk : popKinds kinds ctx st = .ok () after) :
    after.bench = st.bench.withEntries (st.bench.entries.drop kinds.length) := by
  induction kinds generalizing st with
  | nil =>
    cases hOk
    rfl
  | cons kind kinds ih =>
    rcases forM_cons_ok hOk with ⟨popped, hPop, hOk⟩
    rw [ih hOk, popKind_ok hPop]
    simp

theorem compute_ok {op : Plain} (hOk : compute op ctx st = .ok () after) :
    after.bench = st.bench.withEntries
        (op.leaves.toList.map (⟨.ofKind ·, none⟩) ++ st.bench.entries.drop op.takes.length) := by
  unfold compute at hOk
  rcases bind_ok.mp hOk with ⟨_, popped, hPop, hOk⟩
  have hPopped := popKinds_ok hPop
  cases hLeaves : op.leaves with
  | none =>
    rw [hLeaves] at hOk
    cases hOk
    exact hPopped
  | some kind =>
    rw [hLeaves] at hOk
    rw [push_ok hOk, hPopped]
    rfl

theorem class?_storedAs (found : Tag) (room : Nat) :
    (storedAs found room).class? = found.class? := by
  unfold storedAs
  rcases found with ⟨kind, depth⟩
  split
  · cases kind <;> rfl
  · split
    · cases kind <;> rfl
    · rfl

/- A value is stored as one of its own class, so nothing is substituted. -/
theorem converted_storedAs (found : Tag) (room : Nat) :
    converted found (storedAs found room) = storedAs found room := by
  unfold converted
  rw [if_neg]
  intro hCast
  exact (Tag.of_cast_substitution hCast).2 (class?_storedAs found room).symm

theorem instruction_ok {i : Instruction} (hBasic : i.isBasic = true)
    (hPlaced : st.Placed plan) (hOk : instruction i ctx st = .ok () after)
    (hIssues : after.stack.issues = []) :
    Transfer ctx.reg plan i st.bench after.bench := by
  cases i with
  | plain op =>
    rw [compute_ok hOk]
    exact .compute op _
  | pushNull | pushByte number | pushShort number | constant value =>
    rw [push_ok hOk]
    exact .push rfl _
  | load kind slot =>
    by_cases hKind : kind = .reference
    · subst hKind
      rw [(loadReference_ok hPlaced hOk).2]
      exact .loadReference slot _
    · rw [instruction_load hKind] at hOk
      rw [loadPrimitive_ok hPlaced hOk]
      exact .load hKind slot _
  | store kind slot =>
    by_cases hKind : kind = .reference
    · subst hKind
      cases hEntries : st.bench.entries with
      | nil => exact absurd hIssues (storeReference_issues hEntries hOk)
      | cons entry entries =>
        rcases storeReference_ok hPlaced hEntries hOk with
          ⟨hCast, code, hCode, hBench⟩
        rw [converted_storedAs] at hBench
        rw [hBench]
        exact .storeReference hEntries rfl hCast hCode
    · rw [instruction_store hKind] at hOk
      rw [storePrimitive_ok hPlaced hOk]
      exact .store hKind slot _
  | increment slot delta =>
    rw [increment_ok hPlaced hOk]
    exact .increment slot delta _
  | _ => cases hBasic

/- What control does not reach is left as it is. -/
theorem step_unreachable_ok {node : Node} (hNode : node.isMark = false)
    (hReachable : st.reachable = false)
    (hOk : step node ctx st = .ok () after) :
    after = { st with label := none } := by
  unfold step at hOk
  rw [get_bind] at hOk
  simp only [hReachable] at hOk
  cases node with
  | insn i | branch b =>
    cases hOk
    rfl
  | _ => cases hNode

open Sequence

variable {i : Nat} {node : Node}

-- Frames

/- An element with the frame that belongs in its place, if one does. -/
def dressed (frames : List (Handle × FrameChange))
    (entry : Handle × Node) : Handle × Node :=
  frames.foldl
    (fun entry (h, change) => if h = entry.1 then (h, .frame change) else entry)
    entry

theorem shows_withFrames {code : Sequence Node} {view : List (Handle × Node)}
    (hShows : Shows code view) (frames : List (Handle × FrameChange)) :
    Shows (withFrames code frames) (view.map (dressed frames)) := by
  induction frames generalizing code view with
  | nil =>
    have hSame : view.map (dressed []) = view := map_id' _
    rw [hSame]
    exact hShows
  | cons first rest ih =>
    obtain ⟨h, change⟩ := first
    have hRest := ih (hShows.replace h (.frame change))
    rw [map_map] at hRest
    exact hRest

theorem dressed_of_not_mem {frames : List (Handle × FrameChange)} {entry : Handle × Node}
    (hOther : ∀ frame ∈ frames, frame.1 ≠ entry.1) :
    dressed frames entry = entry := by
  induction frames with
  | nil => rfl
  | cons first rest ih =>
    obtain ⟨h, change⟩ := first
    have hFirst : ¬ h = entry.1 := hOther _ (mem_cons_self ..)
    have hRest := ih (forall_mem_cons.mp hOther).2
    unfold dressed at hRest ⊢
    simp only [foldl_cons, hFirst, if_false]
    exact hRest

-- The end of a run

section Finishing

variable {ctx : Context} {st after : State}

/- The code that seeds the fields a method has to seed. -/
def seedBlock (ctx : Context) : List Instruction :=
  (ctx.layout.fieldsToSeed ctx.method.isClassInitializer).flatMap
    (·.seed ctx.layout.name)

/- Fields are seeded where a place was found, or at the start. -/
theorem seed_cases (hOk : seed ctx st = .ok () after) :
    after = st ∨ ∃ place depth, (st.seeding = .found place depth ∨
        st.seeding = .searching ∧ place = none ∧ depth = 0) ∧
      after = { st with
          code := insertAt place st.code (seedBlock ctx)
          stack := st.stack.reserve
            (depth + if ctx.method.isClassInitializer then 2 else 3)
          seeding := .injected
          modified := true } := by
  unfold seed at hOk
  rw [get_bind] at hOk
  cases hSeeding : st.seeding with
  | found place depth =>
    rw [hSeeding] at hOk
    cases hOk
    exact .inr ⟨place, depth, .inl rfl, rfl⟩
  | searching =>
    rw [hSeeding] at hOk
    cases hOk
    exact .inr ⟨none, 0, .inr ⟨rfl, rfl, rfl⟩, rfl⟩
  | inapplicable | suppressed | injected =>
    rw [hSeeding] at hOk
    cases hOk
    exact .inl rfl

/- Seeding puts elements in, and then the body counts as modified. -/
theorem seed_ok {view : List (Handle × Node)} (hShows : Shows st.code view)
    (hPlace : ∀ h depth, st.seeding = .found (some h) depth → h ∈ view.map Prod.fst)
    (hOk : seed ctx st = .ok () after) :
    after.pendingFrames = st.pendingFrames ∧ (after = st ∨ after.modified = true) ∧
        ∃ seeded, Shows after.code seeded ∧ view.Sublist seeded := by
  rcases seed_cases hOk with rfl | ⟨place, depth, hFound, rfl⟩
  · exact ⟨rfl, .inl rfl, view, hShows, List.Sublist.refl _⟩
  · refine ⟨rfl, .inr rfl, hShows.insertAt (fun h hHere => ?_) _⟩
    rcases hFound with hFound | ⟨_, hNone, _⟩
    · exact hPlace h depth (hHere ▸ hFound)
    · cases hNone.symm.trans hHere

/- The address that the slot of a debug entry has where the entry starts. -/
def State.addressOf (st : State) (entry : Variable) : Nat :=
  (st.reached.lookup entry.start).elim (st.locals.address entry.slot) (·.address entry.slot)

/- A debug entry with another type and slot. -/
def Redirected (slotOf : Variable → Nat) (entry moved : Variable) : Prop :=
  ∃ type, moved = { entry with type := type, slot := slotOf entry }

/- Nothing else than the type and the slot of a debug entry is looked up. -/
theorem remapVariable_ok {entry moved : Variable}
    (hOk : remapVariable entry ctx st = .ok moved after) :
    after = st ∧ Redirected st.addressOf entry moved := by
  unfold remapVariable at hOk
  rw [read_bind, get_bind] at hOk
  unfold Redirected State.addressOf
  simp only at hOk
  split at hOk <;>
  · rename_i hReached
    rcases bind_ok.mp hOk with ⟨slot, between, hSlot, hOk⟩
    rcases slotNumber_ok hSlot with ⟨rfl, rfl⟩
    cases hOk
    rw [hReached]
    exact ⟨rfl, _, rfl⟩

theorem mapM_remapVariable_ok {entries moved : List Variable}
    (hOk : entries.mapM remapVariable ctx st = .ok moved after) :
    after = st ∧ Forall₂ (Redirected st.addressOf) entries moved := by
  induction entries generalizing st moved with
  | nil =>
    cases hOk
    exact ⟨rfl, .nil⟩
  | cons entry entries ih =>
    rw [mapM_cons] at hOk
    rcases bind_ok.mp hOk with ⟨first, between, hFirst, hOk⟩
    rcases bind_ok.mp hOk with ⟨rest, last, hRest, hOk⟩
    cases hOk
    rcases remapVariable_ok hFirst with ⟨rfl, hFirst⟩
    rcases ih hRest with ⟨rfl, hRest⟩
    exact ⟨rfl, .cons hFirst hRest⟩

theorem cellCount_ok {what : String} {cells count : Nat}
    (hOk : cellCount what cells ctx st = .ok count after) :
    count = cells ∧ after = st := by
  unfold cellCount at hOk
  split at hOk
  · cases hOk
    exact ⟨rfl, rfl⟩
  · cases hOk

def State.remade (st : State) (body : Body) (vars : List Variable) : Body where
  maxStack := max st.stack.peak body.maxStack
  maxLocals := max (max st.locals.peak st.scratchEnd) (st.locals.address body.maxLocals)
  nodes := (withFrames st.code st.pendingFrames).toList
  vars := vars
  handlers := body.handlers

theorem nodes_remade (st : State) (body : Body) (vars : List Variable) :
    (st.remade body vars).nodes = (withFrames st.code st.pendingFrames).toList :=
  rfl

theorem modifiedBody_ok {body : Body}
    (hOk : modifiedBody ctx st = .ok body after) :
    after = st ∧ ∃ vars, ctx.body.vars.mapM remapVariable ctx st = .ok vars st ∧
      body = st.remade ctx.body vars := by
  unfold modifiedBody at hOk
  rw [read_bind, bind_ok] at hOk
  rcases hOk with ⟨vars, mapped, hVars, hOk⟩
  have hSame := (mapM_remapVariable_ok hVars).1
  subst hSame
  rw [get_bind] at hOk
  rcases bind_ok.mp hOk with ⟨maxStack, counted, hStack, hOk⟩
  rcases bind_ok.mp hOk with ⟨maxLocals, last, hLocals, hOk⟩
  rcases cellCount_ok hStack with ⟨rfl, rfl⟩
  rcases cellCount_ok hLocals with ⟨rfl, rfl⟩
  cases hOk
  exact ⟨rfl, vars, hVars, rfl⟩

/- The body is left as it was, or made of the code with its frames. -/
theorem finish_ok {out : UnboxedBody} (hOk : finish ctx st = .ok out after) :
    ∃ seeded, seed ctx st = .ok () seeded ∧ out.modified = seeded.modified ∧
      (seeded.modified = false ∧ out.body = ctx.body ∨ seeded.modified = true ∧ ∃ vars,
        ctx.body.vars.mapM remapVariable ctx after = .ok vars after ∧
          after = { seeded with stack := { seeded.stack with issues := [] } } ∧
            out.body = seeded.remade ctx.body vars) := by
  unfold finish at hOk
  rcases bind_ok.mp hOk with ⟨_, seeded, hSeed, hOk⟩
  refine ⟨seeded, hSeed, ?_⟩
  rcases bind_ok.mp hOk with ⟨_, checked, hCheck, hOk⟩
  rcases checkStack_ok hCheck with ⟨_, rfl⟩
  rw [read_bind, get_bind] at hOk
  by_cases hModified : seeded.modified = true
  · rw [if_pos hModified] at hOk
    rcases bind_ok.mp hOk with ⟨body, made, hBody, hOk⟩
    rcases modifiedBody_ok hBody with ⟨rfl, vars, hVars, rfl⟩
    cases hOk
    exact ⟨rfl, .inr ⟨hModified, vars, hVars, rfl, rfl⟩⟩
  · rw [if_neg hModified] at hOk
    cases hOk
    exact ⟨rfl, .inl ⟨by simpa using hModified, rfl⟩⟩

end Finishing

-- Accesses that come out

/- The access at a place, if the elements before lead to it. -/
def reachedAccess? (ctx : Context) (i : Nat) : Option Node :=
  match stateAfter ctx i, ctx.body.nodes[i]? with
  | some st, some (.insn instruction) =>
    if st.reachable && instruction.accessesLocal then
      some (.insn instruction)
    else
      none
  | _, _ => none

/- Every access to a local that a run comes to, in order. -/
def reachedAccesses (ctx : Context) : List Node :=
  (List.range ctx.body.nodes.length).filterMap (reachedAccess? ctx)

theorem reachedAccess?_eq_some (hAccess : reachedAccess? ctx i = some node) :
    ∃ st instruction, stateAfter ctx i = some st ∧ st.reachable = true ∧
        instruction.accessesLocal = true ∧ node = .insn instruction ∧
          ctx.body.nodes[i]? = some node := by
  unfold reachedAccess? at hAccess
  split at hAccess
  · rename_i st instruction hState hNode
    split at hAccess
    · rename_i hBoth
      cases hAccess
      obtain ⟨hReachable, hLocal⟩ := Bool.and_eq_true_iff.mp hBoth
      exact ⟨st, instruction, hState, hReachable, hLocal, rfl, hNode⟩
    · cases hAccess
  · cases hAccess

/- A reached access is moved within what stands in its place. -/
theorem reachedAccess_moved {after : State}
    (hAccess : reachedAccess? ctx i = some node)
    (hAfter : stateAfter ctx (i + 1) = some after) :
    ∃ moved, AccessMoved (planned ctx.plan) node moved ∧
      (i, moved) ∈ blockView ctx i := by
  obtain ⟨st, instruction, hState, hReachable, hLocal, rfl, hNode⟩ :=
    reachedAccess?_eq_some hAccess
  rcases visited_stateAfter hNode hState hAfter with ⟨mid, hVisited, _⟩
  rcases access_fate hVisited.placed hVisited.between.edit hReachable hLocal hVisited.step
    hVisited.issues i with ⟨moved, hMoved, hView⟩
  refine ⟨moved, hMoved, ?_⟩
  simp [blockView, hVisited.edited, hNode, Edit.view, hView]

-- Instructions that come out

/-
  Some instructions of a body come out, each within what stands
  in its place and as something that it may become.
-/
structure ComesOut (ctx : Context) (select : Nat → Option Node)
    (Becomes : Node → Node → Prop) : Prop where
  placed : ∀ i node, select i = some node →
    ∃ instruction, ctx.body.nodes[i]? = some (.insn instruction)
  becomes : ∀ i node after, select i = some node → stateAfter ctx (i + 1) = some after →
      ∃ image, Becomes node image ∧ (i, image) ∈ blockView ctx i

section Selections

variable {ctx : Context} {select : Nat → Option Node}
variable {Becomes : Node → Node → Prop} {last : State}

/- The instructions at some places come out within their blocks. -/
theorem ComesOut.sublist (hComes : ComesOut ctx select Becomes)
    (hLast : stateAfter ctx ctx.body.nodes.length = some last) (places : List Nat)
    (hInside : ∀ i ∈ places, i < ctx.body.nodes.length) :
    ∃ moved : List (Handle × Node), moved.Sublist (places.flatMap (blockView ctx)) ∧
        Forall₂ Becomes (places.filterMap select) (moved.map Prod.snd) ∧
          ∀ entry ∈ moved, ∃ instruction,
            ctx.body.nodes[entry.1]? = some (.insn instruction) := by
  induction places with
  | nil => exact ⟨[], List.Sublist.refl _, .nil, by simp⟩
  | cons i places ih =>
    obtain ⟨moved, hSublist, hMoved, hNodes⟩ := ih (forall_mem_cons.mp hInside).2
    rw [flatMap_cons]
    cases hSelect : select i with
    | none =>
      rw [filterMap_cons_none hSelect]
      exact ⟨moved, hSublist.trans (sublist_append_right ..), hMoved, hNodes⟩
    | some node =>
      obtain ⟨after, hAfter⟩ :=
        stateAfter_of_le hLast (hInside i (mem_cons_self ..))
      obtain ⟨image, hImage, hMember⟩ := hComes.becomes i node after hSelect hAfter
      rw [filterMap_cons_some hSelect]
      refine ⟨(i, image) :: moved, ?_, .cons hImage hMoved, ?_⟩
      · exact (singleton_sublist.mpr hMember).append hSublist
      · exact forall_mem_cons.mpr ⟨hComes.placed i node hSelect, hNodes⟩

/- A body that was not modified is what its blocks hold. -/
theorem Between.blocks_unmodified
    (hBetween : Between ctx ctx.body.nodes.length last)
    (hModified : last.modified = false) :
    ((List.range ctx.body.nodes.length).flatMap (blockView ctx)).map
      Prod.snd = ctx.body.nodes := by
  have hTaken (count : Nat) (hInside : count ≤ ctx.body.nodes.length) :
      ((List.range count).flatMap (blockView ctx)).map Prod.snd =
        ctx.body.nodes.take count := by
    induction count with
    | zero => rfl
    | succ count ih =>
      rw [range_succ, flatMap_append, map_append,
        ih (by omega), take_add_one, flatMap_singleton,
        hBetween.unmodified hModified count hInside]
      cases ctx.body.nodes[count]? <;> rfl
  rw [hTaken _ (Nat.le_refl _), take_length]

/- At the end of a body its code is its blocks. -/
theorem Between.shows_blocks (hBetween : Between ctx ctx.body.nodes.length last) :
    Shows last.code
      ((List.range ctx.body.nodes.length).flatMap (blockView ctx)) := by
  simpa [restView] using hBetween.code

/- Instructions that come out are found in the body, in order. -/
theorem ComesOut.in_output (hComes : ComesOut ctx select Becomes)
    {st final : State} {out : UnboxedBody} (hRun : run ctx st = .ok out final) :
    ∃ moved : List Node, moved.Sublist out.body.nodes ∧ Forall₂ Becomes
          ((List.range ctx.body.nodes.length).filterMap select) moved := by
  obtain ⟨_, last, hLast, hFinish⟩ := run_ok hRun
  have hBetween := between_stateAfter (Nat.le_refl _) hLast
  obtain ⟨moved, hSublist, hMoved, hNodes⟩ :=
    hComes.sublist hLast (List.range ctx.body.nodes.length)
      fun _ hMember => mem_range.mp hMember
  refine ⟨moved.map Prod.snd, ?_, hMoved⟩
  obtain ⟨seeded, hSeed, _, hOut⟩ := finish_ok hFinish
  obtain ⟨hFrames, hModified, view, hShows, hView⟩ :=
    seed_ok hBetween.shows_blocks hBetween.seeding hSeed
  rcases hOut with ⟨hSame, hBody⟩ | ⟨_, vars, _, _, hBody⟩
  · have hUnseeded : seeded = last :=
      hModified.resolve_right (by simp [hSame])
    rw [hUnseeded] at hSame
    rw [hBody, ← hBetween.blocks_unmodified hSame]
    exact hSublist.map Prod.snd
  · rw [hBody, nodes_remade, (shows_withFrames hShows _).toList_eq, map_map]
    -- The places of frames are not those of instructions.
    have hKept : moved.map (dressed seeded.pendingFrames) = moved := by
      rw [map_congr_left, map_id]
      intro entry hEntry
      apply dressed_of_not_mem
      intro frame hFrame hSame
      rw [hFrames] at hFrame
      obtain ⟨_, ⟨change, hChange⟩, _⟩ := hBetween.frames frame hFrame
      obtain ⟨instruction, hInstruction⟩ := hNodes entry hEntry
      rw [hSame, hInstruction] at hChange
      cases hChange
    have hDressed := (hSublist.trans hView).map (dressed seeded.pendingFrames)
    rw [hKept] at hDressed
    simpa using hDressed.map Prod.snd

end Selections

/-
  The reached accesses come out in order, each at the planned
  address of its slot.
-/
theorem accesses_in_output {st final : State} {out : UnboxedBody}
    (hRun : run ctx st = .ok out final) :
    ∃ moved : List Node, moved.Sublist out.body.nodes ∧
        Forall₂ (AccessMoved (planned ctx.plan))
          (reachedAccesses ctx) moved := by
  have hComes : ComesOut ctx (reachedAccess? ctx)
      (AccessMoved (planned ctx.plan)) := by
    refine ⟨?_, fun _ _ _ => reachedAccess_moved⟩
    intro i node hAccess
    obtain ⟨_, instruction, _, _, _, rfl, hNode⟩ := reachedAccess?_eq_some hAccess
    exact ⟨instruction, hNode⟩
  exact hComes.in_output hRun

/- How a step ends: with a result or a cause, in a state. -/
abbrev Outcome (α : Type) := EStateM.Result FailureCause State α

end Simulation

-- Methods

namespace Method

open Simulation

variable (method : Method) (reg : Registry) (layout : ClassLayout) (body : Body)

/- The end of a run as the end of the method. -/
def reported : Outcome UnboxedBody → Except Failure UnboxedBody
  | .ok unboxed _ => .ok unboxed
  | .error cause st =>
    .error ⟨s!"{layout.name.text}.{method.signature}", st.line, cause⟩

theorem unbox_apply (settings : Settings) :
    method.unbox reg settings layout body = if body.nodes.isEmpty then
        .ok ⟨false, body, []⟩
      else
        method.reported layout
          (run (.ofMethod reg settings layout method body) .initial) := by
  unfold unbox simulate
  split
  · rfl
  · simp only [EStateM.run]
    cases run (.ofMethod reg settings layout method body) .initial <;> rfl

theorem reported_eq_ok {method : Method} {layout : ClassLayout} {outcome : Outcome UnboxedBody}
    {unboxed : UnboxedBody} :
    method.reported layout outcome = .ok unboxed ↔ ∃ st, outcome = .ok unboxed st := by
  cases outcome <;> simp [reported]

end Method

end Unboxing
