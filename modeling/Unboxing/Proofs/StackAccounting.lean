import Unboxing.OperandStack

/-
  The cell counters of the simulated stack. Every operation
  updates them by differences. This file proves that they are
  nevertheless the sums of the widths of the entries, after any
  series of operations.

  `Operation` lists what can be done to a stack, and `Command`
  adds what can be done with its snapshots. `Session.run?`
  carries commands out like `Session.run`, but stops where a
  counter would have to go below zero.

  Main declarations:
    * `OperandStack.Counted`
    * `OperandStack.Operation`
    * `OperandStack.Session.run`
    * `OperandStack.Session.run?`
    * `OperandStack.Session.counters_track_widths`
-/

namespace Unboxing

open List

variable {α : Type} {i : Nat}

-- Sums of widths

/- Setting one element exchanges its part of a sum. -/
theorem total_map_set (width : α → Nat) {elements : List α} {old : α} (new : α)
    (hOld : elements[i]? = some old) :
    total ((elements.set i new).map width) + width old =
      total (elements.map width) + width new := by
  induction elements generalizing i with
  | nil => simp at hOld
  | cons first rest ih =>
    cases i with
    | zero =>
      have hFirst : first = old := by simpa using hOld
      simp only [set_cons_zero, map_cons, total_cons, hFirst]
      omega
    | succ i =>
      have hRest := ih (by simpa using hOld)
      simp only [set_cons_succ, map_cons, total_cons]
      omega

/- Each part of a sum is at most the sum. -/
theorem le_total_map (width : α → Nat) {elements : List α} {element : α}
    (hElement : elements[i]? = some element) :
    width element ≤ total (elements.map width) := by
  induction elements generalizing i with
  | nil => simp at hElement
  | cons first rest ih =>
    simp only [map_cons, total_cons]
    cases i with
    | zero =>
      have hFirst : first = element := by simpa using hElement
      rw [hFirst]
      omega
    | succ i =>
      have hRest := ih (by simpa using hElement)
      omega

namespace OperandStack

-- Counted stacks

/-
  The counters are the sums of the widths of the entries, and
  the most cells so far are no fewer than the cells now.
-/
structure Counted (stack : OperandStack) : Prop where
  src : stack.src = srcCells stack.entries
  dst : stack.dst = dstCells stack.entries
  peak : stack.dst ≤ stack.peak

theorem Counted.empty : OperandStack.empty.Counted :=
  ⟨rfl, rfl, Nat.le_refl 0⟩

theorem Counted.reset (stack : OperandStack) : stack.reset.Counted :=
  ⟨rfl, rfl, Nat.le_refl 0⟩

/- The widths of an entry are no larger than the counters. -/
theorem Counted.width_le {stack : OperandStack} (hCounted : stack.Counted)
    {depth : Nat} {entry : Entry} (hEntry : stack.entries[depth]? = some entry) :
    entry.tag.srcWidth ≤ stack.src ∧ entry.tag.dstWidth ≤ stack.dst := by
  rw [hCounted.src, hCounted.dst]
  exact ⟨le_total_map (·.tag.srcWidth) hEntry, le_total_map (·.tag.dstWidth) hEntry⟩

/- One stack follows another: still counted, with no smaller peak. -/
structure Accounts (before after : OperandStack) : Prop where
  counted : before.Counted → after.Counted
  peak : before.peak ≤ after.peak

theorem Accounts.refl (stack : OperandStack) : Accounts stack stack :=
  ⟨id, Nat.le_refl _⟩

theorem Accounts.trans {first second third : OperandStack}
    (hFirst : Accounts first second) (hSecond : Accounts second third) :
    Accounts first third :=
  ⟨hSecond.counted ∘ hFirst.counted, Nat.le_trans hFirst.peak hSecond.peak⟩

-- Single operations

variable (stack : OperandStack)

theorem accounts_clear : Accounts stack stack.clear :=
  ⟨fun _ => ⟨rfl, rfl, Nat.zero_le _⟩, Nat.le_refl _⟩

theorem accounts_issues (issues : List StackIssue) :
    Accounts stack { stack with issues := issues } :=
  ⟨fun hCounted => ⟨hCounted.src, hCounted.dst, hCounted.peak⟩, Nat.le_refl _⟩

theorem accounts_report (issue : StackIssue) :
    Accounts stack (stack.report issue) :=
  accounts_issues stack _

theorem accounts_reserve (cells : Nat) :
    Accounts stack (stack.reserve cells) where
  counted hCounted :=
    ⟨hCounted.src, hCounted.dst, Nat.le_trans hCounted.peak (Nat.le_max_left _ _)⟩
  peak := Nat.le_max_left _ _

theorem accounts_push (tag : Tag) (name : Option String) :
    Accounts stack (stack.push tag name) where
  counted hCounted := by
    refine ⟨?_, ?_, Nat.le_max_right _ _⟩
    · simp only [push, srcCells, map_cons, total_cons, hCounted.src, Nat.add_comm]
    · simp only [push, dstCells, map_cons, total_cons, hCounted.dst, Nat.add_comm]
  peak := Nat.le_max_left _ _

theorem accounts_popEntry : Accounts stack stack.popEntry.2 := by
  rcases hEntries : stack.entries with _ | ⟨entry, entries⟩
  · simp only [popEntry, hEntries]
    exact accounts_report stack _
  · simp only [popEntry, hEntries]
    refine ⟨?_, Nat.le_refl _⟩
    intro hCounted
    have hSrc := hCounted.src
    have hDst := hCounted.dst
    have hPeak := hCounted.peak
    simp only [hEntries, srcCells, dstCells, map_cons, total_cons] at hSrc hDst
    refine ⟨?_, ?_, ?_⟩ <;> simp only [srcCells, dstCells] <;> omega

/- Taking the top value off leaves what taking its entry off leaves. -/
theorem pop_snd : stack.pop.2 = stack.popEntry.2 := by
  unfold pop
  rcases stack.popEntry with ⟨_ | entry, rest⟩ <;> rfl

theorem accounts_popIf (want : String) (accepts : Tag → Bool) :
    Accounts stack (stack.popIf want accepts).2 := by
  have hPop := accounts_popEntry stack
  rw [← pop_snd] at hPop
  simp only [popIf]
  split
  · exact hPop.trans (accounts_report _ _)
  · exact hPop

theorem accounts_retag (depth : Nat) (tag : Tag) :
    Accounts stack (stack.retag depth tag) := by
  rcases hEntry : stack.entries[depth]? with _ | entry
  · simp only [retag, hEntry]
    exact accounts_report stack _
  · simp only [retag, hEntry]
    refine ⟨?_, Nat.le_max_left _ _⟩
    intro hCounted
    rcases hCounted.width_le hEntry with ⟨hSrcWidth, hDstWidth⟩
    have hSrc := total_map_set (·.tag.srcWidth) { entry with tag := tag } hEntry
    have hDst := total_map_set (·.tag.dstWidth) { entry with tag := tag } hEntry
    have hSrcNow := hCounted.src
    have hDstNow := hCounted.dst
    simp only [srcCells, dstCells] at hSrc hDst hSrcNow hDstNow
    refine ⟨?_, ?_, Nat.le_max_right _ _⟩ <;> simp only [srcCells, dstCells] <;> omega

/- A name has no width. -/
theorem map_tag_forgetNameAt (depth : Nat) :
    (stack.forgetNameAt depth).entries.map Entry.tag = stack.entries.map Entry.tag := by
  apply ext_getElem?
  intro i
  simp only [forgetNameAt, getElem?_map, getElem?_modify]
  rcases stack.entries[i]? with _ | entry
  · rfl
  · by_cases hAt : depth = i <;> simp [hAt]

theorem accounts_forgetNameAt (depth : Nat) :
    Accounts stack (stack.forgetNameAt depth) := by
  have hTags := map_tag_forgetNameAt stack depth
  have hSrc := congrArg (fun tags => total (tags.map Tag.srcWidth)) hTags
  have hDst := congrArg (fun tags => total (tags.map Tag.dstWidth)) hTags
  simp only [map_map] at hSrc hDst
  refine ⟨?_, Nat.le_refl _⟩
  intro hCounted
  exact ⟨hCounted.src.trans hSrc.symm, hCounted.dst.trans hDst.symm, hCounted.peak⟩

theorem accounts_retagNamed (name : String) (tag : Tag) :
    Accounts stack (stack.retagNamed name tag) := by
  unfold retagNamed
  generalize stack.depthsNamed name = depths
  induction depths generalizing stack with
  | nil => exact Accounts.refl stack
  | cons depth depths ih =>
    have hRetag := accounts_retag stack depth tag
    have hForget := accounts_forgetNameAt (stack.retag depth tag) depth
    exact (hRetag.trans hForget).trans (ih _)

theorem accounts_require (required : Nat) :
    Accounts stack (stack.require required).2 := by
  unfold require
  split
  · exact accounts_report stack _
  · exact Accounts.refl stack

theorem accounts_dupAt (count depth : Nat) :
    Accounts stack (stack.dupAt count depth) := by
  unfold dupAt
  by_cases hShort : stack.size < count + depth
  · simp only [require, if_pos hShort]
    exact accounts_report stack _
  · simp only [require, if_neg hShort]
    refine ⟨?_, Nat.le_max_left _ _⟩
    intro hCounted
    -- The copies stand between two parts of the old entries.
    have hParts := take_append_drop (count + depth) stack.entries
    have hSrc := congrArg srcCells hParts
    have hDst := congrArg dstCells hParts
    rw [← hCounted.src] at hSrc
    rw [← hCounted.dst] at hDst
    simp only [srcCells, dstCells, map_append, total_append] at hSrc hDst
    refine ⟨?_, ?_, Nat.le_max_right _ _⟩ <;>
      simp only [srcCells, dstCells, map_append, total_append] <;> omega

theorem accounts_dupShape (copied skipped : Nat) :
    Accounts stack (stack.dupShape copied skipped).2 := by
  unfold dupShape
  split
  · exact Accounts.refl stack
  · split
    · exact accounts_report stack _
    · exact accounts_report stack _

theorem accounts_dup (copied skipped : Nat) :
    Accounts stack (stack.dup copied skipped) := by
  have hShape := accounts_dupShape stack copied skipped
  unfold dup
  rcases hFound : stack.dupShape copied skipped with ⟨_ | ⟨count, depth⟩, shaped⟩
  · rw [hFound] at hShape
    exact hShape
  · rw [hFound] at hShape
    exact hShape.trans (accounts_dupAt shaped count depth)

theorem accounts_requireNarrowAt (depth : Nat) :
    Accounts stack (stack.requireNarrowAt depth) := by
  simp only [requireNarrowAt]
  split
  · exact Accounts.refl stack
  · exact accounts_report stack _

theorem accounts_swap : Accounts stack stack.swap := by
  unfold swap
  by_cases hShort : stack.size < 2
  · simp only [require, if_pos hShort]
    exact accounts_report stack _
  · simp only [require, if_neg hShort]
    have hNarrow := (accounts_requireNarrowAt stack 0).trans
      (accounts_requireNarrowAt (stack.requireNarrowAt 0) 1)
    generalize (stack.requireNarrowAt 0).requireNarrowAt 1 = narrow at hNarrow ⊢
    refine hNarrow.trans ?_
    split
    case h_1 top under entries hEntries =>
      refine ⟨?_, Nat.le_refl _⟩
      intro hCounted
      have hSrc := hCounted.src
      have hDst := hCounted.dst
      simp only [hEntries, srcCells, dstCells, map_cons, total_cons] at hSrc hDst
      refine ⟨?_, ?_, hCounted.peak⟩ <;>
        simp only [srcCells, dstCells, map_cons, total_cons] <;> omega
    case h_2 => exact Accounts.refl narrow

end OperandStack

-- Snapshots

/- The cached counts of a snapshot are those of its entries. -/
structure StackSnapshot.Counted (snapshot : StackSnapshot) : Prop where
  src : snapshot.src = srcCells snapshot.entries
  dst : snapshot.dst = dstCells snapshot.entries

theorem StackSnapshot.Counted.ofEntries (entries : List Entry) :
    (StackSnapshot.ofEntries entries).Counted :=
  ⟨rfl, rfl⟩

namespace OperandStack

theorem Counted.save {stack : OperandStack} (hCounted : stack.Counted) :
    stack.save.Counted :=
  ⟨hCounted.src, hCounted.dst⟩

theorem accounts_restore (stack : OperandStack) {snapshot : StackSnapshot}
    (hSnapshot : snapshot.Counted) :
    Accounts stack (stack.restore snapshot) where
  counted _ := ⟨hSnapshot.src, hSnapshot.dst, Nat.le_max_right _ _⟩
  peak := Nat.le_max_left _ _

-- Operations with checked subtraction

/- What is left of a counter, if it has that many cells. -/
def less? (counter cells : Nat) : Option Nat :=
  if cells ≤ counter then some (counter - cells) else none

theorem less?_of_le {counter cells : Nat} (hLe : cells ≤ counter) :
    less? counter cells = some (counter - cells) :=
  if_pos hLe

/- `popEntry`, if no counter goes below zero. -/
def popEntry? (stack : OperandStack) : Option (Option Entry × OperandStack) :=
  match stack.entries with
  | [] => some (none, stack.report (.underflow 1 0))
  | entry :: entries => do
      let src ← less? stack.src entry.tag.srcWidth
      let dst ← less? stack.dst entry.tag.dstWidth
      return (some entry, { stack with entries := entries, src := src, dst := dst })

/- `pop`, if no counter goes below zero. -/
def pop? (stack : OperandStack) : Option (Tag × OperandStack) := do
  match ← stack.popEntry? with
  | (some entry, stack) => return (entry.tag, stack)
  | (none, stack) => return (.void, stack)

/- `popIf`, if no counter goes below zero. -/
def popIf? (stack : OperandStack) (want : String)
    (accepts : Tag → Bool) : Option (Tag × OperandStack) := do
  let (tag, stack) ← stack.pop?
  if !tag.isVoid && !accepts tag then
    return (tag, stack.report (.mismatch want tag 0))
  else
    return (tag, stack)

/- `retag`, if no counter goes below zero. -/
def retag? (stack : OperandStack) (depth : Nat) (tag : Tag) : Option OperandStack :=
  match stack.entries[depth]? with
  | none => some (stack.report (.underflow (depth + 1) stack.size))
  | some entry => do
      let src ← less? stack.src entry.tag.srcWidth
      let dst ← less? stack.dst entry.tag.dstWidth
      return { stack with
        entries := stack.entries.set depth { entry with tag := tag }
        src := src + tag.srcWidth
        dst := dst + tag.dstWidth
        peak := max stack.peak (dst + tag.dstWidth) }

/- `retagNamed`, if no counter goes below zero on the way. -/
def retagNamed? (stack : OperandStack) (name : String)
    (tag : Tag) : Option OperandStack :=
  (stack.depthsNamed name).foldlM
    (fun stack depth => (stack.retag? depth tag).map (·.forgetNameAt depth))
    stack

section Checked

variable {stack : OperandStack}

section

variable (hCounted : stack.Counted)
include hCounted

theorem popEntry?_eq :
    stack.popEntry? = some stack.popEntry := by
  unfold popEntry? popEntry
  rcases hEntries : stack.entries with _ | ⟨entry, entries⟩
  · rfl
  · have hTop : stack.entries[0]? = some entry := by simp [hEntries]
    rcases hCounted.width_le hTop with ⟨hSrc, hDst⟩
    simp [less?_of_le hSrc, less?_of_le hDst]

theorem pop?_eq : stack.pop? = some stack.pop := by
  unfold pop? pop
  rw [popEntry?_eq hCounted]
  rcases stack.popEntry with ⟨_ | entry, rest⟩ <;> rfl

theorem popIf?_eq (want : String) (accepts : Tag → Bool) :
    stack.popIf? want accepts = some (stack.popIf want accepts) := by
  unfold popIf? popIf
  rw [pop?_eq hCounted]
  simp only [Option.bind_eq_bind, Option.bind_some]
  split <;> rfl

theorem retag?_eq (depth : Nat) (tag : Tag) :
    stack.retag? depth tag = some (stack.retag depth tag) := by
  unfold retag? retag
  rcases hEntry : stack.entries[depth]? with _ | entry
  · rfl
  · rcases hCounted.width_le hEntry with ⟨hSrc, hDst⟩
    simp [less?_of_le hSrc, less?_of_le hDst]

theorem retagNamed?_eq (name : String) (tag : Tag) :
    stack.retagNamed? name tag = some (stack.retagNamed name tag) := by
  unfold retagNamed? retagNamed
  generalize stack.depthsNamed name = depths
  induction depths generalizing stack with
  | nil => rfl
  | cons depth depths ih =>
    have hRetag := accounts_retag stack depth tag
    have hForget := accounts_forgetNameAt (stack.retag depth tag) depth
    rw [foldlM_cons, retag?_eq hCounted]
    exact ih ((hRetag.trans hForget).counted hCounted)

end

end Checked

-- Series of operations

/-
  What can be done to a stack. The pops that ask for a narrow or
  a wide value, a payload, a reference or one tag are `popIf`
  with a test of their own.
-/
inductive Operation where
  | push (tag : Tag) (name : Option String)
  | popEntry
  | pop
  | popIf (want : String) (accepts : Tag → Bool)
  | retag (depth : Nat) (tag : Tag)
  | retagNamed (name : String) (tag : Tag)
  | require (required : Nat)
  | dupShape (copied skipped : Nat)
  | dupAt (count depth : Nat)
  | dup (copied skipped : Nat)
  | swap
  | reserve (cells : Nat)
  | clear
  | reset

namespace Operation

variable {stack : OperandStack}

def effect (stack : OperandStack) : Operation → OperandStack
  | .push tag name => stack.push tag name
  | .popEntry => stack.popEntry.2
  | .pop => stack.pop.2
  | .popIf want accepts => (stack.popIf want accepts).2
  | .retag depth tag => stack.retag depth tag
  | .retagNamed name tag => stack.retagNamed name tag
  | .require required => (stack.require required).2
  | .dupShape copied skipped => (stack.dupShape copied skipped).2
  | .dupAt count depth => stack.dupAt count depth
  | .dup copied skipped => stack.dup copied skipped
  | .swap => stack.swap
  | .reserve cells => stack.reserve cells
  | .clear => stack.clear
  | .reset => stack.reset

/- The stack after an operation, if no counter goes below zero in it. -/
def effect? (stack : OperandStack) : Operation → Option OperandStack
  | .popEntry => stack.popEntry?.map Prod.snd
  | .pop => stack.pop?.map Prod.snd
  | .popIf want accepts => (stack.popIf? want accepts).map Prod.snd
  | .retag depth tag => stack.retag? depth tag
  | .retagNamed name tag => stack.retagNamed? name tag
  | operation => some (operation.effect stack)

/- Every operation but `reset` keeps the account. -/
theorem accounts_effect (stack : OperandStack) {operation : Operation}
    (hOperation : operation ≠ .reset) :
    Accounts stack (operation.effect stack) := by
  cases operation with
  | push tag name => exact accounts_push stack tag name
  | popEntry => exact accounts_popEntry stack
  | pop =>
    simp only [effect, pop_snd]
    exact accounts_popEntry stack
  | popIf want accepts => exact accounts_popIf stack want accepts
  | retag depth tag => exact accounts_retag stack depth tag
  | retagNamed name tag => exact accounts_retagNamed stack name tag
  | require required => exact accounts_require stack required
  | dupShape copied skipped => exact accounts_dupShape stack copied skipped
  | dupAt count depth => exact accounts_dupAt stack count depth
  | dup copied skipped => exact accounts_dup stack copied skipped
  | swap => exact accounts_swap stack
  | reserve cells => exact accounts_reserve stack cells
  | clear => exact accounts_clear stack
  | reset => exact absurd rfl hOperation

theorem counted_effect (hCounted : stack.Counted) (operation : Operation) :
    (operation.effect stack).Counted := by
  by_cases hReset : operation = .reset
  · rw [hReset]
    exact Counted.reset stack
  · exact (accounts_effect stack hReset).counted hCounted

/- On a counted stack no counter goes below zero. -/
theorem effect?_eq (hCounted : stack.Counted) (operation : Operation) :
    operation.effect? stack = some (operation.effect stack) := by
  cases operation with
  | popEntry => simp [effect?, effect, popEntry?_eq hCounted]
  | pop => simp [effect?, effect, pop?_eq hCounted]
  | popIf want accepts => simp [effect?, effect, popIf?_eq hCounted]
  | retag depth tag => simp [effect?, effect, retag?_eq hCounted]
  | retagNamed name tag => simp [effect?, effect, retagNamed?_eq hCounted]
  | _ => rfl

end Operation

/- An operation, or a use of the snapshots made so far, by number. -/
inductive Command where
  | operate (operation : Operation)
  | save
  | withoutTop (number count : Nat)
  | mapTags (number : Nat) (change : Nat → Tag → Tag)
  | restore (number : Nat)

/- A stack and the snapshots that were made on the way. -/
structure Session where
  stack : OperandStack
  snapshots : List StackSnapshot

namespace Session

/- The empty stack, before any snapshot. -/
def start : Session :=
  ⟨empty, []⟩

/- The session with one more snapshot, if there is one. -/
def keep (session : Session) (snapshot : Option StackSnapshot) : Session :=
  { session with snapshots := session.snapshots ++ snapshot.toList }

def perform (session : Session) : Command → Session
  | .operate operation => { session with stack := operation.effect session.stack }
  | .save => session.keep (some session.stack.save)
  | .withoutTop number count =>
    session.keep (session.snapshots[number]?.map (·.withoutTop count))
  | .mapTags number change =>
    session.keep (session.snapshots[number]?.map (·.mapTags change))
  | .restore number =>
    match session.snapshots[number]? with
    | some snapshot => { session with stack := session.stack.restore snapshot }
    | none => session

/- The session after a command, if no counter goes below zero in it. -/
def perform? (session : Session) : Command → Option Session
  | .operate operation =>
    (operation.effect? session.stack).map fun stack => { session with stack := stack }
  | command => some (session.perform command)

def run (session : Session) (commands : List Command) : Session :=
  commands.foldl perform session

/- The session after some commands, if no counter ever goes below zero. -/
def run? (session : Session) (commands : List Command) : Option Session :=
  commands.foldlM perform? session

/- The stack and every snapshot are counted. -/
structure Counted (session : Session) : Prop where
  stack : session.stack.Counted
  snapshots : ∀ snapshot ∈ session.snapshots, snapshot.Counted

theorem Counted.start : Session.start.Counted :=
  ⟨OperandStack.Counted.empty, by simp [Session.start]⟩

variable {session : Session}

section

variable (hCounted : session.Counted)
include hCounted

theorem Counted.keep {snapshot : Option StackSnapshot}
    (hSnapshot : ∀ made ∈ snapshot, made.Counted) :
    (session.keep snapshot).Counted where
  stack := hCounted.stack
  snapshots := forall_mem_append.mpr
    ⟨hCounted.snapshots, fun made hMade => hSnapshot made (Option.mem_toList.mp hMade)⟩

theorem Counted.perform (command : Command) : (session.perform command).Counted := by
  cases command with
  | operate operation =>
    exact ⟨operation.counted_effect hCounted.stack, hCounted.snapshots⟩
  | save =>
    refine hCounted.keep ?_
    intro made hMade
    cases hMade
    exact hCounted.stack.save
  | withoutTop number count | mapTags number change =>
    refine hCounted.keep ?_
    intro made hMade
    rcases Option.map_eq_some_iff.mp hMade with ⟨snapshot, _, hMade⟩
    rw [← hMade]
    exact StackSnapshot.Counted.ofEntries _
  | restore number =>
    rcases hSnapshot : session.snapshots[number]? with _ | snapshot
    · simp only [Session.perform, hSnapshot]
      exact hCounted
    · have hMade := hCounted.snapshots snapshot (mem_of_getElem? hSnapshot)
      have hRestore := accounts_restore session.stack hMade
      simp only [Session.perform, hSnapshot]
      exact ⟨hRestore.counted hCounted.stack, hCounted.snapshots⟩

/- Every command but a reset keeps or raises the peak. -/
theorem Counted.peak_le_perform {command : Command}
    (hCommand : command ≠ .operate .reset) :
    session.stack.peak ≤ (session.perform command).stack.peak := by
  cases command with
  | operate operation =>
    have hOperation : operation ≠ .reset := fun hReset => hCommand (by rw [hReset])
    exact (operation.accounts_effect session.stack hOperation).peak
  | restore number =>
    rcases hSnapshot : session.snapshots[number]? with _ | snapshot
    · simp only [Session.perform, hSnapshot]
      exact Nat.le_refl _
    · have hMade := hCounted.snapshots snapshot (mem_of_getElem? hSnapshot)
      simp only [Session.perform, hSnapshot]
      exact (accounts_restore session.stack hMade).peak
  | _ => exact Nat.le_refl _

theorem Counted.perform?_eq (command : Command) :
    session.perform? command = some (session.perform command) := by
  cases command with
  | operate operation =>
    simp [Session.perform?, Session.perform, operation.effect?_eq hCounted.stack]
  | _ => rfl

theorem Counted.run (commands : List Command) : (session.run commands).Counted := by
  induction commands generalizing session with
  | nil => exact hCounted
  | cons command commands ih => exact ih (hCounted.perform command)

theorem Counted.run?_eq (commands : List Command) :
    session.run? commands = some (session.run commands) := by
  induction commands generalizing session with
  | nil => rfl
  | cons command commands ih =>
    have hRest := ih (hCounted.perform command)
    unfold run? at hRest ⊢
    rw [foldlM_cons, hCounted.perform?_eq command]
    exact hRest

end

/-
  After any commands the counters are the sums of the widths of
  the entries, and the peak covers them. On the way no counter
  had to go below zero, and no next command but a reset lowers
  the peak.
-/
theorem counters_track_widths (commands : List Command) :
    let session := Session.start.run commands
    Session.start.run? commands = some session ∧
      session.stack.src = srcCells session.stack.entries ∧
      session.stack.dst = dstCells session.stack.entries ∧ session.stack.dst ≤ session.stack.peak ∧
      ∀ command, command = .operate .reset ∨
        session.stack.peak ≤ (session.perform command).stack.peak := by
  intro session
  have hCounted : session.Counted := Counted.start.run commands
  refine ⟨Counted.start.run?_eq commands, hCounted.stack.src, hCounted.stack.dst,
    hCounted.stack.peak, ?_⟩
  intro command
  by_cases hReset : command = .operate .reset
  · exact Or.inl hReset
  · exact Or.inr (hCounted.peak_le_perform hReset)

end Session

end OperandStack

end Unboxing
