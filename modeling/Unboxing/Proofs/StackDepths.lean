import Unboxing.Proofs.BodySteps

/-
  How deep the operand stack gets in a piece of code, by what
  each instruction takes and leaves, and which locals the code
  reaches.

  Main declarations:
    * `Instruction.taken`
    * `Instruction.left`
    * `depthsFrom`
    * `Within`
    * `within_append`
    * `Instruction.localsEnd`
-/

namespace Unboxing

variable {limit depth : Nat} {code : List Instruction} {deeper : Nat}

-- Cells of values

def ValueKind.cells : ValueKind → Nat
  | .long | .double => 2
  | .int | .float | .reference => 1

/- A value is loaded and stored with the cells that it has after unboxing. -/
theorem Tag.cells_valueKind (tag : Tag) : tag.valueKind.cells = tag.dstWidth := by
  rcases tag with ⟨kind, depth⟩
  by_cases hArray : 0 < depth
  · simp [valueKind, dstWidth, isDstWide, isArray, hArray, ValueKind.cells]
  · cases kind <;>
      simp [valueKind, dstWidth, isDstWide, isArray, hArray, ValueKind.cells]

theorem Tag.dstWidth_ofKind (kind : ValueKind) :
    (Tag.ofKind kind).dstWidth = kind.cells := by
  cases kind <;> rfl

theorem Tag.dstWidth_pos (tag : Tag) : 0 < tag.dstWidth :=
  Nat.lt_of_lt_of_le tag.srcWidth_pos tag.srcWidth_le_dstWidth

-- Cells of operands and results

def Shuffle.taken : Shuffle → Nat
  | .pop | .dup => 1
  | .pop2 | .dupX1 | .dup2 | .swap => 2
  | .dupX2 | .dup2X1 => 3
  | .dup2X2 => 4

def Shuffle.left : Shuffle → Nat
  | .pop | .pop2 => 0
  | .dup | .swap => 2
  | .dupX1 => 3
  | .dupX2 | .dup2 => 4
  | .dup2X1 => 5
  | .dup2X2 => 6

namespace Instruction

def taken : Instruction → Nat
  | .plain op => total (op.takes.map ValueKind.cells)
  | .pushNull | .pushByte _ | .pushShort _ | .constant _ => 0
  | .load .. | .increment .. | .newObject _ => 0
  | .store kind _ => kind.cells
  | .arrayLoad _ => 2
  | .arrayStore kind => 2 + kind.valueKind.cells
  | .arrayLength | .newArray _ | .newRefArray _ => 1
  | .checkCast _ | .instanceOf _ | .monitorEnter | .monitorExit => 1
  | .newMultiArray _ dimensions => dimensions
  | .shuffle op => op.taken
  | .field access accessed =>
    (if access.isStatic then 0 else 1)
      + (if access.isPut then accessed.type.width else 0)
  | .invoke kind method => method.type.parameterCells kind.hasReceiver
  | .invokeDynamic call => call.type.parameterCells false

def left : Instruction → Nat
  | .plain op => total (op.leaves.toList.map ValueKind.cells)
  | .pushNull | .pushByte _ | .pushShort _ => 1
  | .constant value => value.tag.dstWidth
  | .load kind _ => kind.cells
  | .store .. | .increment .. | .arrayStore _ => 0
  | .arrayLoad kind => kind.valueKind.cells
  | .arrayLength | .newObject _ | .newArray _ => 1
  | .newRefArray _ | .newMultiArray .. => 1
  | .checkCast _ | .instanceOf _ => 1
  | .monitorEnter | .monitorExit => 0
  | .shuffle op => op.left
  | .field access accessed => if access.isPut then 0 else accessed.type.width
  | .invoke _ method => total (method.type.result.toList.map FieldType.width)
  | .invokeDynamic call => total (call.type.result.toList.map FieldType.width)

/- The depth of the stack after an instruction, given the depth before it. -/
def depthAfter (i : Instruction) (depth : Nat) : Nat :=
  depth - i.taken + i.left

theorem depthAfter_mono (i : Instruction) {deeper : Nat} (hDepth : depth ≤ deeper) :
    i.depthAfter depth ≤ i.depthAfter deeper := by
  unfold depthAfter
  omega

/-
  The end of the locals that an instruction reads or writes: the
  first slot after them.
-/
def localsEnd : Instruction → Nat
  | .load kind slot | .store kind slot => slot + kind.cells
  | .increment slot _ => slot + 1
  | _ => 0

end Instruction

-- Depths in a piece of code

/- The depth after some code, from a depth on. -/
def depthAfter (depth : Nat) (code : List Instruction) : Nat :=
  code.foldl (fun depth i => i.depthAfter depth) depth

/- The depth at every point of some code: at its start and after each instruction. -/
def depthsFrom (depth : Nat) : List Instruction → List Nat
  | [] => [depth]
  | i :: rest => depth :: depthsFrom (i.depthAfter depth) rest

/- At no point of some code is the stack deeper than a limit. -/
def Within (limit depth : Nat) (code : List Instruction) : Prop :=
  ∀ point ∈ depthsFrom depth code, point ≤ limit

@[simp] theorem within_nil (limit depth : Nat) :
    Within limit depth [] ↔ depth ≤ limit := by
  simp [Within, depthsFrom]

@[simp] theorem within_cons (limit depth : Nat) (i : Instruction)
    (rest : List Instruction) :
    Within limit depth (i :: rest) ↔ depth ≤ limit ∧ Within limit (i.depthAfter depth) rest := by
  simp [Within, depthsFrom]

theorem Within.start (hWithin : Within limit depth code) : depth ≤ limit := by
  cases code with
  | nil => exact (within_nil limit depth).mp hWithin
  | cons i rest => exact ((within_cons limit depth i rest).mp hWithin).1

@[simp] theorem depthAfter_nil (depth : Nat) : depthAfter depth [] = depth :=
  rfl

@[simp] theorem depthAfter_cons (depth : Nat) (i : Instruction)
    (rest : List Instruction) :
    depthAfter depth (i :: rest) = depthAfter (i.depthAfter depth) rest :=
  rfl

theorem depthAfter_append (depth : Nat) (first second : List Instruction) :
    depthAfter depth (first ++ second) = depthAfter (depthAfter depth first) second :=
  List.foldl_append

theorem within_append (limit depth : Nat) (first second : List Instruction) :
    Within limit depth (first ++ second) ↔
      Within limit depth first ∧ Within limit (depthAfter depth first) second := by
  induction first generalizing depth with
  | nil =>
    rw [List.nil_append, within_nil, depthAfter_nil]
    exact ⟨fun hSecond => ⟨hSecond.start, hSecond⟩, fun hBoth => hBoth.2⟩
  | cons i rest ih =>
    rw [List.cons_append, within_cons, within_cons, depthAfter_cons, ih, and_assoc]

/- Code that starts less deep stays less deep. -/
theorem Within.mono {higher : Nat} (hWithin : Within limit deeper code)
    (hLimit : limit ≤ higher) (hDepth : depth ≤ deeper) :
    Within higher depth code := by
  induction code generalizing depth deeper with
  | nil =>
    rw [within_nil] at hWithin ⊢
    omega
  | cons i rest ih =>
    rw [within_cons] at hWithin ⊢
    exact ⟨by omega, ih hWithin.2 (i.depthAfter_mono hDepth)⟩

theorem depthAfter_mono (code : List Instruction) (hDepth : depth ≤ deeper) :
    depthAfter depth code ≤ depthAfter deeper code := by
  induction code generalizing depth deeper with
  | nil => exact hDepth
  | cons i rest ih => exact ih (i.depthAfter_mono hDepth)

/- The stack is within the limit at the end, too. -/
theorem Within.finish (hWithin : Within limit depth code) :
    depthAfter depth code ≤ limit := by
  rw [← List.append_nil code, within_append, within_nil] at hWithin
  exact hWithin.2

-- Some instructions

@[simp] theorem depthAfter_load (kind : ValueKind) (slot depth : Nat) :
    (Instruction.load kind slot).depthAfter depth = depth + kind.cells :=
  rfl

@[simp] theorem depthAfter_store (kind : ValueKind) (slot depth : Nat) :
    (Instruction.store kind slot).depthAfter depth = depth - kind.cells :=
  rfl

/- The payload for null takes two cells. -/
theorem depthAfter_nullConstant (value : Int) (depth : Nat) :
    (nullConstant value).depthAfter depth = depth + 2 := by
  unfold nullConstant
  split
  · rfl
  · split <;> rfl

theorem localsEnd_nullConstant (value : Int) : (nullConstant value).localsEnd = 0 := by
  unfold nullConstant
  split
  · rfl
  · split <;> rfl

theorem depthAfter_popOf (tag : Tag) (depth : Nat) :
    (popOf tag.dstWidth).depthAfter depth = depth - tag.dstWidth := by
  have hPos := tag.dstWidth_pos
  have hTwo := tag.dstWidth_le_two
  unfold popOf
  split
  · rename_i hWide
    rw [hWide]
    rfl
  · have hOne : tag.dstWidth = 1 := by omega
    rw [hOne]
    rfl

end Unboxing
