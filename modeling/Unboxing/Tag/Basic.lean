import Unboxing.Code.Plain

/-
  This file defines the tags of tracked values. A tag says what
  a value is, how many array dimensions it has, and so how many
  cells it takes before and after unboxing.

  Before unboxing every instance of a value class is a
  reference in one cell. Afterwards a scalar payload is a
  `long` in two cells. Arrays are one cell on both sides.

  Key definitions include:
    * `ClassIndex`
    * `Kind`
    * `Tag`
    * `Tag.srcWidth`
    * `Tag.dstWidth`
    * `Tag.valueKind`
    * `Tag.payloadOf`
    * `Tag.referenceOf`
    * `Tag.substitute`
-/

namespace Unboxing

-- Value classes by index

/- One of the value classes of a mapping, or any of them. -/
inductive ClassIndex where
  | declared (index : Fin 15)
  | wildcard
deriving DecidableEq, Repr

namespace ClassIndex

def first : ClassIndex := .declared ⟨0, by decide⟩

/- How many value classes a mapping can declare. -/
def limit : Nat := 15

/- The value class declared at a position. -/
def ofNat? (n : Nat) : Option ClassIndex :=
  if h : n < 15 then some (.declared ⟨n, h⟩) else none

/- The number of an index, with the wildcard after all others. -/
def number : ClassIndex → Nat
  | .declared index => index.val
  | .wildcard => 15

/- An index as tags write it. -/
def text : ClassIndex → String
  | .declared index => toString index.val
  | .wildcard => "*"

end ClassIndex

-- Tags

/- What a value, or the innermost element of an array, is. -/
inductive Kind where
  | void
  | int
  | long
  | float
  | double
  | object
  | null
  | payload (cls : ClassIndex)
  | reference (cls : ClassIndex)
deriving DecidableEq, Repr

/- The shape of a tracked value: a kind, under some array dimensions. -/
structure Tag where
  kind : Kind
  depth : Nat
deriving DecidableEq, Repr

namespace Tag

/- The most array dimensions that a tag can count. -/
def maxDepth : Nat := 255

def void : Tag := ⟨.void, 0⟩

/- An `int`, or a smaller integer on the stack. -/
def int : Tag := ⟨.int, 0⟩

def long : Tag := ⟨.long, 0⟩

def float : Tag := ⟨.float, 0⟩

def double : Tag := ⟨.double, 0⟩

/- An object whose class is not tracked. -/
def object : Tag := ⟨.object, 0⟩

def null : Tag := ⟨.null, 0⟩

/- A value of a class, held as its payload. -/
def payload (cls : ClassIndex) : Tag := ⟨.payload cls, 0⟩

/- A value of a class, held as a reference to a box. -/
def reference (cls : ClassIndex) : Tag := ⟨.reference cls, 0⟩

/- The tag of values of a kind that instructions move. -/
def ofKind : ValueKind → Tag
  | .int => int
  | .long => long
  | .float => float
  | .double => double
  | .reference => object

-- Questions

/- The value class of a tag, if it has one. -/
def class? (tag : Tag) : Option ClassIndex :=
  match tag.kind with
  | .payload cls | .reference cls => some cls
  | _ => none

def isVoid (tag : Tag) : Bool :=
  tag.kind == .void

def isNull (tag : Tag) : Bool :=
  tag.kind == .null

def isArray (tag : Tag) : Bool :=
  0 < tag.depth

/- Whether the value, or an innermost element of it, is of a value class. -/
def isValue (tag : Tag) : Bool :=
  tag.class?.isSome

/- Whether values of the kind are payloads. -/
def hasPayloadKind (tag : Tag) : Bool :=
  match tag.kind with
  | .payload _ => true
  | _ => false

/- Whether values of the kind are references to boxes. -/
def hasReferenceKind (tag : Tag) : Bool :=
  match tag.kind with
  | .reference _ => true
  | _ => false

/- Whether the value is a payload and no array. -/
def isPayload (tag : Tag) : Bool :=
  tag.hasPayloadKind && !tag.isArray

/- Whether the value is a reference to a box and no array. -/
def isReference (tag : Tag) : Bool :=
  tag.hasReferenceKind && !tag.isArray

/- Whether the value is an array whose elements are payloads. -/
def isPayloadArray (tag : Tag) : Bool :=
  tag.hasPayloadKind && tag.isArray

/- Whether the value is held as a payload, or is an array of payloads. -/
def isUnboxed (tag : Tag) : Bool :=
  tag.isPayload || tag.isPayloadArray

/- Whether the value class is still open. -/
def isWildcard (tag : Tag) : Bool :=
  tag.class? == some .wildcard

/- Whether the value is a reference before unboxing. -/
def isSrcReference (tag : Tag) : Bool :=
  tag.isArray ||
    match tag.kind with
    | .object | .null | .payload _ | .reference _ => true
    | _ => false

/- Whether the value is a reference after unboxing. -/
def isDstReference (tag : Tag) : Bool :=
  tag.isSrcReference && !tag.isPayload

-- Widths

/- Whether the value takes two cells before unboxing. -/
def isSrcWide (tag : Tag) : Bool :=
  !tag.isArray &&
    match tag.kind with
    | .long | .double => true
    | _ => false

/- Whether the value takes two cells after unboxing. -/
def isDstWide (tag : Tag) : Bool :=
  !tag.isArray &&
    match tag.kind with
    | .long | .double | .payload _ => true
    | _ => false

/- The cells of the value before unboxing. -/
def srcWidth (tag : Tag) : Nat :=
  if tag.isSrcWide then 2 else 1

/- The cells of the value after unboxing. -/
def dstWidth (tag : Tag) : Nat :=
  if tag.isDstWide then 2 else 1

/- How the value is loaded and stored after unboxing. -/
def valueKind (tag : Tag) : ValueKind :=
  if tag.isArray then
    .reference
  else
    match tag.kind with
    | .int => .int
    | .long | .payload _ => .long
    | .float => .float
    | .double => .double
    | .void | .object | .null | .reference _ => .reference

-- Related tags

/- An array of such values with `extra` dimensions, up to the limit. -/
def arrayOf (tag : Tag) (extra : Nat) : Tag :=
  { tag with depth := min maxDepth (tag.depth + extra) }

/- The element of an array; of anything else, some object. -/
def elementOf (tag : Tag) : Tag :=
  if tag.isArray then { tag with depth := tag.depth - 1 } else object

/- The same value as a payload, if it is a reference to a box. -/
def payloadOf (tag : Tag) : Tag :=
  match tag.kind with
  | .reference cls => { tag with kind := .payload cls }
  | _ => tag

/- The same value as a reference to a box, if it is a payload. -/
def referenceOf (tag : Tag) : Tag :=
  match tag.kind with
  | .payload cls => { tag with kind := .reference cls }
  | _ => tag

/- The tag with a class in place of the wildcard. -/
def substitute (tag : Tag) (cls : ClassIndex) : Tag :=
  match tag.kind with
  | .payload .wildcard => { tag with kind := .payload cls }
  | .reference .wildcard => { tag with kind := .reference cls }
  | _ => tag

-- Text

def kindText : Kind → String
  | .void => "void"
  | .int => "int"
  | .long => "long"
  | .float => "float"
  | .double => "double"
  | .object => "object"
  | .null => "null"
  | .payload cls => s!"payload<{cls.text}>"
  | .reference cls => s!"ref<{cls.text}>"

/- The text of a tag: its kind, then brackets for each dimension. -/
def text (tag : Tag) : String :=
  kindText tag.kind ++ String.join (List.replicate tag.depth "[]")

-- Small facts

@[simp] theorem referenceOf_payloadOf_of_reference (cls : ClassIndex) (depth : Nat) :
    (Tag.mk (.reference cls) depth).payloadOf.referenceOf
      = ⟨.reference cls, depth⟩ := rfl

@[simp] theorem payloadOf_referenceOf_of_payload (cls : ClassIndex) (depth : Nat) :
    (Tag.mk (.payload cls) depth).referenceOf.payloadOf
      = ⟨.payload cls, depth⟩ := rfl

/- A value takes one cell or two before unboxing. -/
theorem srcWidth_pos (tag : Tag) : 0 < tag.srcWidth := by
  unfold srcWidth
  split <;> omega

/- A value never gets narrower. -/
theorem srcWidth_le_dstWidth (tag : Tag) : tag.srcWidth ≤ tag.dstWidth := by
  obtain ⟨kind, depth⟩ := tag
  cases kind <;> by_cases h : 0 < depth <;>
    simp [srcWidth, dstWidth, isSrcWide, isDstWide, isArray, h]

end Tag

end Unboxing
