import Unboxing.Registry.Resolution

/-
  This file defines the form in which tags and value classes are
  kept in memory. A tag is one word of 32 bits. The value classes
  of a mapping are found in a table, by name.

    * bits 0 to 3: the kind
    * bits 8 to 15: the array dimensions
    * bits 16 to 19: the value class
    * bits 20 and 21: two cells before and after unboxing

  Key definitions include:
    * `Word`
    * `Word.new`
    * `Word.ofType`
    * `Word.typeOf?`
    * `NameTable.ofMapping`
-/

namespace Unboxing

------------------------------------------------------------
-- Words
------------------------------------------------------------

abbrev Word := BitVec 32

namespace Word

def kindMask : Word := 0xF#32

def depthMask : Word := 0xFF#32 <<< 8

def classMask : Word := 0xF#32 <<< 16

/- Two cells before unboxing. -/
def src64 : Word := 1#32 <<< 20

/- Two cells after unboxing. -/
def dst64 : Word := 1#32 <<< 21

def kindBits : Kind → Word
  | .void => 0#32
  | .int => 1#32
  | .long => 2#32
  | .float => 3#32
  | .double => 4#32
  | .object => 5#32
  | .null => 6#32
  | .payload _ => 7#32
  | .reference _ => 8#32

/- Only the kinds of value classes have a class. -/
def classBits : Kind → Word
  | .payload cls | .reference cls =>
      BitVec.ofNat 32 cls.number <<< 16
  | _ => 0#32

/- Arrays take one cell, whatever is in them. -/
def widthBits (kind : Kind) (depth : BitVec 8) : Word :=
  if 0#8 < depth then
    0#32
  else
    match kind with
    | .long | .double => src64 ||| dst64
    | .payload _ => dst64
    | _ => 0#32

/- The word of a kind under some array dimensions. -/
def new (kind : Kind) (depth : BitVec 8) : Word :=
  kindBits kind ||| depth.setWidth 32 <<< 8 |||
    classBits kind ||| widthBits kind depth

def classOf (word : Word) : ClassIndex :=
  (ClassIndex.ofNat? ((word &&& classMask) >>> 16).toNat).getD
    .wildcard

/- The kind of a word. Bits that are those of no kind mean nothing. -/
def kind (word : Word) : Kind :=
  match (word &&& kindMask).toNat with
  | 1 => .int
  | 2 => .long
  | 3 => .float
  | 4 => .double
  | 5 => .object
  | 6 => .null
  | 7 => .payload word.classOf
  | 8 => .reference word.classOf
  | _ => .void

def depth (word : Word) : BitVec 8 :=
  ((word &&& depthMask) >>> 8).setWidth 8

def isValue (word : Word) : Bool :=
  match word.kind with
  | .payload _ | .reference _ => true
  | _ => false

/- An array with so many more dimensions, up to the limit. -/
def arrayOf (word : Word) (extra : BitVec 8) : Word :=
  new word.kind
    (BitVec.ofNat 8 (min 255 (word.depth.toNat + extra.toNat)))

def payloadOf (word : Word) : Word :=
  match word.kind with
  | .reference cls => new (.payload cls) word.depth
  | _ => word

def referenceOf (word : Word) : Word :=
  match word.kind with
  | .payload cls => new (.reference cls) word.depth
  | _ => word

end Word

------------------------------------------------------------
-- Names
------------------------------------------------------------

/- The value classes of a mapping by name. -/
abbrev NameTable := List (ClassName × ClassIndex)

namespace NameTable

def index? (table : NameTable) (name : ClassName) :
    Option ClassIndex :=
  table.lookup name

/- Enter classes from an index on. No name can be entered twice. -/
def enter (table : NameTable) (index : Nat) :
    List ValueClassEntry → Except MappingError NameTable
  | [] => return table
  | entry :: entries => do
      match ClassName.parse entry.name with
      | .error fault => throw (.malformedName fault)
      | .ok name =>
          match ClassIndex.ofNat? index with
          | none => throw (.tooManyClasses (index + 1))
          | some cls =>
              if (table.index? name).isSome then
                throw (.duplicateClass name)
              enter ((name, cls) :: table) (index + 1) entries

def ofMapping (mapping : Mapping) : Except MappingError NameTable :=
  if ClassIndex.limit < mapping.valueClasses.length then
    throw (.tooManyClasses mapping.valueClasses.length)
  else
    enter [] 0 mapping.valueClasses

/- Whether a type is a value class, or an array of one. -/
def mentions (table : NameTable) (type : FieldType) : Bool :=
  (type.className?.bind table.index?).isSome

end NameTable

------------------------------------------------------------
-- Types
------------------------------------------------------------

namespace Word

def ofBase : BaseType → Word
  | .int | .boolean | .byte | .char | .short => 1#32
  | .long => 2#32 ||| src64 ||| dst64
  | .float => 3#32
  | .double => 4#32 ||| src64 ||| dst64

def ofClass (table : NameTable) (name : ClassName) : Word :=
  match table.index? name with
  | some cls => new (.reference cls) 0
  | none => 5#32

/- The word of a type. Dimensions are counted modulo 256. -/
def ofType (table : NameTable) : FieldType → Word
  | .base type => ofBase type
  | .ref (.object name) => ofClass table name
  | .ref (.array more (.base type)) =>
      (ofBase type).arrayOf (BitVec.ofNat 8 (more + 1))
  | .ref (.array more (.object name)) =>
      match table.index? name with
      | some cls => new (.reference cls) (BitVec.ofNat 8 (more + 1))
      | none => arrayOf 5#32 (BitVec.ofNat 8 (more + 1))

/- The type of values after unboxing, if one can be declared. -/
def typeOf? (reg : Registry) (word : Word) : Option FieldType :=
  reg.typeOf? ⟨word.kind, word.depth.toNat⟩

end Word

end Unboxing
