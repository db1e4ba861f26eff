import Unboxing.Code.Mnemonic
import Unboxing.Code.Node
import Unboxing.Number.Decimal

/-
  This file defines the writing of listings.

  Key definitions include:
    * `Node.words`
    * `Node.render`
    * `Method.render`
    * `Class.render`
    * `Listing.renderClasses`
-/

namespace Unboxing

-- Operands

/- The character of a string constant, escaped where needed. -/
def escapeChar : Char → List Char
  | '\\' => ['\\', '\\']
  | '"' => ['\\', '"']
  | '\n' => ['\\', 'n']
  | '\t' => ['\\', 't']
  | c => [c]

/- A string constant in quotes. -/
def quoted (text : String) : String :=
  String.ofList ('"' :: (text.toList.flatMap escapeChar ++ ['"']))

def Constant.words : Constant → List String
  | .int value => ["int", toString value]
  | .long value => ["long", toString value]
  | .float value => ["float", String.ofList (Decimal.render .single value)]
  | .double value => ["double", String.ofList (Decimal.render .double value)]
  | .string value => [quoted value]
  | .type value => ["class", String.ofList value.operand]
  | .methodType value => ["methodtype", String.ofList value.render]

def FieldRef.words (field : FieldRef) : List String :=
  [s!"{field.owner.text}.{field.name.text}", String.ofList field.type.render]

/- The word of a type in a frame. -/
def FrameType.word : FrameType → String
  | .top => "top"
  | .int => "int"
  | .float => "float"
  | .long => "long"
  | .double => "double"
  | .null => "null"
  | .uninitializedThis => "uninit_this"
  | .object type => String.ofList type.operand
  | .uninitialized origin => s!"uninit:{origin.text}"

def FrameChange.words : FrameChange → List String
  | .same => ["same"]
  | .sameOne entry => ["same1", entry.word]
  | .chop count => ["chop", toString count]
  | .append locals => "append" :: locals.map FrameType.word
  | .full locals stack =>
      "full" :: (locals.map FrameType.word
        ++ if stack.isEmpty then [] else "|" :: stack.map FrameType.word)

def Instruction.operands : Instruction → List String
  | .pushByte value | .pushShort value => [toString value]
  | .load _ slot | .store _ slot => [toString slot]
  | .increment slot delta => [toString slot, toString delta]
  | .constant value => value.words
  | .field _ ref => ref.words
  | .invoke _ method => [method.text]
  | .invokeDynamic call =>
      [s!"{call.name.text}{String.ofList call.type.render}"]
  | .newObject name => [name.text]
  | .newArray type => [type.keyword]
  | .newRefArray type | .checkCast type | .instanceOf type =>
      [String.ofList type.operand]
  | .newMultiArray type dimensions =>
      [String.ofList type.operand, toString dimensions]
  | _ => []

def Branch.operands : Branch → List String
  | .ifInt _ target
  | .ifInts _ target
  | .ifRefs _ target
  | .ifNull _ target
  | .goto target => [target.text]
  | .tableSwitch default low targets =>
      toString low :: (targets.map Label.text ++ ["default", default.text])
  | .lookupSwitch default targets =>
      targets.map (fun (key, target) => s!"{key}:{target.text}")
        ++ ["default", default.text]
  | .ret _ | .throw => []

-- Lines

def Node.words : Node → List String
  | .insn i => i.mnemonic :: i.operands
  | .branch b => b.mnemonic :: b.operands
  | .label l => [l.text ++ ":"]
  | .line number => ["line", toString number]
  | .frame change => "frame" :: change.words

/- A node as a listing writes it. -/
def Node.render (node : Node) : String :=
  " ".intercalate node.words

def Variable.words (entry : Variable) : List String :=
  [ "local", entry.name, String.ofList entry.type.render,
    entry.start.text, entry.stop.text, toString entry.slot ]

def Handler.words (entry : Handler) : List String :=
  ["catch", entry.start.text, entry.stop.text, entry.target.text]
    ++ (entry.caught.map ClassName.text).toList

/- A line of a listing: its depth, its words and a line feed. -/
def renderLine (depth : Nat) (words : List String) : String :=
  String.ofList (List.replicate (2 * depth) ' ') ++ " ".intercalate words ++ "\n"

def Body.render (body : Body) : String :=
  renderLine 2 ["maxs", toString body.maxStack, toString body.maxLocals]
    ++ String.join (body.nodes.map fun node => renderLine 2 node.words)
    ++ String.join (body.vars.map fun entry => renderLine 2 entry.words)
    ++ String.join (body.handlers.map fun entry => renderLine 2 entry.words)

def Method.render (method : Method) : String :=
  renderLine 1
      (["method"] ++ Access.keywords Access.methodTable method.flags
        ++ [method.signature])
    ++ (method.body.map Body.render).getD ""
    ++ renderLine 1 ["end"]

def Field.render (field : Field) : String :=
  renderLine 1
    (["field"] ++ Access.keywords Access.fieldTable field.flags
      ++ [field.name.text, String.ofList field.type.render])

def Class.render (cls : Class) : String :=
  renderLine 0
      (["class"] ++ Access.keywords Access.classTable cls.flags
        ++ [cls.name.text]
        ++ (match cls.parent with
          | some parent => ["extends", parent.text]
          | none => []))
    ++ String.join (cls.fields.map Field.render)
    ++ String.join (cls.methods.map Method.render)
    ++ renderLine 0 ["end"]

/- The listing of some classes, with an empty line between two. -/
def Listing.renderClasses (classes : List Class) : String :=
  "\n".intercalate (classes.map Class.render)

end Unboxing
