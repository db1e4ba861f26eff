/-
  This file defines the instructions that only compute with
  primitive values on the operand stack. Each is described by
  the kinds of values it takes and the kind it leaves.

  Key definitions include:
    * `ValueKind`
    * `Plain`
    * `Plain.mnemonic`
    * `Plain.takes`
    * `Plain.leaves`
-/

namespace Unboxing

-- Kinds of values

/- How a value is loaded, stored and returned. -/
inductive ValueKind where
  | int | long | float | double | reference
deriving DecidableEq, Repr

namespace ValueKind

/- The letter of a kind at the front of a mnemonic. -/
def letter : ValueKind → String
  | .int => "i"
  | .long => "l"
  | .float => "f"
  | .double => "d"
  | .reference => "a"

def name : ValueKind → String
  | .int => "int"
  | .long => "long"
  | .float => "float"
  | .double => "double"
  | .reference => "reference"

def all : List ValueKind :=
  [.int, .long, .float, .double, .reference]

end ValueKind

-- Plain instructions

/- An instruction on primitive values of the operand stack. -/
inductive Plain where
  | nop
  | iconstM1 | iconst0 | iconst1 | iconst2 | iconst3 | iconst4 | iconst5
  | lconst0 | lconst1
  | fconst0 | fconst1 | fconst2
  | dconst0 | dconst1
  | iadd | ladd | fadd | dadd
  | isub | lsub | fsub | dsub
  | imul | lmul | fmul | dmul
  | idiv | ldiv | fdiv | ddiv
  | irem | lrem | frem | drem
  | ineg | lneg | fneg | dneg
  | ishl | ishr | iushr | lshl | lshr | lushr
  | iand | land | ior | lor | ixor | lxor
  | i2l | i2f | i2d | l2i | l2f | l2d | f2i | f2l | f2d | d2i | d2l | d2f
  | i2b | i2c | i2s
  | lcmp | fcmpl | fcmpg | dcmpl | dcmpg
deriving DecidableEq, Repr

namespace Plain

def mnemonic : Plain → String
  | .nop => "nop"
  | .iconstM1 => "iconst_m1"
  | .iconst0 => "iconst_0"
  | .iconst1 => "iconst_1"
  | .iconst2 => "iconst_2"
  | .iconst3 => "iconst_3"
  | .iconst4 => "iconst_4"
  | .iconst5 => "iconst_5"
  | .lconst0 => "lconst_0"
  | .lconst1 => "lconst_1"
  | .fconst0 => "fconst_0"
  | .fconst1 => "fconst_1"
  | .fconst2 => "fconst_2"
  | .dconst0 => "dconst_0"
  | .dconst1 => "dconst_1"
  | .iadd => "iadd"
  | .ladd => "ladd"
  | .fadd => "fadd"
  | .dadd => "dadd"
  | .isub => "isub"
  | .lsub => "lsub"
  | .fsub => "fsub"
  | .dsub => "dsub"
  | .imul => "imul"
  | .lmul => "lmul"
  | .fmul => "fmul"
  | .dmul => "dmul"
  | .idiv => "idiv"
  | .ldiv => "ldiv"
  | .fdiv => "fdiv"
  | .ddiv => "ddiv"
  | .irem => "irem"
  | .lrem => "lrem"
  | .frem => "frem"
  | .drem => "drem"
  | .ineg => "ineg"
  | .lneg => "lneg"
  | .fneg => "fneg"
  | .dneg => "dneg"
  | .ishl => "ishl"
  | .ishr => "ishr"
  | .iushr => "iushr"
  | .lshl => "lshl"
  | .lshr => "lshr"
  | .lushr => "lushr"
  | .iand => "iand"
  | .land => "land"
  | .ior => "ior"
  | .lor => "lor"
  | .ixor => "ixor"
  | .lxor => "lxor"
  | .i2l => "i2l"
  | .i2f => "i2f"
  | .i2d => "i2d"
  | .l2i => "l2i"
  | .l2f => "l2f"
  | .l2d => "l2d"
  | .f2i => "f2i"
  | .f2l => "f2l"
  | .f2d => "f2d"
  | .d2i => "d2i"
  | .d2l => "d2l"
  | .d2f => "d2f"
  | .i2b => "i2b"
  | .i2c => "i2c"
  | .i2s => "i2s"
  | .lcmp => "lcmp"
  | .fcmpl => "fcmpl"
  | .fcmpg => "fcmpg"
  | .dcmpl => "dcmpl"
  | .dcmpg => "dcmpg"

/- The kinds of the values that are taken, the top of the stack first. -/
def takes : Plain → List ValueKind
  | .nop
  | .iconstM1 | .iconst0 | .iconst1 | .iconst2 | .iconst3 | .iconst4 | .iconst5
  | .lconst0 | .lconst1
  | .fconst0 | .fconst1 | .fconst2
  | .dconst0 | .dconst1 => []
  | .iadd | .isub | .imul | .idiv | .irem
  | .iand | .ior | .ixor
  | .ishl | .ishr | .iushr => [.int, .int]
  | .ladd | .lsub | .lmul | .ldiv | .lrem
  | .land | .lor | .lxor
  | .lcmp => [.long, .long]
  | .lshl | .lshr | .lushr => [.int, .long]
  | .fadd | .fsub | .fmul | .fdiv | .frem
  | .fcmpl | .fcmpg => [.float, .float]
  | .dadd | .dsub | .dmul | .ddiv | .drem
  | .dcmpl | .dcmpg => [.double, .double]
  | .ineg | .i2l | .i2f | .i2d | .i2b | .i2c | .i2s => [.int]
  | .lneg | .l2i | .l2f | .l2d => [.long]
  | .fneg | .f2i | .f2l | .f2d => [.float]
  | .dneg | .d2i | .d2l | .d2f => [.double]

/- The kind of the value that is left, if any. -/
def leaves : Plain → Option ValueKind
  | .nop => none
  | .iconstM1 | .iconst0 | .iconst1 | .iconst2 | .iconst3 | .iconst4 | .iconst5
  | .iadd | .isub | .imul | .idiv | .irem | .ineg
  | .ishl | .ishr | .iushr
  | .iand | .ior | .ixor
  | .l2i | .f2i | .d2i | .i2b | .i2c | .i2s
  | .lcmp | .fcmpl | .fcmpg | .dcmpl | .dcmpg => some .int
  | .lconst0 | .lconst1
  | .ladd | .lsub | .lmul | .ldiv | .lrem | .lneg
  | .lshl | .lshr | .lushr
  | .land | .lor | .lxor
  | .i2l | .f2l | .d2l => some .long
  | .fconst0 | .fconst1 | .fconst2
  | .fadd | .fsub | .fmul | .fdiv | .frem | .fneg
  | .i2f | .l2f | .d2f => some .float
  | .dconst0 | .dconst1
  | .dadd | .dsub | .dmul | .ddiv | .drem | .dneg
  | .i2d | .l2d | .f2d => some .double

def all : List Plain :=
  [ .nop,
    .iconstM1, .iconst0, .iconst1, .iconst2, .iconst3, .iconst4, .iconst5,
    .lconst0, .lconst1,
    .fconst0, .fconst1, .fconst2,
    .dconst0, .dconst1,
    .iadd, .ladd, .fadd, .dadd,
    .isub, .lsub, .fsub, .dsub,
    .imul, .lmul, .fmul, .dmul,
    .idiv, .ldiv, .fdiv, .ddiv,
    .irem, .lrem, .frem, .drem,
    .ineg, .lneg, .fneg, .dneg,
    .ishl, .ishr, .iushr, .lshl, .lshr, .lushr,
    .iand, .land, .ior, .lor, .ixor, .lxor,
    .i2l, .i2f, .i2d, .l2i, .l2f, .l2d, .f2i, .f2l, .f2d, .d2i, .d2l, .d2f,
    .i2b, .i2c, .i2s,
    .lcmp, .fcmpl, .fcmpg, .dcmpl, .dcmpg ]

end Plain

end Unboxing
