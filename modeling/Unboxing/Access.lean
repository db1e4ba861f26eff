/-
  This file defines the access flags of classes, methods and
  fields: a set of bits, each with a keyword.
-/

namespace Unboxing.Access

/- A set of flags, one bit for each. -/
abbrev Flags := Nat

/- The flags that a kind of declaration can carry, in writing order. -/
abbrev Table := List (String × Flags)

-- Tables

def classTable : Table :=
  [ ("public", 0x0001), ("final", 0x0010), ("super", 0x0020),
    ("interface", 0x0200), ("abstract", 0x0400), ("synthetic", 0x1000),
    ("annotation", 0x2000), ("enum", 0x4000) ]

def methodTable : Table :=
  [ ("public", 0x0001), ("private", 0x0002), ("protected", 0x0004),
    ("static", 0x0008), ("final", 0x0010), ("synchronized", 0x0020),
    ("bridge", 0x0040), ("varargs", 0x0080), ("native", 0x0100),
    ("abstract", 0x0400), ("strict", 0x0800), ("synthetic", 0x1000) ]

def fieldTable : Table :=
  [ ("public", 0x0001), ("private", 0x0002), ("protected", 0x0004),
    ("static", 0x0008), ("final", 0x0010), ("volatile", 0x0040),
    ("transient", 0x0080), ("synthetic", 0x1000), ("enum", 0x4000) ]

/- Members that belong to the class and not to an instance. -/
def staticFlag : Flags := 0x0008

/- Methods that may have no body. -/
def bodilessFlags : Flags := 0x0100 ||| 0x0400

-- Sets of flags

/- Whether every flag of `part` is set. -/
def includes (flags part : Flags) : Bool :=
  flags &&& part == part

/- Whether some flag of `part` is set. -/
def meets (flags part : Flags) : Bool :=
  flags &&& part != 0

def ofKeyword? (table : Table) (keyword : String) : Option Flags :=
  table.lookup keyword

/- The flags of a table that are set among some bits. -/
def known (table : Table) (bits : Nat) : Flags :=
  table.foldl (fun flags entry => flags ||| (bits &&& entry.2)) 0

def keywords (table : Table) (flags : Flags) : List String :=
  (table.filter fun entry => includes flags entry.2).map Prod.fst

/- The keywords of the flags that are set, a space after each. -/
def render (table : Table) (flags : Flags) : String :=
  String.join ((keywords table flags).map (· ++ " "))

end Unboxing.Access
