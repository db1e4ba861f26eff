import Unboxing.Text.Split

/-
  This file defines the names of members and of classes. A
  name that exists is valid: its validity is a field.
-/

namespace Unboxing

-- Faults

/- What can be wrong with a name. -/
inductive NameError where
  | emptyMember
  | illegalMember (name : String)
  | bracketedMember (name : String)
  | emptyClass
  | bracketedClass (name : String)
deriving DecidableEq, Repr

def NameError.message : NameError → String
  | .emptyMember => "Unqualified name '' is empty"
  | .illegalMember name =>
      s!"Unqualified name '{name}' contains an illegal character"
  | .bracketedMember name =>
      s!"Unqualified name '{name}' uses angle brackets outside of '<init>'/'<clinit>'"
  | .emptyClass => "Binary name '' is empty"
  | .bracketedClass name =>
      s!"Binary name '{name}' contains an angle bracket"

-- Member names

/- The fault of a text as the name of a field or method, if any. -/
def memberFault? (text : String) : Option NameError :=
  if text = "" then
    some .emptyMember
  else if text.toList.any (['.', ';', '[', '/'].contains ·) then
    some (.illegalMember text)
  else if text.toList.any (['<', '>'].contains ·)
      && text != "<init>" && text != "<clinit>" then
    some (.bracketedMember text)
  else
    none

/- The name of a field or method. -/
structure MemberName where
  text : String
  valid : memberFault? text = none
deriving DecidableEq, Repr

namespace MemberName

/- Check a text as the name of a field or method. -/
def parse (text : String) : Except NameError MemberName :=
  match h : memberFault? text with
  | none => .ok ⟨text, h⟩
  | some fault => .error fault

def init : MemberName :=
  ⟨"<init>", by decide⟩

def clinit : MemberName :=
  ⟨"<clinit>", by decide⟩

end MemberName

-- Class names

/- The fault of a text as the name of a class, if any. -/
def classFault? (text : String) : Option NameError :=
  if text = "" then
    some .emptyClass
  else if text.toList.any (['<', '>'].contains ·) then
    some (.bracketedClass text)
  else
    (Text.splitAll '/' text.toList).findSome? fun part =>
      memberFault? (String.ofList part)

/- The name of a class or interface, with `/` between its parts. -/
structure ClassName where
  text : String
  valid : classFault? text = none
deriving DecidableEq, Repr

namespace ClassName

/- Check a text as the name of a class. -/
def parse (text : String) : Except NameError ClassName :=
  match h : classFault? text with
  | none => .ok ⟨text, h⟩
  | some fault => .error fault

/- The class of all objects. -/
def object : ClassName :=
  ⟨"java/lang/Object", by decide⟩

/- Whether the name starts with the name of a package. -/
def inPackage (name : ClassName) (package : String) : Bool :=
  package.toList.isPrefixOf name.text.toList

end ClassName

end Unboxing
