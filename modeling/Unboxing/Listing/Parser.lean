import Unboxing.Listing.Body

/-
  This file defines the reading of whole listings: classes,
  each with its fields and methods.

  Key definitions include:
    * `Listing.parseMethod`
    * `Listing.parseMembers`
    * `Listing.parseClasses`
    * `Listing.parseClass`
-/

namespace Unboxing.Listing

open Reading

-- Methods

/- The lines before the first line that says `end`, and those after it. -/
def cutEnd? : List Line → Option (List Line × List Line)
  | [] => none
  | line :: lines =>
      if line.text = "end".toList then
        some ([], lines)
      else
        (cutEnd? lines).map fun (body, rest) => (line :: body, rest)

/- A cut at `end` leaves no more lines than there were. -/
theorem cutEnd?_length {lines body rest : List Line}
    (h : cutEnd? lines = some (body, rest)) :
    rest.length ≤ lines.length := by
  induction lines generalizing body rest with
  | nil => simp [cutEnd?] at h
  | cons line lines ih =>
      simp only [cutEnd?] at h
      split at h
      · simp only [Option.some.injEq, Prod.mk.injEq] at h
        simp [← h.2]
      · simp only [Option.map_eq_some_iff, Prod.mk.injEq, Prod.exists] at h
        obtain ⟨b, r, hcut, _, rfl⟩ := h
        have := ih hcut
        simp only [List.length_cons]
        omega

/- The header of a method: its name, type and flags. -/
def parseMethodHeader (line : Nat) (words : List String) : Except Error Method :=
  match words.getLast? with
  | none => refuse line .missingSignature
  | some word => do
      let (nameWord, typeWord) ← signature line word
      let flags ← flags Access.methodTable line words.dropLast
      let type ← methodType line typeWord
      let name ← memberName line nameWord
      return ⟨name, type, flags, none⟩

/-
  The body of a method. A method that may have no body has
  none if there are no lines.
-/
def parseMethodBody (method : Method) (lines : List Line) : Except Error (Option Body) :=
  if lines.isEmpty && Access.meets method.flags Access.bodilessFlags then
    .ok none
  else do
    let body ← body (method.type.parameterCells (!method.isStatic)) lines
    return some body

/- Read a method from its header and the lines after it. -/
def parseMethod (line : Nat) (words : List String)
    (lines : List Line) : Except Error (Method × List Line) :=
  match parseMethodHeader line words with
  | .error error => .error error
  | .ok method =>
      match cutEnd? lines with
      | none => refuse line .missingMethodEnd
      | some (bodyLines, rest) =>
          match parseMethodBody method bodyLines with
          | .error error => .error error
          | .ok body => .ok ({ method with body := body }, rest)

theorem parseMethod_length {line : Nat} {words : List String} {lines rest : List Line}
    {method : Method} (h : parseMethod line words lines = .ok (method, rest)) :
    rest.length ≤ lines.length := by
  simp only [parseMethod] at h
  split at h
  · cases h
  · split at h
    · cases h
    · rename_i hcut
      split at h
      · cases h
      · cases h
        exact cutEnd?_length hcut

-- Classes

def parseField (line : Nat) (words : List String) : Except Error Field :=
  match words.reverse with
  | typeWord :: nameWord :: flagWords => do
      let name ← memberName line nameWord
      let type ← fieldType line typeWord
      let flags ← flags Access.fieldTable line flagWords.reverse
      return ⟨name, type, flags⟩
  | _ => refuse line .fieldShape

/- The words of the header of a class before its superclass. -/
def cutParent (line : Nat)
    (words : List String) : Except Error (List String × Option ClassName) :=
  match words.reverse with
  | parent :: "extends" :: rest => do
      let parent ← className line parent
      pure (rest.reverse, some parent)
  | _ => pure (words, none)

/- Read the header of a class: flags, name and superclass. -/
def parseClassHeader (line : Nat) (words : List String) : Except Error Class := do
  let (words, parent) ← cutParent line words
  match words.getLast? with
  | none => refuse line .missingClassName
  | some word => do
      let name ← className line word
      let flags ← flags Access.classTable line words.dropLast
      return ⟨name, flags, parent, [], []⟩

/- Read the members of a class, whose header is at a line, up to its `end`. -/
def parseMembers (header : Nat) (cls : Class)
    (lines : List Line) : Except Error (Class × List Line) :=
  match lines with
  | [] => refuse header .missingClassEnd
  | line :: rest =>
      match line.words with
      | [] => parseMembers header cls rest
      | word :: words =>
          if word = "end" then
            .ok (cls, rest)
          else if word = "field" then
            match parseField line.number words with
            | .error error => .error error
            | .ok field =>
                parseMembers header { cls with fields := cls.fields ++ [field] } rest
          else if word = "method" then
            match h : parseMethod line.number words rest with
            | .error error => .error error
            | .ok (method, rest') =>
                have : rest'.length ≤ rest.length := parseMethod_length h
                parseMembers header
                  { cls with methods := cls.methods ++ [method] } rest'
          else
            refuse line.number (.unexpectedMember word)
termination_by lines.length

theorem parseMembers_length {header : Nat} {cls cls' : Class} {lines rest : List Line}
    (h : parseMembers header cls lines = .ok (cls', rest)) :
    rest.length ≤ lines.length := by
  fun_induction parseMembers header cls lines with
  | case1 => cases h
  | case2 cls line lines hwords ih =>
      have := ih h
      simp only [List.length_cons]
      omega
  | case3 cls line lines words hwords =>
      cases h
      simp
  | case4 => cases h
  | case5 cls line lines words field hfield hwords hend ih =>
      have := ih h
      simp only [List.length_cons]
      omega
  | case6 => cases h
  | case7 cls line lines words method rest' hmethod hle hwords hend hfield ih =>
      have := ih h
      simp only [List.length_cons]
      omega
  | case8 => cases h

/- Read the classes of the lines of a listing. -/
def parseLines (lines : List Line) : Except Error (List Class) :=
  match lines with
  | [] => .ok []
  | line :: rest =>
      match line.words with
      | "class" :: words =>
          match parseClassHeader line.number words with
          | .error error => .error error
          | .ok cls =>
              match h : parseMembers line.number cls rest with
              | .error error => .error error
              | .ok (cls, rest') =>
                  have : rest'.length ≤ rest.length := parseMembers_length h
                  match parseLines rest' with
                  | .error error => .error error
                  | .ok classes => .ok (cls :: classes)
      | _ => refuse line.number .expectedClass
termination_by lines.length

def parseClasses (source : String) : Except Error (List Class) :=
  parseLines (linesOf source.toList)

/- Read a listing of exactly one class. -/
def parseClass (source : String) : Except Error Class :=
  match parseClasses source with
  | .error error => .error error
  | .ok [cls] => .ok cls
  | .ok classes => .error (.malformed 0 (.classCount classes.length))

end Unboxing.Listing
