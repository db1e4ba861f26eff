import Unboxing.Batch
import Unboxing.Listing.Parser
import Unboxing.Listing.Printer
import Unboxing.Mapping.Reader
import Unboxing.Registry.Resolution

/-
  This file defines the command that unboxes listings. It is
  given a mapping and listings by their paths, and prints the
  unboxed listings or writes them into a directory. What it
  does with files is a parameter.

  Key definitions include:
    * `Invocation.parse`
    * `Batch.unboxListings`
    * `Files`
    * `Command.execute`
-/

namespace Unboxing

-- Arguments

/-
  What the command is asked to do. Listings are independent of
  each other once it is settled what stays boxed, so the number
  of jobs to do them in says nothing about the result. Here they
  are done one after another, and there are no workers.
-/
structure Invocation where
  paths : List String := []
  output : Option String := none
  jobs : Option Nat := none
deriving DecidableEq, Repr

namespace Invocation

/- Add a path, which must not be empty. -/
def addPath (invocation : Invocation) (path : String) : Option Invocation :=
  if path.isEmpty then
    none
  else
    some { invocation with paths := invocation.paths ++ [path] }

/- Set the directory to write to, which is given at most once. -/
def setOutput (invocation : Invocation) (path : String) : Option Invocation :=
  if path.isEmpty || invocation.output.isSome then
    none
  else
    some { invocation with output := some path }

/- Set the number of jobs, which is given at most once. -/
def setJobs (invocation : Invocation) (number : List Char) : Option Invocation :=
  if invocation.jobs.isSome then
    none
  else
    (Numeral.word64? number).map fun jobs => { invocation with jobs := some jobs }

/- Whether an argument is one that names options. -/
def isOption (argument : List Char) : Bool :=
  match argument with
  | '-' :: _ :: _ => true
  | _ => false

/- The rest of an argument that starts with a text. -/
def cutStart? (start argument : List Char) : Option (List Char) :=
  if start.isPrefixOf argument then some (argument.drop start.length) else none

/- Give an option that is written with its value in one argument. -/
def setJoined? (invocation : Invocation) (argument : List Char) : Option Invocation :=
  match cutStart? "--output=".toList argument with
  | some value => invocation.setOutput (String.ofList value)
  | none =>
      match cutStart? "--jobs=".toList argument with
      | some value => invocation.setJobs value
      | none =>
          match argument with
          | '-' :: 'j' :: '=' :: value => invocation.setJobs value
          | '-' :: 'j' :: value => invocation.setJobs value
          | _ => none

/- Read the arguments that are left. Two dashes end the options. -/
def parseFrom (invocation : Invocation) : List String → Option Invocation
  | [] => some invocation
  | "--" :: paths => paths.foldlM addPath invocation
  | argument :: arguments =>
      let chars := argument.toList
      if argument == "--output" || argument == "--jobs" || argument == "-j" then
        match arguments with
        | [] => none
        | value :: arguments =>
            if isOption value.toList then
              none
            else if argument == "--output" then
              (invocation.setOutput value).bind (·.parseFrom arguments)
            else
              (invocation.setJobs value.toList).bind (·.parseFrom arguments)
      else if isOption chars then
        (invocation.setJoined? chars).bind (·.parseFrom arguments)
      else
        (invocation.addPath argument).bind (·.parseFrom arguments)

/- The mapping and the listings: at least one of each. -/
def parts? (invocation : Invocation) : Option (String × List String) :=
  match invocation.paths with
  | mapping :: listing :: listings => some (mapping, listing :: listings)
  | _ => none

def parse (arguments : List String) : Option Invocation :=
  (parseFrom {} arguments).filter (·.parts?.isSome)

end Invocation

-- Listings

/-
  Unbox listings. What stays boxed is settled over the classes
  of all of them.
-/
def Batch.unboxListings (batch : Batch)
    (listings : List (List Class)) : List (List Class) × Report :=
  let batch := batch.settle listings.flatten
  let results := listings.map batch.unboxEach
  (results.map Prod.fst, (results.map Prod.snd).foldl Report.merge .empty)

/- The settings and the registry that the text of a mapping describes. -/
def Batch.ofText (text : String) : Except MappingError Batch := do
  let mapping ← Mapping.parse text
  let settings ← Settings.ofMapping mapping
  let reg ← Registry.ofMapping mapping
  return .new reg settings

-- Execution

/- What the command does with files. Nothing is returned where it fails. -/
structure Files (m : Type → Type) where
  read : String → m (Option String)
  makeDirectory : String → m (Option Unit)
  write : String → String → m (Option Unit)

/- What the command leaves behind. -/
structure Outcome where
  exit : Nat
  output : String
  report : Option String
deriving DecidableEq, Repr

namespace Command

variable {m : Type → Type} [Monad m]

def misused : Outcome :=
  ⟨2, "", none⟩

def failed : Outcome :=
  ⟨1, "", none⟩

/- The name of a file without its directories. -/
def fileName (path : String) : String :=
  match Text.cutLast? '/' path.toList with
  | some (_, name) => String.ofList name
  | none => path

def readListing (files : Files m) (path : String) : OptionT m (List Class) := do
  let text ← OptionT.mk (files.read path)
  match Listing.parseClasses text with
  | .ok classes => return classes
  | .error _ => failure

/- Write listings into a directory, each under the name it was read by. -/
def writeListings (files : Files m) (directory : String) (paths : List String)
    (texts : List String) : OptionT m Unit :=
  (paths.zip texts).forM fun (path, text) =>
    OptionT.mk (files.write (directory ++ "/" ++ fileName path) text)

/-
  Read a mapping and listings, unbox these, and put them where they
  go. How the text of a mapping is understood is a parameter.
-/
def unbox (files : Files m) (toBatch : String → Except MappingError Batch) (mapping : String)
    (paths : List String) (output : Option String) : OptionT m Outcome := do
  let text ← OptionT.mk (files.read mapping)
  match toBatch text with
  | .error _ => failure
  | .ok batch =>
      output.forM fun directory => OptionT.mk (files.makeDirectory directory)
      let listings ← paths.mapM (readListing files)
      let (unboxed, report) := batch.unboxListings listings
      let texts := unboxed.map Listing.renderClasses
      match output with
      | some directory =>
          writeListings files directory paths texts
          return ⟨0, "", some report.render⟩
      | none => return ⟨0, String.join texts, some report.render⟩

/- Do what the arguments of the command say. -/
def execute (files : Files m) (arguments : List String) : m Outcome := do
  match Invocation.parse arguments with
  | none => return misused
  | some invocation =>
      match invocation.parts? with
      | none => return misused
      | some (mapping, paths) =>
          return (← (unbox files Batch.ofText mapping paths invocation.output).run).getD failed

end Command

end Unboxing
