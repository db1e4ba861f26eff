import Unboxing.Command

/-
  This file defines the command line of the library.
-/

namespace Unboxing

/- The result of an action on files, unless it fails. -/
def attempt {α : Type} (action : IO α) : IO (Option α) :=
  try
    return some (← action)
  catch _ =>
    return none

/- The files of the system. -/
def systemFiles : Files IO where
  read path := attempt (IO.FS.readFile path)
  makeDirectory path := attempt (IO.FS.createDirAll path)
  write path text := attempt (IO.FS.writeFile path text)

end Unboxing

open Unboxing

/- Unbox the listings that the arguments name. -/
def main (arguments : List String) : IO UInt32 := do
  let outcome ← Command.execute systemFiles arguments
  IO.print outcome.output
  IO.eprint (outcome.report.getD "")
  return outcome.exit.toUInt32
