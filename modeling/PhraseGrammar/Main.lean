import PhraseGrammar.Command.Report
import PhraseGrammar.Selector

/-!
# The program

Does the job that the arguments give with the files of the system, and prints the report.
-/

set_option autoImplicit false

namespace PhraseGrammar.Command

open PhraseGrammar.Text

/-- The problem that the system reports. A number may come with its sign turned round. -/
def fileProblem : IO.Error → FileProblem
  | .inappropriateType _ code _ =>
    if code = 20 || code = 0 - 20 then .notDirectory else .isDirectory
  | _ => .notFound

/-- Runs an action on a file and names its failure. -/
def attempt {α : Type} (action : IO α) : IO (Except FileProblem α) := do
  try
    return .ok (← action)
  catch failure =>
    return .error (fileProblem failure)

/-- Reads a file as text. -/
def readFile (path : String) : IO (Except FileProblem String) := do
  return (← attempt (IO.FS.readBinFile path)).bind decodeText

/-- Prints a report. -/
def Report.print (report : Report) : IO UInt32 := do
  IO.print report.output
  IO.eprint report.messages
  return UInt32.ofNat report.code

/-- Does the job with the files of the system. -/
def Job.perform : Job → IO Report
  | .done report => return report
  | .read path next => return next (← readFile path)
  | .write path text next => return next (← attempt (IO.FS.writeFile path text))

/-- A seed that differs from run to run. -/
def freshSeed : IO Nat := do
  let bytes ← IO.getRandomBytes 8
  return bytes.toList.foldl (fun seed byte => 256 * seed + byte.toNat) 0

end PhraseGrammar.Command

open PhraseGrammar PhraseGrammar.Command in
def main (arguments : List String) : IO UInt32 := do
  let seed ← freshSeed
  let report ← (job throwDice (fun given => Dice.ofSeed (given.getD seed)) arguments).perform
  report.print
