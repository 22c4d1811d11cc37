import PhraseGrammar.Source.Check
import PhraseGrammar.Text.Lines

/-!
# Reading a source

A source is read line by line. A line with a fault gives no rule and no reference, and reading
goes on after it, so that one reading finds every fault.
-/

set_option autoImplicit false

namespace PhraseGrammar.Source

open PhraseGrammar.Text

/-- What a source holds: the rules of its lines in order, and its faults. The faults of single
lines come first, in the order of the lines. -/
structure Parsed where
  rules : List Rule
  faults : List Fault
  deriving DecidableEq

/-- Whether the source has no fault. -/
def Parsed.isValid (parsed : Parsed) : Bool :=
  parsed.faults.isEmpty

/-- Reads the lines that are not blank. Blank lines count in the numbering. -/
def readLines (source : List Char) : List (Except Fault RuleLine) :=
  (((lines source).zipIdx 1).filter fun entry => !entry.1.all isBlank).map fun entry =>
    readLine entry.2 entry.1

/-- The lines that hold a rule. -/
def ruleLines (source : List Char) : List RuleLine :=
  (readLines source).filterMap Except.toOption

/-- The fault that a line has, if it holds no rule. -/
def faultOf? : Except Fault RuleLine → Option Fault
  | .error fault => some fault
  | .ok _ => none

/-- The faults of single lines. -/
def lineFaults (source : List Char) : List Fault :=
  (readLines source).filterMap faultOf?

/-- Reads the text of a grammar. -/
def parse (source : String) : Parsed :=
  let ruleLines := ruleLines source.toList
  let rules := ruleLines.map RuleLine.rule
  { rules
    faults := lineFaults source.toList
      ++ crossCheck rules (ruleLines.flatMap RuleLine.occurrences) }

end PhraseGrammar.Source
