import PhraseGrammar.Source.Line

/-!
# References against rules

Once every line has been read, each name that is referred to has to have a rule, each name that
has a rule has to be referred to, and the start name has to occur at all. The start name is the
one that may go without a reference.
-/

set_option autoImplicit false

namespace PhraseGrammar.Source

/-- Whether some occurrence is of the name. -/
def refersTo (occurrences : List Occurrence) (name : String) : Bool :=
  occurrences.any fun occurrence => occurrence.name = name

/-- The start name has neither a rule nor a reference. -/
def missingStart (rules : List Rule) (occurrences : List Occurrence) : List Fault :=
  if defines rules startName || refersTo occurrences startName then []
  else [.noProductionRule startName none]

/-- The occurrences of names without a rule. -/
def undefinedReferences (rules : List Rule) (occurrences : List Occurrence) : List Fault :=
  (occurrences.filter fun occurrence => !defines rules occurrence.name).map fun occurrence =>
    .noProductionRule occurrence.name (some occurrence.location)

/-- The first rule for each name, in order. -/
def firstRules : List Rule → List Rule
  | [] => []
  | rule :: rest => rule :: (firstRules rest).filter fun other => other.left ≠ rule.left

/-- The names, other than the start name, that have rules but no reference. -/
def unusedRules (rules : List Rule) (occurrences : List Occurrence) : List Fault :=
  ((firstRules rules).filter fun rule =>
    rule.left ≠ startName && !refersTo occurrences rule.left).map fun rule =>
      .ruleNeverUsed rule.left rule.lineNumber

/-- The faults that only show once every line has been read. -/
def crossCheck (rules : List Rule) (occurrences : List Occurrence) : List Fault :=
  missingStart rules occurrences ++ undefinedReferences rules occurrences
    ++ unusedRules rules occurrences

end PhraseGrammar.Source
