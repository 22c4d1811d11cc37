import PhraseGrammar.Generate
import PhraseGrammar.Source.Parse
import PhraseGrammar.Text.File

/-!
# Grammars

A grammar is a list of rules with the bound that it generates under. Rules may come from
anywhere; a grammar that is loaded from a source or a file has a source without faults.
-/

set_option autoImplicit false

namespace PhraseGrammar

open PhraseGrammar.Source PhraseGrammar.Text

/-- The bound of a grammar for which none is given. -/
def defaultDepth : Nat := 10

/-- Rules, and the number of levels that they are expanded to, or `none` for no bound. -/
structure Grammar where
  rules : List Rule
  bound : Option Nat := some defaultDepth
  deriving DecidableEq

/-- Why a grammar was not loaded. -/
inductive LoadError where
  | unreadable (problem : FileProblem)
  | invalidGrammar (faults : List Fault)
  deriving DecidableEq

/-- The failure in words. Of several faults the first one is told. -/
def LoadError.message : LoadError → String
  | unreadable problem => "IO error: " ++ problem.message
  | invalidGrammar faults =>
    "Invalid grammar: " ++ toString faults.length ++ " error(s), first: "
      ++ (faults.head?.map Fault.message).getD "none"

namespace Grammar

/-- The grammar of a source without faults. -/
def ofSource (source : String) : Except LoadError Grammar :=
  let parsed := parse source
  if parsed.isValid then .ok { rules := parsed.rules } else .error (.invalidGrammar parsed.faults)

/-- The grammar of a file, given what reading the file came to. -/
def ofFile : Except FileProblem String → Except LoadError Grammar
  | .ok source => ofSource source
  | .error problem => .error (.unreadable problem)

/-- Whether some rule rewrites the name. -/
def hasNonTerminal (grammar : Grammar) (name : String) : Bool :=
  defines grammar.rules name

/-- Every sentence within the grammar's bound. -/
def generateAll (grammar : Grammar) : List Sentence :=
  PhraseGrammar.generateAll grammar.rules grammar.bound

/-- One sentence by the selector's replies. -/
def generateWith {σ : Type} (grammar : Grammar) (select : Selector σ) (state : σ) :
    Run σ (Except GenerateError Sentence) :=
  PhraseGrammar.generateWith select grammar.rules grammar.bound state

end Grammar

end PhraseGrammar
