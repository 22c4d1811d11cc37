import PhraseGrammar.Json.Value
import PhraseGrammar.Rule
import PhraseGrammar.Sentence
import PhraseGrammar.Source.Parse

/-!
# JSON forms of the grammar's types

A symbol is an object with a type and a value; rules, sentences, faults and what a source holds
are objects with a field for each part.

Reading is wider than writing. Fields may come in any order, and fields of other names are
ignored; but a field that is needed has to be there exactly once, and each key of the object has
to denote a text. An array of the parts in their order stands for the object. Numbers are those
that 64 bits hold.
-/

set_option autoImplicit false

namespace PhraseGrammar

open PhraseGrammar.Source

namespace Json.Value

/-- The value of a text. -/
def ofText (content : String) : Value := string (.text content)

/-- The object with these fields. -/
def ofFields (fields : List (String × Value)) : Value :=
  object (fields.map fun field => (.text field.1, field.2))

/-- The text that the value is. -/
def text? : Value → Option String
  | string (.text content) => some content
  | _ => none

/-- The number that the value is, if it is below `2 ^ 64`. -/
def word? : Value → Option Nat
  | natural n => if n < 18446744073709551616 then some n else none
  | _ => none

/-- The list that the value is, given how to read its items. -/
def list? {α : Type} (item? : Value → Option α) : Value → Option (List α)
  | array items => items.mapM item?
  | _ => none

/-- A field with its key as a text. -/
def textKey? (field : Literal × Value) : Option (String × Value) :=
  match field.1 with
  | .text key => some (key, field.2)
  | .unpaired _ => none

/-- The value of the one field of this name. -/
def field? (name : String) (fields : List (String × Value)) : Option Value :=
  match fields.filter fun field => field.1 = name with
  | [field] => some field.2
  | _ => none

/-- The values of an object's fields in the order of these names. -/
def fields? (names : List String) : Value → Option (List Value)
  | object fields => (fields.mapM textKey?).bind fun fields => names.mapM fun name =>
      field? name fields
  | _ => none

/-- The parts of a record: the fields of an object in the order of their names, or the items of
an array with as many. -/
def parts? (names : List String) : Value → Option (List Value)
  | array items => if items.length = names.length then some items else none
  | value => value.fields? names

/-- The name that a field's value is as a tag: a text, or the one key of an object, with `null`. -/
def tag? : Value → Option String
  | string (.text name) => some name
  | object [(.text name, null)] => some name
  | _ => none

end Json.Value

open Json (Value)

/-! ## Symbols -/

/-- The JSON form of a symbol. -/
def Symbol.toJson : Symbol → Value
  | terminal text => .ofFields [("type", .ofText "terminal"), ("value", .ofText text)]
  | nonTerminal name => .ofFields [("type", .ofText "nonTerminal"), ("value", .ofText name)]

/-- The symbol with a tag and a text. -/
def Symbol.ofTag? (tag content : String) : Option Symbol :=
  if tag = "terminal" then some (terminal content)
  else if tag = "nonTerminal" then some (nonTerminal content)
  else none

/-- The symbol with a tag and a text, if there are both. -/
def Symbol.ofTagged? : Option String → Option String → Option Symbol
  | some tag, some content => Symbol.ofTag? tag content
  | _, _ => none

/-- The symbol that the value is a form of. The tag in an array is a text; only that of an object
may be an object in turn. -/
def Symbol.ofJson? : Value → Option Symbol
  | .array [tag, content] => Symbol.ofTagged? tag.text? content.text?
  | value =>
    match value.fields? ["type", "value"] with
    | some [tag, content] => Symbol.ofTagged? tag.tag? content.text?
    | _ => none

/-! ## Rules -/

/-- The JSON form of a rule. -/
def Rule.toJson (rule : Rule) : Value :=
  .ofFields [("left", .ofText rule.left), ("right", .array (rule.right.map Symbol.toJson)),
    ("lineNumber", .natural rule.lineNumber)]

/-- The rule that the value is a form of. -/
def Rule.ofJson? (value : Value) : Option Rule :=
  match value.parts? ["left", "right", "lineNumber"] with
  | some [left, right, lineNumber] =>
    match left.text?, right.list? Symbol.ofJson?, lineNumber.word? with
    | some left, some right, some lineNumber => some ⟨left, right, lineNumber⟩
    | _, _, _ => none
  | _ => none

/-- The JSON form of a list of rules. -/
def rulesToJson (rules : List Rule) : Value :=
  .array (rules.map Rule.toJson)

/-- The rules that the value is a form of. -/
def rulesOfJson? (value : Value) : Option (List Rule) :=
  value.list? Rule.ofJson?

/-! ## Sentences -/

/-- The JSON form of a sentence. -/
def Sentence.toJson (sentence : Sentence) : Value :=
  .ofFields [("text", .ofText sentence.text),
    ("sequence", .array (sentence.choices.map .natural))]

/-- The sentence that the value is a form of. -/
def Sentence.ofJson? (value : Value) : Option Sentence :=
  match value.parts? ["text", "sequence"] with
  | some [text, choices] =>
    match text.text?, choices.list? Value.word? with
    | some text, some choices => some ⟨text, choices⟩
    | _, _ => none
  | _ => none

/-! ## Sources -/

namespace Source

/-- The JSON form of a place. -/
def Location.toJson (location : Location) : Value :=
  .ofFields [("lineNumber", .natural location.lineNumber),
    ("characterNumber", .natural location.characterNumber)]

/-- The fields of a fault after its type. -/
def Fault.fields : Fault → List (String × Value)
  | missingArrow line => [("lineNumber", .natural line)]
  | missingClosingBrace line brace =>
    [("lineNumber", .natural line), ("openingBraceCharacterNumber", .natural brace)]
  | invalidLeftHandSide line => [("lineNumber", .natural line)]
  | noProductionRule name location =>
    [("nonTerminal", .ofText name), ("location", (location.map Location.toJson).getD .null)]
  | ruleNeverUsed name line => [("start", .ofText name), ("lineNumber", .natural line)]

/-- The JSON form of a fault. -/
def Fault.toJson (fault : Fault) : Value :=
  .ofFields (("type", .ofText fault.kind.word) :: fault.fields)

/-- The JSON form of a list of faults. -/
def faultsToJson (faults : List Fault) : Value :=
  .array (faults.map Fault.toJson)

/-- The JSON form of what a source holds. -/
def Parsed.toJson (parsed : Parsed) : Value :=
  .ofFields [("rules", rulesToJson parsed.rules), ("errors", faultsToJson parsed.faults)]

end Source

end PhraseGrammar
