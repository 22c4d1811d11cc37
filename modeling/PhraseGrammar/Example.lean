/-!
# The example grammar

A small grammar of insults that comes with the program. It has every form that a source can
have: alternatives, bare and braced references, blank lines, and one name that refers to itself.
-/

set_option autoImplicit false

namespace PhraseGrammar

/-- The lines of the example grammar. -/
def exampleLines : List String :=
  ["$SENTENCE -> I hate you!",
    "$SENTENCE -> You smell of $SMELL.",
    "$SENTENCE -> You're as $RUDE_ADJ as $ANIMAL.",
    "$SENTENCE -> You're $\x7bRUDE_ADJ\x7der than $ANIMAL.",
    "$SENTENCE -> Your $RELATIVE was $RUDE_ADJ and $VERY $RUDE_ADJ.",
    "$SENTENCE -> Go away, you $RUDE_ADJ $NOUN!",
    "",
    "$SMELL -> elderberries",
    "$SMELL -> dogfood",
    "$SMELL -> old cheese",
    "$SMELL -> a wet $ANIMAL_NAME",
    "",
    "$RUDE_ADJ -> dumb",
    "$RUDE_ADJ -> thick",
    "$RUDE_ADJ -> weird",
    "$RUDE_ADJ -> cheap",
    "",
    "$ANIMAL -> a $ANIMAL_NAME",
    "$ANIMAL -> my pet $ANIMAL_NAME",
    "",
    "$ANIMAL_NAME -> rat",
    "$ANIMAL_NAME -> donkey",
    "$ANIMAL_NAME -> hamster",
    "$ANIMAL_NAME -> warthog",
    "",
    "$RELATIVE -> mother",
    "$RELATIVE -> father",
    "$RELATIVE -> hamster",
    "",
    "$VERY -> very",
    "$VERY -> $VERY very",
    "",
    "$NOUN -> oaf",
    "$NOUN -> nincompoop",
    "$NOUN -> numpty"]

/-- The text of the example grammar: each of its lines with a line feed. -/
def exampleSource : String :=
  String.join (exampleLines.map fun line => line ++ "\n")

end PhraseGrammar
