/-!
# Sentences

A sentence is a text together with the choices that lead to it: the numbers of the alternatives
taken, in the order in which a leftmost derivation takes them. Two derivations may give the same
text, so the choices are part of the sentence.
-/

set_option autoImplicit false

namespace PhraseGrammar

/-- A text and the choices that it was derived by. -/
structure Sentence where
  text : String
  choices : List Nat
  deriving DecidableEq

namespace Sentence

/-- The sentence without text and without choices. -/
def empty : Sentence := ⟨"", []⟩

/-- A text that takes no choice. -/
def ofText (text : String) : Sentence := ⟨text, []⟩

/-- One sentence after the other. -/
def append (first second : Sentence) : Sentence :=
  ⟨first.text ++ second.text, first.choices ++ second.choices⟩

instance : Append Sentence := ⟨append⟩

/-- What alternative `index` makes of the sentence that its right-hand side expands to. -/
def chosen (index : Nat) (sentence : Sentence) : Sentence :=
  ⟨sentence.text, index :: sentence.choices⟩

theorem append_assoc (first second third : Sentence) :
    first ++ second ++ third = first ++ (second ++ third) := by
  show Sentence.mk (first.text ++ second.text ++ third.text)
    (first.choices ++ second.choices ++ third.choices) = _
  rw [String.append_assoc, List.append_assoc]
  rfl

theorem empty_append (sentence : Sentence) : empty ++ sentence = sentence := by
  show Sentence.mk ("" ++ sentence.text) ([] ++ sentence.choices) = sentence
  rw [String.empty_append, List.nil_append]

theorem append_empty (sentence : Sentence) : sentence ++ empty = sentence := by
  show Sentence.mk (sentence.text ++ "") (sentence.choices ++ []) = sentence
  rw [String.append_empty, List.append_nil]

end Sentence

end PhraseGrammar
