import PhraseGrammar.Language

/-!
# Derivations

A derivation of a name is the number of one of its alternatives, together with a derivation of
each name on the right of that alternative. Its levels are counted in its type: what is derived
below a name has one level less, and nothing is derived within zero levels. A derivation has a
text, choices and a size, each read off the tree and not through the enumeration.

The enumeration lists exactly the sentences of derivations (`Derivation.sentence_mem_language`,
`exists_derivation_of_mem_language`).
-/

set_option autoImplicit false

namespace PhraseGrammar

/-! ## Trees -/

mutual

/-- A derivation of a name within a number of levels. -/
inductive Derivation (rules : List Rule) : Nat → String → Type where
  | expand {level : Nat} {name : String} (index : Fin (candidates rules name).length)
      (parts : Parts rules level ((candidates rules name).get index).right) :
      Derivation rules (level + 1) name

/-- A derivation of every name among some symbols, each within the same number of levels. -/
inductive Parts (rules : List Rule) : Nat → List Symbol → Type where
  | nil {level : Nat} : Parts rules level []
  | terminal {level : Nat} {rest : List Symbol} (text : String) (parts : Parts rules level rest) :
      Parts rules level (.terminal text :: rest)
  | nonTerminal {level : Nat} {name : String} {rest : List Symbol}
      (front : Derivation rules level name) (parts : Parts rules level rest) :
      Parts rules level (.nonTerminal name :: rest)

end

variable {rules : List Rule} {level : Nat} {name : String} {symbols : List Symbol}

mutual

/-- The texts of a derivation from left to right. -/
def Derivation.text {level : Nat} {name : String} : Derivation rules level name → String
  | .expand _ parts => parts.text

/-- The texts below some symbols from left to right. -/
def Parts.text {level : Nat} {symbols : List Symbol} : Parts rules level symbols → String
  | .nil => ""
  | .terminal text parts => text ++ parts.text
  | .nonTerminal front parts => front.text ++ parts.text

end

mutual

/-- The numbers of the alternatives of a derivation, a name before what is below it. -/
def Derivation.choices {level : Nat} {name : String} : Derivation rules level name → List Nat
  | .expand index parts => index :: parts.choices

/-- The numbers of the alternatives below some symbols from left to right. -/
def Parts.choices {level : Nat} {symbols : List Symbol} : Parts rules level symbols → List Nat
  | .nil => []
  | .terminal _ parts => parts.choices
  | .nonTerminal front parts => front.choices ++ parts.choices

end

mutual

/-- How many names a derivation expands. -/
def Derivation.size {level : Nat} {name : String} : Derivation rules level name → Nat
  | .expand _ parts => parts.size + 1

/-- How many names are expanded below some symbols. -/
def Parts.size {level : Nat} {symbols : List Symbol} : Parts rules level symbols → Nat
  | .nil => 0
  | .terminal _ parts => parts.size
  | .nonTerminal front parts => front.size + parts.size

end

/-- The sentence of a derivation. -/
def Derivation.sentence (derivation : Derivation rules level name) : Sentence :=
  ⟨derivation.text, derivation.choices⟩

/-- The sentence below some symbols. -/
def Parts.sentence (parts : Parts rules level symbols) : Sentence :=
  ⟨parts.text, parts.choices⟩

mutual

theorem Derivation.length_choices {level : Nat} {name : String} :
    ∀ derivation : Derivation rules level name, derivation.choices.length = derivation.size
  | .expand index parts => by
      rw [Derivation.choices, Derivation.size, List.length_cons, parts.length_choices]

theorem Parts.length_choices {level : Nat} {symbols : List Symbol} :
    ∀ parts : Parts rules level symbols, parts.choices.length = parts.size
  | .nil => rfl
  | .terminal _ parts => parts.length_choices
  | .nonTerminal front parts => by
      rw [Parts.choices, Parts.size, List.length_append, front.length_choices,
        parts.length_choices]

end

/-! ## The enumeration lists the sentences of derivations -/

mutual

/-- **Completeness.** The sentence of a derivation is listed. -/
theorem Derivation.sentence_mem_language {level : Nat} {name : String} :
    ∀ derivation : Derivation rules level name, derivation.sentence ∈ language rules level name
  | .expand index parts =>
      mem_language_succ.mpr ⟨index, parts.sentence, parts.sentence_mem_expansions, rfl⟩

theorem Parts.sentence_mem_expansions {level : Nat} {symbols : List Symbol} :
    ∀ parts : Parts rules level symbols,
      parts.sentence ∈ expansions (language rules level) symbols
  | .nil => mem_expansions_nil.mpr rfl
  | .terminal _ parts =>
      mem_expansions_terminal.mpr ⟨parts.sentence, parts.sentence_mem_expansions, rfl⟩
  | .nonTerminal front parts =>
      mem_expansions_nonTerminal.mpr ⟨front.sentence, front.sentence_mem_language,
        parts.sentence, parts.sentence_mem_expansions, rfl⟩

end

/-- A listed sentence of some symbols comes from derivations of their names, provided that the
listed sentences of the names do. -/
theorem exists_parts_of_mem_expansions
    (hNames : ∀ name, ∀ sentence ∈ language rules level name,
      ∃ derivation : Derivation rules level name, derivation.sentence = sentence)
    {sentence : Sentence} (h : sentence ∈ expansions (language rules level) symbols) :
    ∃ parts : Parts rules level symbols, parts.sentence = sentence := by
  induction symbols generalizing sentence with
  | nil => exact ⟨.nil, mem_expansions_nil.mp h⟩
  | cons symbol rest ih =>
      cases symbol with
      | terminal text =>
          obtain ⟨tail, hTail, rfl⟩ := mem_expansions_terminal.mp h
          obtain ⟨parts, rfl⟩ := ih hTail
          exact ⟨.terminal text parts, rfl⟩
      | nonTerminal name =>
          obtain ⟨front, hFront, tail, hTail, rfl⟩ := mem_expansions_nonTerminal.mp h
          obtain ⟨derivation, rfl⟩ := hNames name front hFront
          obtain ⟨parts, rfl⟩ := ih hTail
          exact ⟨.nonTerminal derivation parts, rfl⟩

/-- **Soundness.** A listed sentence comes from a derivation. -/
theorem exists_derivation_of_mem_language {sentence : Sentence}
    (h : sentence ∈ language rules level name) :
    ∃ derivation : Derivation rules level name, derivation.sentence = sentence := by
  induction level generalizing name sentence with
  | zero => cases h
  | succ level ih =>
      obtain ⟨index, tail, hTail, rfl⟩ := mem_language_succ.mp h
      have hNames : ∀ name, ∀ sentence ∈ language rules level name,
          ∃ derivation : Derivation rules level name, derivation.sentence = sentence := by
        intro name sentence hSentence
        exact ih hSentence
      obtain ⟨parts, rfl⟩ := exists_parts_of_mem_expansions hNames hTail
      exact ⟨.expand index parts, rfl⟩

theorem nonempty_derivation_iff :
    Nonempty (Derivation rules level name) ↔ language rules level name ≠ [] := by
  constructor
  · rintro ⟨derivation⟩
    exact List.ne_nil_of_mem derivation.sentence_mem_language
  · intro h
    obtain ⟨sentence, hSentence⟩ := List.exists_mem_of_ne_nil _ h
    obtain ⟨derivation, -⟩ := exists_derivation_of_mem_language hSentence
    exact ⟨derivation⟩

/-- **The enumeration is the bounded language.** A sentence is listed exactly if it has the text
and the choices of a derivation of the start name within the bound, and such a derivation has as
many choices as it expands names. -/
theorem mem_generateAll_iff (rules : List Rule) (bound : Option Nat) :
    (∀ sentence, sentence ∈ generateAll rules bound ↔
      ∃ derivation : Derivation rules (levels bound) startName,
        derivation.text = sentence.text ∧ derivation.choices = sentence.choices) ∧
    ∀ derivation : Derivation rules (levels bound) startName,
      derivation.choices.length = derivation.size := by
  constructor
  · intro sentence
    constructor
    · intro h
      obtain ⟨derivation, rfl⟩ := exists_derivation_of_mem_language h
      exact ⟨derivation, rfl, rfl⟩
    · rintro ⟨derivation, hText, hChoices⟩
      have hSentence : derivation.sentence = sentence := by
        rw [Derivation.sentence, hText, hChoices]
      rw [← hSentence]
      exact derivation.sentence_mem_language
  · intro derivation
    exact derivation.length_choices

end PhraseGrammar
