import PhraseGrammar.Proofs.Lines
import PhraseGrammar.Proofs.Validity

/-!
# One source behind another

A source that ends at the end of a line can be followed by another one without either having an
effect on the other: the lines of both are read as they were, only with higher numbers in the
second source (`readLines_append`). What refers to rules across both sources can only gain: rules
of two valid sources are well referenced together (`WellReferenced.append`).
-/

set_option autoImplicit false

namespace PhraseGrammar

/-- The rule, so many lines further down. -/
def Rule.addLines (count : Nat) (rule : Rule) : Rule :=
  { rule with lineNumber := rule.lineNumber + count }

namespace Source

open PhraseGrammar.Text

variable {first second : List Char} {rules others : List Rule} {name : String}

/-- The fault, so many lines further down, at the same character. -/
def Fault.addLines (count : Nat) : Fault → Fault
  | .missingArrow line => .missingArrow (line + count)
  | .missingClosingBrace line brace => .missingClosingBrace (line + count) brace
  | .invalidLeftHandSide line => .invalidLeftHandSide (line + count)
  | .noProductionRule name location =>
    .noProductionRule name (location.map fun place =>
      { place with lineNumber := place.lineNumber + count })
  | .ruleNeverUsed name line => .ruleNeverUsed name (line + count)

/-- The line with a rule, so many lines further down. -/
def RuleLine.addLines (count : Nat) (line : RuleLine) : RuleLine :=
  { line with lineNumber := line.lineNumber + count }

/-- What a line comes to, so many lines further down. -/
def resultAddLines (count : Nat) : Except Fault RuleLine → Except Fault RuleLine :=
  changeResult (Fault.addLines count) (RuleLine.addLines count)

/-! ## Reading further down -/

/-- What is read of a line does not depend on its number. -/
theorem readLine_add (number count : Nat) (line : List Char) :
    readLine (number + count) line = resultAddLines count (readLine number line) := by
  rw [readLine, readLine]
  cases leftHandSide? line with
  | none => rfl
  | some head =>
      obtain ⟨left, rest⟩ := head
      cases hBody : afterArrow? rest with
      | none => simp only [hBody, resultAddLines, changeResult, Fault.addLines]
      | some body =>
          cases hBrace : unclosedBrace? (line.length - body.length) body with
          | none => simp only [hBody, hBrace, resultAddLines, changeResult, RuleLine.addLines]
          | some brace => simp only [hBody, hBrace, resultAddLines, changeResult, Fault.addLines]

/-- The results for a text of so many lines are followed by those for the other text, so many lines
further down. -/
theorem readLines_append (h : EndsLine first) :
    readLines (first ++ second) =
      readLines first ++ (readLines second).map (resultAddLines (lines first).length) := by
  have hNumbers : (lines second).zipIdx (1 + (lines first).length) =
      ((lines second).zipIdx 1).map (Prod.map id (· + (lines first).length)) := by
    rw [List.map_snd_add_zipIdx_eq_zipIdx, Nat.add_comm]
  rw [readLines, readLines, readLines, lines_append h, List.zipIdx_append, List.filter_append,
    List.map_append, hNumbers, List.filter_map, List.map_map, List.map_map]
  congr 1
  refine List.map_congr_left fun entry _ => ?_
  exact readLine_add entry.2 (lines first).length entry.1

theorem ruleLines_append (h : EndsLine first) :
    ruleLines (first ++ second) =
      ruleLines first ++ (ruleLines second).map (RuleLine.addLines (lines first).length) := by
  rw [ruleLines, ruleLines, ruleLines, readLines_append h, List.filterMap_append]
  exact congrArg _ (filterMap_map_results (toOption_changeResult _ _) _)

theorem lineFaults_append (h : EndsLine first) :
    lineFaults (first ++ second) =
      lineFaults first ++ (lineFaults second).map (Fault.addLines (lines first).length) := by
  rw [lineFaults, lineFaults, lineFaults, readLines_append h, List.filterMap_append]
  exact congrArg _ (filterMap_map_results (faultOf?_changeResult _ _) _)

/-! ## Rules of two sources -/

theorem defined_append_iff :
    Defined (rules ++ others) name ↔ Defined rules name ∨ Defined others name := by
  simp [Defined, or_and_right, exists_or]

theorem referred_append_iff :
    Referred (rules ++ others) name ↔ Referred rules name ∨ Referred others name := by
  simp [Referred, or_and_right, exists_or]

/-- Rules that are well referenced are so together. -/
theorem WellReferenced.append (h : WellReferenced rules) (hOthers : WellReferenced others) :
    WellReferenced (rules ++ others) where
  start_defined := defined_append_iff.mpr (Or.inl h.start_defined)
  defined_of_referred := by
    intro name hName
    rw [referred_append_iff] at hName
    rw [defined_append_iff]
    exact hName.imp (h.defined_of_referred name) (hOthers.defined_of_referred name)
  referred_of_defined := by
    intro name hName
    rw [referred_append_iff]
    rcases defined_append_iff.mp hName with hFirst | hSecond
    · exact (h.referred_of_defined name hFirst).imp_right Or.inl
    · exact (hOthers.referred_of_defined name hSecond).imp_right Or.inr

theorem map_production_addLines (count : Nat) (rules : List Rule) :
    (rules.map (Rule.addLines count)).map production = rules.map production := by
  rw [List.map_map]
  rfl

/-! ## Both sources -/

theorem rules_parse_append {first second : String} (h : EndsLine first.toList) :
    (parse (first ++ second)).rules = (parse first).rules ++
      (parse second).rules.map (Rule.addLines (lines first.toList).length) := by
  rw [parse, parse, parse, String.toList_append, ruleLines_append h, List.map_append, List.map_map,
    List.map_map]
  rfl

theorem syntacticFaults_parse_append {first second : String} (h : EndsLine first.toList) :
    (parse (first ++ second)).syntacticFaults = (parse first).syntacticFaults ++
      (parse second).syntacticFaults.map (Fault.addLines (lines first.toList).length) := by
  rw [syntacticFaults_parse, syntacticFaults_parse, syntacticFaults_parse, String.toList_append,
    lineFaults_append h]

/-- **Reading is local to lines.** Behind a source that ends its last line, another source has the
rules and the faults of lines that it has alone, with the number of lines in front of it added to
each line number. Two valid sources are valid one behind the other. -/
theorem parse_append (first second : String) (h : EndsLine first.toList) :
    (parse (first ++ second)).rules = (parse first).rules ++
        (parse second).rules.map (Rule.addLines (lines first.toList).length) ∧
      (parse (first ++ second)).syntacticFaults = (parse first).syntacticFaults ++
        (parse second).syntacticFaults.map (Fault.addLines (lines first.toList).length) ∧
      ((parse first).isValid = true → (parse second).isValid = true →
        (parse (first ++ second)).isValid = true) := by
  refine ⟨rules_parse_append h, syntacticFaults_parse_append h, fun hFirst hSecond => ?_⟩
  obtain ⟨hFirstFaults, hFirstRules⟩ := (isValid_parse_iff first).mp hFirst
  obtain ⟨hSecondFaults, hSecondRules⟩ := (isValid_parse_iff second).mp hSecond
  rw [isValid_parse_iff, rules_parse_append h, syntacticFaults_parse_append h, hFirstFaults,
    hSecondFaults]
  refine ⟨rfl, hFirstRules.append ?_⟩
  -- only the line numbers of the second source have changed
  exact hSecondRules.of_map_production_eq (map_production_addLines _ _).symm

/-- A rule, a blank line, and a brace that is not closed. -/
def brokenSource : String :=
  "$SENTENCE -> $A\r\n \r\n$B -> $\x7b\n"

/-- A blank line, a line without a dollar sign, a rule, and a brace that is not closed. -/
def brokenRest : String :=
  "\nA\n $A -> $B\n$C -> $\x7b$D"

/-- A valid source that ends its last line. -/
def validSource : String :=
  "$SENTENCE -> $A\n$A -> a\n"

/-- A valid source in which the name of another one has another rule. -/
def validRest : String :=
  "$SENTENCE -> $B\r\n\n$B -> $A$B\n $A ->"

theorem parse_append_brokenSource :
    EndsLine brokenSource.toList ∧ (lines brokenSource.toList).length = 3 ∧
      (parse (brokenSource ++ brokenRest)).rules =
        [⟨"SENTENCE", [.nonTerminal "A"], 1⟩, ⟨"A", [.nonTerminal "B"], 6⟩] ∧
      (parse (brokenSource ++ brokenRest)).syntacticFaults =
        [.missingClosingBrace 3 8, .invalidLeftHandSide 5, .missingClosingBrace 7 8] ∧
      EndsLine validSource.toList ∧ (parse validSource).isValid = true ∧
      (parse validRest).isValid = true ∧ (parse (validSource ++ validRest)).isValid = true := by
  have hEnds : EndsLine brokenSource.toList := by simp [EndsLine, brokenSource]
  have hValidEnds : EndsLine validSource.toList := by simp [EndsLine, validSource]
  have hCount : (lines brokenSource.toList).length = 3 := rfl
  have hFirst : (parse brokenSource).rules = [⟨"SENTENCE", [.nonTerminal "A"], 1⟩] ∧
      (parse brokenSource).syntacticFaults = [.missingClosingBrace 3 8] := by decide +kernel
  have hRest : (parse brokenRest).rules = [⟨"A", [.nonTerminal "B"], 3⟩] ∧
      (parse brokenRest).syntacticFaults =
        [.invalidLeftHandSide 2, .missingClosingBrace 4 8] := by decide +kernel
  have hValid : (parse validSource).isValid = true := by decide +kernel
  have hValidRest : (parse validRest).isValid = true := by decide +kernel
  obtain ⟨hRules, hFaults, -⟩ := parse_append brokenSource brokenRest hEnds
  obtain ⟨-, -, hStillValid⟩ := parse_append validSource validRest hValidEnds
  rw [hCount, hFirst.1, hRest.1] at hRules
  rw [hCount, hFirst.2, hRest.2] at hFaults
  exact ⟨hEnds, hCount, hRules, hFaults, hValidEnds, hValid, hValidRest,
    hStillValid hValid hValidRest⟩

end Source

end PhraseGrammar
