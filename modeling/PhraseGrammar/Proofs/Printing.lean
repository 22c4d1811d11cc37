import PhraseGrammar.Proofs.Lines
import PhraseGrammar.Proofs.Validity
import PhraseGrammar.Proofs.WrittenRule

/-!
# Printing rules

`print` writes rules as a source, one line each. Reading the source gives the rules back with the
numbers of the new lines (`parse_print`): rules whose texts have no dollar sign, and all rules that
were read from a source.
-/

set_option autoImplicit false

namespace PhraseGrammar.Source

open PhraseGrammar.Text

variable {rules : List Rule}

/-! ## The printed source -/

/-- The rules as a source, one line each. -/
def print (rules : List Rule) : String :=
  String.ofList (rules.flatMap fun rule => writtenRule rule ++ ['\n'])

/-- The rules with the numbers of consecutive lines. -/
def renumbered (rules : List Rule) : List Rule :=
  (rules.zipIdx 1).map fun entry => { entry.1 with lineNumber := entry.2 }

theorem map_production_renumbered (rules : List Rule) :
    (renumbered rules).map production = rules.map production := by
  calc (renumbered rules).map production
      = ((rules.zipIdx 1).map Prod.fst).map production := by
        rw [renumbered, List.map_map, List.map_map]
        rfl
    _ = rules.map production := by rw [List.zipIdx_map_fst]

theorem SeparatedRule.newline_not_mem_writtenRule {rule : Rule} (h : SeparatedRule rule) :
    '\n' ∉ writtenRule rule := by
  have hName : ∀ {name : List Char}, IsName name → '\n' ∉ name :=
    fun hName hMem => absurd (hName.2 '\n' hMem) (by decide)
  have hRight : '\n' ∉ writtenRight rule.right := by
    intro hMem
    obtain ⟨symbol, hSymbol, hMem⟩ := List.mem_flatMap.mp hMem
    cases symbol with
    | terminal text => exact h.newline_not_mem text hSymbol hMem
    | nonTerminal name =>
        have hNone := hName (h.isName name hSymbol)
        simp [writtenSymbol, Reference.spelling, hNone] at hMem
  simp [writtenRule, arrow, hName h.left_isName, hRight]

/-- The last character of the line is the last one of the right-hand side, or a space. -/
theorem SeparatedRule.return_not_mem_getLast? {rule : Rule} (h : SeparatedRule rule) :
    '\r' ∉ (writtenRule rule).getLast? := by
  have hRule : writtenRule rule =
      ('$' :: (rule.left.toList ++ ' ' :: arrow)) ++ (' ' :: writtenRight rule.right) := by
    simp [writtenRule]
  have hLast := h.getLast?_writtenRight_not_blank
  rw [hRule, List.getLast?_append_of_ne_nil _ (List.cons_ne_nil _ _), List.getLast?_cons]
  intro hReturn
  have hChar := Option.some.inj hReturn
  cases hRight : (writtenRight rule.right).getLast? with
  | none =>
      rw [hRight] at hChar
      exact absurd hChar (by decide)
  | some c =>
      rw [hRight] at hChar hLast
      have hBlank := hLast c rfl
      rw [show c = '\r' from hChar] at hBlank
      exact absurd hBlank (by decide)

theorem lines_print (h : ∀ rule ∈ rules, SeparatedRule rule) :
    lines (print rules).toList = rules.map writtenRule := by
  rw [print, String.toList_ofList]
  induction rules with
  | nil => rfl
  | cons rule rest ih =>
      obtain ⟨hRule, hRest⟩ := List.forall_mem_cons.mp h
      rw [List.flatMap_cons, List.append_assoc, List.singleton_append,
        lines_append_newline hRule.newline_not_mem_writtenRule hRule.return_not_mem_getLast?,
        ih hRest, List.map_cons]

theorem readLines_print (h : ∀ rule ∈ rules, SeparatedRule rule) :
    readLines (print rules).toList =
      (rules.zipIdx 1).map fun entry => readLine entry.2 (writtenRule entry.1) := by
  have hFilled : ∀ entry ∈ (rules.map writtenRule).zipIdx 1, ¬ AllBlank entry.1 := by
    intro entry hEntry hBlank
    obtain ⟨rule, -, hLine⟩ := List.mem_map.mp (List.fst_mem_of_mem_zipIdx hEntry)
    rw [← hLine] at hBlank
    exact absurd (hBlank '$' List.mem_cons_self) (by decide)
  calc readLines (print rules).toList
      = (((rules.map writtenRule).zipIdx 1).filter fun entry => ¬ AllBlank entry.1).map
          fun entry => readLine entry.2 entry.1 := by
        rw [readLines_eq_map, filledLines, numberedLines, lines_print h]
    _ = ((rules.map writtenRule).zipIdx 1).map fun entry => readLine entry.2 entry.1 := by
        rw [List.filter_eq_self.mpr (by simpa using hFilled)]
    _ = (rules.zipIdx 1).map fun entry => readLine entry.2 (writtenRule entry.1) := by
        rw [List.zipIdx_map, List.map_map]
        rfl

/-- **Canonical rules are read from the source that they are printed as.** -/
theorem parse_print_of_canonicalRule (h : ∀ rule ∈ rules, CanonicalRule rule) :
    (parse (print rules)).rules = renumbered rules ∧
      (parse (print rules)).syntacticFaults = [] := by
  have hLines := readLines_print fun rule hRule => (h rule hRule).toSeparatedRule
  have hRead : ∀ entry ∈ rules.zipIdx 1, ∃ ruleLine,
      readLine entry.2 (writtenRule entry.1) = .ok ruleLine ∧
        ruleLine.rule = { entry.1 with lineNumber := entry.2 } :=
    fun entry hEntry => readLine_writtenRule (h _ (List.fst_mem_of_mem_zipIdx hEntry)) entry.2
  constructor
  · rw [parse, ruleLines, hLines, List.filterMap_map, List.map_filterMap, renumbered,
      ← List.filterMap_eq_map]
    refine List.filterMap_congr fun entry hEntry => ?_
    obtain ⟨ruleLine, hOk, hRule⟩ := hRead entry hEntry
    simp only [Function.comp_apply, hOk, ← hRule]
    rfl
  · rw [syntacticFaults_parse, lineFaults, hLines, List.filterMap_map, List.filterMap_eq_nil_iff]
    intro entry hEntry
    obtain ⟨ruleLine, hOk, -⟩ := hRead entry hEntry
    rw [Function.comp_apply, hOk, faultOf?]

theorem canonicalRule_of_mem_parse (source : String) :
    ∀ rule ∈ (parse source).rules, CanonicalRule rule := by
  intro rule hRule
  obtain ⟨ruleLine, hRuleLine, rfl⟩ := List.mem_map.mp hRule
  obtain ⟨line, hLine, hOk⟩ := mem_ruleLines_iff.mp hRuleLine
  have hMem : line ∈ lines source.toList :=
    List.fst_mem_of_mem_zipIdx (mem_filledLines_iff.mp hLine).1
  exact canonicalRule_of_readLine_eq_ok hOk (newline_not_mem_of_mem_lines line hMem)

/-- **Reading undoes printing** for rules whose texts have no dollar sign, and for all rules that
were read. These are printed without a fault on any line, and without any fault if they were read
from a valid source. -/
theorem parse_print :
    (∀ rules, (∀ rule ∈ rules, PlainRule rule) → (parse (print rules)).rules = renumbered rules) ∧
      ∀ source,
        (parse (print (parse source).rules)).rules = renumbered (parse source).rules ∧
        (parse (print (parse source).rules)).syntacticFaults = [] ∧
        ((parse source).isValid = true →
          (parse (print (parse source).rules)).isValid = true) := by
  constructor
  · intro rules hRules
    exact (parse_print_of_canonicalRule fun rule hRule => (hRules rule hRule).canonicalRule).1
  · intro source
    obtain ⟨hRules, hFaults⟩ :=
      parse_print_of_canonicalRule (canonicalRule_of_mem_parse source)
    refine ⟨hRules, hFaults, fun hValid => ?_⟩
    obtain ⟨-, hReferenced⟩ := (isValid_parse_iff source).mp hValid
    refine (isValid_parse_iff _).mpr ⟨hFaults, ?_⟩
    -- only the numbers of the lines have changed
    rw [hRules]
    exact hReferenced.of_map_production_eq (map_production_renumbered _).symm

/-- A text between two names, one without blanks, and a rule with nothing on the right. -/
def plainRules : List Rule :=
  [⟨"SENTENCE", [.nonTerminal "A", .terminal " and ", .nonTerminal "A", .terminal "\x7d-> !"], 7⟩,
    ⟨"A", [], 7⟩]

/-- Names without braces among braces that hold no name, a carriage return inside a line and one
at its end, and a dollar sign at the end. -/
def bracedSource : String :=
  "$SENTENCE->$\x7b$A $\x7bno name\x7d \r $A\r\n\n$A -> \x7d$ "

theorem parse_print_bracedSource :
    (∀ rule ∈ plainRules, PlainRule rule) ∧
      print plainRules = "$SENTENCE -> $\x7bA\x7d and $\x7bA\x7d\x7d-> !\n$A -> \n" ∧
      (parse (print plainRules)).rules = renumbered plainRules ∧
      (parse bracedSource).isValid = true ∧
      print (parse bracedSource).rules =
        "$SENTENCE -> $\x7b$\x7bA\x7d $\x7bno name\x7d \r $\x7bA\x7d\n$A -> \x7d$\n" ∧
      (parse (print (parse bracedSource).rules)).rules = renumbered (parse bracedSource).rules ∧
      (parse (print (parse bracedSource).rules)).isValid = true := by
  have hPlain : ∀ rule ∈ plainRules, PlainRule rule := by
    simp only [plainRules, List.forall_mem_cons]
    refine ⟨⟨⟨?_, ?_, ?_, ?_, ?_, ?_, ?_⟩, ?_⟩, ⟨⟨?_, ?_, ?_, ?_, ?_, ?_, ?_⟩, ?_⟩, ?_⟩
    all_goals simp [IsName, Symbol.isTerminal, isNameChar, isBlank, blankRanges]
  have hValid : (parse bracedSource).isValid = true := by decide +kernel
  obtain ⟨hPrinted, hParsed⟩ := parse_print
  obtain ⟨hRules, -, hStillValid⟩ := hParsed bracedSource
  exact ⟨hPlain, by decide +kernel, hPrinted plainRules hPlain, hValid, by decide +kernel, hRules,
    hStillValid hValid⟩

end PhraseGrammar.Source
