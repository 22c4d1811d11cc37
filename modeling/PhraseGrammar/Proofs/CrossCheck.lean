import PhraseGrammar.Proofs.Parse

/-!
# References against rules, by the source

The check that follows the reading of lines works on a list of occurrences that is kept beside the
rules. `OccurrencesIn` says what has to be in it: the references of the lines with a rule, each
where it stands in its line, in the order of the source, and in step with the symbols of the rules.
With that the faults behind those of lines are what the rules show (`crossCheck_eq_faultsShown`).
-/

set_option autoImplicit false

namespace PhraseGrammar.Source

open PhraseGrammar.Text

variable {rules : List Rule} {occurrences : List Occurrence} {name : String}

/-! ## What rules say of a name -/

/-- Some rule rewrites the name. -/
def Defined (rules : List Rule) (name : String) : Prop :=
  ∃ rule ∈ rules, rule.left = name

/-- The names that the rule refers to, from left to right. -/
def references (rule : Rule) : List String :=
  rule.right.filterMap fun
    | .terminal _ => none
    | .nonTerminal name => some name

theorem mem_references_iff {rule : Rule} {name : String} :
    name ∈ references rule ↔ .nonTerminal name ∈ rule.right := by
  rw [references, List.mem_filterMap]
  constructor
  · rintro ⟨symbol, hSymbol, hName⟩
    cases symbol with
    | terminal text => cases hName
    | nonTerminal other =>
        obtain rfl := Option.some.inj hName
        exact hSymbol
  · intro hName
    exact ⟨_, hName, rfl⟩

/-- Some rule refers to the name. -/
def Referred (rules : List Rule) (name : String) : Prop :=
  ∃ rule ∈ rules, name ∈ references rule

/-- No rule for the same name stands on an earlier line. -/
def FirstOfName (rules : List Rule) (rule : Rule) : Prop :=
  ∀ other ∈ rules, other.left = rule.left → rule.lineNumber ≤ other.lineNumber

instance (rules : List Rule) (name : String) : Decidable (Defined rules name) :=
  inferInstanceAs (Decidable (∃ rule ∈ rules, rule.left = name))

instance (rules : List Rule) (name : String) : Decidable (Referred rules name) :=
  inferInstanceAs (Decidable (∃ rule ∈ rules, name ∈ references rule))

instance (rules : List Rule) (rule : Rule) : Decidable (FirstOfName rules rule) :=
  inferInstanceAs (Decidable (∀ other ∈ rules, other.left = rule.left →
    rule.lineNumber ≤ other.lineNumber))

theorem defines_eq_decide (rules : List Rule) (name : String) :
    defines rules name = decide (Defined rules name) := by
  rw [Bool.eq_iff_iff, decide_eq_true_iff]
  simp [defines, Defined]

/-! ## Occurrences -/

/-- The place is on an earlier line than the other, or further to the left on the same line. -/
def Location.Before (first second : Location) : Prop :=
  first.lineNumber < second.lineNumber ∨
    first.lineNumber = second.lineNumber ∧ first.characterNumber < second.characterNumber

/-- The occurrences are the references behind the arrows of the lines that the rules come from. -/
structure OccurrencesIn (source : List Char) (rules : List Rule) (occurrences : List Occurrence) :
    Prop where
  /-- They stand in the order of the source. -/
  ordered : occurrences.Pairwise fun first second => first.location.Before second.location
  /-- Each is a reference of a line with a rule, at the character where it starts. -/
  mem_iff : ∀ occurrence, occurrence ∈ occurrences ↔
    ∃ line reference, (line, occurrence.location.lineNumber) ∈ filledLines source ∧
      (∃ rule ∈ rules, rule.lineNumber = occurrence.location.lineNumber) ∧
        ReferenceBehindArrow line occurrence.location.characterNumber reference ∧
          occurrence.name = String.ofList reference.name
  /-- Their names are those that the rules refer to, rule by rule. -/
  names_eq : (occurrences.map fun occurrence =>
      (occurrence.name, occurrence.location.lineNumber)) =
    rules.flatMap fun rule => (references rule).map fun name => (name, rule.lineNumber)

theorem refersTo_eq_decide {source : List Char} (h : OccurrencesIn source rules occurrences)
    (name : String) : refersTo occurrences name = decide (Referred rules name) := by
  have hNames : occurrences.map Occurrence.name = rules.flatMap references := by
    have hFirst := congrArg (List.map Prod.fst) h.names_eq
    rw [List.map_map, List.map_flatMap] at hFirst
    simpa [Function.comp_def] using hFirst
  have hName : refersTo occurrences name = true ↔ name ∈ occurrences.map Occurrence.name := by
    simp [refersTo]
  rw [Bool.eq_iff_iff, decide_eq_true_iff, hName, hNames, List.mem_flatMap, Referred]

theorem mem_occurrences_iff {ruleLine : RuleLine} {occurrence : Occurrence} :
    occurrence ∈ ruleLine.occurrences ↔
      occurrence.location.lineNumber = ruleLine.lineNumber ∧
        ∃ reference, .reference occurrence.location.characterNumber reference ∈ ruleLine.pieces ∧
          occurrence.name = String.ofList reference.name := by
  rw [RuleLine.occurrences, List.mem_filterMap]
  constructor
  · rintro ⟨piece, hPiece, hOccurrence⟩
    cases piece with
    | text chars => cases hOccurrence
    | reference number r =>
        obtain rfl := Option.some.inj hOccurrence
        exact ⟨rfl, r, hPiece, rfl⟩
  · rintro ⟨hLine, reference, hPiece, hName⟩
    obtain ⟨_, ⟨lineNumber, characterNumber⟩⟩ := occurrence
    obtain rfl : lineNumber = ruleLine.lineNumber := hLine
    obtain rfl : _ = String.ofList reference.name := hName
    exact ⟨_, hPiece, rfl⟩

theorem map_characterNumber_occurrences (ruleLine : RuleLine) :
    ruleLine.occurrences.map (fun occurrence => occurrence.location.characterNumber) =
      ruleLine.pieces.filterMap Piece.number? := by
  rw [RuleLine.occurrences, List.map_filterMap]
  refine List.filterMap_congr fun piece _ => ?_
  cases piece with
  | text chars => rfl
  | reference number r => rfl

theorem map_names_occurrences (ruleLine : RuleLine) :
    (ruleLine.occurrences.map fun occurrence =>
        (occurrence.name, occurrence.location.lineNumber)) =
      (references ruleLine.rule).map fun name => (name, ruleLine.rule.lineNumber) := by
  rw [RuleLine.occurrences, RuleLine.rule, references, List.filterMap_map, List.map_filterMap,
    List.map_filterMap]
  refine List.filterMap_congr fun piece _ => ?_
  cases piece with
  | text chars => rfl
  | reference number r => rfl

/-- The occurrences of a line stand from left to right. -/
theorem pairwise_occurrences {line : List Char} {number : Nat} {ruleLine : RuleLine}
    (h : readLine number line = .ok ruleLine) :
    ruleLine.occurrences.Pairwise fun first second => first.location.Before second.location := by
  obtain ⟨-, front, lead, body, trail, -, hLayout⟩ := readLine_layout h
  have hNumbers := hLayout.numbered.pairwise
  rw [← map_characterNumber_occurrences, List.pairwise_map] at hNumbers
  refine hNumbers.imp_of_mem fun hFirst hSecond hLess => Or.inr ⟨?_, hLess⟩
  rw [(mem_occurrences_iff.mp hFirst).1, (mem_occurrences_iff.mp hSecond).1]

/-- **The occurrences that are kept while reading are those of the source.** -/
theorem occurrencesIn_parse (source : String) :
    OccurrencesIn source.toList (parse source).rules
      ((ruleLines source.toList).flatMap RuleLine.occurrences) where
  ordered := by
    refine List.pairwise_flatMap.mpr ⟨fun ruleLine hRuleLine => ?_, ?_⟩
    · obtain ⟨line, -, hOk⟩ := mem_ruleLines_iff.mp hRuleLine
      exact pairwise_occurrences hOk
    · refine (pairwise_ruleLines source.toList).imp fun hLess first hFirst second hSecond => ?_
      left
      rwa [(mem_occurrences_iff.mp hFirst).1, (mem_occurrences_iff.mp hSecond).1]
  mem_iff := by
    intro occurrence
    rw [List.mem_flatMap]
    constructor
    · rintro ⟨ruleLine, hRuleLine, hOccurrence⟩
      obtain ⟨line, hLine, hOk⟩ := mem_ruleLines_iff.mp hRuleLine
      obtain ⟨hNumber, reference, hPiece, hName⟩ := mem_occurrences_iff.mp hOccurrence
      refine ⟨line, reference, ?_, ⟨ruleLine.rule, List.mem_map_of_mem hRuleLine, hNumber.symm⟩,
        (reference_mem_pieces_iff hOk).mp hPiece, hName⟩
      rwa [hNumber]
    · rintro ⟨line, reference, hLine, ⟨rule, hRule, hNumber⟩, hReference, hName⟩
      obtain ⟨ruleLine, hRuleLine, rfl⟩ := List.mem_map.mp hRule
      obtain ⟨other, hOther, hOk⟩ := mem_ruleLines_iff.mp hRuleLine
      have hNumber : ruleLine.lineNumber = occurrence.location.lineNumber := hNumber
      rw [hNumber] at hOther
      -- the rule was read from the line that the reference stands on
      obtain rfl := eq_of_mem_filledLines hOther hLine
      exact ⟨ruleLine, hRuleLine, mem_occurrences_iff.mpr
        ⟨hNumber.symm, reference, (reference_mem_pieces_iff hOk).mpr hReference, hName⟩⟩
  names_eq := by
    rw [List.map_flatMap, parse, List.flatMap_map]
    exact List.flatMap_congr fun ruleLine _ => map_names_occurrences ruleLine

/-! ## First rules -/

theorem firstOfName_cons_iff {rule other : Rule} (h : rule.lineNumber < other.lineNumber) :
    FirstOfName (rule :: rules) other ↔ other.left ≠ rule.left ∧ FirstOfName rules other := by
  rw [FirstOfName, List.forall_mem_cons]
  refine and_congr_left fun _ => ?_
  constructor
  · intro hFirst hSame
    have hLe := hFirst hSame.symm
    omega
  · intro hOther hSame
    exact absurd hSame.symm hOther

/-- With one rule a line, in the order of the lines, the first rule for each name is the one on the
first line for it. -/
theorem firstRules_eq_filter (h : rules.Pairwise fun first second =>
    first.lineNumber < second.lineNumber) :
    firstRules rules = rules.filter fun rule => FirstOfName rules rule := by
  induction rules with
  | nil => rfl
  | cons rule rest ih =>
      obtain ⟨hLater, hRest⟩ := List.pairwise_cons.mp h
      -- the head stands before all others, so of its name only the head is left
      have hFirst : FirstOfName (rule :: rest) rule := by
        refine List.forall_mem_cons.mpr ⟨fun _ => le_rfl, fun other hOther _ => ?_⟩
        exact (hLater other hOther).le
      rw [firstRules, List.filter_cons_of_pos (by simpa using hFirst), ih hRest,
        List.filter_filter]
      congr 1
      refine List.filter_congr fun other hOther => ?_
      rw [Bool.eq_iff_iff]
      simp [firstOfName_cons_iff (hLater other hOther)]

/-! ## What the check finds -/

/-- The faults that the rules show: a start name without a rule and without a reference, each
occurrence of a name without a rule, and the first rule of each name without a reference. -/
def faultsShown (rules : List Rule) (occurrences : List Occurrence) : List Fault :=
  (if Defined rules startName ∨ Referred rules startName then []
    else [.noProductionRule startName none]) ++
  (occurrences.filter fun occurrence => ¬ Defined rules occurrence.name).map
    (fun occurrence => .noProductionRule occurrence.name (some occurrence.location)) ++
  (rules.filter fun rule =>
      rule.left ≠ startName ∧ ¬ Referred rules rule.left ∧ FirstOfName rules rule).map
    (fun rule => .ruleNeverUsed rule.left rule.lineNumber)

/-- The check finds what the rules show, if its occurrences are those of the source. -/
theorem crossCheck_eq_faultsShown {source : List Char}
    (h : OccurrencesIn source rules occurrences)
    (hLines : rules.Pairwise fun first second => first.lineNumber < second.lineNumber) :
    crossCheck rules occurrences = faultsShown rules occurrences := by
  have hStart : missingStart rules occurrences =
      if Defined rules startName ∨ Referred rules startName then []
        else [.noProductionRule startName none] := by
    simp [missingStart, defines_eq_decide, refersTo_eq_decide h]
  have hUndefined : undefinedReferences rules occurrences =
      (occurrences.filter fun occurrence => ¬ Defined rules occurrence.name).map
        fun occurrence => .noProductionRule occurrence.name (some occurrence.location) := by
    simp [undefinedReferences, defines_eq_decide]
  have hUnused : unusedRules rules occurrences =
      (rules.filter fun rule =>
          rule.left ≠ startName ∧ ¬ Referred rules rule.left ∧ FirstOfName rules rule).map
        fun rule => .ruleNeverUsed rule.left rule.lineNumber := by
    rw [unusedRules, firstRules_eq_filter hLines, List.filter_filter]
    congr 1
    refine List.filter_congr fun rule _ => ?_
    rw [Bool.eq_iff_iff]
    simp [refersTo_eq_decide h, and_assoc]
  rw [crossCheck, hStart, hUndefined, hUnused, faultsShown]

/-- A line with a fault has no rule. -/
theorem lineNumber_ne_of_mem_syntacticFaults {source : String} {fault : Fault} {rule : Rule}
    {number : Nat} (hFault : fault ∈ (parse source).syntacticFaults)
    (hLine : fault.line? = some number) (hRule : rule ∈ (parse source).rules) :
    rule.lineNumber ≠ number := by
  rintro rfl
  obtain ⟨ruleLine, hRuleLine, rfl⟩ := List.mem_map.mp hRule
  obtain ⟨line, hFilled, hOk⟩ := mem_ruleLines_iff.mp hRuleLine
  have hVerdict := (mem_syntacticFaults_iff hFilled).mp ⟨hFault, hLine⟩
  rw [← readLine_eq_error_iff, hOk] at hVerdict
  cases hVerdict

/-- **The faults behind those of lines are the ones that the rules show**, with the occurrences in
the source. A line with a fault has neither a rule nor an occurrence. -/
theorem faults_parse_eq_faultsShown (source : String) :
    ∃ occurrences, OccurrencesIn source.toList (parse source).rules occurrences ∧
      (parse source).faults =
        (parse source).syntacticFaults ++ faultsShown (parse source).rules occurrences ∧
      ∀ fault ∈ (parse source).syntacticFaults, ∀ number, fault.line? = some number →
        (∀ rule ∈ (parse source).rules, rule.lineNumber ≠ number) ∧
          ∀ occurrence ∈ occurrences, occurrence.location.lineNumber ≠ number := by
  have hOccurrences := occurrencesIn_parse source
  have hLines : (parse source).rules.Pairwise fun first second =>
      first.lineNumber < second.lineNumber :=
    List.pairwise_map.mpr (pairwise_ruleLines source.toList)
  refine ⟨_, hOccurrences, ?_, fun fault hFault number hNumber => ⟨fun rule hRule => ?_, ?_⟩⟩
  · rw [faults_parse, syntacticFaults_parse, crossCheck_eq_faultsShown hOccurrences hLines]
  · exact lineNumber_ne_of_mem_syntacticFaults hFault hNumber hRule
  · intro occurrence hOccurrence
    -- an occurrence stands on the line of a rule
    obtain ⟨_, _, -, ⟨rule, hRule, hSame⟩, -⟩ := (hOccurrences.mem_iff occurrence).mp hOccurrence
    rw [← hSame]
    exact lineNumber_ne_of_mem_syntacticFaults hFault hNumber hRule

/-- Two occurrences of one name, no start name, a name that only its own rule refers to, and a
reference on a line without an arrow. -/
def looseSource : String :=
  "$A -> x $\x7bC\x7d\n$B $E\n$A -> $A $C\n$B -> $D"

theorem faults_looseSource :
    (parse looseSource).faults =
        [.missingArrow 2, .noProductionRule "SENTENCE" none,
          .noProductionRule "C" (some ⟨1, 9⟩), .noProductionRule "C" (some ⟨3, 10⟩),
          .noProductionRule "D" (some ⟨4, 7⟩), .ruleNeverUsed "B" 4] ∧
      ∃ occurrences, OccurrencesIn looseSource.toList (parse looseSource).rules occurrences ∧
        (parse looseSource).faults =
          .missingArrow 2 :: faultsShown (parse looseSource).rules occurrences ∧
        ∀ occurrence ∈ occurrences, occurrence.location.lineNumber ≠ 2 := by
  obtain ⟨occurrences, hOccurrences, hFaults, hLines⟩ := faults_parse_eq_faultsShown looseSource
  have hSyntactic : (parse looseSource).syntacticFaults = [.missingArrow 2] := by
    decide +kernel
  rw [hSyntactic] at hFaults hLines
  exact ⟨by decide +kernel, occurrences, hOccurrences, hFaults,
    (hLines _ List.mem_cons_self 2 rfl).2⟩

end PhraseGrammar.Source
