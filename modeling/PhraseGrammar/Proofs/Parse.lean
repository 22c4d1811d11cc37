import Mathlib.Data.List.Perm.Basic
import PhraseGrammar.Proofs.RightHandSide
import PhraseGrammar.Source.Parse

/-!
# From lines to a source

A source is read line by line, so what is known of one line carries over to all of them.
`LineByLine` says what this comes to: each line that is not blank has its one verdict, the rules
and the faults of single lines are these verdicts, and the numbers of the lines grow along both
lists. The symbols of each rule are the layout of the right-hand side of its line.
-/

set_option autoImplicit false

namespace PhraseGrammar.Source

open PhraseGrammar.Text

instance : DecidablePred AllBlank :=
  fun text => decidable_of_iff (text.all isBlank = true) List.all_eq_true

/-! ## Numbered lines -/

/-- The lines of a source, each with its number. Blank lines count. -/
def numberedLines (source : List Char) : List (List Char × Nat) :=
  (lines source).zipIdx 1

variable {source line other : List Char} {number : Nat}

theorem pairwise_numberedLines (source : List Char) :
    (numberedLines source).Pairwise fun first second => first.2 < second.2 := by
  have hNumbers : ((numberedLines source).map Prod.snd).Pairwise (· < ·) := by
    rw [numberedLines, List.zipIdx_map_snd]
    exact List.pairwise_lt_range'
  exact List.pairwise_map.mp hNumbers

/-- The numbered lines that are not blank. -/
def filledLines (source : List Char) : List (List Char × Nat) :=
  (numberedLines source).filter fun entry => ¬ AllBlank entry.1

theorem mem_filledLines_iff :
    (line, number) ∈ filledLines source ↔
      (line, number) ∈ numberedLines source ∧ ¬ AllBlank line := by
  simp [filledLines]

/-- A number belongs to one line. -/
theorem eq_of_mem_filledLines (h : (line, number) ∈ filledLines source)
    (hOther : (other, number) ∈ filledLines source) : line = other := by
  rw [mem_filledLines_iff, numberedLines, List.mk_mem_zipIdx_iff_le_and_getElem?_sub] at h hOther
  exact Option.some.inj (h.1.2.symm.trans hOther.1.2)

theorem readLines_eq_map (source : List Char) :
    readLines source = (filledLines source).map fun entry => readLine entry.2 entry.1 := by
  have hFilled : filledLines source =
      (numberedLines source).filter fun entry => !entry.1.all isBlank := by
    refine List.filter_congr fun entry _ => ?_
    have hAll : AllBlank entry.1 ↔ entry.1.all isBlank = true := List.all_eq_true.symm
    rw [Bool.eq_iff_iff]
    simp only [decide_eq_true_eq, Bool.not_eq_true', hAll, Bool.not_eq_true]
  rw [readLines, hFilled, numberedLines]

/-! ## The faults of single lines and the others -/

/-- The faults that are seen on one line. -/
def Parsed.syntacticFaults (parsed : Parsed) : List Fault :=
  parsed.faults.filter fun fault => fault.kind.isSyntactic

/-- The faults that only show once every line has been read. -/
def Parsed.crossFaults (parsed : Parsed) : List Fault :=
  parsed.faults.filter fun fault => !fault.kind.isSyntactic

/-- The verdict of a fault is about one line, and tells its number. -/
theorem Verdict.syntactic {fault : Fault} (h : Verdict number line (.error fault)) :
    fault.kind.isSyntactic = true ∧ fault.line? = some number := by
  cases h with
  | invalidLeftHandSide hName => exact ⟨rfl, rfl⟩
  | missingArrow hHead hArrow => exact ⟨rfl, rfl⟩
  | missingClosingBrace hHead hBrace hNumber => exact ⟨rfl, rfl⟩

theorem readLine_eq_error_iff {fault : Fault} :
    readLine number line = .error fault ↔ Verdict number line (.error fault) := by
  rw [verdict_iff]
  cases readLine number line with
  | error other => simp [Except.map]
  | ok ruleLine => exact iff_of_false (fun h => by cases h) (fun h => by cases h)

theorem toOption_eq_some_iff {result : Except Fault RuleLine} {ruleLine : RuleLine} :
    result.toOption = some ruleLine ↔ result = .ok ruleLine := by
  cases result with
  | error fault => simp [Except.toOption]
  | ok found => simp [Except.toOption]

theorem faultOf?_eq_some_iff {result : Except Fault RuleLine} {fault : Fault} :
    faultOf? result = some fault ↔ result = .error fault := by
  cases result with
  | error found => simp [faultOf?]
  | ok ruleLine => simp [faultOf?]

theorem mem_lineFaults_iff {fault : Fault} :
    fault ∈ lineFaults source ↔
      ∃ line number, (line, number) ∈ filledLines source ∧
        Verdict number line (.error fault) := by
  simp only [lineFaults, readLines_eq_map, List.mem_filterMap, List.mem_map,
    faultOf?_eq_some_iff, ← readLine_eq_error_iff]
  constructor
  · rintro ⟨_, ⟨⟨line, number⟩, hEntry, rfl⟩, hError⟩
    exact ⟨line, number, hEntry, hError⟩
  · rintro ⟨line, number, hEntry, hError⟩
    exact ⟨_, ⟨(line, number), hEntry, rfl⟩, hError⟩

theorem mem_ruleLines_iff {ruleLine : RuleLine} :
    ruleLine ∈ ruleLines source ↔
      ∃ line, (line, ruleLine.lineNumber) ∈ filledLines source ∧
        readLine ruleLine.lineNumber line = .ok ruleLine := by
  simp only [ruleLines, readLines_eq_map, List.mem_filterMap, List.mem_map]
  constructor
  · rintro ⟨_, ⟨⟨line, number⟩, hEntry, rfl⟩, hRule⟩
    have hOk := toOption_eq_some_iff.mp hRule
    rw [(readLine_layout hOk).1]
    exact ⟨line, hEntry, hOk⟩
  · rintro ⟨line, hEntry, hOk⟩
    exact ⟨_, ⟨(line, ruleLine.lineNumber), hEntry, rfl⟩, toOption_eq_some_iff.mpr hOk⟩

theorem isSyntactic_eq_false_of_mem_crossCheck {rules : List Rule}
    {occurrences : List Occurrence} {fault : Fault} (h : fault ∈ crossCheck rules occurrences) :
    fault.kind.isSyntactic = false := by
  rw [crossCheck, List.mem_append, List.mem_append] at h
  rcases h with (hStart | hUndefined) | hUnused
  · rw [missingStart] at hStart
    split at hStart
    · cases hStart
    · obtain rfl := List.mem_singleton.mp hStart
      rfl
  · obtain ⟨occurrence, -, rfl⟩ := List.mem_map.mp hUndefined
    rfl
  · obtain ⟨rule, -, rfl⟩ := List.mem_map.mp hUnused
    rfl

theorem faults_parse (source : String) :
    (parse source).faults = lineFaults source.toList ++
      crossCheck (parse source).rules
        ((ruleLines source.toList).flatMap RuleLine.occurrences) := rfl

theorem syntacticFaults_parse (source : String) :
    (parse source).syntacticFaults = lineFaults source.toList := by
  have hLines : ∀ fault ∈ lineFaults source.toList, fault.kind.isSyntactic = true := by
    intro fault hFault
    obtain ⟨line, number, -, hVerdict⟩ := mem_lineFaults_iff.mp hFault
    exact hVerdict.syntactic.1
  rw [Parsed.syntacticFaults, faults_parse, List.filter_append, List.filter_eq_self.mpr hLines,
    List.filter_eq_nil_iff.mpr, List.append_nil]
  intro fault hFault hSyntactic
  rw [isSyntactic_eq_false_of_mem_crossCheck hFault] at hSyntactic
  cases hSyntactic

theorem crossFaults_parse (source : String) :
    (parse source).crossFaults = crossCheck (parse source).rules
      ((ruleLines source.toList).flatMap RuleLine.occurrences) := by
  have hCross : ∀ fault ∈ crossCheck (parse source).rules
      ((ruleLines source.toList).flatMap RuleLine.occurrences),
        (!fault.kind.isSyntactic) = true := by
    intro fault hFault
    rw [isSyntactic_eq_false_of_mem_crossCheck hFault]
    rfl
  rw [Parsed.crossFaults, faults_parse, List.filter_append, List.filter_eq_self.mpr hCross,
    List.filter_eq_nil_iff.mpr, List.nil_append]
  intro fault hFault
  obtain ⟨line, number, -, hVerdict⟩ := mem_lineFaults_iff.mp hFault
  rw [hVerdict.syntactic.1]
  decide

/-! ## Results that are changed -/

/-- What a line comes to, with its fault or its rule changed. -/
def changeResult (onFault : Fault → Fault) (onLine : RuleLine → RuleLine) :
    Except Fault RuleLine → Except Fault RuleLine
  | .error fault => .error (onFault fault)
  | .ok ruleLine => .ok (onLine ruleLine)

theorem toOption_changeResult (onFault : Fault → Fault) (onLine : RuleLine → RuleLine)
    (result : Except Fault RuleLine) :
    (changeResult onFault onLine result).toOption = result.toOption.map onLine := by
  cases result with
  | error fault => rfl
  | ok ruleLine => rfl

theorem faultOf?_changeResult (onFault : Fault → Fault) (onLine : RuleLine → RuleLine)
    (result : Except Fault RuleLine) :
    faultOf? (changeResult onFault onLine result) = (faultOf? result).map onFault := by
  cases result with
  | error fault => rfl
  | ok ruleLine => rfl

/-- What is picked from changed results is what is picked from the results, changed in the same
way. -/
theorem filterMap_map_results {α : Type} {pick : Except Fault RuleLine → Option α}
    {change : Except Fault RuleLine → Except Fault RuleLine} {onPicked : α → α}
    (h : ∀ result, pick (change result) = (pick result).map onPicked)
    (results : List (Except Fault RuleLine)) :
    (results.map change).filterMap pick = (results.filterMap pick).map onPicked := by
  rw [List.filterMap_map, List.map_filterMap]
  exact List.filterMap_congr fun result _ => h result

/-! ## Every line has its verdict -/

/-- What was read from a source, line by line. -/
structure LineByLine (source : List Char) (parsed : Parsed) : Prop where
  /-- There is one verdict on a line that is not blank. -/
  existsUnique_verdict : ∀ line number, (line, number) ∈ filledLines source →
    ∃! verdict, Verdict number line verdict
  /-- The line has a rule for a name if that is its verdict. -/
  rule_iff : ∀ line number, (line, number) ∈ filledLines source → ∀ name,
    (∃ rule ∈ parsed.rules, rule.lineNumber = number ∧ rule.left.toList = name) ↔
      Verdict number line (.ok name)
  /-- The line has a fault if that is its verdict. -/
  fault_iff : ∀ line number, (line, number) ∈ filledLines source → ∀ fault,
    (fault ∈ parsed.syntacticFaults ∧ fault.line? = some number) ↔
      Verdict number line (.error fault)
  /-- Each line that is not blank has one rule or fault, and there are no others. -/
  lineNumbers_perm : (parsed.rules.map (fun rule => some rule.lineNumber) ++
      parsed.syntacticFaults.map Fault.line?).Perm
    ((filledLines source).map fun entry => some entry.2)
  /-- Rules stand in the order of their lines. -/
  rules_increasing : (parsed.rules.map Rule.lineNumber).Pairwise (· < ·)
  /-- So do the faults of lines. -/
  faults_increasing : (parsed.syntacticFaults.filterMap Fault.line?).Pairwise (· < ·)
  /-- The faults of lines precede the others. -/
  faults_eq : parsed.faults = parsed.syntacticFaults ++ parsed.crossFaults

theorem existsUnique_verdict (number : Nat) (line : List Char) :
    ∃! verdict, Verdict number line verdict :=
  ⟨_, verdict_iff.mpr rfl, fun _ hOther => (verdict_iff.mp hOther).symm⟩

theorem mem_syntacticFaults_iff {source : String} {fault : Fault}
    (hLine : (line, number) ∈ filledLines source.toList) :
    (fault ∈ (parse source).syntacticFaults ∧ fault.line? = some number) ↔
      Verdict number line (.error fault) := by
  rw [syntacticFaults_parse, mem_lineFaults_iff]
  constructor
  · rintro ⟨⟨other, otherNumber, hOther, hVerdict⟩, hNumber⟩
    -- a fault with the number of the line is a fault of the line
    obtain rfl : otherNumber = number :=
      Option.some.inj (hVerdict.syntactic.2.symm.trans hNumber)
    obtain rfl := eq_of_mem_filledLines hOther hLine
    exact hVerdict
  · intro hVerdict
    exact ⟨⟨line, number, hLine, hVerdict⟩, hVerdict.syntactic.2⟩

theorem mem_rules_iff {source : String} {name : List Char}
    (hLine : (line, number) ∈ filledLines source.toList) :
    (∃ rule ∈ (parse source).rules, rule.lineNumber = number ∧ rule.left.toList = name) ↔
      Verdict number line (.ok name) := by
  rw [verdict_iff]
  constructor
  · rintro ⟨rule, hRule, rfl, rfl⟩
    obtain ⟨ruleLine, hRuleLine, rfl⟩ := List.mem_map.mp hRule
    obtain ⟨other, hOther, hOk⟩ := mem_ruleLines_iff.mp hRuleLine
    obtain rfl := eq_of_mem_filledLines hOther hLine
    rw [show ruleLine.rule.lineNumber = ruleLine.lineNumber from rfl, hOk]
    simp [Except.map, RuleLine.rule]
  · intro hName
    cases hRead : readLine number line with
    | error fault =>
        rw [hRead] at hName
        cases hName
    | ok ruleLine =>
        rw [hRead] at hName
        obtain rfl : ruleLine.left = name := Except.ok.inj hName
        obtain ⟨hNumber, -⟩ := readLine_layout hRead
        have hRuleLine : ruleLine ∈ ruleLines source.toList :=
          mem_ruleLines_iff.mpr ⟨line, by rw [hNumber]; exact ⟨hLine, hRead⟩⟩
        exact ⟨ruleLine.rule, List.mem_map_of_mem hRuleLine, hNumber, by simp [RuleLine.rule]⟩

/-- Results of two kinds, sorted by kind, are the results in another order. -/
theorem map_rules_append_map_faults_perm {β : Type} (ofRule : RuleLine → β) (ofFault : Fault → β)
    (results : List (Except Fault RuleLine)) :
    ((results.filterMap Except.toOption).map ofRule ++
        (results.filterMap fun
          | .error fault => some fault
          | .ok _ => none).map ofFault).Perm
      (results.map fun
        | .error fault => ofFault fault
        | .ok ruleLine => ofRule ruleLine) := by
  induction results with
  | nil => exact .nil
  | cons result results ih =>
      cases result with
      | error fault => exact List.perm_middle.trans (ih.cons (ofFault fault))
      | ok ruleLine => exact ih.cons (ofRule ruleLine)

/-- The lines with a rule and those with a fault are the lines that are not blank. -/
theorem lineNumbers_perm (source : String) :
    ((parse source).rules.map (fun rule => some rule.lineNumber) ++
        (parse source).syntacticFaults.map Fault.line?).Perm
      ((filledLines source.toList).map fun entry => some entry.2) := by
  have hNumbers : ∀ entry ∈ filledLines source.toList,
      (match readLine entry.2 entry.1 with
        | .error fault => fault.line?
        | .ok ruleLine => some ruleLine.lineNumber) = some entry.2 := by
    rintro ⟨line, number⟩ -
    split
    case h_1 fault hError => exact (readLine_eq_error_iff.mp hError).syntactic.2
    case h_2 ruleLine hOk => rw [(readLine_layout hOk).1]
  have hPerm := map_rules_append_map_faults_perm (fun ruleLine => some ruleLine.lineNumber)
    Fault.line? (readLines source.toList)
  have hRules : (parse source).rules.map (fun rule => some rule.lineNumber) =
      ((readLines source.toList).filterMap Except.toOption).map fun ruleLine =>
        some ruleLine.lineNumber := by
    rw [parse, ruleLines, List.map_map]
    rfl
  rw [hRules, syntacticFaults_parse, ← List.map_congr_left hNumbers]
  refine hPerm.trans (.of_eq ?_)
  rw [readLines_eq_map, List.map_map]
  rfl

theorem pairwise_filledLines (source : List Char) :
    (filledLines source).Pairwise fun first second => first.2 < second.2 :=
  (pairwise_numberedLines source).filter _

theorem pairwise_ruleLines (source : List Char) :
    (ruleLines source).Pairwise fun first second => first.lineNumber < second.lineNumber := by
  rw [ruleLines, readLines_eq_map, List.filterMap_map, List.pairwise_filterMap]
  refine (pairwise_filledLines source).imp fun hLess first hFirst second hSecond => ?_
  obtain ⟨hFirst, -⟩ := readLine_layout (toOption_eq_some_iff.mp hFirst)
  obtain ⟨hSecond, -⟩ := readLine_layout (toOption_eq_some_iff.mp hSecond)
  rwa [hFirst, hSecond]

theorem pairwise_rules_parse (source : String) :
    (parse source).rules.Pairwise fun first second => first.lineNumber < second.lineNumber :=
  List.pairwise_map.mpr (pairwise_ruleLines source.toList)

theorem pairwise_lineFaults (source : List Char) :
    ((lineFaults source).filterMap Fault.line?).Pairwise (· < ·) := by
  have hNumber : ∀ {entry : List Char × Nat} {number : Nat},
      number ∈ (faultOf? (readLine entry.2 entry.1)).bind Fault.line? → number = entry.2 := by
    intro entry number hNumber
    obtain ⟨fault, hFault, hLine⟩ := Option.bind_eq_some_iff.mp hNumber
    have hVerdict := readLine_eq_error_iff.mp (faultOf?_eq_some_iff.mp hFault)
    exact Option.some.inj (hLine.symm.trans hVerdict.syntactic.2)
  rw [lineFaults, readLines_eq_map, List.filterMap_map, List.filterMap_filterMap,
    List.pairwise_filterMap]
  refine (pairwise_filledLines source).imp fun hLess first hFirst second hSecond => ?_
  rwa [hNumber hFirst, hNumber hSecond]

theorem faults_eq_syntacticFaults_append_crossFaults (source : String) :
    (parse source).faults = (parse source).syntacticFaults ++ (parse source).crossFaults := by
  rw [syntacticFaults_parse, crossFaults_parse, faults_parse]

/-- **Every line that is not blank has its verdict**: a rule or one fault, in the order of the
lines, and the faults of lines precede the others. -/
theorem lineByLine_parse (source : String) : LineByLine source.toList (parse source) where
  existsUnique_verdict := fun line number _ => existsUnique_verdict number line
  rule_iff := fun _ _ hLine _ => mem_rules_iff hLine
  fault_iff := fun _ _ hLine _ => mem_syntacticFaults_iff hLine
  lineNumbers_perm := lineNumbers_perm source
  rules_increasing := by
    rw [parse, List.map_map]
    exact List.pairwise_map.mpr (pairwise_ruleLines source.toList)
  faults_increasing := by
    rw [syntacticFaults_parse]
    exact pairwise_lineFaults source.toList
  faults_eq := faults_eq_syntacticFaults_append_crossFaults source

/-- A blank line, a rule, a second word before the arrow, a later brace that closes an earlier one
only, and no dollar sign. -/
def mixedSource : String :=
  "\t\n $A -> $\x7b\x7d\n$A b -> c\r\n$A->$\x7bb\x7d$\x7b\nA -> b"

theorem lineByLine_mixedSource :
    Verdict 2 " $A -> $\x7b\x7d".toList (.ok ['A']) ∧
      Verdict 3 "$A b -> c".toList (.error (.missingArrow 3)) ∧
        Verdict 4 "$A->$\x7bb\x7d$\x7b".toList (.error (.missingClosingBrace 4 10)) ∧
          Verdict 5 "A -> b".toList (.error (.invalidLeftHandSide 5)) := by
  have h := lineByLine_parse mixedSource
  have hLines : filledLines mixedSource.toList =
      [(" $A -> $\x7b\x7d".toList, 2), ("$A b -> c".toList, 3),
        ("$A->$\x7bb\x7d$\x7b".toList, 4), ("A -> b".toList, 5)] := rfl
  have hRules : (parse mixedSource).rules = [⟨"A", [.terminal "$\x7b\x7d"], 2⟩] := by
    decide +kernel
  have hFaults : (parse mixedSource).syntacticFaults =
      [.missingArrow 3, .missingClosingBrace 4 10, .invalidLeftHandSide 5] := by
    decide +kernel
  refine ⟨(h.rule_iff _ _ ?_ _).mp ?_, (h.fault_iff _ _ ?_ _).mp ?_, (h.fault_iff _ _ ?_ _).mp ?_,
    (h.fault_iff _ _ ?_ _).mp ?_⟩
  all_goals simp [hLines, hRules, hFaults, Fault.line?]

/-! ## The symbols of each rule -/

/-- **The right of a rule is the layout of its right-hand side**: the references that start in it
and the text between them, in order. -/
theorem parse_layout (source : String) (rule : Rule) (h : rule ∈ (parse source).rules) :
    ∃ line front lead body trail pieces,
      (line, rule.lineNumber) ∈ filledLines source.toList ∧
        BodyCut line front lead body trail ∧
          Layout (front ++ (arrow ++ lead)).length body pieces ∧
            rule.right = pieces.map Piece.symbol ∧ (body = [] → pieces = []) := by
  obtain ⟨ruleLine, hRuleLine, rfl⟩ := List.mem_map.mp h
  obtain ⟨line, hLine, hOk⟩ := mem_ruleLines_iff.mp hRuleLine
  obtain ⟨-, front, lead, body, trail, hCut, hLayout⟩ := readLine_layout hOk
  refine ⟨line, front, lead, body, trail, ruleLine.pieces, hLine, hCut, hLayout, rfl, ?_⟩
  rintro rfl
  exact hLayout.eq_nil

/-- A dollar sign without a name, a name in braces, and blanks inside and behind. -/
def greetingSource : String :=
  "\n$SENTENCE -> a  $ $\x7bNAME\x7ds \n"

theorem layout_greetingSource :
    (parse greetingSource).rules =
        [⟨"SENTENCE", [.terminal "a  $ ", .nonTerminal "NAME", .terminal "s"], 2⟩] ∧
      ∃ line front lead body trail pieces,
        (line, 2) ∈ filledLines greetingSource.toList ∧
          BodyCut line front lead body trail ∧
            Layout (front ++ (arrow ++ lead)).length body pieces ∧
              [.terminal "a  $ ", .nonTerminal "NAME", .terminal "s"] = pieces.map Piece.symbol ∧
                (body = [] → pieces = []) := by
  have hRules : (parse greetingSource).rules =
      [⟨"SENTENCE", [.terminal "a  $ ", .nonTerminal "NAME", .terminal "s"], 2⟩] := by
    decide +kernel
  exact ⟨hRules, parse_layout greetingSource _ (hRules ▸ List.mem_cons_self)⟩

end PhraseGrammar.Source
