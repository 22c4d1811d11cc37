import PhraseGrammar.Proofs.Margins

/-!
# Sources with other blanks around their lines

Whoever writes a source is free to indent its lines, to leave blanks behind them, to end them with
or without a carriage return, and to leave blank lines at the end. Only the characters that faults
point at tell the difference: they are as much further to the right as their line is indented
(`parse_withMargins`).
-/

set_option autoImplicit false

namespace PhraseGrammar.Source

open PhraseGrammar.Text

variable {source other line blanks : List Char} {leads : Nat → List Char} {moves : Nat → Nat}
  {rules : List Rule} {occurrences : List Occurrence}

/-! ## What is read of sources with the same lines -/

/-- The occurrence, as many characters further to the right as its line is moved. -/
def Occurrence.moveRight (moves : Nat → Nat) (occurrence : Occurrence) : Occurrence :=
  { occurrence with location := occurrence.location.moveRight moves }

/-- What a source holds, if its lines are moved to the right: the same rules, and the same faults
with other characters. -/
def Parsed.moveRight (moves : Nat → Nat) (parsed : Parsed) : Parsed :=
  { parsed with faults := parsed.faults.map (Fault.moveRight moves) }

theorem Fault.moveRight_zero (fault : Fault) : fault.moveRight (fun _ => 0) = fault := by
  cases fault with
  | missingArrow line => rfl
  | missingClosingBrace line brace => rfl
  | invalidLeftHandSide line => rfl
  | noProductionRule name location =>
      cases location with
      | none => rfl
      | some place => rfl
  | ruleNeverUsed name line => rfl

theorem Parsed.moveRight_zero (parsed : Parsed) : parsed.moveRight (fun _ => 0) = parsed := by
  have hFaults : parsed.faults.map (Fault.moveRight fun _ => 0) = parsed.faults :=
    (List.map_congr_left fun fault _ => fault.moveRight_zero).trans (List.map_id _)
  rw [Parsed.moveRight, hFaults]

theorem RuleLine.rule_moveRight (count : Nat) (ruleLine : RuleLine) :
    (ruleLine.moveRight count).rule = ruleLine.rule := by
  rw [RuleLine.rule, RuleLine.rule, RuleLine.moveRight, List.map_map]
  congr 1
  refine List.map_congr_left fun piece _ => ?_
  cases piece with
  | text chars => rfl
  | reference number r => rfl

theorem RuleLine.occurrences_moveRight (moves : Nat → Nat) (ruleLine : RuleLine) :
    (ruleLine.moveRight (moves ruleLine.lineNumber)).occurrences =
      ruleLine.occurrences.map (Occurrence.moveRight moves) := by
  rw [RuleLine.occurrences, RuleLine.occurrences, RuleLine.moveRight, List.filterMap_map,
    List.map_filterMap]
  refine List.filterMap_congr fun piece _ => ?_
  cases piece with
  | text chars => rfl
  | reference number r => rfl

/-- The check of references looks at names only, and points where the references are. -/
theorem crossCheck_map_moveRight (moves : Nat → Nat) (rules : List Rule)
    (occurrences : List Occurrence) :
    crossCheck rules (occurrences.map (Occurrence.moveRight moves)) =
      (crossCheck rules occurrences).map (Fault.moveRight moves) := by
  have hRefers : ∀ name,
      refersTo (occurrences.map (Occurrence.moveRight moves)) name = refersTo occurrences name :=
    fun name => List.any_map
  have hStart : missingStart rules (occurrences.map (Occurrence.moveRight moves)) =
      (missingStart rules occurrences).map (Fault.moveRight moves) := by
    rw [missingStart, missingStart, hRefers]
    split
    · rfl
    · rfl
  have hUndefined : undefinedReferences rules (occurrences.map (Occurrence.moveRight moves)) =
      (undefinedReferences rules occurrences).map (Fault.moveRight moves) := by
    rw [undefinedReferences, undefinedReferences, List.filter_map, List.map_map, List.map_map]
    rfl
  have hUnused : unusedRules rules (occurrences.map (Occurrence.moveRight moves)) =
      (unusedRules rules occurrences).map (Fault.moveRight moves) := by
    simp only [unusedRules, hRefers, List.map_map]
    rfl
  rw [crossCheck, crossCheck, hStart, hUndefined, hUnused, List.map_append, List.map_append]

theorem LinesBehind.ruleLines_eq (h : LinesBehind leads source other)
    (hLeads : ∀ number, AllBlank (leads number)) :
    ruleLines other = (ruleLines source).map fun ruleLine =>
      ruleLine.moveRight (leads ruleLine.lineNumber).length := by
  rw [ruleLines, ruleLines, h.readLines_eq hLeads]
  exact filterMap_map_results (toOption_changeResult _ _) _

theorem LinesBehind.lineFaults_eq (h : LinesBehind leads source other)
    (hLeads : ∀ number, AllBlank (leads number)) :
    lineFaults other =
      (lineFaults source).map (Fault.moveRight fun number => (leads number).length) := by
  rw [lineFaults, lineFaults, h.readLines_eq hLeads]
  exact filterMap_map_results (faultOf?_changeResult _ _) _

/-- **Sources with the same lines up to blanks at their ends hold the same**, with characters moved
to the right by the blanks in front. -/
theorem LinesBehind.parse_eq {source other : String}
    (h : LinesBehind leads source.toList other.toList)
    (hLeads : ∀ number, AllBlank (leads number)) :
    parse other = (parse source).moveRight fun number => (leads number).length := by
  have hRules : (ruleLines other.toList).map RuleLine.rule =
      (ruleLines source.toList).map RuleLine.rule := by
    rw [h.ruleLines_eq hLeads, List.map_map]
    exact List.map_congr_left fun ruleLine _ => ruleLine.rule_moveRight _
  have hOccurrences : (ruleLines other.toList).flatMap RuleLine.occurrences =
      ((ruleLines source.toList).flatMap RuleLine.occurrences).map
        (Occurrence.moveRight fun number => (leads number).length) := by
    rw [h.ruleLines_eq hLeads, List.flatMap_map, List.map_flatMap]
    exact List.flatMap_congr fun ruleLine _ =>
      ruleLine.occurrences_moveRight fun number => (leads number).length
  rw [parse, parse, Parsed.moveRight, hRules, hOccurrences, h.lineFaults_eq hLeads,
    crossCheck_map_moveRight, List.map_append]

/-- If nothing but blanks at the ends of lines is different, nothing is. -/
theorem parse_eq_of_linesBehind {source other : String}
    (h : LinesBehind (fun _ => []) source.toList other.toList) : parse other = parse source :=
  (h.parse_eq fun _ => allBlank_nil).trans (Parsed.moveRight_zero _)

/-! ## Lines with their ends -/

/-- Puts a character in front of the first line. -/
def pushFirst (c : Char) : List (List Char × List Char) → List (List Char × List Char)
  | [] => [([c], [])]
  | (line, ending) :: rest => (c :: line, ending) :: rest

/-- The lines of a text, each with the characters that end it. Nothing ends a last line without a
line feed. -/
def endedLines : List Char → List (List Char × List Char)
  | [] => []
  | '\n' :: rest => ([], ['\n']) :: endedLines rest
  | '\r' :: '\n' :: rest => ([], ['\r', '\n']) :: endedLines rest
  | c :: rest => pushFirst c (endedLines rest)

/-- The text of lines with their ends. -/
def joinEnded (parts : List (List Char × List Char)) : List Char :=
  parts.flatMap fun part => part.1 ++ part.2

theorem joinEnded_cons (part : List Char × List Char) (parts : List (List Char × List Char)) :
    joinEnded (part :: parts) = part.1 ++ (part.2 ++ joinEnded parts) := by
  rw [joinEnded, List.flatMap_cons, List.append_assoc, ← joinEnded]

/-- Lines without line feeds, each with an end; only the last one may have none, and has
characters then. -/
inductive Ended : List (List Char × List Char) → Prop where
  | nil : Ended []
  | last (line : List Char) (hLine : line ≠ []) (hNewline : '\n' ∉ line) : Ended [(line, [])]
  | cons (line ending : List Char) (rest : List (List Char × List Char)) (hNewline : '\n' ∉ line)
      (hEnding : ending = ['\n'] ∨ ending = ['\r', '\n']) (hRest : Ended rest) :
      Ended ((line, ending) :: rest)

theorem map_fst_endedLines (text : List Char) :
    (endedLines text).map Prod.fst = lines text := by
  fun_induction endedLines text with
  | case1 => rfl
  | case2 rest ih => rw [List.map_cons, ih, lines]
  | case3 rest ih => rw [List.map_cons, ih, lines]
  | case4 c rest hNewline hReturn ih =>
      rw [lines.eq_4 c rest hNewline hReturn, ← ih]
      cases endedLines rest with
      | nil => rfl
      | cons part parts => rfl

theorem joinEnded_endedLines (text : List Char) : joinEnded (endedLines text) = text := by
  fun_induction endedLines text with
  | case1 => rfl
  | case2 rest ih => rw [joinEnded_cons, ih]; rfl
  | case3 rest ih => rw [joinEnded_cons, ih]; rfl
  | case4 c rest _ _ ih =>
      have hPush : ∀ parts, joinEnded (pushFirst c parts) = c :: joinEnded parts := by
        intro parts
        cases parts with
        | nil => rfl
        | cons part parts => rfl
      rw [hPush, ih]

theorem ended_endedLines (text : List Char) : Ended (endedLines text) := by
  fun_induction endedLines text with
  | case1 => exact .nil
  | case2 rest ih => exact .cons _ _ _ List.not_mem_nil (Or.inl rfl) ih
  | case3 rest ih => exact .cons _ _ _ List.not_mem_nil (Or.inr rfl) ih
  | case4 c rest hNewline _ ih =>
      have hCons : ∀ {line : List Char}, '\n' ∉ line → '\n' ∉ c :: line :=
        fun hLine hMem => (List.mem_cons.mp hMem).elim (fun hSame => hNewline hSame.symm) hLine
      generalize endedLines rest = parts at ih ⊢
      cases ih with
      | nil => exact .last _ (List.cons_ne_nil _ _) (hCons List.not_mem_nil)
      | last line hLine hNone => exact .last _ (List.cons_ne_nil _ _) (hCons hNone)
      | cons line ending parts hNone hEnding hParts =>
          exact .cons _ _ _ (hCons hNone) hEnding hParts

/-! ## Reading ended lines -/

/-- A line feed ends a line, and a carriage return in front of it is as good as none. -/
theorem map_trimEnd_lines_append_newline (hLine : '\n' ∉ line) (rest : List Char) :
    (lines (line ++ '\n' :: rest)).map trimEnd = trimEnd line :: (lines rest).map trimEnd := by
  by_cases hReturn : '\r' ∈ line.getLast?
  · obtain ⟨init, rfl⟩ := List.getLast?_eq_some_iff.mp hReturn
    have hInit : '\n' ∉ init := fun hMem => hLine (List.mem_append_left _ hMem)
    have hBlank : AllBlank ['\r'] := List.forall_mem_singleton.mpr (by decide)
    rw [List.append_assoc, List.singleton_append, lines_append_return_newline hInit, List.map_cons,
      trimEnd_append_of_allBlank hBlank]
  · rw [lines_append_newline hLine hReturn, List.map_cons]

theorem map_trimEnd_lines_append_ending {ending : List Char} (hNewline : '\n' ∉ line)
    (hEnding : ending = ['\n'] ∨ ending = ['\r', '\n']) (text : List Char) :
    (lines (line ++ (ending ++ text))).map trimEnd = trimEnd line :: (lines text).map trimEnd := by
  rcases hEnding with rfl | rfl
  · exact map_trimEnd_lines_append_newline hNewline text
  · rw [List.cons_append, List.singleton_append, lines_append_return_newline hNewline,
      List.map_cons]

/-- Up to blanks at their ends, the lines of ended lines are these lines. -/
theorem Ended.map_trimEnd_lines {parts : List (List Char × List Char)} (h : Ended parts) :
    (lines (joinEnded parts)).map trimEnd = parts.map fun part => trimEnd part.1 := by
  induction h with
  | nil => rfl
  | last line hLine hNewline =>
      rw [joinEnded_cons, List.nil_append, joinEnded, List.flatMap_nil, List.append_nil,
        lines_eq_singleton hLine hNewline, List.map_cons, List.map_cons, List.map_nil, List.map_nil]
  | cons line ending rest hNewline hEnding _ ih =>
      rw [joinEnded_cons, map_trimEnd_lines_append_ending hNewline hEnding, ih, List.map_cons]

theorem Ended.zipIdx_map {parts : List (List Char × List Char)} (h : Ended parts)
    (around : Nat → List Char → List Char)
    (hNonempty : ∀ number line, line ≠ [] → around number line ≠ [])
    (hNewline : ∀ number line, '\n' ∉ line → '\n' ∉ around number line) (start : Nat) :
    Ended ((parts.zipIdx start).map fun entry => (around entry.2 entry.1.1, entry.1.2)) := by
  induction h generalizing start with
  | nil => exact .nil
  | last line hLine hNone =>
      exact .last _ (hNonempty start line hLine) (hNewline start line hNone)
  | cons line ending rest hNone hEnding _ ih =>
      exact .cons _ _ _ (hNewline start line hNone) hEnding (ih (start + 1))

/-! ## Blanks around the lines -/

/-- Blanks to put in front of a line and behind it, which do not end the line. -/
structure Margin where
  lead : List Char
  trail : List Char
  lead_blank : AllBlank lead
  trail_blank : AllBlank trail
  newline_not_mem_lead : '\n' ∉ lead
  newline_not_mem_trail : '\n' ∉ trail

/-- The line within the margin. -/
def Margin.around (margin : Margin) (line : List Char) : List Char :=
  margin.lead ++ (line ++ margin.trail)

/-- The source with a margin around each of its lines. What ends the lines stays. -/
def withMargins (margins : Nat → Margin) (source : String) : String :=
  String.ofList (joinEnded (((endedLines source.toList).zipIdx 1).map fun entry =>
    ((margins entry.2).around entry.1.1, entry.1.2)))

theorem Margin.trimEnd_around (margin : Margin) (line : List Char) :
    trimEnd (margin.around line) = trimEnd (margin.lead ++ line) := by
  rw [Margin.around, ← List.append_assoc, trimEnd_append_of_allBlank margin.trail_blank]

theorem linesBehind_of_lines_eq {margins : Nat → Margin}
    (h : lines other =
      (numberedLines source).map fun entry => (margins entry.2).around entry.1) :
    LinesBehind (fun number => (margins number).lead) source other := by
  refine ⟨0, ?_⟩
  rw [h, List.map_map, List.replicate_zero, List.append_nil]
  exact List.map_congr_left fun entry _ => (margins entry.2).trimEnd_around entry.1

theorem linesBehind_withMargins (margins : Nat → Margin) (source : String) :
    LinesBehind (fun number => (margins number).lead) source.toList
      (withMargins margins source).toList := by
  have hParts : Ended (((endedLines source.toList).zipIdx 1).map fun entry =>
      ((margins entry.2).around entry.1.1, entry.1.2)) := by
    refine (ended_endedLines _).zipIdx_map (fun number => (margins number).around)
      (fun number line hLine => ?_) (fun number line hNone => ?_) 1
    · simp [Margin.around, hLine]
    · simp [Margin.around, hNone, (margins number).newline_not_mem_lead,
        (margins number).newline_not_mem_trail]
  refine ⟨0, ?_⟩
  rw [withMargins, String.toList_ofList, hParts.map_trimEnd_lines, List.map_map,
    List.replicate_zero, List.append_nil, numberedLines, ← map_fst_endedLines, List.zipIdx_map,
    List.map_map]
  exact List.map_congr_left fun entry _ => (margins entry.2).trimEnd_around entry.1.1

/-! ## Carriage returns and blanks at the end -/

/-- The characters with a carriage return in front of each line feed. -/
def addReturns (text : List Char) : List Char :=
  text.flatMap fun c => if c = '\n' then ['\r', '\n'] else [c]

/-- The source with a carriage return in front of each line feed. -/
def withReturns (source : String) : String :=
  String.ofList (addReturns source.toList)

theorem addReturns_append (first second : List Char) :
    addReturns (first ++ second) = addReturns first ++ addReturns second :=
  List.flatMap_append

theorem addReturns_eq_self {text : List Char} (h : '\n' ∉ text) : addReturns text = text := by
  induction text with
  | nil => rfl
  | cons c text ih =>
      obtain ⟨hChar, hRest⟩ := not_or.mp (List.mem_cons.not.mp h)
      rw [addReturns, List.flatMap_cons, if_neg (Ne.symm hChar), ← addReturns, ih hRest]
      rfl

theorem Ended.map_trimEnd_lines_addReturns {parts : List (List Char × List Char)}
    (h : Ended parts) :
    (lines (addReturns (joinEnded parts))).map trimEnd =
      (lines (joinEnded parts)).map trimEnd := by
  rw [h.map_trimEnd_lines]
  induction h with
  | nil => rfl
  | last line hLine hNewline =>
      rw [joinEnded_cons, joinEnded, List.flatMap_nil, List.append_nil, List.append_nil,
        addReturns_eq_self hNewline, lines_eq_singleton hLine hNewline]
      rfl
  | cons line ending rest hNewline hEnding _ ih =>
      rw [joinEnded_cons, addReturns_append, addReturns_append, addReturns_eq_self hNewline,
        List.map_cons, ← ih]
      rcases hEnding with rfl | rfl
      · exact map_trimEnd_lines_append_ending hNewline (Or.inr rfl) _
      · -- the carriage return that was there is now a blank at the end of the line
        have hReturn : AllBlank ['\r'] := List.forall_mem_singleton.mpr (by decide)
        have hLine : '\n' ∉ line ++ ['\r'] := by simp [hNewline]
        have hSame : line ++ (addReturns ['\r', '\n'] ++ addReturns (joinEnded rest)) =
            (line ++ ['\r']) ++ (['\r', '\n'] ++ addReturns (joinEnded rest)) := by
          simp [addReturns]
        rw [hSame, map_trimEnd_lines_append_ending hLine (Or.inr rfl),
          trimEnd_append_of_allBlank hReturn]

theorem map_trimEnd_lines_of_allBlank (h : AllBlank blanks) :
    (lines blanks).map trimEnd = List.replicate (lines blanks).length [] := by
  refine List.eq_replicate_iff.mpr ⟨List.length_map _, fun trimmed hTrimmed => ?_⟩
  obtain ⟨line, hLine, rfl⟩ := List.mem_map.mp hTrimmed
  exact trimEnd_eq_nil_iff.mpr fun c hc => h c (mem_of_mem_lines line hLine c hc)

/-- Blanks behind the last line belong to it up to a line feed, and the others make blank lines. -/
theorem map_trimEnd_lines_append_allBlank (h : AllBlank blanks) (hLine : line ≠ [])
    (hNewline : '\n' ∉ line) :
    ∃ count, (lines (line ++ blanks)).map trimEnd =
      trimEnd line :: List.replicate count [] := by
  by_cases hMem : '\n' ∈ blanks
  · obtain ⟨before, after, rfl, hBefore⟩ := List.eq_append_cons_of_mem hMem
    have hFront : AllBlank before := fun c hc => h c (List.mem_append_left _ hc)
    have hBack : AllBlank after :=
      fun c hc => h c (List.mem_append_right _ (List.mem_cons_of_mem _ hc))
    refine ⟨(lines after).length, ?_⟩
    rw [← List.append_assoc, map_trimEnd_lines_append_newline (by simp [hNewline, hBefore]),
      trimEnd_append_of_allBlank hFront, map_trimEnd_lines_of_allBlank hBack]
  · refine ⟨0, ?_⟩
    rw [lines_eq_singleton (by simp [hLine]) (by simp [hNewline, hMem]), List.map_singleton,
      trimEnd_append_of_allBlank h]
    rfl

theorem Ended.map_trimEnd_lines_append {parts : List (List Char × List Char)} (h : Ended parts)
    (hBlanks : AllBlank blanks) :
    ∃ count, (lines (joinEnded parts ++ blanks)).map trimEnd =
      (lines (joinEnded parts)).map trimEnd ++ List.replicate count [] := by
  rw [h.map_trimEnd_lines]
  induction h with
  | nil => exact ⟨_, map_trimEnd_lines_of_allBlank hBlanks⟩
  | last line hLine hNewline =>
      obtain ⟨count, hLines⟩ := map_trimEnd_lines_append_allBlank hBlanks hLine hNewline
      refine ⟨count, ?_⟩
      rw [joinEnded_cons, joinEnded, List.flatMap_nil, List.append_nil, List.append_nil, hLines]
      rfl
  | cons line ending rest hNewline hEnding _ ih =>
      obtain ⟨count, hLines⟩ := ih
      refine ⟨count, ?_⟩
      rw [joinEnded_cons, List.append_assoc, List.append_assoc,
        map_trimEnd_lines_append_ending hNewline hEnding, hLines]
      rfl

/-- The lines are trimmed alike if nothing is put in front of them. -/
theorem linesBehind_nil_iff :
    LinesBehind (fun _ => []) source other ↔ ∃ count,
      (lines other).map trimEnd = (lines source).map trimEnd ++ List.replicate count [] := by
  have hSource : ((numberedLines source).map fun entry => trimEnd ([] ++ entry.1)) =
      (lines source).map trimEnd := by
    calc ((numberedLines source).map fun entry => trimEnd ([] ++ entry.1))
        = ((numberedLines source).map Prod.fst).map trimEnd := by
          rw [List.map_map]
          rfl
      _ = (lines source).map trimEnd := by rw [numberedLines, List.zipIdx_map_fst]
  rw [LinesBehind, hSource]

theorem linesBehind_withReturns (source : String) :
    LinesBehind (fun _ => []) source.toList (withReturns source).toList := by
  have hLines := (ended_endedLines source.toList).map_trimEnd_lines_addReturns
  rw [joinEnded_endedLines] at hLines
  rw [linesBehind_nil_iff, withReturns, String.toList_ofList]
  exact ⟨0, by rw [hLines, List.replicate_zero, List.append_nil]⟩

theorem linesBehind_append_blanks {blanks : String} (hBlanks : AllBlank blanks.toList)
    (source : String) : LinesBehind (fun _ => []) source.toList (source ++ blanks).toList := by
  have hLines := (ended_endedLines source.toList).map_trimEnd_lines_append hBlanks
  rw [joinEnded_endedLines] at hLines
  rwa [linesBehind_nil_iff, String.toList_append]

/-! ## What blanks around lines change -/

/-- **Blanks around lines only move what faults point at.** With a margin around each line, a source
holds the same rules, and the same faults in the same order, with each character as much further to
the right as there are characters in front of its line. The same is true of every text whose lines
are these, whatever ends them. With a carriage return in front of each line feed, or with blanks and
blank lines at the end, nothing is different at all. -/
theorem parse_withMargins (source : String) :
    (∀ margins : Nat → Margin, parse (withMargins margins source) =
      (parse source).moveRight fun number => (margins number).lead.length) ∧
    (∀ (margins : Nat → Margin) (other : String),
      lines other.toList = (numberedLines source.toList).map
        (fun entry => (margins entry.2).around entry.1) →
      parse other = (parse source).moveRight fun number => (margins number).lead.length) ∧
    parse (withReturns source) = parse source ∧
    ∀ blanks : String, AllBlank blanks.toList → parse (source ++ blanks) = parse source := by
  refine ⟨fun margins => ?_, fun margins other hLines => ?_, ?_, fun blanks hBlanks => ?_⟩
  · exact (linesBehind_withMargins margins source).parse_eq fun number =>
      (margins number).lead_blank
  · exact (linesBehind_of_lines_eq hLines).parse_eq fun number => (margins number).lead_blank
  · exact parse_eq_of_linesBehind (linesBehind_withReturns source)
  · exact parse_eq_of_linesBehind (linesBehind_append_blanks hBlanks source)

/-- In front of each line as many ideographic spaces as its number, and behind it a space and a
carriage return. -/
def stairMargin (number : Nat) : Margin where
  lead := List.replicate number '\u3000'
  trail := [' ', '\r']
  lead_blank := fun c hc => by rw [List.eq_of_mem_replicate hc]; decide
  trail_blank := by simp [AllBlank, isBlank, blankRanges]
  newline_not_mem_lead := fun hMem => absurd (List.eq_of_mem_replicate hMem) (by decide)
  newline_not_mem_trail := by decide

/-- A dollar sign at the end of a line, a blank line, a brace that is not closed, a line without an
arrow, and a name without a rule. -/
def raggedSource : String :=
  "$SENTENCE -> $A $\r\n\n$B -> $\x7b\n$C $D -> x"

/-- The lines of the ragged source with the margins around them, and with what ended them. -/
def stairSource : String :=
  "\u3000$SENTENCE -> $A $ \r\r\n\u3000\u3000 \r\n" ++
    "\u3000\u3000\u3000$B -> $\x7b \r\n\u3000\u3000\u3000\u3000$C $D -> x \r"

/-- The same lines, all of them with a carriage return in front of the line feed. -/
def otherStairSource : String :=
  "\u3000$SENTENCE -> $A $ \r\r\n\u3000\u3000 \r\r\n" ++
    "\u3000\u3000\u3000$B -> $\x7b \r\r\n\u3000\u3000\u3000\u3000$C $D -> x \r"

theorem parse_withMargins_raggedSource :
    withMargins stairMargin raggedSource = stairSource ∧
      (parse raggedSource).faults =
        [.missingClosingBrace 3 8, .missingArrow 4, .noProductionRule "A" (some ⟨1, 14⟩)] ∧
      (parse stairSource).faults =
        [.missingClosingBrace 3 11, .missingArrow 4, .noProductionRule "A" (some ⟨1, 15⟩)] ∧
      lines otherStairSource.toList = (numberedLines raggedSource.toList).map
        (fun entry => (stairMargin entry.2).around entry.1) ∧
      (parse otherStairSource).faults =
        [.missingClosingBrace 3 11, .missingArrow 4, .noProductionRule "A" (some ⟨1, 15⟩)] ∧
      parse (withReturns raggedSource) = parse raggedSource ∧
      AllBlank " \r\n\n\u3000".toList ∧
      parse (raggedSource ++ " \r\n\n\u3000") = parse raggedSource := by
  obtain ⟨hMargins, hLines, hReturns, hBlanks⟩ := parse_withMargins raggedSource
  have hFaults : (parse raggedSource).faults =
      [.missingClosingBrace 3 8, .missingArrow 4, .noProductionRule "A" (some ⟨1, 14⟩)] := by
    decide +kernel
  have hSource : withMargins stairMargin raggedSource = stairSource := by decide +kernel
  have hStair : lines otherStairSource.toList = (numberedLines raggedSource.toList).map
      (fun entry => (stairMargin entry.2).around entry.1) := by decide +kernel
  have hMoved : ((parse raggedSource).moveRight fun number =>
      (stairMargin number).lead.length).faults =
        [.missingClosingBrace 3 11, .missingArrow 4, .noProductionRule "A" (some ⟨1, 15⟩)] := by
    rw [Parsed.moveRight, hFaults]
    rfl
  have hBlank : AllBlank " \r\n\n\u3000".toList := by decide +kernel
  refine ⟨hSource, hFaults, ?_, hStair, ?_, hReturns, hBlank, hBlanks _ hBlank⟩
  · rw [← hSource, hMargins stairMargin, hMoved]
  · rw [hLines stairMargin otherStairSource hStair, hMoved]

end PhraseGrammar.Source
