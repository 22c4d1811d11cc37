import Mathlib.Data.List.Nodup
import PhraseGrammar.Proofs.Decimal
import PhraseGrammar.Proofs.Printing

/-!
# Faults by their messages

The message of a fault begins with words that tell its kind, and the rest spells its name and its
numbers with marks between them. A number ends where something else than a digit follows. A name
ends where something else than a name character follows, but this holds only for names that consist
of such characters: a name with a place in it could be read as a shorter one at that place. The
names in the faults of a source are such names (`wellNamed_of_mem_parse`), so a fault of a source is
known by its message.

A source has no fault twice either. A line has one fault at most, a name without a rule is reported
once for each place where it occurs, and a name without a reference once for all of its rules.
-/

set_option autoImplicit false

namespace PhraseGrammar.Source

open PhraseGrammar.Text

/-! ## The parts of a message -/

/-- The words that the messages of the kind begin with. -/
def FaultKind.opening : FaultKind → String
  | .missingArrow => "Missing symbol on line "
  | .missingClosingBrace => "Missing closing brace on line "
  | .invalidLeftHandSide => "Missing non-terminal at start of line "
  | .noProductionRule => "No production rule for non-terminal $"
  | .ruleNeverUsed => "Production rule with start symbol $"

/-- The place of a reference, as it follows the name. -/
def placeSuffix : Option Location → List Char
  | none => []
  | some location =>
    " (line ".toList ++ (Nat.toDigits 10 location.lineNumber ++
      (", character ".toList ++ (Nat.toDigits 10 location.characterNumber ++ ")".toList)))

theorem placeSuffix_none : placeSuffix none = [] := rfl

theorem placeSuffix_some (location : Location) :
    placeSuffix (some location) =
      " (line ".toList ++ (Nat.toDigits 10 location.lineNumber ++
        (", character ".toList ++ (Nat.toDigits 10 location.characterNumber ++ ")".toList))) := rfl

/-- What follows the opening words. -/
def Fault.details : Fault → List Char
  | missingArrow line => Nat.toDigits 10 line ++ ": ->".toList
  | missingClosingBrace line brace =>
    Nat.toDigits 10 line ++ (" (opening brace at character ".toList ++
      (Nat.toDigits 10 brace ++ ")".toList))
  | invalidLeftHandSide line => Nat.toDigits 10 line
  | noProductionRule name location => name.toList ++ placeSuffix location
  | ruleNeverUsed name line =>
    name.toList ++ (" is never used (line ".toList ++ (Nat.toDigits 10 line ++ ")".toList))

theorem Fault.toList_message (fault : Fault) :
    fault.message.toList = fault.kind.opening.toList ++ fault.details := by
  rw [message.eq_def]
  cases fault with
  | missingArrow line | missingClosingBrace line brace | invalidLeftHandSide line
  | ruleNeverUsed name line =>
      simp only [details, kind, FaultKind.opening, String.toList_append, toList_toString,
        List.append_assoc]
  | noProductionRule name location =>
      cases location with
      | none =>
          simp only [details, kind, FaultKind.opening, placeSuffix_none, String.toList_append,
            List.append_nil]
      | some location =>
          simp only [details, kind, FaultKind.opening, placeSuffix_some, String.toList_append,
            toList_toString, List.append_assoc]

/-- No opening words are the beginning of others. -/
theorem FaultKind.eq_of_opening_prefix {first second : FaultKind}
    (h : first.opening.toList <+: second.opening.toList) : first = second := by
  cases first <;> cases second
  all_goals first
    | rfl
    | exact absurd h (by decide +kernel)

theorem Fault.kind_eq_and_details_eq {first second : Fault}
    (h : first.message = second.message) :
    first.kind = second.kind ∧ first.details = second.details := by
  have hText : first.kind.opening.toList ++ first.details =
      second.kind.opening.toList ++ second.details := by
    rw [← first.toList_message, ← second.toList_message, h]
  have hKind : first.kind = second.kind := by
    have hPrefix : first.kind.opening.toList <+: second.kind.opening.toList ++ second.details :=
      ⟨first.details, hText⟩
    rcases List.prefix_or_prefix_of_prefix hPrefix (List.prefix_append _ _) with hLe | hGe
    · exact FaultKind.eq_of_opening_prefix hLe
    · exact (FaultKind.eq_of_opening_prefix hGe).symm
  rw [hKind] at hText
  exact ⟨hKind, List.append_cancel_left hText⟩

/-! ## Reading the rest -/

/-- A mark ends a run if it does not start with a character of the run. -/
theorem forall_mem_head?_mark_append {property : Char → Bool} {mark : String} {c : Char}
    (rest : List Char) (hMark : mark.toList.head? = some c) (hStop : property c = false) :
    ∀ d ∈ (mark.toList ++ rest).head?, property d = false := by
  simp [List.head?_append, hMark, hStop]

/-- Numbers before the same mark are the same, and so is what follows it. -/
theorem eq_of_toDigits_mark_append_eq {first second : Nat} {mark : String} {c : Char}
    {rest more : List Char} (hMark : mark.toList.head? = some c) (hStop : c.isDigit = false)
    (h : Nat.toDigits 10 first ++ (mark.toList ++ rest) =
      Nat.toDigits 10 second ++ (mark.toList ++ more)) :
    first = second ∧ rest = more := by
  obtain ⟨hSame, hRest⟩ := eq_of_toDigits_append_eq
    (forall_mem_head?_mark_append rest hMark hStop)
    (forall_mem_head?_mark_append more hMark hStop) h
  exact ⟨hSame, List.append_cancel_left hRest⟩

theorem head?_placeSuffix (location : Option Location) :
    ∀ c ∈ (placeSuffix location).head?, isNameChar c = false := by
  cases location with
  | none => exact fun c hc => absurd hc (Option.not_mem_none c)
  | some location =>
      rw [placeSuffix_some]
      exact forall_mem_head?_mark_append (c := ' ') _ (by decide) (by decide)

theorem placeSuffix_ne_nil (location : Location) : placeSuffix (some location) ≠ [] := by
  rw [placeSuffix_some]
  exact List.append_ne_nil_of_left_ne_nil (by decide) _

theorem placeSuffix_injective : Function.Injective placeSuffix := by
  intro first second h
  cases first with
  | none =>
      cases second with
      | none => rfl
      | some location => exact absurd h.symm (placeSuffix_ne_nil location)
  | some location =>
      cases second with
      | none => exact absurd h (placeSuffix_ne_nil location)
      | some other =>
          rw [placeSuffix_some, placeSuffix_some] at h
          obtain ⟨hLine, hRest⟩ := eq_of_toDigits_mark_append_eq (c := ',') (by decide) (by decide)
            (List.append_cancel_left h)
          have hCharacter := toDigits_injective (List.append_cancel_right hRest)
          obtain ⟨lineNumber, characterNumber⟩ := location
          exact congrArg some (congrArg₂ Location.mk hLine hCharacter)

/-- The name that the fault is about, if it is about one. -/
def Fault.name? : Fault → Option String
  | noProductionRule name _ | ruleNeverUsed name _ => some name
  | missingArrow _ | missingClosingBrace _ _ | invalidLeftHandSide _ => none

/-- If the fault is about a name, its characters are those of names. -/
def Fault.WellNamed (fault : Fault) : Prop :=
  ∀ name ∈ fault.name?, IsName name.toList

/-- Names that are followed by no name character are told apart from what follows them. -/
theorem eq_of_name_append_eq {first second : String} {rest more : List Char}
    (hFirst : IsName first.toList) (hSecond : IsName second.toList)
    (hRest : ∀ c ∈ rest.head?, isNameChar c = false)
    (hMore : ∀ c ∈ more.head?, isNameChar c = false)
    (h : first.toList ++ rest = second.toList ++ more) : first = second ∧ rest = more := by
  obtain ⟨hSame, hRest⟩ := eq_of_run_append_eq hFirst.2 hSecond.2 hRest hMore h
  exact ⟨String.toList_inj.mp hSame, hRest⟩

theorem Fault.eq_of_details_eq {first second : Fault} (hFirst : first.WellNamed)
    (hSecond : second.WellNamed) (hKind : first.kind = second.kind)
    (h : first.details = second.details) : first = second := by
  cases first, second, hKind using cases_of_kind_eq with
  | missingArrow line other =>
      rw [details, details] at h
      rw [toDigits_injective (List.append_cancel_right h)]
  | missingClosingBrace line brace other otherBrace =>
      rw [details, details] at h
      obtain ⟨hLine, hRest⟩ :=
        eq_of_toDigits_mark_append_eq (c := ' ') (by decide) (by decide) h
      rw [hLine, toDigits_injective (List.append_cancel_right hRest)]
  | invalidLeftHandSide line other => rw [toDigits_injective h]
  | noProductionRule name location other otherLocation =>
      obtain ⟨hName, hSuffix⟩ := eq_of_name_append_eq (hFirst name rfl) (hSecond other rfl)
        (head?_placeSuffix location) (head?_placeSuffix otherLocation) h
      rw [hName, placeSuffix_injective hSuffix]
  | ruleNeverUsed name line other otherLine =>
      rw [details, details] at h
      obtain ⟨hName, hRest⟩ := eq_of_name_append_eq (hFirst name rfl) (hSecond other rfl)
        (forall_mem_head?_mark_append (c := ' ') _ (by decide) (by decide))
        (forall_mem_head?_mark_append (c := ' ') _ (by decide) (by decide)) h
      have hDigits := List.append_cancel_right (List.append_cancel_left hRest)
      rw [hName, toDigits_injective hDigits]

/-- Among faults with names of name characters, a fault is known by its message. -/
theorem Fault.eq_of_message_eq {first second : Fault} (hFirst : first.WellNamed)
    (hSecond : second.WellNamed) (h : first.message = second.message) : first = second := by
  obtain ⟨hKind, hDetails⟩ := Fault.kind_eq_and_details_eq h
  exact Fault.eq_of_details_eq hFirst hSecond hKind hDetails

/-- With any other names, messages do not tell faults apart. -/
example :
    (Fault.noProductionRule "A (line 1, character 9)" none).message =
      (Fault.noProductionRule "A" (some ⟨1, 9⟩)).message := by
  decide

/-! ## The names in the faults of a source -/

variable {rules : List Rule} {occurrences : List Occurrence}

theorem isName_startName : IsName startName.toList :=
  ⟨by decide +kernel, List.all_eq_true.mp (by decide +kernel)⟩

theorem isName_of_mem_occurrences {source : List Char} {occurrence : Occurrence}
    (h : OccurrencesIn source rules occurrences) (hOccurrence : occurrence ∈ occurrences) :
    IsName occurrence.name.toList := by
  obtain ⟨line, reference, -, -, ⟨position, -, hReference, -⟩, hName⟩ :=
    (h.mem_iff occurrence).mp hOccurrence
  obtain ⟨after, -, hIsName, -⟩ := hReference
  rwa [hName, String.toList_ofList]

theorem crossFaults_parse_eq_faultsShown (source : String) :
    (parse source).crossFaults = faultsShown (parse source).rules
      ((ruleLines source.toList).flatMap RuleLine.occurrences) := by
  rw [crossFaults_parse,
    crossCheck_eq_faultsShown (occurrencesIn_parse source) (pairwise_rules_parse source)]

/-- **The names in the faults of a source consist of name characters.** -/
theorem wellNamed_of_mem_parse {source : String} {fault : Fault}
    (h : fault ∈ (parse source).faults) : fault.WellNamed := by
  intro name hName
  rw [faults_eq_syntacticFaults_append_crossFaults, syntacticFaults_parse,
    crossFaults_parse_eq_faultsShown, faultsShown, List.mem_append, List.mem_append,
    List.mem_append] at h
  rcases h with hLine | (hStart | hUndefined) | hUnused
  · -- the fault of a line is about no name
    obtain ⟨line, number, -, hVerdict⟩ := mem_lineFaults_iff.mp hLine
    cases hVerdict <;> cases hName
  · obtain rfl := List.mem_singleton.mp (List.mem_ite_nil_left.mp hStart).2
    obtain rfl := Option.some.inj hName
    exact isName_startName
  · obtain ⟨occurrence, hOccurrence, rfl⟩ := List.mem_map.mp hUndefined
    obtain rfl := Option.some.inj hName
    exact isName_of_mem_occurrences (occurrencesIn_parse source) (List.mem_filter.mp hOccurrence).1
  · obtain ⟨rule, hRule, rfl⟩ := List.mem_map.mp hUnused
    obtain rfl := Option.some.inj hName
    exact (canonicalRule_of_mem_parse source rule (List.mem_filter.mp hRule).1).left_isName

/-! ## No fault twice -/

theorem Location.Before.ne {first second : Location} (h : first.Before second) :
    first ≠ second := by
  rintro rfl
  rcases h with hLine | ⟨-, hCharacter⟩
  · exact lt_irrefl _ hLine
  · exact lt_irrefl _ hCharacter

theorem nodup_lineFaults (source : List Char) : (lineFaults source).Nodup := by
  refine (List.pairwise_filterMap.mp (pairwise_lineFaults source)).imp_of_mem ?_
  rintro fault _ hFault - hLess rfl
  obtain ⟨line, number, -, hVerdict⟩ := mem_lineFaults_iff.mp hFault
  have hNumber := hVerdict.syntactic.2
  exact lt_irrefl _ (hLess number hNumber number hNumber)

theorem nodup_faultsShown {source : List Char} (h : OccurrencesIn source rules occurrences)
    (hLines : rules.Pairwise fun first second => first.lineNumber < second.lineNumber) :
    (faultsShown rules occurrences).Nodup := by
  have hUndefined :
      ((occurrences.filter fun occurrence => ¬ Defined rules occurrence.name).map fun occurrence =>
        Fault.noProductionRule occurrence.name (some occurrence.location)).Nodup := by
    refine List.pairwise_map.mpr ((h.ordered.filter _).imp fun hBefore hSame => hBefore.ne ?_)
    exact Option.some.inj (Fault.noProductionRule.inj hSame).2
  have hUnused : ((rules.filter fun rule =>
      rule.left ≠ startName ∧ ¬ Referred rules rule.left ∧ FirstOfName rules rule).map
        fun rule => Fault.ruleNeverUsed rule.left rule.lineNumber).Nodup := by
    refine List.pairwise_map.mpr ((hLines.filter _).imp fun hLess hSame => hLess.ne ?_)
    exact (Fault.ruleNeverUsed.inj hSame).2
  rw [faultsShown]
  refine List.Nodup.append (List.Nodup.append ?_ hUndefined ?_) hUnused ?_
  · split
    · exact List.nodup_nil
    · exact List.nodup_singleton _
  · -- the start name has no place
    intro fault hStart hOther
    obtain rfl := List.mem_singleton.mp (List.mem_ite_nil_left.mp hStart).2
    obtain ⟨occurrence, -, hSame⟩ := List.mem_map.mp hOther
    cases (Fault.noProductionRule.inj hSame).2
  · intro fault hFault hOther
    obtain ⟨rule, -, rfl⟩ := List.mem_map.mp hOther
    rcases List.mem_append.mp hFault with hStart | hMissing
    · cases List.mem_singleton.mp (List.mem_ite_nil_left.mp hStart).2
    · obtain ⟨occurrence, -, hSame⟩ := List.mem_map.mp hMissing
      cases hSame

theorem nodup_faults_parse (source : String) : (parse source).faults.Nodup := by
  rw [faults_eq_syntacticFaults_append_crossFaults]
  refine List.Nodup.append ?_ ?_ fun fault hLine hCross => ?_
  · rw [syntacticFaults_parse]
    exact nodup_lineFaults source.toList
  · rw [crossFaults_parse_eq_faultsShown]
    exact nodup_faultsShown (occurrencesIn_parse source) (pairwise_rules_parse source)
  · -- only the faults of lines are syntactic
    have hSyntactic := (List.mem_filter.mp hLine).2
    have hOther := (List.mem_filter.mp hCross).2
    rw [hSyntactic] at hOther
    cases hOther

theorem eq_of_message_eq_of_mem_parse {source other : String} {first second : Fault}
    (hFirst : first ∈ (parse source).faults) (hSecond : second ∈ (parse other).faults)
    (h : first.message = second.message) : first = second :=
  Fault.eq_of_message_eq (wellNamed_of_mem_parse hFirst) (wellNamed_of_mem_parse hSecond) h

/-- **A fault is known by its message.** Faults of any two sources have the same message only if
they are the same fault, and no source has a fault or a message twice. -/
theorem message_eq_iff_of_mem_parse (source other : String) :
    (∀ first ∈ (parse source).faults, ∀ second ∈ (parse other).faults,
      first.message = second.message ↔ first = second) ∧
    (parse source).faults.Nodup ∧ ((parse source).faults.map Fault.message).Nodup := by
  refine ⟨fun first hFirst second hSecond => ?_, nodup_faults_parse source, ?_⟩
  · exact ⟨eq_of_message_eq_of_mem_parse hFirst hSecond, congrArg Fault.message⟩
  · exact (nodup_faults_parse source).map_on fun first hFirst second hSecond =>
      eq_of_message_eq_of_mem_parse hFirst hSecond

theorem message_eq_iff_looseSource :
    (parse looseSource).faults.length = 6 ∧
      ((parse looseSource).faults.map Fault.message).Nodup ∧
        ∀ fault ∈ (parse looseSource).faults,
          fault.message = "No production rule for non-terminal $C (line 1, character 9)" →
            fault = .noProductionRule "C" (some ⟨1, 9⟩) := by
  obtain ⟨hSame, -, hMessages⟩ := message_eq_iff_of_mem_parse looseSource "$A -> x $C"
  refine ⟨by decide +kernel, hMessages, fun fault hFault hMessage => ?_⟩
  exact (hSame fault hFault _ (by decide +kernel)).mp (hMessage.trans (by decide +kernel))

end PhraseGrammar.Source
