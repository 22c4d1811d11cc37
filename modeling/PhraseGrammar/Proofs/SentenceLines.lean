import PhraseGrammar.Proofs.CommandLine
import PhraseGrammar.Proofs.JsonCodec
import PhraseGrammar.Proofs.Printing

set_option autoImplicit false

/-! # Sentences line by line

No sentence of a source has a line feed in it, since its texts come from single lines and JSON
escapes what remains. So printed sentences are told apart by the line feeds alone
(`splitOn_printLines`), one line each.

A line with choices tells the whole sentence. The last opening bracket of a line is the one that
the choices are behind, whatever the text looks like, and choices that are written alike are the
same (`eq_of_choicesLine_eq`). A JSON line is read back, provided that the choices fit into 64
bits, as they do if the source has fewer characters than that.
-/

namespace PhraseGrammar

variable {rules : List Rule}

/-! ## What all sentences have -/

/-- What texts of the rules, choices among them and putting sentences together do not lose. -/
structure Inherited (rules : List Rule) (property : Sentence → Prop) : Prop where
  empty : property Sentence.empty
  text : ∀ rule ∈ rules, ∀ text, .terminal text ∈ rule.right → ∀ tail, property tail →
    property (Sentence.ofText text ++ tail)
  append : ∀ front tail, property front → property tail → property (front ++ tail)
  chosen : ∀ index < rules.length, ∀ tail, property tail → property (tail.chosen index)

/-- A right-hand side of a rule passes on what its names have. -/
theorem Inherited.of_mem_expansions {property : Sentence → Prop} (h : Inherited rules property)
    {expand : String → List Sentence} (hExpand : ∀ name, ∀ front ∈ expand name, property front)
    {rule : Rule} (hRule : rule ∈ rules) {symbols : List Symbol} (hSymbols : symbols ⊆ rule.right) :
    ∀ sentence ∈ expansions expand symbols, property sentence := by
  induction symbols with
  | nil =>
      intro sentence hSentence
      exact mem_expansions_nil.mp hSentence ▸ h.empty
  | cons symbol rest ih =>
      obtain ⟨hSymbol, hRest⟩ := List.cons_subset.mp hSymbols
      intro sentence hSentence
      cases symbol with
      | terminal text =>
          obtain ⟨tail, hTail, rfl⟩ := mem_expansions_terminal.mp hSentence
          exact h.text rule hRule text hSymbol tail (ih hRest tail hTail)
      | nonTerminal name =>
          obtain ⟨front, hFront, tail, hTail, rfl⟩ := mem_expansions_nonTerminal.mp hSentence
          exact h.append front tail (hExpand name front hFront) (ih hRest tail hTail)

theorem Inherited.of_mem_language {property : Sentence → Prop} (h : Inherited rules property)
    (level : Nat) (name : String) :
    ∀ sentence ∈ language rules level name, property sentence := by
  induction level generalizing name with
  | zero => exact fun sentence hSentence => absurd hSentence List.not_mem_nil
  | succ level ih =>
      intro sentence hSentence
      obtain ⟨index, tail, hTail, rfl⟩ := mem_language_succ.mp hSentence
      have hRule : (candidates rules name)[index] ∈ rules :=
        (mem_candidates.mp (List.getElem_mem index.isLt)).1
      have hIndex : index < rules.length :=
        Nat.lt_of_lt_of_le index.isLt (List.length_filter_le _ rules)
      exact h.chosen index hIndex tail (h.of_mem_expansions ih hRule (List.Subset.refl _) tail hTail)

/-- A character that no text of the rules has is in no sentence. -/
theorem inherited_not_mem {c : Char}
    (h : ∀ rule ∈ rules, ∀ text, .terminal text ∈ rule.right → c ∉ text.toList) :
    Inherited rules fun sentence => c ∉ sentence.text.toList := by
  have hAppend : ∀ front tail : Sentence, c ∉ front.text.toList → c ∉ tail.text.toList →
      c ∉ (front ++ tail).text.toList := by
    intro front tail hFront hTail
    rw [show (front ++ tail).text = front.text ++ tail.text from rfl, String.toList_append]
    exact List.not_mem_append hFront hTail
  exact {
    empty := List.not_mem_nil
    text := fun rule hRule text hText tail => hAppend _ tail (h rule hRule text hText)
    append := hAppend
    chosen := fun _ _ _ hTail => hTail }

/-- Choices are below the number of rules. -/
theorem inherited_choices_lt :
    Inherited rules fun sentence => ∀ choice ∈ sentence.choices, choice < rules.length where
  empty := fun _ hChoice => absurd hChoice List.not_mem_nil
  text := fun _ _ _ _ _ hTail => hTail
  append := fun _ _ hFront hTail => List.forall_mem_append.mpr ⟨hFront, hTail⟩
  chosen := fun _ hIndex _ hTail => List.forall_mem_cons.mpr ⟨hIndex, hTail⟩

/-! ## Sentences of a source -/

namespace Source

open PhraseGrammar.Text

theorem newline_not_mem_of_mem_generateAll (content : String) (bound : Option Nat) :
    ∀ sentence ∈ generateAll (parse content).rules bound, '\n' ∉ sentence.text.toList := by
  have hTexts : ∀ rule ∈ (parse content).rules, ∀ text, .terminal text ∈ rule.right →
      '\n' ∉ text.toList := fun rule hRule =>
    (canonicalRule_of_mem_parse content rule hRule).newline_not_mem
  exact (inherited_not_mem hTexts).of_mem_language (levels bound) startName

theorem length_pushFront_le (c : Char) (others : List (List Char)) :
    (pushFront c others).length ≤ others.length + 1 := by
  cases others <;> simp [pushFront]

/-- A line takes at least one character. -/
theorem length_lines_le (text : List Char) : (lines text).length ≤ text.length := by
  fun_induction lines text with
  | case1 => exact Nat.le_refl 0
  | case2 rest ih => simpa using ih
  | case3 rest ih =>
      simp only [List.length_cons]
      omega
  | case4 c rest _ _ ih =>
      exact (length_pushFront_le c _).trans (Nat.succ_le_succ ih)

theorem length_rules_parse_le (content : String) :
    (parse content).rules.length ≤ content.toList.length := by
  calc (parse content).rules.length
      = (ruleLines content.toList).length := List.length_map _
    _ ≤ (readLines content.toList).length := List.length_filterMap_le _ _
    _ ≤ (lines content.toList).length := by
        rw [readLines, List.length_map]
        exact (List.length_filter_le _ _).trans_eq List.length_zipIdx
    _ ≤ content.toList.length := length_lines_le _

/-- The choices fit into 64 bits if the number of characters does. -/
theorem fits_of_mem_generateAll {content : String} (hLength : content.length < 18446744073709551616)
    (bound : Option Nat) : ∀ sentence ∈ generateAll (parse content).rules bound, sentence.Fits := by
  intro sentence hSentence choice hChoice
  have hRules := inherited_choices_lt.of_mem_language (levels bound) startName sentence hSentence
    choice hChoice
  have hLe := length_rules_parse_le content
  rw [String.length_toList] at hLe
  omega

end Source

namespace Command

open PhraseGrammar.Json (Value)
open PhraseGrammar.Text

/-! ## Lines with choices -/

/-- The digits of choices behind the first. -/
def laterChoices (choices : List Nat) : List Char :=
  choices.flatMap fun choice => ',' :: ' ' :: Nat.toDigits 10 choice

theorem intercalate_toDigits_cons (first : Nat) (rest : List Nat) :
    [',', ' '].intercalate ((first :: rest).map (Nat.toDigits 10)) =
      Nat.toDigits 10 first ++ laterChoices rest := by
  induction rest generalizing first with
  | nil => simp [laterChoices, List.intercalate]
  | cons next rest ih =>
      rw [List.map_cons, List.map_cons, List.intercalate_cons_cons, ← List.map_cons, ih]
      simp [laterChoices]

theorem toList_showChoices (choices : List Nat) :
    (showChoices choices).toList =
      '[' :: ([',', ' '].intercalate (choices.map (Nat.toDigits 10)) ++ [']']) := by
  have hDigits : (choices.map toString).map String.toList = choices.map (Nat.toDigits 10) := by
    rw [List.map_map]
    exact List.map_congr_left fun choice _ => toList_toString choice
  rw [showChoices, String.toList_append, String.toList_append, String.toList_intercalate, hDigits]
  rfl

theorem head?_laterChoices (choices : List Nat) :
    ∀ c ∈ (laterChoices choices).head?, c.isDigit = false := by
  cases choices with
  | nil => rintro c ⟨⟩
  | cons choice rest =>
      rintro c ⟨⟩
      rfl

theorem laterChoices_injective : Function.Injective laterChoices := by
  intro first second h
  induction first generalizing second with
  | nil =>
      cases second with
      | nil => rfl
      | cons choice rest => cases h
  | cons choice rest ih =>
      cases second with
      | nil => cases h
      | cons other more =>
          rw [laterChoices, laterChoices, List.flatMap_cons, List.flatMap_cons] at h
          obtain ⟨rfl, hRest⟩ := eq_of_toDigits_append_eq (head?_laterChoices rest)
            (head?_laterChoices more) (List.cons.inj (List.cons.inj h).2).2
          rw [ih hRest]

/-- Choices that are written alike are the same. -/
theorem intercalate_toDigits_injective {first second : List Nat}
    (h : [',', ' '].intercalate (first.map (Nat.toDigits 10)) =
      [',', ' '].intercalate (second.map (Nat.toDigits 10))) : first = second := by
  have hNone : ∀ n rest, [] ≠ Nat.toDigits 10 n ++ laterChoices rest := fun n rest hEq =>
    Nat.toDigits_ne_nil (List.append_eq_nil_iff.mp hEq.symm).1
  cases first with
  | nil =>
      cases second with
      | nil => rfl
      | cons choice rest =>
          rw [intercalate_toDigits_cons] at h
          exact absurd h (hNone choice rest)
  | cons choice rest =>
      cases second with
      | nil =>
          rw [intercalate_toDigits_cons] at h
          exact absurd h.symm (hNone choice rest)
      | cons other more =>
          rw [intercalate_toDigits_cons, intercalate_toDigits_cons] at h
          obtain ⟨rfl, hRest⟩ := eq_of_toDigits_append_eq (head?_laterChoices rest)
            (head?_laterChoices more) h
          rw [laterChoices_injective hRest]

theorem mem_intercalate_toDigits {choices : List Nat} {c : Char}
    (hc : c ∈ [',', ' '].intercalate (choices.map (Nat.toDigits 10))) :
    c.isDigit = true ∨ c = ',' ∨ c = ' ' := by
  cases choices with
  | nil => cases hc
  | cons first rest =>
      rw [intercalate_toDigits_cons, List.mem_append, laterChoices, List.mem_flatMap] at hc
      rcases hc with hc | ⟨choice, -, hc⟩
      · exact Or.inl (isDigit_of_mem_toDigits hc)
      · rcases List.mem_cons.mp hc with rfl | hc
        · exact Or.inr (Or.inl rfl)
        · rcases List.mem_cons.mp hc with rfl | hc
          · exact Or.inr (Or.inr rfl)
          · exact Or.inl (isDigit_of_mem_toDigits hc)

/-- Texts are told apart at the last of their characters that what follows does not have. -/
theorem eq_of_append_cons_eq {c : Char} {front other rest more : List Char} (hRest : c ∉ rest)
    (hMore : c ∉ more) (h : front ++ c :: rest = other ++ c :: more) :
    front = other ∧ rest = more := by
  -- what stands between the two places would be in one of the texts behind them
  rcases List.append_eq_append_iff.mp h with ⟨between, rfl, hTail⟩ | ⟨between, rfl, hTail⟩
  · cases between with
    | nil => exact ⟨(List.append_nil front).symm, (List.cons.inj hTail).2⟩
    | cons d between => exact absurd (by simp [(List.cons.inj hTail).2]) hRest
  · cases between with
    | nil => exact ⟨List.append_nil other, (List.cons.inj hTail).2.symm⟩
    | cons d between => exact absurd (by simp [(List.cons.inj hTail).2]) hMore

theorem not_mem_intercalate_toDigits {c : Char} (hDigit : c.isDigit = false) (hComma : c ≠ ',')
    (hSpace : c ≠ ' ') (choices : List Nat) :
    c ∉ [',', ' '].intercalate (choices.map (Nat.toDigits 10)) := by
  intro hc
  rcases mem_intercalate_toDigits hc with h | h | h
  · rw [hDigit] at h
    contradiction
  · exact hComma h
  · exact hSpace h

/-- A line with choices is that of one sentence only. -/
theorem eq_of_choicesLine_eq {first second : Sentence}
    (h : first.text ++ " " ++ showChoices first.choices =
      second.text ++ " " ++ showChoices second.choices) : first = second := by
  have hBracket : ∀ choices : List Nat,
      '[' ∉ [',', ' '].intercalate (choices.map (Nat.toDigits 10)) ++ [']'] := fun choices =>
    List.not_mem_append (not_mem_intercalate_toDigits rfl (by decide) (by decide) choices)
      (by decide)
  have hChars := congrArg String.toList h
  rw [String.toList_append, String.toList_append, String.toList_append, String.toList_append,
    toList_showChoices, toList_showChoices] at hChars
  obtain ⟨hTexts, hChoices⟩ := eq_of_append_cons_eq (hBracket _) (hBracket _) hChars
  have hText : first.text = second.text := String.toList_injective (List.append_cancel_right hTexts)
  have hSame : first.choices = second.choices :=
    intercalate_toDigits_injective (List.append_cancel_right hChoices)
  calc first = ⟨first.text, first.choices⟩ := rfl
    _ = ⟨second.text, second.choices⟩ := by rw [hText, hSame]
    _ = second := rfl

/-! ## Printed lines -/

theorem newline_not_mem_sentenceLine {sentence : Sentence} (h : '\n' ∉ sentence.text.toList)
    (options : Options) : '\n' ∉ (sentenceLine options sentence).toList := by
  rw [sentenceLine]
  split
  · intro hMem
    exact absurd (Value.toNat_of_mem_write sentence.isPlain_toJson hMem) (by decide)
  split
  · rw [String.toList_append, String.toList_append, toList_showChoices]
    have hChoices := not_mem_intercalate_toDigits (c := '\n') rfl (by decide) (by decide)
      sentence.choices
    simp [h, hChoices]
  · exact h

/-- Lines without line feeds are what a line feed at the end of each tells apart. -/
theorem splitOn_printLines {lines : List String} (h : ∀ line ∈ lines, '\n' ∉ line.toList) :
    (printLines lines).toList.splitOn '\n' = lines.map String.toList ++ [[]] := by
  rw [printLines, String.toList_join]
  induction lines with
  | nil => rfl
  | cons line rest ih =>
      rw [List.forall_mem_cons] at h
      have hLine : (line ++ "\n").toList = line.toList ++ ['\n'] := String.toList_append
      rw [List.map_cons, List.flatMap_cons, hLine, List.append_assoc, List.singleton_append,
        List.splitOn_append_cons_self_of_not_mem h.1, ih h.2, List.map_cons, List.cons_append]

end Command

end PhraseGrammar
