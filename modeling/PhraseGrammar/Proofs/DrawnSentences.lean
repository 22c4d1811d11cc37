import PhraseGrammar.Proofs.Outcome
import PhraseGrammar.Proofs.SentenceReports

set_option autoImplicit false

/-! # Drawn sentences

Sentences are printed as they are drawn, so a failure would come after the sentences before it.
But whether drawing succeeds is a matter of the grammar, not of the numbers that are drawn: if
there is a sentence at all, every draw gives one, and if there is none, the first draw fails. So
either all sentences that were asked for are printed, each on a line that tells of it, or none is
(`drawing_run`).
-/

namespace PhraseGrammar.Command

open PhraseGrammar.Source PhraseGrammar.Text

variable {σ ω : Type} [FileSystem ω] {select : Selector σ} {start : Option Nat → σ} {world : ω}
  {arguments : List String} {options : Options} {content : String} {grammar : Grammar}

/-! ## Draws -/

/-- With numbers below their counts every draw gives a sentence, if there is one. -/
theorem exists_mem_generateWith_eq_ok (hBelow : AlwaysBelow select)
    (hSome : grammar.generateAll ≠ []) (state : σ) :
    ∃ sentence ∈ grammar.generateAll, (grammar.generateWith select state).value = .ok sentence := by
  obtain ⟨sentence, hOk⟩ := exists_generateWith_eq_ok_iff.mpr ⟨hSome, hBelow.inRange⟩
  obtain ⟨choices, hLeads⟩ := exists_leads_of_generateWith_eq_ok hOk
  exact ⟨sentence, mem_generateAll_of_leads_generate hLeads, hOk⟩

/-- Without any sentence every draw fails. -/
theorem exists_generateWith_eq_error (hNone : grammar.generateAll = []) (select : Selector σ)
    (state : σ) : ∃ failure, (grammar.generateWith select state).value = .error failure := by
  cases hValue : (grammar.generateWith select state).value with
  | error failure => exact ⟨failure, rfl⟩
  | ok sentence => exact absurd hNone (exists_generateWith_eq_ok_iff.mp ⟨sentence, hValue⟩).1

/-- The draws go on to the last one, each with a sentence. -/
theorem drawSentences_eq (hBelow : AlwaysBelow select) {count : Nat}
    (h : count = 0 ∨ grammar.generateAll ≠ []) (state : σ) :
    ∃ sentences, drawSentences select grammar count state = (sentences, none) ∧
      sentences.length = count ∧ ∀ sentence ∈ sentences, sentence ∈ grammar.generateAll := by
  induction count generalizing state with
  | zero => exact ⟨[], rfl, rfl, fun _ hSentence => absurd hSentence List.not_mem_nil⟩
  | succ count ih =>
      have hSome : grammar.generateAll ≠ [] := h.resolve_left (Nat.succ_ne_zero count)
      obtain ⟨first, hFirst, hOk⟩ := exists_mem_generateWith_eq_ok hBelow hSome state
      obtain ⟨rest, hRest, hLength, hMem⟩ :=
        ih (Or.inr hSome) (grammar.generateWith select state).state
      refine ⟨first :: rest, ?_, by rw [List.length_cons, hLength],
        List.forall_mem_cons.mpr ⟨hFirst, hMem⟩⟩
      simp only [drawSentences, hOk, hRest]

/-- The first draw is the last one. -/
theorem drawSentences_of_eq_nil (hNone : grammar.generateAll = []) (select : Selector σ)
    {count : Nat} (hCount : count ≠ 0) (state : σ) :
    ∃ failure, drawSentences select grammar count state = ([], some failure) := by
  obtain ⟨count, rfl⟩ := Nat.exists_eq_succ_of_ne_zero hCount
  obtain ⟨failure, hFailure⟩ := exists_generateWith_eq_error hNone select state
  exact ⟨failure, by simp only [drawSentences, hFailure]⟩

/-! ## Reports of draws -/

/-- The number of sentences that the options ask for. -/
def Options.drawn (options : Options) : Nat := options.count.getD 1

/-- Whether the sentences that are asked for can be drawn. -/
def Drawable (options : Options) (content : String) : Prop :=
  options.drawn = 0 ∨ (loaded options content).generateAll ≠ []

/-- The report prints all sentences that are asked for or none. -/
structure Drawing (options : Options) (content : String) (report : Report) : Prop where
  /-- It is a success exactly if the source is accepted and there is what to draw. -/
  code_eq_zero_iff : report.code = 0 ↔ Accepted options content ∧ Drawable options content
  /-- After a success each line feed ends the line of one sentence, and there are as many lines as
  are asked for. -/
  of_code_eq_zero : report.code = 0 →
    ∃ (lines : List String) (sentences : List Sentence),
      report.output.toList.splitOn '\n' = lines.map String.toList ++ [[]] ∧
        List.Forall₂ (Tells options) lines sentences ∧ lines.length = options.drawn ∧
          ∀ sentence ∈ sentences, sentence ∈ (loaded options content).generateAll
  /-- A failure prints nothing. -/
  of_code_ne_zero : report.code ≠ 0 → report.code = 1 ∧ report.output = ""
  /-- The choices fit into 64 bits if the number of characters does. -/
  fits : content.length < 18446744073709551616 →
    ∀ sentence ∈ (loaded options content).generateAll, sentence.Fits

theorem Drawing.of_failure {report : Report}
    (hNot : ¬ (Accepted options content ∧ Drawable options content))
    (hReport : report.code = 1 ∧ report.output = "") : Drawing options content report where
  code_eq_zero_iff := iff_of_false (by simp [hReport.1]) hNot
  of_code_eq_zero := fun hCode => absurd hCode (by simp [hReport.1])
  of_code_ne_zero := fun _ => hReport
  fits := fun hLength => fits_of_mem_generateAll hLength options.bound

theorem Drawing.of_success {report : Report} {sentences : List Sentence}
    (hBoth : Accepted options content ∧ Drawable options content)
    (hLength : sentences.length = options.drawn)
    (hMem : ∀ sentence ∈ sentences, sentence ∈ (loaded options content).generateAll)
    (hOutput : report.output = printLines (sentences.map (sentenceLine options)))
    (hCode : report.code = 0) : Drawing options content report where
  code_eq_zero_iff := iff_of_true hCode hBoth
  of_code_eq_zero := by
    intro _
    obtain ⟨lines, hSplit, hTells⟩ := exists_tells hMem
    rw [hOutput]
    exact ⟨lines, sentences, hSplit, hTells, hTells.length_eq.trans hLength, hMem⟩
  of_code_ne_zero := fun hFailed => absurd hCode hFailed
  fits := fun hLength => fits_of_mem_generateAll hLength options.bound

/-- The sentences of the draws are printed, and the code tells whether one failed. -/
theorem sentencesReport_of_draws (hAll : options.has .all = false) {state : σ} {messages : String}
    {sentences : List Sentence} {failure : Option GenerateError}
    (hDraws : drawSentences select grammar options.drawn state = (sentences, failure)) :
    (sentencesReport select state options grammar messages).output =
        printLines (sentences.map (sentenceLine options)) ∧
      (sentencesReport select state options grammar messages).code =
        if failure.isSome then 1 else 0 := by
  rw [sentencesReport, if_neg (by simp [hAll]), ← Options.drawn, hDraws]
  cases failure <;> exact ⟨rfl, rfl⟩

theorem Asks.drawing (h : Asks world arguments options content)
    (hAll : options.has .all = false) (hBelow : AlwaysBelow select) :
    Drawing options content (run select start world arguments).1 := by
  by_cases hAccepted : Accepted options content
  swap
  · exact .of_failure (mt And.left hAccepted) (h.run_of_not_accepted hAccepted)
  obtain ⟨messages, hRun⟩ := h.run_of_accepted hAccepted select start
  rw [hRun]
  by_cases hDrawable : Drawable options content
  · obtain ⟨sentences, hDraws, hLength, hMem⟩ :=
      drawSentences_eq hBelow hDrawable (start options.seed)
    obtain ⟨hOutput, hCode⟩ := sentencesReport_of_draws hAll hDraws
    exact .of_success ⟨hAccepted, hDrawable⟩ hLength hMem hOutput hCode
  · obtain ⟨hCount, hNone⟩ := not_or.mp hDrawable
    obtain ⟨failure, hDraws⟩ :=
      drawSentences_of_eq_nil (not_not.mp hNone) select hCount (start options.seed)
    obtain ⟨hOutput, hCode⟩ := sentencesReport_of_draws hAll hDraws
    exact .of_failure (mt And.right hDrawable) ⟨hCode, hOutput⟩

/-- **Either all sentences that are asked for are printed or none is.** Which of the two it is
depends on the source, on the bound and on whether any sentence is asked for, but on no number that
is drawn, as long as each is below its count. The numbers of dice are, and the words of a command
line are arguments that ask for what the command line says. -/
theorem drawing_run :
    (∀ (σ ω : Type) [FileSystem ω] (select : Selector σ) (start : Option Nat → σ) (world : ω)
        (arguments : List String) (options : Options) (content : String),
      Asks world arguments options content → options.has .all = false → AlwaysBelow select →
        Drawing options content (run select start world arguments).1) ∧
    AlwaysBelow throwDice ∧
    ∀ (line : CommandLine) (ω : Type) [FileSystem ω] (world : ω) (content : String),
      line.WellFormed → FileSystem.read world line.path = .ok content →
        Asks world line.words line.options content ∧ line.Describes line.options := by
  refine ⟨?_, throwDice_alwaysBelow, ?_⟩
  · intro σ ω _ select start world arguments options content hAsks hAll hBelow
    exact hAsks.drawing hAll hBelow
  · intro line ω _ world content hLine hRead
    exact ⟨hLine.asks hRead, hLine.describes⟩

/-- Three sentences by a seed, although the name that is used has no rule. -/
def forcedLine : CommandLine :=
  { path := "g", count := some 3, seed := some 7, flags := [.force, .json] }

theorem wellFormed_forcedLine : forcedLine.WellFormed where
  path_plain := by decide
  path_ne_empty := by decide
  path_ne_example := by decide
  path_ne_help := by decide
  count_lt := by simp [forcedLine]
  depth_lt := by simp [forcedLine, Depth.number]
  seed_lt := by simp [forcedLine]
  flags_nodup := by decide
  unbounded_not_mem := by decide

/-- The report of the command line where its file has the text, with dice. -/
def forcedReport (content : String) : Report :=
  (run throwDice (fun seed => .ofSeed (seed.getD 0)) (oneFile content) forcedLine.words).1

/-- A name without rules, and a text with a quotation mark. -/
def halfSource : String := "$SENTENCE -> $GONE\n$SENTENCE -> \""

/-- One alternative leads to a name without rules, and the other is read back from each line;
without it nothing is printed. -/
theorem drawing_run_forcedLine :
    forcedLine.words = ["g", "3", "--seed", "7", "--force", "--json"] ∧
      (forcedReport halfSource).code = 0 ∧
      (∃ lines : List String,
        (forcedReport halfSource).output.toList.splitOn '\n' =
            lines.map String.toList ++ [[]] ∧
          lines.length = 3 ∧
          ∀ line ∈ lines, decode? Sentence.ofJson? line = some ⟨"\"", [1]⟩) ∧
      (forcedReport "$SENTENCE -> $GONE").code = 1 ∧
      (forcedReport "$SENTENCE -> $GONE").output = "" := by
  obtain ⟨hDrawing, hDice, hWords⟩ := drawing_run
  have hReport : ∀ content, Drawing forcedLine.options content (forcedReport content) := by
    intro content
    obtain ⟨hAsks, -⟩ :=
      hWords forcedLine _ _ content wellFormed_forcedLine (read_oneFile content)
    exact hDrawing _ _ throwDice _ _ _ _ content hAsks (by decide) hDice
  have hSome := hReport halfSource
  have hNone := hReport "$SENTENCE -> $GONE"
  have hAll : (loaded forcedLine.options halfSource).generateAll = [⟨"\"", [1]⟩] := by
    decide +kernel
  have hPrinted : (forcedReport halfSource).code = 0 := by
    refine hSome.code_eq_zero_iff.mpr ⟨Or.inr (by decide), Or.inr ?_⟩
    rw [hAll]
    exact List.cons_ne_nil _ _
  have hFailed : (forcedReport "$SENTENCE -> $GONE").code ≠ 0 := by
    rw [Ne, hNone.code_eq_zero_iff]
    exact fun hBoth => hBoth.2.elim (by decide) (absurd (by decide +kernel))
  obtain ⟨lines, sentences, hSplit, hTells, hLength, hMem⟩ := hSome.of_code_eq_zero hPrinted
  have hRead : ∀ line ∈ lines, decode? Sentence.ofJson? line = some ⟨"\"", [1]⟩ := by
    intro line hLine
    obtain ⟨index, hIndex, rfl⟩ := List.getElem_of_mem hLine
    have hSame : index < sentences.length := hTells.length_eq ▸ hIndex
    have hTold : Tells forcedLine.options lines[index] sentences[index] := hTells.get hIndex hSame
    have hOne := hMem _ (List.getElem_mem hSame)
    have hFits := hSome.fits (by decide) _ hOne
    rw [hAll, List.mem_singleton] at hOne
    rw [(hTold.json (by decide)).2 hFits, hOne]
  exact ⟨by decide +kernel, hPrinted, ⟨lines, hSplit, hLength, hRead⟩,
    hNone.of_code_ne_zero hFailed⟩

end PhraseGrammar.Command
