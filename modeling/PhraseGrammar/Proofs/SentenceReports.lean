import PhraseGrammar.Proofs.SentenceLines
import PhraseGrammar.Selector

set_option autoImplicit false

/-! # Reports of sentences

Where arguments ask for sentences of a file, the job is to read that file (`job_eq_read`), whatever
world of files it is in. The report then depends on the text of the file and on the options alone,
and on whether the source is accepted: it has no fault, or the options force it. From a source that
is not accepted nothing is printed.

Lines that are printed tell of the sentences that they are printed for (`exists_tells`). This module
settles what is printed when all sentences are asked for (`listing_run`).
-/

namespace PhraseGrammar.Command

open PhraseGrammar.Source PhraseGrammar.Text

variable {σ ω : Type} [FileSystem ω] {select : Selector σ} {start : Option Nat → σ} {world : ω}
  {arguments : List String} {options : Options} {content : String}

/-! ## Asking for sentences -/

/-- The arguments ask for sentences of a file with this text, by these options. -/
structure Asks {ω : Type} [FileSystem ω] (world : ω) (arguments : List String) (options : Options)
    (content : String) : Prop where
  request : parse? arguments = some (.generate options)
  file : ∃ path, options.grammarFile = some path ∧ FileSystem.read world path = .ok content

/-- The words of a command line ask for what it stands for. -/
theorem CommandLine.WellFormed.asks {line : CommandLine} (h : line.WellFormed)
    (hRead : FileSystem.read world line.path = .ok content) :
    Asks world line.words line.options content where
  request := CommandLine.parse?_words h
  file := ⟨line.path, rfl, hRead⟩

/-- Sentences of the source are generated if it has no fault or the options force it. -/
def Accepted (options : Options) (content : String) : Prop :=
  (parse content).faults = [] ∨ options.has .force = true

/-- The grammar that is generated from: the rules of the source within the bound of the options. -/
def loaded (options : Options) (content : String) : Grammar :=
  { rules := (parse content).rules, bound := options.bound }

theorem sourceReport_of_not_accepted {state : σ} {path messages : String}
    (h : ¬ Accepted options content) :
    (sourceReport select state options path content messages).code = 1 ∧
      (sourceReport select state options path content messages).output = "" := by
  obtain ⟨hFaults, hForce⟩ := not_or.mp h
  have hRefused : (!(parse content).isValid && !options.has .force) = true := by
    simp [Parsed.isValid, hFaults, hForce]
  rw [sourceReport, if_pos hRefused]
  exact ⟨rfl, rfl⟩

theorem sourceReport_of_accepted {state : σ} {path messages : String}
    (h : Accepted options content) :
    ∃ more, sourceReport select state options path content messages =
      sentencesReport select state options (loaded options content) more := by
  have hAccepted : ¬ (!(parse content).isValid && !options.has .force) = true := by
    rcases h with hFaults | hForce
    · simp [Parsed.isValid, hFaults]
    · simp [hForce]
  rw [sourceReport, if_neg hAccepted]
  exact ⟨_, rfl⟩

/-- To generate by options is to read their file and to report on what is found there. -/
theorem job_eq_read {path : String} (hRequest : parse? arguments = some (.generate options))
    (hFile : options.grammarFile = some path) (select : Selector σ) (start : Option Nat → σ) :
    job select start arguments =
      .read path (fileReport select (start options.seed) options path) := by
  rw [job, hRequest]
  simp only [hFile]

theorem Asks.run_eq (h : Asks world arguments options content) (select : Selector σ)
    (start : Option Nat → σ) :
    ∃ path messages, (run select start world arguments).1 =
      sourceReport select (start options.seed) options path content messages := by
  obtain ⟨path, hFile, hRead⟩ := h.file
  rw [run, job_eq_read h.request hFile, Job.within, hRead]
  exact ⟨path, _, rfl⟩

/-- From a source that is not accepted nothing is printed. -/
theorem Asks.run_of_not_accepted (h : Asks world arguments options content)
    (hRefused : ¬ Accepted options content) :
    (run select start world arguments).1.code = 1 ∧
      (run select start world arguments).1.output = "" := by
  obtain ⟨path, messages, hRun⟩ := h.run_eq select start
  rw [hRun]
  exact sourceReport_of_not_accepted hRefused

theorem Asks.run_of_accepted (h : Asks world arguments options content)
    (hAccepted : Accepted options content) (select : Selector σ) (start : Option Nat → σ) :
    ∃ messages, (run select start world arguments).1 =
      sentencesReport select (start options.seed) options (loaded options content) messages := by
  obtain ⟨path, messages, hRun⟩ := h.run_eq select start
  rw [hRun]
  exact sourceReport_of_accepted hAccepted

/-! ## Lines of sentences -/

/-- What a line tells of a sentence under the options: all of it, or its text. -/
structure Tells (options : Options) (line : String) (sentence : Sentence) : Prop where
  /-- A JSON line is read back, whatever other options there are. -/
  json : options.has .json = true → line = sentence.toJson.write ∧
    (sentence.Fits → decode? Sentence.ofJson? line = some sentence)
  /-- A line with the choices is that of no other sentence. -/
  sequence : options.has .json = false → options.has .sequence = true →
    line = sentence.text ++ " " ++ showChoices sentence.choices ∧
      ∀ other : Sentence, line = other.text ++ " " ++ showChoices other.choices → other = sentence
  /-- Otherwise the line is the text. -/
  text : options.has .json = false → options.has .sequence = false → line = sentence.text

theorem tells_sentenceLine (options : Options) (sentence : Sentence) :
    Tells options (sentenceLine options sentence) sentence where
  json := fun hJson => by
    rw [sentenceLine, if_pos hJson]
    exact ⟨rfl, Sentence.roundTrips.decode?_write sentence⟩
  sequence := fun hJson hSequence => by
    rw [sentenceLine, if_neg (by simp [hJson]), if_pos hSequence]
    exact ⟨rfl, fun other hLine => eq_of_choicesLine_eq hLine.symm⟩
  text := fun hJson hSequence => by
    rw [sentenceLine, if_neg (by simp [hJson]), if_neg (by simp [hSequence])]

/-- Sentences of a source are printed as lines that the line feeds tell apart, and each line tells
of its sentence. -/
theorem exists_tells {sentences : List Sentence}
    (h : ∀ sentence ∈ sentences, sentence ∈ (loaded options content).generateAll) :
    ∃ lines : List String,
      (printLines (sentences.map (sentenceLine options))).toList.splitOn '\n' =
          lines.map String.toList ++ [[]] ∧
        List.Forall₂ (Tells options) lines sentences := by
  refine ⟨sentences.map (sentenceLine options), ?_, ?_⟩
  · refine splitOn_printLines (List.forall_mem_map.mpr fun sentence hSentence => ?_)
    exact newline_not_mem_sentenceLine
      (newline_not_mem_of_mem_generateAll content _ sentence (h sentence hSentence)) options
  · rw [List.forall₂_map_left_iff, List.forall₂_same]
    exact fun sentence _ => tells_sentenceLine options sentence

/-! ## All sentences -/

/-- The report lists the sentences of the source, one a line. -/
structure Listing (options : Options) (content : String) (report : Report) : Prop where
  /-- From a source with faults nothing is printed, unless it is forced. -/
  refused : ¬ Accepted options content → report.code = 1 ∧ report.output = ""
  /-- Otherwise each line feed ends the line of one sentence, in the order of the enumeration. -/
  listed : Accepted options content →
    report.code = 0 ∧ ∃ lines : List String,
      report.output.toList.splitOn '\n' = lines.map String.toList ++ [[]] ∧
        List.Forall₂ (Tells options) lines (loaded options content).generateAll
  /-- No text of a sentence has a line feed. -/
  newline_not_mem : ∀ sentence ∈ (loaded options content).generateAll,
    '\n' ∉ sentence.text.toList
  /-- The choices fit into 64 bits if the number of characters does. -/
  fits : content.length < 18446744073709551616 →
    ∀ sentence ∈ (loaded options content).generateAll, sentence.Fits

theorem Asks.listing (h : Asks world arguments options content)
    (hAll : options.has .all = true) :
    Listing options content (run select start world arguments).1 where
  refused := h.run_of_not_accepted
  listed := fun hAccepted => by
    obtain ⟨messages, hRun⟩ := h.run_of_accepted hAccepted select start
    rw [hRun, sentencesReport, if_pos hAll]
    exact ⟨rfl, exists_tells fun _ hSentence => hSentence⟩
  newline_not_mem := newline_not_mem_of_mem_generateAll content options.bound
  fits := fun hLength => fits_of_mem_generateAll hLength options.bound

/-- **All sentences are printed, one a line.** If the arguments ask for all sentences of a file,
in whatever form they are written and in whatever world the file is, the output is the enumeration
of the sentences within the bound, or nothing if the source is not accepted. The words of a command
line are arguments that ask for what the command line says. -/
theorem listing_run :
    (∀ (σ ω : Type) [FileSystem ω] (select : Selector σ) (start : Option Nat → σ) (world : ω)
        (arguments : List String) (options : Options) (content : String),
      Asks world arguments options content → options.has .all = true →
        Listing options content (run select start world arguments).1) ∧
    ∀ (line : CommandLine) (ω : Type) [FileSystem ω] (world : ω) (content : String),
      line.WellFormed → FileSystem.read world line.path = .ok content →
        Asks world line.words line.options content ∧ line.Describes line.options := by
  constructor
  · intro σ ω _ select start world arguments options content hAsks hAll
    exact hAsks.listing hAll
  · intro line ω _ world content hLine hRead
    exact ⟨hLine.asks hRead, hLine.describes⟩

/-- A directory with the text in its only file. -/
def oneFile (content : String) : Directory := ⟨[("g", content.toUTF8)]⟩

theorem read_oneFile (content : String) :
    FileSystem.read (oneFile content) "g" = .ok content := by
  have hPlace : place "g" = .entry "g" false := by decide +kernel
  exact Directory.read_toUTF8 hPlace rfl

/-- Texts with a vertical tab, a line separator, a quotation mark and brackets. -/
def separatedSource : String :=
  "$SENTENCE -> $WORD\x0b$WORD [0]\n$WORD -> a\u2028\\\r\n$WORD -> \"\x1f"

/-- All sentences within two levels, each with its choices. -/
def separatedLine : CommandLine :=
  { path := "g", depth := .atMost 2, flags := [.sequence, .all] }

theorem wellFormed_separatedLine : separatedLine.WellFormed where
  path_plain := by decide
  path_ne_empty := by decide
  path_ne_example := by decide
  path_ne_help := by decide
  count_lt := by simp [separatedLine]
  depth_lt := by simp [separatedLine, Depth.number]
  seed_lt := by simp [separatedLine]
  flags_nodup := by decide
  unbounded_not_mem := by decide

/-- The report of the command line where its file has the text. -/
def separatedReport (content : String) : Report :=
  (run replay (fun _ => []) (oneFile content) separatedLine.words).1

/-- Four sentences are four lines, and a source with a fault gives none. -/
theorem listing_run_separatedSource :
    separatedLine.words = ["g", "--max-depth", "2", "--sequence", "--all"] ∧
      (∃ lines : List String,
        (separatedReport separatedSource).output.toList.splitOn '\n' =
            lines.map String.toList ++ [[]] ∧
          lines.length = 4) ∧
      (separatedReport "$SENTENCE").output = "" := by
  obtain ⟨hListing, hWords⟩ := listing_run
  have hReport : ∀ content, Listing separatedLine.options content (separatedReport content) := by
    intro content
    obtain ⟨hAsks, -⟩ :=
      hWords separatedLine _ _ content wellFormed_separatedLine (read_oneFile content)
    exact hListing _ _ replay (fun _ => []) _ _ _ content hAsks (by decide)
  refine ⟨by decide +kernel, ?_, ?_⟩
  · have hAccepted : Accepted separatedLine.options separatedSource := Or.inl (by decide +kernel)
    have hLength : (loaded separatedLine.options separatedSource).generateAll.length = 4 := by
      decide +kernel
    obtain ⟨-, lines, hSplit, hTells⟩ := (hReport separatedSource).listed hAccepted
    exact ⟨lines, hSplit, hTells.length_eq.trans hLength⟩
  · have hRefused : ¬ Accepted separatedLine.options "$SENTENCE" :=
      not_or.mpr ⟨by decide +kernel, by decide⟩
    exact ((hReport "$SENTENCE").refused hRefused).2

end PhraseGrammar.Command
