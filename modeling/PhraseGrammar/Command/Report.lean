import PhraseGrammar.Command.Arguments
import PhraseGrammar.Example
import PhraseGrammar.Grammar
import PhraseGrammar.Json.Codec

/-!
# Reports of the command line

What the program prints, and the code that it exits with. Sentences go to the output, one a line;
all else but help goes to the messages. A failure is the last message, and sentences that were
printed before it stay printed.

Arguments give a `Job`: what file the program reads or writes, and what it reports of the outcome.
The same job is done in any world with files.
-/

set_option autoImplicit false

namespace PhraseGrammar.Command

open PhraseGrammar.Text

/-- What the program prints, and its exit code: zero for success, one for a failure, two for
arguments that make no request. -/
structure Report where
  code : Nat
  output : String
  messages : String
  deriving DecidableEq

/-! ## Failures -/

/-- A file problem as the last message shows it. -/
def showFileProblem : FileProblem → String
  | .notFound =>
    "Os \x7b code: 2, kind: NotFound, message: \"No such file or directory\" \x7d"
  | .notDirectory =>
    "Os \x7b code: 20, kind: NotADirectory, message: \"Not a directory\" \x7d"
  | .isDirectory =>
    "Os \x7b code: 21, kind: IsADirectory, message: \"Is a directory\" \x7d"
  | .notText =>
    "Error \x7b kind: InvalidData, message: \"stream did not contain valid UTF-8\" \x7d"

/-- A failure to generate as the last message shows it. -/
def showGenerateError : GenerateError → String
  | .missingStartRule => "MissingStartRule(\"" ++ startName ++ "\")"
  | .noDerivableSentence => "NoDerivableSentence"
  | .selectionOutOfRange index candidates =>
    "SelectionOutOfRange \x7b index: " ++ toString index ++ ", candidates: " ++ toString candidates
      ++ " \x7d"

/-- The last message of a failed run. -/
def failureLine (shown : String) : String := "Error: " ++ shown ++ "\n"

/-- A failure whose last message is a plain text, in quotation marks. -/
def failureText (text : String) : String := failureLine ("\"" ++ text ++ "\"")

/-! ## Sentences -/

/-- The choices as a list between brackets. -/
def showChoices (choices : List Nat) : String :=
  "[" ++ ", ".intercalate (choices.map toString) ++ "]"

/-- The line of a sentence, without its line feed. -/
def sentenceLine (options : Options) (sentence : Sentence) : String :=
  if options.has .json then sentence.toJson.write
  else if options.has .sequence then sentence.text ++ " " ++ showChoices sentence.choices
  else sentence.text

/-- Lines as they are printed. -/
def printLines (lines : List String) : String :=
  String.join (lines.map fun line => line ++ "\n")

/-- Generates up to `count` sentences one after the other, up to the first failure. -/
def drawSentences {σ : Type} (select : Selector σ) (grammar : Grammar) :
    Nat → σ → List Sentence × Option GenerateError
  | 0, _ => ([], none)
  | count + 1, state =>
    let run := grammar.generateWith select state
    match run.value with
    | .error failure => ([], some failure)
    | .ok sentence =>
      let rest := drawSentences select grammar count run.state
      (sentence :: rest.1, rest.2)

/-! ## Requests -/

/-- The levels that the options ask for. -/
def Options.bound (options : Options) : Option Nat :=
  if options.has .unbounded then none else some (options.maxDepth.getD defaultDepth)

/-- The report of printing sentences of a grammar, after the messages so far. -/
def sentencesReport {σ : Type} (select : Selector σ) (state : σ) (options : Options)
    (grammar : Grammar) (messages : String) : Report :=
  let lines := fun sentences => printLines (sentences.map (sentenceLine options))
  if options.has .all then ⟨0, lines grammar.generateAll, messages⟩
  else
    match drawSentences select grammar (options.count.getD 1) state with
    | (sentences, none) => ⟨0, lines sentences, messages⟩
    | (sentences, some failure) =>
      ⟨1, lines sentences, messages ++ failureLine (showGenerateError failure)⟩

/-- The report of generating from a source that was read from the path. -/
def sourceReport {σ : Type} (select : Selector σ) (state : σ) (options : Options)
    (path source : String) (messages : String) : Report :=
  let parsed := Source.parse source
  let messages := messages
    ++ printLines (parsed.faults.map fun fault => path ++ ": " ++ fault.message)
  if !parsed.isValid && !options.has .force then
    ⟨1, "", messages ++ failureText
      (toString parsed.faults.length ++ " error(s) in grammar, not generating")⟩
  else
    sentencesReport select state options { rules := parsed.rules, bound := options.bound }
      (messages ++ "Loaded " ++ toString parsed.rules.length ++ " rules.\n")

/-- The report of generating by the options, given what came of reading the file at the path. -/
def fileReport {σ : Type} (select : Selector σ) (state : σ) (options : Options) (path : String)
    (content : Except FileProblem String) : Report :=
  let messages := "Loading grammar from " ++ path ++ "...\n"
  match content with
  | .error problem => ⟨1, "", messages ++ failureLine (showFileProblem problem)⟩
  | .ok source => sourceReport select state options path source messages

/-- The report of generating without a file. -/
def missingFileReport : Report := ⟨1, "", failureText "Grammar file path required"⟩

/-- The path that the example grammar is written to if none is given. -/
def examplePath : String := "example_insults_grammar.txt"

/-- The report of writing the example grammar to the path, given what came of it. -/
def exampleReport (path : String) : Except FileProblem Unit → Report
  | .ok () => ⟨0, "", "Created example grammar at: " ++ path ++ "\n"⟩
  | .error problem => ⟨1, "", failureLine (showFileProblem problem)⟩

/-! ## Help -/

/-- The lines of the help for a topic. -/
def helpLines : Topic → List String
  | .program =>
    ["Compiles a small grammar DSL of insult templates and generates sentences from it",
      "",
      "Usage: abuse [OPTIONS] [GRAMMAR_FILE] [COUNT] [COMMAND]",
      "",
      "Commands:",
      "  example  Write the bundled example grammar to a file",
      "  help     Print this message or the help of the given subcommand(s)",
      "",
      "Arguments:",
      "  [GRAMMAR_FILE]  Path to the grammar file",
      "  [COUNT]         Number of sentences to generate [default: 1]",
      "",
      "Options:",
      "      --all                    " ++
        "Print every sentence the grammar can produce instead of random ones",
      "      --max-depth <MAX_DEPTH>  Maximum nesting of rule expansions [default: 10]",
      "      --unbounded              " ++
        "Expand without a depth limit (cyclic grammars may never finish)",
      "      --seed <SEED>            Seed for reproducible output",
      "      --sequence               Print the sequence of choices after each sentence",
      "      --json                   Print each result as a JSON object",
      "      --force                  Generate even if the grammar has errors",
      "  -h, --help                   Print help",
      "  -V, --version                Print version"]
  | .exampleWord =>
    ["Write the bundled example grammar to a file",
      "",
      "Usage: abuse example [OUTPUT]",
      "",
      "Arguments:",
      "  [OUTPUT]  Output file path",
      "",
      "Options:",
      "  -h, --help  Print help"]
  | .helpWord =>
    ["Print this message or the help of the given subcommand(s)",
      "",
      "Usage: abuse help [COMMAND]...",
      "",
      "Arguments:",
      "  [COMMAND]...  Print help for the subcommand(s)"]

/-- The report of a request for help. -/
def helpReport (topic : Topic) : Report := ⟨0, printLines (helpLines topic), ""⟩

/-- The report of a request for the version. -/
def versionReport : Report := ⟨0, "abuse 0.1.0\n", ""⟩

/-- The report of arguments that make no request. It says where help is to be found, and not what
is wrong with the arguments. -/
def usageReport : Report := ⟨2, "", "For more information, try '--help'.\n"⟩

/-! ## Jobs -/

/-- What the program does to have its report: nothing, or it reads or writes one file. -/
inductive Job where
  | done (report : Report)
  | read (path : String) (next : Except FileProblem String → Report)
  | write (path text : String) (next : Except FileProblem Unit → Report)

/-- The job that the arguments give. The selector starts from the state for the given seed. -/
def job {σ : Type} (select : Selector σ) (start : Option Nat → σ) (arguments : List String) :
    Job :=
  match parse? arguments with
  | none => .done usageReport
  | some (.help topic) => .done (helpReport topic)
  | some .version => .done versionReport
  | some (.writeExample path) =>
    let path := path.getD examplePath
    .write path exampleSource (exampleReport path)
  | some (.generate options) =>
    match options.grammarFile with
    | none => .done missingFileReport
    | some path => .read path (fileReport select (start options.seed) options path)

/-- Does the job in a world with files. -/
def Job.within {ω : Type} [FileSystem ω] (world : ω) : Job → Report × ω
  | .done report => (report, world)
  | .read path next => (next (FileSystem.read world path), world)
  | .write path text next =>
    match FileSystem.write world path text with
    | .ok written => (next (.ok ()), written)
    | .error problem => (next (.error problem), world)

/-- Runs the program on its arguments in a world with files. -/
def run {σ ω : Type} [FileSystem ω] (select : Selector σ) (start : Option Nat → σ) (world : ω)
    (arguments : List String) : Report × ω :=
  (job select start arguments).within world

end PhraseGrammar.Command
