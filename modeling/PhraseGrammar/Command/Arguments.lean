/-!
# Arguments of the command line

The program is called with a grammar file, a number of sentences and options, or with the word
`example` and a file to write. Options may stand anywhere, each at most once; an option with a
value takes it after an equals sign or from the next argument. Two dashes end the options, and
what follows them is never an option or a word of the program.

`parse?` gives the request that the arguments make, or `none` if they make none.
-/

set_option autoImplicit false

namespace PhraseGrammar.Command

/-- An option without a value. -/
inductive Flag where
  | all
  | unbounded
  | sequence
  | json
  | force
  deriving DecidableEq

/-- An option with a number as its value. -/
inductive Setting where
  | maxDepth
  | seed
  deriving DecidableEq

/-- What the arguments say about generating: the flags that are given, and the parts that have a
value. -/
structure Options where
  grammarFile : Option String := none
  count : Option Nat := none
  maxDepth : Option Nat := none
  seed : Option Nat := none
  flags : List Flag := []
  deriving DecidableEq

/-- What help is asked for: for the program, or for one of its words. -/
inductive Topic where
  | program
  | exampleWord
  | helpWord
  deriving DecidableEq

/-- What the program is asked to do. -/
inductive Request where
  | help (topic : Topic)
  | version
  | writeExample (path : Option String)
  | generate (options : Options)
  deriving DecidableEq

/-- The flag with a name. -/
def Flag.ofName? (name : String) : Option Flag :=
  if name = "all" then some all
  else if name = "unbounded" then some unbounded
  else if name = "sequence" then some sequence
  else if name = "json" then some json
  else if name = "force" then some force
  else none

/-- The setting with a name. -/
def Setting.ofName? (name : String) : Option Setting :=
  if name = "max-depth" then some maxDepth
  else if name = "seed" then some seed
  else none

/-- The number below `2 ^ 64` that the text writes in decimal, perhaps after a plus sign. -/
def number? (text : String) : Option Nat :=
  let digits := match text.toList with
    | '+' :: rest => rest
    | chars => chars
  if digits ≠ [] && digits.all Char.isDigit then
    let n := Nat.ofDigitChars 10 digits 0
    if n < 18446744073709551616 then some n else none
  else none

/-- What a single argument looks like. -/
inductive Argument where
  /-- Two dashes and nothing else. -/
  | separator
  /-- Two dashes and a name, perhaps with an equals sign and a value. -/
  | long (name : String) (value : Option String)
  /-- One dash and letters, of which this is the first. -/
  | short (letter : Char)
  /-- Anything else. -/
  | plain (text : String)
  deriving DecidableEq

/-- Looks at an argument. -/
def Argument.ofString (text : String) : Argument :=
  match text.toList with
  | ['-', '-'] => separator
  | '-' :: '-' :: rest =>
    let name := String.ofList (rest.takeWhile fun c => c ≠ '=')
    match rest.dropWhile fun c => c ≠ '=' with
    | [] => long name none
    | _ :: value => long name (some (String.ofList value))
  | '-' :: letter :: _ => short letter
  | _ => plain text

namespace Options

/-- Whether the flag is given. -/
def has (options : Options) (flag : Flag) : Bool :=
  options.flags.contains flag

/-- Adds a flag that is not given yet. -/
def addFlag (options : Options) (flag : Flag) : Option Options :=
  if options.has flag then none else some { options with flags := flag :: options.flags }

/-- Adds the value of a setting that has none yet. -/
def addSetting (options : Options) (setting : Setting) (value : String) : Option Options :=
  (number? value).bind fun n =>
    match setting, options.maxDepth, options.seed with
    | .maxDepth, none, _ => some { options with maxDepth := some n }
    | .seed, _, none => some { options with seed := some n }
    | _, _, _ => none

/-- Adds an argument that is no option: first the file, then the number of sentences. -/
def addOperand (options : Options) (text : String) : Option Options :=
  match options.grammarFile, options.count with
  | none, _ => if text = "" then none else some { options with grammarFile := some text }
  | some _, none => (number? text).map fun n => { options with count := some n }
  | some _, some _ => none

/-- Whether the options may stand together: a depth excludes having none. -/
def consistent (options : Options) : Bool :=
  options.maxDepth.isNone || !options.has .unbounded

/-- The request of the options once there are no more arguments. -/
def request? (options : Options) : Option Request :=
  if options.consistent then some (.generate options) else none

end Options

/-- The request to which words that ask for help lead: help with the program, or with one of its
words. -/
def helpRequest? : List String → Option Request
  | [] => some (.help .program)
  | [word] =>
    if word = "example" then some (.help .exampleWord)
    else if word = "help" then some (.help .helpWord)
    else none
  | _ => none

/-- Adds the path of the file to write, which is given at most once. -/
def addPath (path : Option String) (text : String) : Option (Option String) :=
  if path.isSome || text = "" then none else some (some text)

/-- Reads the arguments after the word `example`. -/
def parseExample? (options : Options) (path : Option String) : List String → Option Request
  | [] => if options.consistent then some (.writeExample path) else none
  | text :: rest =>
    match Argument.ofString text with
    | .separator =>
      (rest.foldlM addPath path).bind fun path =>
        if options.consistent then some (.writeExample path) else none
    | .long name none => if name = "help" then some (.help .exampleWord) else none
    | .long _ (some _) => none
    | .short letter => if letter = 'h' then some (.help .exampleWord) else none
    | .plain text => (addPath path text).bind fun path => parseExample? options path rest

/-- Reads arguments after those that the options come from. -/
def parseWith? (options : Options) : List String → Option Request
  | [] => options.request?
  | text :: rest =>
    match Argument.ofString text with
    | .separator => (rest.foldlM Options.addOperand options).bind Options.request?
    | .long name (some value) =>
      (Setting.ofName? name).bind fun setting =>
        (options.addSetting setting value).bind fun options => parseWith? options rest
    | .long name none =>
      if name = "help" then some (.help .program)
      else if name = "version" then some .version
      else
        match Flag.ofName? name, Setting.ofName? name, rest with
        | some flag, _, rest =>
          (options.addFlag flag).bind fun options => parseWith? options rest
        | none, some setting, value :: rest =>
          match Argument.ofString value with
          | .plain value =>
            (options.addSetting setting value).bind fun options => parseWith? options rest
          | _ => none
        | none, _, _ => none
    | .short letter =>
      if letter = 'h' then some (.help .program)
      else if letter = 'V' then some .version
      else none
    | .plain text =>
      if text = "example" then parseExample? options none rest
      else if text = "help" then helpRequest? rest
      else (options.addOperand text).bind fun options => parseWith? options rest

/-- The request that the arguments make. -/
def parse? (arguments : List String) : Option Request :=
  parseWith? {} arguments

end PhraseGrammar.Command
