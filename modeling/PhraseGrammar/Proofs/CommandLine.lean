import PhraseGrammar.Command.Report
import PhraseGrammar.Proofs.Decimal

set_option autoImplicit false

/-! # Command lines

A `CommandLine` has a file, perhaps a number of sentences, a depth, perhaps a seed, and flags.
There are other ways to write the same, but its `words` are read as the options that it stands for
(`parse?_words`), and these say what the command line says (`WellFormed.describes`).
-/

namespace PhraseGrammar.Command

open PhraseGrammar.Text

/-! ## Numbers -/

/-- A number below `2 ^ 64` is read back from its digits. -/
theorem number?_toString {n : Nat} (hn : n < 18446744073709551616) :
    number? (toString n) = some n := by
  have hDigits : ∀ c ∈ Nat.toDigits 10 n, c.isDigit = true := fun _ => isDigit_of_mem_toDigits
  have hPlus : ∀ rest, Nat.toDigits 10 n ≠ '+' :: rest := fun rest hEq =>
    absurd (hDigits '+' (hEq ▸ List.mem_cons_self)) (by decide)
  rw [number?, toList_toString]
  split
  next rest hEq => exact absurd hEq (hPlus rest)
  next =>
    rw [if_pos (by simp [Nat.toDigits_ne_nil, List.all_eq_true.mpr hDigits]),
      Nat.ofDigitChars_ten_toDigits, if_pos hn]

/-- Digits look like an operand. -/
theorem ofString_toString (n : Nat) : Argument.ofString (toString n) = .plain (toString n) := by
  obtain ⟨c, rest, hEq, hc, -⟩ := exists_toDigits_eq_cons n
  have hDash : c ≠ '-' := by
    rintro rfl
    exact absurd hc (by decide)
  rw [Argument.ofString, toList_toString, hEq]
  split
  all_goals simp_all

theorem toString_ne {n : Nat} {word : String} (hWord : ¬ word.toList.all Char.isDigit = true) :
    toString n ≠ word := by
  rintro rfl
  rw [toList_toString] at hWord
  exact hWord (List.all_eq_true.mpr fun _ => isDigit_of_mem_toDigits)

/-! ## Words -/

/-- The name of a flag. -/
def Flag.name : Flag → String
  | all => "all"
  | unbounded => "unbounded"
  | sequence => "sequence"
  | json => "json"
  | force => "force"

/-- The name of a setting. -/
def Setting.name : Setting → String
  | maxDepth => "max-depth"
  | seed => "seed"

/-- The word of an option: two dashes and its name. -/
def optionWord (name : String) : String := "--" ++ name

/-- Two dashes and a name without an equals sign look like an option without a value. -/
theorem ofString_optionWord {name : String} (hName : name ≠ "") (hEquals : '=' ∉ name.toList) :
    Argument.ofString (optionWord name) = .long name none := by
  obtain ⟨c, rest, hEq⟩ := List.exists_cons_of_ne_nil (mt String.toList_eq_nil_iff.mp hName)
  have hList : (optionWord name).toList = '-' :: '-' :: c :: rest := by
    rw [optionWord, String.toList_append, hEq]
    rfl
  rw [hEq] at hEquals
  have hAll : ∀ d ∈ c :: rest, decide (d ≠ '=') = true := fun d hd =>
    decide_eq_true fun hSame => hEquals (hSame ▸ hd)
  rw [Argument.ofString, hList]
  simp only [List.takeWhile_eq_self_iff.mpr hAll, List.dropWhile_eq_nil_iff.mpr hAll]
  rw [← hEq, String.ofList_toList]

theorem Flag.ofString_word (flag : Flag) :
    Argument.ofString (optionWord flag.name) = .long flag.name none := by
  cases flag <;> exact ofString_optionWord (by decide) (by decide)

theorem Setting.ofString_word (setting : Setting) :
    Argument.ofString (optionWord setting.name) = .long setting.name none := by
  cases setting <;> exact ofString_optionWord (by decide) (by decide)

theorem parseWith?_flag (options : Options) (flag : Flag) (rest : List String) :
    parseWith? options (optionWord flag.name :: rest) =
      (options.addFlag flag).bind fun options => parseWith? options rest := by
  have hName : flag.name ≠ "help" ∧ flag.name ≠ "version" ∧ Flag.ofName? flag.name = some flag := by
    cases flag <;> decide
  rw [parseWith?, flag.ofString_word]
  simp only [if_neg hName.1, if_neg hName.2.1, hName.2.2]

theorem parseWith?_setting (options : Options) (setting : Setting) (n : Nat)
    (rest : List String) :
    parseWith? options (optionWord setting.name :: toString n :: rest) =
      (options.addSetting setting (toString n)).bind fun options => parseWith? options rest := by
  have hName : setting.name ≠ "help" ∧ setting.name ≠ "version" ∧ Flag.ofName? setting.name = none ∧
      Setting.ofName? setting.name = some setting := by
    cases setting <;> decide
  rw [parseWith?, setting.ofString_word]
  simp only [if_neg hName.1, if_neg hName.2.1, hName.2.2, ofString_toString]

/-- An operand that is no word of the program. -/
theorem parseWith?_operand {text : String} (hPlain : Argument.ofString text = .plain text)
    (hExample : text ≠ "example") (hHelp : text ≠ "help") (options : Options)
    (rest : List String) :
    parseWith? options (text :: rest) =
      (options.addOperand text).bind fun options => parseWith? options rest := by
  rw [parseWith?, hPlain]
  simp only [if_neg hExample, if_neg hHelp]

/-! ## Command lines -/

/-- How many levels are asked for: ten by default, a number, or any. -/
inductive Depth where
  | default
  | atMost (n : Nat)
  | unbounded
  deriving DecidableEq

namespace Depth

/-- The number after the option for it. -/
def number : Depth → Option Nat
  | atMost n => some n
  | default | unbounded => none

/-- The flags that ask for the depth. -/
def flags : Depth → List Flag
  | unbounded => [.unbounded]
  | default | atMost _ => []

/-- The levels that are asked for. -/
def bound : Depth → Option Nat
  | default => some 10
  | atMost n => some n
  | unbounded => none

end Depth

/-- The value of a setting in the options. -/
def Options.value? (options : Options) : Setting → Option Nat
  | .maxDepth => options.maxDepth
  | .seed => options.seed

/-- The options with this value of a setting. -/
def Options.withValue (options : Options) (setting : Setting) (value : Option Nat) : Options :=
  match setting with
  | .maxDepth => { options with maxDepth := value }
  | .seed => { options with seed := value }

theorem Options.withValue_none {options : Options} {setting : Setting}
    (h : options.value? setting = none) : options.withValue setting none = options := by
  cases options
  cases setting <;> (cases h; rfl)

theorem Options.addSetting_toString {options : Options} {setting : Setting} {n : Nat}
    (h : options.value? setting = none) (hn : n < 18446744073709551616) :
    options.addSetting setting (toString n) = some (options.withValue setting (some n)) := by
  cases options
  rw [Options.addSetting, number?_toString hn, Option.bind_some]
  cases setting <;> (cases h; rfl)

/-- The words of a setting, if it has a value. -/
def settingWords (setting : Setting) (value : Option Nat) : List String :=
  (value.map fun n => [optionWord setting.name, toString n]).getD []

/-- The words of flags. -/
def flagWords (flags : List Flag) : List String :=
  flags.map fun flag => optionWord flag.name

/-- The parts of a command line that asks for sentences of a file. -/
structure CommandLine where
  path : String
  count : Option Nat := none
  depth : Depth := .default
  seed : Option Nat := none
  flags : List Flag := []
  deriving DecidableEq

namespace CommandLine

variable {line : CommandLine}

/-- The words of the command line. -/
def words (line : CommandLine) : List String :=
  line.path :: ((line.count.map toString).toList ++
    (settingWords .maxDepth line.depth.number ++ (settingWords .seed line.seed ++
      flagWords (line.depth.flags ++ line.flags))))

/-- The options that the command line stands for, the last flag first. -/
def options (line : CommandLine) : Options where
  grammarFile := some line.path
  count := line.count
  maxDepth := line.depth.number
  seed := line.seed
  flags := (line.depth.flags ++ line.flags).reverse

/-- The file has a name that is taken for one, the numbers are those of 64 bits, and no flag is
given twice. The depth says by itself whether there is none. -/
structure WellFormed (line : CommandLine) : Prop where
  path_plain : Argument.ofString line.path = .plain line.path
  path_ne_empty : line.path ≠ ""
  path_ne_example : line.path ≠ "example"
  path_ne_help : line.path ≠ "help"
  count_lt : ∀ n, line.count = some n → n < 18446744073709551616
  depth_lt : ∀ n, line.depth.number = some n → n < 18446744073709551616
  seed_lt : ∀ n, line.seed = some n → n < 18446744073709551616
  flags_nodup : line.flags.Nodup
  unbounded_not_mem : .unbounded ∉ line.flags

theorem has_options {flag : Flag} :
    line.options.has flag = true ↔ flag ∈ line.depth.flags ∨ flag ∈ line.flags := by
  simp [Options.has, options, or_comm]

theorem has_unbounded_options (h : .unbounded ∉ line.flags) :
    line.options.has .unbounded = true ↔ line.depth = .unbounded := by
  rw [has_options, or_iff_left h]
  cases line.depth <;> simp [Depth.flags]

/-- The levels of the options are those of the depth. -/
theorem bound_options (h : .unbounded ∉ line.flags) : line.options.bound = line.depth.bound := by
  rw [Options.bound]
  by_cases hUnbounded : line.depth = .unbounded
  · rw [if_pos ((has_unbounded_options h).mpr hUnbounded), hUnbounded]
    rfl
  · rw [if_neg (mt (has_unbounded_options h).mp hUnbounded), options]
    cases hDepth : line.depth with
    | default | atMost n => rfl
    | unbounded => exact absurd hDepth hUnbounded

/-- The command line says what the options say. -/
structure Describes (line : CommandLine) (options : Options) : Prop where
  file : options.grammarFile = some line.path
  count : options.count = line.count
  bound : options.bound = line.depth.bound
  seed : options.seed = line.seed
  /-- But for the depth, the flags are those that are given as such. -/
  has_iff : ∀ flag, flag ≠ .unbounded → (options.has flag = true ↔ flag ∈ line.flags)

theorem WellFormed.describes (h : line.WellFormed) : line.Describes line.options where
  file := rfl
  count := rfl
  bound := bound_options h.unbounded_not_mem
  seed := rfl
  has_iff := fun flag hFlag => by
    rw [has_options]
    refine or_iff_right fun hMem => ?_
    cases hDepth : line.depth <;> simp [hDepth, Depth.flags] at hMem
    exact hFlag hMem

theorem consistent_options (h : .unbounded ∉ line.flags) : line.options.consistent = true := by
  rw [Options.consistent]
  by_cases hUnbounded : line.depth = .unbounded
  · rw [options, hUnbounded]
    rfl
  · rw [Bool.not_eq_true _ |>.mp (mt (has_unbounded_options h).mp hUnbounded), Bool.not_false,
      Bool.or_true]

/-! ## Reading a command line -/

/-- A number of sentences after the file. -/
theorem parseWith?_count {path : String} {count : Option Nat}
    (hCount : ∀ n, count = some n → n < 18446744073709551616) (rest : List String) :
    parseWith? { grammarFile := some path } ((count.map toString).toList ++ rest) =
      parseWith? { grammarFile := some path, count } rest := by
  cases count with
  | none => rfl
  | some n =>
      rw [Option.map_some, Option.toList_some, List.singleton_append,
        parseWith?_operand (ofString_toString n) (toString_ne (by decide))
          (toString_ne (by decide)), Options.addOperand]
      simp only [number?_toString (hCount n rfl), Option.map_some, Option.bind_some]

/-- A setting that has no value yet. -/
theorem parseWith?_settingWords {setting : Setting} {options : Options} {value : Option Nat}
    (hNone : options.value? setting = none)
    (hValue : ∀ n, value = some n → n < 18446744073709551616) (rest : List String) :
    parseWith? options (settingWords setting value ++ rest) =
      parseWith? (options.withValue setting value) rest := by
  cases value with
  | none =>
      rw [Options.withValue_none hNone]
      rfl
  | some n =>
      rw [settingWords, Option.map_some, Option.getD_some, List.cons_append, List.singleton_append,
        parseWith?_setting, Options.addSetting_toString hNone (hValue n rfl), Option.bind_some]

/-- Flags that are given for the first time are added in front. -/
theorem parseWith?_flagWords {flags : List Flag} {options : Options}
    (hNodup : flags.Nodup) (hNew : ∀ flag ∈ flags, flag ∉ options.flags) :
    parseWith? options (flagWords flags) =
      { options with flags := flags.reverse ++ options.flags }.request? := by
  induction flags generalizing options with
  | nil => rfl
  | cons flag flags ih =>
      rw [List.nodup_cons] at hNodup
      rw [List.forall_mem_cons] at hNew
      have hFirst : options.has flag = false := by simpa [Options.has] using hNew.1
      have hRest : ∀ other ∈ flags, other ∉ flag :: options.flags := fun other hOther hMem =>
        (List.mem_cons.mp hMem).elim (fun hEq => hNodup.1 (hEq ▸ hOther)) (hNew.2 other hOther)
      rw [flagWords, List.map_cons, parseWith?_flag, Options.addFlag, if_neg (by simp [hFirst]),
        Option.bind_some, ← flagWords, ih hNodup.2 hRest, List.reverse_cons, List.append_assoc,
        List.singleton_append]

/-- **The words of a command line are read as its options.** -/
theorem parse?_words (h : line.WellFormed) : parse? line.words = some (.generate line.options) := by
  have hFlags : (line.depth.flags ++ line.flags).Nodup := by
    cases line.depth with
    | default | atMost n => exact h.flags_nodup
    | unbounded => exact List.nodup_cons.mpr ⟨h.unbounded_not_mem, h.flags_nodup⟩
  rw [parse?, words, parseWith?_operand h.path_plain h.path_ne_example h.path_ne_help,
    Options.addOperand]
  simp only [if_neg h.path_ne_empty, Option.bind_some]
  rw [parseWith?_count h.count_lt, parseWith?_settingWords rfl h.depth_lt,
    parseWith?_settingWords rfl h.seed_lt, parseWith?_flagWords hFlags fun _ _ => List.not_mem_nil,
    Options.request?]
  simp only [Options.withValue, List.append_nil]
  exact if_pos (consistent_options h.unbounded_not_mem)

end CommandLine

end PhraseGrammar.Command
