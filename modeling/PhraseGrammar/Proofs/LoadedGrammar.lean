import PhraseGrammar.Proofs.Outcome
import PhraseGrammar.Proofs.Validity

/-!
# Grammars that are loaded

A grammar is loaded from a source without faults only, so it is `Closed`: the start name has rules,
and so does every name that a rule refers to. Calls on a grammar change its bound and never its
rules, so it stays closed.

In a closed grammar a walk is never stuck for want of a rule. It can be stuck at the limit alone,
below as many expansions as there are levels, and each of them has taken a reply
(`NamesWithin.limit_le_of_stuckForm`). With fewer replies than levels, all in range, the sentence is
therefore the one that was walked, and the replies are its choices (`walked_of_length_log_lt`).
-/

set_option autoImplicit false

namespace PhraseGrammar

open PhraseGrammar.Source

variable {σ : Type} {rules : List Rule} {bound : Option Nat} {select : Selector σ} {state : σ}
  {limit steps : Nat} {form : List FormPart} {grammar : Grammar}

/-! ## Closed grammars -/

/-- The start name has rules, and so has every name that is referred to; a name with rules, other
than the start name, is referred to. -/
structure Grammar.Closed (grammar : Grammar) : Prop where
  start : ∃ rule ∈ grammar.rules, rule.left = startName
  referred : ∀ rule ∈ grammar.rules, ∀ name, .nonTerminal name ∈ rule.right →
    (∃ target ∈ grammar.rules, target.left = name) ∧ grammar.hasNonTerminal name = true
  used : ∀ rule ∈ grammar.rules, rule.left ≠ startName →
    ∃ other ∈ grammar.rules, .nonTerminal rule.left ∈ other.right

theorem Source.WellReferenced.closed (h : WellReferenced grammar.rules) : grammar.Closed where
  start := h.start_defined
  referred := by
    intro rule hRule name hName
    have hDefined : Defined grammar.rules name :=
      h.defined_of_referred name ⟨rule, hRule, mem_references_iff.mpr hName⟩
    refine ⟨hDefined, ?_⟩
    rw [Grammar.hasNonTerminal, defines_eq_decide]
    exact decide_eq_true hDefined
  used := by
    intro rule hRule hStart
    rcases h.referred_of_defined rule.left ⟨rule, hRule, rfl⟩ with hSame | ⟨other, hOther, hName⟩
    · exact absurd hSame hStart
    · exact ⟨other, hOther, mem_references_iff.mp hName⟩

theorem Grammar.Closed.defines_startName (h : grammar.Closed) :
    defines grammar.rules startName = true := by
  rw [defines_eq_decide]
  exact decide_eq_true h.start

/-- The bound has no part in it. -/
theorem Grammar.Closed.of_rules_eq {other : Grammar} (h : grammar.Closed)
    (hSame : grammar.rules = other.rules) : other.Closed := by
  obtain ⟨hStart, hReferred, hUsed⟩ := h
  simp only [Grammar.hasNonTerminal, hSame] at hStart hReferred hUsed
  exact ⟨hStart, hReferred, hUsed⟩

/-! ## How deep the names of a form lie -/

/-- Every name of the form has rules, and lies below at most so many expansions. -/
def NamesWithin (rules : List Rule) (steps : Nat) (form : List FormPart) : Prop :=
  ∀ name depth, .name name depth ∈ form → defines rules name = true ∧ depth ≤ steps

theorem name_mem_textForm_append_iff {texts : List String} {name : String} {depth : Nat} :
    .name name depth ∈ textForm texts ++ form ↔ .name name depth ∈ form := by
  simp [textForm]

theorem name_mem_nameForm (texts : List String) (name : String) (depth : Nat)
    (after : List FormPart) : .name name depth ∈ nameForm texts name depth after := by
  rw [nameForm, name_mem_textForm_append_iff]
  exact List.mem_cons_self

/-- One step puts names at most one expansion deeper. -/
theorem NamesWithin.step (hClosed : grammar.Closed) {next : List FormPart} {label : Nat × Nat}
    (h : NamesWithin grammar.rules steps form)
    (hStep : LeftmostStep grammar.rules limit form label next) :
    NamesWithin grammar.rules (steps + 1) next := by
  cases hStep with
  | @expand name depth texts after hDepth index =>
      intro target targetDepth hTarget
      rw [expandedForm, name_mem_textForm_append_iff] at hTarget
      rcases List.mem_append.mp hTarget with hNew | hOld
      · -- the name stands on the right of the rule that was taken
        obtain ⟨symbol, hSymbol, hPart⟩ := List.mem_map.mp hNew
        cases symbol with
        | terminal text => cases hPart
        | nonTerminal other =>
            obtain ⟨rfl, rfl⟩ := FormPart.name.inj hPart
            have hRule := (mem_candidates.mp (List.getElem_mem index.isLt)).1
            have hLe : depth ≤ steps := (h name depth (name_mem_nameForm texts name depth after)).2
            exact ⟨(hClosed.referred _ hRule other hSymbol).2, Nat.succ_le_succ hLe⟩
      · have hForm : .name target targetDepth ∈ nameForm texts name depth after := by
          rw [nameForm, name_mem_textForm_append_iff]
          exact List.mem_cons_of_mem _ hOld
        obtain ⟨hDefined, hLe⟩ := h target targetDepth hForm
        exact ⟨hDefined, Nat.le_succ_of_le hLe⟩

/-- Steps in a row put names at most as many expansions deeper as they are. -/
theorem NamesWithin.run (hClosed : grammar.Closed) {final : List FormPart}
    {labels : List (Nat × Nat)} (h : NamesWithin grammar.rules steps form)
    (hSteps : LeftmostSteps grammar.rules limit form labels final) :
    NamesWithin grammar.rules (steps + labels.length) final := by
  induction hSteps generalizing steps with
  | nil form => exact h
  | cons step _ ih =>
      have hLater := ih (h.step hClosed step)
      rwa [Nat.add_assoc, Nat.add_comm 1] at hLater

/-- A form whose names have rules is only stuck at the limit. -/
theorem NamesWithin.limit_le_of_stuckForm (h : NamesWithin rules steps form)
    (hStuck : StuckForm rules limit form) : limit ≤ steps := by
  obtain ⟨texts, name, depth, after, rfl, hStuck⟩ := hStuck
  obtain ⟨hDefined, hLe⟩ := h name depth (name_mem_nameForm texts name depth after)
  rcases hStuck with hNone | hLimit
  · exact absurd hNone (defines_iff.mp hDefined)
  · exact hLimit.trans hLe

/-! ## Runs that stay above the limit -/

/-- All that was asked are the steps of a derivation of the value, and the replies are its
choices: nothing was picked from the list of all sentences. -/
def Walked (rules : List Rule) (bound : Option Nat) (log : List (Nat × Nat))
    (value : Except GenerateError Sentence) : Prop :=
  ∃ texts, LeftmostSteps rules (levels bound) startForm log (textForm texts) ∧
    value = .ok ⟨String.join texts, log.map Prod.snd⟩

/-- In a closed grammar a run with fewer replies than levels, all in range, is walked to its
end. -/
theorem walked_of_length_log_lt (hClosed : grammar.Closed) (select : Selector σ) (state : σ)
    (hRange : (grammar.generateWith select state).InRange)
    (hShort : (grammar.generateWith select state).log.length < levels grammar.bound) :
    Walked grammar.rules grammar.bound (grammar.generateWith select state).log
      (grammar.generateWith select state).value := by
  obtain ⟨steps, final, rest, hLog, hSteps, hEnding⟩ :=
    followsLeftmost_generateWith hClosed.defines_startName select grammar.bound state
  have hStart : NamesWithin grammar.rules 0 startForm := by
    intro name depth hName
    obtain ⟨rfl, rfl⟩ := FormPart.name.inj (List.mem_singleton.mp hName)
    exact ⟨hClosed.defines_startName, le_rfl⟩
  have hFinal : NamesWithin grammar.rules (0 + steps.length) final := hStart.run hClosed hSteps
  rw [Grammar.generateWith] at hRange hShort ⊢
  have hNotStuck : ¬ StuckForm grammar.rules (levels grammar.bound) final := by
    intro hStuck
    have hLimit := hFinal.limit_le_of_stuckForm hStuck
    rw [hLog, List.length_append] at hShort
    omega
  generalize (PhraseGrammar.generateWith select grammar.rules grammar.bound state).value = value
    at hEnding ⊢
  cases hEnding with
  | complete texts =>
      rw [List.append_nil] at hLog
      rw [hLog]
      exact ⟨texts, hSteps, rfl⟩
  | @refused name depth index texts after hDepth hSome hIndex =>
      -- the last reply is out of range
      have hLess : index < (candidates grammar.rules name).length :=
        hRange (_, index) (by simp [hLog])
      omega
  | nothing hStuck hNone => exact absurd hStuck hNotStuck
  | picked hStuck index => exact absurd hStuck hNotStuck
  | pickRefused hStuck hSome hIndex => exact absurd hStuck hNotStuck

/-! ## Calls on a grammar -/

/-- A call on a grammar. Each call that generates names its selector and the state that it starts
from, which may be the one that an earlier call has left. -/
inductive Call : Type 1 where
  | setBound (bound : Option Nat)
  | generate {σ : Type} (select : Selector σ) (state : σ)
  | generateAll

/-- What a call gives. -/
inductive Reply where
  /-- The bound is the new one. -/
  | bounded (bound : Option Nat)
  /-- Under the bound the selector was asked and replied this, and the value came out. -/
  | generated (bound : Option Nat) (log : List (Nat × Nat)) (value : Except GenerateError Sentence)
  /-- All sentences within the bound. -/
  | listed (bound : Option Nat) (sentences : List Sentence)

/-- What a call gives, and the grammar after it. -/
def Grammar.perform (grammar : Grammar) : Call → Reply × Grammar
  | .setBound bound => (.bounded bound, { grammar with bound })
  | .generate select state =>
    let run := grammar.generateWith select state
    (.generated grammar.bound run.log run.value, grammar)
  | .generateAll => (.listed grammar.bound grammar.generateAll, grammar)

/-- What calls one after the other give, and the grammar after them. -/
def Grammar.performAll (grammar : Grammar) : List Call → List Reply × Grammar
  | [] => ([], grammar)
  | call :: calls =>
    let first := grammar.perform call
    let rest := first.2.performAll calls
    (first.1 :: rest.1, rest.2)

/-- What is generated is not the failure for want of a start rule, and it was walked if there are
fewer replies than levels, all in range. What is listed are the sentences of the rules. -/
def Reply.Sound (rules : List Rule) : Reply → Prop
  | .bounded _ => True
  | .generated bound log value =>
    value ≠ .error .missingStartRule ∧
      ((∀ entry ∈ log, entry.2 < entry.1) → log.length < levels bound →
        Walked rules bound log value)
  | .listed bound sentences => sentences = PhraseGrammar.generateAll rules bound

theorem Grammar.rules_perform (grammar : Grammar) (call : Call) :
    (grammar.perform call).2.rules = grammar.rules := by
  cases call with
  | setBound bound => rfl
  | generate select state => rfl
  | generateAll => rfl

theorem Grammar.Closed.sound_perform (h : grammar.Closed) (call : Call) :
    (grammar.perform call).1.Sound grammar.rules := by
  cases call with
  | setBound bound => trivial
  | generate select state =>
      refine ⟨fun hMissing => ?_, fun hRange hShort => ?_⟩
      · exact generateWith_eq_missingStartRule_iff.mp hMissing h.defines_startName
      · exact walked_of_length_log_lt h select state hRange hShort
  | generateAll => rfl

/-- Calls leave the rules as they are, and in a closed grammar they all give what they should. -/
theorem Grammar.Closed.performAll (h : grammar.Closed) (calls : List Call) :
    (grammar.performAll calls).2.rules = grammar.rules ∧
      ∀ reply ∈ (grammar.performAll calls).1, reply.Sound grammar.rules := by
  induction calls generalizing grammar with
  | nil => exact ⟨rfl, fun reply hReply => absurd hReply List.not_mem_nil⟩
  | cons call calls ih =>
      have hRules := grammar.rules_perform call
      obtain ⟨hRestRules, hRestSound⟩ := ih (h.of_rules_eq hRules.symm)
      rw [hRules] at hRestRules hRestSound
      exact ⟨hRestRules, List.forall_mem_cons.mpr ⟨h.sound_perform call, hRestSound⟩⟩

/-! ## Loading -/

theorem ofSource_of_faults_eq_nil {source : String} (h : (parse source).faults = []) :
    Grammar.ofSource source = .ok ⟨(parse source).rules, some 10⟩ := by
  have hValid : (parse source).isValid = true := by rw [Parsed.isValid, h, List.isEmpty_nil]
  exact if_pos hValid

theorem ofSource_of_faults_ne_nil {source : String} (h : (parse source).faults ≠ []) :
    Grammar.ofSource source = .error (.invalidGrammar (parse source).faults) := by
  have hInvalid : ¬ (parse source).isValid = true := by rwa [Parsed.isValid, List.isEmpty_iff]
  exact if_neg hInvalid

theorem ofSource_eq_ok_iff {source : String} :
    Grammar.ofSource source = .ok grammar ↔
      (parse source).faults = [] ∧ grammar = ⟨(parse source).rules, some 10⟩ := by
  by_cases hFaults : (parse source).faults = []
  · rw [ofSource_of_faults_eq_nil hFaults, Except.ok.injEq, and_iff_right hFaults]
    exact eq_comm
  · rw [ofSource_of_faults_ne_nil hFaults]
    exact iff_of_false (fun h => by cases h) (fun h => hFaults h.1)

theorem ofSource_eq_error_iff {source : String} {failure : LoadError} :
    Grammar.ofSource source = .error failure ↔
      (parse source).faults ≠ [] ∧ failure = .invalidGrammar (parse source).faults := by
  by_cases hFaults : (parse source).faults = []
  · rw [ofSource_of_faults_eq_nil hFaults]
    exact iff_of_false (fun h => by cases h) (fun h => h.1 hFaults)
  · rw [ofSource_of_faults_ne_nil hFaults, Except.error.injEq, and_iff_right hFaults]
    exact eq_comm

/-- **A grammar that is loaded is closed and stays so.** It is loaded exactly if its source has no
fault, with the rules of the source and ten levels; otherwise all faults are told. After any calls
it has the same rules and is closed. None of the calls that generate fails for want of a start
rule, and each of them that gets fewer replies than there are levels, all in range, has walked to
a sentence by these replies. -/
theorem closed_of_ofSource_eq_ok (source : String) :
    (∀ grammar, Grammar.ofSource source = .ok grammar ↔
      (parse source).faults = [] ∧ grammar = ⟨(parse source).rules, some 10⟩) ∧
    (∀ failure, Grammar.ofSource source = .error failure ↔
      (parse source).faults ≠ [] ∧ failure = .invalidGrammar (parse source).faults) ∧
    ∀ grammar, Grammar.ofSource source = .ok grammar →
      grammar.Closed ∧ ∀ calls,
        let performed := grammar.performAll calls
        performed.2.rules = (parse source).rules ∧ performed.2.Closed ∧
          ∀ reply ∈ performed.1, reply.Sound (parse source).rules := by
  refine ⟨fun grammar => ofSource_eq_ok_iff, fun failure => ofSource_eq_error_iff,
    fun grammar hLoaded => ?_⟩
  obtain ⟨hFaults, hGrammar⟩ := ofSource_eq_ok_iff.mp hLoaded
  have hRules : grammar.rules = (parse source).rules := by rw [hGrammar]
  have hValid : (parse source).isValid = true := by rw [Parsed.isValid, hFaults, List.isEmpty_nil]
  have hReferenced : WellReferenced grammar.rules := by
    rw [hRules]
    exact ((isValid_parse_iff source).mp hValid).2
  refine ⟨hReferenced.closed, fun calls => ?_⟩
  obtain ⟨hSame, hSound⟩ := hReferenced.closed.performAll calls
  rw [← hRules]
  exact ⟨hSame, hReferenced.closed.of_rules_eq hSame.symm, hSound⟩

/-- A start name with a sentence of its own and one that repeats it. -/
def repeatingSource : String :=
  "$SENTENCE -> B\n$SENTENCE -> A $SENTENCE"

/-- Under three levels two replies walk to a sentence. Three replies that lead to the limit are
followed by a fourth one, which picks. -/
theorem closed_repeatingSource :
    let grammar : Grammar := ⟨repeatingRules, some 10⟩
    let calls : List Call :=
      [.setBound (some 3), .generate replay [1, 0], .generate replay [1, 1, 1, 2]]
    Grammar.ofSource repeatingSource = .ok grammar ∧ grammar.Closed ∧
      (grammar.performAll calls).1 =
        [.bounded (some 3), .generated (some 3) [(2, 1), (2, 0)] (.ok ⟨"A B", [1, 0]⟩),
          .generated (some 3) [(2, 1), (2, 1), (2, 1), (3, 2)] (.ok ⟨"A A B", [1, 1, 0]⟩)] ∧
      (grammar.performAll calls).2.Closed ∧
      Walked repeatingRules (some 3) [(2, 1), (2, 0)] (.ok ⟨"A B", [1, 0]⟩) := by
  intro grammar calls
  have hRules : (parse repeatingSource).rules = repeatingRules := by decide +kernel
  have hLoaded : Grammar.ofSource repeatingSource = .ok grammar := by decide +kernel
  have hWalked : (⟨repeatingRules, some 3⟩ : Grammar).generateWith replay [1, 0] =
      ⟨.ok ⟨"A B", [1, 0]⟩, [], [(2, 1), (2, 0)]⟩ := rfl
  have hPicked : (⟨repeatingRules, some 3⟩ : Grammar).generateWith replay [1, 1, 1, 2] =
      ⟨.ok ⟨"A A B", [1, 1, 0]⟩, [], [(2, 1), (2, 1), (2, 1), (3, 2)]⟩ := rfl
  have hReplies : (grammar.performAll calls).1 =
      [.bounded (some 3), .generated (some 3) [(2, 1), (2, 0)] (.ok ⟨"A B", [1, 0]⟩),
        .generated (some 3) [(2, 1), (2, 1), (2, 1), (3, 2)] (.ok ⟨"A A B", [1, 1, 0]⟩)] := by
    simp only [grammar, calls, Grammar.performAll, Grammar.perform, hWalked, hPicked]
  obtain ⟨hClosed, hCalls⟩ := (closed_of_ofSource_eq_ok repeatingSource).2.2 grammar hLoaded
  obtain ⟨-, hStill, hSound⟩ := hCalls calls
  rw [hRules, hReplies] at hSound
  have hShort : [(2, 1), (2, 0)].length < levels (some 3) := by decide
  obtain ⟨-, hWalks⟩ := hSound _ (List.mem_cons_of_mem _ List.mem_cons_self)
  exact ⟨hLoaded, hClosed, hReplies, hStill, hWalks (by decide) hShort⟩

end PhraseGrammar
