import PhraseGrammar.Proofs.Walk

/-!
# Generating as a leftmost derivation

A sentential form is a list of texts and names, each name with the number of expansions that it
lies below. `LeftmostStep` rewrites its leftmost name by one of the alternatives, as long as the
levels allow it, and carries the number of alternatives and the one taken as a label. `Ending`
says what is still asked and what comes out once no step is taken.

A walk is recursive and knows nothing of forms. But what is left of it at any time is the walk of
a form (`resume`), and its next question is the next step of that form (`resume_nameForm`). So what
a run asks and is answered are the labels of a leftmost derivation from the start name, and
nothing else but what the ending asks (`followsLeftmost_run`).
-/

set_option autoImplicit false

namespace PhraseGrammar

variable {σ : Type} {rules : List Rule} {bound : Option Nat} {limit : Nat}

/-! ## Sentential forms -/

/-- A part of a sentential form. -/
inductive FormPart where
  /-- Text that stands for itself. -/
  | text (text : String)
  /-- A name to be rewritten, which lies below so many expansions. -/
  | name (name : String) (depth : Nat)
  deriving DecidableEq

/-- A symbol that lies below so many expansions. -/
def Symbol.atDepth (depth : Nat) : Symbol → FormPart
  | .terminal text => .text text
  | .nonTerminal name => .name name depth

/-- The start name alone. -/
def startForm : List FormPart := [.name startName 0]

/-- A form without names. -/
def textForm (texts : List String) : List FormPart := texts.map FormPart.text

/-- A form with a leftmost name. -/
def nameForm (texts : List String) (name : String) (depth : Nat) (after : List FormPart) :
    List FormPart :=
  textForm texts ++ .name name depth :: after

/-- The form with the right of the rule in the place of the leftmost name, one level deeper. -/
def expandedForm (texts : List String) (rule : Rule) (depth : Nat) (after : List FormPart) :
    List FormPart :=
  textForm texts ++ (rule.right.map (Symbol.atDepth (depth + 1)) ++ after)

/-- The leftmost name of a form is rewritten, above the limit on the depth. The label holds the
number of alternatives for it and the one that is taken. -/
inductive LeftmostStep (rules : List Rule) (limit : Nat) :
    List FormPart → Nat × Nat → List FormPart → Prop where
  | expand {name : String} {depth : Nat} (texts : List String) (after : List FormPart)
      (hDepth : depth < limit) (index : Fin (candidates rules name).length) :
      LeftmostStep rules limit (nameForm texts name depth after)
        ((candidates rules name).length, index)
        (expandedForm texts (candidates rules name)[index] depth after)

/-- Steps in a row, with their labels. -/
inductive LeftmostSteps (rules : List Rule) (limit : Nat) :
    List FormPart → List (Nat × Nat) → List FormPart → Prop where
  | nil (form : List FormPart) : LeftmostSteps rules limit form [] form
  | cons {form next final : List FormPart} {label : Nat × Nat} {labels : List (Nat × Nat)}
      (step : LeftmostStep rules limit form label next)
      (further : LeftmostSteps rules limit next labels final) :
      LeftmostSteps rules limit form (label :: labels) final

/-- The leftmost name of the form has no alternative, or lies at the limit. -/
def StuckForm (rules : List Rule) (limit : Nat) (form : List FormPart) : Prop :=
  ∃ texts name depth after, form = nameForm texts name depth after ∧
    (candidates rules name = [] ∨ limit ≤ depth)

/-- After steps with these answers have led to the form, the log goes on with these entries and
the value comes out. -/
inductive Ending (rules : List Rule) (bound : Option Nat) (answers : List Nat) :
    List FormPart → List (Nat × Nat) → Except GenerateError Sentence → Prop where
  /-- No name is left, and nothing more is asked. -/
  | complete (texts : List String) :
      Ending rules bound answers (textForm texts) [] (.ok ⟨String.join texts, answers⟩)
  /-- The answer for the leftmost name is not below the number of its alternatives. -/
  | refused {name : String} {depth index : Nat} (texts : List String) (after : List FormPart)
      (hDepth : depth < levels bound) (hSome : candidates rules name ≠ [])
      (hIndex : (candidates rules name).length ≤ index) :
      Ending rules bound answers (nameForm texts name depth after)
        [((candidates rules name).length, index)]
        (.error (.selectionOutOfRange index (candidates rules name).length))
  /-- There is no sentence to fall back to, and nothing more is asked. -/
  | nothing {form : List FormPart} (hStuck : StuckForm rules (levels bound) form)
      (hNone : generateAll rules bound = []) :
      Ending rules bound answers form [] (.error .noDerivableSentence)
  /-- The sentence is picked among all of them. -/
  | picked {form : List FormPart} (hStuck : StuckForm rules (levels bound) form)
      (index : Fin (generateAll rules bound).length) :
      Ending rules bound answers form [((generateAll rules bound).length, index)]
        (.ok ((generateAll rules bound).get index))
  /-- The answer for all sentences is not below their number. -/
  | pickRefused {form : List FormPart} {index : Nat}
      (hStuck : StuckForm rules (levels bound) form) (hSome : generateAll rules bound ≠ [])
      (hIndex : (generateAll rules bound).length ≤ index) :
      Ending rules bound answers form [((generateAll rules bound).length, index)]
        (.error (.selectionOutOfRange index (generateAll rules bound).length))

/-! ## One walk after the other -/

/-- Walks on behind the first sentence if there is one. -/
def walkThen (first second : Decision (Option Sentence)) : Decision (Option Sentence) :=
  first.bind fun
    | none => .done none
    | some front => second.map fun tail => tail.map fun tail => front ++ tail

/-- What is done to a sentence in front of a walk may be done when the walk has ended. -/
theorem walkThen_map {f : Sentence → Sentence}
    (hFront : ∀ front tail, f (front ++ tail) = f front ++ tail)
    (first second : Decision (Option Sentence)) :
    walkThen (first.map (Option.map f)) second = (walkThen first second).map (Option.map f) := by
  induction first with
  | done found =>
      cases found with
      | none => rfl
      | some front =>
          show second.map (Option.map _) = (second.map (Option.map _)).map (Option.map f)
          rw [Decision.map_map, Option.map_comp_map]
          simp only [Function.comp_def, hFront]
  | choose count next ih => exact Decision.choose_congr ih

theorem walkThen_assoc (first second third : Decision (Option Sentence)) :
    walkThen (walkThen first second) third = walkThen first (walkThen second third) := by
  induction first with
  | done found =>
      cases found with
      | none => rfl
      | some front =>
          show walkThen (second.map (Option.map _)) third = (walkThen second third).map _
          exact walkThen_map (fun tail last => (Sentence.append_assoc front tail last).symm) _ _
  | choose count next ih => exact Decision.choose_congr ih

theorem empty_walkThen (second : Decision (Option Sentence)) :
    walkThen (.done (some Sentence.empty)) second = second := by
  show second.map (Option.map _) = second
  induction second with
  | done found =>
      cases found with
      | none => rfl
      | some tail => rw [Decision.map, Option.map_some, Sentence.empty_append]
  | choose count next ih => exact Decision.choose_congr ih

theorem walkThen_empty (first : Decision (Option Sentence)) :
    walkThen first (.done (some Sentence.empty)) = first := by
  induction first with
  | done found =>
      cases found with
      | none => rfl
      | some front =>
          show Decision.done (some (front ++ Sentence.empty)) = _
          rw [Sentence.append_empty]
  | choose count next ih => exact Decision.choose_congr ih

/-! ## The walk of a form -/

/-- What is left to be walked of a form. -/
def walkForm (rules : List Rule) (limit : Nat) : List FormPart → Decision (Option Sentence)
  | [] => .done (some Sentence.empty)
  | .text text :: rest => walkThen (.done (some (Sentence.ofText text))) (walkForm rules limit rest)
  | .name name depth :: rest =>
    walkThen (walk rules (limit - depth) name) (walkForm rules limit rest)

theorem walkForm_append (first second : List FormPart) :
    walkForm rules limit (first ++ second) =
      walkThen (walkForm rules limit first) (walkForm rules limit second) := by
  induction first with
  | nil => rw [List.nil_append, walkForm, empty_walkThen]
  | cons part rest ih =>
      cases part with
      | text text => rw [List.cons_append, walkForm, walkForm, ih, walkThen_assoc]
      | name name depth => rw [List.cons_append, walkForm, walkForm, ih, walkThen_assoc]

theorem walkForm_textForm (texts : List String) :
    walkForm rules limit (textForm texts) = .done (some (Sentence.ofText (String.join texts))) := by
  induction texts with
  | nil => rfl
  | cons text rest ih =>
      rw [textForm, List.map_cons, walkForm, ← textForm, ih, String.join_cons]
      rfl

/-- The walk of a right-hand side is the walk of its form. -/
theorem walkForm_map_atDepth (depth : Nat) (symbols : List Symbol) :
    walkForm rules limit (symbols.map (Symbol.atDepth depth)) =
      walkSymbols (walk rules (limit - depth)) symbols := by
  induction symbols with
  | nil => rfl
  | cons symbol rest ih =>
      cases symbol with
      | terminal text =>
          rw [List.map_cons, Symbol.atDepth, walkForm, ih]
          rfl
      | nonTerminal name =>
          rw [List.map_cons, Symbol.atDepth, walkForm, ih]
          rfl

/-- A stuck form has no walk. -/
theorem walkForm_of_stuckForm {form : List FormPart} (h : StuckForm rules limit form) :
    walkForm rules limit form = .done none := by
  obtain ⟨texts, name, depth, after, rfl, hStuck⟩ := h
  have hWalk : walk rules (limit - depth) name = .done none := by
    rcases hStuck with hNone | hLimit
    · exact walk_eq_done_of_candidates_eq_nil hNone _
    · rw [Nat.sub_eq_zero_of_le hLimit, walk]
  rw [nameForm, walkForm_append, walkForm_textForm, walkForm, hWalk]
  rfl

/-- The walk of any other form with a name asks for an alternative of the leftmost one, and goes
on with the expanded form. -/
theorem walkForm_nameForm {texts : List String} {name : String} {depth : Nat}
    {after : List FormPart} (hDepth : depth < limit) (hSome : candidates rules name ≠ []) :
    walkForm rules limit (nameForm texts name depth after) =
      .choose (candidates rules name).length fun index =>
        (walkForm rules limit
          (expandedForm texts (candidates rules name)[index] depth after)).map
            (Option.map (Sentence.chosen index)) := by
  have hLevel : limit - depth = limit - (depth + 1) + 1 := by omega
  have hName : walkForm rules limit (.name name depth :: after) =
      .choose (candidates rules name).length fun index =>
        (walkForm rules limit
          ((candidates rules name)[index].right.map (Symbol.atDepth (depth + 1)) ++ after)).map
            (Option.map (Sentence.chosen index)) := by
    rw [walkForm, hLevel, walk, if_neg hSome]
    refine Decision.choose_congr fun index => ?_
    rw [walkForm_append, walkForm_map_atDepth]
    -- the number of the alternative goes in front of whatever follows it
    exact walkThen_map (f := Sentence.chosen index) (fun _ _ => rfl) _ _
  rw [nameForm, walkForm_append, walkForm_textForm, hName]
  refine Decision.choose_congr fun index => ?_
  rw [expandedForm, walkForm_append, walkForm_textForm]
  show (Decision.map _ _).map (Option.map _) = (Decision.map (Option.map _) _).map _
  -- texts in front of the name take no choice
  rw [Decision.map_map, Decision.map_map, Option.map_comp_map, Option.map_comp_map]
  rfl

/-! ## The rest of a run -/

/-- What is left of generating when steps with these answers have led to the form. -/
def resume (rules : List Rule) (bound : Option Nat) (answers : List Nat) (form : List FormPart) :
    Decision (Except GenerateError Sentence) :=
  (walkForm rules (levels bound) form).bind fun
    | some sentence => .done (.ok ⟨sentence.text, answers ++ sentence.choices⟩)
    | none => pickSentence (generateAll rules bound)

theorem generate_eq_resume (h : defines rules startName = true) :
    generate rules bound = resume rules bound [] startForm := by
  rw [generate, if_pos h, resume, startForm, walkForm, walkForm, walkThen_empty]
  rfl

theorem resume_textForm (answers : List Nat) (texts : List String) :
    resume rules bound answers (textForm texts) = .done (.ok ⟨String.join texts, answers⟩) := by
  rw [resume, walkForm_textForm]
  show Decision.done (Except.ok (Sentence.mk _ (answers ++ []))) = _
  rw [List.append_nil]
  rfl

theorem resume_of_stuckForm {answers : List Nat} {form : List FormPart}
    (h : StuckForm rules (levels bound) form) :
    resume rules bound answers form = pickSentence (generateAll rules bound) := by
  rw [resume, walkForm_of_stuckForm h]
  rfl

theorem resume_nameForm {answers : List Nat} {texts : List String} {name : String} {depth : Nat}
    {after : List FormPart} (hDepth : depth < levels bound) (hSome : candidates rules name ≠ []) :
    resume rules bound answers (nameForm texts name depth after) =
      .choose (candidates rules name).length fun index =>
        resume rules bound (answers ++ [index.val])
          (expandedForm texts (candidates rules name)[index] depth after) := by
  rw [resume, walkForm_nameForm hDepth hSome, Decision.bind]
  refine Decision.choose_congr fun index => ?_
  rw [resume, Decision.bind_map]
  congr 1
  funext found
  cases found with
  | none => rfl
  | some sentence =>
      show Decision.done (Except.ok (Sentence.mk _ (answers ++ index.val :: _))) = _
      rw [← List.singleton_append, ← List.append_assoc]
      rfl

/-- A form has no names, is stuck, or has a leftmost name that can be rewritten. -/
theorem form_cases (rules : List Rule) (limit : Nat) (form : List FormPart) :
    (∃ texts, form = textForm texts) ∨ StuckForm rules limit form ∨
      ∃ texts name depth after, form = nameForm texts name depth after ∧ depth < limit ∧
        candidates rules name ≠ [] := by
  have hForm : (∃ texts, form = textForm texts) ∨
      ∃ texts name depth after, form = nameForm texts name depth after := by
    induction form with
    | nil => exact Or.inl ⟨[], rfl⟩
    | cons part rest ih =>
        cases part with
        | name name depth => exact Or.inr ⟨[], name, depth, rest, rfl⟩
        | text text =>
            rcases ih with ⟨texts, rfl⟩ | ⟨texts, name, depth, after, rfl⟩
            · exact Or.inl ⟨text :: texts, rfl⟩
            · exact Or.inr ⟨text :: texts, name, depth, after, rfl⟩
  refine hForm.imp_right ?_
  rintro ⟨texts, name, depth, after, rfl⟩
  by_cases hStuck : candidates rules name = [] ∨ limit ≤ depth
  · exact Or.inl ⟨texts, name, depth, after, rfl, hStuck⟩
  · obtain ⟨hSome, hDepth⟩ := not_or.mp hStuck
    exact Or.inr ⟨texts, name, depth, after, rfl, Nat.lt_of_not_le hDepth, hSome⟩

/-! ## Runs -/

/-- From the form on, which steps with these answers have led to, the log holds the labels of
leftmost steps and what the ending asks, and the value comes out. -/
def FollowsLeftmost (rules : List Rule) (bound : Option Nat) (answers : List Nat)
    (form : List FormPart) (log : List (Nat × Nat)) (value : Except GenerateError Sentence) :
    Prop :=
  ∃ steps final rest, log = steps ++ rest ∧ LeftmostSteps rules (levels bound) form steps final ∧
    Ending rules bound (answers ++ steps.map Prod.snd) final rest value

namespace FollowsLeftmost

variable {answers : List Nat} {form next : List FormPart} {log : List (Nat × Nat)}
  {value : Except GenerateError Sentence} {label : Nat × Nat}

theorem of_ending (h : Ending rules bound answers form log value) :
    FollowsLeftmost rules bound answers form log value :=
  ⟨[], form, log, rfl, .nil form, by rwa [List.map_nil, List.append_nil]⟩

theorem cons (hStep : LeftmostStep rules (levels bound) form label next)
    (h : FollowsLeftmost rules bound (answers ++ [label.2]) next log value) :
    FollowsLeftmost rules bound answers form (label :: log) value := by
  obtain ⟨steps, final, rest, rfl, hSteps, hEnding⟩ := h
  refine ⟨label :: steps, final, rest, rfl, .cons hStep hSteps, ?_⟩
  rwa [List.map_cons, ← List.singleton_append, ← List.append_assoc]

end FollowsLeftmost

/-- The run of a decision about a sentence. -/
abbrev sentenceRun (select : Selector σ) (decision : Decision (Except GenerateError Sentence))
    (state : σ) : Run σ (Except GenerateError Sentence) :=
  decision.run select (fun index count => .error (.selectionOutOfRange index count)) state

/-- At a stuck form a sentence is picked from the list. -/
theorem ending_run_pickSentence {form : List FormPart}
    (hStuck : StuckForm rules (levels bound) form) (answers : List Nat) (select : Selector σ)
    (state : σ) :
    Ending rules bound answers form
      (sentenceRun select (pickSentence (generateAll rules bound)) state).log
      (sentenceRun select (pickSentence (generateAll rules bound)) state).value := by
  rw [pickSentence]
  by_cases hNone : generateAll rules bound = []
  · rw [if_pos hNone]
    exact .nothing hStuck hNone
  · rw [if_neg hNone]
    rcases Nat.lt_or_ge (select state (generateAll rules bound).length).1
      (generateAll rules bound).length with h | h
    · rw [sentenceRun, Decision.run_choose_of_lt select _ _ state h]
      exact .picked hStuck ⟨_, h⟩
    · rw [sentenceRun, Decision.run_choose_of_le select _ _ state h]
      exact .pickRefused hStuck hNone h

/-- **A run follows a leftmost derivation.** -/
theorem followsLeftmost_run (select : Selector σ) (answers : List Nat) (form : List FormPart)
    (state : σ) :
    FollowsLeftmost rules bound answers form
      (sentenceRun select (resume rules bound answers form) state).log
      (sentenceRun select (resume rules bound answers form) state).value := by
  -- the decision that is left says whether a form can be rewritten
  induction hDecision : resume rules bound answers form generalizing answers form state with
  | done value =>
      rcases form_cases rules (levels bound) form with
        ⟨texts, rfl⟩ | hStuck | ⟨texts, name, depth, after, rfl, hDepth, hSome⟩
      · rw [← hDecision, resume_textForm]
        exact .of_ending (.complete texts)
      · rw [← hDecision, resume_of_stuckForm hStuck]
        exact .of_ending (ending_run_pickSentence hStuck answers select state)
      · rw [resume_nameForm hDepth hSome] at hDecision
        cases hDecision
  | choose count choice ih =>
      rcases form_cases rules (levels bound) form with
        ⟨texts, rfl⟩ | hStuck | ⟨texts, name, depth, after, rfl, hDepth, hSome⟩
      · rw [resume_textForm] at hDecision
        cases hDecision
      · rw [← hDecision, resume_of_stuckForm hStuck]
        exact .of_ending (ending_run_pickSentence hStuck answers select state)
      · rw [resume_nameForm hDepth hSome] at hDecision
        cases hDecision
        rcases Nat.lt_or_ge (select state (candidates rules name).length).1
          (candidates rules name).length with h | h
        · rw [sentenceRun, Decision.run_choose_of_lt select _ _ state h]
          exact .cons (.expand texts after hDepth ⟨_, h⟩) (ih ⟨_, h⟩ _ _ _ rfl)
        · rw [sentenceRun, Decision.run_choose_of_le select _ _ state h]
          exact .of_ending (.refused texts after hDepth hSome h)

theorem followsLeftmost_generateWith (h : defines rules startName = true) (select : Selector σ)
    (bound : Option Nat) (state : σ) :
    FollowsLeftmost rules bound [] startForm (generateWith select rules bound state).log
      (generateWith select rules bound state).value := by
  rw [generateWith, generate_eq_resume h]
  exact followsLeftmost_run select [] startForm state

/-- **The selector is asked once for each step of the leftmost derivation.** What a run notes is
what the selector replies. It is the steps from the start name as far as they go, with the number
of alternatives for the leftmost name and the reply that takes one of them, and then what the
ending asks. -/
theorem leftmost_generateWith (select : Selector σ) (rules : List Rule) (bound : Option Nat)
    (state : σ) (hDefined : defines rules startName = true) :
    let run := generateWith select rules bound state
    Dialogue select state run.log run.state ∧
      ∃ steps final rest, run.log = steps ++ rest ∧
        LeftmostSteps rules (levels bound) startForm steps final ∧
          Ending rules bound (steps.map Prod.snd) final rest run.value :=
  ⟨Decision.dialogue_run select _ (generate rules bound) state,
    followsLeftmost_generateWith hDefined select bound state⟩

/-- Three steps lead to a name at the limit, and the fourth reply picks among all sentences. -/
theorem leftmost_repeatingRules :
    let run := generateWith replay repeatingRules (some 3) [1, 1, 1, 2]
    defines repeatingRules startName = true ∧ run.log = [(2, 1), (2, 1), (2, 1), (3, 2)] ∧
      run.value = .ok ⟨"A A B", [1, 1, 0]⟩ ∧ Dialogue replay [1, 1, 1, 2] run.log run.state ∧
        ∃ steps final rest, run.log = steps ++ rest ∧
          LeftmostSteps repeatingRules 3 startForm steps final ∧
            Ending repeatingRules (some 3) (steps.map Prod.snd) final rest run.value :=
  ⟨rfl, rfl, rfl, leftmost_generateWith replay repeatingRules (some 3) [1, 1, 1, 2] rfl⟩

end PhraseGrammar
