import PhraseGrammar.Grammar
import PhraseGrammar.Proofs.Walk

/-!
# Replaying recorded choices

The choices of a listed sentence are a recording of it: a replay of them generates the sentence
again, takes each of them once, and leaves whatever follows them for the next call
(`generateWith_replay_of_mem`). So the choices of several sentences, one after the other, are a
recording of them all (`generateEach_replay_of_mem`).
-/

set_option autoImplicit false

namespace PhraseGrammar

variable {σ : Type}

/-- Generates once from each grammar, one after the other with one selector. -/
def generateEach (select : Selector σ) :
    List Grammar → σ → Run σ (List (Except GenerateError Sentence))
  | [], state => ⟨[], state, []⟩
  | grammar :: others, state =>
    let first := grammar.generateWith select state
    let rest := generateEach select others first.state
    ⟨first.value :: rest.value, rest.state, first.log ++ rest.log⟩

theorem generateWith_replay_of_mem {rules : List Rule} {bound : Option Nat} {sentence : Sentence}
    (h : sentence ∈ generateAll rules bound) (rest : List Nat) :
    (generateWith replay rules bound (sentence.choices ++ rest)).value = .ok sentence ∧
      (generateWith replay rules bound (sentence.choices ++ rest)).state = rest :=
  Decision.run_replay_of_leads (leads_generate_of_mem h) _ rest

theorem generateEach_replay_of_mem {rules : List Rule} {bound : Option Nat} (rest : List Nat) :
    ∀ sentences : List Sentence, (∀ sentence ∈ sentences, sentence ∈ generateAll rules bound) →
      let run := generateEach replay (List.replicate sentences.length ⟨rules, bound⟩)
        (sentences.flatMap Sentence.choices ++ rest)
      run.value = sentences.map .ok ∧ run.state = rest
  | [], _ => ⟨rfl, rfl⟩
  | sentence :: others, h => by
      have hOthers := generateEach_replay_of_mem rest others fun other hOther =>
        h other (List.mem_cons_of_mem sentence hOther)
      -- what the first call leaves is the recording of the other sentences
      obtain ⟨hValue, hState⟩ := generateWith_replay_of_mem (h sentence List.mem_cons_self)
        (others.flatMap Sentence.choices ++ rest)
      simp only [List.length_cons, List.replicate_succ, List.flatMap_cons, List.append_assoc,
        generateEach, Grammar.generateWith, hValue, hState, List.map_cons]
      exact ⟨congrArg _ hOthers.1, hOthers.2⟩

/-- **Recorded choices replay.** A replay of the choices of a listed sentence generates it and
leaves what follows them; a replay of the choices of several listed sentences generates them in
order and leaves nothing; and a sentence that any selector generated, by its walk or picked from
the list, is generated again by its own choices. -/
theorem replay_of_mem_generateAll (rules : List Rule) (bound : Option Nat) :
    (∀ sentence ∈ generateAll rules bound, ∀ rest : List Nat,
      (generateWith replay rules bound (sentence.choices ++ rest)).value = .ok sentence ∧
        (generateWith replay rules bound (sentence.choices ++ rest)).state = rest) ∧
    (∀ sentences : List Sentence, (∀ sentence ∈ sentences, sentence ∈ generateAll rules bound) →
      let run := generateEach replay (List.replicate sentences.length ⟨rules, bound⟩)
        (sentences.flatMap Sentence.choices)
      run.value = sentences.map .ok ∧ run.state.length = 0) ∧
    ∀ (σ : Type) (select : Selector σ) (state : σ) (sentence : Sentence),
      (generateWith select rules bound state).value = .ok sentence →
        (generateWith replay rules bound sentence.choices).value = .ok sentence ∧
          (generateWith replay rules bound sentence.choices).state.length = 0 := by
  refine ⟨?_, ?_, ?_⟩
  · intro sentence h rest
    exact generateWith_replay_of_mem h rest
  · intro sentences h
    obtain ⟨hValue, hState⟩ := generateEach_replay_of_mem [] sentences h
    rw [List.append_nil] at hValue hState
    exact ⟨hValue, by rw [hState, List.length_nil]⟩
  · intro σ select state sentence h
    -- whatever the selector did, the sentence is listed, and its own choices are a recording
    obtain ⟨choices, hLeads⟩ := exists_leads_of_generateWith_eq_ok h
    have hMem : sentence ∈ generateAll rules bound := mem_generateAll_of_leads_generate hLeads
    obtain ⟨hValue, hState⟩ := generateWith_replay_of_mem hMem []
    rw [List.append_nil] at hValue hState
    exact ⟨hValue, by rw [hState, List.length_nil]⟩

/-- A recording with a choice left over, one of two sentences in a row, and one of a sentence
that was picked from the list after three replies that led nowhere. -/
theorem replay_of_mem_repeatingRules :
    let all := generateAll repeatingRules (some 3)
    let once := (⟨"A B", [1, 0]⟩ : Sentence)
    let twice := (⟨"A A B", [1, 1, 0]⟩ : Sentence)
    (once ∈ all ∧ (generateWith replay repeatingRules (some 3) [1, 0, 7]).value = .ok once ∧
      (generateWith replay repeatingRules (some 3) [1, 0, 7]).state = [7]) ∧
    ((∀ sentence ∈ [twice, once], sentence ∈ all) ∧
      (generateEach replay [⟨repeatingRules, some 3⟩, ⟨repeatingRules, some 3⟩]
        [1, 1, 0, 1, 0]).value = [.ok twice, .ok once]) ∧
    ((generateWith replay repeatingRules (some 3) [1, 1, 1, 2]).value = .ok twice ∧
      (generateWith replay repeatingRules (some 3) [1, 1, 0]).value = .ok twice) := by
  intro all once twice
  have hOnce : once ∈ all := by decide +kernel
  have hBoth : ∀ sentence ∈ [twice, once], sentence ∈ all := by decide +kernel
  obtain ⟨hReplay, hEach, hPicked⟩ := replay_of_mem_generateAll repeatingRules (some 3)
  exact ⟨⟨hOnce, hReplay once hOnce [7]⟩, ⟨hBoth, (hEach [twice, once] hBoth).1⟩,
    rfl, (hPicked _ replay [1, 1, 1, 2] twice rfl).1⟩

end PhraseGrammar
