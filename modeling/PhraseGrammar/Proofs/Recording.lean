import PhraseGrammar.Proofs.Replay

/-!
# Recording what a selector replies

A run depends on its selector through the replies alone: any other selector that gives the same
replies, when it is asked for the same counts in a row, makes the same run (`run_eq_of_dialogue`).
This holds to the end of a run, whether it ends at a value or at a reply out of range, and for
calls one after the other, where each goes on from the state that the call before it has left
(`generateEach_eq_of_dialogue`). The replies of a log, given back by a replay, are such replies.
-/

set_option autoImplicit false

namespace PhraseGrammar

variable {α σ τ : Type} {select : Selector σ} {state final : σ}

/-! ## The same replies -/

theorem dialogue_cons_iff {count index : Nat} {rest : List (Nat × Nat)} :
    Dialogue select state ((count, index) :: rest) final ↔
      (select state count).1 = index ∧ Dialogue select (select state count).2 rest final := by
  constructor
  · rintro ⟨⟩
    exact ⟨rfl, ‹_›⟩
  · rintro ⟨rfl, hRest⟩
    exact .cons hRest

theorem dialogue_append_iff {first second : List (Nat × Nat)} :
    Dialogue select state (first ++ second) final ↔
      ∃ middle, Dialogue select state first middle ∧ Dialogue select middle second final := by
  induction first generalizing state with
  | nil =>
      constructor
      · intro hSecond
        exact ⟨state, .nil state, hSecond⟩
      · rintro ⟨_, ⟨⟩, hSecond⟩
        exact hSecond
  | cons entry rest ih =>
      obtain ⟨count, index⟩ := entry
      simp only [List.cons_append, dialogue_cons_iff, ih]
      constructor
      · rintro ⟨hReply, middle, hRest, hSecond⟩
        exact ⟨middle, ⟨hReply, hRest⟩, hSecond⟩
      · rintro ⟨middle, ⟨hReply, hRest⟩, hSecond⟩
        exact ⟨hReply, middle, hRest, hSecond⟩

/-- A replay gives back the replies that it was given, whatever it is asked for, and leaves what
follows them. -/
theorem dialogue_replay (log : List (Nat × Nat)) (extra : List Nat) :
    Dialogue replay (log.map Prod.snd ++ extra) log extra := by
  induction log with
  | nil => exact .nil extra
  | cons entry rest ih => exact .cons ih

/-! ## The same runs -/

/-- A selector that replies as the log of a run says makes the same run. -/
theorem Decision.run_eq_of_dialogue (refusal : Nat → Nat → α) (decision : Decision α)
    {other : Selector τ} {otherState otherFinal : τ}
    (h : Dialogue other otherState (decision.run select refusal state).log otherFinal) :
    decision.run other refusal otherState =
      ⟨(decision.run select refusal state).value, otherFinal,
        (decision.run select refusal state).log⟩ := by
  induction decision generalizing state otherState with
  | done value =>
      cases h
      rfl
  | choose count next ih =>
      rcases Nat.lt_or_ge (select state count).1 count with hLess | hLe
      · rw [run_choose_of_lt select refusal next state hLess] at h ⊢
        obtain ⟨hReply, hRest⟩ := dialogue_cons_iff.mp h
        have hOther : (other otherState count).1 < count := hReply ▸ hLess
        have hIndex : (⟨(other otherState count).1, hOther⟩ : Fin count) =
            ⟨(select state count).1, hLess⟩ := Fin.ext hReply
        rw [run_choose_of_lt other refusal next otherState hOther, hIndex, ih _ hRest, hReply]
      · -- the run ends with the same reply, which is out of range
        rw [run_choose_of_le select refusal next state hLe] at h ⊢
        obtain ⟨hReply, hRest⟩ := dialogue_cons_iff.mp h
        cases hRest
        rw [run_choose_of_le other refusal next otherState (hReply ▸ hLe), hReply]

/-- The same is true of calls one after the other. -/
theorem generateEach_eq_of_dialogue (grammars : List Grammar) {other : Selector τ}
    {otherState otherFinal : τ}
    (h : Dialogue other otherState (generateEach select grammars state).log otherFinal) :
    generateEach other grammars otherState =
      ⟨(generateEach select grammars state).value, otherFinal,
        (generateEach select grammars state).log⟩ := by
  induction grammars generalizing state otherState with
  | nil =>
      cases h
      rfl
  | cons grammar others ih =>
      obtain ⟨middle, hFirst, hRest⟩ := dialogue_append_iff.mp h
      have hRun : grammar.generateWith other otherState =
          ⟨(grammar.generateWith select state).value, middle,
            (grammar.generateWith select state).log⟩ :=
        Decision.run_eq_of_dialogue _ _ hFirst
      simp only [generateEach, hRun, ih hRest]

/-- **A run is reproduced from the replies in its log.** Whatever the calls are and whatever the
selector replied to them, out of range or for want of a walk that ends, a replay of its replies
gives every call the same result after the same counts and has none left; and of a longer list it
leaves what follows the replies. -/
theorem generateEach_replay_log (select : Selector σ) (grammars : List Grammar) (state : σ) :
    let run := generateEach select grammars state
    let replies := run.log.map Prod.snd
    generateEach replay grammars replies = ⟨run.value, [], run.log⟩ ∧
      ∀ extra, generateEach replay grammars (replies ++ extra) = ⟨run.value, extra, run.log⟩ := by
  intro run replies
  have hExtra : ∀ extra,
      generateEach replay grammars (replies ++ extra) = ⟨run.value, extra, run.log⟩ :=
    fun extra => generateEach_eq_of_dialogue grammars (dialogue_replay run.log extra)
  refine ⟨?_, hExtra⟩
  have hNothing := hExtra []
  rwa [List.append_nil] at hNothing

/-- A sentence that is picked after three replies, and a reply out of range. -/
example :
    let tiring : Selector Nat := fun state count =>
      (if state < 4 then count - 1 else count, state + 1)
    let calls : List Grammar := [⟨repeatingRules, some 2⟩, ⟨repeatingRules, some 2⟩]
    (generateEach tiring calls 0).log = [(2, 1), (2, 1), (2, 1), (2, 1), (2, 2)] ∧
      (generateEach replay calls [1, 1, 1, 1, 2, 9]).value =
        [.ok ⟨"A B", [1, 0]⟩, .error (.selectionOutOfRange 2 2)] ∧
      (generateEach replay calls [1, 1, 1, 1, 2, 9]).state = [9] :=
  ⟨rfl, rfl, rfl⟩

end PhraseGrammar
