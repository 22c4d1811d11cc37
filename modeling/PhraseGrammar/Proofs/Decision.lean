import PhraseGrammar.Selector

/-!
# Choices that lead a decision to a value

`decision.Leads choices value` says that the decision ends at the value when the choices are
taken one at each question, and that none is left over. It is a relation without a selector:
a run follows it as long as the replies are below their counts (`run_cases`), and a replay of
choices that lead to a value takes exactly these (`run_replay_of_leads`). What a run notes is what
the selector replies when it is asked for the counts in a row (`dialogue_run`).
-/

set_option autoImplicit false

namespace PhraseGrammar

variable {α β σ : Type}

/-- Every reply of the run is below its count. -/
def Run.InRange (run : Run σ α) : Prop :=
  ∀ entry ∈ run.log, entry.2 < entry.1

/-- Asked for the counts of the log one after the other, the selector gives the replies of the
log, and it goes from the first state to the last. -/
inductive Dialogue (select : Selector σ) : σ → List (Nat × Nat) → σ → Prop where
  | nil (state : σ) : Dialogue select state [] state
  | cons {state final : σ} {count : Nat} {rest : List (Nat × Nat)}
      (further : Dialogue select (select state count).2 rest final) :
      Dialogue select state ((count, (select state count).1) :: rest) final

namespace Decision

/-! ## Changes of the value -/

/-- Questions with the same count are the same if they go on alike after every reply. -/
theorem choose_congr {count : Nat} {next other : Fin count → Decision α}
    (h : ∀ index, next index = other index) : choose count next = choose count other :=
  congrArg (choose count) (funext h)

/-- Questions with equal counts are the same if they go on alike after every reply. -/
theorem choose_eq_choose {count otherCount : Nat} {next : Fin count → Decision α}
    {otherNext : Fin otherCount → Decision α} (hCount : count = otherCount)
    (h : ∀ index hIndex hOther, next ⟨index, hIndex⟩ = otherNext ⟨index, hOther⟩) :
    choose count next = choose otherCount otherNext := by
  subst hCount
  exact choose_congr fun index => h index index.isLt index.isLt

theorem map_map {γ : Type} (f : α → β) (g : β → γ) (decision : Decision α) :
    (decision.map f).map g = decision.map (g ∘ f) := by
  induction decision with
  | done value => rfl
  | choose count next ih => simp only [map, ih]

theorem bind_map {γ : Type} (f : α → β) (further : β → Decision γ) (decision : Decision α) :
    (decision.map f).bind further = decision.bind (further ∘ f) := by
  induction decision with
  | done value => rfl
  | choose count next ih => simp only [map, bind, ih]

/-! ## Choices that lead to a value -/

/-- The choices, one at each question, lead the decision to the value. -/
inductive Leads : Decision α → List Nat → α → Prop where
  | done (value : α) : Leads (.done value) [] value
  | choose {count : Nat} {next : Fin count → Decision α} {choices : List Nat} {value : α}
      (index : Fin count) (further : Leads (next index) choices value) :
      Leads (.choose count next) (index :: choices) value

theorem leads_done_iff {value final : α} {choices : List Nat} :
    (done value).Leads choices final ↔ choices = [] ∧ value = final := by
  constructor
  · rintro ⟨⟩
    exact ⟨rfl, rfl⟩
  · rintro ⟨rfl, rfl⟩
    exact .done value

theorem leads_choose_iff {count : Nat} {next : Fin count → Decision α} {choices : List Nat}
    {final : α} :
    (choose count next).Leads choices final ↔
      ∃ (index : Fin count) (rest : List Nat),
        (next index).Leads rest final ∧ ↑index :: rest = choices := by
  constructor
  · intro h
    cases h with
    | choose index further => exact ⟨index, _, further, rfl⟩
  · rintro ⟨index, rest, further, rfl⟩
    exact .choose index further

/-- The choices of two decisions in a row are those of the first and then those of the second. -/
theorem leads_bind_iff {decision : Decision α} {further : α → Decision β} {choices : List Nat}
    {final : β} :
    (decision.bind further).Leads choices final ↔
      ∃ first value rest, decision.Leads first value ∧ (further value).Leads rest final ∧
        first ++ rest = choices := by
  induction decision generalizing choices with
  | done value =>
      constructor
      · intro h
        exact ⟨[], value, choices, .done value, h, rfl⟩
      · rintro ⟨first, value', rest, hFirst, hRest, rfl⟩
        obtain ⟨rfl, rfl⟩ := leads_done_iff.mp hFirst
        exact hRest
  | choose count next ih =>
      -- the first question is the first of both sides; what follows it is the inductive case
      simp only [bind, leads_choose_iff, ih]
      constructor
      · rintro ⟨index, _, ⟨first, value, rest, hFirst, hRest, rfl⟩, rfl⟩
        exact ⟨_, value, rest, ⟨index, first, hFirst, rfl⟩, hRest, rfl⟩
      · rintro ⟨_, value, rest, ⟨index, first, hFirst, rfl⟩, hRest, rfl⟩
        exact ⟨index, _, ⟨first, value, rest, hFirst, hRest, rfl⟩, rfl⟩

theorem leads_map_iff {f : α → β} {decision : Decision α} {choices : List Nat} {final : β} :
    (decision.map f).Leads choices final ↔
      ∃ value, decision.Leads choices value ∧ f value = final := by
  simp only [map_eq_bind, leads_bind_iff, leads_done_iff]
  constructor
  · rintro ⟨first, value, _, hFirst, ⟨rfl, hFinal⟩, rfl⟩
    exact ⟨value, by rwa [List.append_nil], hFinal⟩
  · rintro ⟨value, hFirst, hFinal⟩
    exact ⟨choices, value, [], hFirst, ⟨rfl, hFinal⟩, List.append_nil choices⟩

/-- If a decision may come to nothing, what is made of its value may, too. -/
theorem leads_map_some_iff {f : α → β} {decision : Decision (Option α)} {choices : List Nat}
    {final : β} :
    (decision.map fun found => found.map f).Leads choices (some final) ↔
      ∃ value, decision.Leads choices (some value) ∧ f value = final := by
  rw [leads_map_iff]
  constructor
  · rintro ⟨found, hFound, hFinal⟩
    obtain ⟨value, rfl, hValue⟩ := Option.map_eq_some_iff.mp hFinal
    exact ⟨value, hFound, hValue⟩
  · rintro ⟨value, hValue, rfl⟩
    exact ⟨some value, hValue, rfl⟩

/-- What comes after a decision matters only at the values that it can be led to. -/
theorem bind_congr {decision : Decision α} {first second : α → Decision β}
    (h : ∀ choices value, decision.Leads choices value → first value = second value) :
    decision.bind first = decision.bind second := by
  induction decision with
  | done value => exact h [] value (.done value)
  | choose count next ih =>
      rw [bind, bind]
      refine choose_congr fun index => ?_
      exact ih index fun choices value hLeads => h _ value (.choose index hLeads)

/-! ## Runs -/

/-- A run whose replies are all below their counts ends where they lead. Any other run ends at its
first reply that is not below its count, with the refusal of that reply. -/
theorem run_cases (select : Selector σ) (refusal : Nat → Nat → α) (decision : Decision α)
    (state : σ) :
    ((decision.run select refusal state).InRange ∧
      decision.Leads ((decision.run select refusal state).log.map Prod.snd)
        (decision.run select refusal state).value) ∨
      ∃ earlier count index,
        (decision.run select refusal state).log = earlier ++ [(count, index)] ∧
          (∀ entry ∈ earlier, entry.2 < entry.1) ∧ count ≤ index ∧
            (decision.run select refusal state).value = refusal index count := by
  induction decision generalizing state with
  | done value => exact Or.inl ⟨fun entry hEntry => absurd hEntry List.not_mem_nil, .done value⟩
  | choose count next ih =>
      rcases Nat.lt_or_ge (select state count).1 count with h | h
      · -- a reply in range leads on to the rest of the run
        rw [run_choose_of_lt select refusal next state h]
        rcases ih ⟨_, h⟩ (select state count).2 with
          ⟨hRange, hLeads⟩ | ⟨earlier, last, index, hLog, hRange, hIndex, hValue⟩
        · exact Or.inl ⟨List.forall_mem_cons.mpr ⟨h, hRange⟩, .choose ⟨_, h⟩ hLeads⟩
        · refine Or.inr ⟨(count, (select state count).1) :: earlier, last, index, ?_, ?_, hIndex,
            hValue⟩
          · exact congrArg _ hLog
          · exact List.forall_mem_cons.mpr ⟨h, hRange⟩
      · -- any other reply ends the run
        rw [run_choose_of_le select refusal next state h]
        exact Or.inr ⟨[], count, (select state count).1, rfl,
          fun entry hEntry => absurd hEntry List.not_mem_nil, h, rfl⟩

/-- A run ends where its own replies lead, or at a reply that is not below its count. -/
theorem leads_run (select : Selector σ) (refusal : Nat → Nat → α) (decision : Decision α)
    (state : σ) :
    decision.Leads ((decision.run select refusal state).log.map Prod.snd)
        (decision.run select refusal state).value ∨
      ∃ index count, (decision.run select refusal state).value = refusal index count := by
  rcases run_cases select refusal decision state with
    ⟨-, hLeads⟩ | ⟨-, count, index, -, -, -, hRefused⟩
  · exact Or.inl hLeads
  · exact Or.inr ⟨index, count, hRefused⟩

/-- The selector is asked what the log says and nothing else. -/
theorem dialogue_run (select : Selector σ) (refusal : Nat → Nat → α) (decision : Decision α)
    (state : σ) :
    Dialogue select state (decision.run select refusal state).log
      (decision.run select refusal state).state := by
  induction decision generalizing state with
  | done value => exact .nil state
  | choose count next ih =>
      rcases Nat.lt_or_ge (select state count).1 count with h | h
      · rw [run_choose_of_lt select refusal next state h]
        exact .cons (ih ⟨_, h⟩ (select state count).2)
      · rw [run_choose_of_le select refusal next state h]
        exact .cons (.nil _)

/-- A replay takes the choices that lead to a value, and leaves those that follow them. -/
theorem run_replay_of_leads {decision : Decision α} {choices : List Nat} {value : α}
    (h : decision.Leads choices value) (refusal : Nat → Nat → α) (rest : List Nat) :
    (decision.run replay refusal (choices ++ rest)).value = value ∧
      (decision.run replay refusal (choices ++ rest)).state = rest := by
  induction h with
  | done value => exact ⟨rfl, rfl⟩
  | @choose count next choices value index _ ih =>
      have hReply : (replay (↑index :: (choices ++ rest)) count).1 < count := index.isLt
      rw [List.cons_append, run_choose_of_lt replay refusal next _ hReply]
      exact ih

end Decision

end PhraseGrammar
