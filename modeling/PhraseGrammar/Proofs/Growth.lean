import Mathlib.Data.List.Flatten
import PhraseGrammar.Proofs.Replay

/-!
# More levels and more rules

Rules that are appended keep the numbers of the alternatives in front of them, and a level more
only lets through what was cut off before. So whatever is listed with fewer rules within fewer
levels is listed with more of both, by the same choices and in the same order
(`language_sublist`), though new sentences may stand between old ones. A recording that was made
earlier therefore keeps its meaning.
-/

set_option autoImplicit false

namespace PhraseGrammar

variable {rules more : List Rule} {low high : Nat}

/-! ## Right-hand sides -/

/-- A product of longer lists has the product of the shorter ones in its order. -/
theorem sublist_flatMap_map {α : Type} {fronts moreFronts tails moreTails : List α}
    (combine : α → α → α) (hFronts : fronts.Sublist moreFronts) (hTails : tails.Sublist moreTails) :
    (fronts.flatMap fun front => tails.map (combine front)).Sublist
      (moreFronts.flatMap fun front => moreTails.map (combine front)) := by
  have hInner : (fronts.flatMap fun front => tails.map (combine front)).Sublist
      (fronts.flatMap fun front => moreTails.map (combine front)) :=
    List.Sublist.flatMap_right fronts fun front _ => hTails.map (combine front)
  exact hInner.trans (hFronts.flatMap _)

/-- A right-hand side keeps its sentences in order when its names do. -/
theorem expansions_sublist {expand moreExpand : String → List Sentence}
    (hNames : ∀ name, (expand name).Sublist (moreExpand name)) (symbols : List Symbol) :
    (expansions expand symbols).Sublist (expansions moreExpand symbols) := by
  induction symbols with
  | nil => exact List.Sublist.refl _
  | cons symbol rest ih =>
      cases symbol with
      | terminal text =>
          rw [expansions, expansions]
          exact ih.map _
      | nonTerminal name =>
          rw [expansions_nonTerminal, expansions_nonTerminal]
          exact sublist_flatMap_map _ (hNames name) ih

/-! ## Names -/

/-- A name keeps its sentences in order when rules are appended and levels are added. -/
theorem language_sublist (hLe : low ≤ high) (name : String) :
    (language rules low name).Sublist (language (rules ++ more) high name) := by
  induction low generalizing high name with
  | zero => exact List.nil_sublist _
  | succ low ih =>
      obtain ⟨high, rfl⟩ : ∃ level, high = level + 1 := Nat.exists_eq_add_one.mpr (by omega)
      have hNames : ∀ name,
          (language rules low name).Sublist (language (rules ++ more) high name) :=
        fun name => ih (Nat.le_of_succ_le_succ hLe) name
      rw [language, language, candidates_append, List.zipIdx_append, List.flatMap_append]
      -- the old alternatives come first and have their old numbers
      refine List.Sublist.trans ?_ (List.sublist_append_left _ _)
      refine List.Sublist.flatMap_right _ fun entry _ => ?_
      exact (expansions_sublist hNames entry.1.right).map (Sentence.chosen entry.2)

/-- **Growth keeps what is listed, in its order, and what was recorded.** With rules appended and a
bound that is no smaller, the list of all sentences has the old list in its order. A recording of a
listed sentence gives this sentence and leaves what follows it, and so does that of a sentence
that any selector generated. -/
theorem generateAll_sublist_append (rules more : List Rule) (bound larger : Option Nat)
    (hLe : levels bound ≤ levels larger) :
    (generateAll rules bound).Sublist (generateAll (rules ++ more) larger) ∧
    (∀ sentence ∈ generateAll rules bound, ∀ rest : List Nat,
      (generateWith replay (rules ++ more) larger (sentence.choices ++ rest)).value =
          .ok sentence ∧
        (generateWith replay (rules ++ more) larger (sentence.choices ++ rest)).state = rest) ∧
    ∀ (σ : Type) (select : Selector σ) (state : σ) (sentence : Sentence),
      (generateWith select rules bound state).value = .ok sentence → ∀ rest : List Nat,
        (generateWith replay (rules ++ more) larger (sentence.choices ++ rest)).value =
            .ok sentence ∧
          (generateWith replay (rules ++ more) larger (sentence.choices ++ rest)).state = rest := by
  have hSublist : (generateAll rules bound).Sublist (generateAll (rules ++ more) larger) :=
    language_sublist hLe startName
  refine ⟨hSublist, fun sentence hSentence rest => ?_,
    fun σ select state sentence hSentence rest => ?_⟩
  · exact generateWith_replay_of_mem (hSublist.subset hSentence) rest
  · obtain ⟨choices, hLeads⟩ := exists_leads_of_generateWith_eq_ok hSentence
    have hMem : sentence ∈ generateAll rules bound := mem_generateAll_of_leads_generate hLeads
    exact generateWith_replay_of_mem (hSublist.subset hMem) rest

/-- With a third rule and one level more, new sentences stand before, between and behind the old
ones. -/
theorem generateAll_repeatingRules_sublist :
    let rules := repeatingRules.reverse
    let more : List Rule := [⟨startName, [.nonTerminal startName, .terminal " C"], 3⟩]
    levels (some 2) ≤ levels (some 3) ∧
      (generateAll rules (some 2)).map Sentence.choices = [[0, 1], [1]] ∧
      (generateAll (rules ++ more) (some 3)).map Sentence.choices =
        [[0, 0, 1], [0, 1], [0, 2, 1], [1], [2, 0, 1], [2, 1], [2, 2, 1]] ∧
      (generateAll rules (some 2)).Sublist (generateAll (rules ++ more) (some 3)) ∧
      (generateWith replay (rules ++ more) (some 3) [0, 1, 2]).value = .ok ⟨"A B", [0, 1]⟩ := by
  intro rules more
  have hLe : levels (some 2) ≤ levels (some 3) := by decide
  have hMem : (⟨"A B", [0, 1]⟩ : Sentence) ∈ generateAll rules (some 2) := by decide +kernel
  obtain ⟨hSublist, hReplay, -⟩ := generateAll_sublist_append rules more (some 2) (some 3) hLe
  exact ⟨hLe, by decide +kernel, by decide +kernel, hSublist, (hReplay _ hMem [2]).1⟩

end PhraseGrammar
