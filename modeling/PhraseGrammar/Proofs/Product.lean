import PhraseGrammar.Language

/-!
# Right-hand sides one behind the other

The sentences of two right-hand sides, one behind the other, are the products of the sentences of
both, and those of the first side vary more slowly (`expansions_append`).

`expansions` goes by the first symbol and puts its sentences in front of the others. The same list
comes out when the symbols are taken in order and each one goes behind all sentences that have been
begun (`foldl_extend`). Once no sentence is left, nothing that follows can bring one back, so it
makes no difference to stop there (`extendWhileAny_eq_foldl`).
-/

set_option autoImplicit false

namespace PhraseGrammar

variable {expand : String → List Sentence} {fronts middles tails begun : List Sentence}
  {symbols first second : List Symbol}

/-! ## Products -/

/-- Each of the first sentences with each of the others behind it. The others vary faster. -/
def products (fronts tails : List Sentence) : List Sentence :=
  fronts.flatMap fun front => tails.map fun tail => front ++ tail

theorem nil_products (tails : List Sentence) : products [] tails = [] := rfl

theorem products_assoc :
    products (products fronts middles) tails = products fronts (products middles tails) := by
  simp only [products, List.flatMap_assoc, List.flatMap_map, List.map_flatMap, List.map_map,
    Function.comp_def, Sentence.append_assoc]

theorem empty_products (tails : List Sentence) : products [Sentence.empty] tails = tails := by
  simp [products, Sentence.empty_append]

theorem products_empty (fronts : List Sentence) : products fronts [Sentence.empty] = fronts := by
  simp [products, Sentence.append_empty]

/-- Text behind a sentence takes no choice. -/
theorem products_ofText (fronts : List Sentence) (text : String) :
    products fronts [Sentence.ofText text] =
      fronts.map fun front => ⟨front.text ++ text, front.choices⟩ := by
  rw [products, List.map_eq_flatMap]
  refine congrArg (List.flatMap · fronts) (funext fun front => ?_)
  show [Sentence.mk (front.text ++ text) (front.choices ++ [])] = _
  rw [List.append_nil]

/-! ## One right-hand side behind another -/

/-- A text is a single sentence in front of the others. -/
theorem expansions_terminal (expand : String → List Sentence) (text : String)
    (rest : List Symbol) :
    expansions expand (.terminal text :: rest) =
      products [Sentence.ofText text] (expansions expand rest) := by
  rw [expansions, products, List.flatMap_singleton]

theorem expansions_append (expand : String → List Sentence) (first second : List Symbol) :
    expansions expand (first ++ second) =
      products (expansions expand first) (expansions expand second) := by
  induction first with
  | nil => rw [List.nil_append, expansions, empty_products]
  | cons symbol rest ih =>
      cases symbol with
      | terminal text =>
          rw [List.cons_append, expansions_terminal, expansions_terminal, ih, products_assoc]
      | nonTerminal name =>
          rw [List.cons_append, expansions_nonTerminal, expansions_nonTerminal, ih]
          exact products_assoc.symm

/-! ## From left to right -/

/-- What the sentences that have been begun become with one more symbol. -/
def extend (expand : String → List Sentence) (begun : List Sentence) : Symbol → List Sentence
  | .terminal text => begun.map fun front => ⟨front.text ++ text, front.choices⟩
  | .nonTerminal name => products begun (expand name)

/-- Puts the symbols behind the sentences that have been begun, in order, as long as there are such
sentences. -/
def extendWhileAny (expand : String → List Sentence) :
    List Sentence → List Symbol → List Sentence
  | begun, [] => begun
  | begun, symbol :: rest =>
    match extend expand begun symbol with
    | [] => []
    | front :: others => extendWhileAny expand (front :: others) rest

theorem extend_eq_products (begun : List Sentence) (symbol : Symbol) :
    extend expand begun symbol = products begun (expansions expand [symbol]) := by
  cases symbol with
  | terminal text =>
      rw [expansions_terminal, expansions, products_empty, products_ofText, extend]
  | nonTerminal name =>
      rw [extend, expansions_nonTerminal, expansions]
      exact congrArg (products begun) (products_empty (expand name)).symm

/-- Taken in order, the symbols put the sentences of the right-hand side behind those begun. -/
theorem foldl_extend (begun : List Sentence) (symbols : List Symbol) :
    symbols.foldl (extend expand) begun = products begun (expansions expand symbols) := by
  induction symbols generalizing begun with
  | nil => rw [List.foldl_nil, expansions, products_empty]
  | cons symbol rest ih =>
      calc (symbol :: rest).foldl (extend expand) begun
          = products (extend expand begun symbol) (expansions expand rest) := ih _
        _ = products (products begun (expansions expand [symbol])) (expansions expand rest) := by
            rw [extend_eq_products]
        _ = products begun (expansions expand ([symbol] ++ rest)) := by
            rw [products_assoc, expansions_append]

/-- Without a sentence to go on with, the symbols that are left change nothing. -/
theorem extendWhileAny_eq_foldl (begun : List Sentence) (symbols : List Symbol) :
    extendWhileAny expand begun symbols = symbols.foldl (extend expand) begun := by
  induction symbols generalizing begun with
  | nil => rfl
  | cons symbol rest ih =>
      rw [extendWhileAny, List.foldl_cons]
      split
      case h_1 hNone => rw [hNone, foldl_extend, nil_products]
      case h_2 front others hSome => rw [hSome, ih]

/-- **Expansion takes right-hand sides one behind the other to products**, in the order of the
first one and then of the second one. The symbols may be taken from left to right, and that may
end where no sentence is left. -/
theorem expansions_preserves_concatenation (rules : List Rule) (level : Nat) :
    expansions (language rules level) [] = [Sentence.empty] ∧
      (∀ first second, expansions (language rules level) (first ++ second) =
        (expansions (language rules level) first).flatMap fun front =>
          (expansions (language rules level) second).map fun tail => front ++ tail) ∧
      (∀ symbols, extendWhileAny (language rules level) [Sentence.empty] symbols =
        expansions (language rules level) symbols) ∧
      ∀ begun symbols, extendWhileAny (language rules level) begun symbols =
        symbols.foldl (extend (language rules level)) begun := by
  refine ⟨rfl, fun first second => expansions_append _ first second, fun symbols => ?_,
    fun begun symbols => extendWhileAny_eq_foldl begun symbols⟩
  rw [extendWhileAny_eq_foldl, foldl_extend, empty_products]

end PhraseGrammar
