import PhraseGrammar.Proofs.RightHandSide

/-!
# Rules in writing

A rule is written on one line: its name, an arrow, and its symbols, with text as it stands and
names in braces. The line is read back as the rule if the rule is canonical
(`readLine_writtenRule`): no reference starts in its texts, and the braces in them are closed.

Rules whose texts have no dollar sign are canonical, and so are the rules that lines hold
(`canonicalRule_of_readLine_eq_ok`). For these it is not enough that the line was read once, since
names without braces are now written with them. But where a text ends, a name or the line ends it in
either writing, and a brace that was closed before still is (`bracesClosed_writtenRight`).
-/

set_option autoImplicit false

namespace PhraseGrammar.Source

open PhraseGrammar.Text

variable {text other front : List Char} {symbols : List Symbol} {rule : Rule} {number : Nat}
  {line : List Char} {ruleLine : RuleLine}

/-! ## The line of a rule -/

/-- The characters of the symbol: text as it stands, or a name in braces. -/
def writtenSymbol : Symbol → List Char
  | .terminal text => text.toList
  | .nonTerminal name => (Reference.mk name.toList true).spelling

/-- The characters of the symbols. -/
def writtenRight (symbols : List Symbol) : List Char :=
  symbols.flatMap writtenSymbol

/-- The line that holds the rule. -/
def writtenRule (rule : Rule) : List Char :=
  '$' :: (rule.left.toList ++ ' ' :: (arrow ++ ' ' :: writtenRight rule.right))

@[simp] theorem writtenRight_nil : writtenRight [] = [] := rfl

@[simp] theorem writtenRight_cons (symbol : Symbol) (symbols : List Symbol) :
    writtenRight (symbol :: symbols) = writtenSymbol symbol ++ writtenRight symbols :=
  List.flatMap_cons

/-- The names of the rule can be written, and its texts stay on the line, do not touch each other
and are not blank where the right-hand side begins and ends. -/
structure SeparatedRule (rule : Rule) : Prop where
  left_isName : IsName rule.left.toList
  isName : ∀ name, .nonTerminal name ∈ rule.right → IsName name.toList
  text_ne_nil : ∀ text, .terminal text ∈ rule.right → text.toList ≠ []
  newline_not_mem : ∀ text, .terminal text ∈ rule.right → '\n' ∉ text.toList
  isolated : rule.right.IsChain fun first second =>
    first.isTerminal = false ∨ second.isTerminal = false
  first_not_blank : ∀ text, rule.right.head? = some (.terminal text) →
    ∀ c ∈ text.toList.head?, isBlank c = false
  last_not_blank : ∀ text, rule.right.getLast? = some (.terminal text) →
    ∀ c ∈ text.toList.getLast?, isBlank c = false

/-- The texts of the rule have no dollar sign. -/
structure PlainRule (rule : Rule) : Prop extends SeparatedRule rule where
  dollar_not_mem : ∀ text, .terminal text ∈ rule.right → '$' ∉ text.toList

/-- The texts of the rule may have dollar signs and braces, but none that would be taken for a
reference or for a brace left open. -/
structure CanonicalRule (rule : Rule) : Prop extends SeparatedRule rule where
  not_referenceAt : ∀ text, .terminal text ∈ rule.right →
    ∀ position reference, ¬ ReferenceAt text.toList position reference
  bracesClosed : BracesClosed (writtenRight rule.right)

/-! ## Braces -/

theorem bracesClosed_append_of_not_mem (h : '$' ∉ front) (hText : BracesClosed text) :
    BracesClosed (front ++ text) := by
  induction front with
  | nil => exact hText
  | cons c front ih =>
      obtain ⟨hHere, hFront⟩ := not_or.mp (List.mem_cons.not.mp h)
      exact bracesClosed_cons_iff.mpr ⟨fun hOpens => hHere hOpens.1.symm, ih hFront⟩

theorem BracesClosed.of_append (h : BracesClosed (front ++ text)) : BracesClosed text := by
  rintro before after ⟨rfl, hAfter⟩
  exact h (front ++ before) after ⟨by rw [List.append_assoc], hAfter⟩

/-- Where the rest of a text has no closing brace, braces are closed before it. -/
theorem BracesClosed.of_append_of_not_mem (h : BracesClosed (text ++ other))
    (hOther : '}' ∉ other) : BracesClosed text := by
  rintro before after ⟨rfl, hAfter⟩
  refine h before (after ++ other) ⟨by simp, fun hMem => ?_⟩
  exact (List.mem_append.mp hMem).elim hAfter hOther

/-- A name in braces opens and closes one. -/
theorem BracesClosed.braced_append {name : List Char} (h : BracesClosed text)
    (hName : IsName name) : BracesClosed ((Reference.mk name true).spelling ++ text) := by
  have hTail : '$' ∉ (Reference.mk name true).spelling.tail := Reference.dollar_not_mem_tail hName
  rw [Reference.spelling_eq_cons, List.cons_append]
  refine bracesClosed_cons_iff.mpr ⟨?_, bracesClosed_append_of_not_mem hTail h⟩
  rintro ⟨-, -, hClosing⟩
  exact hClosing (by simp [Reference.spelling])

/-- What follows a text may be replaced, if it starts with the same character and has a closing
brace if there was one before. -/
theorem BracesClosed.append_congr (h : BracesClosed (front ++ text)) (hOther : BracesClosed other)
    (hHead : other.head? = text.head?) (hClosing : '}' ∈ text → '}' ∈ other) :
    BracesClosed (front ++ other) := by
  induction front with
  | nil => exact hOther
  | cons c front ih =>
      rw [List.cons_append] at h ⊢
      obtain ⟨hHere, hRest⟩ := bracesClosed_cons_iff.mp h
      refine bracesClosed_cons_iff.mpr ⟨?_, ih hRest⟩
      rintro ⟨hDollar, hBrace, hNone⟩
      refine hHere ⟨hDollar, ?_, fun hMem => hNone ?_⟩
      · rwa [List.head?_append, hHead, ← List.head?_append] at hBrace
      · exact List.mem_append.mpr ((List.mem_append.mp hMem).imp_right hClosing)

theorem bracesClosed_writtenRight_of_not_mem
    (hNames : ∀ name, .nonTerminal name ∈ symbols → IsName name.toList)
    (hTexts : ∀ text, .terminal text ∈ symbols → '$' ∉ text.toList) :
    BracesClosed (writtenRight symbols) := by
  induction symbols with
  | nil => exact bracesClosed_nil
  | cons symbol rest ih =>
      have hRest : BracesClosed (writtenRight rest) :=
        ih (fun name hName => hNames name (List.mem_cons_of_mem _ hName))
          (fun text hText => hTexts text (List.mem_cons_of_mem _ hText))
      rw [writtenRight_cons]
      cases symbol with
      | terminal text => exact bracesClosed_append_of_not_mem (hTexts text List.mem_cons_self) hRest
      | nonTerminal name => exact hRest.braced_append (hNames name List.mem_cons_self)

theorem PlainRule.canonicalRule (h : PlainRule rule) : CanonicalRule rule where
  toSeparatedRule := h.toSeparatedRule
  not_referenceAt := fun text hText _ _ hReference =>
    h.dollar_not_mem text hText (List.mem_of_getElem? hReference.getElem?_eq)
  bracesClosed := bracesClosed_writtenRight_of_not_mem h.isName h.dollar_not_mem

/-! ## Reading the symbols back -/

theorem Piece.isTerminal_symbol (piece : Piece) : piece.symbol.isTerminal = piece.isText := by
  cases piece with
  | text chars => rfl
  | reference number r => rfl

theorem head?_writtenRight_of_isTerminal_eq_false
    (h : ∀ symbol ∈ symbols.head?, symbol.isTerminal = false) :
    ∀ c ∈ (writtenRight symbols).head?, EndsReference c := by
  cases symbols with
  | nil => exact fun c hc => (Option.not_mem_none c hc).elim
  | cons symbol rest =>
      cases symbol with
      | terminal text => exact absurd (h _ rfl) (by simp [Symbol.isTerminal])
      | nonTerminal name => exact forall_mem_head?_cons.mpr endsReference_dollar

/-- The pieces of the written symbols stand for these symbols. -/
theorem map_symbol_pieces_writtenRight
    (hNames : ∀ name, .nonTerminal name ∈ symbols → IsName name.toList)
    (hTexts : ∀ text, .terminal text ∈ symbols → text.toList ≠ [])
    (hPlain : ∀ text, .terminal text ∈ symbols →
      ∀ position reference, ¬ ReferenceAt text.toList position reference)
    (hIsolated : symbols.IsChain fun first second =>
      first.isTerminal = false ∨ second.isTerminal = false) (before : Nat) :
    (pieces before (writtenRight symbols)).map Piece.symbol = symbols := by
  induction symbols generalizing before with
  | nil => rw [writtenRight_nil, pieces, List.map_nil]
  | cons symbol rest ih =>
      obtain ⟨hNext, hIsolated⟩ := List.isChain_cons.mp hIsolated
      have hRest := ih (fun name hName => hNames name (List.mem_cons_of_mem _ hName))
        (fun text hText => hTexts text (List.mem_cons_of_mem _ hText))
        (fun text hText => hPlain text (List.mem_cons_of_mem _ hText)) hIsolated
      rw [writtenRight_cons]
      cases symbol with
      | nonTerminal name =>
          rw [writtenSymbol, pieces_spelling_append (hNames name List.mem_cons_self) rfl,
            List.map_cons, hRest, Piece.symbol, String.ofList_toList]
      | terminal text =>
          -- the text ends where the next symbol begins, since that is a name
          have hNext : ∀ symbol ∈ rest.head?, symbol.isTerminal = false := fun symbol hSymbol =>
            (hNext symbol hSymbol).resolve_left (by simp [Symbol.isTerminal])
          have hPieces : ∀ before, ∀ piece ∈ (pieces before (writtenRight rest)).head?,
              piece.isText = false := by
            intro before piece hPiece
            rw [← piece.isTerminal_symbol]
            apply hNext
            rw [← hRest before, List.head?_map]
            exact Option.mem_map_of_mem _ hPiece
          have hNone : ∀ position < text.toList.length, ∀ reference,
              ¬ ReferenceAt (text.toList ++ writtenRight rest) position reference := by
            intro position hInside reference
            rw [referenceAt_append_of_endsReference
              (head?_writtenRight_of_isTerminal_eq_false hNext) hInside]
            exact hPlain text List.mem_cons_self position reference
          rw [writtenSymbol, pieces_text_append (hTexts text List.mem_cons_self) hNone hPieces,
            List.map_cons, hRest, Piece.symbol, String.ofList_toList]

/-! ## Reading the line back -/

theorem SeparatedRule.head?_writtenRight_not_blank (h : SeparatedRule rule) :
    ∀ c ∈ (writtenRight rule.right).head?, isBlank c = false := by
  have hFirst := h.first_not_blank
  have hTexts := h.text_ne_nil
  cases hRight : rule.right with
  | nil => exact fun c hc => (Option.not_mem_none c hc).elim
  | cons symbol rest =>
      rw [hRight] at hFirst hTexts
      cases symbol with
      | terminal text =>
          rw [writtenRight_cons, writtenSymbol,
            List.head?_append_of_ne_nil _ (hTexts text List.mem_cons_self)]
          exact hFirst text rfl
      | nonTerminal name => exact forall_mem_head?_cons.mpr (by decide)

theorem SeparatedRule.getLast?_writtenRight_not_blank (h : SeparatedRule rule) :
    ∀ c ∈ (writtenRight rule.right).getLast?, isBlank c = false := by
  have hLast := h.last_not_blank
  have hTexts := h.text_ne_nil
  rcases List.eq_nil_or_concat rule.right with hRight | ⟨init, symbol, hRight⟩
  · rw [hRight]
    exact fun c hc => (Option.not_mem_none c hc).elim
  · rw [hRight, List.concat_eq_append] at hLast hTexts ⊢
    intro c hc
    rw [writtenRight, List.flatMap_append, List.flatMap_singleton] at hc
    cases symbol with
    | terminal text =>
        rw [writtenSymbol, List.getLast?_append_of_ne_nil _ (hTexts text (by simp))] at hc
        exact hLast text (by simp) c hc
    | nonTerminal name =>
        have hSpelling : writtenSymbol (.nonTerminal name) = ('$' :: '{' :: name.toList) ++ ['}'] :=
          rfl
        rw [hSpelling, ← List.append_assoc, List.getLast?_concat] at hc
        obtain rfl := Option.some.inj hc
        decide

theorem headCut_writtenRule (h : IsName rule.left.toList) :
    HeadCut (writtenRule rule) rule.left.toList (arrow ++ ' ' :: writtenRight rule.right) :=
  ⟨[], [' '], rfl, allBlank_nil, h, forall_mem_head?_cons.mpr (by decide), allBlank_space,
    forall_mem_head?_cons.mpr (by decide)⟩

/-- **The line of a canonical rule holds the rule.** -/
theorem readLine_writtenRule (h : CanonicalRule rule) (number : Nat) :
    ∃ ruleLine, readLine number (writtenRule rule) = .ok ruleLine ∧
      ruleLine.rule = { rule with lineNumber := number } := by
  have hClosed : BracesClosed (' ' :: writtenRight rule.right) :=
    bracesClosed_cons_iff.mpr ⟨fun hOpens => absurd hOpens.1 (by decide), h.bracesClosed⟩
  have hLead : (' ' :: writtenRight rule.right).dropWhile isBlank = writtenRight rule.right :=
    (takeWhile_dropWhile_eq allBlank_space h.head?_writtenRight_not_blank).2
  refine ⟨_, readLine_eq_ok_of_headCut (headCut_writtenRule h.left_isName)
    (unclosedBrace?_eq_none_iff.mpr hClosed), ?_⟩
  rw [hLead, trimEnd_eq_self h.getLast?_writtenRight_not_blank, RuleLine.rule]
  simp only [map_symbol_pieces_writtenRight h.isName h.text_ne_nil h.not_referenceAt h.isolated,
    String.ofList_toList]

/-! ## The rules that lines hold -/

@[simp] theorem writtenSymbol_text (chars : List Char) :
    writtenSymbol (Piece.text chars).symbol = chars :=
  String.toList_ofList

@[simp] theorem writtenSymbol_reference (number : Nat) (reference : Reference) :
    writtenSymbol (Piece.reference number reference).symbol =
      (Reference.mk reference.name true).spelling := by
  rw [Piece.symbol, writtenSymbol, String.toList_ofList]

theorem writtenRight_map_symbol (parts : List Piece) :
    writtenRight (parts.map Piece.symbol) = parts.flatMap fun part => writtenSymbol part.symbol :=
  List.flatMap_map ..

theorem head?_writtenRight_map_symbol (parts : List Piece) :
    (writtenRight (parts.map Piece.symbol)).head? = (parts.flatMap Piece.spelling).head? := by
  induction parts with
  | nil => rfl
  | cons part parts ih =>
      rw [List.map_cons, writtenRight_cons, List.flatMap_cons, List.head?_append,
        List.head?_append, ih]
      cases part with
      | text chars => rw [writtenSymbol_text, Piece.spelling]
      | reference number r =>
          -- both spellings start with the dollar sign
          rw [writtenSymbol_reference, Piece.spelling, Reference.spelling_eq_cons,
            Reference.spelling_eq_cons r]
          rfl

theorem closingBrace_mem_writtenRight {parts : List Piece}
    (h : '}' ∈ parts.flatMap Piece.spelling) : '}' ∈ writtenRight (parts.map Piece.symbol) := by
  obtain ⟨part, hPart, hMem⟩ := List.mem_flatMap.mp h
  rw [writtenRight_map_symbol]
  refine List.mem_flatMap.mpr ⟨part, hPart, ?_⟩
  cases part with
  | text chars => simpa [Piece.spelling] using hMem
  | reference number r => simp [Reference.spelling]

/-- Writing every name in braces leaves no brace open that was closed before. -/
theorem bracesClosed_writtenRight {parts : List Piece}
    (hNames : ∀ number reference, .reference number reference ∈ parts → IsName reference.name)
    (h : BracesClosed (parts.flatMap Piece.spelling)) :
    BracesClosed (writtenRight (parts.map Piece.symbol)) := by
  induction parts with
  | nil => exact bracesClosed_nil
  | cons part parts ih =>
      rw [List.flatMap_cons] at h
      have hRest := ih (fun number reference hMem =>
        hNames number reference (List.mem_cons_of_mem _ hMem)) h.of_append
      rw [List.map_cons, writtenRight_cons]
      cases part with
      | text chars =>
          rw [writtenSymbol_text]
          exact h.append_congr hRest (head?_writtenRight_map_symbol parts)
            closingBrace_mem_writtenRight
      | reference number r =>
          rw [writtenSymbol_reference]
          exact hRest.braced_append (hNames number r List.mem_cons_self)

theorem Piece.symbol_eq_terminal_iff {part : Piece} {text : String} :
    part.symbol = .terminal text ↔ part = .text text.toList := by
  cases part with
  | text chars =>
      rw [Piece.symbol, Symbol.terminal.injEq, Piece.text.injEq]
      constructor
      · rintro rfl
        rw [String.toList_ofList]
      · rintro rfl
        rw [String.ofList_toList]
  | reference number r => simp [Piece.symbol]

theorem Piece.symbol_eq_nonTerminal_iff {part : Piece} {name : String} :
    part.symbol = .nonTerminal name ↔
      ∃ number reference, part = .reference number reference ∧ reference.name = name.toList := by
  cases part with
  | text chars => simp [Piece.symbol]
  | reference number r =>
      simp only [Piece.symbol, Symbol.nonTerminal.injEq, Piece.reference.injEq]
      constructor
      · rintro rfl
        exact ⟨number, r, ⟨rfl, rfl⟩, String.toList_ofList.symm⟩
      · rintro ⟨_, _, ⟨rfl, rfl⟩, hName⟩
        rw [hName, String.ofList_toList]

variable {before : Nat} {body left : List Char} {parts : List Piece}

theorem terminal_mem_map_symbol_iff {text : String} :
    .terminal text ∈ parts.map Piece.symbol ↔ .text text.toList ∈ parts := by
  simp [List.mem_map, Piece.symbol_eq_terminal_iff]

theorem Layout.isName_of_mem {name : String} (h : Layout before body parts)
    (hName : .nonTerminal name ∈ parts.map Piece.symbol) : IsName name.toList := by
  obtain ⟨part, hPart, hSymbol⟩ := List.mem_map.mp hName
  obtain ⟨number, reference, rfl, hSpelled⟩ := Piece.symbol_eq_nonTerminal_iff.mp hSymbol
  obtain ⟨position, -, after, -, hReference, -⟩ := h.mem_iff.mp hPart
  rwa [← hSpelled]

/-- A layout is a canonical right-hand side if its text is not blank at either end, stays on the
line and leaves no brace open. -/
theorem Layout.canonicalRule (h : Layout before body parts) (hLeft : IsName left)
    (hFirst : ∀ c ∈ body.head?, isBlank c = false) (hLast : ∀ c ∈ body.getLast?, isBlank c = false)
    (hLine : '\n' ∉ body) (hClosed : BracesClosed body) :
    CanonicalRule (RuleLine.rule ⟨left, parts, number⟩) where
  left_isName := by rwa [RuleLine.rule, String.toList_ofList]
  isName := fun name hName => h.isName_of_mem hName
  text_ne_nil := fun text hText => h.text_ne_nil _ (terminal_mem_map_symbol_iff.mp hText)
  newline_not_mem := by
    intro text hText hNewline
    rw [← h.spelled] at hLine
    exact hLine (List.mem_flatMap.mpr ⟨_, terminal_mem_map_symbol_iff.mp hText, hNewline⟩)
  isolated := by
    rw [RuleLine.rule, List.isChain_map]
    simpa only [Piece.isTerminal_symbol] using h.isolated
  first_not_blank := by
    intro text hText c hc
    cases parts with
    | nil => cases hText
    | cons part others =>
        obtain rfl := Piece.symbol_eq_terminal_iff.mp (Option.some.inj hText)
        apply hFirst c
        rw [← h.spelled, List.flatMap_cons]
        exact List.mem_head?_append_of_mem_head? hc
  last_not_blank := by
    intro text hText c hc
    rcases List.eq_nil_or_concat parts with rfl | ⟨others, part, rfl⟩
    · cases hText
    · rw [List.concat_eq_append] at h
      rw [RuleLine.rule, List.concat_eq_append, List.map_append, List.map_singleton,
        List.getLast?_concat] at hText
      obtain rfl := Piece.symbol_eq_terminal_iff.mp (Option.some.inj hText)
      apply hLast c
      rw [← h.spelled, List.flatMap_append, List.flatMap_singleton, Piece.spelling]
      exact List.mem_getLast?_append_of_mem_getLast? hc
  not_referenceAt := fun text hText =>
    h.not_referenceAt_of_mem (terminal_mem_map_symbol_iff.mp hText)
  bracesClosed := by
    rw [← h.spelled] at hClosed
    refine bracesClosed_writtenRight (fun number reference hMem => ?_) hClosed
    obtain ⟨position, -, after, -, hName, -⟩ := h.mem_iff.mp hMem
    exact hName

/-- **A line without a line feed holds a canonical rule**, if it holds one. -/
theorem canonicalRule_of_readLine_eq_ok (h : readLine number line = .ok ruleLine)
    (hLine : '\n' ∉ line) : CanonicalRule ruleLine.rule := by
  obtain ⟨tail, hHead, hTail, hRule⟩ := exists_headCut_of_readLine_eq_ok h
  obtain ⟨front, trail, hCut, hBody⟩ := hHead.bodyCut
  obtain ⟨margin, gap, -, -, hLeft, -⟩ := hHead
  rw [hRule]
  refine (layout_pieces _ _).canonicalRule hLeft hCut.head_not_blank hCut.last_not_blank ?_ ?_
  · intro hNewline
    rw [hCut.line_eq] at hLine
    exact hLine (by simp [hNewline])
  · -- the closing braces are in the right-hand side, not among the blanks around it
    rw [← List.takeWhile_append_dropWhile (p := isBlank) (l := tail), hBody] at hTail
    exact hTail.of_append.of_append_of_not_mem (hCut.trail_blank.not_mem (by decide))

end PhraseGrammar.Source
