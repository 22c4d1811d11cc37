import Mathlib.Data.List.DropRight
import PhraseGrammar.Proofs.Lines
import PhraseGrammar.Proofs.Parse

/-!
# Blanks around lines

Blanks at the end of a line have no effect on what is read of it (`readLine_append_trail`), and
blanks at its start only move what is read to the right (`readLine_append_lead`). So two sources are
read alike if their lines are the same up to such blanks (`LinesBehind`), whatever ends the lines
and however many blank lines follow the last one.
-/

set_option autoImplicit false

namespace PhraseGrammar.Source

open PhraseGrammar.Text

variable {line name rest tail front after lead trail text : List Char} {number : Nat}

/-! ## Texts without the blanks at their end -/

theorem AllBlank.append (h : AllBlank text) (hTrail : AllBlank trail) :
    AllBlank (text ++ trail) :=
  fun c hc => (List.mem_append.mp hc).elim (h c) (hTrail c)

theorem trimEnd_append_of_allBlank (h : AllBlank trail) :
    trimEnd (text ++ trail) = trimEnd text := by
  have hBlank : ∀ c ∈ trail.reverse, isBlank c = true :=
    fun c hc => h c (List.mem_reverse.mp hc)
  rw [trimEnd, List.reverse_append, List.dropWhile_append_of_pos hBlank, ← trimEnd]

/-- Behind a character that is not blank, only the blanks of the rest are dropped. -/
theorem trimEnd_append (hLast : ∀ c ∈ front.getLast?, isBlank c = false) (rest : List Char) :
    trimEnd (front ++ rest) = front ++ trimEnd rest := by
  obtain ⟨trail, hRest, hTrail, hEnd⟩ := trimEnd_spec rest
  calc trimEnd (front ++ rest)
      = trimEnd (front ++ trimEnd rest ++ trail) := by rw [List.append_assoc, ← hRest]
    _ = trimEnd (front ++ trimEnd rest) := trimEnd_append_of_allBlank hTrail
    _ = front ++ trimEnd rest := trimEnd_eq_self fun c hc => by
        rw [List.getLast?_append] at hc
        cases hTrim : (trimEnd rest).getLast? with
        | none => exact hLast c (by rwa [hTrim, Option.none_or] at hc)
        | some d => exact hEnd c (by rwa [hTrim, Option.some_or, ← hTrim] at hc)

theorem trimEnd_eq_nil_iff : trimEnd text = [] ↔ AllBlank text :=
  List.rdropWhile_eq_nil_iff

/-- A text that does not end with a blank, in front of others that end with blanks, ends before
these blanks. -/
theorem exists_eq_append_of_last_not_blank (hTrail : AllBlank trail)
    (hLast : ∀ c ∈ front.getLast?, isBlank c = false) (h : text ++ trail = front ++ rest) :
    ∃ after, text = front ++ after ∧ rest = after ++ trail := by
  rcases List.append_eq_append_iff.mp h with ⟨others, hFront, hBlank⟩ | ⟨after, hText, hRest⟩
  · rcases List.eq_nil_or_concat others with rfl | ⟨init, c, rfl⟩
    · exact ⟨[], by simpa using hFront.symm, by simpa using hBlank.symm⟩
    · -- the last character of the front would be among the blanks
      have hChar : isBlank c = true := hTrail c (by rw [hBlank]; simp)
      rw [hLast c (by rw [hFront]; simp)] at hChar
      cases hChar
  · exact ⟨after, hText, hRest⟩

/-! ## Blanks at the end of a line -/

theorem startsWithName_append_iff (hTrail : AllBlank trail) :
    StartsWithName (line ++ trail) ↔ StartsWithName line := by
  constructor
  · rintro ⟨margin, name, rest, hLine, hMargin, hName⟩
    have hSplit : line ++ trail = (margin ++ '$' :: name) ++ rest := by
      rw [hLine]
      simp
    have hLast : ∀ c ∈ (margin ++ '$' :: name).getLast?, isBlank c = false := by
      intro c hc
      rw [List.getLast?_append_of_ne_nil _ (List.cons_ne_nil _ _)] at hc
      rcases List.mem_cons.mp (List.mem_of_getLast? hc) with rfl | hMem
      · decide
      · exact isBlank_eq_false_of_isNameChar (hName.2 c hMem)
    obtain ⟨after, rfl, -⟩ := exists_eq_append_of_last_not_blank hTrail hLast hSplit
    exact ⟨margin, name, after, by simp, hMargin, hName⟩
  · rintro ⟨margin, name, rest, rfl, hMargin, hName⟩
    exact ⟨margin, name, rest ++ trail, by simp, hMargin, hName⟩

theorem arrow_prefix_append_iff (hTrail : AllBlank trail) :
    arrow <+: rest ++ trail ↔ arrow <+: rest := by
  constructor
  · rintro ⟨after, hRest⟩
    have hLast : ∀ c ∈ arrow.getLast?, isBlank c = false := by
      intro c hc
      obtain rfl := Option.some.inj hc
      decide
    obtain ⟨tail, rfl, -⟩ := exists_eq_append_of_last_not_blank hTrail hLast hRest.symm
    exact ⟨tail, rfl⟩
  · exact fun h => h.trans (List.prefix_append _ _)

/-- Blanks open and close no brace. -/
theorem opensUnclosed_append_iff (hTrail : AllBlank trail) :
    OpensUnclosed (text ++ trail) front rest ↔
      ∃ after, rest = after ++ trail ∧ OpensUnclosed text front after := by
  have hClosing : '}' ∉ trail := hTrail.not_mem (by decide)
  constructor
  · rintro ⟨hText, hNone⟩
    have hLast : ∀ c ∈ (front ++ ['$', '{']).getLast?, isBlank c = false := by
      intro c hc
      rw [List.getLast?_append_of_ne_nil _ (List.cons_ne_nil _ _)] at hc
      obtain rfl := Option.some.inj hc
      decide
    have hSplit : text ++ trail = (front ++ ['$', '{']) ++ rest := by
      rw [hText]
      simp
    obtain ⟨after, rfl, rfl⟩ := exists_eq_append_of_last_not_blank hTrail hLast hSplit
    exact ⟨after, rfl, by simp, fun hMem => hNone (List.mem_append_left _ hMem)⟩
  · rintro ⟨after, rfl, rfl, hNone⟩
    exact ⟨by simp, fun hMem => (List.mem_append.mp hMem).elim hNone hClosing⟩

theorem FirstUnclosed.append (hTrail : AllBlank trail) (h : FirstUnclosed text after) :
    FirstUnclosed (text ++ trail) (after ++ trail) := by
  obtain ⟨front, hOpens, hFirst⟩ := h
  refine ⟨front, (opensUnclosed_append_iff hTrail).mpr ⟨after, rfl, hOpens⟩, ?_⟩
  intro other later hOther
  obtain ⟨_, -, hOther⟩ := (opensUnclosed_append_iff hTrail).mp hOther
  exact hFirst other _ hOther

theorem HeadCut.append (hRest : rest ≠ []) (h : HeadCut line name rest) (trail : List Char) :
    HeadCut (line ++ trail) name (rest ++ trail) := by
  obtain ⟨margin, gap, rfl, hMargin, hName, hStop, hGap, hHead⟩ := h
  have hNext : gap ++ rest ≠ [] := List.append_ne_nil_of_right_ne_nil gap hRest
  refine ⟨margin, gap, by simp, hMargin, hName, ?_, hGap, ?_⟩
  · rwa [← List.append_assoc, List.head?_append_of_ne_nil _ hNext]
  · rwa [List.head?_append_of_ne_nil _ hRest]

/-- Where nothing follows the blanks after the name, more blanks may follow. -/
theorem HeadCut.append_nil (hTrail : AllBlank trail) (h : HeadCut line name []) :
    HeadCut (line ++ trail) name [] := by
  obtain ⟨margin, gap, rfl, hMargin, hName, -, hGap, hHead⟩ := h
  refine ⟨margin, gap ++ trail, by simp, hMargin, hName, fun c hc => ?_, hGap.append hTrail, hHead⟩
  rw [List.append_nil] at hc
  exact (endsReference_of_isBlank ((hGap.append hTrail) c (List.mem_of_mem_head? hc))).1

/-- The faults of a line do not depend on blanks at its end. -/
theorem Verdict.append {fault : Fault} (hTrail : AllBlank trail)
    (h : Verdict number line (.error fault)) : Verdict number (line ++ trail) (.error fault) := by
  cases h with
  | invalidLeftHandSide hName =>
      exact .invalidLeftHandSide ((startsWithName_append_iff hTrail).not.mpr hName)
  | @missingArrow name rest hHead hArrow =>
      rcases eq_or_ne rest [] with rfl | hRest
      · exact .missingArrow (hHead.append_nil hTrail) hArrow
      · exact .missingArrow (hHead.append hRest trail)
          ((arrow_prefix_append_iff hTrail).not.mpr hArrow)
  | missingClosingBrace hHead hBrace hNumber =>
      have hHead := hHead.append (by simp [arrow]) trail
      rw [List.append_assoc] at hHead
      refine .missingClosingBrace hHead (hBrace.append hTrail) ?_
      rw [List.length_append, List.length_append, ← hNumber, Nat.add_assoc]

/-- The right-hand side and the place where it starts do not depend on blanks behind it, unless it
is empty. -/
theorem pieces_dropWhile_append (hTrail : AllBlank trail) (line tail : List Char) :
    pieces ((line ++ trail).length - ((tail ++ trail).dropWhile isBlank).length)
        (trimEnd ((tail ++ trail).dropWhile isBlank)) =
      pieces (line.length - (tail.dropWhile isBlank).length)
        (trimEnd (tail.dropWhile isBlank)) := by
  by_cases hTail : tail.dropWhile isBlank = []
  · have hBoth : (tail ++ trail).dropWhile isBlank = [] := by
      rw [List.dropWhile_eq_nil_iff] at hTail ⊢
      exact AllBlank.append hTail hTrail
    have hNone : trimEnd [] = [] := rfl
    rw [hTail, hBoth, hNone, pieces, pieces]
  · have hBoth : (tail ++ trail).dropWhile isBlank = tail.dropWhile isBlank ++ trail := by
      rw [List.dropWhile_append, if_neg (by simpa using hTail)]
    rw [hBoth, trimEnd_append_of_allBlank hTrail, List.length_append, List.length_append,
      Nat.add_sub_add_right]

/-- **Blanks at the end of a line do not matter.** -/
theorem readLine_append_trail (hTrail : AllBlank trail) (number : Nat) (line : List Char) :
    readLine number (line ++ trail) = readLine number line := by
  cases hRead : readLine number line with
  | error fault =>
      exact readLine_eq_error_iff.mpr ((readLine_eq_error_iff.mp hRead).append hTrail)
  | ok ruleLine =>
      obtain ⟨tail, hHead, hClosed, hRule⟩ := exists_headCut_of_readLine_eq_ok hRead
      have hHead := hHead.append (by simp [arrow]) trail
      rw [List.append_assoc] at hHead
      have hStillClosed : BracesClosed (tail ++ trail) := by
        intro front later hOpens
        obtain ⟨after, -, hOpens⟩ := (opensUnclosed_append_iff hTrail).mp hOpens
        exact hClosed front after hOpens
      rw [readLine_eq_ok_of_headCut hHead (unclosedBrace?_eq_none_iff.mpr hStillClosed),
        pieces_dropWhile_append hTrail, ← hRule]

theorem readLine_trimEnd (number : Nat) (line : List Char) :
    readLine number (trimEnd line) = readLine number line := by
  obtain ⟨trail, hLine, hTrail, -⟩ := trimEnd_spec line
  calc readLine number (trimEnd line)
      = readLine number (trimEnd line ++ trail) := (readLine_append_trail hTrail _ _).symm
    _ = readLine number line := by rw [← hLine]

/-! ## Blanks at the start of a line -/

/-- The piece, so many characters further to the right. -/
def Piece.moveRight (count : Nat) : Piece → Piece
  | .text chars => .text chars
  | .reference number r => .reference (number + count) r

/-- The line with a rule, with everything behind its start so many characters further to the
right. -/
def RuleLine.moveRight (count : Nat) (line : RuleLine) : RuleLine :=
  { line with pieces := line.pieces.map (Piece.moveRight count) }

/-- The place, as many characters further to the right as its line is moved. -/
def Location.moveRight (moves : Nat → Nat) (place : Location) : Location :=
  { place with characterNumber := place.characterNumber + moves place.lineNumber }

/-- The fault, at the same line, and with its character as much further to the right as the line
is moved. -/
def Fault.moveRight (moves : Nat → Nat) : Fault → Fault
  | .missingArrow line => .missingArrow line
  | .missingClosingBrace line brace => .missingClosingBrace line (brace + moves line)
  | .invalidLeftHandSide line => .invalidLeftHandSide line
  | .noProductionRule name location =>
    .noProductionRule name (location.map (Location.moveRight moves))
  | .ruleNeverUsed name line => .ruleNeverUsed name line

/-- What a line comes to, if the lines are moved to the right. -/
def resultMoveRight (moves : Nat → Nat) : Except Fault RuleLine → Except Fault RuleLine :=
  changeResult (Fault.moveRight moves) fun ruleLine =>
    ruleLine.moveRight (moves ruleLine.lineNumber)

theorem unclosedBrace?_add (before count : Nat) (text : List Char) :
    unclosedBrace? (before + count) text = (unclosedBrace? before text).map (· + count) := by
  induction text generalizing before with
  | nil => rfl
  | cons c text ih =>
      rw [unclosedBrace?, unclosedBrace?]
      split
      · rw [Option.map_some, Nat.add_right_comm]
      · rw [Nat.add_right_comm, ih]

theorem map_moveRight_pushText (count : Nat) (c : Char) (parts : List Piece) :
    (pushText c parts).map (Piece.moveRight count) =
      pushText c (parts.map (Piece.moveRight count)) := by
  cases parts with
  | nil => rfl
  | cons part others =>
      cases part with
      | text chars => rfl
      | reference number r => rfl

theorem pieces_add (before count : Nat) (text : List Char) :
    pieces (before + count) text = (pieces before text).map (Piece.moveRight count) := by
  fun_induction pieces before text with
  | case1 before => rw [pieces, List.map_nil]
  | case2 before c rest r hReference ih =>
      rw [pieces, hReference]
      show Piece.reference _ _ :: pieces _ _ = _
      rw [Nat.add_right_comm before count 1, Nat.add_right_comm before count r.width, ih]
      rfl
  | case3 before c rest hNone ih =>
      rw [pieces, hNone]
      show pushText c (pieces _ _) = _
      rw [Nat.add_right_comm before count 1, ih, map_moveRight_pushText]

theorem length_le_of_afterArrow? {body : List Char} (h : afterArrow? rest = some body) :
    body.length ≤ rest.length := by
  rw [afterArrow?.eq_def] at h
  split at h
  case h_1 tail =>
      obtain rfl := Option.some.inj h
      have hBody := (List.dropWhile_sublist isBlank (l := tail)).length_le
      simp only [List.length_cons]
      omega
  case h_2 => cases h

theorem HeadCut.length_le (h : HeadCut line name rest) : rest.length ≤ line.length := by
  obtain ⟨margin, gap, rfl, -⟩ := h
  simp only [List.length_append, List.length_cons]
  omega

/-- **Blanks at the start of a line move what is read of it to the right.** -/
theorem readLine_append_lead {moves : Nat → Nat} (hLead : AllBlank lead)
    (hMoves : moves number = lead.length) (line : List Char) :
    readLine number (lead ++ line) = resultMoveRight moves (readLine number line) := by
  have hHead : leftHandSide? (lead ++ line) = leftHandSide? line := by
    rw [leftHandSide?, leftHandSide?, List.dropWhile_append_of_pos hLead]
  rw [readLine, readLine, hHead]
  cases hCut : leftHandSide? line with
  | none => rfl
  | some cut =>
      obtain ⟨name, rest⟩ := cut
      cases hArrow : afterArrow? rest with
      | none => simp only [hArrow, resultMoveRight, changeResult, Fault.moveRight]
      | some body =>
          have hRest : rest.length ≤ line.length :=
            (headCut_of_leftHandSide?_eq_some hCut).length_le
          have hBody : body.length ≤ rest.length := length_le_of_afterArrow? hArrow
          have hBefore : (lead ++ line).length - body.length =
              (line.length - body.length) + lead.length := by
            rw [List.length_append]
            omega
          simp only [hArrow, hBefore, unclosedBrace?_add, pieces_add]
          cases unclosedBrace? (line.length - body.length) body with
          | none =>
              simp only [Option.map_none, resultMoveRight, changeResult, RuleLine.moveRight, hMoves]
          | some brace =>
              simp only [Option.map_some, resultMoveRight, changeResult, Fault.moveRight, hMoves]

/-! ## Sources line by line -/

/-- What a numbered line comes to, unless it is blank. -/
def readNumbered (entry : List Char × Nat) : Option (Except Fault RuleLine) :=
  if AllBlank entry.1 then none else some (readLine entry.2 entry.1)

theorem readLines_eq_filterMap (source : List Char) :
    readLines source = (numberedLines source).filterMap readNumbered := by
  rw [readLines_eq_map, filledLines, ← List.filterMap_eq_map, ← List.filterMap_eq_filter,
    List.filterMap_filterMap]
  refine List.filterMap_congr fun entry _ => ?_
  by_cases hBlank : AllBlank entry.1
  · simp [readNumbered, hBlank]
  · simp [readNumbered, hBlank]

theorem readNumbered_trimEnd (number : Nat) (line : List Char) :
    readNumbered (trimEnd line, number) = readNumbered (line, number) := by
  obtain ⟨trail, hLine, hTrail, -⟩ := trimEnd_spec line
  have hBlank : AllBlank (trimEnd line) ↔ AllBlank line := by
    refine ⟨fun h => ?_, fun h c hc => h c ?_⟩
    · rw [hLine]
      exact h.append hTrail
    · rw [hLine]
      exact List.mem_append_left _ hc
  simp only [readNumbered, hBlank, readLine_trimEnd]

theorem readNumbered_append_lead {moves : Nat → Nat} (hLead : AllBlank lead)
    (hMoves : moves number = lead.length) (line : List Char) :
    readNumbered (lead ++ line, number) =
      (readNumbered (line, number)).map (resultMoveRight moves) := by
  have hBlank : AllBlank (lead ++ line) ↔ AllBlank line :=
    ⟨fun h c hc => h c (List.mem_append_right lead hc), hLead.append⟩
  simp only [readNumbered, hBlank, readLine_append_lead hLead hMoves]
  split
  · rfl
  · rfl

/-- Up to blanks at their ends, the lines of the other source are those of the source, each behind
its lead, and blank lines after them. -/
def LinesBehind (leads : Nat → List Char) (source other : List Char) : Prop :=
  ∃ count, (lines other).map trimEnd =
    (numberedLines source).map (fun entry => trimEnd (leads entry.2 ++ entry.1)) ++
      List.replicate count []

/-- Numbers count what is made of numbered items as they count the items. -/
theorem zipIdx_map_zipIdx {α β : Type} (f : α × Nat → β) (items : List α) (start : Nat) :
    ((items.zipIdx start).map f).zipIdx start =
      (items.zipIdx start).map fun entry => (f entry, entry.2) := by
  induction items generalizing start with
  | nil => rfl
  | cons item items ih => simp only [List.zipIdx_cons, List.map_cons, ih]

variable {source other : List Char} {leads : Nat → List Char}

theorem LinesBehind.readLines_eq (h : LinesBehind leads source other)
    (hLeads : ∀ number, AllBlank (leads number)) :
    readLines other =
      (readLines source).map (resultMoveRight fun number => (leads number).length) := by
  obtain ⟨count, hLines⟩ := h
  have hBlank : ∀ entry ∈ (List.replicate count ([] : List Char)).zipIdx
      (1 + ((numberedLines source).map fun entry =>
        trimEnd (leads entry.2 ++ entry.1)).length), readNumbered entry = none := by
    intro entry hEntry
    have hNone := List.eq_of_mem_replicate (List.fst_mem_of_mem_zipIdx hEntry)
    rw [readNumbered, hNone, if_pos allBlank_nil]
  have hTrimmed : readLines other =
      (((lines other).map trimEnd).zipIdx 1).filterMap readNumbered := by
    rw [readLines_eq_filterMap, numberedLines, List.zipIdx_map, List.filterMap_map]
    refine List.filterMap_congr fun entry _ => ?_
    exact (readNumbered_trimEnd entry.2 entry.1).symm
  rw [hTrimmed, hLines, List.zipIdx_append, List.filterMap_append,
    List.filterMap_eq_nil_iff.mpr hBlank, List.append_nil, numberedLines, zipIdx_map_zipIdx,
    ← numberedLines, List.filterMap_map, readLines_eq_filterMap, List.map_filterMap]
  refine List.filterMap_congr fun entry _ => ?_
  rw [Function.comp_apply, readNumbered_trimEnd]
  exact readNumbered_append_lead (hLeads entry.2) rfl entry.1

end PhraseGrammar.Source
