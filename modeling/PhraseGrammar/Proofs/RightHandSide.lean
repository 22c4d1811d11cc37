import PhraseGrammar.Proofs.LineVerdict

/-!
# The right-hand side of a line

`BodyCut` says where the right-hand side of a line stands: behind the first arrow, without the
blanks at both ends. The pieces of a rule are the layout of it (`readLine_layout`), and their
numbers count the characters of the whole line, so a reference has the number of the character
where it starts behind the arrow (`BodyCut.referenceBehindArrow_iff`).
-/

set_option autoImplicit false

namespace PhraseGrammar.Source

open PhraseGrammar.Text

variable {line name rest tail front lead body trail after : List Char} {number position : Nat}
  {reference : Reference}

/-! ## Where it stands -/

/-- The line is cut at its first arrow, and what follows the arrow into blanks, a text with no
blank at either end, and blanks. -/
structure BodyCut (line front lead body trail : List Char) : Prop where
  line_eq : line = front ++ (arrow ++ (lead ++ (body ++ trail)))
  /-- No arrow of the line starts earlier. -/
  first : ∀ other after, line = other ++ (arrow ++ after) → front.length ≤ other.length
  lead_blank : AllBlank lead
  trail_blank : AllBlank trail
  head_not_blank : ∀ c ∈ body.head?, isBlank c = false
  last_not_blank : ∀ c ∈ body.getLast?, isBlank c = false

theorem trimEnd_spec (text : List Char) :
    ∃ trail, text = trimEnd text ++ trail ∧ AllBlank trail ∧
      ∀ c ∈ (trimEnd text).getLast?, isBlank c = false := by
  obtain ⟨hText, hTrail, hLast⟩ := takeWhile_dropWhile_spec isBlank text.reverse
  refine ⟨(text.reverse.takeWhile isBlank).reverse, ?_, ?_, ?_⟩
  · rw [trimEnd, ← List.reverse_append, ← hText, List.reverse_reverse]
  · intro c hc
    exact hTrail c (List.mem_reverse.mp hc)
  · rwa [trimEnd, List.getLast?_reverse]

theorem trimEnd_eq_self {text : List Char} (h : ∀ c ∈ text.getLast?, isBlank c = false) :
    trimEnd text = text := by
  have hStop : ∀ c ∈ text.reverse.head?, isBlank c = false := by rwa [List.head?_reverse]
  have hDrop : text.reverse.dropWhile isBlank = text.reverse :=
    (takeWhile_dropWhile_eq allBlank_nil hStop).2
  rw [trimEnd, hDrop, List.reverse_reverse]

/-- A text without the first character of an arrow stands in front of the first arrow. -/
theorem length_le_of_not_mem {other : List Char} (h : '-' ∉ front)
    (hLine : front ++ (arrow ++ rest) = other ++ (arrow ++ after)) :
    front.length ≤ other.length := by
  by_contra hShort
  have hDash : (other ++ (arrow ++ after))[other.length]? = some '-' := by
    rw [List.getElem?_append_right le_rfl, Nat.sub_self]
    rfl
  rw [← hLine, List.getElem?_append_left (by omega)] at hDash
  exact h (List.mem_of_getElem? hDash)

theorem HeadCut.bodyCut (h : HeadCut line name (arrow ++ tail)) :
    ∃ front trail, BodyCut line front (tail.takeWhile isBlank)
      (trimEnd (tail.dropWhile isBlank)) trail ∧
      tail.dropWhile isBlank = trimEnd (tail.dropWhile isBlank) ++ trail := by
  obtain ⟨margin, gap, hLine, hMargin, hName, -, hGap, -⟩ := h
  obtain ⟨hTail, hLead, hHead⟩ := takeWhile_dropWhile_spec isBlank tail
  obtain ⟨trail, hBody, hTrail, hLast⟩ := trimEnd_spec (tail.dropWhile isBlank)
  have hFront : line = (margin ++ '$' :: (name ++ gap)) ++ (arrow ++ tail) := by
    rw [hLine]
    simp
  -- neither a blank nor a name character starts an arrow
  have hDash : '-' ∉ margin ++ '$' :: (name ++ gap) := by
    have hMarginDash : '-' ∉ margin := hMargin.not_mem (by decide)
    have hGapDash : '-' ∉ gap := hGap.not_mem (by decide)
    have hNameDash : '-' ∉ name := fun hMem => absurd (hName.2 '-' hMem) (by decide)
    simp [hMarginDash, hNameDash, hGapDash]
  refine ⟨margin ++ '$' :: (name ++ gap), trail, ⟨?_, ?_, hLead, hTrail, ?_, hLast⟩, hBody⟩
  · rw [← hBody, ← hTail]
    exact hFront
  · intro other after hOther
    rw [hFront] at hOther
    exact length_le_of_not_mem hDash hOther
  · intro c hc
    apply hHead c
    rw [hBody]
    exact List.mem_head?_append_of_mem_head? hc

/-- A line with a rule is cut at an arrow, and no brace behind it is left open. -/
theorem exists_headCut_of_readLine_eq_ok {ruleLine : RuleLine}
    (h : readLine number line = .ok ruleLine) :
    ∃ tail, HeadCut line ruleLine.left (arrow ++ tail) ∧ BracesClosed tail ∧
      ruleLine = ⟨ruleLine.left, pieces (line.length - (tail.dropWhile isBlank).length)
        (trimEnd (tail.dropWhile isBlank)), number⟩ := by
  have hVerdict : Verdict number line (.ok ruleLine.left) := verdict_iff.mpr (by rw [h]; rfl)
  cases hVerdict with
  | @rule _ tail hHead hClosed =>
      rw [readLine_eq_ok_of_headCut hHead (unclosedBrace?_eq_none_iff.mpr hClosed)] at h
      exact ⟨tail, hHead, hClosed, (Except.ok.inj h).symm⟩

/-- **The pieces of a rule are the layout of its right-hand side**, and its number is that of its
line. -/
theorem readLine_layout {ruleLine : RuleLine} (h : readLine number line = .ok ruleLine) :
    ruleLine.lineNumber = number ∧ ∃ front lead body trail, BodyCut line front lead body trail ∧
      Layout (front ++ (arrow ++ lead)).length body ruleLine.pieces := by
  obtain ⟨tail, hHead, -, hRule⟩ := exists_headCut_of_readLine_eq_ok h
  obtain ⟨front, trail, hCut, hBody⟩ := hHead.bodyCut
  have hBefore : line.length - (tail.dropWhile isBlank).length =
      (front ++ (arrow ++ tail.takeWhile isBlank)).length := by
    have hLine := congrArg List.length hCut.line_eq
    rw [← hBody] at hLine
    simp only [List.length_append] at hLine ⊢
    omega
  rw [hRule]
  refine ⟨rfl, front, _, _, trail, hCut, ?_⟩
  rw [hBefore]
  exact layout_pieces _ _

/-! ## References behind the arrow -/

/-- Name characters lie between the digit `0` and the letter `z`. -/
theorem toNat_of_isNameChar {c : Char} (h : isNameChar c = true) :
    48 ≤ c.toNat ∧ c.toNat ≤ 122 := by
  rcases (Bool.or_eq_true _ _).mp h with hAlphanum | hUnderscore
  · rcases (Bool.or_eq_true _ _).mp hAlphanum with hAlpha | hDigit
    · rcases (Bool.or_eq_true _ _).mp hAlpha with hUpper | hLower
      · have hUpper : 65 ≤ c.toNat ∧ c.toNat ≤ 90 := of_decide_eq_true hUpper
        omega
      · obtain ⟨hFrom, hTo⟩ := (Bool.and_eq_true _ _).mp hLower
        have hFrom : 97 ≤ c.toNat := of_decide_eq_true hFrom
        have hTo : c.toNat ≤ 122 := of_decide_eq_true hTo
        omega
    · obtain ⟨hFrom, hTo⟩ := (Bool.and_eq_true _ _).mp hDigit
      have hFrom : 48 ≤ c.toNat := of_decide_eq_true hFrom
      have hTo : c.toNat ≤ 57 := of_decide_eq_true hTo
      omega
  · obtain rfl : c = '_' := of_decide_eq_true hUnderscore
    decide

/-- A name character is no blank. -/
theorem isBlank_eq_false_of_isNameChar {c : Char} (h : isNameChar c = true) :
    isBlank c = false := by
  have hRange := toNat_of_isNameChar h
  simp only [isBlank, blankRanges, List.any_cons, List.any_nil, Bool.or_false,
    Bool.or_eq_false_iff, Bool.and_eq_false_imp, decide_eq_true_eq, decide_eq_false_iff_not,
    Nat.not_le]
  omega

/-- No reference goes on with a blank. -/
theorem endsReference_of_isBlank {c : Char} (h : isBlank c = true) : EndsReference c := by
  refine ⟨?_, ?_, ?_⟩
  · by_contra hChar
    rw [isBlank_eq_false_of_isNameChar (Bool.not_eq_false _ ▸ hChar)] at h
    cases h
  · rintro rfl
    exact absurd h (by decide)
  · rintro rfl
    exact absurd h (by decide)

/-- Blanks behind a text neither start a reference nor belong to one. -/
theorem referenceAt_append_of_allBlank (h : AllBlank trail) :
    ReferenceAt (body ++ trail) position reference ↔ ReferenceAt body position reference := by
  have hAfter : ∀ c ∈ trail.head?, EndsReference c := fun c hc =>
    endsReference_of_isBlank (h c (List.mem_of_mem_head? hc))
  by_cases hInside : position < body.length
  · exact referenceAt_append_of_endsReference hAfter hInside
  · -- a position behind the text is that of a blank
    refine iff_of_false (fun hReference => ?_) (fun hReference => ?_)
    · have hDollar := hReference.getElem?_eq
      rw [List.getElem?_append_right (by omega)] at hDollar
      exact absurd (h '$' (List.mem_of_getElem? hDollar)) (by decide)
    · exact hInside (List.getElem?_eq_some_iff.mp hReference.getElem?_eq).1

/-- Behind an arrow of the line, the reference starts at the character with the number. -/
def ReferenceBehindArrow (line : List Char) (characterNumber : Nat) (reference : Reference) :
    Prop :=
  ∃ position, characterNumber = position + 1 ∧ ReferenceAt line position reference ∧
    arrow <:+: line.take position

/-- The references behind the arrow of a line are those that start in its right-hand side. -/
theorem BodyCut.referenceBehindArrow_iff (h : BodyCut line front lead body trail) :
    ReferenceBehindArrow line number reference ↔
      ∃ position, number = (front ++ (arrow ++ lead)).length + position + 1 ∧
        ReferenceAt body position reference := by
  have hLine : line = (front ++ (arrow ++ lead)) ++ (body ++ trail) := by
    rw [h.line_eq]
    simp only [List.append_assoc]
  constructor
  · rintro ⟨position, rfl, hReference, before, after, hTake⟩
    have hFront : front.length ≤ before.length := by
      refine h.first before (after ++ line.drop position) ?_
      rw [← List.append_assoc arrow, ← List.append_assoc before, ← List.append_assoc before, hTake,
        List.take_append_drop]
    -- the arrow ends in front of the position, and the blanks after it hold no dollar sign
    have hArrow : before.length + arrow.length ≤ position := by
      have hLength := congrArg List.length hTake
      simp only [List.length_append, List.length_take] at hLength
      omega
    have hLead : (front ++ (arrow ++ lead)).length ≤ position := by
      by_contra hInside
      have hDollar := hReference.getElem?_eq
      rw [hLine, List.getElem?_append_left (by omega), ← List.append_assoc,
        List.getElem?_append_right (by simp only [List.length_append]; omega)] at hDollar
      exact absurd (h.lead_blank '$' (List.mem_of_getElem? hDollar)) (by decide)
    obtain ⟨offset, rfl⟩ := Nat.exists_eq_add_of_le hLead
    rw [hLine, referenceAt_append, referenceAt_append_of_allBlank h.trail_blank] at hReference
    exact ⟨offset, rfl, hReference⟩
  · rintro ⟨position, rfl, hReference⟩
    refine ⟨_, rfl, ?_, ?_⟩
    · rw [hLine, referenceAt_append, referenceAt_append_of_allBlank h.trail_blank]
      exact hReference
    · refine ⟨front, lead ++ (body ++ trail).take position, ?_⟩
      rw [hLine, List.take_length_add_append]
      simp only [List.append_assoc]

/-- A rule refers to a name where the reference starts behind the arrow of its line. -/
theorem reference_mem_pieces_iff {ruleLine : RuleLine} (h : readLine number line = .ok ruleLine)
    {characterNumber : Nat} :
    .reference characterNumber reference ∈ ruleLine.pieces ↔
      ReferenceBehindArrow line characterNumber reference := by
  obtain ⟨-, front, lead, body, trail, hCut, hLayout⟩ := readLine_layout h
  rw [hLayout.mem_iff, hCut.referenceBehindArrow_iff]

end PhraseGrammar.Source
