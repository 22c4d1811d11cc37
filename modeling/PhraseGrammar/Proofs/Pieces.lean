import Mathlib.Data.List.Chain
import Mathlib.Data.List.TakeWhile
import PhraseGrammar.Source.Body

/-!
# The layout of a right-hand side

`ReferenceAt text position reference` says, by the characters alone, that a reference starts at a
position of a text. `Layout` says what it is to cut a text into its references and the stretches
between them: nothing is lost, each stretch is as long as it can be, and the references are those
that start somewhere in the text, each with the number of its dollar sign.

`pieces` is such a cut of every text (`layout_pieces`). No reference starts inside another one,
since a dollar sign stands only at the start of a reference; this is why a cut from left to right
misses none.
-/

set_option autoImplicit false

namespace PhraseGrammar.Source

/-! ## Runs of characters -/

/-- What is said of the first character of a text. -/
theorem forall_mem_head?_cons {property : Char → Prop} {c : Char} {text : List Char} :
    (∀ d ∈ (c :: text).head?, property d) ↔ property c := by
  simp

/-- The characters with a property that a text starts with, and the rest. -/
theorem takeWhile_dropWhile_spec (property : Char → Bool) (text : List Char) :
    text = text.takeWhile property ++ text.dropWhile property ∧
      (∀ c ∈ text.takeWhile property, property c = true) ∧
        ∀ c ∈ (text.dropWhile property).head?, property c = false := by
  refine ⟨List.takeWhile_append_dropWhile.symm, fun c hc => List.mem_takeWhile_imp hc, ?_⟩
  intro c hc
  have hStop := List.head?_dropWhile_not property text
  rwa [Option.mem_def.mp hc] at hStop

/-- A run of characters with a property is as long as it can be if what follows it does not start
with such a character. -/
theorem takeWhile_dropWhile_eq {property : Char → Bool} {run rest : List Char}
    (hRun : ∀ c ∈ run, property c = true) (hRest : ∀ c ∈ rest.head?, property c = false) :
    (run ++ rest).takeWhile property = run ∧ (run ++ rest).dropWhile property = rest := by
  rw [List.takeWhile_append_of_pos hRun, List.dropWhile_append_of_pos hRun]
  cases rest with
  | nil => simp
  | cons c rest => simp [hRest c rfl]

/-- Two runs that are as long as they can be are the same in texts that are the same. -/
theorem eq_of_run_append_eq {property : Char → Bool} {first second rest more : List Char}
    (hFirst : ∀ c ∈ first, property c = true) (hSecond : ∀ c ∈ second, property c = true)
    (hRest : ∀ c ∈ rest.head?, property c = false) (hMore : ∀ c ∈ more.head?, property c = false)
    (h : first ++ rest = second ++ more) : first = second ∧ rest = more := by
  obtain ⟨hFirstRun, hFirstRest⟩ := takeWhile_dropWhile_eq hFirst hRest
  obtain ⟨hSecondRun, hSecondRest⟩ := takeWhile_dropWhile_eq hSecond hMore
  rw [h] at hFirstRun hFirstRest
  exact ⟨hFirstRun.symm.trans hSecondRun, hFirstRest.symm.trans hSecondRest⟩

/-- The text is a name: it has characters, and all of them are name characters. -/
def IsName (text : List Char) : Prop :=
  text ≠ [] ∧ ∀ c ∈ text, isNameChar c = true

theorem IsName.exists_cons {name : List Char} (h : IsName name) :
    ∃ c rest, name = c :: rest ∧ isNameChar c = true := by
  obtain ⟨c, rest, rfl⟩ := List.exists_cons_of_ne_nil h.1
  exact ⟨c, rest, rfl, h.2 c List.mem_cons_self⟩

theorem IsName.dollar_not_mem {name : List Char} (h : IsName name) : '$' ∉ name :=
  fun hDollar => absurd (h.2 '$' hDollar) (by decide)

/-! ## Where a reference starts -/

/-- From the position on, the text starts with the reference: a dollar sign and the name in
braces, or a dollar sign and the name, which goes on as long as it can. -/
def ReferenceAt (text : List Char) (position : Nat) (reference : Reference) : Prop :=
  ∃ after, text.drop position = reference.spelling ++ after ∧ IsName reference.name ∧
    (reference.braced = false → ∀ c ∈ after.head?, isNameChar c = false)

variable {text rest after : List Char} {position before : Nat} {reference other : Reference}

theorem referenceAt_zero_of_reference?_eq_some (h : reference? text = some reference) :
    ReferenceAt text 0 reference := by
  rw [reference?.eq_def] at h
  split at h
  case h_1 rest =>
      -- a dollar sign and a brace
      split at h
      case h_1 c name after hRun hAfter =>
          obtain rfl := Option.some.inj h
          obtain ⟨hRest, hName, -⟩ := takeWhile_dropWhile_spec isNameChar rest
          rw [hRun, hAfter] at hRest
          rw [hRun] at hName
          refine ⟨after, ?_, ⟨List.cons_ne_nil c name, hName⟩, fun hBare => by cases hBare⟩
          simp [hRest, Reference.spelling]
      case h_2 => cases h
  case h_2 rest _ =>
      -- a dollar sign alone
      split at h
      case h_1 c name hRun =>
          obtain rfl := Option.some.inj h
          obtain ⟨hRest, hName, hStop⟩ := takeWhile_dropWhile_spec isNameChar rest
          rw [hRun] at hRest hName
          exact ⟨_, congrArg (List.cons '$') hRest, ⟨List.cons_ne_nil c name, hName⟩,
            fun _ => hStop⟩
      case h_2 => cases h
  case h_3 => cases h

theorem reference?_eq_some_of_referenceAt_zero (h : ReferenceAt text 0 reference) :
    reference? text = some reference := by
  obtain ⟨after, hText, hName, hBare⟩ := h
  obtain ⟨name, braced⟩ := reference
  obtain ⟨c, tail, rfl, hChar⟩ := IsName.exists_cons hName
  rw [List.drop_zero] at hText
  cases braced with
  | true =>
      have hStop : ∀ d ∈ ('}' :: after).head?, isNameChar d = false :=
        forall_mem_head?_cons.mpr (by decide)
      obtain ⟨hRun, hAfter⟩ := takeWhile_dropWhile_eq hName.2 hStop
      have hChars : text = '$' :: '{' :: (c :: tail ++ '}' :: after) := by
        simpa [Reference.spelling] using hText
      rw [hChars, reference?, hRun, hAfter]
      rfl
  | false =>
      obtain ⟨hRun, -⟩ := takeWhile_dropWhile_eq hName.2 (hBare rfl)
      have hChars : text = '$' :: (c :: tail ++ after) := hText
      -- the brace is no name character, so the name does not start with one
      have hBrace : ∀ rest, c :: tail ++ after = '{' :: rest → False := by
        intro rest hSame
        obtain ⟨rfl, -⟩ := List.cons.inj hSame
        exact absurd hChar (by decide)
      rw [hChars, reference?.eq_2 _ hBrace, hRun]

theorem reference?_eq_some_iff :
    reference? text = some reference ↔ ReferenceAt text 0 reference :=
  ⟨referenceAt_zero_of_reference?_eq_some, reference?_eq_some_of_referenceAt_zero⟩

theorem referenceAt_iff :
    ReferenceAt text position reference ↔ reference? (text.drop position) = some reference := by
  rw [reference?_eq_some_iff, ReferenceAt, ReferenceAt, List.drop_zero]

/-- At most one reference starts at a position. -/
theorem ReferenceAt.unique (h : ReferenceAt text position reference)
    (hOther : ReferenceAt text position other) : reference = other := by
  rw [referenceAt_iff] at h hOther
  exact Option.some.inj (h.symm.trans hOther)

theorem referenceAt_append {front : List Char} :
    ReferenceAt (front ++ rest) (front.length + position) reference ↔
      ReferenceAt rest position reference := by
  rw [ReferenceAt, ReferenceAt, List.drop_length_add_append]

theorem not_referenceAt_nil : ¬ ReferenceAt [] position reference := by
  rw [referenceAt_iff, List.drop_nil]
  intro h
  cases h

/-! ## The characters of a reference -/

theorem Reference.spelling_eq_cons (reference : Reference) :
    reference.spelling = '$' :: reference.spelling.tail := by
  obtain ⟨name, braced⟩ := reference
  cases braced with
  | true => rfl
  | false => rfl

theorem Reference.length_tail_spelling (reference : Reference) :
    reference.spelling.tail.length + 1 = reference.width := by
  rw [Reference.width, Reference.spelling_eq_cons reference, List.length_cons, List.tail_cons]

/-- The only dollar sign of a reference is its first character. -/
theorem Reference.dollar_not_mem_tail (h : IsName reference.name) :
    '$' ∉ reference.spelling.tail := by
  have hName := h.dollar_not_mem
  obtain ⟨name, braced⟩ := reference
  cases braced with
  | true => simpa [Reference.spelling] using hName
  | false => simpa [Reference.spelling] using hName

theorem ReferenceAt.getElem?_eq (h : ReferenceAt text position reference) :
    text[position]? = some '$' := by
  obtain ⟨after, hText, -⟩ := h
  rw [← List.head?_drop, hText, Reference.spelling_eq_cons]
  rfl

/-- No reference starts inside another one. -/
theorem ReferenceAt.width_le (h : ReferenceAt text 0 reference) (hPosition : position ≠ 0)
    (hOther : ReferenceAt text position other) : reference.width ≤ position := by
  by_contra hInside
  obtain ⟨after, hText, hName, -⟩ := h
  have hDollar := hOther.getElem?_eq
  obtain ⟨offset, rfl⟩ := Nat.exists_eq_succ_of_ne_zero hPosition
  have hOffset : offset < reference.spelling.tail.length := by
    have := reference.length_tail_spelling
    omega
  rw [List.drop_zero] at hText
  rw [hText, Reference.spelling_eq_cons, List.cons_append, List.getElem?_cons_succ,
    List.getElem?_append_left hOffset] at hDollar
  exact Reference.dollar_not_mem_tail hName (List.mem_of_getElem? hDollar)

/-! ## References in a longer text -/

/-- A reference does not go on with the character. -/
def EndsReference (c : Char) : Prop :=
  isNameChar c = false ∧ c ≠ '{' ∧ c ≠ '}'

theorem endsReference_dollar : EndsReference '$' := by
  refine ⟨?_, ?_, ?_⟩ <;> decide

theorem EndsReference.not_mem_tail_spelling {c : Char} (h : EndsReference c)
    (hName : IsName reference.name) : c ∉ reference.spelling.tail := by
  obtain ⟨hChar, hOpen, hClose⟩ := h
  have hNotName : c ∉ reference.name := by
    intro hMem
    rw [hName.2 c hMem] at hChar
    cases hChar
  obtain ⟨name, braced⟩ := reference
  cases braced with
  | true => simpa [Reference.spelling, hOpen, hClose] using hNotName
  | false => simpa [Reference.spelling] using hNotName

/-- If no reference goes on with what follows a text, it has no part in those that start in the
text. -/
theorem referenceAt_append_of_endsReference (hAfter : ∀ c ∈ rest.head?, EndsReference c)
    (hInside : position < text.length) :
    ReferenceAt (text ++ rest) position reference ↔ ReferenceAt text position reference := by
  constructor
  · rintro ⟨after, hText, hName, hBare⟩
    rw [List.drop_append_of_le_length hInside.le] at hText
    rcases List.append_eq_append_iff.mp hText with
      ⟨others, hSpelling, hRest⟩ | ⟨others, hDrop, hAfterText⟩
    · -- what the reference would share with the rest is nothing
      have hNone : others = [] := by
        cases others with
        | nil => rfl
        | cons c others =>
            have hEnds : EndsReference c := hAfter c (by rw [hRest]; rfl)
            rw [List.drop_eq_getElem_cons hInside] at hSpelling
            have hTail : c ∈ reference.spelling.tail := by
              rw [hSpelling, List.cons_append, List.tail_cons]
              exact List.mem_append_right _ List.mem_cons_self
            exact absurd hTail (hEnds.not_mem_tail_spelling hName)
      subst hNone
      refine ⟨[], ?_, hName, fun _ c hc => (Option.not_mem_none c hc).elim⟩
      rw [hSpelling, List.append_nil, List.append_nil]
    · refine ⟨others, hDrop, hName, fun hBraced c hc => ?_⟩
      apply hBare hBraced c
      rw [hAfterText]
      exact List.mem_head?_append_of_mem_head? hc
  · rintro ⟨after, hText, hName, hBare⟩
    refine ⟨after ++ rest, ?_, hName, fun hBraced c hc => ?_⟩
    · rw [List.drop_append_of_le_length hInside.le, hText, List.append_assoc]
    · -- behind the name comes what came there before, or the rest
      cases after with
      | nil => exact (hAfter c hc).1
      | cons d after => exact hBare hBraced c hc

/-! ## Layouts -/

/-- Whether the piece is text. -/
def Piece.isText : Piece → Bool
  | .text _ => true
  | .reference _ _ => false

/-- The number of the dollar sign of a reference. -/
def Piece.number? : Piece → Option Nat
  | .text _ => none
  | .reference number _ => some number

theorem Piece.number?_eq_some_iff {piece : Piece} {number : Nat} :
    piece.number? = some number ↔ ∃ reference, piece = .reference number reference := by
  cases piece with
  | text chars => simp [Piece.number?]
  | reference here r => simp [Piece.number?]

/-- The references carry the numbers of their dollar signs if `before` characters of the line
precede the pieces. -/
def Numbered : Nat → List Piece → Prop
  | _, [] => True
  | before, .text chars :: rest => Numbered (before + chars.length) rest
  | before, .reference number r :: rest => number = before + 1 ∧ Numbered (before + r.width) rest

/-- The pieces cut the text, which `before` characters of the line precede, into its references
and the text between them. -/
structure Layout (before : Nat) (text : List Char) (pieces : List Piece) : Prop where
  /-- No character is lost, repeated or moved. -/
  spelled : pieces.flatMap Piece.spelling = text
  /-- No piece of text is empty. -/
  text_ne_nil : ∀ chars, .text chars ∈ pieces → chars ≠ []
  /-- No two pieces of text are neighbours. -/
  isolated : pieces.IsChain fun first second => first.isText = false ∨ second.isText = false
  /-- Each reference has the number of its dollar sign. -/
  numbered : Numbered before pieces
  /-- The references are those that start in the text. -/
  reference_mem_iff : ∀ position reference,
    .reference (before + position + 1) reference ∈ pieces ↔ ReferenceAt text position reference

/-- A reference has a larger number than the characters before the pieces. -/
theorem Numbered.lt_of_mem {pieces : List Piece} {number : Nat} (h : Numbered before pieces)
    (hMem : .reference number reference ∈ pieces) : before < number := by
  induction pieces generalizing before with
  | nil => cases hMem
  | cons piece rest ih =>
      cases piece with
      | text chars =>
          have hRest : .reference number reference ∈ rest := by simpa using hMem
          have hLater := ih h hRest
          omega
      | reference first r =>
          rcases List.mem_cons.mp hMem with hSame | hRest
          · obtain ⟨rfl, rfl⟩ := Piece.reference.inj hSame
            have hFirst := h.1
            omega
          · have hLater := ih h.2 hRest
            omega

/-- The numbers of references grow from left to right. -/
theorem Numbered.pairwise {pieces : List Piece} (h : Numbered before pieces) :
    (pieces.filterMap Piece.number?).Pairwise (· < ·) := by
  induction pieces generalizing before with
  | nil => exact .nil
  | cons piece rest ih =>
      cases piece with
      | text chars => exact ih h
      | reference here r =>
          refine List.pairwise_cons.mpr ⟨fun number hNumber => ?_, ih h.2⟩
          obtain ⟨other, hMem, hOther⟩ := List.mem_filterMap.mp hNumber
          obtain ⟨reference, rfl⟩ := Piece.number?_eq_some_iff.mp hOther
          have hLater := h.2.lt_of_mem hMem
          have hWidth := r.length_tail_spelling
          have hHere := h.1
          omega

/-- A reference of a layout has a number behind the characters before it. -/
theorem Layout.mem_iff {pieces : List Piece} {number : Nat} (h : Layout before text pieces) :
    .reference number reference ∈ pieces ↔
      ∃ position, number = before + position + 1 ∧ ReferenceAt text position reference := by
  constructor
  · intro hMem
    have hBehind := h.numbered.lt_of_mem hMem
    obtain ⟨position, rfl⟩ : ∃ position, number = before + position + 1 :=
      ⟨number - before - 1, by omega⟩
    exact ⟨position, rfl, (h.reference_mem_iff position reference).mp hMem⟩
  · rintro ⟨position, rfl, hReference⟩
    exact (h.reference_mem_iff position reference).mpr hReference

/-- An empty text has no pieces. -/
theorem Layout.eq_nil {pieces : List Piece} (h : Layout before [] pieces) : pieces = [] := by
  cases pieces with
  | nil => rfl
  | cons piece rest =>
      have hNone : piece.spelling = [] :=
        (List.append_eq_nil_iff.mp (List.flatMap_cons.symm.trans h.spelled)).1
      cases piece with
      | text chars => exact absurd hNone (h.text_ne_nil chars List.mem_cons_self)
      | reference number r =>
          rw [Piece.spelling, Reference.spelling_eq_cons] at hNone
          cases hNone

theorem layout_nil (before : Nat) : Layout before [] [] where
  spelled := rfl
  text_ne_nil := fun _ hMem => absurd hMem List.not_mem_nil
  isolated := .nil
  numbered := trivial
  reference_mem_iff := fun _ _ => iff_of_false List.not_mem_nil not_referenceAt_nil

/-- A reference in front of a layout. -/
theorem Layout.cons_reference {pieces : List Piece}
    (hHere : ReferenceAt (reference.spelling ++ rest) 0 reference)
    (h : Layout (before + reference.width) rest pieces) :
    Layout before (reference.spelling ++ rest) (.reference (before + 1) reference :: pieces) where
  spelled := by rw [List.flatMap_cons, h.spelled, Piece.spelling]
  text_ne_nil := by
    intro chars hMem
    exact h.text_ne_nil chars (by simpa using hMem)
  isolated := List.isChain_cons.mpr ⟨fun _ _ => Or.inl rfl, h.isolated⟩
  numbered := ⟨rfl, h.numbered⟩
  reference_mem_iff := by
    intro position other
    have hTail : .reference (before + position + 1) other ∈ pieces →
        reference.width ≤ position := by
      intro hMem
      have hLater := h.numbered.lt_of_mem hMem
      omega
    have hWidth := reference.length_tail_spelling
    rw [List.mem_cons]
    rcases Nat.eq_zero_or_pos position with rfl | hPositive
    · -- at the start: the reference itself, and nothing of the later pieces
      constructor
      · rintro (hSame | hMem)
        · obtain ⟨-, rfl⟩ := Piece.reference.inj hSame
          exact hHere
        · have hLater := hTail hMem
          omega
      · intro hOther
        exact Or.inl (by rw [hHere.unique hOther, Nat.add_zero])
    · -- further on: behind the reference, since none starts inside it
      have hNotFirst : (Piece.reference (before + position + 1) other) ≠
          .reference (before + 1) reference := by
        intro hSame
        have hNumber := (Piece.reference.inj hSame).1
        omega
      rw [or_iff_right hNotFirst]
      by_cases hFar : reference.width ≤ position
      · obtain ⟨offset, rfl⟩ := Nat.exists_eq_add_of_le hFar
        have hBehind := h.reference_mem_iff offset other
        rw [Nat.add_assoc before] at hBehind
        rw [hBehind]
        exact referenceAt_append.symm
      · exact iff_of_false (fun hMem => hFar (hTail hMem))
          (fun hOther => hFar (hHere.width_le hPositive.ne' hOther))

/-- A character joins the text that the pieces start with, or becomes a text of its own. -/
theorem pushText_cases (c : Char) (pieces : List Piece) :
    (∃ chars rest, pieces = .text chars :: rest ∧ pushText c pieces = .text (c :: chars) :: rest) ∨
      (∀ piece ∈ pieces.head?, piece.isText = false) ∧ pushText c pieces = .text [c] :: pieces := by
  cases pieces with
  | nil => exact Or.inr ⟨fun _ hHead => (Option.not_mem_none _ hHead).elim, rfl⟩
  | cons piece rest =>
      cases piece with
      | text chars => exact Or.inl ⟨chars, rest, rfl, rfl⟩
      | reference number r =>
          refine Or.inr ⟨fun piece hHead => ?_, rfl⟩
          obtain rfl := Option.some.inj hHead
          rfl

theorem reference_mem_pushText_iff {c : Char} {pieces : List Piece} {number : Nat} :
    .reference number reference ∈ pushText c pieces ↔ .reference number reference ∈ pieces := by
  rcases pushText_cases c pieces with ⟨chars, rest, rfl, hPush⟩ | ⟨-, hPush⟩
  · simp [hPush]
  · simp [hPush]

theorem numbered_pushText_iff {c : Char} {pieces : List Piece} :
    Numbered before (pushText c pieces) ↔ Numbered (before + 1) pieces := by
  rcases pushText_cases c pieces with ⟨chars, rest, rfl, hPush⟩ | ⟨-, hPush⟩
  · rw [hPush, Numbered, Numbered, List.length_cons, Nat.add_right_comm, Nat.add_assoc]
  · rw [hPush, Numbered, List.length_singleton]

/-- A character at which no reference starts in front of a layout. -/
theorem Layout.pushText {pieces : List Piece} {c : Char}
    (hNone : ∀ reference, ¬ ReferenceAt (c :: rest) 0 reference)
    (h : Layout (before + 1) rest pieces) :
    Layout before (c :: rest) (pushText c pieces) where
  spelled := by
    rw [← h.spelled]
    rcases pushText_cases c pieces with ⟨chars, others, rfl, hPush⟩ | ⟨-, hPush⟩
    · rw [hPush]
      rfl
    · rw [hPush]
      rfl
  text_ne_nil := by
    intro run hRun
    rcases pushText_cases c pieces with ⟨chars, others, rfl, hPush⟩ | ⟨-, hPush⟩
    · rw [hPush] at hRun
      rcases List.mem_cons.mp hRun with hSame | hLater
      · obtain rfl := Piece.text.inj hSame
        exact List.cons_ne_nil c chars
      · exact h.text_ne_nil run (List.mem_cons_of_mem _ hLater)
    · rw [hPush] at hRun
      rcases List.mem_cons.mp hRun with hSame | hLater
      · obtain rfl := Piece.text.inj hSame
        exact List.cons_ne_nil c []
      · exact h.text_ne_nil run hLater
  isolated := by
    rcases pushText_cases c pieces with ⟨chars, others, rfl, hPush⟩ | ⟨hHead, hPush⟩
    · rw [hPush, List.isChain_cons]
      exact List.isChain_cons.mp h.isolated
    · rw [hPush, List.isChain_cons]
      exact ⟨fun piece hPiece => Or.inr (hHead piece hPiece), h.isolated⟩
  numbered := numbered_pushText_iff.mpr h.numbered
  reference_mem_iff := by
    intro position reference
    rw [reference_mem_pushText_iff]
    cases position with
    | zero =>
        -- every number among the pieces is larger than that of the character
        refine iff_of_false (fun hMem => ?_) (hNone reference)
        have hLater := h.numbered.lt_of_mem hMem
        omega
    | succ position =>
        have hLater := h.reference_mem_iff position reference
        rw [Nat.add_assoc before, Nat.add_comm 1] at hLater
        exact hLater

/-- **Pieces are the layout of their text**, wherever in a line it stands. -/
theorem layout_pieces (before : Nat) (text : List Char) :
    Layout before text (pieces before text) := by
  fun_induction pieces before text with
  | case1 before => exact layout_nil before
  | case2 before c rest reference hReference ih =>
      -- the text that is left starts behind the spelling of the reference
      have hHere := reference?_eq_some_iff.mp hReference
      obtain ⟨after, hText, -⟩ := reference?_eq_some_iff.mp hReference
      rw [List.drop_zero] at hText
      have hAfter : rest.drop (reference.width - 1) = after := by
        have hWidth := reference.length_tail_spelling
        rw [Reference.spelling_eq_cons, List.cons_append] at hText
        rw [(List.cons.inj hText).2]
        exact List.drop_left' (by omega)
      rw [hText] at hHere ⊢
      rw [hAfter] at ih ⊢
      exact Layout.cons_reference hHere ih
  | case3 before c rest hNone ih =>
      refine Layout.pushText (fun reference hHere => ?_) ih
      rw [reference?_eq_some_iff.mpr hHere] at hNone
      cases hNone

/-! ## Parts of a layout -/

theorem Piece.spelling_head?_eq {piece : Piece} (h : piece.isText = false) :
    piece.spelling.head? = some '$' := by
  cases piece with
  | text chars => cases h
  | reference number r =>
      rw [Piece.spelling, Reference.spelling_eq_cons]
      rfl

/-- Without its first piece a layout is the layout of what follows that piece. -/
theorem Layout.tail {piece : Piece} {others : List Piece}
    (h : Layout before text (piece :: others)) :
    Layout (before + piece.spelling.length) (others.flatMap Piece.spelling) others where
  spelled := rfl
  text_ne_nil := fun chars hMem => h.text_ne_nil chars (List.mem_cons_of_mem _ hMem)
  isolated := h.isolated.tail
  numbered := by
    have hNumbered := h.numbered
    cases piece with
    | text chars => exact hNumbered
    | reference number r => exact hNumbered.2
  reference_mem_iff := by
    intro position reference
    have hMem := h.reference_mem_iff (piece.spelling.length + position) reference
    rw [← h.spelled, List.flatMap_cons, referenceAt_append, ← Nat.add_assoc before] at hMem
    rw [← hMem, List.mem_cons, or_iff_right]
    -- the first piece is not empty, and a reference there has the number of its first character
    intro hHead
    have hNumbered := h.numbered
    rw [← hHead] at hNumbered
    have hLength := reference.length_tail_spelling
    have hFirst := hNumbered.1
    rw [← hHead, Piece.spelling, ← Reference.width] at hFirst
    omega

/-- What follows a text of a layout is a reference or nothing. -/
theorem Layout.endsReference_of_text {chars : List Char} {others : List Piece}
    (h : Layout before text (.text chars :: others)) :
    ∀ c ∈ (others.flatMap Piece.spelling).head?, EndsReference c := by
  cases others with
  | nil => exact fun c hc => (Option.not_mem_none c hc).elim
  | cons piece others =>
      have hText : piece.isText = false := (List.isChain_cons_cons.mp h.isolated).1.resolve_left
        (fun hFirst => by cases hFirst)
      intro c hc
      rw [List.flatMap_cons, List.head?_append, Piece.spelling_head?_eq hText] at hc
      obtain rfl := Option.some.inj hc
      exact endsReference_dollar

/-- No reference starts in a text of a layout, not even if the text stands alone. -/
theorem Layout.not_referenceAt_of_mem {pieces : List Piece} {chars : List Char}
    (h : Layout before text pieces) (hMem : .text chars ∈ pieces) (position : Nat)
    (reference : Reference) : ¬ ReferenceAt chars position reference := by
  induction pieces generalizing before text with
  | nil => exact absurd hMem List.not_mem_nil
  | cons piece others ih =>
      rcases List.mem_cons.mp hMem with rfl | hOthers
      · intro hReference
        have hInside : position < chars.length :=
          (List.getElem?_eq_some_iff.mp hReference.getElem?_eq).1
        rw [← referenceAt_append_of_endsReference h.endsReference_of_text hInside] at hReference
        have hWhole : ReferenceAt text position reference := by
          rw [← h.spelled]
          exact hReference
        -- the reference would be one of the later pieces, whose numbers are too large
        have hPiece := (h.reference_mem_iff position reference).mpr hWhole
        have hLater : .reference (before + position + 1) reference ∈ others := by
          simpa using hPiece
        have hBehind := h.tail.numbered.lt_of_mem hLater
        rw [Piece.spelling] at hBehind
        omega
      · exact ih h.tail hOthers

/-! ## The pieces of a longer text -/

theorem pieces_append_of_referenceAt (h : ReferenceAt (reference.spelling ++ rest) 0 reference) :
    pieces before (reference.spelling ++ rest) =
      .reference (before + 1) reference :: pieces (before + reference.width) rest := by
  have hWidth := reference.length_tail_spelling
  have hSome := reference?_eq_some_iff.mpr h
  rw [Reference.spelling_eq_cons, List.cons_append] at hSome ⊢
  rw [pieces, hSome]
  show Piece.reference _ _ :: pieces _ _ = _
  rw [List.drop_left' (by omega)]

theorem pieces_spelling_append (hName : IsName reference.name) (hBraced : reference.braced = true) :
    pieces before (reference.spelling ++ rest) =
      .reference (before + 1) reference :: pieces (before + reference.width) rest :=
  pieces_append_of_referenceAt
    ⟨rest, rfl, hName, fun hBare => by rw [hBraced] at hBare; cases hBare⟩

/-- A text in which no reference starts is the first piece, if a reference or nothing follows. -/
theorem pieces_text_append (hText : text ≠ [])
    (hNone : ∀ position < text.length, ∀ reference, ¬ ReferenceAt (text ++ rest) position reference)
    (hNext : ∀ before, ∀ piece ∈ (pieces before rest).head?, piece.isText = false) :
    pieces before (text ++ rest) = .text text :: pieces (before + text.length) rest := by
  induction text generalizing before with
  | nil => exact absurd rfl hText
  | cons c text ih =>
      have hHere : reference? (c :: (text ++ rest)) = none := by
        cases hScan : reference? (c :: (text ++ rest)) with
        | none => rfl
        | some reference =>
            exact absurd (reference?_eq_some_iff.mp hScan) (hNone 0 (Nat.succ_pos _) reference)
      rw [List.cons_append, pieces, hHere]
      show pushText c _ = _
      cases text with
      | nil =>
          rcases pushText_cases c (pieces (before + 1) rest) with
            ⟨chars, others, hRest, -⟩ | ⟨-, hPush⟩
          · have hFirst := hNext (before + 1) (.text chars) (by rw [hRest]; rfl)
            cases hFirst
          · exact hPush
      | cons d text =>
          rw [ih (List.cons_ne_nil d text)]
          · rw [pushText, Nat.add_assoc, Nat.add_comm 1]
            rfl
          · intro position hInside reference hReference
            exact hNone (position + 1) (Nat.succ_lt_succ hInside) reference hReference

end PhraseGrammar.Source
