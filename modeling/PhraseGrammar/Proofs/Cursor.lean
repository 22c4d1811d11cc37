import Mathlib.Logic.Relation
import PhraseGrammar.Proofs.Margins

/-!
# Reading a right-hand side by positions

`pieces` takes a text apart from its front and knows no positions but the numbers that it gives.
The same pieces can be read with a cursor that stands at a position of the line and looks up the
characters there. A look-up is refused if it goes beyond the line, and a stretch of characters also
if its ends are in the wrong order, so a reading without a refusal is one that stays inside.

One iteration looks up nothing outside (`Cursor.exists_iteration`) and moves the cursor on
(`Cursor.position_lt_of_step?_eq_ok`). So it is with all iterations of a run
(`Cursor.inside_of_reaches`), and a run ends, with the pieces or the brace that `pieces` and
`unclosedBrace?` find (`Cursor.read?_eq`).
-/

set_option autoImplicit false

namespace PhraseGrammar.Source

open PhraseGrammar.Text

variable {chars rest after middle name text : List Char} {c : Char} {position before : Nat}
  {reference : Reference}

/-! ## Looking up -/

/-- The characters from the first position up to the last one, which have to be in order and in
the text. -/
def between? (chars : List Char) (first last : Nat) : Option (List Char) :=
  if first ≤ last ∧ last ≤ chars.length then some ((chars.take last).drop first) else none

/-- The position at which the characters with a property end that start at the given one. -/
def skipWhile (property : Char → Bool) (chars : List Char) (position : Nat) : Nat :=
  if h : position < chars.length then
    if property chars[position] then skipWhile property chars (position + 1) else position
  else position
termination_by chars.length - position

/-- What is found at a position of a text whose rest from there on is known. -/
theorem lookUp_of_drop_eq_cons (h : chars.drop position = c :: rest) :
    chars[position]? = some c ∧ chars[position + 1]? = rest.head? ∧
      chars.drop (position + 1) = rest ∧ chars.length = position + rest.length + 1 := by
  have hRest : chars.drop (position + 1) = rest := by rw [← List.tail_drop, h, List.tail_cons]
  have hLength := congrArg List.length h
  rw [List.length_drop, List.length_cons] at hLength
  refine ⟨?_, ?_, hRest, by omega⟩
  · rw [← List.head?_drop, h, List.head?_cons]
  · rw [← List.head?_drop, hRest]

theorem between?_eq_some (hFirst : position ≤ chars.length)
    (h : chars.drop position = middle ++ rest) :
    between? chars position (position + middle.length) = some middle := by
  have hLength := congrArg List.length h
  rw [List.length_drop, List.length_append] at hLength
  rw [between?, if_pos (by omega), List.drop_take, h, Nat.add_sub_cancel_left, List.take_left]

theorem between?_length_eq_some (hFirst : position ≤ chars.length) :
    between? chars position chars.length = some (chars.drop position) := by
  have hAll := between?_eq_some hFirst (List.append_nil (chars.drop position)).symm
  rwa [List.length_drop, Nat.add_sub_cancel' hFirst] at hAll

theorem skipWhile_eq (property : Char → Bool) (chars : List Char) (position : Nat) :
    skipWhile property chars position =
      position + ((chars.drop position).takeWhile property).length := by
  fun_induction skipWhile property chars position with
  | case1 position hInside hHas ih =>
      rw [ih, List.drop_eq_getElem_cons hInside, List.takeWhile_cons_of_pos hHas,
        List.length_cons]
      omega
  | case2 position hInside hLacks =>
      rw [List.drop_eq_getElem_cons hInside, List.takeWhile_cons_of_neg hLacks, List.length_nil,
        Nat.add_zero]
  | case3 position hEnd =>
      rw [List.drop_of_length_le (Nat.le_of_not_lt hEnd), List.takeWhile_nil, List.length_nil,
        Nat.add_zero]

theorem skipWhile_le_length (property : Char → Bool) (h : position ≤ chars.length) :
    skipWhile property chars position ≤ chars.length := by
  have hRun := (List.takeWhile_prefix property (l := chars.drop position)).length_le
  rw [List.length_drop] at hRun
  rw [skipWhile_eq]
  omega

/-- The characters with the property are those that are skipped. -/
theorem drop_skipWhile (property : Char → Bool) (chars : List Char) (position : Nat) :
    chars.drop (skipWhile property chars position) =
      (chars.drop position).dropWhile property := by
  obtain ⟨hSplit, -, -⟩ := takeWhile_dropWhile_spec property (chars.drop position)
  rw [skipWhile_eq, ← List.drop_drop]
  exact (congrArg (List.drop _) hSplit).trans List.drop_left

theorem idxOf?_append_cons (h : c ∉ middle) :
    (middle ++ c :: rest).idxOf? c = some middle.length := by
  refine List.idxOf?_eq_some_iff.mpr ⟨by simp, by simp, fun index hIndex hSame => h ?_⟩
  rw [List.getElem_append_left hIndex] at hSame
  exact hSame ▸ List.getElem_mem hIndex

/-! ## Texts and references behind them -/

/-- The text as a piece, unless it is empty. -/
def textPiece (chars : List Char) : List Piece :=
  if chars = [] then [] else [.text chars]

theorem pieces_eq_textPiece
    (h : ∀ position < text.length, ∀ reference, ¬ ReferenceAt text position reference) :
    pieces before text = textPiece text := by
  by_cases hText : text = []
  · rw [hText, pieces, textPiece, if_pos rfl]
  · have hNone : ∀ position < text.length, ∀ reference,
        ¬ ReferenceAt (text ++ []) position reference := by rwa [List.append_nil]
    have hNext : ∀ before, ∀ piece ∈ (pieces before []).head?, piece.isText = false := by
      intro before piece hHead
      rw [pieces] at hHead
      cases hHead
    calc pieces before text
        = pieces before (text ++ []) := by rw [List.append_nil]
      _ = .text text :: pieces (before + text.length) [] :=
          pieces_text_append hText hNone hNext
      _ = textPiece text := by rw [pieces, textPiece, if_neg hText]

/-- A text in front of a reference is a piece of its own. -/
theorem pieces_append_reference (hHere : ReferenceAt (reference.spelling ++ rest) 0 reference)
    (h : ∀ position < text.length, ∀ other,
      ¬ ReferenceAt (text ++ (reference.spelling ++ rest)) position other) :
    pieces before (text ++ (reference.spelling ++ rest)) = textPiece text ++
      .reference (before + text.length + 1) reference ::
        pieces (before + text.length + reference.width) rest := by
  by_cases hText : text = []
  · subst hText
    rw [textPiece, if_pos rfl]
    exact pieces_append_of_referenceAt hHere
  · have hNext : ∀ before, ∀ piece ∈ (pieces before (reference.spelling ++ rest)).head?,
        piece.isText = false := by
      intro before piece hHead
      rw [pieces_append_of_referenceAt hHere] at hHead
      obtain rfl := Option.some.inj hHead
      rfl
    rw [pieces_text_append hText h hNext, pieces_append_of_referenceAt hHere, textPiece,
      if_neg hText, List.singleton_append]

/-- A reference opens no brace that is not closed. -/
theorem unclosedBrace?_append_of_referenceAt
    (h : ReferenceAt (reference.spelling ++ rest) 0 reference) :
    unclosedBrace? before (reference.spelling ++ rest) =
      unclosedBrace? (before + reference.width) rest := by
  obtain ⟨after, hText, hName, -⟩ := h
  have hHere : ¬ ('$' = '$' ∧ (reference.spelling.tail ++ rest).head? = some '{' ∧
      '}' ∉ reference.spelling.tail ++ rest) := by
    rintro ⟨-, hHead, hOpen⟩
    obtain ⟨name, braced⟩ := reference
    cases braced with
    | true => exact hOpen (by simp [Reference.spelling])
    | false =>
        obtain ⟨c, others, rfl, hChar⟩ := IsName.exists_cons hName
        obtain rfl : c = '{' := Option.some.inj hHead
        exact absurd hChar (by decide)
  rw [← reference.length_tail_spelling, Reference.spelling_eq_cons, List.cons_append,
    unclosedBrace?, if_neg hHere,
    unclosedBrace?_append_of_not_mem (Reference.dollar_not_mem_tail hName), List.tail_cons,
    Nat.add_assoc, Nat.add_comm 1]

theorem isBlank_eq_false_of_mem_spelling (hName : IsName reference.name) :
    ∀ c ∈ reference.spelling, isBlank c = false := by
  obtain ⟨name, braced⟩ := reference
  have hChars : ∀ c ∈ name, isBlank c = false :=
    fun c hc => isBlank_eq_false_of_isNameChar (hName.2 c hc)
  have hMarks : isBlank '$' = false ∧ isBlank '{' = false ∧ isBlank '}' = false := by decide
  cases braced with
  | true => simpa [Reference.spelling, hMarks, or_imp, forall_and] using hChars
  | false => simpa [Reference.spelling, hMarks] using hChars

/-! ## One iteration -/

instance : DecidablePred IsName :=
  fun text => inferInstanceAs (Decidable (text ≠ [] ∧ ∀ c ∈ text, isNameChar c = true))

/-- How far a line has been read: up to a position, with these pieces, and a text behind them that
may go on. -/
structure Cursor where
  position : Nat
  finished : List Piece
  buffer : List Char
  deriving DecidableEq

namespace Cursor

/-- The cursor at a position in front of which nothing has been read. -/
def start (position : Nat) : Cursor := ⟨position, [], []⟩

/-- The character at the cursor is text. -/
def pushChar (c : Char) (cursor : Cursor) : Cursor :=
  { cursor with position := cursor.position + 1, buffer := cursor.buffer ++ [c] }

/-- A reference starts at the cursor and ends at the given position. -/
def pushReference (reference : Reference) (position : Nat) (cursor : Cursor) : Cursor where
  position := position
  finished := cursor.finished ++ textPiece cursor.buffer ++
    [.reference (cursor.position + 1) reference]
  buffer := []

/-- Reads what stands at the cursor. The value is `none` if a look-up is refused; the error is the
number of a brace that is not closed. -/
def step? (chars : List Char) (cursor : Cursor) : Option (Except Nat Cursor) := do
  let c ← chars[cursor.position]?
  if c = '$' ∧ chars[cursor.position + 1]? = some '{' then
    let first := cursor.position + 2
    let after ← between? chars first chars.length
    match after.idxOf? '}' with
    | none => return .error (cursor.position + 2)
    | some width =>
      let name ← between? chars first (first + width)
      if IsName name then
        return .ok (cursor.pushReference ⟨name, true⟩ (first + width + 1))
      else return .ok (cursor.pushChar c)
  else if c = '$' ∧ (chars[cursor.position + 1]?).any isNameChar then
    let last := skipWhile isNameChar chars (cursor.position + 1)
    let name ← between? chars (cursor.position + 1) last
    return .ok (cursor.pushReference ⟨name, false⟩ last)
  else return .ok (cursor.pushChar c)

variable {cursor next : Cursor}

/-- A brace that nothing closes ends the reading. -/
theorem step?_eq_error (hRest : chars.drop cursor.position = '$' :: '{' :: after)
    (hOpen : '}' ∉ after) : cursor.step? chars = some (.error (cursor.position + 2)) := by
  obtain ⟨hHere, hNext, hTail, hLength⟩ := lookUp_of_drop_eq_cons hRest
  obtain ⟨-, -, hAfter, -⟩ := lookUp_of_drop_eq_cons hTail
  rw [List.length_cons] at hLength
  have hRead : between? chars (cursor.position + 2) chars.length = some after := by
    rw [between?_length_eq_some (by omega), hAfter]
  simp [step?, hHere, hNext, hRead, List.idxOf?_eq_none_iff.mpr hOpen]

/-- A brace that is closed belongs to a reference if a name stands in it. -/
theorem step?_eq_of_closed
    (hRest : chars.drop cursor.position = '$' :: '{' :: (name ++ '}' :: after))
    (hName : '}' ∉ name) :
    cursor.step? chars = some (.ok (if IsName name then
      cursor.pushReference ⟨name, true⟩ (cursor.position + 2 + name.length + 1)
        else cursor.pushChar '$')) := by
  obtain ⟨hHere, hNext, hTail, hLength⟩ := lookUp_of_drop_eq_cons hRest
  obtain ⟨-, -, hAfter, -⟩ := lookUp_of_drop_eq_cons hTail
  rw [List.length_cons] at hLength
  have hRead : between? chars (cursor.position + 2) chars.length =
      some (name ++ '}' :: after) := by
    rw [between?_length_eq_some (by omega), hAfter]
  have hReadName : between? chars (cursor.position + 2) (cursor.position + 2 + name.length) =
      some name := between?_eq_some (by omega) hAfter
  by_cases hIsName : IsName name <;>
    simp [step?, hHere, hNext, hRead, idxOf?_append_cons hName, hReadName, hIsName]

/-- Name characters directly behind a dollar sign are a reference. -/
theorem step?_eq_of_bare (hRest : chars.drop cursor.position = '$' :: (name ++ after))
    (hName : IsName name) (hAfter : ∀ d ∈ after.head?, isNameChar d = false) :
    cursor.step? chars = some (.ok
      (cursor.pushReference ⟨name, false⟩ (cursor.position + 1 + name.length))) := by
  obtain ⟨hHere, hNext, hTail, hLength⟩ := lookUp_of_drop_eq_cons hRest
  have hLast : skipWhile isNameChar chars (cursor.position + 1) =
      cursor.position + 1 + name.length := by
    rw [skipWhile_eq, hTail, (takeWhile_dropWhile_eq hName.2 hAfter).1]
  have hRead : between? chars (cursor.position + 1) (cursor.position + 1 + name.length) =
      some name := between?_eq_some (by omega) hTail
  obtain ⟨d, others, hCons, hChar⟩ := hName.exists_cons
  have hBrace : d ≠ '{' := by
    rintro rfl
    exact absurd hChar (by decide)
  rw [hCons, List.cons_append, List.head?_cons] at hNext
  simp [step?, hHere, hNext, hBrace, hChar, hLast, hRead]

/-- Any character but a dollar sign is text, and so is a dollar sign that neither a brace nor a name
character follows. -/
theorem step?_eq_of_text (hRest : chars.drop cursor.position = c :: rest)
    (h : c = '$' → ∀ d ∈ rest.head?, d ≠ '{' ∧ isNameChar d = false) :
    cursor.step? chars = some (.ok (cursor.pushChar c)) := by
  obtain ⟨hHere, hNext, -⟩ := lookUp_of_drop_eq_cons hRest
  have hBrace : ¬ (c = '$' ∧ rest.head? = some '{') := fun hBoth => (h hBoth.1 _ hBoth.2).1 rfl
  have hName : ¬ (c = '$' ∧ rest.head?.any isNameChar = true) := by
    rintro ⟨hDollar, hAny⟩
    cases hHead : rest.head? with
    | none =>
        rw [hHead] at hAny
        cases hAny
    | some d =>
        rw [hHead, Option.any_some, (h hDollar d hHead).2] at hAny
        cases hAny
  simp only [step?, hHere, hNext, Option.bind_eq_bind, Option.bind_some, if_neg hBrace,
    if_neg hName]
  rfl

theorem step?_eq_of_referenceAt (hRest : chars.drop cursor.position = reference.spelling ++ after)
    (h : ReferenceAt (reference.spelling ++ after) 0 reference) :
    cursor.step? chars =
      some (.ok (cursor.pushReference reference (cursor.position + reference.width))) := by
  obtain ⟨later, hText, hName, hBare⟩ := h
  obtain rfl : after = later := List.append_cancel_left hText
  obtain ⟨name, braced⟩ := reference
  cases braced with
  | true =>
      have hChars : chars.drop cursor.position = '$' :: '{' :: (name ++ '}' :: after) := by
        simpa [Reference.spelling] using hRest
      have hBrace : '}' ∉ name := fun hMem => absurd (hName.2 '}' hMem) (by decide)
      have hWidth : (Reference.mk name true).width = 2 + name.length + 1 := by
        simp only [Reference.width, Reference.spelling, if_true, List.length_cons,
          List.length_append, List.length_nil]
        omega
      rw [step?_eq_of_closed hChars hBrace, if_pos hName, hWidth, ← Nat.add_assoc,
        ← Nat.add_assoc]
  | false =>
      have hWidth : (Reference.mk name false).width = 1 + name.length := Nat.add_comm _ _
      rw [step?_eq_of_bare hRest hName (hBare rfl), hWidth, ← Nat.add_assoc]

theorem step?_eq_of_not_referenceAt (hRest : chars.drop cursor.position = c :: rest)
    (hNone : ∀ reference, ¬ ReferenceAt (c :: rest) 0 reference)
    (hClosed : ¬ (c = '$' ∧ rest.head? = some '{' ∧ '}' ∉ rest)) :
    cursor.step? chars = some (.ok (cursor.pushChar c)) := by
  by_cases hBrace : c = '$' ∧ rest.head? = some '{'
  · -- no name stands in the braces, or they would belong to a reference
    obtain ⟨rfl, hHead⟩ := hBrace
    obtain ⟨after, rfl⟩ := List.head?_eq_some_iff.mp hHead
    have hMem : '}' ∈ after := by simpa using hClosed
    obtain ⟨name, later, rfl, hFirst⟩ := List.eq_append_cons_of_mem hMem
    have hName : ¬ IsName name := fun hName =>
      hNone ⟨name, true⟩ ⟨later, by simp [Reference.spelling], hName, fun h => by cases h⟩
    rw [step?_eq_of_closed hRest hFirst, if_neg hName]
  · refine step?_eq_of_text hRest ?_
    rintro rfl d hHead
    refine ⟨fun hSame => hBrace ⟨rfl, hSame ▸ hHead⟩, ?_⟩
    -- a name character would start the name of a reference
    by_contra hChar
    obtain ⟨others, rfl⟩ := List.head?_eq_some_iff.mp hHead
    obtain ⟨hSplit, hRun, hStop⟩ := takeWhile_dropWhile_spec isNameChar (d :: others)
    refine hNone ⟨(d :: others).takeWhile isNameChar, false⟩
      ⟨(d :: others).dropWhile isNameChar, ?_, ⟨?_, hRun⟩, fun _ => hStop⟩
    · rw [List.drop_zero, Reference.spelling, if_neg Bool.false_ne_true, List.cons_append, ← hSplit]
    · simp [hChar]

end Cursor

/-- What an iteration at the cursor comes to: the number of a brace that is left open there, or the
cursor behind the reference or the character that stands there. -/
inductive Iteration (chars : List Char) (cursor : Cursor) : Except Nat Cursor → Prop where
  | unclosed {after : List Char} (hRest : chars.drop cursor.position = '$' :: '{' :: after)
      (hOpen : '}' ∉ after) : Iteration chars cursor (.error (cursor.position + 2))
  | reference {reference : Reference} {after : List Char}
      (hRest : chars.drop cursor.position = reference.spelling ++ after)
      (hHere : ReferenceAt (reference.spelling ++ after) 0 reference) :
      Iteration chars cursor
        (.ok (cursor.pushReference reference (cursor.position + reference.width)))
  | char {c : Char} {rest : List Char} (hRest : chars.drop cursor.position = c :: rest)
      (hNone : ∀ reference, ¬ ReferenceAt (c :: rest) 0 reference)
      (hClosed : ¬ (c = '$' ∧ rest.head? = some '{' ∧ '}' ∉ rest)) :
      Iteration chars cursor (.ok (cursor.pushChar c))

namespace Cursor

variable {first cursor next : Cursor} {result : Except Nat Cursor}

/-- Inside the text no look-up of an iteration is refused. -/
theorem exists_iteration (hInside : cursor.position < chars.length) :
    ∃ result, cursor.step? chars = some result ∧ Iteration chars cursor result := by
  obtain ⟨c, rest, hRest⟩ : ∃ c rest, chars.drop cursor.position = c :: rest :=
    ⟨_, _, List.drop_eq_getElem_cons hInside⟩
  by_cases hOpen : c = '$' ∧ rest.head? = some '{' ∧ '}' ∉ rest
  · obtain ⟨rfl, hHead, hNone⟩ := hOpen
    obtain ⟨after, rfl⟩ := List.head?_eq_some_iff.mp hHead
    have hAfter : '}' ∉ after := fun hMem => hNone (List.mem_cons_of_mem _ hMem)
    exact ⟨_, step?_eq_error hRest hAfter, .unclosed hRest hAfter⟩
  · by_cases hHere : ∃ reference, ReferenceAt (c :: rest) 0 reference
    · obtain ⟨reference, hReference⟩ := hHere
      obtain ⟨after, hText, -⟩ := id hReference
      rw [List.drop_zero] at hText
      rw [hText] at hRest hReference
      exact ⟨_, step?_eq_of_referenceAt hRest hReference, .reference hRest hReference⟩
    · have hNone : ∀ reference, ¬ ReferenceAt (c :: rest) 0 reference := not_exists.mp hHere
      exact ⟨_, step?_eq_of_not_referenceAt hRest hNone hOpen, .char hRest hNone hOpen⟩

/-- There is no iteration behind the end of the text. -/
theorem lt_length_of_step?_eq_some (h : cursor.step? chars = some result) :
    cursor.position < chars.length := by
  by_contra hEnd
  have hNone : chars[cursor.position]? = none := List.getElem?_eq_none (Nat.le_of_not_lt hEnd)
  rw [step?, hNone] at h
  cases h

theorem iteration_of_step?_eq_some (h : cursor.step? chars = some result) :
    Iteration chars cursor result := by
  obtain ⟨other, hOther, hIteration⟩ := exists_iteration (lt_length_of_step?_eq_some h)
  rw [h] at hOther
  obtain rfl := Option.some.inj hOther
  exact hIteration

/-- **An iteration moves the cursor on**, and at most to the end of the text. -/
theorem position_lt_of_step?_eq_ok (h : cursor.step? chars = some (.ok next)) :
    cursor.position < next.position ∧ next.position ≤ chars.length := by
  have hInside := lt_length_of_step?_eq_some h
  cases iteration_of_step?_eq_some h with
  | @reference reference after hRest hHere =>
      have hLength := congrArg List.length hRest
      rw [List.length_drop, List.length_append, ← Reference.width] at hLength
      have hWidth := reference.length_tail_spelling
      simp only [pushReference]
      omega
  | char hRest hNone hClosed =>
      simp only [pushChar]
      omega

/-! ## Runs -/

/-- Iterations lead from one cursor to the other. -/
def Reaches (chars : List Char) : Cursor → Cursor → Prop :=
  Relation.ReflTransGen fun cursor next => cursor.step? chars = some (.ok next)

/-- The cursor stands in the text or at its end, the iteration there looks up nothing outside of the
text, and it moves the cursor on. -/
structure Inside (chars : List Char) (cursor : Cursor) : Prop where
  position_le : cursor.position ≤ chars.length
  step?_ne_none : cursor.position < chars.length → cursor.step? chars ≠ none
  position_lt : ∀ next, cursor.step? chars = some (.ok next) → cursor.position < next.position

/-- **A run stays inside.** -/
theorem inside_of_reaches (hFirst : first.position ≤ chars.length)
    (h : Reaches chars first cursor) : cursor.Inside chars where
  position_le := by
    cases h with
    | refl => exact hFirst
    | tail _ hLast => exact (position_lt_of_step?_eq_ok hLast).2
  step?_ne_none := by
    intro hInside
    obtain ⟨result, hResult, -⟩ := exists_iteration hInside
    rw [hResult]
    exact Option.some_ne_none result
  position_lt := fun next hNext => (position_lt_of_step?_eq_ok hNext).1

/-- Reads up to the end of the text. -/
def read? (chars : List Char) (cursor : Cursor) : Option (Except Nat Cursor) :=
  if cursor.position < chars.length then
    match _h : cursor.step? chars with
    | some (.ok next) => next.read? chars
    | ended => ended
  else some (.ok cursor)
termination_by chars.length - cursor.position
decreasing_by
  have hMoves := position_lt_of_step?_eq_ok ‹_›
  omega

/-- The pieces of a text that has been read to its end. Blanks at the end are dropped. -/
def finish (cursor : Cursor) : List Piece :=
  cursor.finished ++ textPiece (trimEnd cursor.buffer)

/-- No reference starts in the text behind the last piece, and that text stands in front of the
cursor. -/
structure Plain (chars : List Char) (cursor : Cursor) : Prop where
  length_le : cursor.buffer.length ≤ cursor.position
  not_referenceAt : ∀ position < cursor.buffer.length, ∀ reference,
    ¬ ReferenceAt (cursor.buffer ++ chars.drop cursor.position) position reference

/-- What a run from the cursor has to come to: the first brace that is left open behind it, or the
pieces so far with those of the text behind them. -/
def outcome (chars : List Char) (cursor : Cursor) : Except Nat (List Piece) :=
  match unclosedBrace? cursor.position (chars.drop cursor.position) with
  | some brace => .error brace
  | none => .ok (cursor.finished ++ pieces (cursor.position - cursor.buffer.length)
      (trimEnd (cursor.buffer ++ chars.drop cursor.position)))

theorem outcome_pushChar (hRest : chars.drop cursor.position = c :: rest)
    (hClosed : ¬ (c = '$' ∧ rest.head? = some '{' ∧ '}' ∉ rest)) :
    (cursor.pushChar c).outcome chars = cursor.outcome chars := by
  obtain ⟨-, -, hTail, -⟩ := lookUp_of_drop_eq_cons hRest
  rw [outcome, outcome, hRest, unclosedBrace?, if_neg hClosed]
  simp only [pushChar, hTail, List.length_append, List.length_singleton, Nat.add_sub_add_right,
    List.append_assoc, List.singleton_append]

theorem outcome_pushReference (hRest : chars.drop cursor.position = reference.spelling ++ after)
    (hHere : ReferenceAt (reference.spelling ++ after) 0 reference) (h : cursor.Plain chars) :
    (cursor.pushReference reference (cursor.position + reference.width)).outcome chars =
      cursor.outcome chars := by
  have hTail : chars.drop (cursor.position + reference.width) = after := by
    rw [← List.drop_drop, hRest, Reference.width, List.drop_left]
  have hName : IsName reference.name := by
    obtain ⟨-, -, hName, -⟩ := hHere
    exact hName
  have hText : trimEnd (cursor.buffer ++ (reference.spelling ++ after)) =
      cursor.buffer ++ (reference.spelling ++ trimEnd after) := by
    rw [← List.append_assoc, trimEnd_append, List.append_assoc]
    intro c hc
    rw [Reference.spelling_eq_cons, List.getLast?_append_of_ne_nil _ (List.cons_ne_nil _ _),
      ← Reference.spelling_eq_cons] at hc
    exact isBlank_eq_false_of_mem_spelling hName c (List.mem_of_getLast? hc)
  obtain ⟨trail, hAfter, hTrail, -⟩ := trimEnd_spec after
  have hStill : ReferenceAt (reference.spelling ++ trimEnd after) 0 reference := by
    rw [← referenceAt_append_of_allBlank hTrail, List.append_assoc, ← hAfter]
    exact hHere
  have hPlain : ∀ position < cursor.buffer.length, ∀ other,
      ¬ ReferenceAt (cursor.buffer ++ (reference.spelling ++ trimEnd after)) position other := by
    intro position hPosition other
    rw [← referenceAt_append_of_allBlank hTrail, List.append_assoc, List.append_assoc, ← hAfter,
      ← hRest]
    exact h.not_referenceAt position hPosition other
  rw [outcome, outcome, hRest, unclosedBrace?_append_of_referenceAt hHere, hText,
    pieces_append_reference hStill hPlain, Nat.sub_add_cancel h.length_le]
  simp only [pushReference, hTail, List.nil_append, List.length_nil, Nat.sub_zero,
    List.append_assoc, List.singleton_append]

theorem Plain.pushChar (h : cursor.Plain chars) (hRest : chars.drop cursor.position = c :: rest)
    (hNone : ∀ reference, ¬ ReferenceAt (c :: rest) 0 reference) :
    (cursor.pushChar c).Plain chars where
  length_le := by
    have hLength := h.length_le
    simp only [Cursor.pushChar, List.length_append, List.length_singleton]
    omega
  not_referenceAt := by
    obtain ⟨-, -, hTail, -⟩ := lookUp_of_drop_eq_cons hRest
    intro position hPosition reference
    have hText : (cursor.pushChar c).buffer ++ chars.drop (cursor.pushChar c).position =
        cursor.buffer ++ c :: rest := by
      simp only [Cursor.pushChar, hTail, List.append_assoc, List.singleton_append]
    rw [hText]
    simp only [Cursor.pushChar, List.length_append, List.length_singleton] at hPosition
    rcases Nat.lt_succ_iff_lt_or_eq.mp hPosition with hBefore | rfl
    · rw [← hRest]
      exact h.not_referenceAt position hBefore reference
    · rw [← Nat.add_zero cursor.buffer.length, referenceAt_append]
      exact hNone reference

theorem plain_of_buffer_eq_nil (h : cursor.buffer = []) : cursor.Plain chars where
  length_le := by
    rw [h]
    exact Nat.zero_le _
  not_referenceAt := by
    rw [h]
    exact fun position hPosition => absurd hPosition (Nat.not_lt_zero position)

/-- At the end of the text nothing is left to be read. -/
theorem outcome_of_length_le (hEnd : chars.length ≤ cursor.position) (h : cursor.Plain chars) :
    cursor.outcome chars = .ok cursor.finish := by
  have hRest : chars.drop cursor.position = [] := List.drop_of_length_le hEnd
  obtain ⟨trail, hBuffer, hTrail, -⟩ := trimEnd_spec cursor.buffer
  have hPlain : ∀ position < (trimEnd cursor.buffer).length, ∀ reference,
      ¬ ReferenceAt (trimEnd cursor.buffer) position reference := by
    intro position hPosition reference hReference
    have hLength := congrArg List.length hBuffer
    rw [List.length_append] at hLength
    refine h.not_referenceAt position (by omega) reference ?_
    rwa [hRest, List.append_nil, hBuffer, referenceAt_append_of_allBlank hTrail]
  rw [outcome, hRest, unclosedBrace?, List.append_nil, finish, pieces_eq_textPiece hPlain]

/-- **A run ends with the pieces of the text, or at the first brace that is left open.** -/
theorem read?_eq (h : cursor.Plain chars) :
    (cursor.read? chars).map (Except.map finish) = some (cursor.outcome chars) := by
  fun_induction read? chars cursor with
  | case1 cursor hInside next hStep ih =>
      cases iteration_of_step?_eq_some hStep with
      | @reference reference after hRest hHere =>
          rw [ih (plain_of_buffer_eq_nil rfl), outcome_pushReference hRest hHere h]
      | char hRest hNone hClosed =>
          rw [ih (h.pushChar hRest hNone), outcome_pushChar hRest hClosed]
  | case2 cursor hInside hEnded =>
      obtain ⟨result, hResult, hIteration⟩ := exists_iteration hInside
      rw [hResult]
      cases hIteration with
      | unclosed hRest hOpen =>
          rw [outcome, hRest, unclosedBrace?, if_pos ⟨rfl, rfl, by simpa using hOpen⟩]
          rfl
      | reference hRest hHere => exact absurd hResult (hEnded _)
      | char hRest hNone hClosed => exact absurd hResult (hEnded _)
  | case3 cursor hEnd =>
      rw [outcome_of_length_le (Nat.le_of_not_lt hEnd) h]
      rfl

theorem read?_start (chars : List Char) (position : Nat) :
    ((start position).read? chars).map (Except.map finish) =
      some (match unclosedBrace? position (chars.drop position) with
        | some brace => .error brace
        | none => .ok (pieces position (trimEnd (chars.drop position)))) :=
  read?_eq (plain_of_buffer_eq_nil rfl)

theorem read?_start_eq_error {brace : Nat}
    (h : unclosedBrace? position (chars.drop position) = some brace) :
    (start position).read? chars = some (.error brace) := by
  have hRead := read?_start chars position
  rw [h] at hRead
  obtain ⟨result, hResult, hBrace⟩ := Option.map_eq_some_iff.mp hRead
  cases result with
  | error other =>
      obtain rfl : other = brace := Except.error.inj hBrace
      exact hResult
  | ok last => cases hBrace

theorem exists_read?_start_eq_ok (h : unclosedBrace? position (chars.drop position) = none) :
    ∃ last, (start position).read? chars = some (.ok last) ∧
      last.finish = pieces position (trimEnd (chars.drop position)) := by
  have hRead := read?_start chars position
  rw [h] at hRead
  obtain ⟨result, hResult, hPieces⟩ := Option.map_eq_some_iff.mp hRead
  cases result with
  | error brace => cases hPieces
  | ok last => exact ⟨last, hResult, Except.ok.inj hPieces⟩

end Cursor

end PhraseGrammar.Source
