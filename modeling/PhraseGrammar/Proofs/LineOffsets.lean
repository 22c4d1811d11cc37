import PhraseGrammar.Proofs.Cursor

/-!
# Reading a line by offsets

A character takes up to four bytes, so an offset in bytes and the number of characters in front of
it are two numbers. A line can be read with both: the left-hand side ends at an offset, the arrow is
looked for there, and a cursor starts at the position that the offset behind the arrow comes to.
`textTo?` and `textFrom?` refuse an offset inside a character or behind the end, as the cursor
refuses what is outside of the line.

Nothing is refused in any line (`readsInside`), and what is read is what `readLine` reads. So
`scan?`, which reads a source this way, has a result for every source, and it is that of `parse`.
-/

set_option autoImplicit false

namespace PhraseGrammar.Source

open PhraseGrammar.Text

variable {line : String} {name rest tail : List Char} {number start : Nat}

/-! ## Offsets -/

/-- The text in front of the offset, which has to lie between two characters. -/
def textTo? (text : String) (offset : Nat) : Option String :=
  if h : String.Pos.Raw.IsValid text ⟨offset⟩ then some (text.sliceTo (text.pos ⟨offset⟩ h)).copy
  else none

/-- The text behind the offset, which has to lie between two characters. -/
def textFrom? (text : String) (offset : Nat) : Option String :=
  if h : String.Pos.Raw.IsValid text ⟨offset⟩ then
    some (text.sliceFrom (text.pos ⟨offset⟩ h)).copy
  else none

/-- A text ends between two characters if another one follows it. -/
theorem isValid_append (front rest : String) :
    String.Pos.Raw.IsValid (front ++ rest) ⟨front.utf8ByteSize⟩ :=
  String.Pos.Raw.isValid_iff_exists_append.mpr ⟨front, rest, rfl, rfl⟩

theorem textTo?_append (front rest : String) :
    textTo? (front ++ rest) front.utf8ByteSize = some front := by
  have hSplits : ((front ++ rest).pos _ (isValid_append front rest)).Splits front rest :=
    ⟨rfl, rfl⟩
  rw [textTo?, dif_pos (isValid_append front rest), hSplits.copy_sliceTo_eq]

theorem textFrom?_append (front rest : String) :
    textFrom? (front ++ rest) front.utf8ByteSize = some rest := by
  have hSplits : ((front ++ rest).pos _ (isValid_append front rest)).Splits front rest :=
    ⟨rfl, rfl⟩
  rw [textFrom?, dif_pos (isValid_append front rest), hSplits.copy_sliceFrom_eq]

/-! ## The left-hand side -/

/-- The name on the left of the line, and the offset at which the left-hand side ends. -/
def headEnd? (line : String) : Option (List Char × Nat) :=
  (leftHandSide? line.toList).map fun head =>
    (head.1, line.utf8ByteSize - (String.ofList head.2).utf8ByteSize)

/-- The left-hand side is a text in front of what follows it. -/
theorem exists_headEnd?_eq_some (h : leftHandSide? line.toList = some (name, rest)) :
    ∃ front, line = front ++ String.ofList rest ∧
      headEnd? line = some (name, front.utf8ByteSize) := by
  obtain ⟨margin, gap, hLine, -⟩ := headCut_of_leftHandSide?_eq_some h
  have hFront : line = String.ofList (margin ++ '$' :: (name ++ gap)) ++ String.ofList rest := by
    rw [← String.toList_inj, String.toList_append, String.toList_ofList, String.toList_ofList,
      hLine]
    simp
  refine ⟨_, hFront, ?_⟩
  have hSize := congrArg String.utf8ByteSize hFront
  rw [String.utf8ByteSize_append] at hSize
  rw [headEnd?, h, Option.map_some, hSize, Nat.add_sub_cancel]

/-- The name on the left of the line and the position behind the arrow, or the fault in front of
that. The value is `none` if a cut of the line is refused. -/
def scanHead? (number : Nat) (line : String) : Option (Except Fault (List Char × Nat)) :=
  match headEnd? line with
  | none => some (.error (.invalidLeftHandSide number))
  | some (name, head) => do
    let rest ← textFrom? line head
    if arrow <+: rest.toList then
      let front ← textTo? line (head + 2)
      return .ok (name, front.length)
    else return .error (.missingArrow number)

/-- Reads a line by offsets and positions. -/
def scanLine? (number : Nat) (line : String) : Option (Except Fault RuleLine) := do
  match ← scanHead? number line with
  | .error fault => return .error fault
  | .ok (name, start) =>
    match ← (Cursor.start (skipWhile isBlank line.toList start)).read? line.toList with
    | .error brace => return .error (.missingClosingBrace number brace)
    | .ok last => return .ok ⟨name, last.finish, number⟩

theorem scanHead?_of_eq_none (h : leftHandSide? line.toList = none) (number : Nat) :
    scanHead? number line = some (.error (.invalidLeftHandSide number)) := by
  rw [scanHead?, headEnd?, h]
  rfl

theorem scanHead?_of_not_arrow (h : leftHandSide? line.toList = some (name, rest))
    (hArrow : ¬ arrow <+: rest) (number : Nat) :
    scanHead? number line = some (.error (.missingArrow number)) := by
  obtain ⟨front, rfl, hEnd⟩ := exists_headEnd?_eq_some h
  simp [scanHead?, hEnd, textFrom?_append, hArrow]

/-- Reading goes on behind the arrow, at the position that is the number of characters up to
there. -/
theorem scanHead?_of_arrow (h : leftHandSide? line.toList = some (name, arrow ++ tail))
    (number : Nat) :
    ∃ front head, line = front ++ String.ofList tail ∧ headEnd? line = some (name, head) ∧
      front.utf8ByteSize = head + 2 ∧
        scanHead? number line = some (.ok (name, front.length)) := by
  obtain ⟨front, hLine, hEnd⟩ := exists_headEnd?_eq_some h
  have hTail : line = (front ++ String.ofList arrow) ++ String.ofList tail := by
    rw [hLine, String.ofList_append, String.append_assoc]
  have hSize : (front ++ String.ofList arrow).utf8ByteSize = front.utf8ByteSize + 2 := by
    rw [String.utf8ByteSize_append]
    rfl
  have hFrom : textFrom? line front.utf8ByteSize = some (String.ofList (arrow ++ tail)) := by
    rw [hLine, textFrom?_append]
  have hTo : textTo? line (front.utf8ByteSize + 2) = some (front ++ String.ofList arrow) := by
    rw [hTail, ← hSize, textTo?_append]
  refine ⟨front ++ String.ofList arrow, front.utf8ByteSize, hTail, hEnd, hSize, ?_⟩
  simp [scanHead?, hEnd, hFrom, hTo]

/-! ## The whole line -/

/-- Behind the blanks there, the cursor reads the right-hand side. -/
theorem scanLine?_of_arrow (h : leftHandSide? line.toList = some (name, arrow ++ tail))
    (number : Nat) : scanLine? number line = some (readLine number line.toList) := by
  obtain ⟨front, head, hLine, -, -, hHead⟩ := scanHead?_of_arrow h number
  have hChars : line.toList = front.toList ++ tail := by
    rw [hLine, String.toList_append, String.toList_ofList]
  have hTail : line.toList.drop front.length = tail := by
    rw [hChars, ← String.length_toList, List.drop_left]
  have hStart : front.length ≤ line.toList.length := by
    rw [hChars, List.length_append, String.length_toList]
    exact Nat.le_add_right _ _
  have hBody : line.toList.drop (skipWhile isBlank line.toList front.length) =
      tail.dropWhile isBlank := by rw [drop_skipWhile, hTail]
  have hFirst : skipWhile isBlank line.toList front.length =
      line.toList.length - (tail.dropWhile isBlank).length := by
    rw [← hBody, List.length_drop, Nat.sub_sub_self (skipWhile_le_length isBlank hStart)]
  have hArrow : afterArrow? (arrow ++ tail) = some (tail.dropWhile isBlank) := rfl
  rw [scanLine?, hHead, readLine, h]
  simp only [hArrow, ← hFirst]
  cases hBrace : unclosedBrace? (skipWhile isBlank line.toList front.length)
      (tail.dropWhile isBlank) with
  | some brace =>
      rw [← hBody] at hBrace
      simp only [Option.bind_eq_bind, Option.bind_some, Cursor.read?_start_eq_error hBrace]
      rfl
  | none =>
      rw [← hBody] at hBrace
      obtain ⟨last, hLast, hFinish⟩ := Cursor.exists_read?_start_eq_ok hBrace
      rw [hBody] at hFinish
      simp only [Option.bind_eq_bind, Option.bind_some, hLast, hFinish]
      rfl

theorem scanLine?_eq (number : Nat) (line : String) :
    scanLine? number line = some (readLine number line.toList) := by
  cases hHead : leftHandSide? line.toList with
  | none =>
      rw [scanLine?, scanHead?_of_eq_none hHead, readLine, hHead]
      rfl
  | some cut =>
      obtain ⟨name, rest⟩ := cut
      by_cases hArrow : arrow <+: rest
      · obtain ⟨tail, rfl⟩ := hArrow
        exact scanLine?_of_arrow hHead number
      · rw [scanLine?, scanHead?_of_not_arrow hHead hArrow, readLine, hHead]
        simp only [afterArrow?_eq_none hArrow]
        rfl

/-- How a line is read by offsets and positions. -/
structure ReadsInside (number : Nat) (line : String) : Prop where
  /-- The left-hand side ends between two characters of the line. -/
  head_isValid : ∀ name head, headEnd? line = some (name, head) →
    String.Pos.Raw.IsValid line ⟨head⟩
  /-- So does the arrow, and the position behind it is the number of characters up to there. -/
  start_eq : ∀ name start, scanHead? number line = some (.ok (name, start)) →
    ∃ head, headEnd? line = some (name, head) ∧ String.Pos.Raw.IsValid line ⟨head + 2⟩ ∧
      start ≤ line.length ∧
        textTo? line (head + 2) = some (String.ofList (line.toList.take start))
  /-- In every iteration behind the arrow the cursor stands in the line, looks up nothing outside of
  it, and moves on. -/
  inside : ∀ name start, scanHead? number line = some (.ok (name, start)) → ∀ cursor,
    Cursor.Reaches line.toList (.start (skipWhile isBlank line.toList start)) cursor →
      cursor.Inside line.toList
  /-- Nothing is refused, and the line is read as it is by its characters. -/
  scanLine?_eq : scanLine? number line = some (readLine number line.toList)

theorem isValid_of_headEnd?_eq_some {head : Nat} (h : headEnd? line = some (name, head)) :
    String.Pos.Raw.IsValid line ⟨head⟩ := by
  obtain ⟨⟨_, rest⟩, hHead, -⟩ := Option.map_eq_some_iff.mp h
  obtain ⟨front, hLine, hEnd⟩ := exists_headEnd?_eq_some hHead
  obtain ⟨-, rfl⟩ := Prod.mk.inj (Option.some.inj (hEnd.symm.trans h))
  rw [hLine]
  exact isValid_append front _

/-- A position behind the arrow comes from a line that has one. -/
theorem exists_of_scanHead?_eq_ok (h : scanHead? number line = some (.ok (name, start))) :
    ∃ front rest head, line = front ++ rest ∧ headEnd? line = some (name, head) ∧
      front.utf8ByteSize = head + 2 ∧ front.length = start := by
  cases hHead : leftHandSide? line.toList with
  | none =>
      rw [scanHead?_of_eq_none hHead] at h
      cases h
  | some cut =>
      obtain ⟨other, rest⟩ := cut
      by_cases hArrow : arrow <+: rest
      · obtain ⟨tail, rfl⟩ := hArrow
        obtain ⟨front, head, hLine, hEnd, hSize, hOk⟩ := scanHead?_of_arrow hHead number
        obtain ⟨rfl, rfl⟩ := Prod.mk.inj (Except.ok.inj (Option.some.inj (hOk.symm.trans h)))
        exact ⟨front, _, head, hLine, hEnd, hSize, rfl⟩
      · rw [scanHead?_of_not_arrow hHead hArrow] at h
        cases h

theorem readsInside (number : Nat) (line : String) : ReadsInside number line where
  head_isValid := fun _ _ hHead => isValid_of_headEnd?_eq_some hHead
  start_eq := by
    intro name start hStart
    obtain ⟨front, rest, head, rfl, hEnd, hSize, rfl⟩ := exists_of_scanHead?_eq_ok hStart
    refine ⟨head, hEnd, ?_, ?_, ?_⟩
    · rw [← hSize]
      exact isValid_append front rest
    · rw [String.length_append]
      exact Nat.le_add_right _ _
    · rw [← hSize, textTo?_append, String.toList_append, ← String.length_toList, List.take_left,
        String.ofList_toList]
  inside := by
    intro name start hStart cursor hReaches
    obtain ⟨front, rest, -, rfl, -, -, rfl⟩ := exists_of_scanHead?_eq_ok hStart
    refine Cursor.inside_of_reaches (skipWhile_le_length isBlank ?_) hReaches
    rw [String.length_toList, String.length_append]
    exact Nat.le_add_right _ _
  scanLine?_eq := scanLine?_eq number line

/-! ## The whole source -/

/-- What the results of lines come to, for a source with these lines. -/
def Parsed.ofResults (results : List (Except Fault RuleLine)) : Parsed :=
  let ruleLines := results.filterMap Except.toOption
  let rules := ruleLines.map RuleLine.rule
  { rules
    faults := results.filterMap faultOf?
      ++ crossCheck rules (ruleLines.flatMap RuleLine.occurrences) }

/-- Reads the lines of a source that are not blank by offsets and positions. -/
def scan? (source : String) : Option Parsed := do
  let results ← (filledLines source.toList).mapM fun entry =>
    scanLine? entry.2 (String.ofList entry.1)
  return Parsed.ofResults results

theorem scan?_eq (source : String) : scan? source = some (parse source) := by
  have hLines : (filledLines source.toList).mapM (fun entry =>
      scanLine? entry.2 (String.ofList entry.1)) = some (readLines source.toList) := by
    simp only [scanLine?_eq, String.toList_ofList, readLines_eq_map]
    exact List.mapM_pure
  rw [scan?, hLines]
  rfl

/-- **Reading by offsets and positions stays inside every line, and it ends**: every source has a
result, and it is the one that is read character by character. -/
theorem scan_readsInside :
    (∀ (number : Nat) (line : String), ReadsInside number line) ∧
      ∀ source : String, scan? source = some (parse source) :=
  ⟨readsInside, scan?_eq⟩

/-- A line with characters of two and three bytes, blanks among them, and a dollar sign at its
end. -/
def wideLine : String := "\u2003$A\u00a0-> é$"

theorem scan_readsInside_wideLine :
    headEnd? wideLine = some (['A'], 7) ∧ String.Pos.Raw.IsValid wideLine ⟨7⟩ ∧
      scanHead? 1 wideLine = some (.ok (['A'], 6)) ∧ String.Pos.Raw.IsValid wideLine ⟨9⟩ ∧
        Cursor.Inside wideLine.toList ⟨8, [], ['é']⟩ ∧
          scanLine? 1 wideLine = some (.ok ⟨['A'], [.text ['é', '$']], 1⟩) ∧
            scan? wideLine = some (parse wideLine) := by
  have h := scan_readsInside.1 1 wideLine
  have hHead : headEnd? wideLine = some (['A'], 7) := by decide +kernel
  have hStart : scanHead? 1 wideLine = some (.ok (['A'], 6)) := by decide +kernel
  have hSkip : skipWhile isBlank wideLine.toList 6 = 7 := by decide +kernel
  -- the next iteration is the one at the dollar sign that ends the line
  have hStep : (Cursor.start 7).step? wideLine.toList = some (.ok ⟨8, [], ['é']⟩) := by
    decide +kernel
  have hRead : readLine 1 wideLine.toList = .ok ⟨['A'], [.text ['é', '$']], 1⟩ := by
    decide +kernel
  obtain ⟨head, hSame, hValid, -⟩ := h.start_eq _ _ hStart
  obtain rfl : head = 7 := by
    rw [hHead] at hSame
    exact (Prod.mk.inj (Option.some.inj hSame)).2.symm
  refine ⟨hHead, h.head_isValid _ _ hHead, hStart, hValid, ?_, ?_, scan_readsInside.2 wideLine⟩
  · rw [← hSkip] at hStep
    exact h.inside _ _ hStart _ (.single hStep)
  · rw [h.scanLine?_eq, hRead]

end PhraseGrammar.Source
