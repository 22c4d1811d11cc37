import PhraseGrammar.Proofs.Pieces
import PhraseGrammar.Source.Line

/-!
# What a line comes to

By its characters, a line that is not blank has no name, no arrow, a brace that is not closed, or
else a rule. `Verdict` says which of them; it speaks of the line alone and of no scanner.
`readLine` gives the verdict on every line (`verdict_iff`).
-/

set_option autoImplicit false

namespace PhraseGrammar.Source

open PhraseGrammar.Text

/-- All characters of the text are blank. -/
def AllBlank (text : List Char) : Prop :=
  ∀ c ∈ text, isBlank c = true

theorem allBlank_nil : AllBlank [] :=
  fun _ hMem => absurd hMem List.not_mem_nil

theorem allBlank_space : AllBlank [' '] :=
  List.forall_mem_singleton.mpr (by decide)

theorem AllBlank.not_mem {text : List Char} {c : Char} (h : AllBlank text)
    (hBlank : isBlank c = false) : c ∉ text := by
  intro hMem
  rw [h c hMem] at hBlank
  cases hBlank

/-- What stands between the name on the left and the right-hand side. -/
def arrow : List Char := ['-', '>']

variable {line name rest tail front after margin text : List Char} {before brace number : Nat}

/-! ## The name that a line starts with -/

/-- The line starts with blanks, a dollar sign and a name. -/
def StartsWithName (line : List Char) : Prop :=
  ∃ margin name rest, line = margin ++ '$' :: (name ++ rest) ∧ AllBlank margin ∧ IsName name

/-- The line starts with blanks, a dollar sign and the name, which goes on as long as it can, and
`rest` is what follows the blanks after it. -/
def HeadCut (line name rest : List Char) : Prop :=
  ∃ margin gap, line = margin ++ '$' :: (name ++ (gap ++ rest)) ∧ AllBlank margin ∧
    IsName name ∧ (∀ c ∈ (gap ++ rest).head?, isNameChar c = false) ∧ AllBlank gap ∧
      ∀ c ∈ rest.head?, isBlank c = false

theorem HeadCut.startsWithName (h : HeadCut line name rest) : StartsWithName line := by
  obtain ⟨margin, gap, hLine, hMargin, hName, -⟩ := h
  exact ⟨margin, name, gap ++ rest, hLine, hMargin, hName⟩

theorem HeadCut.length_tail_le (h : HeadCut line name (arrow ++ tail)) :
    tail.length ≤ line.length := by
  obtain ⟨margin, gap, rfl, -⟩ := h
  simp only [List.length_append, List.length_cons]
  omega

/-- The dollar sign is not blank, so it ends the blanks in front of it. -/
theorem dropWhile_isBlank_margin (hMargin : AllBlank margin) :
    (margin ++ '$' :: text).dropWhile isBlank = '$' :: text := by
  have hDollar : ∀ c ∈ ('$' :: text).head?, isBlank c = false :=
    forall_mem_head?_cons.mpr (by decide)
  exact (takeWhile_dropWhile_eq hMargin hDollar).2

theorem headCut_of_leftHandSide?_eq_some (h : leftHandSide? line = some (name, rest)) :
    HeadCut line name rest := by
  rw [leftHandSide?] at h
  split at h
  case h_1 text hLine =>
      split at h
      case h_1 => cases h
      case h_2 hSome =>
          obtain ⟨rfl, rfl⟩ := Prod.mk.inj (Option.some.inj h)
          obtain ⟨-, hMargin, -⟩ := takeWhile_dropWhile_spec isBlank line
          obtain ⟨-, hName, hStop⟩ := takeWhile_dropWhile_spec isNameChar text
          obtain ⟨-, hGap, hRest⟩ := takeWhile_dropWhile_spec isBlank (text.dropWhile isNameChar)
          refine ⟨line.takeWhile isBlank, (text.dropWhile isNameChar).takeWhile isBlank, ?_,
            hMargin, ⟨hSome, hName⟩, ?_, hGap, hRest⟩
          · rw [List.takeWhile_append_dropWhile, List.takeWhile_append_dropWhile, ← hLine,
              List.takeWhile_append_dropWhile]
          · rwa [List.takeWhile_append_dropWhile]
  case h_2 => cases h

theorem leftHandSide?_eq_some_of_headCut (h : HeadCut line name rest) :
    leftHandSide? line = some (name, rest) := by
  obtain ⟨margin, gap, rfl, hMargin, hName, hStop, hGap, hRest⟩ := h
  obtain ⟨hRun, hAfter⟩ := takeWhile_dropWhile_eq hName.2 hStop
  obtain ⟨-, hTail⟩ := takeWhile_dropWhile_eq hGap hRest
  obtain ⟨c, others, rfl, -⟩ := hName.exists_cons
  rw [leftHandSide?, dropWhile_isBlank_margin hMargin]
  simp only [hRun, hAfter, hTail]

theorem leftHandSide?_eq_none_iff : leftHandSide? line = none ↔ ¬ StartsWithName line := by
  constructor
  · rintro hNone ⟨margin, name, rest, rfl, hMargin, hName⟩
    -- the name is not empty, so the run of name characters is not
    obtain ⟨c, others, rfl, hChar⟩ := hName.exists_cons
    rw [leftHandSide?, dropWhile_isBlank_margin hMargin] at hNone
    simp [hChar] at hNone
  · intro hNot
    cases hHead : leftHandSide? line with
    | none => rfl
    | some cut =>
        exact absurd (headCut_of_leftHandSide?_eq_some hHead).startsWithName hNot

theorem afterArrow?_eq_none (h : ¬ arrow <+: rest) : afterArrow? rest = none := by
  rw [afterArrow?.eq_2]
  intro tail hTail
  exact h ⟨tail, hTail.symm⟩

/-! ## Braces that are not closed -/

/-- Behind `front` a dollar sign and a brace stand in the text, and no closing brace is among the
characters after them. -/
def OpensUnclosed (text front after : List Char) : Prop :=
  text = front ++ '$' :: '{' :: after ∧ '}' ∉ after

/-- Every brace that the text opens after a dollar sign is closed. -/
def BracesClosed (text : List Char) : Prop :=
  ∀ front after, ¬ OpensUnclosed text front after

/-- The characters `after` follow the first brace of the text that is opened and not closed. -/
def FirstUnclosed (text after : List Char) : Prop :=
  ∃ front, OpensUnclosed text front after ∧
    ∀ other later, OpensUnclosed text other later → front.length ≤ other.length

theorem opensUnclosed_cons_iff {c : Char} :
    OpensUnclosed (c :: text) front after ↔
      (front = [] ∧ c = '$' ∧ text = '{' :: after ∧ '}' ∉ after) ∨
        ∃ others, front = c :: others ∧ OpensUnclosed text others after := by
  rw [OpensUnclosed]
  cases front with
  | nil => simp [and_assoc]
  | cons first others =>
      constructor
      · rintro ⟨hText, hAfter⟩
        obtain ⟨rfl, hRest⟩ := List.cons.inj hText
        exact Or.inr ⟨others, rfl, hRest, hAfter⟩
      · rintro (⟨hNil, -⟩ | ⟨_, hSame, hRest, hAfter⟩)
        · cases hNil
        · obtain ⟨rfl, rfl⟩ := List.cons.inj hSame
          exact ⟨congrArg _ hRest, hAfter⟩

theorem not_opensUnclosed_nil : ¬ OpensUnclosed [] front after := by
  rintro ⟨hText, -⟩
  cases front <;> cases hText

/-- At the start of the text an unclosed brace is the first one. -/
theorem firstUnclosed_here_iff {later : List Char} (h : '}' ∉ after) :
    FirstUnclosed ('$' :: '{' :: after) later ↔ after = later := by
  constructor
  · rintro ⟨front, ⟨hText, -⟩, hFirst⟩
    obtain rfl : front = [] :=
      List.eq_nil_of_length_eq_zero (Nat.le_zero.mp (hFirst [] after ⟨rfl, h⟩))
    simpa using hText
  · rintro rfl
    exact ⟨[], ⟨rfl, h⟩, fun _ _ _ => Nat.zero_le _⟩

/-- Any other first character changes nothing. -/
theorem firstUnclosed_cons_iff {c : Char}
    (h : ¬ (c = '$' ∧ text.head? = some '{' ∧ '}' ∉ text)) :
    FirstUnclosed (c :: text) after ↔ FirstUnclosed text after := by
  have hLater : ∀ front after, OpensUnclosed (c :: text) front after ↔
      ∃ others, front = c :: others ∧ OpensUnclosed text others after := by
    intro front after
    rw [opensUnclosed_cons_iff, or_iff_right]
    rintro ⟨-, rfl, rfl, hAfter⟩
    exact h ⟨rfl, rfl, by simpa using hAfter⟩
  simp only [FirstUnclosed, hLater]
  constructor
  · rintro ⟨_, ⟨others, rfl, hOpens⟩, hFirst⟩
    refine ⟨others, hOpens, fun other later hOther => ?_⟩
    exact Nat.le_of_succ_le_succ (hFirst (c :: other) later ⟨other, rfl, hOther⟩)
  · rintro ⟨others, hOpens, hFirst⟩
    refine ⟨c :: others, ⟨others, rfl, hOpens⟩, ?_⟩
    rintro _ later ⟨other, rfl, hOther⟩
    exact Nat.succ_le_succ (hFirst other later hOther)

theorem OpensUnclosed.exists_first (h : OpensUnclosed text front after) :
    ∃ later, FirstUnclosed text later := by
  induction text generalizing front with
  | nil => exact absurd h not_opensUnclosed_nil
  | cons c text ih =>
      by_cases hHere : c = '$' ∧ text.head? = some '{' ∧ '}' ∉ text
      · obtain ⟨rfl, hBrace, hClosed⟩ := hHere
        obtain ⟨later, rfl⟩ := List.head?_eq_some_iff.mp hBrace
        have hLater : '}' ∉ later := fun hMem => hClosed (List.mem_cons_of_mem _ hMem)
        exact ⟨later, (firstUnclosed_here_iff hLater).mpr rfl⟩
      · rcases opensUnclosed_cons_iff.mp h with ⟨-, rfl, rfl, hAfter⟩ | ⟨others, -, hOpens⟩
        · exact absurd ⟨rfl, rfl, by simpa using hAfter⟩ hHere
        · obtain ⟨later, hFirst⟩ := ih hOpens
          exact ⟨later, (firstUnclosed_cons_iff hHere).mpr hFirst⟩

theorem FirstUnclosed.length_le (h : FirstUnclosed text after) : after.length ≤ text.length := by
  obtain ⟨front, ⟨rfl, -⟩, -⟩ := h
  simp only [List.length_append, List.length_cons]
  omega

/-- The scan finds the first brace that is not closed, and gives it the number of the characters
up to it. -/
theorem unclosedBrace?_eq_some_iff :
    unclosedBrace? before text = some brace ↔
      ∃ after, FirstUnclosed text after ∧ brace + after.length = before + text.length := by
  induction text generalizing before with
  | nil =>
      refine iff_of_false (fun h => by cases h) ?_
      rintro ⟨after, ⟨front, hOpens, -⟩, -⟩
      exact not_opensUnclosed_nil hOpens
  | cons c text ih =>
      rw [unclosedBrace?]
      split
      case isTrue hHere =>
          obtain ⟨rfl, hBrace, hClosed⟩ := hHere
          obtain ⟨after, rfl⟩ := List.head?_eq_some_iff.mp hBrace
          have hAfter : '}' ∉ after := fun hMem => hClosed (List.mem_cons_of_mem _ hMem)
          simp only [firstUnclosed_here_iff hAfter, exists_eq_left', List.length_cons,
            Option.some.injEq]
          omega
      case isFalse hElsewhere =>
          simp only [ih, firstUnclosed_cons_iff hElsewhere, List.length_cons, Nat.add_assoc,
            Nat.add_comm 1]

theorem unclosedBrace?_eq_none_iff :
    unclosedBrace? before text = none ↔ BracesClosed text := by
  constructor
  · intro hNone front after hOpens
    obtain ⟨later, hFirst⟩ := hOpens.exists_first
    have hLength := hFirst.length_le
    have hSome : unclosedBrace? before text = some (before + text.length - later.length) :=
      unclosedBrace?_eq_some_iff.mpr ⟨later, hFirst, by omega⟩
    rw [hNone] at hSome
    cases hSome
  · intro hClosed
    cases hScan : unclosedBrace? before text with
    | none => rfl
    | some brace =>
        obtain ⟨after, ⟨front, hOpens, -⟩, -⟩ := unclosedBrace?_eq_some_iff.mp hScan
        exact absurd hOpens (hClosed front after)

theorem bracesClosed_nil : BracesClosed [] :=
  fun _ _ => not_opensUnclosed_nil

theorem bracesClosed_cons_iff {c : Char} :
    BracesClosed (c :: text) ↔
      ¬ (c = '$' ∧ text.head? = some '{' ∧ '}' ∉ text) ∧ BracesClosed text := by
  simp only [BracesClosed, opensUnclosed_cons_iff]
  constructor
  · refine fun h => ⟨?_, fun front after hOpens => h (c :: front) after (Or.inr ⟨_, rfl, hOpens⟩)⟩
    rintro ⟨rfl, hBrace, hClosed⟩
    obtain ⟨after, rfl⟩ := List.head?_eq_some_iff.mp hBrace
    exact h [] after (Or.inl ⟨rfl, rfl, rfl, fun hMem => hClosed (List.mem_cons_of_mem _ hMem)⟩)
  · rintro ⟨hHere, h⟩ front after (⟨-, rfl, rfl, hAfter⟩ | ⟨others, -, hOpens⟩)
    · exact hHere ⟨rfl, rfl, by simpa using hAfter⟩
    · exact h others after hOpens

/-- Where no dollar sign is, no brace is opened. -/
theorem unclosedBrace?_append_of_not_mem (h : '$' ∉ front) :
    unclosedBrace? before (front ++ text) = unclosedBrace? (before + front.length) text := by
  induction front generalizing before with
  | nil => rfl
  | cons c front ih =>
      obtain ⟨hChar, hFront⟩ := not_or.mp (List.mem_cons.not.mp h)
      have hDollar : ¬ (c = '$' ∧ (front ++ text).head? = some '{' ∧ '}' ∉ front ++ text) :=
        fun hHere => hChar hHere.1.symm
      rw [List.cons_append, unclosedBrace?, if_neg hDollar, ih hFront, List.length_cons,
        Nat.add_assoc, Nat.add_comm 1]

/-! ## Verdicts -/

/-- What a line with the given number comes to if it is not blank: a fault, or a rule for a
name. -/
inductive Verdict (number : Nat) (line : List Char) : Except Fault (List Char) → Prop where
  /-- No name stands at the start of the line. -/
  | invalidLeftHandSide (hName : ¬ StartsWithName line) :
      Verdict number line (.error (.invalidLeftHandSide number))
  /-- What follows the name and the blanks after it does not start with an arrow. -/
  | missingArrow {name rest : List Char} (hHead : HeadCut line name rest)
      (hArrow : ¬ arrow <+: rest) :
      Verdict number line (.error (.missingArrow number))
  /-- After the arrow a brace is opened and not closed. The first one has as its number the
  number of characters up to it. -/
  | missingClosingBrace {name tail after : List Char} {brace : Nat}
      (hHead : HeadCut line name (arrow ++ tail)) (hBrace : FirstUnclosed tail after)
      (hNumber : brace + after.length = line.length) :
      Verdict number line (.error (.missingClosingBrace number brace))
  /-- After the arrow every brace that is opened is closed. -/
  | rule {name tail : List Char} (hHead : HeadCut line name (arrow ++ tail))
      (hClosed : ∀ front after, ¬ OpensUnclosed tail front after) :
      Verdict number line (.ok name)

/-- Every line has a verdict. -/
theorem exists_verdict (number : Nat) (line : List Char) :
    ∃ verdict, Verdict number line verdict := by
  by_cases hName : StartsWithName line
  · obtain ⟨⟨name, rest⟩, hHead⟩ : ∃ cut, leftHandSide? line = some cut :=
      Option.ne_none_iff_exists'.mp fun hNone => leftHandSide?_eq_none_iff.mp hNone hName
    have hHead := headCut_of_leftHandSide?_eq_some hHead
    by_cases hArrow : arrow <+: rest
    · obtain ⟨tail, rfl⟩ := hArrow
      by_cases hOpens : ∃ front after, OpensUnclosed tail front after
      · obtain ⟨front, after, hOpens⟩ := hOpens
        obtain ⟨later, hFirst⟩ := hOpens.exists_first
        have hLength : later.length ≤ line.length := hFirst.length_le.trans hHead.length_tail_le
        exact ⟨_, .missingClosingBrace hHead hFirst (Nat.sub_add_cancel hLength)⟩
      · exact ⟨_, .rule hHead fun front after hOther => hOpens ⟨front, after, hOther⟩⟩
    · exact ⟨_, .missingArrow hHead hArrow⟩
  · exact ⟨_, .invalidLeftHandSide hName⟩

/-- A scan of everything behind the arrow starts with the blanks there and finds what the scan of
the right-hand side finds. -/
theorem HeadCut.unclosedBrace?_dropWhile_eq (h : HeadCut line name (arrow ++ tail)) :
    unclosedBrace? (line.length - (tail.dropWhile isBlank).length) (tail.dropWhile isBlank) =
      unclosedBrace? (line.length - tail.length) tail := by
  obtain ⟨hTail, hLead, -⟩ := takeWhile_dropWhile_spec isBlank tail
  have hLength := h.length_tail_le
  have hCut := congrArg List.length hTail
  rw [List.length_append] at hCut
  calc unclosedBrace? (line.length - (tail.dropWhile isBlank).length) (tail.dropWhile isBlank)
      = unclosedBrace? (line.length - tail.length + (tail.takeWhile isBlank).length)
          (tail.dropWhile isBlank) := by
        congr 1
        omega
    _ = unclosedBrace? (line.length - tail.length)
          (tail.takeWhile isBlank ++ tail.dropWhile isBlank) :=
        (unclosedBrace?_append_of_not_mem (AllBlank.not_mem hLead (by decide))).symm
    _ = unclosedBrace? (line.length - tail.length) tail := by rw [← hTail]

theorem readLine_eq_error_of_headCut (h : HeadCut line name (arrow ++ tail))
    (hBrace : unclosedBrace? (line.length - tail.length) tail = some brace) :
    readLine number line = .error (.missingClosingBrace number brace) := by
  have hArrow : afterArrow? (arrow ++ tail) = some (tail.dropWhile isBlank) := rfl
  rw [readLine, leftHandSide?_eq_some_of_headCut h]
  simp only [hArrow, h.unclosedBrace?_dropWhile_eq, hBrace]

theorem readLine_eq_ok_of_headCut (h : HeadCut line name (arrow ++ tail))
    (hClosed : unclosedBrace? (line.length - tail.length) tail = none) :
    readLine number line =
      .ok ⟨name, pieces (line.length - (tail.dropWhile isBlank).length)
        (trimEnd (tail.dropWhile isBlank)), number⟩ := by
  have hArrow : afterArrow? (arrow ++ tail) = some (tail.dropWhile isBlank) := rfl
  rw [readLine, leftHandSide?_eq_some_of_headCut h]
  simp only [hArrow, h.unclosedBrace?_dropWhile_eq, hClosed]

/-- **Reading a line gives its verdict**, with the name on the left for a rule. -/
theorem verdict_iff {verdict : Except Fault (List Char)} :
    Verdict number line verdict ↔ (readLine number line).map RuleLine.left = verdict := by
  have hReads : ∀ verdict, Verdict number line verdict →
      (readLine number line).map RuleLine.left = verdict := by
    intro verdict h
    cases h with
    | invalidLeftHandSide hName =>
        rw [readLine, leftHandSide?_eq_none_iff.mpr hName]
        rfl
    | missingArrow hHead hArrow =>
        rw [readLine, leftHandSide?_eq_some_of_headCut hHead]
        simp only [afterArrow?_eq_none hArrow]
        rfl
    | @missingClosingBrace name tail after brace hHead hBrace hNumber =>
        have hLength := hHead.length_tail_le
        have hScan : unclosedBrace? (line.length - tail.length) tail = some brace :=
          unclosedBrace?_eq_some_iff.mpr ⟨after, hBrace, by omega⟩
        rw [readLine_eq_error_of_headCut hHead hScan]
        rfl
    | rule hHead hClosed =>
        rw [readLine_eq_ok_of_headCut hHead (unclosedBrace?_eq_none_iff.mpr hClosed)]
        rfl
  constructor
  · exact hReads verdict
  · rintro rfl
    obtain ⟨verdict, h⟩ := exists_verdict number line
    rwa [hReads verdict h]

end PhraseGrammar.Source
