import Mathlib.Logic.Basic
import PhraseGrammar.Text.Lines

/-!
# Lines of texts that are put together

A line feed ends a line, so no line has one in it, and what follows a line feed has no effect on the
lines before it. A text that ends its last line therefore keeps its lines in front of any other
text (`lines_append`). A carriage return at the end of a line would be taken for a part of the
line's end, so a line is read as it was written if it has none there (`lines_append_newline`).
-/

set_option autoImplicit false

namespace PhraseGrammar.Text

variable {line rest first second : List Char}

/-! ## Line feeds -/

theorem newline_not_mem_of_mem_pushFront {c : Char} {others : List (List Char)} (hChar : c ≠ '\n')
    (hOthers : ∀ line ∈ others, '\n' ∉ line) : ∀ line ∈ pushFront c others, '\n' ∉ line := by
  cases others with
  | nil => simpa [pushFront] using hChar.symm
  | cons first others =>
      obtain ⟨hFirst, hOthers⟩ := List.forall_mem_cons.mp hOthers
      refine List.forall_mem_cons.mpr ⟨?_, hOthers⟩
      simp [hChar.symm, hFirst]

/-- No line has a line feed in it. -/
theorem newline_not_mem_of_mem_lines {text : List Char} : ∀ line ∈ lines text, '\n' ∉ line := by
  fun_induction lines text with
  | case1 => exact fun line hLine => absurd hLine List.not_mem_nil
  | case2 rest ih => exact List.forall_mem_cons.mpr ⟨List.not_mem_nil, ih⟩
  | case3 rest ih => exact List.forall_mem_cons.mpr ⟨List.not_mem_nil, ih⟩
  | case4 c rest hNewline _ ih => exact newline_not_mem_of_mem_pushFront hNewline ih

/-! ## A text behind another -/

/-- A character is put in front of the first line if it does not end a line itself. -/
theorem lines_cons {c : Char} (hNewline : c ≠ '\n') (hReturn : c = '\r' → '\n' ∉ rest.head?) :
    lines (c :: rest) = pushFront c (lines rest) := by
  refine lines.eq_4 c rest hNewline fun after hChar hRest => hReturn hChar ?_
  rw [hRest]
  rfl

/-- The text is empty or ends with a line feed. -/
def EndsLine (text : List Char) : Prop :=
  ∀ c ∈ text.getLast?, c = '\n'

theorem EndsLine.of_cons {c : Char} {rest : List Char} (h : EndsLine (c :: rest)) :
    EndsLine rest := by
  cases rest with
  | nil => exact fun d hLast => absurd hLast (Option.not_mem_none d)
  | cons d rest => rwa [EndsLine, List.getLast?_cons_cons] at h

theorem lines_ne_nil {text : List Char} (h : text ≠ []) : lines text ≠ [] := by
  fun_induction lines text with
  | case1 => exact absurd rfl h
  | case2 rest => exact List.cons_ne_nil _ _
  | case3 rest => exact List.cons_ne_nil _ _
  | case4 c rest =>
      cases lines rest with
      | nil => exact List.cons_ne_nil _ _
      | cons line others => exact List.cons_ne_nil _ _

theorem pushFront_append {c : Char} {front others : List (List Char)} (h : front ≠ []) :
    pushFront c (front ++ others) = pushFront c front ++ others := by
  cases front with
  | nil => exact absurd rfl h
  | cons line rest => rfl

/-- The lines of a text that ends its last line are the same whatever follows it. -/
theorem lines_append (h : EndsLine first) :
    lines (first ++ second) = lines first ++ lines second := by
  fun_induction lines first with
  | case1 => rfl
  | case2 rest ih => rw [List.cons_append, lines, ih h.of_cons, List.cons_append]
  | case3 rest ih =>
      rw [List.cons_append, List.cons_append, lines, ih h.of_cons.of_cons, List.cons_append]
  | case4 c rest hNewline hReturn ih =>
      cases rest with
      | nil => exact absurd (h c rfl) hNewline
      | cons d rest =>
          -- the first text goes on, so what follows it is not seen here
          have hHead : c = '\r' → '\n' ∉ (d :: rest ++ second).head? := by
            intro hChar hNext
            obtain rfl : d = '\n' := Option.some.inj hNext
            exact hReturn rest hChar rfl
          rw [List.cons_append, lines_cons hNewline hHead, ih h.of_cons,
            pushFront_append (lines_ne_nil (List.cons_ne_nil d rest))]

/-- A line that a line feed alone ends is read as it is. -/
theorem lines_append_newline (hLine : '\n' ∉ line) (hReturn : '\r' ∉ line.getLast?) :
    lines (line ++ '\n' :: rest) = line :: lines rest := by
  induction line with
  | nil => rfl
  | cons c line ih =>
      obtain ⟨hChar, hRest⟩ := not_or.mp (List.mem_cons.not.mp hLine)
      -- a carriage return here is not the last character of the line
      have hHead : c = '\r' → '\n' ∉ (line ++ '\n' :: rest).head? := by
        rintro rfl hNext
        cases line with
        | nil => exact hReturn rfl
        | cons d line =>
            obtain rfl : d = '\n' := Option.some.inj hNext
            exact hRest List.mem_cons_self
      have hLast : '\r' ∉ line.getLast? := by
        cases line with
        | nil => exact Option.not_mem_none _
        | cons d line => rwa [List.getLast?_cons_cons] at hReturn
      rw [List.cons_append, lines_cons (Ne.symm hChar) hHead, ih hRest hLast]
      rfl

/-- A carriage return belongs to the line feed that follows it. -/
theorem lines_append_return_newline (hLine : '\n' ∉ line) :
    lines (line ++ '\r' :: '\n' :: rest) = line :: lines rest := by
  induction line with
  | nil => rfl
  | cons c line ih =>
      obtain ⟨hChar, hRest⟩ := not_or.mp (List.mem_cons.not.mp hLine)
      have hHead : c = '\r' → '\n' ∉ (line ++ '\r' :: '\n' :: rest).head? := by
        intro _ hNext
        cases line with
        | nil => exact absurd (Option.some.inj hNext) (by decide)
        | cons d line =>
            obtain rfl : d = '\n' := Option.some.inj hNext
            exact hRest List.mem_cons_self
      rw [List.cons_append, lines_cons (Ne.symm hChar) hHead, ih hRest]
      rfl

/-- A text without a line feed is one line, unless it is empty. -/
theorem lines_eq_singleton (hText : line ≠ []) (hLine : '\n' ∉ line) : lines line = [line] := by
  induction line with
  | nil => exact absurd rfl hText
  | cons c line ih =>
      obtain ⟨hChar, hRest⟩ := not_or.mp (List.mem_cons.not.mp hLine)
      have hHead : c = '\r' → '\n' ∉ line.head? :=
        fun _ hNext => hRest (List.mem_of_mem_head? hNext)
      rw [lines_cons (Ne.symm hChar) hHead]
      cases line with
      | nil => rfl
      | cons d line =>
          rw [ih (List.cons_ne_nil d line) hRest]
          rfl

/-- The characters of a line are characters of the text. -/
theorem mem_of_mem_lines {text : List Char} : ∀ line ∈ lines text, ∀ c ∈ line, c ∈ text := by
  fun_induction lines text with
  | case1 => exact fun line hLine => absurd hLine List.not_mem_nil
  | case2 rest ih =>
      refine List.forall_mem_cons.mpr ⟨fun c hc => absurd hc List.not_mem_nil, ?_⟩
      exact fun line hLine c hc => List.mem_cons_of_mem _ (ih line hLine c hc)
  | case3 rest ih =>
      refine List.forall_mem_cons.mpr ⟨fun c hc => absurd hc List.not_mem_nil, ?_⟩
      exact fun line hLine c hc =>
        List.mem_cons_of_mem _ (List.mem_cons_of_mem _ (ih line hLine c hc))
  | case4 d rest _ _ ih =>
      intro line hLine c hc
      cases hRest : lines rest with
      | nil =>
          rw [hRest, pushFront, List.mem_singleton] at hLine
          rw [hLine, List.mem_singleton] at hc
          exact List.mem_cons.mpr (Or.inl hc)
      | cons first others =>
          rw [hRest, pushFront] at hLine
          rw [hRest] at ih
          rcases List.mem_cons.mp hLine with rfl | hOthers
          · rcases List.mem_cons.mp hc with rfl | hFirst
            · exact List.mem_cons_self
            · exact List.mem_cons_of_mem _ (ih first List.mem_cons_self c hFirst)
          · exact List.mem_cons_of_mem _ (ih line (List.mem_cons_of_mem _ hOthers) c hc)

end PhraseGrammar.Text
