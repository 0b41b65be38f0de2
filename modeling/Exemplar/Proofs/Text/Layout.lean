import Exemplar.Text.Lines
import Exemplar.Text.WhiteSpace
import Mathlib.Data.List.Forall2

/-!
# How a text holds lines

The same lines can be written in many ways: with either line break, with or
without one at the end, and with blank rows between them. Whatever the way, the
lines that are read back and are not blank are those that were written, except
that a line may lose a carriage return from its end.
-/

namespace Exemplar.Text

/-- A row as a line: a carriage return that ends it belongs to the line break. -/
def withoutReturn (row : List Char) : List Char :=
  if row.getLast? = some '\r' then row.dropLast else row

theorem withoutReturn_concat (line : List Char) : withoutReturn (line ++ ['\r']) = line := by
  rw [withoutReturn, List.getLast?_concat, if_pos rfl, List.dropLast_concat]

theorem withoutReturn_cons {c : Char} {row : List Char} (goesOn : row ≠ [] ∨ c ≠ '\r') :
    withoutReturn (c :: row) = c :: withoutReturn row := by
  cases row with
  | nil =>
    have other : c ≠ '\r' := goesOn.resolve_left fun differs => differs rfl
    rw [withoutReturn, List.getLast?_singleton, if_neg fun same => other (Option.some.inj same)]
    rfl
  | cons d row =>
    rw [withoutReturn, withoutReturn, List.getLast?_cons_cons, List.dropLast_cons_cons]
    split <;> rfl

/-- A row before a line feed is a line. -/
theorem lines_append_newline {row : List Char} (free : '\n' ∉ row) (rest : List Char) :
    lines (row ++ '\n' :: rest) = withoutReturn row :: lines rest := by
  induction row with
  | nil => rw [List.nil_append, lines_newline]; rfl
  | cons c row ih =>
    rw [List.mem_cons, not_or] at free
    by_cases last : row = [] ∧ c = '\r'
    · obtain ⟨rfl, rfl⟩ := last
      rw [List.singleton_append, lines]
      rfl
    · rw [List.cons_append, lines, ih free.2]
      · rw [withoutReturn_cons (Decidable.not_and_iff_not_or_not.mp last)]
      · exact fun same => free.1 same.symm
      · intro others same next
        cases row with
        | nil => exact last ⟨rfl, same⟩
        | cons d row =>
          cases next
          exact free.2 List.mem_cons_self

/-- A text without a line feed is one line, unless it is empty. -/
theorem lines_of_free {row : List Char} (free : '\n' ∉ row) (nonempty : row ≠ []) :
    lines row = [row] := by
  induction row with
  | nil => exact (nonempty rfl).elim
  | cons c row ih =>
    rw [List.mem_cons, not_or] at free
    rw [lines]
    · cases row with
      | nil => rfl
      | cons d row => rw [ih free.2 (List.cons_ne_nil d row)]
    · exact fun same => free.1 same.symm
    · rintro others - rfl
      exact free.2 List.mem_cons_self

/-- No line of a text has a line feed in it. -/
theorem free_of_mem_lines {text line : List Char} (member : line ∈ lines text) : '\n' ∉ line := by
  fun_induction lines text generalizing line with
  | case1 => cases member
  | case2 rest ih =>
    rcases List.mem_cons.mp member with rfl | member
    · exact List.not_mem_nil
    · exact ih member
  | case3 rest ih =>
    rcases List.mem_cons.mp member with rfl | member
    · exact List.not_mem_nil
    · exact ih member
  | case4 c rest other _ ends ih =>
    cases List.mem_singleton.mp member
    simpa using fun same => other same.symm
  | case5 c rest other _ next others found ih =>
    rw [found] at ih
    rcases List.mem_cons.mp member with rfl | member
    · rw [List.mem_cons, not_or]
      exact ⟨fun same => other same.symm, ih List.mem_cons_self⟩
    · exact ih (List.mem_cons_of_mem next member)

/-- A line that can be written: it is not blank, and no line feed is in it. -/
structure IsLine (line : List Char) : Prop where
  notBlank : isBlank line = false
  free : '\n' ∉ line

/-- A text that holds some lines, in order, with blank rows anywhere. The last row may end the text
without a line break. -/
inductive Holds : List (List Char) → List Char → Prop where
  | blankEnd {row : List Char} : isBlank row = true → '\n' ∉ row → Holds [] row
  | lineEnd (line : List Char) : Holds [line] line
  | blank {row : List Char} {lines : List (List Char)} {text : List Char} : isBlank row = true →
      '\n' ∉ row → Holds lines text → Holds lines (row ++ '\n' :: text)
  | line (line : List Char) {lines : List (List Char)} {text : List Char} :
      Holds lines text → Holds (line :: lines) (line ++ '\n' :: text)
  | lineReturn (line : List Char) {lines : List (List Char)} {text : List Char} :
      Holds lines text → Holds (line :: lines) (line ++ '\r' :: '\n' :: text)

/-- A line and what is read where it was written: a carriage return at its end may be lost. -/
def ReadAs (line line' : List Char) : Prop := line' = line ∨ line = line' ++ ['\r']

theorem readAs_withoutReturn (row : List Char) : ReadAs row (withoutReturn row) := by
  rw [withoutReturn]
  split
  next ends =>
    obtain ⟨line, rfl⟩ := List.getLast?_eq_some_iff.mp ends
    rw [List.dropLast_concat]
    exact .inr rfl
  next => exact .inl rfl

theorem ReadAs.isBlank_eq {line line' : List Char} (read : ReadAs line line') :
    isBlank line' = isBlank line := by
  rcases read with rfl | rfl
  · rfl
  · simp [isBlank, isWhiteSpace]

/-- The lines of a text that are not blank. -/
def solidLines (text : List Char) : List (List Char) := (lines text).filter fun line => !isBlank line

theorem isLine_of_mem_solidLines {text line : List Char} (member : line ∈ solidLines text) :
    IsLine line := by
  obtain ⟨member, notBlank⟩ := List.mem_filter.mp member
  exact ⟨by simpa using notBlank, free_of_mem_lines member⟩

/-- The lines of a text that are not blank, each with its number. Blank lines are counted. -/
def numberedSolidLines (text : List Char) : List (Nat × List Char) :=
  ((lines text).zipIdx 1).filterMap fun line =>
    if isBlank line.1 then none else some (line.2, line.1)

theorem map_snd_numberedSolidLines (text : List Char) :
    (numberedSolidLines text).map (·.2) = solidLines text := by
  rw [numberedSolidLines, solidLines]
  generalize 1 = first
  induction lines text generalizing first with
  | nil => rfl
  | cons line rest ih =>
    rw [List.zipIdx_cons, List.filterMap_cons, List.filter_cons]
    cases isBlank line with
    | true => exact ih (first + 1)
    | false => exact congrArg (line :: ·) (ih (first + 1))

theorem solidLines_append_newline {row : List Char} (free : '\n' ∉ row) (rest : List Char) :
    solidLines (row ++ '\n' :: rest) =
      if isBlank row then solidLines rest else withoutReturn row :: solidLines rest := by
  rw [solidLines, lines_append_newline free, List.filter_cons,
    (readAs_withoutReturn row).isBlank_eq, solidLines]
  cases isBlank row <;> rfl

theorem solidLines_of_free {row : List Char} (free : '\n' ∉ row) :
    solidLines row = if isBlank row then [] else [row] := by
  by_cases empty : row = []
  · subst empty
    rw [solidLines, lines_nil]
    rfl
  · rw [solidLines, lines_of_free free empty, List.filter_cons]
    cases isBlank row <;> rfl

/-- The lines that a text holds are read back in order, and no other lines but blank ones. -/
theorem Holds.solidLines {written : List (List Char)} {text : List Char}
    (holds : Holds written text) (proper : ∀ line ∈ written, IsLine line) :
    List.Forall₂ ReadAs written (solidLines text) := by
  induction holds with
  | blankEnd blank free =>
    rw [solidLines_of_free free, if_pos blank]
    exact .nil
  | lineEnd line =>
    obtain ⟨notBlank, free⟩ := proper line List.mem_cons_self
    rw [solidLines_of_free free, notBlank]
    exact .cons (.inl rfl) .nil
  | blank blank free _ ih =>
    rw [solidLines_append_newline free, if_pos blank]
    exact ih proper
  | line line _ ih =>
    rw [List.forall_mem_cons] at proper
    obtain ⟨⟨notBlank, free⟩, proper⟩ := proper
    rw [solidLines_append_newline free, notBlank]
    exact .cons (readAs_withoutReturn line) (ih proper)
  | lineReturn line _ ih =>
    rw [List.forall_mem_cons] at proper
    obtain ⟨⟨notBlank, free⟩, proper⟩ := proper
    have free' : '\n' ∉ line ++ ['\r'] := by simpa using free
    have notBlank' : isBlank (line ++ ['\r']) = false :=
      (ReadAs.isBlank_eq (.inr rfl)).symm.trans notBlank
    rw [List.append_cons, solidLines_append_newline free', notBlank', withoutReturn_concat]
    exact .cons (.inl rfl) (ih proper)

end Exemplar.Text
