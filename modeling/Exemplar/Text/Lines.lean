/-!
# Lines

A line feed ends a line, and so does a carriage return just before it. Neither
belongs to the line. What follows the last line feed is a line unless it is
empty.
-/

namespace Exemplar.Text

def lines : List Char → List (List Char)
  | [] => []
  | '\n' :: rest => [] :: lines rest
  | '\r' :: '\n' :: rest => [] :: lines rest
  | c :: rest =>
    match lines rest with
    | [] => [[c]]
    | line :: others => (c :: line) :: others

@[simp] theorem lines_nil : lines [] = [] := by rw [lines]

@[simp] theorem lines_newline (rest : List Char) : lines ('\n' :: rest) = [] :: lines rest := by
  rw [lines]

end Exemplar.Text
