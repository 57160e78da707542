import LiveProse.Text.Codepoint

/-!
A text cut into lines.
-/

namespace LiveProse

/-- The lines of a text. A newline ends a line, and a carriage return right in front of it belongs
to the end too. What is left after the last newline is a line unless it is empty. -/
def Text.lines : Text → List Text
  | [] => []
  | '\n' :: rest => [] :: lines rest
  | '\r' :: '\n' :: rest => [] :: lines rest
  | c :: rest =>
    match lines rest with
    | line :: others => (c :: line) :: others
    | [] => [[c]]

end LiveProse
