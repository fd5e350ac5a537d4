/-!
# Text/Line — the lines of a text

A line ends before a line feed; a carriage return right before that line feed belongs to the line
end.  A text that ends in a line feed has no further empty line.
-/

namespace Protocell.Text

/-- The line whose characters, last first, are `back`, once its line feed is met. -/
def closeLine : List Char → List Char
  | '\r' :: back => back.reverse
  | back => back.reverse

/-- The lines of `cs`, where `back` holds the characters of the line begun, last first. -/
def linesFrom (back : List Char) : List Char → List (List Char)
  | [] => if back.isEmpty then [] else [back.reverse]
  | c :: cs => if c = '\n' then closeLine back :: linesFrom [] cs else linesFrom (c :: back) cs

/-- The lines of a text, without their line ends. -/
def lines (cs : List Char) : List (List Char) := linesFrom [] cs

end Protocell.Text
