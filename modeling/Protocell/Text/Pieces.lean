/-!
# Text/Pieces — cutting a text at a mark

A text with `n` marks has `n + 1` pieces, some of which may be empty.
-/

namespace Protocell.Text

/-- The pieces of a text between occurrences of `sep`. -/
def pieces (sep : Char) : List Char → List (List Char)
  | [] => [[]]
  | c :: cs =>
    if c = sep then [] :: pieces sep cs
    else match pieces sep cs with
      | p :: ps => (c :: p) :: ps
      | [] => [[c]]

/-- Texts with a separator between them. -/
def joinWith (sep : List Char) (parts : List (List Char)) : List Char :=
  List.flatten (parts.intersperse sep)

end Protocell.Text
