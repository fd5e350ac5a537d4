/-!
# Json/Basic — values and their two written forms

A JSON value keeps its numbers and strings as they are written: a number as its digits, a string as
the text between its quotes, escapes and all.  Reading a number or a text out of them is a separate
step (`Json/Decode`), so a value can hold literals that nobody asks for.

The compact form has no blanks.  The pretty form has a line for each item, indented by two spaces a
level; an empty list or object stays on its line.  These are the two forms that `serde_json`
documents for its `to_string` and `to_string_pretty`.
-/

namespace Protocell

/-- A JSON value with its literals as written. -/
inductive Json
  | null
  | bool (b : Bool)
  | num (literal : List Char)
  | str (body : List Char)
  | arr (items : List Json)
  | obj (fields : List (List Char × Json))

namespace Json

/-- A string literal with a given body. -/
def quoted (body : List Char) : List Char := '"' :: (body ++ ['"'])

mutual

/-- The compact form of a value. -/
def compact : Json → List Char
  | null => "null".toList
  | bool true => "true".toList
  | bool false => "false".toList
  | num literal => literal
  | str body => quoted body
  | arr items => '[' :: (compactItems items ++ [']'])
  | obj fields => '\x7b' :: (compactFields fields ++ ['\x7d'])

/-- The compact form of the items of a list. -/
def compactItems : List Json → List Char
  | [] => []
  | [v] => v.compact
  | v :: rest => v.compact ++ ',' :: compactItems rest

/-- The compact form of the fields of an object. -/
def compactFields : List (List Char × Json) → List Char
  | [] => []
  | [(k, v)] => quoted k ++ ':' :: v.compact
  | (k, v) :: rest => quoted k ++ ':' :: (v.compact ++ ',' :: compactFields rest)

end

/-- A line end and the indentation of a level. -/
def newline (level : Nat) : List Char := '\n' :: List.replicate (2 * level) ' '

mutual

/-- The pretty form of a value that starts at an indentation level. -/
def prettyFrom (level : Nat) : Json → List Char
  | null => "null".toList
  | bool true => "true".toList
  | bool false => "false".toList
  | num literal => literal
  | str body => quoted body
  | arr [] => "[]".toList
  | arr items => '[' :: (prettyItems (level + 1) items ++ newline level ++ [']'])
  | obj [] => ['\x7b', '\x7d']
  | obj fields => '\x7b' :: (prettyFields (level + 1) fields ++ newline level ++ ['\x7d'])

/-- The pretty form of the items of a list, each on its line. -/
def prettyItems (level : Nat) : List Json → List Char
  | [] => []
  | [v] => newline level ++ v.prettyFrom level
  | v :: rest => newline level ++ v.prettyFrom level ++ ',' :: prettyItems level rest

/-- The pretty form of the fields of an object, each on its line. -/
def prettyFields (level : Nat) : List (List Char × Json) → List Char
  | [] => []
  | [(k, v)] => newline level ++ quoted k ++ ':' :: ' ' :: v.prettyFrom level
  | (k, v) :: rest =>
    newline level ++ quoted k ++
      ':' :: ' ' :: (v.prettyFrom level ++ ',' :: prettyFields level rest)

end

/-- The pretty form of a value. -/
def pretty (v : Json) : List Char := v.prettyFrom 0

end Json

end Protocell
