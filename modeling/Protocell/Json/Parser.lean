import Protocell.Json.Basic
import Protocell.Json.Text

/-!
# Json/Parser — reading JSON text

Text is first cut into tokens: marks, string literals, and words for all else.  A push-down reader
then takes the tokens one by one and keeps the lists and objects that are still open.  Both are
machines that look at each character or token once.

A value is complete before what stands behind it is looked at, so `first?` gives the value and the
tokens left over, whatever these are.

Taken is strict JSON, as `serde_json` documents for its `from_str`: the four blanks of the grammar
and no byte order mark, no comments and no commas behind the last item, and one value with nothing
but blanks behind it.  A value that is passed over may be nested at will, and its numbers and
escapes need only have the form of such.
-/

namespace Protocell.Json

/-- A piece of JSON text. -/
inductive Token
  | openArr | closeArr | openObj | closeObj | comma | colon
  /-- The body of a string literal. -/
  | str (body : List Char)
  /-- What should be a number, `true`, `false` or `null`. -/
  | word (text : List Char)
  /-- A string literal that the text ends in. -/
  | unclosed
deriving DecidableEq, Repr

/-- Whether `c` is a blank between tokens. -/
def isBlank (c : Char) : Bool := c == ' ' || c == '\n' || c == '\t' || c == '\r'

/-- The mark that a character is. -/
def mark? (c : Char) : Option Token :=
  if c = '[' then some .openArr
  else if c = ']' then some .closeArr
  else if c = '\x7b' then some .openObj
  else if c = '\x7d' then some .closeObj
  else if c = ',' then some .comma
  else if c = ':' then some .colon
  else none

/-- Where a scanner stands. -/
inductive Scan
  /-- Between tokens. -/
  | between
  /-- In a word, whose characters so far are given last first. -/
  | word (back : List Char)
  /-- In a string literal, whose body so far is given last first; whether a backslash came right
  before. -/
  | str (back : List Char) (escaped : Bool)

/-- Scans a character that is in no string literal, where `done` holds the tokens before it, last
first. -/
def scanOutside (done : List Token) (c : Char) : List Token × Scan :=
  if isBlank c then (done, .between)
  else if c = '"' then (done, .str [] false)
  else match mark? c with
    | some t => (t :: done, .between)
    | none => (done, .word [c])

/-- Scans a character. -/
def scan (done : List Token) (c : Char) : Scan → List Token × Scan
  | .between => scanOutside done c
  | .word back =>
    if isBlank c || c == '"' || (mark? c).isSome then scanOutside (.word back.reverse :: done) c
    else (done, .word (c :: back))
  | .str back escaped =>
    if escaped then (done, .str (c :: back) false)
    else if c = '"' then (.str back.reverse :: done, .between)
    else (done, .str (c :: back) (c == '\\'))

/-- The tokens of a text. -/
def tokens (text : List Char) : List Token :=
  match text.foldl (fun x c => scan x.1 c x.2) ([], .between) with
  | (done, .between) => done.reverse
  | (done, .word back) => (.word back.reverse :: done).reverse
  | (done, .str _ _) => (.unclosed :: done).reverse

/-- A list or object that is still open, its last item or field first. -/
inductive Frame
  | arr (items : List Json)
  /-- An object that waits for the value of a key. -/
  | obj (fields : List (List Char × Json)) (key : List Char)

/-- Where a reader stands. -/
inductive Reader
  /-- Before a value. -/
  | value (frames : List Frame)
  /-- Before a key of the innermost object. -/
  | key (frames : List Frame) (fields : List (List Char × Json))
  /-- Behind a key. -/
  | colon (frames : List Frame) (fields : List (List Char × Json)) (key : List Char)
  /-- Behind a value. -/
  | after (frames : List Frame) (v : Json)

/-- The value of a word. -/
def word? (text : List Char) : Option Json :=
  if text = "null".toList then some .null
  else if text = "true".toList then some (.bool true)
  else if text = "false".toList then some (.bool false)
  else if isNumber text then some (.num text)
  else none

/-- Reads a token. -/
def Reader.next : Reader → Token → Option Reader
  | .value fs, .word text => (word? text).map (.after fs)
  | .value fs, .str body => if isBody body then some (.after fs (.str body)) else none
  | .value fs, .openArr => some (.value (.arr [] :: fs))
  | .value fs, .openObj => some (.key fs [])
  | .value (.arr [] :: fs), .closeArr => some (.after fs (.arr []))
  | .key fs fields, .str k => if isBody k then some (.colon fs fields k) else none
  | .key fs [], .closeObj => some (.after fs (.obj []))
  | .colon fs fields k, .colon => some (.value (.obj fields k :: fs))
  | .after (.arr items :: fs) v, .comma => some (.value (.arr (v :: items) :: fs))
  | .after (.arr items :: fs) v, .closeArr => some (.after fs (.arr (v :: items).reverse))
  | .after (.obj fields k :: fs) v, .comma => some (.key fs ((k, v) :: fields))
  | .after (.obj fields k :: fs) v, .closeObj => some (.after fs (.obj ((k, v) :: fields).reverse))
  | _, _ => none

/-- Reads tokens up to the end of a value; gives the tokens behind it too. -/
def Reader.first? : Reader → List Token → Option (Json × List Token)
  | .after [] v, ts => some (v, ts)
  | _, [] => none
  | r, t :: ts => r.next t >>= fun r => r.first? ts

/-- The value that a text begins with, and the tokens behind it. -/
def first? (text : List Char) : Option (Json × List Token) :=
  (Reader.value []).first? (tokens text)

/-- **Reads a JSON text**: one value and nothing besides. -/
def parse? (text : List Char) : Option Json :=
  match first? text with
  | some (v, []) => some v
  | _ => none

end Protocell.Json
