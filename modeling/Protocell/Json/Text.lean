import Protocell.Text.Digits

/-!
# Json/Text — what the literals of JSON stand for

The body of a string literal may hold escapes; a character beyond the basic plane may be written as
two of them, and a half of such a pair on its own stands for no text.  A number literal has no
needless leading zero.

The literals are those of the JSON grammar, with nothing added to it.  Written are, as `serde_json`
documents it, the short escapes where there are any, the other control characters by their number in
lower case, and all else as it is.
-/

namespace Protocell.Json

/-- The character that a backslash and `c` stand for. -/
def simpleEscape? (c : Char) : Option Char :=
  [('"', '"'), ('\\', '\\'), ('/', '/'), ('b', '\x08'), ('f', '\x0c'), ('n', '\n'), ('r', '\r'),
    ('t', '\t')].lookup c

/-- **The code units of a string body**: characters as they are and escapes by their number; nothing
for a bad escape or a control character. -/
def units? : List Char → Option (List Nat)
  | [] => some []
  | '\\' :: 'u' :: a :: b :: c :: d :: rest =>
    if [a, b, c, d].all Text.isHexDigit then (Text.hexNumber [a, b, c, d] :: ·) <$> units? rest
    else none
  | '\\' :: c :: rest => do
    let e ← simpleEscape? c
    (e.toNat :: ·) <$> units? rest
  | c :: rest => if c.toNat < 0x20 ∨ c = '\\' then none else (c.toNat :: ·) <$> units? rest

/-- Whether `u` is the first half of a pair. -/
def isLead (u : Nat) : Bool := 0xD800 ≤ u && u < 0xDC00

/-- Whether `u` is the second half of a pair. -/
def isTrail (u : Nat) : Bool := 0xDC00 ≤ u && u < 0xE000

/-- The text of code units; nothing if half a pair stands alone. -/
def joinUnits? : List Nat → Option (List Char)
  | [] => some []
  | [u] => if isLead u || isTrail u then none else some [Char.ofNat u]
  | u :: v :: rest =>
    if isLead u then
      if isTrail v then
        (Char.ofNat (0x10000 + (u - 0xD800) * 0x400 + (v - 0xDC00)) :: ·) <$> joinUnits? rest
      else none
    else if isTrail u then none
    else (Char.ofNat u :: ·) <$> joinUnits? (v :: rest)

/-- Whether a text can stand between the quotes of a string literal. -/
def isBody (body : List Char) : Bool := (units? body).isSome

/-- The text of a string body. -/
def decodeBody? (body : List Char) : Option (List Char) := (units? body).bind joinUnits?

/-- How a character is written in a string body. -/
def escapeChar (c : Char) : List Char :=
  if c = '"' then ['\\', '"']
  else if c = '\\' then ['\\', '\\']
  else if c = '\x08' then ['\\', 'b']
  else if c = '\x0c' then ['\\', 'f']
  else if c = '\n' then ['\\', 'n']
  else if c = '\r' then ['\\', 'r']
  else if c = '\t' then ['\\', 't']
  else if c.toNat < 0x20 then ['\\', 'u', '0', '0'] ++ Text.lowerHex (UInt8.ofNat c.toNat)
  else [c]

/-- The string body of a text. -/
def encodeBody (text : List Char) : List Char := text.flatMap escapeChar

/-- Whether `cs` is nothing or the exponent of a number. -/
def isExponent : List Char → Bool
  | [] => true
  | e :: rest =>
    let digits := match rest with
      | '+' :: digits => digits
      | '-' :: digits => digits
      | digits => digits
    (e == 'e' || e == 'E') && !digits.isEmpty && digits.all Char.isDigit

/-- Whether `cs` is what may stand behind the whole part of a number. -/
def isFraction : List Char → Bool
  | '.' :: rest =>
    !(rest.takeWhile Char.isDigit).isEmpty && isExponent (rest.dropWhile Char.isDigit)
  | rest => isExponent rest

/-- Whether `cs` is a number without a sign. -/
def isUnsignedNumber (cs : List Char) : Bool :=
  match cs.takeWhile Char.isDigit with
  | [] => false
  | first :: more => (first != '0' || more.isEmpty) && isFraction (cs.dropWhile Char.isDigit)

/-- Whether `cs` is a number literal. -/
def isNumber : List Char → Bool
  | '-' :: rest => isUnsignedNumber rest
  | rest => isUnsignedNumber rest

end Protocell.Json
