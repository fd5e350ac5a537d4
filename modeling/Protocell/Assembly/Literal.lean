import Protocell.Assembly.Error
import Protocell.Text.Digits

/-!
# Assembly/Literal — one-byte literals

A literal is a decimal number, `$` and a hexadecimal number, or `@` and a name.  Numbers may have
leading zeros and must fit in a byte; a name is any word.
-/

namespace Protocell.Assembly

/-- A byte, or the name of one. -/
inductive Literal
  | value (v : UInt8)
  | symbol (name : String)
deriving DecidableEq, Repr

namespace Literal

/-- The literal that a number stands for, if it fits in a byte. -/
def ofNat? (n : Nat) : Option Literal := if n < 256 then some (value (UInt8.ofNat n)) else none

/-- Reads a hexadecimal number. -/
def hex? (digits : List Char) : Option Literal :=
  if !digits.isEmpty && digits.all Text.isHexDigit then ofNat? (Text.hexNumber digits) else none

/-- Reads a decimal number. -/
def decimal? (digits : List Char) : Option Literal :=
  if !digits.isEmpty && digits.all Char.isDigit then ofNat? (Text.decimalNumber digits) else none

/-- **Reads a literal.**  The first character tells its kind, and so which error a bad one is. -/
def parse (word : List Char) : Except Cause Literal :=
  match word with
  | [] => .error (.invalidLiteral "")
  | c :: rest =>
    if c = '$' then
      (hex? rest).elim (.error (.badHex (.ofList word))) .ok
    else if c = '@' then
      if rest.isEmpty then .error .emptySymbol else .ok (symbol (.ofList rest))
    else if c.isDigit then
      (decimal? word).elim (.error (.badDecimal (.ofList word))) .ok
    else
      .error (.invalidLiteral (.ofList word))

end Literal

end Protocell.Assembly
