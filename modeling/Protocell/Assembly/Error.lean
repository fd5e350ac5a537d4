import Protocell.Program.Basic

/-!
# Assembly/Error — why a source does not assemble

Every error names the source line, counted from 1, and its cause.
-/

namespace Protocell.Assembly

/-- What is wrong with a line. -/
inductive Cause
  /-- A word that starts with a digit is no decimal number of a byte. -/
  | badDecimal (text : String)
  /-- A word that starts with `$` is no hexadecimal number of a byte. -/
  | badHex (text : String)
  /-- A word is no literal where one is needed. -/
  | invalidLiteral (text : String)
  /-- A symbol or label has no name. -/
  | emptySymbol
  /-- A word of a code line is neither an instruction nor a literal. -/
  | unknownInstruction (text : String)
  /-- A symbol stands for nothing in its bank. -/
  | unresolvedName (bank : UInt8) (name : String)
  /-- The bank does not fit in 256 bytes. -/
  | bankOverflow (bank : UInt8)
  /-- A bank line does not say which bank. -/
  | missingBankIndex
  /-- A bank line says something that is no bank number. -/
  | invalidBankIndex (text : String)
  /-- A bank is begun again. -/
  | duplicateBank (bank : UInt8)
  /-- A label or bank name is taken. -/
  | duplicateName (name : String)
  /-- There is no bank to put something into. -/
  | noActiveBank
  /-- A directive is not known. -/
  | unknownDirective (text : String)
  /-- A directive lacks its operand. -/
  | missingOperand (directive : String)
  /-- The operand of a text directive is no quoted text. -/
  | badString
  /-- An origin lies before what is there already. -/
  | originBehind (origin : UInt8) (offset : Nat)
deriving DecidableEq, Repr

/-- A cause and the line it concerns. -/
structure Error where
  line : Nat
  cause : Cause
deriving DecidableEq, Repr

/-- The text of a cause. -/
def Cause.message : Cause → String
  | badDecimal text => s!"invalid decimal literal `{text}`"
  | badHex text => s!"invalid hex literal `{text}`"
  | invalidLiteral text => s!"`{text}` is not a literal"
  | emptySymbol => "symbol without a name"
  | unknownInstruction text => s!"unknown instruction `{text}`"
  | unresolvedName bank name =>
    "bank " ++ toString bank.toNat ++ s!" has no label or constant named `{name}`"
  | bankOverflow bank => "bank " ++ toString bank.toNat ++ s!" exceeds {bankSize} bytes"
  | missingBankIndex => "`.prg` needs a bank index"
  | invalidBankIndex text => s!"`{text}` is not a bank index"
  | duplicateBank bank => "bank " ++ toString bank.toNat ++ " is declared twice"
  | duplicateName name => s!"`{name}` is already defined"
  | noActiveBank => "code before the first `.prg`"
  | unknownDirective text => s!"unknown directive `.{text}`"
  | missingOperand directive => s!"`.{directive}` needs an operand"
  | badString => "`.str` needs a double-quoted string"
  | originBehind origin offset =>
    "`.org " ++ toString origin.toNat ++ s!"` is behind the current offset {offset}"

/-- The text of an error, its line first. -/
def Error.message (e : Error) : String := s!"line {e.line}: " ++ e.cause.message

end Protocell.Assembly
