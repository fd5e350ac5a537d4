import Protocell.Assembly.Literal
import Protocell.InstructionSet.Basic
import Protocell.Text.Blank

/-!
# Assembly/Statement — what a source line says

    .prg 0 main        ; begins bank 0 and names it
    :loop              ; a label
    OUTB INC 41        ; code: mnemonics and literals
    JUMP @loop
    .dat 1 $2A @main   ; bytes
    .org 64            ; zeros up to an offset
    .str "text"        ; bytes of a text, and a zero

A line is read on its own: whether a label is new or a bank full is not its syntax.  Code is
written with the operation before its arguments and stored the other way round, so the words of
a code line become tokens last word first.
-/

namespace Protocell.Assembly

/-- A word of code. -/
inductive Token
  | literal (l : Literal)
  | instruction (i : Instruction)
deriving DecidableEq, Repr

/-- What a line asks for. -/
inductive Statement
  /-- Begins a bank, which may get a name. -/
  | bank (index : UInt8) (name : Option String)
  /-- Binds a name to the current offset. -/
  | label (name : String)
  /-- Puts tokens at the current offset, in this order. -/
  | tokens (tokens : List Token)
  /-- Puts zeros up to an offset. -/
  | origin (offset : UInt8)
deriving DecidableEq, Repr

/-- The line up to its comment; a semicolon between double quotes begins none. -/
def stripCommentFrom (quoted : Bool) : List Char → List Char
  | [] => []
  | c :: cs =>
    if c = ';' ∧ quoted = false then []
    else c :: stripCommentFrom (quoted != (c == '"')) cs

/-- The line up to its comment. -/
def stripComment (line : List Char) : List Char := stripCommentFrom false line

/-- The text between a first and a last double quote, if there is no third. -/
def unquote? (text : List Char) : Option (List Char) :=
  match text with
  | '"' :: rest =>
    if rest.getLast? = some '"' ∧ '"' ∉ rest.dropLast then some rest.dropLast else none
  | _ => none

namespace Token

/-- The token of a byte. -/
def byte (v : UInt8) : Token := literal (.value v)

/-- Reads a word of code.  What names an instruction is that instruction, whatever else it could
be. -/
def parse (s : InstructionSet) (word : List Char) : Except Cause Token :=
  match s.lookup (.ofList word) with
  | some i => .ok (instruction i)
  | none =>
    if word.head?.any fun c => c.isDigit || c == '$' || c == '@' then
      (Literal.parse word).map literal
    else
      .error (.unknownInstruction (.ofList word))

end Token

namespace Statement

/-- Reads the operands of a bank line. -/
def parseBank : List (List Char) → Except Cause Statement
  | [] => .error .missingBankIndex
  | index :: rest =>
    match Literal.parse index with
    | .ok (.value v) => .ok (bank v (rest.head?.map String.ofList))
    | _ => .error (.invalidBankIndex (.ofList index))

/-- Reads the operands of a data line. -/
def parseData (words : List (List Char)) : Except Cause Statement := do
  let literals ← words.mapM Literal.parse
  return tokens (literals.map Token.literal)

/-- Reads the operands of an origin line. -/
def parseOrigin : List (List Char) → Except Cause Statement
  | [] => .error (.missingOperand "org")
  | operand :: _ =>
    match Literal.parse operand with
    | .ok (.value v) => .ok (origin v)
    | .ok (.symbol _) => .error (.invalidLiteral (.ofList operand))
    | .error e => .error e

/-- Reads the operand of a text line. -/
def parseText (operand : List Char) : Except Cause Statement :=
  match unquote? operand with
  | some text => .ok (tokens ((text.flatMap String.utf8EncodeChar ++ [0]).map Token.byte))
  | none => .error .badString

/-- Reads what stands behind the dot of a directive. -/
def parseDirective (text : List Char) : Except Cause Statement :=
  match Text.words text with
  | [] => .error (.unknownDirective "")
  | word :: operands =>
    if word = "prg".toList then parseBank operands
    else if word = "dat".toList then parseData operands
    else if word = "org".toList then parseOrigin operands
    else if word = "str".toList then parseText (Text.trim ((Text.trimStart text).drop 3))
    else .error (.unknownDirective (.ofList word))

/-- Reads what stands behind the colon of a label. -/
def parseLabel (text : List Char) : Except Cause Statement :=
  match Text.words text with
  | [] => .error .emptySymbol
  | name :: _ => .ok (label (.ofList name))

/-- Reads a code line. -/
def parseCode (s : InstructionSet) (text : List Char) : Except Cause Statement := do
  let ts ← (Text.words text).mapM (Token.parse s)
  return tokens ts.reverse

/-- **Reads a line**; one that is blank but for a comment asks for nothing. -/
def parse? (s : InstructionSet) (line : List Char) : Except Cause (Option Statement) :=
  match Text.trim (stripComment line) with
  | [] => .ok none
  | '.' :: text => (parseDirective text).map some
  | ':' :: text => (parseLabel text).map some
  | text => (parseCode s text).map some

end Statement

end Protocell.Assembly
