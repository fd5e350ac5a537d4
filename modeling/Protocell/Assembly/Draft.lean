import Protocell.Assembly.Fold
import Protocell.Assembly.Statement
import Protocell.Text.Line

/-!
# Assembly/Draft — from source text to a program

A draft takes a source line by line.  Labels bind to the offset that the next atom will have, names
are resolved once all lines are in, and a program comes out only if every bank succeeds.  A label
hides a bank name, and is known in its own bank alone.
-/

namespace Protocell.Assembly

/-- What a source says of one bank. -/
structure Section where
  bank : UInt8
  /-- The line that begins the bank. -/
  line : Nat
  /-- The tokens with their lines, in execution order. -/
  tokens : List (Token × Nat) := []
  labels : List (String × UInt8) := []

/-- The lines of a source taken so far. -/
structure Draft where
  /-- The banks begun, the last of them first. -/
  sections : List Section := []
  /-- The names of banks. -/
  constants : List (String × UInt8) := []

namespace Section

/-- The offset of the next atom. -/
def offset (b : Section) : Nat := b.tokens.length

/-- Adds tokens of a line, if they fit. -/
def extend (b : Section) (line : Nat) (tokens : List Token) : Except Cause Section :=
  if bankSize < b.offset + tokens.length then .error (.bankOverflow b.bank)
  else .ok { b with tokens := b.tokens ++ tokens.map fun t => (t, line) }

/-- Binds a label to the current offset. -/
def define (b : Section) (name : String) : Except Cause Section :=
  if 255 < b.offset then .error (.bankOverflow b.bank)
  else if (b.labels.lookup name).isSome then .error (.duplicateName name)
  else .ok { b with labels := (name, UInt8.ofNat b.offset) :: b.labels }

/-- Adds zeros up to an offset. -/
def advance (b : Section) (line : Nat) (origin : UInt8) : Except Cause Section :=
  if origin.toNat < b.offset then .error (.originBehind origin b.offset)
  else b.extend line (List.replicate (origin.toNat - b.offset) (Token.byte 0))

/-- The byte that a name stands for in a bank. -/
def lookup (constants : List (String × UInt8)) (b : Section) (name : String) : Option UInt8 :=
  (b.labels.lookup name).or (constants.lookup name)

/-- The atom of a token with its line. -/
def resolve (constants : List (String × UInt8)) (b : Section) : Token × Nat → Except Error Atom
  | (.instruction i, _) => .ok (.instruction i)
  | (.literal (.value v), _) => .ok (.byte v)
  | (.literal (.symbol name), line) =>
    match b.lookup constants name with
    | some v => .ok (.byte v)
    | none => .error ⟨line, .unresolvedName b.bank name⟩

/-- The atoms of a bank. -/
def atoms (constants : List (String × UInt8)) (b : Section) : Except Error (List Atom) :=
  b.tokens.mapM (b.resolve constants)

end Section

namespace Draft

/-- Begins a bank. -/
def begin (d : Draft) (line : Nat) (bank : UInt8) (name : Option String) : Except Cause Draft :=
  let sections := { bank, line } :: d.sections
  if d.sections.any fun b => b.bank == bank then .error (.duplicateBank bank)
  else match name with
    | none => .ok { d with sections }
    | some name =>
      if (d.constants.lookup name).isSome then .error (.duplicateName name)
      else .ok { sections, constants := (name, bank) :: d.constants }

/-- Changes the bank begun last. -/
def modifyCurrent (d : Draft) (change : Section → Except Cause Section) : Except Cause Draft :=
  match d.sections with
  | [] => .error .noActiveBank
  | b :: rest => (change b).map fun b => { d with sections := b :: rest }

/-- Takes a statement of a line. -/
def add (d : Draft) (line : Nat) : Statement → Except Cause Draft
  | .bank index name => d.begin line index name
  | .label name => d.modifyCurrent fun b => b.define name
  | .tokens ts => d.modifyCurrent fun b => b.extend line ts
  | .origin offset => d.modifyCurrent fun b => b.advance line offset

/-- Takes a line with its number. -/
def addLine (s : InstructionSet) (d : Draft) (l : List Char × Nat) : Except Error Draft :=
  match Statement.parse? s l.1 with
  | .error e => .error ⟨l.2, e⟩
  | .ok none => .ok d
  | .ok (some statement) =>
    match d.add l.2 statement with
    | .error e => .error ⟨l.2, e⟩
    | .ok d => .ok d

/-- Puts the bytes of a bank into a program. -/
def emit (constants : List (String × UInt8)) (p : Program) (b : Section) :
    Except Error Program := do
  let atoms ← b.atoms constants
  match p.insert b.bank (fold atoms) with
  | .ok p => return p
  | .error _ => throw ⟨b.line, .bankOverflow b.bank⟩

/-- The program of a draft: its banks in the order in which they were begun. -/
def finish (d : Draft) : Except Error Program :=
  d.sections.reverse.foldlM (emit d.constants) .empty

/-- The draft of some lines, of which the first has the number `first`. -/
def ofLines (s : InstructionSet) (lines : List (List Char)) : Except Error Draft :=
  (lines.zipIdx 1).foldlM (addLine s) {}

end Draft

end Protocell.Assembly

namespace Protocell

/-- **Assembles a source.** -/
def assemble (s : InstructionSet) (source : String) : Except Assembly.Error Program := do
  let d ← Assembly.Draft.ofLines s (Text.lines source.toList)
  d.finish

end Protocell
