import Protocell.InstructionSet.Basic
import Protocell.Text.Digits

/-!
# Listing — banks as text

A listing sweeps over the bytes of a bank from the start.  An opcode takes the literals of its form
with it, and a byte that no instruction owns is a line of its own.  Literals behind the last byte
read as zero, as they do when the bank is executed.
-/

namespace Protocell

/-- The text of argument slots: `$` and two digits for a literal, a low line for an argument off the
stack or a literal that is not there. -/
def slotsText : List Bool → List UInt8 → List Char
  | [], _ => []
  | true :: slots, b :: literals => ' ' :: '$' :: (Text.upperHex b ++ slotsText slots literals)
  | true :: slots, [] => ' ' :: '_' :: slotsText slots []
  | false :: slots, literals => ' ' :: '_' :: slotsText slots literals

/-- The text of a form with literals: the mnemonic and the slots in order. -/
def Form.text (f : Form) (literals : List UInt8) : String :=
  f.instruction.mnemonic ++ String.ofList (slotsText f.slots literals)

/-- One line of a listing: what was found at an offset. -/
structure ListingLine where
  offset : UInt8
  opcode : UInt8
  /-- The form of the opcode, if an instruction owns it. -/
  form : Option Form
  literals : List UInt8
deriving DecidableEq, Repr

namespace ListingLine

/-- The bytes of a line. -/
def bytes (l : ListingLine) : List UInt8 := l.opcode :: l.literals

/-- The text of a line. -/
def text (l : ListingLine) : String :=
  match l.form with
  | some f => f.text l.literals
  | none => ".dat $" ++ String.ofList (Text.upperHex l.opcode)

/-- The line for an opcode at position `pos` of a bank with the bytes `rest` behind it. -/
def ofOpcode (s : InstructionSet) (pos : Nat) (opcode : UInt8) (rest : List UInt8) : ListingLine :=
  let form := s.decode opcode
  let count := form.elim 0 Form.literalCount
  { offset := UInt8.ofNat pos
    opcode
    form
    literals := (List.range count).map fun i => rest.getD i 0 }

end ListingLine

/-- The listing of bytes from position `pos` on, of which the first `skip` belong to a line
before. -/
def listingFrom (s : InstructionSet) (pos skip : Nat) : List UInt8 → List ListingLine
  | [] => []
  | b :: rest =>
    match skip with
    | skip + 1 => listingFrom s (pos + 1) skip rest
    | 0 =>
      let line := ListingLine.ofOpcode s pos b rest
      line :: listingFrom s (pos + 1) line.literals.length rest

/-- **The listing of a bank.** -/
def listing (s : InstructionSet) (bytes : List UInt8) : List ListingLine := listingFrom s 0 0 bytes

end Protocell
