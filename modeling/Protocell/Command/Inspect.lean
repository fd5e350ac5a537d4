import Protocell.Command.Outcome
import Protocell.Flow.Report

/-!
# Command/Inspect — looking at saved programs

Lists the banks of a program, disassembles them from start to end, or follows where execution can
go.
-/

namespace Protocell.Command

/-- What to tell about a program. -/
inductive Query
  /-- Which banks there are. -/
  | banks
  /-- A listing of one bank or of all, with or without the bytes. -/
  | listing (bank : Option UInt8) (showBytes : Bool) (out : Option String)
  /-- An analysis from an entry bank, as JSON or as text, the text with or without its blocks. -/
  | analyze (entry : UInt8) (budget : Nat) (json withBlocks : Bool) (out : Option String)

/-- A text with blanks behind it, at least `n` characters in all. -/
def padRight (n : Nat) (s : String) : String :=
  s ++ String.ofList (List.replicate (n - s.length) ' ')

/-- A row of the table of banks. -/
def bankRow (index size : String) : String := padRight 6 index ++ " " ++ padRight 6 size ++ "\n"

/-- The table of the banks of a program. -/
def banksText (p : Program) : String :=
  bankRow "bank" "bytes" ++
    String.join (p.banks.map fun b => bankRow (toString b.1.toNat) (toString b.2.length))

/-- Bytes in hexadecimal with blanks between them. -/
def hexText (bytes : List UInt8) : String :=
  " ".intercalate (bytes.map fun b => String.ofList (Text.lowerHex b))

/-- A line of a printed listing. -/
def listingRow (showBytes : Bool) (l : ListingLine) : String :=
  "  " ++ String.ofList (Text.lowerHex l.offset) ++ ": " ++
    (if showBytes then padRight 9 (hexText l.bytes) ++ " " else "") ++ l.text ++ "\n"

/-- The printed listing of a bank. -/
def listingText (s : InstructionSet) (showBytes : Bool) (bank : UInt8 × List UInt8) : String :=
  "bank " ++ toString bank.1.toNat ++ ":\n" ++
    String.join ((listing s bank.2).map (listingRow showBytes))

/-- Prints a text or puts it into a file. -/
def deliver (f : Files) (text : String) : Option String → Outcome
  | none => { files := f, stdout := textBytes text }
  | some path =>
    match f.write path (textBytes text) with
    | .error fault => .failed f (.writing fault)
    | .ok f => { files := f }

/-- The text of an analysis. -/
def analysisText (s : InstructionSet) (p : Program) (entry : UInt8) (budget : Nat)
    (json withBlocks : Bool) : String :=
  let report := (Flow.analyze s p entry budget).report s p entry
  if json then String.ofList (report.toJson.pretty ++ ['\n']) else report.text withBlocks

/-- Answers a query about a program. -/
def answer (f : Files) (p : Program) : Query → Outcome
  | .banks => { files := f, stdout := textBytes (banksText p) }
  | .listing (some bank) showBytes out =>
    match p.get? bank with
    | some bytes => deliver f (listingText .standard showBytes (bank, bytes)) out
    | none => .failed f (.absentBank bank)
  | .listing none showBytes out =>
    deliver f (String.join (p.banks.map (listingText .standard showBytes))) out
  | .analyze entry budget json withBlocks out =>
    deliver f (analysisText .standard p entry budget json withBlocks) out

/-- **Answers a query about the program** that is saved in a folder under a stem. -/
def inspect (folder stem : String) (q : Query) (f : Files) : Outcome :=
  match Program.load f folder stem with
  | .error e => .failed f (.banks e)
  | .ok p => if p.count = 0 then .failed f (.noProgram folder stem) else answer f p q

end Protocell.Command
