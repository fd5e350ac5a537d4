import Protocell.Assembly.Draft
import Protocell.InstructionSet.Standard
import Protocell.Program.Files

/-!
# Command/Outcome — what a command leaves behind

A command is a function on files.  It leaves the files changed, has written bytes, and may have
failed; a failure is reported as what was being done and why it did not work.
-/

namespace Protocell.Command

/-- Why a command fails. -/
inductive Failure
  /-- A source cannot be read. -/
  | reading (path : String) (fault : Fault)
  /-- A configuration cannot be read. -/
  | readingConfig (path : String) (fault : Fault)
  /-- A configuration is none. -/
  | parsingConfig (path : String)
  /-- A source does not assemble. -/
  | assembling (path : String) (error : Assembly.Error)
  /-- A program is not saved or loaded. -/
  | banks (error : Program.FileError)
  /-- An output file cannot be written. -/
  | writing (fault : Fault)
  /-- A folder holds no program of a name. -/
  | noProgram (folder stem : String)
  /-- A bank that was asked for is not there. -/
  | absentBank (bank : UInt8)
deriving DecidableEq, Repr

/-- What was being done, and why it failed. -/
def Failure.chain : Failure → List String
  | reading path fault => ["reading " ++ path, fault.message]
  | readingConfig path fault => ["reading config " ++ path, fault.message]
  | parsingConfig path => ["parsing config " ++ path, "not a cell configuration"]
  | assembling path error => ["assembling " ++ path, error.message]
  | banks error => error.chain
  | writing fault => [fault.message]
  | noProgram folder stem => ["no " ++ stem ++ ".*.cellprg files in " ++ folder]
  | absentBank bank => ["bank " ++ toString bank.toNat ++ " is not present"]

/-- The report of a failure, with its cause on a line of its own. -/
def Failure.report (e : Failure) : String :=
  match e.chain with
  | [] => "Error\n"
  | [what] => "Error: " ++ what ++ "\n"
  | what :: causes =>
    "Error: " ++ what ++ "\n\nCaused by:\n" ++ String.join (causes.map fun c => "    " ++ c ++ "\n")

/-- What a command leaves behind. -/
structure Outcome where
  files : Files
  stdout : List UInt8 := []
  failure : Option Failure := none

namespace Outcome

/-- The exit code: 1 for a failure. -/
def code (o : Outcome) : Nat := if o.failure.isSome then 1 else 0

/-- What a failure is reported as. -/
def stderr (o : Outcome) : String := o.failure.elim "" Failure.report

/-- A failure that changes nothing and writes nothing. -/
def failed (f : Files) (e : Failure) : Outcome := { files := f, failure := some e }

end Outcome

/-- The bytes of a text. -/
def textBytes (s : String) : List UInt8 := s.toUTF8.toList

/-- The stem of a file name: what stands before its last dot, unless nothing does. -/
def stemOfName (name : List Char) : List Char :=
  let back := name.reverse
  match back.dropWhile (· != '.') with
  | [] | ['.'] => name
  | _ :: stem => stem.reverse

/-- The stem of the file that a path leads to. -/
def fileStem (path : String) : String :=
  match (Files.names path).getLast? with
  | some name => String.ofList (stemOfName name.toList)
  | none => path

/-- Reads a source and assembles it with the standard instructions. -/
def assembleFile (f : Files) (path : String) : Except Failure Program := do
  let text ← (f.readText path).mapError (.reading path)
  (assemble .standard text).mapError (.assembling path)

end Protocell.Command
