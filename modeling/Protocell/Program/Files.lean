import Protocell.Files
import Protocell.Program.Basic

/-!
# Program/Files — programs in folders

Each bank of a program has a file of its own, named by the stem of the program and the number of
the bank.  Programs with different stems share a folder without touching each other.
-/

namespace Protocell.Program

/-- Why a program is not saved or loaded. -/
inductive FileError
  /-- The folder cannot be made. -/
  | creating (folder : String) (fault : Fault)
  /-- A bank cannot be written. -/
  | writing (bank : UInt8) (path : String) (fault : Fault)
  /-- A bank cannot be read. -/
  | reading (path : String) (fault : Fault)
  /-- A file holds no bank. -/
  | loading (path : String) (error : Error)
deriving DecidableEq, Repr

/-- What was being done, and why it failed. -/
def FileError.chain : FileError → List String
  | creating folder fault => ["creating output directory " ++ folder, fault.message]
  | writing bank path fault =>
    ["writing bank " ++ toString bank.toNat ++ " to " ++ path, fault.message]
  | reading path fault => ["reading " ++ path, fault.message]
  | loading path error => ["loading " ++ path, error.message]

/-- The name of the file of a bank. -/
def fileName (stem : String) (i : UInt8) : String :=
  stem ++ "." ++ toString i.toNat ++ ".cellprg"

/-- Writes banks one after the other and tells the paths; the files before a failure stay. -/
def saveBanks (folder stem : String) :
    List (UInt8 × List UInt8) → Files → Files × Except FileError (List String)
  | [], f => (f, .ok [])
  | (i, bytes) :: rest, f =>
    let path := Files.join folder (fileName stem i)
    match f.write path bytes with
    | .error fault => (f, .error (.writing i path fault))
    | .ok f => (saveBanks folder stem rest f).map id fun r => r.map (path :: ·)

/-- **Saves a program** in a folder, which is made if it is not there, and tells the paths of its
files. -/
def save (p : Program) (folder stem : String) (f : Files) :
    Files × Except FileError (List String) :=
  match f.makeFolders folder with
  | (f, .error fault) => (f, .error (.creating folder fault))
  | (f, .ok ()) => saveBanks folder stem p.banks f

/-- Adds the bank that is saved in a folder, if there is a file for it. -/
def loadBank (f : Files) (folder stem : String) (p : Program) (i : UInt8) :
    Except FileError Program :=
  let path := Files.join folder (fileName stem i)
  if f.isFile path then do
    let bytes ← (f.read path).mapError (.reading path)
    (p.insert i bytes).mapError (.loading path)
  else .ok p

/-- **Loads the program** that is saved in a folder under a stem. -/
def load (f : Files) (folder stem : String) : Except FileError Program :=
  allBytes.foldlM (loadBank f folder stem) empty

end Protocell.Program
