import Protocell.Command.Options

/-!
# Main — the command line

Takes the files that a command reads from the disk, performs the command on them, and puts what it
wrote back.
-/

namespace Protocell.Command

/-- Puts a file into a folder tree, folders and all. -/
def addFile (f : Files) (path : String) (bytes : List UInt8) : Files :=
  let f := (f.makeFolders ("/".intercalate (Files.names path).dropLast)).1
  (f.write path bytes).toOption.getD f

/-- Takes files from the disk, as far as they are there. -/
def takeFiles (paths : List String) : IO Files :=
  paths.foldlM (fun (f : Files) (path : String) => do
    try
      let bytes ← IO.FS.readBinFile path
      return addFile f path bytes.toList
    catch _ => return f) {}

/-- Puts what a command wrote on the disk. -/
def putFiles (i : Invocation) (f : Files) : IO Unit := do
  match i.outputs with
  | (some folder, _) =>
    match f.filesIn? folder with
    | some entries =>
      IO.FS.createDirAll folder
      for (name, bytes) in entries do
        IO.FS.writeBinFile (Files.join folder name) ⟨bytes.toArray⟩
    | none => return
  | (none, some path) =>
    match f.read path with
    | .ok bytes => IO.FS.writeBinFile path ⟨bytes.toArray⟩
    | .error _ => return
  | (none, none) => return

/-- Performs a command on the disk and tells its exit code. -/
def perform (i : Invocation) : IO UInt32 := do
  let o := i.perform (← takeFiles i.inputs)
  putFiles i o.files
  (← IO.getStdout).write ⟨o.stdout.toArray⟩
  (← IO.getStderr).putStr o.stderr
  return UInt32.ofNat o.code

end Protocell.Command

/-- Carries out the command that the words of a command line ask for. -/
def main (words : List String) : IO UInt32 := do
  match Protocell.Command.invocation? words with
  | some i => Protocell.Command.perform i
  | none =>
    (← IO.getStderr).putStr Protocell.Command.usage
    return 2
