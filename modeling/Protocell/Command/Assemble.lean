import Protocell.Command.Outcome

/-!
# Command/Assemble — assembling a source into bank files

Prints the path of every file written.
-/

namespace Protocell.Command

/-- What to assemble, and where to put it. -/
structure AssembleOptions where
  input : String
  output : String
  /-- The stem of the bank files, if not that of the source. -/
  stem : Option String := none

/-- **Assembles a source into bank files.** -/
def assembleFiles (o : AssembleOptions) (f : Files) : Outcome :=
  match assembleFile f o.input with
  | .error e => .failed f e
  | .ok p =>
    match p.save o.output (o.stem.getD (fileStem o.input)) f with
    | (f, .error e) => .failed f (.banks e)
    | (f, .ok paths) =>
      { files := f, stdout := textBytes (String.join (paths.map (· ++ "\n"))) }

end Protocell.Command
