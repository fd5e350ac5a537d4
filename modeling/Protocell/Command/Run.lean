import Protocell.Cell.Json
import Protocell.Command.Outcome
import Protocell.Json.Parser
import Protocell.Machine.Snapshot

/-!
# Command/Run — assembling a program and running it in a cell

The cell runs in slices of at most 1024 steps, and what it has written is taken after each, so that
output comes while the program runs.  Slices change neither the steps nor the bytes written.
-/

namespace Protocell.Command

/-- The most steps between two times that output is taken. -/
def sliceSize : Nat := 1024

/-- What to run and how. -/
structure RunOptions where
  source : String
  maxSteps : Nat := 1000000
  /-- A folder for the assembled banks. -/
  emit : Option String := none
  /-- A file with the cell's configuration. -/
  config : Option String := none
  /-- A text for the cell to read. -/
  input : Option String := none
  /-- Whether to print the last state of the machine. -/
  dump : Bool := false

/-- How far a run in slices has come. -/
structure Progress where
  /-- The number of steps made. -/
  steps : Nat := 0
  cell : Cell
  /-- What was written and taken. -/
  written : Array UInt8 := #[]

/-- **Runs a cell slice by slice** until it has finished or made `maxSteps` steps in all, and takes
what it has written after each slice. -/
def runSlices (maxSteps : Nat) (r : Progress) : Progress :=
  if _h : maxSteps ≤ r.steps ∨ r.cell.finished = true then r
  else
    let s := r.cell.run (min (maxSteps - r.steps) sliceSize)
    let o := s.2.takeOutput
    runSlices maxSteps ⟨r.steps + s.1, o.2, r.written ++ o.1⟩
termination_by maxSteps - r.steps
decreasing_by
  have hleft : 0 < maxSteps - r.steps := Nat.sub_pos_of_lt (Nat.lt_of_not_le fun h => _h (.inl h))
  have hc : r.cell.finished = false := by simpa using fun hc => _h (.inr hc)
  have hslice : 0 < min (maxSteps - r.steps) sliceSize := Nat.lt_min.mpr ⟨hleft, by decide⟩
  have := r.cell.run_pos (Nat.ne_of_gt hslice) hc
  omega

/-- Reads a configuration, or takes the default one. -/
def readConfig (f : Files) : Option String → Except Failure CellConfig
  | none => .ok {}
  | some path => do
    let text ← (f.readText path).mapError (.readingConfig path)
    match (Json.parse? text.toList).bind CellConfig.ofJson? with
    | some config => return config
    | none => throw (.parsingConfig path)

/-- The last state of a machine as printed. -/
def dumpText (m : Machine) : String := String.ofList (m.snapshot.toJson.pretty ++ ['\n'])

/-- Runs an assembled program to its end or to the last step allowed. -/
def execute (o : RunOptions) (config : CellConfig) (p : Program) : List UInt8 :=
  let cell := (Cell.withProgram .standard config p).feed (textBytes (o.input.getD ""))
  let r := runSlices o.maxSteps { cell }
  r.written.toList ++ if o.dump then textBytes (dumpText r.cell.system.machine) else []

/-- **Assembles a source and runs it.**  The configuration is read first. -/
def run (o : RunOptions) (f : Files) : Outcome :=
  let read : Except Failure (CellConfig × Program) := do
    let config ← readConfig f o.config
    return (config, ← assembleFile f o.source)
  match read with
  | .error e => .failed f e
  | .ok (config, p) =>
    match o.emit with
    | none => { files := f, stdout := execute o config p }
    | some folder =>
      match p.save folder (fileStem o.source) f with
      | (f, .error e) => .failed f (.banks e)
      | (f, .ok _) => { files := f, stdout := execute o config p }

end Protocell.Command
