import Protocell.Cell.State
import Protocell.Machine.Step

/-!
# Cell/Basic — a cell and the processor that drives it

A cell lives by ticks: each is a run of at most a configured number of steps.
-/

namespace Protocell

/-- How a processor is set up. -/
structure ProcessorConfig where
  /-- Whether instructions are charged for. -/
  metered : Bool := true
deriving DecidableEq, Repr

/-- How a cell is set up. -/
structure CellConfig where
  startingEnergy : UInt16 := 4096
  /-- The most steps that a tick makes. -/
  stepsPerTick : UInt32 := 1
  processor : ProcessorConfig := {}
deriving DecidableEq, Repr

/-- A cell: its configuration, the instructions it knows, its machine and its state. -/
structure Cell where
  config : CellConfig
  instructions : InstructionSet
  system : System CellState

namespace Cell

/-- A cell with nothing loaded. -/
def new (instructions : InstructionSet) (config : CellConfig) : Cell :=
  ⟨config, instructions, ⟨{}, { energy := config.startingEnergy }⟩⟩

/-- A cell at the start of a program. -/
def withProgram (instructions : InstructionSet) (config : CellConfig) (program : Program) : Cell :=
  ⟨config, instructions, ⟨.load program, { energy := config.startingEnergy }⟩⟩

/-- The processor of a cell. -/
def processor (c : Cell) : Processor := ⟨c.instructions, c.config.processor.metered⟩

/-- Whether the end of the program is reached. -/
def finished (c : Cell) : Bool := c.system.machine.flags.ended

/-- Executes at most one instruction. -/
def step (c : Cell) : Step × Cell :=
  (c.processor.step CellState.host c.system).map id fun system => { c with system }

/-- Runs up to `n` steps; tells how many were made. -/
def run (c : Cell) (n : Nat) : Nat × Cell :=
  (c.processor.run CellState.host n c.system).map id fun system => { c with system }

/-- A run of an unfinished cell makes progress. -/
theorem run_pos (c : Cell) {n : Nat} (hn : n ≠ 0) (hc : c.finished = false) : 0 < (c.run n).1 := by
  obtain ⟨n, rfl⟩ := Nat.exists_eq_succ_of_ne_zero hn
  have hc : c.system.machine.flags.ended = false := hc
  simp only [run, Processor.run, Processor.runFrom_succ, hc, Prod.map]
  exact Processor.le_runFrom _ _ 1 _ _

/-- One tick of the world; tells how many steps were made. -/
def tick (c : Cell) : Nat × Cell := c.run c.config.stepsPerTick.toNat

/-- Queues bytes for the cell to read. -/
def feed (c : Cell) (bytes : List UInt8) : Cell :=
  { c with system := { c.system with host := c.system.host.feed bytes } }

/-- Takes away what the cell has written. -/
def takeOutput (c : Cell) : List UInt8 × Cell :=
  c.system.host.takeOutput.map id fun host => { c with system := { c.system with host } }

end Cell

end Protocell
