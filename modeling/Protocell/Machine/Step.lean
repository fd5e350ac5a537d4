import Protocell.InstructionSet.Basic
import Protocell.Machine.Action

/-!
# Machine/Step — executing instructions

A processor is an instruction set and the choice whether instructions are charged for.  One step
fetches an opcode, resolves its slots in order, charges for it, performs it, and finally leaves the
frames whose bank has been run off.  A run repeats steps until the end is reached or the steps are
used up.

What is performed is up to a `Conduct`, which gives each instruction its code.  The definitions with
`By` take any; the others take `Conduct.standard`, where an instruction does what its operation
says.
-/

namespace Protocell

/-- What executes: the instructions known, and whether their cost is charged to the host. -/
structure Processor where
  instructions : InstructionSet
  metered : Bool := true

/-- A machine together with its host's state. -/
structure System (σ : Type u) where
  machine : Machine
  host : σ

/-- **The code of an instruction**: what it makes of a machine and its host's state, given the
processor that executes it, the host, and the arguments. -/
abbrev Routine (σ : Type u) := Processor → Host σ → List UInt8 → Machine × σ → Machine × σ

/-- The code of an operation. -/
def Routine.standard (o : Operation) : Routine σ :=
  fun _ h arguments => (o.action arguments).perform h

/-- Which code each instruction has. -/
abbrev Conduct (σ : Type u) := Instruction → Routine σ

/-- Each instruction has the code of its operation. -/
def Conduct.standard : Conduct σ := fun i => .standard i.operation

/-- What one step did. -/
inductive Step
  /-- Nothing: the end was reached before. -/
  | idle
  /-- It counted down a delay. -/
  | slept
  /-- It read a byte that no instruction owns. -/
  | unassigned (opcode : UInt8)
  /-- It executed an instruction. -/
  | executed (operation : Operation) (opcode : UInt8)
deriving DecidableEq, Repr

namespace Machine

/-- Fills argument slots in order: an inline slot from the bytes behind the opcode, another from the
stack. -/
def resolve : List Bool → Machine → List UInt8 × Machine
  | [], m => ([], m)
  | inline :: slots, m =>
    let (v, m) := if inline then m.fetch else m.pop
    let (vs, m) := m.resolve slots
    (v :: vs, m)

end Machine

namespace Processor

/-- Charges for an instruction on a metered processor. -/
def charge (p : Processor) (h : Host σ) (cost : UInt16) (s : σ) : σ :=
  if p.metered then (h.ask (.spend cost) s).2 else s

/-- Executes a decoded instruction whose opcode has been fetched. -/
def executeBy (p : Processor) (conduct : Conduct σ) (h : Host σ) (f : Form) (m : Machine) (s : σ) :
    Machine × σ :=
  let (arguments, m) := m.resolve f.slots
  conduct f.instruction p h arguments (m, p.charge h f.instruction.cost s)

/-- Executes at most one instruction. -/
def stepBy (p : Processor) (conduct : Conduct σ) (h : Host σ) (c : System σ) : Step × System σ :=
  let m := c.machine
  if m.flags.ended then
    (.idle, c)
  else if m.sleep ≠ 0 then
    (.slept, { c with machine := { m with sleep := m.sleep - 1 } })
  else
    let (opcode, m) := m.fetch
    match p.instructions.decode opcode with
    | none => (.unassigned opcode, { c with machine := m.unwind })
    | some f =>
      let (m, s) := p.executeBy conduct h f m c.host
      (.executed f.operation opcode, ⟨m.unwind, s⟩)

/-- Runs up to `n` steps, on top of `taken` steps that were made before. -/
def runFromBy (p : Processor) (conduct : Conduct σ) (h : Host σ) (taken : Nat) :
    Nat → System σ → Nat × System σ
  | 0, c => (taken, c)
  | n + 1, c =>
    if c.machine.flags.ended then (taken, c)
    else p.runFromBy conduct h (taken + 1) n (p.stepBy conduct h c).2

/-- Executes a decoded instruction whose opcode has been fetched. -/
def execute (p : Processor) (h : Host σ) (f : Form) (m : Machine) (s : σ) : Machine × σ :=
  p.executeBy .standard h f m s

/-- Executes at most one instruction. -/
def step (p : Processor) (h : Host σ) (c : System σ) : Step × System σ := p.stepBy .standard h c

/-- Runs up to `n` steps, on top of `taken` steps that were made before. -/
def runFrom (p : Processor) (h : Host σ) (taken n : Nat) (c : System σ) : Nat × System σ :=
  p.runFromBy .standard h taken n c

/-- Runs until the end is reached or `n` steps are made; tells how many were. -/
def run (p : Processor) (h : Host σ) (n : Nat) (c : System σ) : Nat × System σ :=
  p.runFrom h 0 n c

theorem runFrom_succ (p : Processor) (h : Host σ) (taken n : Nat) (c : System σ) :
    p.runFrom h taken (n + 1) c =
      if c.machine.flags.ended then (taken, c) else p.runFrom h (taken + 1) n (p.step h c).2 := rfl

theorem le_runFrom (p : Processor) (h : Host σ) (taken n : Nat) (c : System σ) :
    taken ≤ (p.runFrom h taken n c).1 := by
  induction n generalizing taken c with
  | zero => exact Nat.le_refl _
  | succ n ih =>
    rw [runFrom_succ]
    split
    · exact Nat.le_refl _
    · exact Nat.le_trans (Nat.le_succ _) (ih _ _)

end Processor

end Protocell
