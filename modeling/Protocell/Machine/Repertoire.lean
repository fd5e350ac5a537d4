import Protocell.Machine.Step

/-!
# Machine/Repertoire — instructions with code of their own

Whoever puts an instruction set together decides what its instructions do.  A `Description` is a
definition with its code, which may be any; the operation it names is then no more than what a step
reports.  What descriptions and aliases are built into is a `Repertoire`: an instruction set, and a
conduct by which each of its instructions has the code it was described with.

What is asked of such code is that it be the semantic effect of an instruction over its resolved
argument bytes.  But it is given the processor that executes it, and so it could look into the
instruction set as well.  `Routine.IsBlind` is what is asked, as a condition: arguments, machine and
host are all that the code goes by.
-/

namespace Protocell

/-- An instruction as it is asked for, with its code. -/
structure Description (σ : Type u) extends Definition where
  routine : Routine σ

/-- A definition with the code of its operation. -/
def Definition.described (d : Definition) : Description σ := ⟨d, .standard d.operation⟩

/-- Each instruction has the code of the first description with its mnemonic. -/
def Conduct.ofDescriptions (ds : List (Description σ)) : Conduct σ := fun i =>
  match ds.find? fun d => d.mnemonic == i.mnemonic with
  | some d => d.routine
  | none => .standard i.operation

/-- **An instruction set together with the code of its instructions.** -/
structure Repertoire (σ : Type u) where
  instructions : InstructionSet
  conduct : Conduct σ

namespace Repertoire

/-- The repertoire of some descriptions and aliases, if they make an instruction set. -/
def build (ds : List (Description σ)) (as : List (String × String)) :
    Except InstructionSet.Error (Repertoire σ) :=
  (InstructionSet.build (ds.map Description.toDefinition) as).map fun s => ⟨s, .ofDescriptions ds⟩

/-- A processor that knows the instructions. -/
def processor (r : Repertoire σ) (metered : Bool) : Processor := ⟨r.instructions, metered⟩

/-- Executes at most one instruction. -/
def step (r : Repertoire σ) (metered : Bool) (h : Host σ) (c : System σ) : Step × System σ :=
  (r.processor metered).stepBy r.conduct h c

/-- Runs until the end is reached or `n` steps are made; tells how many were. -/
def run (r : Repertoire σ) (metered : Bool) (h : Host σ) (n : Nat) (c : System σ) :
    Nat × System σ :=
  (r.processor metered).runFromBy r.conduct h 0 n c

end Repertoire

end Protocell
