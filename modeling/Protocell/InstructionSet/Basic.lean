import Protocell.Instruction

/-!
# InstructionSet/Basic — opcodes handed out in order

An instruction set is built once, from definitions and aliases.  Each definition takes the next
`2 ^ arity` opcodes, so the order of the definitions is the encoding.  Opcodes past the last
definition decode to nothing.
-/

namespace Protocell

/-- Instructions in opcode order, and further names for some of them. -/
structure InstructionSet where
  instructions : List Instruction
  aliases : List (String × Instruction)
deriving DecidableEq, Repr

namespace InstructionSet

/-- Why a list of definitions and aliases makes no instruction set. -/
inductive Error
  /-- A definition needs more opcodes than are left. -/
  | opcodesExhausted (mnemonic : String) (needed remaining : Nat)
  /-- A definition has more slots than a variant can tell apart. -/
  | arityTooLarge (mnemonic : String) (arity : Nat)
  /-- A mnemonic or alias is taken already. -/
  | duplicateName (name : String)
  /-- An alias stands for a name that is not there. -/
  | unknownTarget (name target : String)
deriving DecidableEq, Repr

/-- The text of an error. -/
def Error.message : Error → String
  | opcodesExhausted mnemonic needed remaining =>
    s!"opcode space exhausted: {mnemonic} needs {needed} opcodes but only {remaining} remain"
  | arityTooLarge mnemonic arity => s!"{mnemonic} declares arity {arity}, the maximum is {maxArity}"
  | duplicateName name => s!"mnemonic {name} is registered twice"
  | unknownTarget name target => s!"alias {name} refers to unknown mnemonic {target}"

/-- The set without instructions. -/
def empty : InstructionSet := ⟨[], []⟩

/-- The number of opcodes that the instructions own. -/
def used (s : InstructionSet) : Nat := s.instructions.foldr (fun i n => i.size + n) 0

/-- The instruction with a given mnemonic or alias. -/
def lookup (s : InstructionSet) (name : String) : Option Instruction :=
  (s.instructions.find? fun i => i.mnemonic == name).or (s.aliases.lookup name)

/-- The first instruction that performs a given operation. -/
def forOperation (s : InstructionSet) (o : Operation) : Option Instruction :=
  s.instructions.find? fun i => i.operation == o

/-- The form that an opcode stands for, if an instruction owns it. -/
def decode (s : InstructionSet) (b : UInt8) : Option Form :=
  (s.instructions.find? fun i => i.owns b).map fun i => ⟨i, b - i.base⟩

/-- Gives a definition the next free opcodes.  Its arity is checked first, then the space left, then
its mnemonic. -/
def add (s : InstructionSet) (d : Definition) : Except Error InstructionSet :=
  if maxArity < d.arity then
    .error (.arityTooLarge d.mnemonic d.arity)
  else if opcodeCount - s.used < d.size then
    .error (.opcodesExhausted d.mnemonic d.size (opcodeCount - s.used))
  else if (s.lookup d.mnemonic).isSome then
    .error (.duplicateName d.mnemonic)
  else
    .ok { s with instructions := s.instructions ++ [{ d with base := UInt8.ofNat s.used }] }

/-- Makes `name` stand for the instruction that is called `target`. -/
def addAlias (s : InstructionSet) (name target : String) : Except Error InstructionSet :=
  match s.lookup target with
  | none => .error (.unknownTarget name target)
  | some i =>
    if (s.lookup name).isSome then .error (.duplicateName name)
    else .ok { s with aliases := s.aliases ++ [(name, i)] }

/-- **The instruction set of some definitions and aliases**: all definitions in order, then all
aliases in order, up to the first fault. -/
def build (definitions : List Definition) (aliases : List (String × String)) :
    Except Error InstructionSet := do
  let s ← definitions.foldlM add empty
  aliases.foldlM (fun s a => s.addAlias a.1 a.2) s

end InstructionSet

end Protocell
