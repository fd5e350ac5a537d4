import Protocell.InstructionSet.Basic

/-!
# InstructionSet/Describe — an instruction set as one line of text

Lists the instructions with all their fields, in opcode order, and the number of opcodes used.
-/

namespace Protocell

/-- A name between double quotes; quotes and backslashes in it are marked by a backslash. -/
def quoteName (s : String) : String :=
  "\"" ++ String.ofList (s.toList.flatMap fun c => if c = '"' ∨ c = '\\' then ['\\', c] else [c]) ++
    "\""

/-- An instruction as text, all fields in order. -/
def Instruction.describe (i : Instruction) : String :=
  "Instruction \x7b op: " ++ i.operation.name ++ ", mnemonic: " ++ quoteName i.mnemonic ++
    ", arity: " ++ toString i.arity ++ ", cost: " ++ toString i.cost.toNat ++
    ", base_opcode: " ++ toString i.base.toNat ++ " \x7d"

/-- An instruction set as text: its instructions and how many opcodes they use. -/
def InstructionSet.describe (s : InstructionSet) : String :=
  "InstructionRegistry \x7b instructions: [" ++
    ", ".intercalate (s.instructions.map Instruction.describe) ++
    "], opcodes_used: " ++ toString s.used ++ " \x7d"

end Protocell
