import Protocell.Operation

/-!
# Instruction — an operation with its opcodes

An instruction of arity `n` owns `2 ^ n` consecutive opcodes.  The distance of an opcode from the
first of them is the *variant*: its bit `i` says whether argument slot `i` is an inline literal
behind the opcode or comes off the stack.
-/

namespace Protocell

/-- The number of distinct opcodes. -/
def opcodeCount : Nat := 256

/-- The largest arity an instruction may have: four slots already take sixteen opcodes. -/
def maxArity : Nat := 4

/-- An instruction as it is asked for, before it owns opcodes. -/
structure Definition where
  operation : Operation
  mnemonic : String
  arity : Nat
  /-- Energy charged for each execution on a metered processor. -/
  cost : UInt16
deriving DecidableEq, Repr

/-- The number of opcodes a definition takes. -/
def Definition.size (d : Definition) : Nat := 1 <<< d.arity

/-- An instruction that owns the opcodes from `base` on. -/
structure Instruction extends Definition where
  base : UInt8
deriving DecidableEq, Repr

namespace Instruction

/-- The opcode of the instruction in a given variant; bits above the arity do not count. -/
def opcode (i : Instruction) (variant : UInt8) : UInt8 :=
  i.base + (variant &&& UInt8.ofNat (i.size - 1))

/-- Whether `b` is one of the instruction's opcodes. -/
def owns (i : Instruction) (b : UInt8) : Bool :=
  i.base.toNat ≤ b.toNat && b.toNat < i.base.toNat + i.size

end Instruction

/-- **A decoded opcode**: an instruction and the variant that tells its slots apart. -/
structure Form where
  instruction : Instruction
  variant : UInt8
deriving DecidableEq, Repr

namespace Form

/-- The operation of the form. -/
def operation (f : Form) : Operation := f.instruction.operation

/-- For each argument slot, whether it is an inline literal. -/
def slots (f : Form) : List Bool :=
  (List.range f.instruction.arity).map fun i => f.variant.toNat.testBit i

/-- The number of literals behind the opcode. -/
def literalCount (f : Form) : Nat := f.slots.count true

/-- The number of bytes the form takes, opcode and literals. -/
def width (f : Form) : Nat := 1 + f.literalCount

theorem length_slots (f : Form) : f.slots.length = f.instruction.arity := by simp [slots]

theorem literalCount_le (f : Form) : f.literalCount ≤ f.instruction.arity := by
  simpa [literalCount, length_slots] using List.count_le_length (a := true) (l := f.slots)

end Form

end Protocell
