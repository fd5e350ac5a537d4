import Protocell.Memory

/-!
# Machine/Basic — registers, the shared stack and frames

Calls and operands share one stack of bytes.  A call pushes its return offset, its return bank and
the caller's mark, and then marks the new frame at the stack pointer.  Nothing pops or peeks across
the mark, so a callee neither sees nor destroys what its caller left on the stack.

At most 255 bytes are ever on the stack, so that the stack pointer fits in a byte.  A push or a call
that does not fit is dropped, and a sticky flag tells.
-/

namespace Protocell

/-- The conditions a machine can be in. -/
structure Flags where
  /-- The offset ran off the active bank, or the active bank is absent. -/
  ended : Bool := false
  /-- The root frame was left; only a load ends this. -/
  halted : Bool := false
  /-- A push or a call was dropped since the last load. -/
  overflowed : Bool := false
deriving DecidableEq, Repr

namespace Flags

/-- The flags of a machine without a program. -/
def stopped : Flags := { ended := true, halted := true }

/-- The flags as a byte: bit 0 is `ended`, bit 1 `halted`, bit 2 `overflowed`. -/
def toByte (f : Flags) : UInt8 :=
  (if f.ended then 1 else 0) ||| (if f.halted then 2 else 0) ||| (if f.overflowed then 4 else 0)

end Flags

/-- The largest number of bytes on the stack. -/
def stackLimit : UInt8 := 255

/-- The number of bytes that a call pushes. -/
def headerSize : UInt8 := 3

/-- **The state of a processor.**  A new machine has nothing loaded and is halted. -/
structure Machine where
  /-- The active bank. -/
  pi : UInt8 := 0
  /-- The offset of the next byte to fetch. -/
  pc : UInt8 := 0
  /-- The number of bytes on the stack. -/
  sp : UInt8 := 0
  /-- Where the active frame starts. -/
  sm : UInt8 := 0
  flags : Flags := .stopped
  /-- The number of steps left to idle. -/
  sleep : UInt8 := 0
  stack : ByteTable UInt8 := .fill 0
  memory : Memory := .empty
deriving DecidableEq

namespace Machine

/-- A machine at the start of bank 0 of a program; halted if that bank is absent. -/
def load (p : Program) : Machine :=
  { flags := if p.has 0 then {} else .stopped
    memory := .ofProgram p }

/-- The bytes on the stack, bottom first, across all frames. -/
def live (m : Machine) : List UInt8 := m.stack.toList.take m.sp.toNat

/-- The operands of the active frame, bottom first. -/
def frame (m : Machine) : List UInt8 := m.live.drop m.sm.toNat

/-! ## The stack -/

/-- The machine after something was dropped for want of space. -/
def overflow (m : Machine) : Machine := { m with flags := { m.flags with overflowed := true } }

/-- Pushes a byte, unless the stack is full. -/
def push (m : Machine) (v : UInt8) : Machine :=
  if m.sp = stackLimit then m.overflow
  else { m with stack := m.stack.set m.sp v, sp := m.sp + 1 }

/-- Pops a byte off the active frame; an empty frame gives zero. -/
def pop (m : Machine) : UInt8 × Machine :=
  if m.sp ≤ m.sm then (0, { m with sp := m.sm })
  else (m.stack.get (m.sp - 1), { m with sp := m.sp - 1 })

/-- The operand `depth` below the top of the active frame, or zero. -/
def peek (m : Machine) (depth : UInt8) : UInt8 :=
  if m.sp - m.sm ≤ depth then 0 else m.stack.get (m.sp - 1 - depth)

/-- Takes the top byte whatever frame it is in. -/
def popHeader (m : Machine) : UInt8 × Machine :=
  let sp := if m.sp = 0 then 0 else m.sp - 1
  (m.stack.get sp, { m with sp })

/-! ## Where the next byte comes from -/

/-- Goes on at an offset of a bank; the end is reached at once if the bank is absent. -/
def enter (m : Machine) (bank offset : UInt8) : Machine :=
  { m with
    pi := bank
    pc := offset
    flags := { m.flags with ended := !m.memory.resident bank } }

/-- Goes on at an offset of the active bank. -/
def jump (m : Machine) (offset : UInt8) : Machine :=
  { m with pc := offset, flags := { m.flags with ended := false } }

/-- Opens a frame and enters a bank at its start, unless the stack has no room for the frame's
header. -/
def call (m : Machine) (bank : UInt8) : Machine :=
  if stackLimit - m.sp < headerSize then m.overflow
  else
    let framed := ((m.push m.pc).push m.pi).push m.sm
    { framed with sm := framed.sp }.enter bank 0

/-- Leaves the active frame; leaving the root frame halts the machine.  A fetch leaves the offset
above zero unless it wrapped, so a return offset of zero says that the caller had run off its own
bank. -/
def ret (m : Machine) : Machine :=
  if m.sm = 0 then { m with flags := { m.flags with ended := true, halted := true } }
  else
    let (sm, m) := { m with sp := m.sm }.popHeader
    let (pi, m) := m.popHeader
    let (pc, m) := m.popHeader
    let m := { m with sm }.enter pi pc
    if pc = 0 then { m with flags := { m.flags with ended := true } } else m

/-- Leaves frames for as long as the end is reached but the machine not halted, at most `n` of
them. -/
def unwindUpTo : Nat → Machine → Machine
  | 0, m => m
  | n + 1, m => if m.flags.ended && !m.flags.halted then unwindUpTo n m.ret else m

/-- Leaves all frames whose bank has been run off.  Each return lowers the mark, so that the mark
bounds the number of returns. -/
def unwind (m : Machine) : Machine := unwindUpTo (m.sm.toNat + 1) m

/-- Reads the next byte and moves on.  Moving on from offset 255 reaches the end, and past the end
there are only zeros. -/
def fetch (m : Machine) : UInt8 × Machine :=
  if m.flags.ended then (0, m)
  else
    (m.memory.read m.pi m.pc,
      { m with pc := m.pc + 1, flags := { m.flags with ended := m.pc == 255 } })

/-- Idles for the next `n` steps. -/
def doze (m : Machine) (n : UInt8) : Machine := { m with sleep := n }

/-! ## Memory -/

/-- The byte at an offset of a bank. -/
def remoteLoad (m : Machine) (bank offset : UInt8) : UInt8 := m.memory.read bank offset

/-- Stores a byte at an offset of a bank. -/
def remoteStore (m : Machine) (bank offset value : UInt8) : Machine :=
  { m with memory := m.memory.write bank offset value }

/-- The byte at an offset of the active bank. -/
def localLoad (m : Machine) (offset : UInt8) : UInt8 := m.remoteLoad m.pi offset

/-- Stores a byte at an offset of the active bank. -/
def localStore (m : Machine) (offset value : UInt8) : Machine := m.remoteStore m.pi offset value

end Machine

end Protocell
