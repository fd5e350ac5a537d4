/-!
# Operation — what an instruction does, by name

The kinds of work a cell's processor knows.  An instruction set decides which of them get opcodes,
under which mnemonics and at which price; the operation alone decides the effect
(`Operation.action`).
-/

namespace Protocell

/-- The operations, in the order of their arities. -/
inductive Operation
  /-- Does nothing. -/
  | nop
  /-- Drops the top operand. -/
  | pop
  /-- Repeats the top operand. -/
  | peek
  /-- Leaves the frame. -/
  | rtn
  /-- Pushes the high byte of the energy left. -/
  | echk
  /-- Reads a number. -/
  | inpb
  /-- Reads a character. -/
  | inpc
  /-- Pushes its argument. -/
  | push
  /-- Repeats the operand that lies so deep. -/
  | copy
  /-- Loads a byte of the active bank. -/
  | llod
  /-- Goes on at an offset. -/
  | jump
  /-- Enters a bank in a new frame. -/
  | call
  /-- Adds one. -/
  | inc
  /-- Takes one away. -/
  | dec
  /-- Changes the sign. -/
  | neg
  /-- Turns all bits over. -/
  | not
  /-- Idles for so many steps. -/
  | slp
  /-- Senses what is there. -/
  | scan
  /-- Senses a link. -/
  | lchk
  /-- Makes a link. -/
  | link
  /-- Senses a message. -/
  | mchk
  /-- Takes a message. -/
  | mget
  /-- Makes a copy of the cell. -/
  | dup
  /-- Writes a number. -/
  | outb
  /-- Writes a character. -/
  | outc
  /-- Stores at an offset of the active bank. -/
  | lsto
  /-- Goes on at an offset unless its first argument is zero. -/
  | jpif
  /-- Bitwise and. -/
  | and
  /-- Bitwise or. -/
  | or
  /-- Bitwise exclusive or. -/
  | xor
  /-- Sum. -/
  | add
  /-- Difference. -/
  | sub
  /-- Product. -/
  | mul
  /-- Quotient. -/
  | div
  /-- Shift to the left. -/
  | lsft
  /-- Rotation to the left. -/
  | llop
  /-- Shift to the right. -/
  | rsft
  /-- Rotation to the right. -/
  | rlop
  /-- Whether the operands are equal. -/
  | equl
  /-- Whether the left operand is greater. -/
  | grt
  /-- Whether the left operand is less. -/
  | lst
  /-- Hands energy on. -/
  | egiv
  /-- Moves. -/
  | jet
  /-- Sends a message. -/
  | msnd
  /-- Loads a byte of any bank. -/
  | rlod
  /-- Stores at an offset of any bank. -/
  | rsto
deriving DecidableEq, Repr

namespace Operation

/-- All operations, in order. -/
def all : List Operation :=
  [nop, pop, peek, rtn, echk, inpb, inpc, push, copy, llod, jump, call, inc, dec, neg, not, slp,
    scan, lchk, link, mchk, mget, dup, outb, outc, lsto, jpif, and, or, xor, add, sub, mul, div,
    lsft, llop, rsft, rlop, equl, grt, lst, egiv, jet, msnd, rlod, rsto]

/-- The name of an operation in stored data: its letters with a capital first. -/
def name : Operation → String
  | nop => "Nop" | pop => "Pop" | peek => "Peek" | rtn => "Rtn" | echk => "Echk"
  | inpb => "Inpb" | inpc => "Inpc" | push => "Push" | copy => "Copy" | llod => "Llod"
  | jump => "Jump" | call => "Call" | inc => "Inc" | dec => "Dec" | neg => "Neg" | not => "Not"
  | slp => "Slp" | scan => "Scan" | lchk => "Lchk" | link => "Link" | mchk => "Mchk"
  | mget => "Mget" | dup => "Dup" | outb => "Outb" | outc => "Outc" | lsto => "Lsto"
  | jpif => "Jpif" | and => "And" | or => "Or" | xor => "Xor" | add => "Add" | sub => "Sub"
  | mul => "Mul" | div => "Div" | lsft => "Lsft" | llop => "Llop" | rsft => "Rsft"
  | rlop => "Rlop" | equl => "Equl" | grt => "Grt" | lst => "Lst" | egiv => "Egiv"
  | jet => "Jet" | msnd => "Msnd" | rlod => "Rlod" | rsto => "Rsto"

/-- The operation with a given name. -/
def ofName? (s : String) : Option Operation := all.find? fun o => o.name == s

theorem ofName?_name (o : Operation) : ofName? o.name = some o := by cases o <;> decide

/-- The number of arguments an operation reads. -/
def arity : Operation → Nat
  | nop | pop | peek | rtn | echk | inpb | inpc => 0
  | push | copy | llod | jump | call | inc | dec | neg | not | slp | scan | lchk | link | mchk
  | mget | dup | outb | outc => 1
  | lsto | jpif | and | or | xor | add | sub | mul | div | lsft | llop | rsft | rlop | equl | grt
  | lst | egiv | jet | msnd | rlod => 2
  | rsto => 3

end Operation

/-- How a byte passes between a cell and the outside. -/
inductive IoFormat
  /-- As a number in decimal. -/
  | byte
  /-- As a raw character code. -/
  | char
deriving DecidableEq, Repr

namespace IoFormat

/-- The name of a format in stored data. -/
def name : IoFormat → String
  | byte => "Byte"
  | char => "Char"

/-- The format with a given name. -/
def ofName? (s : String) : Option IoFormat := [byte, char].find? fun f => f.name == s

theorem ofName?_name (f : IoFormat) : ofName? f.name = some f := by cases f <;> decide

end IoFormat

end Protocell
