import Protocell.Host.Basic
import Protocell.Text.Digits

/-!
# Cell/State — what a cell keeps for its processor

A cell has energy, a queue of input bytes and what it has written.  As a host it charges energy down
to zero and no further, reads and writes in both formats, and has neither senses nor limbs.

A number is read by skipping blanks and then taking digits for as long as there are some; it stops
growing at 255.  It is written in decimal with a line feed behind it.
-/

namespace Protocell

/-- Everything about a cell that its processor can reach. -/
structure CellState where
  energy : UInt16 := 0
  /-- The bytes still to be read, next first. -/
  input : List UInt8 := []
  /-- The bytes written and not yet taken, first to last. -/
  output : Array UInt8 := #[]

namespace CellState

/-- Whether `b` separates numbers: space, tab, line feed, form feed or carriage return. -/
def isSeparator (b : UInt8) : Bool := b == 32 || b == 9 || b == 10 || b == 12 || b == 13

/-- Whether `b` is a decimal digit. -/
def isDigit (b : UInt8) : Bool := 48 ≤ b && b ≤ 57

/-- A number with a digit put behind it, 255 at most. -/
def addDigit (value digit : UInt8) : UInt8 :=
  UInt8.ofNat (min 255 (min 255 (10 * value.toNat) + (digit - 48).toNat))

/-- Takes digits off the front of a queue and puts them behind `value`. -/
def readDigits (value : UInt8) : List UInt8 → UInt8 × List UInt8
  | [] => (value, [])
  | b :: rest => if isDigit b then readDigits (addDigit value b) rest else (value, b :: rest)

/-- Reads a number off the front of a queue; zero where there is none. -/
def readNumber (queue : List UInt8) : UInt8 × List UInt8 :=
  readDigits 0 (queue.dropWhile isSeparator)

/-- Reads a byte off the front of a queue; zero from an empty queue. -/
def readChar : List UInt8 → UInt8 × List UInt8
  | [] => (0, [])
  | b :: rest => (b, rest)

/-- Reads in a format. -/
def read (s : CellState) (f : IoFormat) : UInt8 × CellState :=
  match f with
  | .byte => (readNumber s.input).map id fun input => { s with input }
  | .char => (readChar s.input).map id fun input => { s with input }

/-- The bytes that a value is written as. -/
def encode (value : UInt8) : IoFormat → List UInt8
  | .byte => (Text.decimal value.toNat).map (fun c => UInt8.ofNat c.toNat) ++ [10]
  | .char => [value]

/-- Writes in a format. -/
def write (s : CellState) (value : UInt8) (f : IoFormat) : CellState :=
  { s with output := s.output ++ encode value f }

/-- Queues bytes to be read. -/
def feed (s : CellState) (bytes : List UInt8) : CellState := { s with input := s.input ++ bytes }

/-- Takes away what was written. -/
def takeOutput (s : CellState) : List UInt8 × CellState :=
  (s.output.toList, { s with output := #[] })

/-- Takes energy away, as far as there is any. -/
def spend (s : CellState) (amount : UInt16) : CellState :=
  { s with energy := if s.energy ≤ amount then 0 else s.energy - amount }

/-- A cell as the host of its processor. -/
def host : Host CellState where
  ask
    | .input f, s => s.read f
    | .output v f, s => ((), s.write v f)
    | r, s => (Host.metering CellState.energy fun n s => s.spend n).ask r s

end CellState

end Protocell
