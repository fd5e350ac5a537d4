import Protocell.Operation

/-!
# Operation/Arithmetic — operations that only compute

Arithmetic is modulo 256, shifts and rotations count modulo eight, and dividing by zero gives zero.
The left operand of a binary operation is slot 1 and the right operand slot 0, so `PUSH 5 PUSH 2
SUB` leaves 3.
-/

namespace Protocell

/-- One for true and zero for false. -/
def flagByte (b : Bool) : UInt8 := if b then 1 else 0

/-- `v` with its bits turned to the left. -/
def rotateLeft (v n : UInt8) : UInt8 := v <<< n ||| v >>> (8 - n)

/-- `v` with its bits turned to the right. -/
def rotateRight (v n : UInt8) : UInt8 := v >>> n ||| v <<< (8 - n)

/-- **The byte an operation makes of slots 0 and 1**, if all it does is to push a byte that depends
on nothing else. -/
def Operation.result? (o : Operation) (x y : UInt8) : Option UInt8 :=
  match o with
  | .push => some x
  | .inc => some (x + 1)
  | .dec => some (x - 1)
  | .neg => some (-x)
  | .not => some (~~~x)
  | .and => some (y &&& x)
  | .or => some (y ||| x)
  | .xor => some (y ^^^ x)
  | .add => some (y + x)
  | .sub => some (y - x)
  | .mul => some (y * x)
  | .div => some (y / x)
  | .lsft => some (y <<< x)
  | .rsft => some (y >>> x)
  | .llop => some (rotateLeft y x)
  | .rlop => some (rotateRight y x)
  | .equl => some (flagByte (y == x))
  | .grt => some (flagByte (x < y))
  | .lst => some (flagByte (y < x))
  | _ => none

end Protocell
