import Protocell.Instruction

/-!
# Assembly/Fold — binding arguments

The code of a bank is a row of atoms in execution order: arguments first, then the instruction that
takes them.  Folding fills the slots of each instruction from the atoms right before it, nearest
first.  A literal there moves behind the opcode and sets the slot's variant bit.  A nested
instruction leaves its slot to the stack, and the search goes on before everything which that
instruction takes.

Each atom becomes one byte, so places in the row are offsets in the bank.
-/

namespace Protocell.Assembly

/-- An element of code whose names are resolved. -/
inductive Atom
  | byte (v : UInt8)
  | instruction (i : Instruction)
deriving DecidableEq, Repr

/-- What an atom contributes to the bytes of its bank. -/
inductive Emission
  /-- A literal that no instruction has taken. -/
  | raw (v : UInt8)
  /-- Nothing: the literal stands behind the opcode of the instruction that took it. -/
  | folded
  /-- An opcode and the literals that its instruction has taken. -/
  | encoded (opcode : UInt8) (literals : List UInt8)
deriving DecidableEq, Repr

/-- The bytes of an emission. -/
def Emission.bytes : Emission → List UInt8
  | raw v => [v]
  | folded => []
  | encoded opcode literals => opcode :: literals

/-- An atom in its place: what it emits, and how many atoms the expression that ends with it has. -/
structure Placed where
  span : Nat
  emission : Emission
deriving DecidableEq, Repr

/-- What a search for arguments has found. -/
structure Gathered where
  /-- For each slot that something was found for, the literal or nothing for a nested
  instruction. -/
  arguments : List (Option UInt8)
  /-- The number of atoms passed. -/
  span : Nat
  /-- The atoms in their places, the last one first, less the literals taken. -/
  back : List Placed

/-- Looks for `n` arguments among the atoms in their places, of which the last comes first. -/
def gather : Nat → List Placed → Gathered
  | 0, back => ⟨[], 0, back⟩
  | _ + 1, [] => ⟨[], 0, []⟩
  | n + 1, p :: back =>
    match p.emission with
    | .raw v =>
      let g := gather n back
      ⟨some v :: g.arguments, p.span + g.span, { p with emission := .folded } :: g.back⟩
    | _ =>
      let g := gather n (back.drop (p.span - 1))
      ⟨none :: g.arguments, p.span + g.span, p :: back.take (p.span - 1) ++ g.back⟩

/-- The number whose bit `i` is the `i`-th truth value. -/
def bitsToNat : List Bool → Nat
  | [] => 0
  | b :: bs => b.toNat + 2 * bitsToNat bs

/-- The variant in which exactly the slots with a literal are inline. -/
def variantOf (arguments : List (Option UInt8)) : UInt8 :=
  UInt8.ofNat (bitsToNat (arguments.map Option.isSome))

/-- Puts an atom in its place behind others, of which the last comes first. -/
def place (back : List Placed) : Atom → List Placed
  | .byte v => ⟨1, .raw v⟩ :: back
  | .instruction i =>
    let g := gather i.arity back
    ⟨1 + g.span, .encoded (i.opcode (variantOf g.arguments)) g.arguments.reduceOption⟩ :: g.back

/-- **The bytes of a row of atoms.** -/
def fold (atoms : List Atom) : List UInt8 :=
  (atoms.foldl place []).reverse.flatMap fun p => p.emission.bytes

end Protocell.Assembly
