import Protocell.Flow.Location
import Protocell.InstructionSet.Basic
import Protocell.Program.Basic

/-!
# Flow/Analysis — where execution can go

The analysis starts at offset 0 of an entry bank and follows what stands in the code as a literal:
targets of jumps and banks of calls.  Locations are taken first come, first served, and each is
decoded once; those without a stored byte are visited but not decoded.  A budget bounds how many
locations are decoded.

Falling through to a location that is visited already is not entered as an edge.
-/

namespace Protocell.Flow

/-- How control or data passes from one location to another. -/
inductive EdgeKind
  /-- On to the next instruction. -/
  | fallthrough
  /-- By an unconditional jump. -/
  | jump
  /-- By a conditional jump. -/
  | condJump
  /-- Into the bank of a call. -/
  | call
  /-- To data in a bank named by a load or store. -/
  | dataRef
deriving DecidableEq, Repr

/-- A passage between two locations. -/
structure Edge where
  source : Location
  target : Location
  kind : EdgeKind
deriving DecidableEq, Repr

/-- What the analysis of a program has found. -/
structure Analysis where
  visited : LocationSet := .empty
  /-- The encoded width at every decoded location. -/
  widths : LocationTable (Option Nat) := .fill none
  /-- The edges in the order of their discovery. -/
  edges : Array Edge := #[]
  returns : LocationSet := .empty
  /-- Jumps and calls whose target comes off the stack. -/
  dynamic : LocationSet := .empty
  /-- The entry bank and the banks of calls, as far as present. -/
  banks : ByteSet := .empty
  /-- The entry bank and the banks of calls, as far as absent. -/
  missing : ByteSet := .empty

namespace Analysis

/-- The decoded locations with their widths, bank by bank. -/
def decoded (a : Analysis) : List (Location × Nat) :=
  allLocations.filterMap fun l => (a.widths.get l).map fun w => (l, w)

end Analysis

/-- The byte `n` places behind a location as an operand: zero where the program stores none. -/
def operandAt (p : Program) (l : Location) (n : Nat) : UInt8 :=
  ((l.advance n).bind fun l => p.byteAt? l.bank l.offset).getD 0

/-- The values of argument slots as far as they stand in the code, where the first literal is `n`
places behind the opcode. -/
def slotValues (p : Program) (l : Location) (n : Nat) : List Bool → List (Option UInt8)
  | [] => []
  | true :: slots => some (operandAt p l n) :: slotValues p l (n + 1) slots
  | false :: slots => none :: slotValues p l n slots

/-- An analysis on its way: what is found and where to look next. -/
structure Search where
  found : Analysis := {}
  queue : List Location := []

namespace Search

/-- Enters an edge. -/
def addEdge (x : Search) (source target : Location) (kind : EdgeKind) : Search :=
  { x with found := { x.found with edges := x.found.edges.push ⟨source, target, kind⟩ } }

/-- Puts a location at the end of the queue. -/
def enqueue (x : Search) (l : Location) : Search := { x with queue := x.queue ++ [l] }

/-- Marks a location as one whose successor is not in the code. -/
def addDynamic (x : Search) (l : Location) : Search :=
  { x with found := { x.found with dynamic := x.found.dynamic.insert l } }

/-- Goes into a bank at its start, if the program has it. -/
def enterBank (x : Search) (p : Program) (bank : UInt8) : Search :=
  if p.has bank then
    { x with found := { x.found with banks := x.found.banks.insert bank } }.enqueue ⟨bank, 0⟩
  else
    { x with found := { x.found with missing := x.found.missing.insert bank } }

/-- Follows a jump to an offset of the same bank. -/
def branch (x : Search) (l : Location) (kind : EdgeKind) : Option UInt8 → Search
  | some offset =>
    let target := ⟨l.bank, offset⟩
    let x := x.addEdge l target kind
    if x.found.visited.get target then x else x.enqueue target
  | none => x.addDynamic l

/-- Follows a call. -/
def call (x : Search) (p : Program) (l : Location) : Option UInt8 → Search
  | some bank => (x.addEdge l ⟨bank, 0⟩ .call).enterBank p bank
  | none => x.addDynamic l

/-- Notes which data a load or store names. -/
def refer (x : Search) (l : Location) (bank offset : Option UInt8) : Search :=
  match bank with
  | some bank => x.addEdge l ⟨bank, offset.getD 0⟩ .dataRef
  | none => x

/-- Goes on to the next instruction, unless it is visited already or behind offset 255. -/
def fallThrough (x : Search) (l : Location) (width : Nat) : Search :=
  match l.advance width with
  | some next =>
    if x.found.visited.get next then x else (x.addEdge l next .fallthrough).enqueue next
  | none => x

/-- Marks a location as visited. -/
def markVisited (x : Search) (l : Location) : Search :=
  { x with found := { x.found with visited := x.found.visited.insert l } }

/-- Marks a location as decoded. -/
def markDecoded (x : Search) (l : Location) (width : Nat) : Search :=
  { x with found := { x.found with widths := x.found.widths.set l (some width) } }

/-- Marks a location as one that leaves its frame. -/
def markReturn (x : Search) (l : Location) : Search :=
  { x with found := { x.found with returns := x.found.returns.insert l } }

/-- Follows what an operation does next. -/
def follow (x : Search) (p : Program) (l : Location) (f : Form) : Search :=
  let slots := slotValues p l 1 f.slots
  let slot (i : Nat) : Option UInt8 := (slots[i]?).join
  match f.operation with
  | .jump => x.branch l .jump (slot 0)
  | .jpif => (x.branch l .condJump (slot 1)).fallThrough l f.width
  | .call => (x.call p l (slot 0)).fallThrough l f.width
  | .rlod | .rsto => (x.refer l (slot 0) (slot 1)).fallThrough l f.width
  | .rtn => x.markReturn l
  | _ => x.fallThrough l f.width

/-- Decodes the byte at a location and follows it.  A byte that no instruction owns does nothing. -/
def decodeAt (x : Search) (s : InstructionSet) (p : Program) (l : Location) (opcode : UInt8) :
    Search :=
  match s.decode opcode with
  | some f => (x.markDecoded l f.width).follow p l f
  | none => (x.markDecoded l 1).fallThrough l 1

/-- Takes up to `n` locations off the queue, of which up to `budget` are decoded. -/
def explore (s : InstructionSet) (p : Program) : Nat → Nat → Search → Search
  | 0, _, x => x
  | n + 1, budget, x =>
    match x.queue, budget with
    | [], _ => x
    | _ :: _, 0 => x
    | l :: queue, budget + 1 =>
      let x := { x with queue }
      if x.found.visited.get l then
        explore s p n (budget + 1) x
      else
        let x := x.markVisited l
        match p.byteAt? l.bank l.offset with
        | some opcode => explore s p n budget (x.decodeAt s p l opcode)
        | none => explore s p n (budget + 1) x

end Search

/-- How many locations can ever be queued: the entry, and two for each location. -/
def queueBound : Nat := 2 * (256 * 256) + 1

/-- **The analysis of a program** from an entry bank, with a budget of decoded locations. -/
def analyze (s : InstructionSet) (p : Program) (entry : UInt8) (budget : Nat) : Analysis :=
  (Search.explore s p queueBound budget (({} : Search).enterBank p entry)).found

end Protocell.Flow
