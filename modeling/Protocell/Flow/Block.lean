import Protocell.Flow.Analysis

/-!
# Flow/Block — straight-line code

A block starts at a bank entry or at the target of a jump or call and goes on from instruction to
instruction.  It ends with an instruction that does not go on, before one that starts another block,
or before one that is not decoded.
-/

namespace Protocell.Flow

/-- The bytes of a bank from `start` up to, but not including, `stop`. -/
structure Block where
  bank : UInt8
  start : UInt8
  stop : Nat
deriving DecidableEq, Repr

namespace Analysis

/-- The locations that edges of some kinds leave. -/
def sources (a : Analysis) (kinds : EdgeKind → Bool) : LocationSet :=
  .ofList ((a.edges.toList.filter fun e => kinds e.kind).map Edge.source)

/-- The locations that edges of some kinds lead to. -/
def targets (a : Analysis) (kinds : EdgeKind → Bool) : List Location :=
  (a.edges.toList.filter fun e => kinds e.kind).map Edge.target

/-- Where blocks start: at bank entries and where jumps and calls lead. -/
def starts (a : Analysis) : LocationSet :=
  .ofList ((a.banks.members.map fun bank => (⟨bank, 0⟩ : Location)) ++
    a.targets fun k => k != .fallthrough && k != .dataRef)

/-- Where blocks end whatever comes next: where an instruction returns, jumps, or has an unknown
target and no edge that falls through. -/
def ends (a : Analysis) : LocationSet :=
  let jumps := a.sources (· == .jump)
  let falls := a.sources (· == .fallthrough)
  .ofList (allLocations.filter fun l =>
    a.returns.get l || jumps.get l || (a.dynamic.get l && !falls.get l))

/-- Where the block that goes on at `l` stops, if it has at most `n` more instructions. -/
def stopFrom (a : Analysis) (starts ends : LocationSet) : Nat → Location → Option Nat
  | 0, _ => none
  | n + 1, l => do
    let width ← a.widths.get l
    let stop := l.offset.toNat + width
    match l.advance width with
    | none => some stop
    | some next =>
      if ends.get l || (a.widths.get next).isNone || starts.get next then some stop
      else a.stopFrom starts ends n next

/-- **The blocks of the decoded code**, in the order of their starts. -/
def blocks (a : Analysis) : List Block :=
  let starts := a.starts
  let ends := a.ends
  starts.members.filterMap fun l =>
    (a.stopFrom starts ends 256 l).map fun stop => ⟨l.bank, l.offset, stop⟩

end Analysis

end Protocell.Flow
