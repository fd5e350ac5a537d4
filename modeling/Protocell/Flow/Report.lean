import Protocell.Flow.Block
import Protocell.Json.Decode
import Protocell.Listing

/-!
# Flow/Report — an analysis as text and as JSON

A report lists the banks, the blocks with their instructions, and all edges but those that fall
through.  The instructions of a block are those lines of the listing of its bank, cut off where the
block stops, that start at or behind the start of the block.
-/

namespace Protocell.Flow

/-- The name of a kind of edge in text. -/
def EdgeKind.title : EdgeKind → String
  | fallthrough => "Fallthrough"
  | jump => "Jump"
  | condJump => "CondJump"
  | call => "Call"
  | dataRef => "DataRef"

/-- The name of a kind of edge in data. -/
def EdgeKind.name : EdgeKind → String
  | fallthrough => "fallthrough"
  | jump => "jump"
  | condJump => "cond_jump"
  | call => "call"
  | dataRef => "data_ref"

/-- A location as text. -/
def Location.text (l : Location) : String :=
  toString l.bank.toNat ++ ":" ++ String.ofList (Text.lowerHex l.offset)

/-- A location as JSON. -/
def Location.toJson (l : Location) : Json :=
  .record [("bank", .ofByte l.bank), ("offset", .ofByte l.offset)]

/-- An edge as text. -/
def Edge.text (e : Edge) : String :=
  e.source.text ++ " -> " ++ e.target.text ++ " (" ++ e.kind.title ++ ")"

/-- An edge as JSON. -/
def Edge.toJson (e : Edge) : Json :=
  .record [("from", e.source.toJson), ("to", e.target.toJson), ("kind", .ofText e.kind.name)]

/-- A line of a listing with its offset in front. -/
def lineText (l : ListingLine) : String :=
  String.ofList (Text.lowerHex l.offset) ++ ": " ++ l.text

/-- The instructions of a block as text. -/
def Block.instructions (s : InstructionSet) (p : Program) (b : Block) : List String :=
  match p.get? b.bank with
  | none => []
  | some bytes =>
    ((listing s (bytes.take b.stop)).filter fun l => b.start ≤ l.offset).map lineText

/-- What is told of an analysis. -/
structure Report where
  entry : UInt8
  banks : List UInt8
  missing : List UInt8
  /-- The number of decoded locations. -/
  count : Nat
  /-- The blocks with their instructions. -/
  blocks : List (Block × List String)
  /-- The edges that do not fall through. -/
  edges : List Edge
  dynamic : List Location

/-- The report of an analysis. -/
def Analysis.report (a : Analysis) (s : InstructionSet) (p : Program) (entry : UInt8) : Report :=
  { entry
    banks := a.banks.members
    missing := a.missing.members
    count := a.decoded.length
    blocks := a.blocks.map fun b => (b, b.instructions s p)
    edges := a.edges.toList.filter fun e => e.kind != .fallthrough
    dynamic := a.dynamic.members }

namespace Report

/-- A block as JSON. -/
def blockJson (b : Block × List String) : Json :=
  .record [("bank", .ofByte b.1.bank), ("start", .ofByte b.1.start), ("end", .ofNat b.1.stop),
    ("insns", .arr (b.2.map Json.ofText))]

/-- A report as JSON. -/
def toJson (r : Report) : Json :=
  .record [("entry", .ofByte r.entry), ("banks", .ofBytes r.banks),
    ("missing_banks", .ofBytes r.missing), ("blocks", .arr (r.blocks.map blockJson)),
    ("edges", .arr (r.edges.map Edge.toJson)), ("dynamic", .arr (r.dynamic.map Location.toJson))]

/-- A list of bank numbers as text. -/
def bytesText (bs : List UInt8) : String :=
  "[" ++ ", ".intercalate (bs.map fun b => toString b.toNat) ++ "]"

/-- The lines of a block. -/
def blockLines (b : Block × List String) : List String :=
  ("bank " ++ toString b.1.bank.toNat ++
      " <loc_" ++ String.ofList (Text.lowerHex b.1.start) ++ ">:")
    :: b.2.map fun i => "  " ++ i

/-- The lines of a report, with its blocks if asked for. -/
def lines (r : Report) (withBlocks : Bool) : List String :=
  ["Analysis summary:",
    "  entry     : bank " ++ toString r.entry.toNat,
    "  banks     : " ++ bytesText r.banks,
    "  missing   : " ++ bytesText r.missing,
    "  insts     : " ++ toString r.count,
    "  blocks    : " ++ toString r.blocks.length,
    "  dynamic   : " ++ toString r.dynamic.length,
    "Edges:"] ++
  r.edges.map (fun e => "  " ++ e.text) ++
  if withBlocks then ["", "Listing (analyzed blocks):"] ++ r.blocks.flatMap blockLines else []

/-- A report as text. -/
def text (r : Report) (withBlocks : Bool) : String :=
  String.join ((r.lines withBlocks).map (· ++ "\n"))

end Report

end Protocell.Flow
