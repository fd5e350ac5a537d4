import Protocell.Json.Decode
import Protocell.Machine.Basic
import Protocell.Text.Blank
import Protocell.Text.Pieces

/-!
# Machine/Snapshot — the visible state of a machine as data

A snapshot holds the registers, the live stack and which banks are present.  Its status is a byte of
flags, which has a text.

The text is the one that `bitflags` documents.  It is written as the names of the flags that are
set, in the order in which they are declared and with ` | ` between them; bits without a name are
written together at the end, as `0x` and a hexadecimal number, and no bits at all as the empty text
(`Status.text`).  It is read part by part between the bars, in any order and with blanks around the
parts: a part is the name of a flag, in just that spelling, or `0x` and a hexadecimal number of a
byte; bits without a name are kept (`Status.parse?`).  An empty part is an error, but a text of
blanks alone has no bits.
-/

namespace Protocell

/-- Flags as a byte. -/
structure Status where
  bits : UInt8
deriving DecidableEq, Repr

namespace Status

/-- The named bits in order. -/
def names : List (UInt8 × String) :=
  [(1, "END_OF_PROGRAM"), (2, "HALTED"), (4, "STACK_OVERFLOW")]

/-- The bits that have names. -/
def namedBits : UInt8 := 7

/-- The part of a status text for the bits without a name. -/
def restText (bits : UInt8) : List (List Char) :=
  if bits = 0 then [] else [['0', 'x'] ++ Nat.toDigits 16 bits.toNat]

/-- The text of a status. -/
def text (s : Status) : List Char :=
  Text.joinWith " | ".toList
    ((names.filter fun n => s.bits &&& n.1 != 0).map (fun n => n.2.toList) ++
      restText (s.bits &&& ~~~namedBits))

/-- The bits that a hexadecimal number gives; a plus sign may stand before it. -/
def hexBits? (digits : List Char) : Option UInt8 :=
  let digits := match digits with
    | '+' :: digits => digits
    | digits => digits
  if !digits.isEmpty && digits.all Text.isHexDigit && Text.hexNumber digits < 256 then
    some (UInt8.ofNat (Text.hexNumber digits))
  else none

/-- The bits that a part of a status text gives. -/
def partBits? (part : List Char) : Option UInt8 :=
  match part with
  | '0' :: 'x' :: digits => hexBits? digits
  | part => (names.find? fun n => n.2.toList == part).map Prod.fst

/-- Reads a status; a blank text has no bits. -/
def parse? (text : List Char) : Option Status :=
  if (Text.trim text).isEmpty then some ⟨0⟩
  else do
    let parts ← (Text.pieces '|' text).mapM fun part => partBits? (Text.trim part)
    return ⟨parts.foldl (· ||| ·) 0⟩

/-- A status as JSON. -/
def toJson (s : Status) : Json := .ofText (String.ofList s.text)

/-- The status that a value is. -/
def ofJson? (v : Json) : Option Status := v.text?.bind fun s => parse? s.toList

end Status

/-- The registers of a machine, its live stack and its banks. -/
structure Snapshot where
  pi : UInt8
  pc : UInt8
  sp : UInt8
  sm : UInt8
  status : Status
  sleep : UInt8
  stack : List UInt8
  residentBanks : List UInt8
deriving DecidableEq, Repr

/-- What can be seen of a machine. -/
def Machine.snapshot (m : Machine) : Snapshot :=
  { pi := m.pi
    pc := m.pc
    sp := m.sp
    sm := m.sm
    status := ⟨m.flags.toByte⟩
    sleep := m.sleep
    stack := m.live
    residentBanks := m.memory.residents }

namespace Snapshot

/-- The names of the fields, in order. -/
def fieldNames : List String :=
  ["pi", "pc", "sp", "sm", "status", "sleep", "stack", "resident_banks"]

/-- A snapshot as JSON. -/
def toJson (s : Snapshot) : Json :=
  .record (fieldNames.zip
    [.ofByte s.pi, .ofByte s.pc, .ofByte s.sp, .ofByte s.sm, s.status.toJson, .ofByte s.sleep,
      .ofBytes s.stack, .ofBytes s.residentBanks])

/-- The snapshot that a value is; no field may be missing. -/
def ofJson? (v : Json) : Option Snapshot := do
  let [some pi, some pc, some sp, some sm, some status, some sleep, some stack, some banks] ←
    v.fields? fieldNames | none
  return {
    pi := ← pi.byte?
    pc := ← pc.byte?
    sp := ← sp.byte?
    sm := ← sm.byte?
    status := ← Status.ofJson? status
    sleep := ← sleep.byte?
    stack := ← stack.bytes?
    residentBanks := ← banks.bytes? }

end Snapshot

end Protocell
