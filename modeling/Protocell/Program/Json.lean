import Protocell.Json.Decode
import Protocell.Json.Parser
import Protocell.Program.Basic

/-!
# Program/Json — programs as JSON

A program is a record with the list of its 256 slots, each null or a list of bytes.  Reading takes
a shorter list too, and refuses what would make no program.  A value is judged as soon as it is
complete: what is refused is refused, whatever stands behind it.
-/

namespace Protocell.Program

/-- Why a text is no program. -/
inductive WireError
  /-- It is no JSON text, or not one of this form. -/
  | unreadable
  /-- It has the form, but breaks a limit. -/
  | refused (e : Error)
deriving DecidableEq, Repr

/-- All slots in order. -/
def slotList (p : Program) : List (Option (List UInt8)) := allBytes.map p.get?

/-- A program as JSON. -/
def toJson (p : Program) : Json :=
  .record [("banks", .arr (p.slotList.map fun b => b.elim .null Json.ofBytes))]

/-- A program as JSON text. -/
def toJsonText (p : Program) : String := String.ofList p.toJson.compact

/-- The slots that a value lists. -/
def slotsOfJson? (v : Json) : Option (List (Option (List UInt8))) := do
  let [some banks] ← v.fields? ["banks"] | none
  let items ← banks.items?
  items.mapM (Json.orNull? Json.bytes?)

/-- The program of the slots that a value lists. -/
def ofJson (v : Json) : Except WireError Program :=
  match slotsOfJson? v with
  | none => .error .unreadable
  | some slots => (ofSlots slots).mapError .refused

/-- **Reads a program from JSON text**: one value and nothing besides. -/
def ofJsonText (text : String) : Except WireError Program :=
  match Json.first? text.toList with
  | none => .error .unreadable
  | some (v, rest) => do
    let p ← ofJson v
    if rest.isEmpty then return p else throw .unreadable

end Protocell.Program
