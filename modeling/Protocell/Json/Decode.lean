import Protocell.Json.Basic
import Protocell.Json.Text

/-!
# Json/Decode — between JSON and data

A record is written as an object.  It is read from an object, where unknown fields are passed over
and no known one may stand twice, or from a list of its fields in order.

This is what `serde` documents for derived records: fields are written in the order in which they
are declared and read in any (`record`, `fields?`); keys are compared after their escapes are
undone; null is no value but of an optional field (`orNull?`); and a field of a record that has
defaults may be missing (`orElse?`).  A name of an enumeration is a text, or an object that gives
null to it (`name?`).  An integer is a number of digits alone that is within its bounds (`nat?`): a
fraction, an exponent or a minus sign makes it another kind of number, whatever its value.
-/

namespace Protocell.Json

/-- A number. -/
def ofNat (n : Nat) : Json := .num (Text.decimal n)

/-- A byte. -/
def ofByte (b : UInt8) : Json := ofNat b.toNat

/-- A text. -/
def ofText (s : String) : Json := .str (encodeBody s.toList)

/-- A list of bytes. -/
def ofBytes (bs : List UInt8) : Json := .arr (bs.map ofByte)

/-- A record with named fields. -/
def record (fields : List (String × Json)) : Json :=
  .obj (fields.map fun f => (encodeBody f.1.toList, f.2))

/-- The number below `bound` that a value is. -/
def nat? (bound : Nat) : Json → Option Nat
  | .num literal =>
    if literal.all Char.isDigit && Text.decimalNumber literal < bound then
      some (Text.decimalNumber literal)
    else none
  | _ => none

/-- The byte that a value is. -/
def byte? (v : Json) : Option UInt8 := (v.nat? 256).map UInt8.ofNat

/-- The truth value that a value is. -/
def bool? : Json → Option Bool
  | .bool b => some b
  | _ => none

/-- The text that a value is. -/
def text? : Json → Option String
  | .str body => (decodeBody? body).map String.ofList
  | _ => none

/-- The items of a value that is a list. -/
def items? : Json → Option (List Json)
  | .arr items => some items
  | _ => none

/-- The list of bytes that a value is. -/
def bytes? (v : Json) : Option (List UInt8) := v.items? >>= fun items => items.mapM byte?

/-- What a value is, or nothing for null. -/
def orNull? (read : Json → Option α) : Json → Option (Option α)
  | .null => some none
  | v => (read v).map some

/-- The value of a field among others: nothing in it if it is missing, and nothing at all if it
stands there twice. -/
def field? (fields : List (String × Json)) (name : String) : Option (Option Json) :=
  match fields.filter fun f => f.1 == name with
  | [] => some none
  | [f] => some (some f.2)
  | _ => none

/-- **The values of named fields**, as far as they are there. -/
def fields? (names : List String) : Json → Option (List (Option Json))
  | .obj fields => do
    let fields ← fields.mapM fun f => (decodeBody? f.1).map fun k => (String.ofList k, f.2)
    names.mapM (field? fields)
  | .arr items =>
    if names.length < items.length then none
    else some (items.map some ++ List.replicate (names.length - items.length) none)
  | _ => none

/-- What a field is, if it is there, and a default value if not. -/
def orElse? (read : Json → Option α) (fallback : α) : Option Json → Option α
  | some v => read v
  | none => some fallback

/-- The name that a value of an enumeration is written as: a text, or an object that gives null to
the name. -/
def name? : Json → Option String
  | .obj [(k, .null)] => (decodeBody? k).map String.ofList
  | v => v.text?

end Protocell.Json
