import Protocell.Proofs.Folding.Forest
import Protocell.Text.Digits

/-!
# Proofs/Folding/Applied — the instructions of a row with their arguments

Each instruction of a row takes literals and nested instructions for its arguments, as the forest of
the row says.  Listed in execution order (`applied`) these are the instructions of the row
(`map_instruction_applied`), and if no literal is left over their bytes, one after another, are the
bytes of the row (`fold_eq_flatMap_bytes`).
-/

namespace Protocell.Assembly

/-- **An instruction with the arguments it takes**, slot 0 first: the value of a literal, or nothing
where a nested instruction stands.  Slots behind the last argument found none. -/
structure Applied where
  instruction : Instruction
  arguments : List (Option UInt8)
deriving DecidableEq, Repr

/-- The text of an argument: `$` and two digits for a literal, a low line for anything else. -/
def slotText : Option UInt8 → List Char
  | some v => ' ' :: '$' :: Text.upperHex v
  | none => [' ', '_']

namespace Applied

/-- The opcode whose inline slots are those with a literal. -/
def opcode (a : Applied) : UInt8 := a.instruction.opcode (variantOf a.arguments)

/-- The bytes: the opcode, and behind it the literals. -/
def bytes (a : Applied) : List UInt8 := a.opcode :: a.arguments.reduceOption

/-- What stands in each slot. -/
def slots (a : Applied) : List (Option UInt8) := a.arguments.rightpad a.instruction.arity none

/-- The text: the mnemonic of the instruction, and behind it its slots in order. -/
def text (a : Applied) : String :=
  a.instruction.mnemonic ++ String.ofList (a.slots.flatMap slotText)

end Applied

/-- The instruction that an atom is. -/
def Atom.instruction? : Atom → Option Instruction
  | byte _ => none
  | instruction i => some i

namespace Tree

mutual

/-- The instructions of a tree in execution order. -/
def applied : Tree → List Applied
  | leaf _ => []
  | node i ts => appliedAll ts ++ [⟨i, ts.map literal?⟩]

/-- The instructions of arguments in execution order, those of the highest slot first. -/
def appliedAll : List Tree → List Applied
  | [] => []
  | t :: ts => appliedAll ts ++ applied t

end

theorem mem_appliedAll {ts : List Tree} {a : Applied} :
    a ∈ appliedAll ts ↔ ∃ t ∈ ts, a ∈ t.applied := by
  induction ts with
  | nil => simp [appliedAll]
  | cons t ts ih => rw [appliedAll, List.mem_append, ih, List.exists_mem_cons_iff, or_comm]

/-- Arguments have the instructions of their rows, if each of them does. -/
theorem map_instruction_appliedAll {ts : List Tree}
    (h : ∀ t ∈ ts, t.applied.map Applied.instruction = t.row.filterMap Atom.instruction?) :
    (appliedAll ts).map Applied.instruction = (rows ts).filterMap Atom.instruction? := by
  induction ts with
  | nil => rfl
  | cons t ts ih =>
    obtain ⟨ht, hts⟩ := List.forall_mem_cons.mp h
    rw [appliedAll, rows, List.map_append, List.filterMap_append, ih hts, ht]

/-- The instructions of a tree are those of its row. -/
theorem map_instruction_applied (t : Tree) :
    t.applied.map Applied.instruction = t.row.filterMap Atom.instruction? := by
  induction t with
  | leaf v => rfl
  | node i ts ih =>
    rw [applied, row, List.map_append, List.filterMap_append, map_instruction_appliedAll ih]
    rfl

/-- Arguments that are no leaves are written as the bytes of their instructions, if each of them
is. -/
theorem nested_eq_flatMap_bytes {ts : List Tree}
    (h : ∀ t ∈ ts, t.literal? = none → t.code = t.applied.flatMap Applied.bytes) :
    nested ts = (appliedAll ts).flatMap Applied.bytes := by
  induction ts with
  | nil => rfl
  | cons t ts ih =>
    obtain ⟨ht, hts⟩ := List.forall_mem_cons.mp h
    rw [nested, appliedAll, List.flatMap_append, ih hts]
    congr 1
    cases t with
    | leaf v => rfl
    | node i us => exact ht rfl

/-- **A tree that is no leaf is written as the bytes of its instructions.** -/
theorem code_eq_flatMap_bytes (t : Tree) (ht : t.literal? = none) :
    t.code = t.applied.flatMap Applied.bytes := by
  induction t with
  | leaf v => cases ht
  | node i ts ih =>
    have hliterals : (ts.map literal?).reduceOption = ts.filterMap literal? := List.filterMap_map
    rw [code, applied, List.flatMap_append, nested_eq_flatMap_bytes ih, List.flatMap_singleton,
      Applied.bytes, Applied.opcode, variantOf_map_literal?, hliterals]

end Tree

/-- **The instructions of a row with their arguments**, in execution order. -/
def applied (atoms : List Atom) : List Applied := (Tree.forest atoms).flatMap Tree.applied

/-- The instructions of a row, in order. -/
theorem map_instruction_applied (atoms : List Atom) :
    (applied atoms).map Applied.instruction = atoms.filterMap Atom.instruction? := by
  have hrow := congrArg (List.filterMap Atom.instruction?) (Tree.flatMap_row_forest atoms)
  rw [List.filterMap_flatMap] at hrow
  rw [applied, List.map_flatMap, ← hrow]
  simp only [Tree.map_instruction_applied]

/-- Reading an atom makes no instruction with more arguments than slots. -/
theorem Tree.length_arguments_absorb {stack : List Tree}
    (h : ∀ t ∈ stack, ∀ a ∈ t.applied, a.arguments.length ≤ a.instruction.arity) (atom : Atom) :
    ∀ t ∈ absorb stack atom, ∀ a ∈ t.applied, a.arguments.length ≤ a.instruction.arity := by
  cases atom with
  | byte v => exact List.forall_mem_cons.mpr ⟨fun a ha => absurd ha List.not_mem_nil, h⟩
  | instruction i =>
    refine List.forall_mem_cons.mpr ⟨?_, fun t ht => h t (List.mem_of_mem_drop ht)⟩
    intro a ha
    rcases List.mem_append.mp ha with ha | ha
    · obtain ⟨t, ht, ha⟩ := mem_appliedAll.mp ha
      exact h t (List.mem_of_mem_take ht) a ha
    · obtain rfl := List.mem_singleton.mp ha
      rw [List.length_map]
      exact List.length_take_le _ _

/-- **No instruction of a row takes more arguments than it has slots.** -/
theorem length_arguments_le {atoms : List Atom} {a : Applied} (ha : a ∈ applied atoms) :
    a.arguments.length ≤ a.instruction.arity := by
  have hstack := List.foldlRecOn atoms Tree.absorb
    (motive := fun stack => ∀ t ∈ stack, ∀ a ∈ t.applied, a.arguments.length ≤ a.instruction.arity)
    (fun t ht => absurd ht List.not_mem_nil)
    fun stack h atom _ => Tree.length_arguments_absorb h atom
  obtain ⟨t, ht, ha⟩ := List.mem_flatMap.mp ha
  exact hstack t (List.mem_reverse.mp ht) a ha

/-- **If every literal of a row is taken, the bytes of the row are those of its instructions.** -/
theorem fold_eq_flatMap_bytes {atoms : List Atom}
    (h : ∀ p ∈ atoms.foldl place [], ∀ v, p.emission ≠ .raw v) :
    fold atoms = (applied atoms).flatMap Applied.bytes := by
  have hplaces := foldl_place atoms []
  rw [List.flatMap_nil] at hplaces
  have hnode : ∀ t ∈ Tree.forest atoms, t.literal? = none := by
    intro t ht
    cases t with
    | node i ts => rfl
    | leaf v =>
      refine absurd rfl (h ⟨1, .raw v⟩ ?_ v)
      rw [hplaces]
      exact List.mem_flatMap.mpr ⟨.leaf v, List.mem_reverse.mp ht, List.mem_cons_self⟩
  rw [fold_eq_flatMap_code, applied, List.flatMap_assoc]
  exact List.flatMap_congr fun t ht => t.code_eq_flatMap_bytes (hnode t ht)

end Protocell.Assembly
