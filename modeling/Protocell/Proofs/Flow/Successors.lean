import Mathlib.Algebra.Ring.Nat
import Mathlib.Data.List.Basic
import Protocell.Flow.Analysis

/-!
# Proofs/Flow/Successors — where a location leads

The successors of a location are read off the code: the target of a jump and the bank of a call
where these are literals, and the next instruction (`successors`).  A location is *open* if a jump
or call there takes its target off the stack (`isOpen`).
-/

namespace Protocell.Flow

/-- The value of slot `i` of the instruction at a location, if it is a literal. -/
def slotAt (p : Program) (l : Location) (f : Form) (i : ℕ) : Option UInt8 :=
  ((slotValues p l 1 f.slots)[i]?).join

/-- Where an instruction at a location leads. -/
def successorsOf (p : Program) (l : Location) (f : Form) : List Location :=
  match f.operation with
  | .jump => ((slotAt p l f 0).map fun o => ⟨l.bank, o⟩).toList
  | .jpif => ((slotAt p l f 1).map fun o => ⟨l.bank, o⟩).toList ++ (l.advance f.width).toList
  | .call =>
    (((slotAt p l f 0).filter p.has).map fun b => ⟨b, 0⟩).toList ++ (l.advance f.width).toList
  | .rtn => []
  | _ => (l.advance f.width).toList

/-- **Where a location leads**, as far as the code tells: nowhere if no byte is stored there, and on
to the next byte if no instruction owns the byte. -/
def successors (s : InstructionSet) (p : Program) (l : Location) : List Location :=
  match p.byteAt? l.bank l.offset with
  | none => []
  | some opcode =>
    match s.decode opcode with
    | some f => successorsOf p l f
    | none => (l.advance 1).toList

/-- Whether an instruction at a location takes its target off the stack. -/
def isOpenAt (p : Program) (l : Location) (f : Form) : Bool :=
  match f.operation with
  | .jump | .call => (slotAt p l f 0).isNone
  | .jpif => (slotAt p l f 1).isNone
  | _ => false

/-- **Whether a location leads somewhere that the code does not tell.** -/
def isOpen (s : InstructionSet) (p : Program) (l : Location) : Bool :=
  ((p.byteAt? l.bank l.offset).bind s.decode).any fun f => isOpenAt p l f

theorem advance_bank {l m : Location} {n : ℕ} (h : l.advance n = some m) : m.bank = l.bank := by
  rw [Location.advance] at h
  split at h
  · rw [← Option.some.inj h]
  · cases h

theorem bank_of_mem_advance {l m : Location} {n : ℕ} (h : m ∈ (l.advance n).toList) :
    m.bank = l.bank := advance_bank (Option.mem_toList.mp h)

/-- **Only a call leads to another bank**, to one that the program has. -/
theorem mem_successorsOf {p : Program} {l m : Location} {f : Form} (h : m ∈ successorsOf p l f) :
    m.bank = l.bank ∨
      f.operation = .call ∧ slotAt p l f 0 = some m.bank ∧ p.has m.bank = true := by
  have hbranch {target : Option UInt8}
      (h : m ∈ (target.map fun o => (⟨l.bank, o⟩ : Location)).toList) : m.bank = l.bank := by
    obtain ⟨o, -, rfl⟩ := Option.map_eq_some_iff.mp (Option.mem_toList.mp h)
    rfl
  rw [successorsOf] at h
  split at h
  · exact .inl (hbranch h)
  · rcases List.mem_append.mp h with h | h
    · exact .inl (hbranch h)
    · exact .inl (bank_of_mem_advance h)
  · rename_i hcall
    rcases List.mem_append.mp h with h | h
    · obtain ⟨b, hb, rfl⟩ := Option.map_eq_some_iff.mp (Option.mem_toList.mp h)
      exact .inr ⟨hcall, Option.filter_eq_some_iff.mp hb⟩
    · exact .inl (bank_of_mem_advance h)
  · cases h
  · exact .inl (bank_of_mem_advance h)

/-- An instruction that is no jump, call or return leads to the next one. -/
theorem successorsOf_of_stays (p : Program) (l : Location) {f : Form} (hjump : f.operation ≠ .jump)
    (hjpif : f.operation ≠ .jpif) (hcall : f.operation ≠ .call) (hrtn : f.operation ≠ .rtn) :
    successorsOf p l f = (l.advance f.width).toList := by
  rw [successorsOf]
  split
  · exact absurd ‹_› hjump
  · exact absurd ‹_› hjpif
  · exact absurd ‹_› hcall
  · exact absurd ‹_› hrtn
  · rfl

end Protocell.Flow
