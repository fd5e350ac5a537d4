import Mathlib.Data.List.Basic
import Protocell.Proofs.Opcodes

/-!
# Proofs/Variants — the bits of a variant, counted

Slot `i` of a form is inline if bit `i` of its variant is set.  Where the argument of a slot lies is
a matter of the slots before it: of how many set bits there are below if it is inline, and of how
many clear ones if it is not (`bitCount`).

A decoded variant has no bit above the slots of its instruction (`toNat_variant_lt_of_decode`), so
the literals of a form are as many as its variant has set bits (`literalCount_eq_popCount`).
-/

namespace Protocell

/-- The number of bits of a byte below bit `n` that are set, or clear. -/
def bitCount (b : Bool) (v : UInt8) (n : ℕ) : ℕ :=
  ((List.range n).map fun i => v.toNat.testBit i).count b

/-- The number of set bits of a byte. -/
def popCount (v : UInt8) : ℕ := bitCount true v 8

theorem bitCount_succ (b : Bool) (v : UInt8) (n : ℕ) :
    bitCount b v (n + 1) = bitCount b v n + if v.toNat.testBit n == b then 1 else 0 := by
  rw [bitCount, List.range_succ, List.map_append, List.count_append, List.map_singleton,
    List.count_singleton, bitCount]

/-- Bits above a byte's own are clear. -/
theorem bitCount_add {v : UInt8} {m : ℕ} (h : v.toNat < 2 ^ m) (k : ℕ) :
    bitCount true v (m + k) = bitCount true v m := by
  induction k with
  | zero => rfl
  | succ k ih =>
    have hclear : v.toNat.testBit (m + k) = false :=
      Nat.testBit_lt_two_pow
        (Nat.lt_of_lt_of_le h (Nat.pow_le_pow_right (by decide) (Nat.le_add_right m k)))
    rw [← Nat.add_assoc, bitCount_succ, ih, hclear]
    rfl

/-- **All set bits of a byte are counted** as soon as none lies above. -/
theorem bitCount_eq_popCount {v : UInt8} {n : ℕ} (h : v.toNat < 2 ^ n) :
    bitCount true v n = popCount v := by
  rw [popCount]
  rcases Nat.le_total n 8 with hle | hle
  · obtain ⟨k, hk⟩ := Nat.exists_eq_add_of_le hle
    rw [hk, bitCount_add h]
  · obtain ⟨k, rfl⟩ := Nat.exists_eq_add_of_le hle
    exact bitCount_add v.toNat_lt k

/-- **The slots before a slot are the bits below its own.** -/
theorem Form.count_take_slots {f : Form} {i : ℕ} (hi : i ≤ f.instruction.arity) (b : Bool) :
    (f.slots.take i).count b = bitCount b f.variant i := by
  rw [slots, ← List.map_take, List.take_range, Nat.min_eq_left hi, bitCount]

namespace InstructionSet

variable {s : InstructionSet} {b : UInt8} {f : Form}

/-- **A decoded variant tells the slots of its instruction apart and has no further bit.** -/
theorem toNat_variant_lt_of_decode (h : s.decode b = some f) :
    f.variant.toNat < 2 ^ f.instruction.arity := by
  obtain ⟨i, hfind, rfl⟩ := Option.map_eq_some_iff.mp h
  have howns := List.find?_some hfind
  simp only [Instruction.owns, Bool.and_eq_true, decide_eq_true_eq, Definition.size_eq] at howns
  rw [UInt8.toNat_sub_of_le _ _ (UInt8.le_iff_toNat_le.mpr howns.1)]
  change b.toNat - i.base.toNat < 2 ^ i.arity
  omega

/-- **The literals of a decoded form are as many as its variant has set bits.** -/
theorem literalCount_eq_popCount (h : s.decode b = some f) :
    f.literalCount = popCount f.variant :=
  bitCount_eq_popCount (toNat_variant_lt_of_decode h)

end InstructionSet

end Protocell
