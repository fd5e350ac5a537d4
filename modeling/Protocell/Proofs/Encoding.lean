import Protocell.Proofs.Opcodes

/-!
# Proofs/Encoding — opcodes and forms correspond

An instruction set is built from definitions in order, each of which takes the next `2 ^ arity`
opcodes.  So the first opcode of an instruction is the sum of the sizes before it
(`TiledFrom.base_eq`), a byte below the total lies in exactly one of the ranges
(`TiledFrom.exists_filter_owns_eq`), and a byte from the total on lies in none.

Together with `decode_opcode` this makes encoding and decoding inverse to each other
(`encodes_of_build`), for every list of definitions and aliases, up to the set that uses all 256
opcodes.
-/

namespace Protocell

namespace Instruction

variable {i : Instruction}

/-- The bits of a byte that tell the slots of an instruction apart. -/
def variant (i : Instruction) (v : UInt8) : UInt8 := UInt8.ofNat (v.toNat % 2 ^ i.arity)

theorem toNat_variant (i : Instruction) (v : UInt8) :
    (i.variant v).toNat = v.toNat % 2 ^ i.arity := by
  rw [variant, UInt8.toNat_ofNat',
    Nat.mod_eq_of_lt (Nat.lt_of_le_of_lt (Nat.mod_le _ _) v.toNat_lt)]

theorem toNat_variant_lt (i : Instruction) (v : UInt8) : (i.variant v).toNat < i.size := by
  rw [toNat_variant, Definition.size_eq]
  exact Nat.mod_lt _ (Nat.two_pow_pos _)

/-- **Bits above the arity do not count in an opcode.** -/
theorem opcode_variant (hroom : i.base.toNat + i.size ≤ opcodeCount) (v : UInt8) :
    i.opcode (i.variant v) = i.opcode v := by
  rw [opcodeCount, Definition.size_eq] at hroom
  have hmask : (UInt8.ofNat (i.size - 1)).toNat = 2 ^ i.arity - 1 := by
    rw [UInt8.toNat_ofNat', Definition.size_eq, Nat.mod_eq_of_lt (by omega)]
  have hand : i.variant v &&& UInt8.ofNat (i.size - 1) = v &&& UInt8.ofNat (i.size - 1) := by
    rw [← UInt8.toNat_inj, UInt8.toNat_and, UInt8.toNat_and, hmask, toNat_variant,
      Nat.and_two_pow_sub_one_eq_mod, Nat.and_two_pow_sub_one_eq_mod, Nat.mod_mod]
  rw [opcode, opcode, hand]

theorem owns_iff {b : UInt8} :
    i.owns b = true ↔ i.base.toNat ≤ b.toNat ∧ b.toNat < i.base.toNat + i.size := by
  simp only [owns, Bool.and_eq_true, decide_eq_true_eq]

end Instruction

namespace InstructionSet

/-! ## Where the ranges of a tiling lie -/

/-- The number of opcodes that instructions own. -/
def total (is : List Instruction) : ℕ := (is.map fun i => i.size).sum

theorem total_cons (i : Instruction) (is : List Instruction) :
    total (i :: is) = i.size + total is := by
  rw [total, List.map_cons, List.sum_cons, total]

theorem used_eq_total (s : InstructionSet) : s.used = total s.instructions := by
  rw [used]
  induction s.instructions with
  | nil => rfl
  | cons i is ih => rw [List.foldr_cons, ih, total_cons]

namespace TiledFrom

variable {n : ℕ} {is : List Instruction} {b : UInt8}

/-- **An instruction begins where those before it end.** -/
theorem base_eq (h : TiledFrom n is) {k : ℕ} {i : Instruction} (hk : is[k]? = some i) :
    i.base.toNat = n + total (is.take k) := by
  induction is generalizing n k with
  | nil => cases hk
  | cons j is ih =>
    cases k with
    | zero =>
      obtain rfl := Option.some.inj hk
      exact h.1
    | succ k =>
      rw [List.getElem?_cons_succ] at hk
      rw [ih h.2 hk, List.take_succ_cons, total_cons, Nat.add_assoc]

/-- All ranges end by the end of the tiling. -/
theorem end_le_total (h : TiledFrom n is) {i : Instruction} (hi : i ∈ is) :
    i.base.toNat + i.size ≤ n + total is := by
  induction is generalizing n with
  | nil => cases hi
  | cons j is ih =>
    rw [total_cons]
    rcases List.mem_cons.mp hi with rfl | hi
    · have hbase := h.1
      omega
    · have hend := ih h.2 hi
      omega

theorem add_total_le (h : TiledFrom n is) : n + total is ≤ opcodeCount := by
  induction is generalizing n with
  | nil => exact h
  | cons i is ih =>
    rw [total_cons, ← Nat.add_assoc]
    exact ih h.2

/-- A byte before a tiling or behind it has no owner. -/
theorem filter_owns_eq_nil (h : TiledFrom n is) (hb : b.toNat < n ∨ n + total is ≤ b.toNat) :
    is.filter (fun i => i.owns b) = [] := by
  refine List.filter_eq_nil_iff.mpr fun i hi howns => ?_
  rw [Instruction.owns_iff] at howns
  have hlow := (h.bounds hi).1
  have hhigh := h.end_le_total hi
  omega

/-- **A byte within a tiling has exactly one owner.** -/
theorem exists_filter_owns_eq (h : TiledFrom n is) (hlow : n ≤ b.toNat)
    (hhigh : b.toNat < n + total is) :
    ∃ i, i.owns b = true ∧ is.filter (fun i => i.owns b) = [i] := by
  induction is generalizing n with
  | nil => exact absurd hhigh (Nat.not_lt.mpr hlow)
  | cons j is ih =>
    obtain ⟨hbase, htail⟩ := h
    rw [total_cons] at hhigh
    by_cases hj : b.toNat < n + j.size
    · have howns : j.owns b = true := Instruction.owns_iff.mpr (by omega)
      refine ⟨j, howns, ?_⟩
      rw [List.filter_cons, if_pos howns, htail.filter_owns_eq_nil (.inl hj)]
    · have howns : ¬ j.owns b = true := fun h => hj (hbase ▸ (Instruction.owns_iff.mp h).2)
      obtain ⟨i, hi, hfilter⟩ := ih htail (Nat.not_lt.mp hj) (by omega)
      refine ⟨i, hi, ?_⟩
      rw [List.filter_cons, if_neg howns, hfilter]

end TiledFrom

/-! ## Encoding and decoding -/

theorem decode_eq_head? (s : InstructionSet) (b : UInt8) :
    s.decode b = (s.instructions.filter fun i => i.owns b).head?.map fun i => ⟨i, b - i.base⟩ := by
  rw [decode, List.head?_filter]

/-- **How an instruction set encodes**, if it was built from the definitions `ds`. -/
structure Encodes (s : InstructionSet) (ds : List Definition) : Prop where
  /-- The instructions are those defined, in the order of their definitions. -/
  definitions_eq : s.instructions.map Instruction.toDefinition = ds
  /-- The first opcodes are the running sums of the sizes. -/
  base_eq : ∀ k i, s.instructions[k]? = some i →
    i.base.toNat = ((ds.take k).map fun d => 2 ^ d.arity).sum
  used_eq : s.used = (ds.map fun d => 2 ^ d.arity).sum
  used_le : s.used ≤ 256
  /-- An opcode is the sum of two numbers, and no carry is lost. -/
  toNat_opcode : ∀ i ∈ s.instructions, ∀ v,
    (i.opcode v).toNat = i.base.toNat + v.toNat % 2 ^ i.arity
  /-- An opcode decodes to what it was made of, as far as that counts. -/
  decode_opcode : ∀ i ∈ s.instructions, ∀ v, s.decode (i.opcode v) = some ⟨i, i.variant v⟩
  /-- An opcode in use has one owner, and is the opcode of what it decodes to. -/
  owned : ∀ b : UInt8, b.toNat < s.used → ∃ f, s.decode b = some f ∧
    s.instructions.filter (fun i => i.owns b) = [f.instruction] ∧
    f.instruction.opcode f.variant = b
  /-- An opcode that is not in use decodes to nothing. -/
  free : ∀ b : UInt8, s.used ≤ b.toNat → s.decode b = none

/-- The opcode of an owner in the variant that its distance tells is the byte itself. -/
theorem Lawful.opcode_sub_base {s : InstructionSet} (hs : s.Lawful) {i : Instruction}
    (hi : i ∈ s.instructions) {b : UInt8} (hb : i.owns b = true) : i.opcode (b - i.base) = b := by
  have ⟨hlow, hhigh⟩ := Instruction.owns_iff.mp hb
  have hsub : (b - i.base).toNat = b.toNat - i.base.toNat :=
    UInt8.toNat_sub_of_le _ _ (UInt8.le_iff_toNat_le.mpr hlow)
  rw [← UInt8.toNat_inj, Instruction.toNat_opcode (by omega) (hs.tiled.bounds hi).2, hsub]
  omega

/-- **Every instruction set that is built encodes without gaps or clashes**: opcodes and forms
correspond one to one, whatever definitions and aliases it was built from. -/
theorem encodes_of_build {ds : List Definition} {as : List (String × String)} {s : InstructionSet}
    (h : build ds as = .ok s) : s.Encodes ds := by
  have hs := lawful_of_build h
  have hdefinitions := definitions_of_build h
  have htotal (is : List Instruction) :
      total is = ((is.map Instruction.toDefinition).map fun d => 2 ^ d.arity).sum := by
    rw [total, List.map_map]
    exact congrArg List.sum (List.map_congr_left fun i _ => Definition.size_eq _)
  have hend := hs.tiled.add_total_le
  rw [Nat.zero_add, ← used_eq_total] at hend
  refine
    { definitions_eq := hdefinitions
      base_eq := fun k i hk => ?_
      used_eq := by rw [used_eq_total, htotal, hdefinitions]
      used_le := hend
      toNat_opcode := fun i hi v => ?_
      decode_opcode := fun i hi v => ?_
      owned := fun b hb => ?_
      free := fun b hb => ?_ }
  · rw [hs.tiled.base_eq hk, Nat.zero_add, htotal, List.map_take, hdefinitions]
  · have hroom := (hs.tiled.bounds hi).2
    rw [← Instruction.opcode_variant hroom v,
      Instruction.toNat_opcode (i.toNat_variant_lt v) hroom, Instruction.toNat_variant]
  · rw [← Instruction.opcode_variant (hs.tiled.bounds hi).2 v]
    exact hs.decode_opcode hi (i.toNat_variant_lt v)
  · rw [used_eq_total] at hb
    obtain ⟨i, howns, hfilter⟩ := hs.tiled.exists_filter_owns_eq (Nat.zero_le _)
      (Nat.lt_of_lt_of_eq hb (Nat.zero_add _).symm)
    have hi : i ∈ s.instructions.filter fun i => i.owns b := hfilter ▸ List.mem_singleton_self i
    refine ⟨⟨i, b - i.base⟩, ?_, hfilter, hs.opcode_sub_base (List.mem_filter.mp hi).1 howns⟩
    rw [decode_eq_head?, hfilter]
    rfl
  · rw [← Nat.zero_add s.used, used_eq_total] at hb
    rw [decode_eq_head?, hs.tiled.filter_owns_eq_nil (.inr hb)]
    rfl

/-- Sixteen instructions of four slots each use up all opcodes, and the last of these is the last
variant of the last instruction. -/
theorem encodes_sixteen_of_arity_four :
    ∃ s, build ("ABCDEFGHIJKLMNOP".toList.map fun c => ⟨.nop, .ofList [c], 4, 1⟩) [("Q", "P")]
        = .ok s ∧
      s.used = 256 ∧ s.decode 255 = some ⟨⟨⟨.nop, "P", 4, 1⟩, 240⟩, 15⟩ ∧
      (Instruction.mk ⟨.nop, "P", 4, 1⟩ 240).opcode 255 = 255 := by
  have hbuild : ((build ("ABCDEFGHIJKLMNOP".toList.map fun c => ⟨.nop, .ofList [c], 4, 1⟩)
      [("Q", "P")]).toOption.map fun s => s.instructions[15]?)
      = some (some ⟨⟨.nop, "P", 4, 1⟩, 240⟩) := by decide +kernel
  obtain ⟨s, hs, hlast⟩ := Option.map_eq_some_iff.mp hbuild
  rw [toOption_eq_some_iff] at hs
  have hencodes := encodes_of_build hs
  have hopcode : (Instruction.mk ⟨.nop, "P", 4, 1⟩ 240).opcode 255 = 255 := by decide
  refine ⟨s, hs, hencodes.used_eq, ?_, hopcode⟩
  rw [← hopcode]
  exact hencodes.decode_opcode _ (List.mem_of_getElem? hlast) 255

end InstructionSet

end Protocell
