import Mathlib.Algebra.Ring.Nat
import Protocell.Assembly.Fold
import Protocell.InstructionSet.Standard
import Protocell.Proofs.Success

/-!
# Proofs/Opcodes — the opcodes of a built instruction set

Building hands out opcodes without gaps, so each instruction begins where the one before it ends
(`TiledFrom`) and no byte has two owners.  An opcode therefore decodes to the instruction and the
variant that it was made of (`decode_opcode`).

The definitions of a built set are those it was built from, in order, and every name of it stands
for one of its instructions.
-/

namespace Protocell

theorem Definition.size_eq (d : Definition) : d.size = 2 ^ d.arity := Nat.one_shiftLeft _

theorem Definition.size_pos (d : Definition) : 0 < d.size := by
  rw [size_eq]
  exact Nat.two_pow_pos _

namespace InstructionSet

/-- Instructions own consecutive opcodes from `n` on, none past the last byte. -/
def TiledFrom : ℕ → List Instruction → Prop
  | n, [] => n ≤ opcodeCount
  | n, i :: is => i.base.toNat = n ∧ TiledFrom (n + i.size) is

/-- **What holds of every instruction set that was built.** -/
structure Lawful (s : InstructionSet) : Prop where
  tiled : TiledFrom 0 s.instructions
  arity_le : ∀ i ∈ s.instructions, i.arity ≤ maxArity
  alias_mem : ∀ a ∈ s.aliases, a.2 ∈ s.instructions

/-! ## Tilings -/

theorem TiledFrom.bounds {n : ℕ} {is : List Instruction} (h : TiledFrom n is) {i : Instruction}
    (hi : i ∈ is) : n ≤ i.base.toNat ∧ i.base.toNat + i.size ≤ opcodeCount := by
  induction is generalizing n with
  | nil => cases hi
  | cons j is ih =>
    obtain ⟨hbase, htail⟩ := h
    have hle {k : ℕ} {js : List Instruction} (ht : TiledFrom k js) : k ≤ opcodeCount := by
      induction js generalizing k with
      | nil => exact ht
      | cons j js ih => exact Nat.le_trans (Nat.le_add_right _ _) (ih ht.2)
    rcases List.mem_cons.mp hi with rfl | hi
    · exact ⟨Nat.le_of_eq hbase.symm, hbase ▸ hle htail⟩
    · obtain ⟨hlow, hhigh⟩ := ih htail hi
      exact ⟨Nat.le_trans (Nat.le_add_right _ _) hlow, hhigh⟩

/-- A tiling goes on with an instruction that begins where it ends. -/
theorem TiledFrom.append {n : ℕ} {is : List Instruction} (h : TiledFrom n is) {i : Instruction}
    (hbase : i.base.toNat = n + is.foldr (fun i k => i.size + k) 0)
    (hroom : i.base.toNat + i.size ≤ opcodeCount) : TiledFrom n (is ++ [i]) := by
  induction is generalizing n with
  | nil =>
    have hn : i.base.toNat = n := hbase
    exact ⟨hn, hn ▸ hroom⟩
  | cons j is ih =>
    refine ⟨h.1, ih h.2 ?_⟩
    rw [hbase, List.foldr_cons, Nat.add_assoc]

/-- **No opcode has two owners**, so that looking for the first one finds the only one. -/
theorem TiledFrom.find?_owns {n : ℕ} {is : List Instruction} (h : TiledFrom n is) {i : Instruction}
    (hi : i ∈ is) {b : UInt8} (hb : i.owns b = true) : is.find? (fun i => i.owns b) = some i := by
  induction is generalizing n with
  | nil => cases hi
  | cons j is ih =>
    rcases List.mem_cons.mp hi with rfl | hi
    · exact List.find?_cons_of_pos hb
    · have hlow := (h.2.bounds hi).1
      have hne : j.owns b = false := by
        rw [← Bool.not_eq_true]
        simp only [Instruction.owns, Bool.and_eq_true, decide_eq_true_eq] at hb ⊢
        have hbase := h.1
        omega
      rw [List.find?_cons]
      simp only [hne]
      exact ih h.2 hi

/-! ## Building -/

theorem lawful_empty : empty.Lawful where
  tiled := Nat.zero_le _
  arity_le _ hi := nomatch hi
  alias_mem _ ha := nomatch ha

/-- What a definition adds to a set: itself, on the opcodes behind those in use and under a name
that was free. -/
theorem add_eq_ok {s s' : InstructionSet} {d : Definition} (h : s.add d = .ok s') :
    d.arity ≤ maxArity ∧ s.used + d.size ≤ opcodeCount ∧ s.lookup d.mnemonic = none ∧
      s' = { s with
        instructions := s.instructions ++ [{ d with base := UInt8.ofNat s.used }] } := by
  have hpos := d.size_pos
  rw [add] at h
  split at h
  · cases h
  · split at h
    · cases h
    · split at h
      · cases h
      · rename_i hfree
        exact ⟨by omega, by omega, Option.not_isSome_iff_eq_none.mp hfree, (Except.ok.inj h).symm⟩

theorem addAlias_eq_ok {s s' : InstructionSet} {name target : String}
    (h : s.addAlias name target = .ok s') :
    ∃ i, s.lookup target = some i ∧ s.lookup name = none ∧
      s' = { s with aliases := s.aliases ++ [(name, i)] } := by
  rw [addAlias] at h
  split at h
  · cases h
  · split at h
    · cases h
    · rename_i htarget hfree
      exact ⟨_, htarget, Option.not_isSome_iff_eq_none.mp hfree, (Except.ok.inj h).symm⟩

theorem Lawful.add {s s' : InstructionSet} (hs : s.Lawful) {d : Definition} (h : s.add d = .ok s') :
    s'.Lawful := by
  obtain ⟨harity, hroom, -, rfl⟩ := add_eq_ok h
  have hpos := d.size_pos
  have hbase : (UInt8.ofNat s.used).toNat = s.used := by
    rw [UInt8.toNat_ofNat', Nat.mod_eq_of_lt (by rw [opcodeCount] at hroom; omega)]
  refine ⟨hs.tiled.append ?_ ?_, ?_, ?_⟩
  · exact hbase.trans (Nat.zero_add _).symm
  · change (UInt8.ofNat s.used).toNat + d.size ≤ opcodeCount
    rw [hbase]
    exact hroom
  · intro i hi
    rcases List.mem_append.mp hi with hi | hi
    · exact hs.arity_le i hi
    · obtain rfl := List.mem_singleton.mp hi
      exact harity
  · intro a ha
    exact List.mem_append_left _ (hs.alias_mem a ha)

/-- **A name of a set stands for one of its instructions.** -/
theorem Lawful.lookup_mem {s : InstructionSet} (hs : s.Lawful) {name : String} {i : Instruction}
    (h : s.lookup name = some i) : i ∈ s.instructions := by
  rcases Option.or_eq_some_iff.mp h with hfind | ⟨-, halias⟩
  · exact List.mem_of_find?_eq_some hfind
  · obtain ⟨l₁, l₂, heq, -⟩ := List.lookup_eq_some_iff.mp halias
    exact hs.alias_mem (name, i) (heq ▸ List.mem_append_right _ List.mem_cons_self)

theorem Lawful.addAlias {s s' : InstructionSet} (hs : s.Lawful) {name target : String}
    (h : s.addAlias name target = .ok s') : s'.Lawful := by
  obtain ⟨i, hi, -, rfl⟩ := addAlias_eq_ok h
  refine { hs with alias_mem := ?_ }
  intro a ha
  rcases List.mem_append.mp ha with ha | ha
  · exact hs.alias_mem a ha
  · obtain rfl := List.mem_singleton.mp ha
    exact hs.lookup_mem hi

/-- **Every set that was built is lawful.** -/
theorem lawful_of_build {ds : List Definition} {as : List (String × String)} {s : InstructionSet}
    (h : build ds as = .ok s) : s.Lawful := by
  obtain ⟨s₀, h₀, h⟩ := bind_eq_ok_iff.mp h
  have hs₀ : s₀.Lawful := foldlM_induction h₀ (fun d _ s s' hs h => hs.add h) lawful_empty
  exact foldlM_induction h (fun a _ s s' hs h => hs.addAlias h) hs₀

/-- The definitions of a built set are those it was built from. -/
theorem definitions_of_build {ds : List Definition} {as : List (String × String)}
    {s : InstructionSet} (h : build ds as = .ok s) :
    s.instructions.map Instruction.toDefinition = ds := by
  obtain ⟨s₀, h₀, h⟩ := bind_eq_ok_iff.mp h
  have hadd (ds : List Definition) (t t' : InstructionSet) (ht : ds.foldlM add t = .ok t') :
      t'.instructions.map Instruction.toDefinition
        = t.instructions.map Instruction.toDefinition ++ ds := by
    induction ds generalizing t with
    | nil =>
      obtain rfl := Except.ok.inj ht
      exact (List.append_nil _).symm
    | cons d ds ih =>
      rw [List.foldlM_cons] at ht
      obtain ⟨t₁, h₁, ht⟩ := bind_eq_ok_iff.mp ht
      obtain ⟨-, -, -, rfl⟩ := add_eq_ok h₁
      rw [ih _ ht, List.map_append, List.append_assoc]
      rfl
  refine foldlM_induction (P := fun t => t.instructions.map Instruction.toDefinition = ds) h ?_
    (hadd ds empty s₀ h₀)
  intro a _ t t' ht halias
  obtain ⟨i, -, -, rfl⟩ := addAlias_eq_ok halias
  exact ht

/-! ## Opcodes and what they decode to -/

end InstructionSet

/-- **In a variant of its own an instruction's opcode lies that far behind the first.** -/
theorem Instruction.toNat_opcode {i : Instruction} {v : UInt8} (hv : v.toNat < i.size)
    (hroom : i.base.toNat + i.size ≤ opcodeCount) :
    (i.opcode v).toNat = i.base.toNat + v.toNat := by
  rw [opcodeCount] at hroom
  have hmask : (UInt8.ofNat (i.size - 1)).toNat = 2 ^ i.arity - 1 := by
    rw [UInt8.toNat_ofNat', Nat.mod_eq_of_lt (by omega), Definition.size_eq]
  have hv' : v.toNat < 2 ^ i.arity := by rwa [← Definition.size_eq]
  rw [opcode, UInt8.toNat_add, UInt8.toNat_and, hmask, Nat.and_two_pow_sub_one_eq_mod,
    Nat.mod_eq_of_lt hv', Nat.mod_eq_of_lt (by omega)]

/-- **An opcode decodes to what it was made of.** -/
theorem InstructionSet.Lawful.decode_opcode {s : InstructionSet} (hs : s.Lawful) {i : Instruction}
    (hi : i ∈ s.instructions) {v : UInt8} (hv : v.toNat < i.size) :
    s.decode (i.opcode v) = some ⟨i, v⟩ := by
  have hopcode := Instruction.toNat_opcode hv (hs.tiled.bounds hi).2
  have howns : i.owns (i.opcode v) = true := by
    simp only [Instruction.owns, Bool.and_eq_true, decide_eq_true_eq]
    omega
  have hvariant : i.opcode v - i.base = v := by
    rw [← UInt8.toNat_inj,
      UInt8.toNat_sub_of_le _ _ (by rw [UInt8.le_iff_toNat_le]; omega), hopcode,
      Nat.add_sub_cancel_left]
  rw [decode, hs.tiled.find?_owns hi howns, Option.map_some, hvariant]

/-! ## Variants as rows of truth values -/

namespace Assembly

theorem bitsToNat_lt (bs : List Bool) : bitsToNat bs < 2 ^ bs.length := by
  induction bs with
  | nil => exact Nat.one_pos
  | cons b bs ih =>
    have hb : b.toNat ≤ 1 := b.toNat_le
    rw [bitsToNat, List.length_cons, Nat.pow_succ]
    omega

theorem testBit_bitsToNat (bs : List Bool) (k : ℕ) :
    (bitsToNat bs).testBit k = bs.getD k false := by
  induction bs generalizing k with
  | nil => exact Nat.zero_testBit k
  | cons b bs ih =>
    rw [bitsToNat]
    cases k with
    | zero => cases b <;> simp [Nat.testBit_zero]
    | succ k =>
      have hhalf : (b.toNat + 2 * bitsToNat bs) / 2 = bitsToNat bs := by
        have hb : b.toNat ≤ 1 := b.toNat_le
        omega
      rw [Nat.testBit_succ, hhalf, ih]
      rfl

end Assembly

/-- **The slots of the variant made of a row of truth values are that row.** -/
theorem Form.slots_ofNat_bitsToNat {i : Instruction} {bs : List Bool} (hlen : bs.length = i.arity)
    (harity : i.arity ≤ maxArity) :
    (Form.mk i (UInt8.ofNat (Assembly.bitsToNat bs))).slots = bs := by
  have hbits : Assembly.bitsToNat bs < 256 := by
    have hpow : 2 ^ i.arity ≤ 2 ^ maxArity := Nat.pow_le_pow_right (by decide) harity
    have hlt := Assembly.bitsToNat_lt bs
    rw [hlen] at hlt
    exact Nat.lt_of_lt_of_le hlt (Nat.le_trans hpow (by decide))
  refine List.ext_getElem (by rw [length_slots, hlen]) ?_
  intro k hk hk'
  simp only [slots, List.getElem_map, List.getElem_range, UInt8.toNat_ofNat',
    Nat.mod_eq_of_lt hbits, Assembly.testBit_bitsToNat]
  rw [List.getD_eq_getElem?_getD, List.getElem?_eq_getElem hk', Option.getD_some]

/-! ## The standard set -/

namespace InstructionSet

theorem lawful_standard : standard.Lawful := lawful_of_build build_standard

end InstructionSet

end Protocell
