import Mathlib.Data.List.Nodup
import Protocell.Proofs.Encoding

/-!
# Proofs/Faults — when definitions and aliases make no instruction set

A definition is at fault if its arity is too large, if it does not fit on the opcodes that those
before it leave, or if one of them has its mnemonic; an alias if its target is no mnemonic and no
alias before it, or if its own name is one.  That is said of lists of definitions and aliases alone
(`DefinitionFault`, `AliasFault`).

While a set is being built, its opcodes in use and its names are those of the entries taken so far,
so that each step fails just at a fault (`add_eq_error_iff`, `addAlias_eq_error_iff`).  Building
therefore ends with the first fault of the definitions, and if they have none with the first fault
of the aliases (`build_eq_error_iff`).  That there are none is a condition on the two lists as a
whole (`faultless_definitions_iff`, `faultless_aliases_iff`).
-/

namespace Protocell

namespace InstructionSet

/-- The number of opcodes that definitions take. -/
def taken (ds : List Definition) : ℕ := (ds.map fun d => 2 ^ d.arity).sum

theorem taken_concat (ds : List Definition) (d : Definition) :
    taken (ds ++ [d]) = taken ds + 2 ^ d.arity := by
  rw [taken, List.map_append, List.sum_append, List.map_singleton, List.sum_singleton, taken]

/-- **What is wrong with a definition** behind others: its arity comes first, then the opcodes that
are left for it, then its mnemonic. -/
inductive DefinitionFault (before : List Definition) (d : Definition) : Error → Prop
  | arity : 4 < d.arity → DefinitionFault before d (.arityTooLarge d.mnemonic d.arity)
  | opcodes (remaining : ℕ) : d.arity ≤ 4 → taken before + remaining = 256 →
      remaining < 2 ^ d.arity →
      DefinitionFault before d (.opcodesExhausted d.mnemonic (2 ^ d.arity) remaining)
  | mnemonic : d.arity ≤ 4 → taken before + 2 ^ d.arity ≤ 256 →
      d.mnemonic ∈ before.map Definition.mnemonic →
      DefinitionFault before d (.duplicateName d.mnemonic)

/-- **What is wrong with an alias** behind the mnemonics and other aliases: its target comes first,
then its own name. -/
inductive AliasFault (mnemonics : List String) (before : List (String × String))
    (a : String × String) : Error → Prop
  | target : a.2 ∉ mnemonics ++ before.map Prod.fst →
      AliasFault mnemonics before a (.unknownTarget a.1 a.2)
  | name : a.2 ∈ mnemonics ++ before.map Prod.fst → a.1 ∈ mnemonics ++ before.map Prod.fst →
      AliasFault mnemonics before a (.duplicateName a.1)

/-! ## Names and opcodes of a set under construction -/

/-- The names of a set: its mnemonics and its aliases. -/
def names (s : InstructionSet) : List String :=
  s.instructions.map (fun i => i.mnemonic) ++ s.aliases.map Prod.fst

theorem lookup_isSome_iff {s : InstructionSet} {name : String} :
    (s.lookup name).isSome = true ↔ name ∈ s.names := by
  have hmnemonic : (s.instructions.find? fun i => i.mnemonic == name).isSome = true ↔
      name ∈ s.instructions.map fun i => i.mnemonic := by
    simp only [List.find?_isSome, beq_iff_eq, List.mem_map]
  have halias : (s.aliases.lookup name).isSome = true ↔ name ∈ s.aliases.map Prod.fst := by
    rw [← not_iff_not, Bool.not_eq_true, Option.isSome_eq_false_iff, Option.isNone_iff_eq_none,
      List.lookup_eq_none_iff, List.mem_map, not_exists]
    simp only [bne_iff_ne, ne_eq, not_and]
    exact forall₂_congr fun a _ => not_congr eq_comm
  rw [lookup, Option.isSome_or, Bool.or_eq_true, hmnemonic, halias, names, List.mem_append]

/-- **What a set has taken in while definitions are read**: those read so far, within the opcodes
that there are, and no aliases. -/
structure Holds (ds : List Definition) (s : InstructionSet) : Prop where
  definitions_eq : s.instructions.map Instruction.toDefinition = ds
  aliases_eq : s.aliases = []
  taken_le : taken ds ≤ 256

variable {s s' : InstructionSet} {ds : List Definition} {d : Definition}

theorem Holds.used_eq (h : Holds ds s) : s.used = taken ds := by
  rw [used_eq_total, total, taken, ← h.definitions_eq, List.map_map]
  exact congrArg List.sum (List.map_congr_left fun i _ => Definition.size_eq _)

theorem Holds.names_eq (h : Holds ds s) : s.names = ds.map Definition.mnemonic := by
  rw [names, h.aliases_eq, List.map_nil, List.append_nil, ← h.definitions_eq, List.map_map]
  rfl

theorem holds_empty : Holds [] empty := ⟨rfl, rfl, Nat.zero_le _⟩

theorem Holds.add (h : Holds ds s) (hadd : s.add d = .ok s') : Holds (ds ++ [d]) s' := by
  obtain ⟨-, hroom, -, rfl⟩ := add_eq_ok hadd
  rw [h.used_eq, d.size_eq] at hroom
  refine ⟨?_, h.aliases_eq, ?_⟩
  · rw [List.map_append, h.definitions_eq]
    rfl
  · rw [taken_concat]
    exact hroom

/-- **A definition is refused just for its first fault.** -/
theorem add_eq_error_iff (h : Holds ds s) {e : Error} :
    s.add d = .error e ↔ DefinitionFault ds d e := by
  have hused := h.used_eq
  have htaken := h.taken_le
  have hsize := d.size_eq
  have hnames : (s.lookup d.mnemonic).isSome = true ↔ d.mnemonic ∈ ds.map Definition.mnemonic := by
    rw [lookup_isSome_iff, h.names_eq]
  have hmax : maxArity = 4 := rfl
  have hcount : opcodeCount = 256 := rfl
  rw [InstructionSet.add]
  split
  · rename_i harity
    constructor
    · intro he
      obtain rfl := Except.error.inj he
      exact .arity harity
    · rintro (_ | ⟨_, hle, -, -⟩ | ⟨hle, -, -⟩)
      · rfl
      · omega
      · omega
  · rename_i harity
    split
    · rename_i hroom
      constructor
      · intro he
        obtain rfl := Except.error.inj he
        rw [hsize]
        exact .opcodes _ (by omega) (by omega) (by omega)
      · rintro (hlt | ⟨_, -, hremaining, -⟩ | ⟨-, hfits, -⟩)
        · omega
        · rw [hsize, hused]
          congr 2
          omega
        · omega
    · rename_i hroom
      split
      · rename_i hname
        constructor
        · intro he
          obtain rfl := Except.error.inj he
          exact .mnemonic (by omega) (by omega) (hnames.mp hname)
        · rintro (hlt | ⟨_, -, hremaining, hlt⟩ | _)
          · omega
          · omega
          · rfl
      · rename_i hname
        refine iff_of_false (by rintro ⟨⟩) ?_
        rintro (hlt | ⟨_, -, hremaining, hlt⟩ | ⟨-, -, hmem⟩)
        · omega
        · omega
        · exact hname (hnames.mpr hmem)

/-- **What a set has taken in while aliases are read**: the mnemonics, and the aliases read so
far. -/
def Named (mnemonics : List String) (before : List (String × String)) (s : InstructionSet) : Prop :=
  s.names = mnemonics ++ before.map Prod.fst

theorem Named.add {mnemonics : List String} {before : List (String × String)}
    (h : Named mnemonics before s) {a : String × String} (ha : s.addAlias a.1 a.2 = .ok s') :
    Named mnemonics (before ++ [a]) s' := by
  obtain ⟨i, -, -, rfl⟩ := addAlias_eq_ok ha
  rw [Named] at h ⊢
  rw [names, List.map_append, ← List.append_assoc, List.map_append, ← List.append_assoc, ← h]
  rfl

/-- **An alias is refused just for its first fault.** -/
theorem addAlias_eq_error_iff {mnemonics : List String} {before : List (String × String)}
    (h : Named mnemonics before s) {a : String × String} {e : Error} :
    s.addAlias a.1 a.2 = .error e ↔ AliasFault mnemonics before a e := by
  have hlookup (name : String) : (s.lookup name).isSome = true ↔
      name ∈ mnemonics ++ before.map Prod.fst := by
    rw [lookup_isSome_iff, h]
  rw [InstructionSet.addAlias]
  split
  · rename_i hnone
    have htarget : a.2 ∉ mnemonics ++ before.map Prod.fst := by
      rw [← hlookup, hnone]
      exact Bool.false_ne_true
    constructor
    · intro he
      obtain rfl := Except.error.inj he
      exact .target htarget
    · rintro (_ | ⟨hmem, -⟩)
      · rfl
      · exact absurd hmem htarget
  · rename_i i hsome
    have htarget : a.2 ∈ mnemonics ++ before.map Prod.fst := by
      rw [← hlookup, hsome]
      rfl
    split
    · rename_i hname
      constructor
      · intro he
        obtain rfl := Except.error.inj he
        exact .name htarget ((hlookup _).mp hname)
      · rintro (hnot | _)
        · exact absurd htarget hnot
        · rfl
    · rename_i hname
      refine iff_of_false (by rintro ⟨⟩) ?_
      rintro (hnot | ⟨-, hmem⟩)
      · exact hnot htarget
      · exact hname ((hlookup _).mpr hmem)

/-! ## Lists without a fault -/

/-- **Definitions without a fault**: all arities are small, all opcodes fit, and no two have the
same mnemonic. -/
theorem faultless_definitions_iff (ds : List Definition) :
    Faultless DefinitionFault ds ↔
      (∀ d ∈ ds, d.arity ≤ 4) ∧ taken ds ≤ 256 ∧ (ds.map Definition.mnemonic).Nodup := by
  induction ds using List.reverseRecOn with
  | nil => exact iff_of_true faultless_nil ⟨fun d hd => (nomatch hd), Nat.zero_le _, List.nodup_nil⟩
  | append_singleton ds d ih =>
    have hmap : (ds ++ [d]).map Definition.mnemonic
        = (ds.map Definition.mnemonic).concat d.mnemonic := by
      rw [List.concat_eq_append, List.map_append, List.map_singleton]
    rw [faultless_concat_iff, ih, taken_concat, hmap, List.nodup_concat]
    simp only [List.forall_mem_append, List.forall_mem_singleton]
    constructor
    · rintro ⟨⟨harities, htaken, hnodup⟩, hd⟩
      have harity : d.arity ≤ 4 := Nat.not_lt.mp fun h => hd _ (.arity h)
      have hroom : taken ds + 2 ^ d.arity ≤ 256 := by
        refine Nat.not_lt.mp fun h => hd _ (.opcodes (256 - taken ds) harity ?_ ?_)
        · omega
        · omega
      exact ⟨⟨harities, harity⟩, hroom, fun hmem => hd _ (.mnemonic harity hroom hmem), hnodup⟩
    · rintro ⟨⟨harities, harity⟩, hroom, hnew, hnodup⟩
      refine ⟨⟨harities, Nat.le_trans (Nat.le_add_right _ _) hroom, hnodup⟩, ?_⟩
      rintro _ (hlt | ⟨_, -, hremaining, hlt⟩ | ⟨-, -, hmem⟩)
      · omega
      · omega
      · exact hnew hmem

/-- **Aliases without a fault**: their names are new and different, and each target is a mnemonic or
an alias before it. -/
theorem faultless_aliases_iff {mnemonics : List String} (hmnemonics : mnemonics.Nodup)
    (as : List (String × String)) :
    Faultless (AliasFault mnemonics) as ↔ (mnemonics ++ as.map Prod.fst).Nodup ∧
      ∀ before a after, as = before ++ a :: after →
        a.2 ∈ mnemonics ++ before.map Prod.fst := by
  constructor
  · intro h
    have htarget (before : List (String × String)) (a : String × String)
        (after : List (String × String)) (hsplit : as = before ++ a :: after) :
        a.2 ∈ mnemonics ++ before.map Prod.fst :=
      Classical.not_not.mp fun hnot => h before a after _ hsplit (.target hnot)
    refine ⟨?_, htarget⟩
    clear htarget
    induction as using List.reverseRecOn with
    | nil => simpa using hmnemonics
    | append_singleton as a ih =>
      obtain ⟨has, ha⟩ := faultless_concat_iff.mp h
      have htarget : a.2 ∈ mnemonics ++ as.map Prod.fst :=
        Classical.not_not.mp fun hnot => ha _ (.target hnot)
      rw [List.map_append, ← List.append_assoc, List.map_singleton, ← List.concat_eq_append,
        List.nodup_concat]
      exact ⟨fun hmem => ha _ (.name htarget hmem), ih has⟩
  · rintro ⟨hnodup, htarget⟩ before a after e rfl (hnot | ⟨-, hmem⟩)
    · exact hnot (htarget before a after rfl)
    · rw [List.map_append, ← List.append_assoc, List.map_cons] at hnodup
      exact (List.nodup_append.mp hnodup).2.2 a.1 hmem a.1 List.mem_cons_self rfl

/-! ## Building -/

/-- Reading definitions ends with the first fault that one of them has, if any has one. -/
theorem foldlM_add_outcome (ds : List Definition) :
    (∀ e, ds.foldlM add empty = .error e ↔ FirstFault DefinitionFault ds e) ∧
      ((∃ s, ds.foldlM add empty = .ok s) ↔ Faultless DefinitionFault ds) :=
  foldlM_eq_error_iff_firstFault Holds (fun _ _ _ _ => Holds.add)
    (fun _ _ _ _ hs => add_eq_error_iff hs) holds_empty ds

/-- The names of a set that has read the definitions are their mnemonics. -/
theorem names_of_foldlM_add (h : ds.foldlM add empty = .ok s) :
    s.names = ds.map Definition.mnemonic :=
  (inv_of_foldlM Holds (fun _ _ _ _ => Holds.add) holds_empty h).names_eq

/-- So does reading aliases behind the definitions. -/
theorem foldlM_addAlias_outcome (h : ds.foldlM add empty = .ok s) (as : List (String × String)) :
    (∀ e, as.foldlM (fun s a => s.addAlias a.1 a.2) s = .error e ↔
        FirstFault (AliasFault (ds.map Definition.mnemonic)) as e) ∧
      ((∃ s', as.foldlM (fun s a => s.addAlias a.1 a.2) s = .ok s') ↔
        Faultless (AliasFault (ds.map Definition.mnemonic)) as) := by
  refine foldlM_eq_error_iff_firstFault (Named (ds.map Definition.mnemonic)) ?_ ?_ ?_ as
  · exact fun _ _ _ _ hs ha => hs.add ha
  · exact fun _ _ _ _ hs => addAlias_eq_error_iff hs
  · exact (names_of_foldlM_add h).trans (List.append_nil _).symm

theorem exists_build_eq_ok_iff (ds : List Definition) (as : List (String × String)) :
    (∃ s, build ds as = .ok s) ↔
      Faultless DefinitionFault ds ∧ Faultless (AliasFault (ds.map Definition.mnemonic)) as := by
  rw [← (foldlM_add_outcome ds).2]
  constructor
  · rintro ⟨s', h⟩
    obtain ⟨s, hs, h⟩ := bind_eq_ok_iff.mp h
    exact ⟨⟨s, hs⟩, (foldlM_addAlias_outcome hs as).2.mp ⟨s', h⟩⟩
  · rintro ⟨⟨s, hs⟩, has⟩
    obtain ⟨s', h⟩ := (foldlM_addAlias_outcome hs as).2.mpr has
    exact ⟨s', bind_eq_ok_iff.mpr ⟨s, hs, h⟩⟩

theorem build_eq_error_iff (ds : List Definition) (as : List (String × String)) (e : Error) :
    build ds as = .error e ↔
      FirstFault DefinitionFault ds e ∨
        Faultless DefinitionFault ds ∧
          FirstFault (AliasFault (ds.map Definition.mnemonic)) as e := by
  rw [build, bind_eq_error_iff, (foldlM_add_outcome ds).1, ← (foldlM_add_outcome ds).2]
  refine or_congr_right ?_
  constructor
  · rintro ⟨s, hs, h⟩
    exact ⟨⟨s, hs⟩, ((foldlM_addAlias_outcome hs as).1 e).mp h⟩
  · rintro ⟨⟨s, hs⟩, h⟩
    exact ⟨s, hs, ((foldlM_addAlias_outcome hs as).1 e).mpr h⟩

/-- **A set that is built has no mnemonic twice.** -/
theorem nodup_mnemonics_of_build {ds : List Definition} {as : List (String × String)}
    {s : InstructionSet} (h : build ds as = .ok s) : (ds.map Definition.mnemonic).Nodup :=
  ((faultless_definitions_iff ds).mp ((exists_build_eq_ok_iff ds as).mp ⟨s, h⟩).1).2.2

/-- **Building fails just when it should, and with the first fault.**  It succeeds if and only if no
arity is above 4, the definitions need no more than 256 opcodes, all mnemonics and names of aliases
are different, and every alias goes to a mnemonic or to an alias before it.  Else its error is the
fault of the first definition that has one; and if none has, the fault of the first alias that has
one. -/
theorem first_fault_of_build (ds : List Definition) (as : List (String × String)) :
    ((∃ s, build ds as = .ok s) ↔
      (∀ d ∈ ds, d.arity ≤ 4) ∧ (ds.map fun d => 2 ^ d.arity).sum ≤ 256 ∧
        (ds.map Definition.mnemonic ++ as.map Prod.fst).Nodup ∧
        ∀ before a after, as = before ++ a :: after →
          a.2 ∈ ds.map Definition.mnemonic ++ before.map Prod.fst) ∧
    ∀ e, build ds as = .error e ↔
      FirstFault DefinitionFault ds e ∨
        Faultless DefinitionFault ds ∧
          FirstFault (AliasFault (ds.map Definition.mnemonic)) as e := by
  refine ⟨?_, build_eq_error_iff ds as⟩
  rw [exists_build_eq_ok_iff, faultless_definitions_iff]
  constructor
  · rintro ⟨⟨harities, htaken, hnodup⟩, has⟩
    exact ⟨harities, htaken, (faultless_aliases_iff hnodup as).mp has⟩
  · rintro ⟨harities, htaken, hnodup, htargets⟩
    have hmnemonics := (List.nodup_append.mp hnodup).1
    exact ⟨⟨harities, htaken, hmnemonics⟩,
      (faultless_aliases_iff hmnemonics as).mpr ⟨hnodup, htargets⟩⟩

/-- Of three faults the first definition's comes first, and of its two the arity; the alias is never
looked at. -/
example : build [⟨.nop, "A", 5, 1⟩, ⟨.nop, "A", 0, 1⟩] [("A", "B")]
    = .error (.arityTooLarge "A" 5) := by rfl

end InstructionSet

end Protocell
