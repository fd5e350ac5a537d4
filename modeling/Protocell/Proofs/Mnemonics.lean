import Protocell.Proofs.Faults

/-!
# Proofs/Mnemonics — what a name stands for

A name of an instruction set is a mnemonic or an alias, and an alias may go to another alias; so
what a name stands for is said of the two lists by following aliases (`Registered`).  A set that is
built from the lists finds just that under the name (`registered_iff_lookup`): while it is being
built no name is given twice, so that a name once found keeps its instruction (`Found.addAlias`).
-/

namespace Protocell.InstructionSet

/-- **What a name stands for** by some definitions and aliases. -/
inductive Registered (ds : List Definition) (as : List (String × String)) :
    String → Definition → Prop
  /-- A definition is called by its mnemonic. -/
  | byMnemonic {d : Definition} (hd : d ∈ ds) : Registered ds as d.mnemonic d
  /-- An alias stands for what its target stands for. -/
  | byAlias {name target : String} {d : Definition} (ha : (name, target) ∈ as)
      (htarget : Registered ds as target d) : Registered ds as name d

variable {ds : List Definition} {as : List (String × String)} {s s' : InstructionSet}

/-- More aliases leave the names that there are as they were. -/
theorem Registered.append {name : String} {d : Definition} (h : Registered ds as name d)
    (more : List (String × String)) : Registered ds (as ++ more) name d := by
  induction h with
  | byMnemonic hd => exact .byMnemonic hd
  | byAlias ha _ ih => exact .byAlias (List.mem_append_left more ha) ih

/-- **What is found in a set** that has read the definitions and some aliases: the definitions by
their mnemonics, the same by an alias as by its target, and nothing that is not registered. -/
structure Found (ds : List Definition) (before : List (String × String)) (s : InstructionSet) :
    Prop where
  definitions : ∀ d ∈ ds, ∃ i, s.lookup d.mnemonic = some i ∧ i.toDefinition = d
  aliases : ∀ a ∈ before, ∃ i, s.lookup a.1 = some i ∧ s.lookup a.2 = some i
  registered : ∀ name i, s.lookup name = some i → Registered ds before name i.toDefinition

theorem found_of_definitions (h : ds.foldlM add empty = .ok s) : Found ds [] s := by
  have hholds : Holds ds s := inv_of_foldlM Holds (fun _ _ _ _ => Holds.add) holds_empty h
  obtain ⟨-, -, hnodup⟩ := (faultless_definitions_iff ds).mp ((foldlM_add_outcome ds).2.mp ⟨s, h⟩)
  have hname (name : String) (i : Instruction) (hi : s.lookup name = some i) :
      i.toDefinition ∈ ds ∧ i.mnemonic = name := by
    rw [lookup, hholds.aliases_eq, List.lookup_nil, Option.or_none] at hi
    refine ⟨?_, beq_iff_eq.mp (List.find?_some hi :)⟩
    rw [← hholds.definitions_eq]
    exact List.mem_map_of_mem (List.mem_of_find?_eq_some hi)
  refine ⟨fun d hd => ?_, fun a ha => absurd ha List.not_mem_nil, fun name i hi => ?_⟩
  · have hsome : (s.lookup d.mnemonic).isSome = true := by
      rw [lookup_isSome_iff, hholds.names_eq]
      exact List.mem_map_of_mem hd
    obtain ⟨i, hi⟩ := Option.isSome_iff_exists.mp hsome
    obtain ⟨hmem, hmnemonic⟩ := hname _ _ hi
    exact ⟨i, hi, List.inj_on_of_nodup_map hnodup hmem hd hmnemonic⟩
  · obtain ⟨hmem, rfl⟩ := hname name i hi
    exact .byMnemonic hmem

/-- **A new alias is found, and all else as before.** -/
theorem lookup_addAlias {a : String × String} (h : s.addAlias a.1 a.2 = .ok s') :
    ∃ i, s.lookup a.2 = some i ∧ s.lookup a.1 = none ∧ s'.lookup a.1 = some i ∧
      ∀ name, name ≠ a.1 → s'.lookup name = s.lookup name := by
  obtain ⟨i, htarget, hfree, rfl⟩ := addAlias_eq_ok h
  have hlookup (name : String) :
      InstructionSet.lookup { s with aliases := s.aliases ++ [(a.1, i)] } name
        = (s.lookup name).or ([(a.1, i)].lookup name) := by
    rw [lookup, List.lookup_append, ← Option.or_assoc]
    rfl
  refine ⟨i, htarget, hfree, ?_, fun name hname => ?_⟩
  · rw [hlookup, hfree, List.lookup_cons_self]
    rfl
  · rw [hlookup, List.lookup_cons, beq_false_of_ne hname]
    exact Option.or_none

theorem Found.addAlias {before : List (String × String)} (h : Found ds before s)
    {a : String × String} (ha : s.addAlias a.1 a.2 = .ok s') : Found ds (before ++ [a]) s' := by
  obtain ⟨i, htarget, hfree, hnew, hold⟩ := lookup_addAlias ha
  have hkeeps {name : String} {j : Instruction} (hj : s.lookup name = some j) :
      s'.lookup name = some j := by
    rw [hold name, hj]
    rintro rfl
    exact Option.some_ne_none j (hj.symm.trans hfree)
  refine ⟨fun d hd => ?_, fun b hb => ?_, fun name j hj => ?_⟩
  · obtain ⟨j, hj, hdefinition⟩ := h.definitions d hd
    exact ⟨j, hkeeps hj, hdefinition⟩
  · rcases List.mem_append.mp hb with hb | hb
    · obtain ⟨j, hname, htarget⟩ := h.aliases b hb
      exact ⟨j, hkeeps hname, hkeeps htarget⟩
    · obtain rfl := List.mem_singleton.mp hb
      exact ⟨i, hnew, hkeeps htarget⟩
  · by_cases hname : name = a.1
    · subst hname
      obtain rfl := Option.some.inj (hnew.symm.trans hj)
      exact .byAlias (List.mem_append_right _ List.mem_cons_self)
        ((h.registered _ _ htarget).append [a])
    · rw [hold name hname] at hj
      exact (h.registered name j hj).append [a]

theorem found_of_build (h : build ds as = .ok s) : Found ds as s := by
  obtain ⟨s₀, h₀, h⟩ := bind_eq_ok_iff.mp h
  exact inv_of_foldlM (Found ds) (fun _ _ _ _ hs ha => hs.addAlias ha) (found_of_definitions h₀) h

/-- **A set that is built finds under a name what the name stands for.** -/
theorem registered_iff_lookup (h : build ds as = .ok s) {name : String} {d : Definition} :
    Registered ds as name d ↔ ∃ i, s.lookup name = some i ∧ i.toDefinition = d := by
  have hfound := found_of_build h
  constructor
  · intro hname
    induction hname with
    | byMnemonic hd => exact hfound.definitions _ hd
    | byAlias ha _ ih =>
      obtain ⟨i, hi, hdefinition⟩ := ih
      obtain ⟨j, hj, htarget⟩ := hfound.aliases _ ha
      obtain rfl := Option.some.inj (htarget.symm.trans hi)
      exact ⟨j, hj, hdefinition⟩
  · rintro ⟨i, hi, rfl⟩
    exact hfound.registered name i hi

end Protocell.InstructionSet
