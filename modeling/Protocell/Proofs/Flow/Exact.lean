import Mathlib.Order.Bounds.Basic
import Protocell.Assembly.Draft
import Protocell.InstructionSet.Standard
import Protocell.Proofs.Flow.Closure
import Protocell.Proofs.Success

/-!
# Proofs/Flow/Exact — the analysis finds what can be reached, and nothing else

A search that has nowhere left to go has visited the least set that is closed under passages, and
has noted of its members just what the code says of them (`exact_analyze`).
-/

namespace Protocell.Flow

/-- **What an analysis finds that finds everything**, with `passages` for what the code says of a
location: where execution and data pass on to from it. -/
structure Analysis.Exact (a : Analysis) (s : InstructionSet) (p : Program) (entry : UInt8) :
    Prop where
  /-- Visited are the locations of the least set that holds the start of the entry bank, if the bank
  is present, and is closed under the passages that lead on. -/
  visited : IsLeast {S : Set Location | (p.has entry = true → ⟨entry, 0⟩ ∈ S) ∧
      ∀ l ∈ S, ∀ e ∈ passages s p l, e.leadsOn p = true → e.target ∈ S}
    {l | a.visited.get l = true}
  widths_eq : ∀ l, a.widths.get l = if a.visited.get l = true then widthAt? s p l else none
  returns_iff : ∀ l, a.returns.get l = true ↔
    a.visited.get l = true ∧ (formAt? s p l).any leaves = true
  dynamic_iff : ∀ l, a.dynamic.get l = true ↔
    a.visited.get l = true ∧ (formAt? s p l).any opens = true
  banks_iff : ∀ b, a.banks.get b = true ↔ p.has b = true ∧
    (b = entry ∨ ∃ l, a.visited.get l = true ∧ b ∈ calledBanks (passages s p l))
  missing_iff : ∀ b, a.missing.get b = true ↔ p.has b = false ∧
    (b = entry ∨ ∃ l, a.visited.get l = true ∧ b ∈ calledBanks (passages s p l))
  /-- The edges are the passages from the visited locations in the order of their visits, less those
  on to a location that was visited by then, and none is there twice. -/
  edges : a.edges.toList.Nodup ∧ ∃ order : List Location, order.Nodup ∧
    (∀ l, l ∈ order ↔ a.visited.get l = true) ∧ a.edges.toList = edgesDrawn s p order

/-- **The analysis computes exactly what can be reached**, with a budget above the number of stored
bytes: the least set that is closed under the passages which the code tells, and of its members
exactly the widths, the returns, the jumps and calls off the stack, the banks that are called, and
the passages. -/
theorem exact_analyze (s : InstructionSet) (p : Program) (entry : UInt8) {budget : ℕ}
    (hbudget : storedBytes p < budget) : (analyze s p entry budget).Exact s p entry := by
  obtain ⟨order, x, heq, hqueue, hexact⟩ := exists_search_of_budget s p entry hbudget
  have hdone {l : Location} : l ∈ order ∨ l ∈ x.queue → l ∈ order :=
    Search.mem_of_queue_eq_nil hqueue
  have hvisited := hexact.visited_iff
  rw [heq]
  refine ⟨⟨⟨?_, ?_⟩, ?_⟩, ?_, ?_, ?_, ?_, ?_, ?_⟩
  · exact fun hpresent => (hvisited _).mpr (hdone (hexact.entered hpresent))
  · intro l hl e he hleads
    exact (hvisited _).mpr (hdone (hexact.closed l ((hvisited l).mp hl) e he hleads))
  · rintro S ⟨hstart, hS⟩ l hl
    exact (hexact.reached l (.inl ((hvisited l).mp hl))).mem hstart hS
  · simpa only [hvisited] using hexact.records.widths_eq
  · simpa only [hvisited] using hexact.records.returns_iff
  · simpa only [hvisited] using hexact.records.dynamic_iff
  · simpa only [hvisited] using hexact.records.banks_iff
  · simpa only [hvisited] using hexact.records.missing_iff
  · refine ⟨?_, order, hexact.nodup, fun l => (hvisited l).symm, hexact.records.edges_eq⟩
    exact hexact.records.edges_eq ▸ nodup_edgesDrawn hexact.nodup

/-- A program of four bytes that calls an absent bank and jumps back to its start. -/
theorem exact_of_absent_call :
    ∃ program, assemble .standard ".prg 0\nCALL 9\nJUMP 0\n" = .ok program ∧
      storedBytes program < 5 ∧ (analyze .standard program 0 5).Exact .standard program 0 ∧
      (analyze .standard program 0 5).missing.get 9 = true ∧
      (analyze .standard program 0 5).edges.toList =
        [⟨⟨0, 0⟩, ⟨9, 0⟩, .call⟩, ⟨⟨0, 0⟩, ⟨0, 2⟩, .fallthrough⟩, ⟨⟨0, 2⟩, ⟨0, 0⟩, .jump⟩] := by
  have hrun : (assemble .standard ".prg 0\nCALL 9\nJUMP 0\n").toOption.map
      (fun p => (decide (storedBytes p < 5), (analyze .standard p 0 5).missing.get 9,
        (analyze .standard p 0 5).edges.toList))
      = some (true, true,
        [⟨⟨0, 0⟩, ⟨9, 0⟩, .call⟩, ⟨⟨0, 0⟩, ⟨0, 2⟩, .fallthrough⟩, ⟨⟨0, 2⟩, ⟨0, 0⟩, .jump⟩]) := by
    decide +kernel
  obtain ⟨program, hassemble, hrun⟩ := Option.map_eq_some_iff.mp hrun
  simp only [Prod.mk.injEq, decide_eq_true_eq] at hrun
  obtain ⟨hbudget, hmissing, hedges⟩ := hrun
  exact ⟨program, toOption_eq_some_iff.mp hassemble, hbudget,
    exact_analyze .standard program 0 hbudget, hmissing, hedges⟩

end Protocell.Flow
