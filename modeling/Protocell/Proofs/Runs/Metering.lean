import Protocell.Assembly.Draft
import Protocell.Cell.Basic
import Protocell.InstructionSet.Standard
import Protocell.Proofs.Runs.Hosts
import Protocell.Proofs.Success

/-!
# Proofs/Runs/Metering — what is charged shows only to a check of the energy

A machine learns how much energy there is by asking for it, and one operation alone asks
(`Operation.concernsEnergy_of_action`).  Where the answers to everything else do not depend on the
energy (`Host.Conceals`), a step that does not execute this operation does the same whatever energy
there is and whether or not it is charged (`Processor.step_eq_of_conceals`).

The induction over a run needs to know of one of two runs only that it does not check the energy
(`Processor.run_eq_of_conceals`): as long as it has not, the other has the same results and has not
either.  A cell's energy decides no answer but the one to the check, so two cells that are set up
with other energy, metering or ticks do the same until then (`alike_until_energy_check`).
-/

namespace Protocell

/-- Whether a request is about energy that is there or is charged. -/
def Request.concernsEnergy : Request → Bool
  | .energy | .spend _ => true
  | _ => false

/-- **Only one operation asks about energy.** -/
theorem Operation.concernsEnergy_of_action {o : Operation} {arguments : List UInt8} {r : Request}
    (ho : o ≠ .echk) (hr : o.action arguments = .request r) : r.concernsEnergy = false := by
  cases o
  case echk => exact absurd rfl ho
  case jpif =>
    have hupdate : Operation.action .jpif arguments = .update _ := rfl
    cases hupdate.symm.trans hr
  -- All others make a request of their own, or none.
  all_goals first
    | exact Action.request.inj hr ▸ rfl
    | cases hr

variable {σ : Type u} {τ : Type v}

/-- **A host conceals its energy** where a function forgets it: what is charged does not change what
the function leaves of a state, and that alone decides the answers to all requests that are not
about energy. -/
structure Host.Conceals (h : Host σ) (φ : σ → τ) : Prop where
  spend : ∀ n s, φ (h.ask (.spend n) s).2 = φ s
  ask : ∀ r s s', r.concernsEnergy = false → φ s = φ s' →
    (h.ask r s).map id φ = (h.ask r s').map id φ

namespace Processor

variable {h : Host σ} {φ : σ → τ} {p p' : Processor} {c c' : System σ}

theorem charge_of_conceals (hφ : h.Conceals φ) (p : Processor) (cost : UInt16) (s : σ) :
    φ (p.charge h cost s) = φ s := by
  rw [charge]
  split
  · exact hφ.spend cost s
  · rfl

theorem perform_of_conceals (hφ : h.Conceals φ) {a : Action}
    (ha : ∀ r, a = .request r → r.concernsEnergy = false) (m : Machine) {s s' : σ}
    (hs : φ s = φ s') : (a.perform h (m, s)).map id φ = (a.perform h (m, s')).map id φ := by
  cases a with
  | update e => exact Prod.ext rfl hs
  | request r =>
    have hask := hφ.ask r s s' (ha r rfl) hs
    exact congrArg (Prod.map (fun reply => m.pushSome (Request.Reply.operand? r reply)) id) hask

theorem execute_of_conceals (hφ : h.Conceals φ) (p p' : Processor) {f : Form}
    (hf : f.operation ≠ .echk) (m : Machine) {s s' : σ} (hs : φ s = φ s') :
    (p.execute h f m s).map id φ = (p'.execute h f m s').map id φ := by
  rw [execute_eq, execute_eq]
  refine perform_of_conceals hφ (fun _ => Operation.concernsEnergy_of_action hf) _ ?_
  rw [charge_of_conceals hφ, charge_of_conceals hφ, hs]

/-- **A step that does not check the energy does the same whatever energy there is**, and whether or
not it is charged. -/
theorem step_eq_of_conceals (hφ : h.Conceals φ) (hp : p.instructions = p'.instructions)
    (hc : c.mapHost φ = c'.mapHost φ) (hstep : ∀ b, (p.step h c).1 ≠ .executed .echk b) :
    (p.step h c).map id (System.mapHost φ) = (p'.step h c').map id (System.mapHost φ) := by
  obtain ⟨hmachine, hhost⟩ : c.machine = c'.machine ∧ φ c.host = φ c'.host :=
    (System.mk.injEq ..).mp hc
  by_cases hend : c.machine.flags.ended = true
  · rw [step_of_ended hend, step_of_ended (hmachine ▸ hend)]
    exact Prod.ext rfl hc
  rw [Bool.not_eq_true] at hend
  by_cases hsleep : c.machine.sleep = 0
  · rcases hdecode : p.instructions.decode c.machine.fetch.1 with - | f
    · rw [step_of_unassigned hend hsleep hdecode, step_of_unassigned (c := c') (hmachine ▸ hend)
        (hmachine ▸ hsleep) (hp ▸ hmachine ▸ hdecode), ← hmachine]
      exact Prod.ext rfl (congrArg (System.mk _) hhost)
    · have hf : f.operation ≠ .echk := fun hf => hstep c.machine.fetch.1 (by
        rw [step_of_decoded hend hsleep hdecode, hf])
      have hexecute := execute_of_conceals hφ p p' hf c.machine.fetch.2 hhost
      rw [step_of_decoded hend hsleep hdecode, step_of_decoded (c := c') (hmachine ▸ hend)
        (hmachine ▸ hsleep) (hp ▸ hmachine ▸ hdecode), ← hmachine]
      generalize p.execute h f c.machine.fetch.2 c.host = r at hexecute ⊢
      generalize p'.execute h f c.machine.fetch.2 c'.host = r' at hexecute ⊢
      obtain ⟨hr, hrhost⟩ := Prod.mk.inj hexecute
      exact Prod.ext rfl ((System.mk.injEq ..).mpr ⟨congrArg Machine.unwind hr, hrhost⟩)
  · rw [step_of_asleep hend hsleep, step_of_asleep (c := c') (hmachine ▸ hend) (hmachine ▸ hsleep),
      ← hmachine]
    exact Prod.ext rfl (congrArg (System.mk _) hhost)

/-- **So does a run**, if one knows of it that it does not check the energy: another run from the
same machine has the same results, and leaves the same machine after each step. -/
theorem run_eq_of_conceals (hφ : h.Conceals φ) (hp : p.instructions = p'.instructions) {n : ℕ}
    (hc : c.mapHost φ = c'.mapHost φ) (hrun : ∀ b, .executed .echk b ∉ p.results h n c) :
    p.results h n c = p'.results h n c' ∧
      ∀ k ≤ n, (p.after h k c).mapHost φ = (p'.after h k c').mapHost φ := by
  induction n generalizing c c' with
  | zero =>
    refine ⟨rfl, fun k hk => ?_⟩
    obtain rfl := Nat.le_zero.mp hk
    exact hc
  | succ n ih =>
    obtain ⟨hresult, hnext⟩ := Prod.mk.inj (step_eq_of_conceals hφ hp hc fun b hb =>
      hrun b (hb ▸ List.mem_cons_self))
    obtain ⟨hresults, hafter⟩ := ih hnext fun b hb => hrun b (List.mem_cons_of_mem _ hb)
    refine ⟨congrArg₂ List.cons hresult hresults, fun k hk => ?_⟩
    cases k with
    | zero => exact hc
    | succ k => exact hafter k (Nat.le_of_succ_le_succ hk)

end Processor

/-! ## Cells -/

/-- What a cell has to read and has written, without its energy. -/
def CellState.traffic (s : CellState) : List UInt8 × Array UInt8 := (s.input, s.output)

/-- **A cell's energy decides no answer but the one to the question for it.** -/
theorem CellState.conceals_host : CellState.host.Conceals CellState.traffic := by
  refine ⟨fun n s => rfl, ?_⟩
  rintro r ⟨energy, input, output⟩ ⟨energy', input', output'⟩ hr hs
  obtain ⟨rfl, rfl⟩ : input = input' ∧ output = output' := Prod.mk.inj hs
  cases r with
  | energy => cases hr
  | spend n => cases hr
  | input f => cases f <;> rfl
  | _ => rfl

namespace Cell

/-- A cell after some steps. -/
def after (n : ℕ) (c : Cell) : Cell := (fun c => c.step.2)^[n] c

/-- What each of the next `n` steps of a cell does. -/
def results : ℕ → Cell → List Step
  | 0, _ => []
  | n + 1, c => c.step.1 :: c.step.2.results n

/-- The steps of a cell are those of its processor. -/
theorem after_eq (n : ℕ) (c : Cell) :
    c.after n = { c with system := c.processor.after CellState.host n c.system } := by
  induction n generalizing c with
  | zero => rfl
  | succ n ih =>
    have hsucc : c.after (n + 1) = c.step.2.after n := rfl
    rw [hsucc, ih]
    rfl

theorem results_eq (n : ℕ) (c : Cell) :
    c.results n = c.processor.results CellState.host n c.system := by
  induction n generalizing c with
  | zero => rfl
  | succ n ih => exact congrArg (List.cons _) (ih _)

/-- **Two cells are the same but for their energy and configuration**: registers, status, stack and
memory, what is left to be read and what has been written. -/
structure SameButEnergy (c d : Cell) : Prop where
  machine_eq : c.system.machine = d.system.machine
  input_eq : c.system.host.input = d.system.host.input
  output_eq : c.system.host.output = d.system.host.output

end Cell

/-- **Metering is invisible without a check of the energy.**  Two cells with the same instructions,
program and input may be set up with any energy, steps per tick and metering: if one of them makes
some steps without checking its energy, then the steps of the other have the same results, so that
it has not checked its energy either, and after each of them the two are the same but for their
energy. -/
theorem alike_until_energy_check (instructions : InstructionSet) (program : Program)
    (input : List UInt8) (config config' : CellConfig) (n : ℕ) :
    let c := (Cell.withProgram instructions config program).feed input
    let d := (Cell.withProgram instructions config' program).feed input
    (∀ opcode, .executed .echk opcode ∉ c.results n) →
      c.results n = d.results n ∧ ∀ k ≤ n, (c.after k).SameButEnergy (d.after k) := by
  intro c d hunchecked
  simp only [Cell.results_eq, Cell.after_eq] at hunchecked ⊢
  have hinstructions : c.processor.instructions = d.processor.instructions := rfl
  have hstart : c.system.mapHost CellState.traffic = d.system.mapHost CellState.traffic := rfl
  obtain ⟨hresults, hafter⟩ :=
    Processor.run_eq_of_conceals CellState.conceals_host hinstructions hstart hunchecked
  refine ⟨hresults, fun k hk => ?_⟩
  obtain ⟨hmachine, htraffic⟩ := (System.mk.injEq ..).mp (hafter k hk)
  obtain ⟨hinput, houtput⟩ := Prod.mk.inj htraffic
  exact ⟨hmachine, hinput, houtput⟩

/-- A cell that runs out of energy while it reads numbers and writes their successors, beside one
that is not charged. -/
theorem alike_out_of_energy_and_unmetered :
    ∃ program, assemble .standard ".prg 0\n:top\nOUTB ADD 1 INPB\nJUMP @top\n" = .ok program ∧
      let c := (Cell.withProgram .standard { startingEnergy := 3 } program).feed [50, 48, 32, 120]
      let d := (Cell.withProgram .standard
        { startingEnergy := 7, stepsPerTick := 9, processor := { metered := false } } program).feed
          [50, 48, 32, 120]
      (∀ opcode, .executed .echk opcode ∉ c.results 8) ∧ c.results 8 = d.results 8 ∧
        (c.after 8).SameButEnergy (d.after 8) ∧
        (c.after 8).system.host.output.toList = [50, 49, 10, 49, 10] ∧
        (c.after 8).system.host.energy = 0 ∧ (d.after 8).system.host.energy = 7 := by
  let cell (config : CellConfig) (program : Program) : Cell :=
    (Cell.withProgram .standard config program).feed [50, 48, 32, 120]
  let config : CellConfig := { startingEnergy := 3 }
  let config' : CellConfig :=
    { startingEnergy := 7, stepsPerTick := 9, processor := { metered := false } }
  let checks : Step → Bool
    | .executed o _ => o == .echk
    | _ => false
  have hrun : (assemble .standard ".prg 0\n:top\nOUTB ADD 1 INPB\nJUMP @top\n").toOption.map
      (fun program => (((cell config program).results 8).any checks,
        ((cell config program).after 8).system.host.output.toList,
        ((cell config program).after 8).system.host.energy,
        ((cell config' program).after 8).system.host.energy))
      = some (false, [50, 49, 10, 49, 10], 0, 7) := by decide +kernel
  obtain ⟨program, hassemble, hrun⟩ := Option.map_eq_some_iff.mp hrun
  simp only [Prod.mk.injEq, cell, config, config'] at hrun
  obtain ⟨hchecks, houtput, henergy, henergy'⟩ := hrun
  have hunchecked (opcode : UInt8) : .executed .echk opcode ∉ (cell config program).results 8 :=
    fun hmem => List.any_eq_false.mp hchecks _ hmem rfl
  have halike := alike_until_energy_check .standard program [50, 48, 32, 120] config config' 8
    hunchecked
  exact ⟨program, toOption_eq_some_iff.mp hassemble, hunchecked, halike.1,
    halike.2 8 (Nat.le_refl 8),
    houtput, henergy, henergy'⟩

end Protocell
