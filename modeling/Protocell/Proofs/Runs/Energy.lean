import Mathlib.Algebra.Ring.Nat
import Protocell.Proofs.Frames.Live
import Protocell.Proofs.Runs.Metering
import Protocell.Proofs.Runs.Slices
import Protocell.Proofs.Runs.Stores

/-!
# Proofs/Runs/Energy — where the energy of a cell goes

A cell is charged once for each instruction that it executes, before the instruction does anything,
and nothing else takes its energy: no operation asks for it (`Operation.action_ne_spend`), and no
other request touches it (`CellState.energy_perform`).  So a step costs what its instruction is
registered with (`Cell.energy_step`).

A charge stops at zero.  Charges that do so one by one take as much as their sum does at once, so a
run costs the sum of its steps (`Cell.energy_after`).  A check of the energy comes after its own
charge, and sees what the step leaves (`Cell.step_of_energyCheck`).
-/

namespace Protocell

/-- **The registered cost of a step**: that of the instruction that owns the opcode, and nothing for
a step that executes none. -/
def InstructionSet.costOf (s : InstructionSet) : Step → ℕ
  | .executed _ opcode => (s.decode opcode).elim 0 fun f => f.instruction.cost.toNat
  | .idle | .slept | .unassigned _ => 0

theorem InstructionSet.costOf_of_not_executed (s : InstructionSet) {t : Step}
    (ht : ∀ o opcode, t ≠ .executed o opcode) : s.costOf t = 0 := by
  cases t with
  | executed o opcode => exact absurd rfl (ht o opcode)
  | _ => rfl

/-! ## Charges -/

theorem toNat_highByte (n : UInt16) : (n >>> 8).toUInt8.toNat = n.toNat / 256 := by
  have hn : n.toNat < 65536 := n.toNat_lt
  have hshift : (n >>> 8).toNat = n.toNat / 256 := by
    rw [UInt16.toNat_shiftRight, Nat.shiftRight_eq_div_pow]
    rfl
  rw [UInt16.toNat_toUInt8, hshift]
  omega

/-- **No operation takes energy away by itself.** -/
theorem Operation.action_ne_spend (o : Operation) (arguments : List UInt8) (n : UInt16) :
    o.action arguments ≠ .request (.spend n) := by
  intro hspend
  by_cases ho : o = .echk
  · subst ho
    have hcheck : Operation.action .echk arguments = .request .energy := rfl
    cases hcheck.symm.trans hspend
  · cases Operation.concernsEnergy_of_action ho hspend

namespace CellState

/-- **A charge stops at zero.** -/
theorem toNat_energy_spend (s : CellState) (n : UInt16) :
    (s.spend n).energy.toNat = s.energy.toNat - n.toNat := by
  rw [spend]
  split
  · rename_i hle
    rw [Nat.sub_eq_zero_of_le (UInt16.le_iff_toNat_le.mp hle)]
    rfl
  · rename_i hlt
    exact UInt16.toNat_sub_of_le _ _ (UInt16.le_of_lt (UInt16.not_le.mp hlt))

/-- Nothing but a charge changes the energy. -/
theorem energy_ask {r : Request} (hr : ∀ n, r ≠ .spend n) (s : CellState) :
    (host.ask r s).2.energy = s.energy := by
  cases r with
  | spend n => exact absurd rfl (hr n)
  | input f => cases f <;> rfl
  | _ => rfl

/-- **Performing an operation leaves the energy as it is.** -/
theorem energy_perform (o : Operation) (arguments : List UInt8) (m : Machine) (s : CellState) :
    ((o.action arguments).perform host (m, s)).2.energy = s.energy := by
  cases haction : o.action arguments with
  | update e => rfl
  | request r =>
    exact energy_ask (fun n hr => o.action_ne_spend arguments n (hr ▸ haction)) s

end CellState

namespace Cell

/-- The energy that a cell has. -/
def energy (c : Cell) : UInt16 := c.system.host.energy

/-- What a cell is charged for a step. -/
def charged (c : Cell) (t : Step) : ℕ :=
  if c.config.processor.metered then c.instructions.costOf t else 0

/-! ## Steps -/

/-- **A step costs what its instruction is registered with**, as far as there is energy. -/
theorem energy_step (c : Cell) : c.step.2.energy.toNat = c.energy.toNat - c.charged c.step.1 := by
  change (c.processor.step CellState.host c.system).2.host.energy.toNat
    = c.energy.toNat - c.charged (c.processor.step CellState.host c.system).1
  cases hq : c.processor.pending? c.system.machine with
  | none =>
    obtain ⟨hnot, -, hhost⟩ := Processor.step_of_not_pending (h := CellState.host) hq
    rw [hhost, charged, c.instructions.costOf_of_not_executed hnot, ite_self, Nat.sub_zero]
    rfl
  | some q =>
    have hdecode : c.instructions.decode c.system.machine.fetch.1 = some q.form :=
      (Processor.pending?_eq_some_iff.mp hq).2.2.1
    rw [Processor.step_of_pending hq, CellState.energy_perform, charged, InstructionSet.costOf,
      hdecode, Processor.charge]
    change (if c.config.processor.metered then _ else _ : CellState).energy.toNat = _
    split
    · exact CellState.toNat_energy_spend _ _
    · rfl

/-- **A check of the energy comes after its own charge.**  It pushes the high byte of what the step
leaves, on top of what the instruction found when it had taken its arguments. -/
theorem step_of_energyCheck {c : Cell} {opcode : UInt8}
    (hcheck : c.step.1 = .executed .echk opcode) :
    ∃ q v, c.processor.pending? c.system.machine = some q ∧
      v.toNat = c.step.2.energy.toNat / 256 ∧
      c.step.2.system.machine = (q.machine.push v).unwind := by
  obtain ⟨q, hq, ho, -⟩ := Processor.exists_pending hcheck
  let left := c.processor.charge CellState.host q.form.instruction.cost c.system.host
  have hstep : c.step.2.system =
      ⟨(q.machine.push (left.energy >>> 8).toUInt8).unwind, left⟩ := by
    change (c.processor.step CellState.host c.system).2 = _
    rw [Processor.step_of_pending hq, ho]
    rfl
  refine ⟨q, (left.energy >>> 8).toUInt8, hq, ?_, congrArg System.machine hstep⟩
  rw [energy, hstep, toNat_highByte]

end Cell

/-! ## Runs -/

/-- **The steps that a run does not make do nothing.** -/
theorem Processor.run_eq_after {σ : Type u} (p : Processor) (h : Host σ) (n : ℕ) (c : System σ) :
    (p.run h n c).2 = p.after h n c := by
  induction n generalizing c with
  | zero => rfl
  | succ n ih =>
    by_cases hend : c.machine.flags.ended = true
    · rw [run_of_ended _ hend, after_of_ended _ _ _ hend]
    · rw [Bool.not_eq_true] at hend
      rw [run_succ _ hend, ih, after_succ]

namespace Cell

/-- The last step comes last. -/
theorem after_succ' (n : ℕ) (c : Cell) : c.after (n + 1) = (c.after n).step.2 :=
  Function.iterate_succ_apply' _ n c

theorem run_eq_after (c : Cell) (n : ℕ) : (c.run n).2 = c.after n := by
  rw [after_eq]
  exact congrArg (fun system => { c with system })
    (c.processor.run_eq_after CellState.host n c.system)

/-- **A run costs the sum of its steps**, as far as there is energy. -/
theorem energy_after (c : Cell) (n : ℕ) :
    (c.after n).energy.toNat = c.energy.toNat - ((c.results n).map c.charged).sum := by
  induction n generalizing c with
  | zero => rfl
  | succ n ih =>
    have hnext := ih c.step.2
    rw [energy_step] at hnext
    exact hnext.trans (Nat.sub_sub ..)

/-- Each instruction that a run executes is registered. -/
theorem exists_form_of_results (c : Cell) {n : ℕ} {o : Operation} {opcode : UInt8}
    (hmem : .executed o opcode ∈ c.results n) :
    ∃ f, c.instructions.decode opcode = some f ∧ f.operation = o := by
  induction n generalizing c with
  | zero => cases hmem
  | succ n ih =>
    rcases List.mem_cons.mp hmem with hstep | hrest
    · obtain ⟨q, -, ho, hdecode⟩ := Processor.exists_pending hstep.symm
      exact ⟨q.form, hdecode, ho⟩
    · exact ih c.step.2 hrest

end Cell

/-- **Energy accounting is exact.**  However many steps a metered cell makes, they take from its
energy the sum of the registered costs of all instructions executed, or all of it where that is
more; an unmetered cell keeps its energy, and so does a step that executes nothing.  A check of the
energy pushes the high byte of the energy that is left after its own charge, if there is room on the
stack; the machine `q.machine` has read the instruction and taken its arguments, and frames that are
run off are left after the push. -/
theorem energy_is_accounted_exactly (c : Cell) (n : ℕ) :
    (c.run n).2 = c.after n ∧
      (c.config.processor.metered = true →
        (c.after n).energy.toNat =
          c.energy.toNat - ((c.results n).map c.instructions.costOf).sum) ∧
      (c.config.processor.metered = false → (c.after n).energy = c.energy) ∧
      (∀ o opcode, .executed o opcode ∈ c.results n →
        ∃ f, c.instructions.decode opcode = some f ∧ f.operation = o) ∧
      ((∀ o opcode, (c.after n).step.1 ≠ .executed o opcode) →
        (c.after (n + 1)).energy = (c.after n).energy) ∧
      ∀ opcode, (c.after n).step.1 = .executed .echk opcode →
        (c.after (n + 1)).energy.toNat =
          (c.after n).energy.toNat - c.charged (.executed .echk opcode) ∧
        ∃ q v, c.processor.pending? (c.after n).system.machine = some q ∧
          v.toNat = (c.after (n + 1)).energy.toNat / 256 ∧
          (c.after (n + 1)).system.machine = (q.machine.push v).unwind ∧
          (q.machine.push v).live =
            if q.machine.live.length < 255 then q.machine.live ++ [v] else q.machine.live := by
  refine ⟨c.run_eq_after n, fun hmetered => ?_, fun hunmetered => ?_,
    fun o opcode => c.exists_form_of_results, fun hnot => ?_, fun opcode hcheck => ?_⟩
  · have hcharged : c.charged = c.instructions.costOf := funext fun t => if_pos hmetered
    rw [c.energy_after, hcharged]
  · have hcharged : c.charged = fun _ => 0 := funext fun t => if_neg (by simp [hunmetered])
    have hsum : ((c.results n).map fun _ => 0).sum = 0 := by simp
    rw [← UInt16.toNat_inj, c.energy_after, hcharged, hsum, Nat.sub_zero]
  · rw [← UInt16.toNat_inj, Cell.after_succ', Cell.energy_step, Cell.charged,
      InstructionSet.costOf_of_not_executed _ hnot, ite_self, Nat.sub_zero]
  · obtain ⟨q, v, hq, hv, hmachine⟩ := Cell.step_of_energyCheck hcheck
    have hprocessor : (c.after n).processor = c.processor := by
      rw [Cell.after_eq]
      rfl
    have hcharged : (c.after n).charged = c.charged := by
      rw [Cell.after_eq]
      rfl
    have henergy := (c.after n).energy_step
    rw [hcheck, hcharged, ← Cell.after_succ'] at henergy
    rw [← Cell.after_succ'] at hv hmachine
    rw [hprocessor] at hq
    exact ⟨henergy, q, v, hq, hv, hmachine, q.machine.live_push_eq v⟩

/-- Two cells with an instruction that does nothing for 300 and one that checks the energy for 2:
one cell is charged and runs out, the other is not.  On the way they come upon an unassigned
opcode. -/
theorem charged_until_nothing_is_left :
    ∃ instructions program,
      InstructionSet.build [⟨.nop, "NOP", 0, 300⟩, ⟨.echk, "ECHK", 0, 2⟩] [] = .ok instructions ∧
      assemble instructions ".prg 0\nECHK\nNOP\n.dat 9\nECHK\nNOP\nNOP\n" = .ok program ∧
      let c := Cell.withProgram instructions { startingEnergy := 700 } program
      let d := Cell.withProgram instructions
        { startingEnergy := 700, processor := { metered := false } } program
      (c.run 6).2.energy.toNat = 700 - (2 + 300 + 0 + 2 + 300 + 300) ∧
        (d.after 6).energy = 700 ∧
        (∃ f, instructions.decode 1 = some f ∧ f.operation = .echk) ∧
        (c.after 3).energy = (c.after 2).energy ∧
        (c.after 3).step.1 = .executed .echk 1 ∧
        (c.after 4).energy.toNat = (c.after 3).energy.toNat - c.charged (.executed .echk 1) ∧
        ∃ q v, c.processor.pending? (c.after 3).system.machine = some q ∧
          v.toNat = (c.after 4).energy.toNat / 256 ∧
          (c.after 4).system.machine = (q.machine.push v).unwind ∧
          (q.machine.push v).live = [2, 1] := by
  let charged (instructions : InstructionSet) (program : Program) : Cell :=
    Cell.withProgram instructions { startingEnergy := 700 } program
  let free (instructions : InstructionSet) (program : Program) : Cell :=
    Cell.withProgram instructions
      { startingEnergy := 700, processor := { metered := false } } program
  let ds : List Definition := [⟨.nop, "NOP", 0, 300⟩, ⟨.echk, "ECHK", 0, 2⟩]
  have hrun : ((InstructionSet.build ds []).toOption.bind fun instructions =>
        (assemble instructions ".prg 0\nECHK\nNOP\n.dat 9\nECHK\nNOP\nNOP\n").toOption.map
          fun program =>
            let c := charged instructions program
            ((c.results 6).map instructions.costOf,
              [c.step.1, (c.after 2).step.1, (c.after 3).step.1], (c.after 4).energy,
              (c.processor.pending? (c.after 3).system.machine).map fun q => q.machine.live))
      = some ([2, 300, 0, 2, 300, 300], [.executed .echk 1, .unassigned 9, .executed .echk 1], 396,
          some [2]) := by decide +kernel
  obtain ⟨instructions, hbuild, hrun⟩ := Option.bind_eq_some_iff.mp hrun
  obtain ⟨program, hassemble, hrun⟩ := Option.map_eq_some_iff.mp hrun
  simp only [Prod.mk.injEq, List.cons.injEq] at hrun
  obtain ⟨hcosts, ⟨hfirst, hunassigned, hcheck, -⟩, hleft, hlive⟩ := hrun
  obtain ⟨hmade, hmetered, -, hregistered, -, -⟩ :=
    energy_is_accounted_exactly (charged instructions program) 6
  obtain ⟨-, -, hfree, -, -, -⟩ := energy_is_accounted_exactly (free instructions program) 6
  obtain ⟨-, -, -, -, hkept, -⟩ := energy_is_accounted_exactly (charged instructions program) 2
  obtain ⟨-, -, -, -, -, hpushed⟩ := energy_is_accounted_exactly (charged instructions program) 3
  obtain ⟨hown, q, v, hq, hv, hmachine, hpush⟩ := hpushed 1 hcheck
  refine ⟨instructions, program, toOption_eq_some_iff.mp hbuild, toOption_eq_some_iff.mp hassemble,
    ?_, hfree rfl, hregistered _ _ (List.mem_cons.mpr (.inl hfirst.symm)), hkept ?_, hcheck,
    hown, q, v, hq, hv, hmachine, ?_⟩
  · rw [hmade, hmetered rfl]
    exact congrArg (fun costs => 700 - costs.sum) hcosts
  · intro o opcode hexecuted
    rw [hunassigned] at hexecuted
    cases hexecuted
  · have hone : v = 1 := by
      rw [← UInt8.toNat_inj, hv, hleft]
      rfl
    have htwo : q.machine.live = [2] := by
      rw [hq] at hlive
      exact Option.some.inj hlive
    rw [hpush, htwo, hone]
    rfl

end Protocell
