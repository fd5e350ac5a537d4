import Mathlib.Algebra.Group.Nat.Defs
import Protocell.Command.Run
import Protocell.Proofs.Runs.Hosts

/-!
# Proofs/Runs/Slices — running in slices changes nothing

A run of `a + b` steps is a run of `a` steps and then one of `b` (`Processor.run_add`): if the first
comes to the end, the second makes no step.  So it does not matter into how many ticks or slices the
steps are cut.

Between slices the output is taken away.  A cell never reads what it has written, so a cell that has
written something before answers its processor as one that has not (`CellState.respects_behind`),
and what the slices write is, in a row, what one run writes (`Command.runSlices_eq`).
-/

namespace Protocell

/-! ## Runs of processors -/

namespace Processor

variable {σ : Type u} {p : Processor} {h : Host σ} {c : System σ}

/-- What was made before is added to the steps of a run, and does not change it. -/
theorem runFrom_eq (p : Processor) (h : Host σ) (taken n : ℕ) (c : System σ) :
    p.runFrom h taken n c = (taken + (p.run h n c).1, (p.run h n c).2) := by
  rw [run]
  induction n generalizing taken c with
  | zero => rfl
  | succ n ih =>
    rw [runFrom_succ, runFrom_succ]
    split
    · rfl
    · rw [ih (taken + 1), ih (0 + 1)]
      refine Prod.ext ?_ rfl
      change taken + 1 + _ = taken + (0 + 1 + _)
      omega

theorem run_of_ended (n : ℕ) (hend : c.machine.flags.ended = true) : p.run h n c = (0, c) := by
  cases n with
  | zero => rfl
  | succ n => rw [run, runFrom_succ, if_pos hend]

theorem run_succ (n : ℕ) (hend : c.machine.flags.ended = false) :
    p.run h (n + 1) c = (1 + (p.run h n (p.step h c).2).1, (p.run h n (p.step h c).2).2) := by
  rw [run, runFrom_succ, if_neg (Bool.eq_false_iff.mp hend), runFrom_eq]

/-- **A run of `a + b` steps is one of `a` steps and then one of `b`.** -/
theorem run_add (p : Processor) (h : Host σ) (a b : ℕ) (c : System σ) :
    p.run h (a + b) c =
      ((p.run h a c).1 + (p.run h b (p.run h a c).2).1, (p.run h b (p.run h a c).2).2) := by
  induction a generalizing c with
  | zero =>
    rw [Nat.zero_add]
    exact Prod.ext (Nat.zero_add _).symm rfl
  | succ a ih =>
    by_cases hend : c.machine.flags.ended = true
    · rw [run_of_ended _ hend, run_of_ended _ hend, run_of_ended _ hend]
      rfl
    · rw [Bool.not_eq_true] at hend
      rw [Nat.succ_add, run_succ _ hend, run_succ _ hend, ih, Nat.add_assoc]

/-- **A run makes all its steps or comes to the end.** -/
theorem run_fst_eq_or_ended (p : Processor) (h : Host σ) (n : ℕ) (c : System σ) :
    (p.run h n c).1 = n ∨ (p.run h n c).2.machine.flags.ended = true := by
  induction n generalizing c with
  | zero => exact .inl rfl
  | succ n ih =>
    by_cases hend : c.machine.flags.ended = true
    · rw [run_of_ended _ hend]
      exact .inr hend
    · rw [Bool.not_eq_true] at hend
      rw [run_succ _ hend]
      exact (ih _).imp_left fun hn => by rw [hn, Nat.add_comm]

end Processor

/-! ## Runs of cells -/

namespace CellState

/-- The state of a cell that wrote some bytes before. -/
def behind (written : Array UInt8) (s : CellState) : CellState :=
  { s with output := written ++ s.output }

/-- **A cell never reads what it has written.** -/
theorem respects_behind (written : Array UInt8) : host.Respects host (behind written) := by
  intro r s
  cases r with
  | input f => cases f <;> rfl
  | output v f =>
    have houtput : written ++ s.output ++ encode v f = written ++ (s.output ++ encode v f) :=
      Array.ext' (by simp)
    exact Prod.ext rfl (congrArg (fun output => ({ s with output } : CellState)) houtput)
  | _ => rfl

end CellState

namespace Cell

variable {c : Cell}

theorem run_of_finished (n : ℕ) (hc : c.finished = true) : c.run n = (0, c) := by
  rw [run, Processor.run_of_ended n hc]
  rfl

theorem run_add (c : Cell) (a b : ℕ) :
    c.run (a + b) = ((c.run a).1 + ((c.run a).2.run b).1, ((c.run a).2.run b).2) := by
  rw [run, Processor.run_add]
  rfl

theorem run_fst_eq_or_finished (c : Cell) (n : ℕ) :
    (c.run n).1 = n ∨ (c.run n).2.finished = true :=
  c.processor.run_fst_eq_or_ended CellState.host n c.system

/-- **After a run of up to `a` steps there are as many steps to go as it has left.** -/
theorem run_eq_of_le (c : Cell) {a n : ℕ} (ha : a ≤ n) :
    c.run n = ((c.run a).1 + ((c.run a).2.run (n - (c.run a).1)).1,
      ((c.run a).2.run (n - (c.run a).1)).2) := by
  obtain ⟨b, rfl⟩ := Nat.exists_eq_add_of_le ha
  rw [run_add]
  rcases c.run_fst_eq_or_finished a with hsteps | hfinished
  · rw [hsteps, Nat.add_sub_cancel_left]
  · rw [run_of_finished _ hfinished, run_of_finished _ hfinished]

/-- A number of ticks, one after the other; tells how many steps were made in all. -/
def ticks : ℕ → Cell → ℕ × Cell
  | 0, c => (0, c)
  | n + 1, c =>
    let r := c.tick
    let rest := ticks n r.2
    (r.1 + rest.1, rest.2)

/-- **Ticks are a run of as many times the steps of a tick.** -/
theorem ticks_eq_run (c : Cell) (n : ℕ) : c.ticks n = c.run (n * c.config.stepsPerTick.toNat) := by
  induction n generalizing c with
  | zero =>
    rw [Nat.zero_mul]
    rfl
  | succ n ih =>
    rw [ticks, ih, Nat.succ_mul, Nat.add_comm (n * _), run_add]
    rfl

/-! ## Taking the output away -/

/-- The cell, had it written some bytes before. -/
def behind (written : Array UInt8) (c : Cell) : Cell :=
  { c with system := c.system.mapHost (CellState.behind written) }

/-- **What was written before does not change a run.** -/
theorem run_behind (written : Array UInt8) (c : Cell) (n : ℕ) :
    (c.behind written).run n = (c.run n).map id (behind written) := by
  have hrun : (c.behind written).processor.run CellState.host n (c.behind written).system = _ :=
    c.processor.run_mapHost (CellState.respects_behind written) n c.system
  rw [run, hrun]
  rfl

/-- The bytes that a cell has written. -/
def output (c : Cell) : Array UInt8 := c.system.host.output

theorem behind_takeOutput (c : Cell) : c.takeOutput.2.behind c.output = c := by
  have houtput : c.output ++ #[] = c.output := Array.append_empty
  exact congrArg (fun output => { c with system :=
    { c.system with host := { c.system.host with output } } }) houtput

theorem takeOutput_behind (written : Array UInt8) (c : Cell) :
    (c.behind written).takeOutput = (written.toList ++ c.takeOutput.1, c.takeOutput.2) :=
  Prod.ext Array.toList_append rfl

theorem takeOutput_of_empty (hc : c.output = #[]) : c.takeOutput = ([], c) := by
  obtain ⟨config, instructions, machine, energy, input, out⟩ := c
  obtain rfl : out = #[] := hc
  rfl

end Cell

namespace Command

/-- **Slices make as many steps as one run and write the same bytes**, from any point on at which
the output has been taken. -/
theorem runSlices_eq (maxSteps : ℕ) (r : Progress) (hr : r.cell.output = #[]) :
    runSlices maxSteps r =
      { steps := r.steps + (r.cell.run (maxSteps - r.steps)).1
        cell := (r.cell.run (maxSteps - r.steps)).2.takeOutput.2
        written := r.written ++ (r.cell.run (maxSteps - r.steps)).2.takeOutput.1 } := by
  fun_induction runSlices maxSteps r with
  | case1 r hstop =>
    have hrun : r.cell.run (maxSteps - r.steps) = (0, r.cell) := by
      rcases hstop with hsteps | hfinished
      · rw [Nat.sub_eq_zero_of_le hsteps]
        rfl
      · exact Cell.run_of_finished _ hfinished
    rw [hrun, Cell.takeOutput_of_empty hr]
    have hwritten : r.written = r.written ++ ([] : List UInt8) := Array.ext' (by simp)
    exact congrArg (fun written => { r with written }) hwritten
  | case2 r hgo s o ih =>
    generalize hrest : o.2.run (maxSteps - (r.steps + s.1)) = rest
    have hwhole : r.cell.run (maxSteps - r.steps) = (s.1 + rest.1, rest.2.behind s.2.output) := by
      have hback := o.2.run_behind s.2.output (maxSteps - (r.steps + s.1))
      rw [s.2.behind_takeOutput, hrest, Nat.sub_add_eq] at hback
      have hsplit : r.cell.run (maxSteps - r.steps) = (s.1 + _, _) :=
        r.cell.run_eq_of_le (Nat.min_le_left _ sliceSize)
      rw [hsplit, hback]
      rfl
    have hwritten : r.written ++ s.2.output.toList ++ rest.2.takeOutput.1
        = r.written ++ (s.2.output.toList ++ rest.2.takeOutput.1) := Array.ext' (by simp)
    rw [ih rfl, hwhole, Cell.takeOutput_behind, ← hwritten, ← Nat.add_assoc, hrest]
    rfl

end Command

/-- **Running in slices changes nothing.**  A run of `a + b` steps is a run of `a` steps and then
one of `b`, and ticks are a run of all their steps together.  So the slices in which a program is
run come to an end, at the last step allowed or at the end of the program.  They have then made the
steps of one run, left its machine and its energy, and written in all what this run has written; and
that is what the command prints. -/
theorem slices_eq_run :
    (∀ (c : Cell) (a b : ℕ),
      c.run (a + b) = ((c.run a).1 + ((c.run a).2.run b).1, ((c.run a).2.run b).2)) ∧
    (∀ (c : Cell) (n : ℕ), c.ticks n = c.run (n * c.config.stepsPerTick.toNat)) ∧
    (∀ (instructions : InstructionSet) (config : CellConfig) (program : Program)
      (input : List UInt8) (maxSteps : ℕ),
      let c := (Cell.withProgram instructions config program).feed input
      let whole := c.run maxSteps
      let sliced := Command.runSlices maxSteps { cell := c }
      (maxSteps ≤ sliced.steps ∨ sliced.cell.finished = true) ∧ sliced.steps = whole.1 ∧
        sliced.cell = whole.2.takeOutput.2 ∧
        sliced.cell.system.machine.snapshot = whole.2.system.machine.snapshot ∧
        sliced.cell.system.host.energy = whole.2.system.host.energy ∧
        sliced.written.toList = whole.2.takeOutput.1) ∧
    ∀ (o : Command.RunOptions) (config : CellConfig) (program : Program),
      let c := (Cell.withProgram .standard config program).feed
        (Command.textBytes (o.input.getD ""))
      let whole := c.run o.maxSteps
      Command.execute o config program = whole.2.takeOutput.1 ++
        if o.dump then Command.textBytes (Command.dumpText whole.2.system.machine) else [] := by
  have hsliced (c : Cell) (n : ℕ) (hc : c.output = #[]) : Command.runSlices n { cell := c } = _ :=
    Command.runSlices_eq n { cell := c } hc
  have hwritten (bytes : List UInt8) : ((#[] : Array UInt8) ++ bytes).toList = bytes := by simp
  refine ⟨Cell.run_add, Cell.ticks_eq_run, ?_, ?_⟩
  · intro instructions config program input maxSteps c whole sliced
    have heq : sliced = _ := hsliced c maxSteps rfl
    rw [Nat.sub_zero, Nat.zero_add] at heq
    rw [heq]
    refine ⟨?_, rfl, rfl, rfl, rfl, hwritten _⟩
    exact (c.run_fst_eq_or_finished maxSteps).imp_left fun hsteps => Nat.le_of_eq hsteps.symm
  · intro o config program c whole
    have heq := hsliced c o.maxSteps rfl
    rw [Nat.sub_zero] at heq
    have hexecute : Command.execute o config program =
        (Command.runSlices o.maxSteps { cell := c }).written.toList ++ if o.dump then
          Command.textBytes (Command.dumpText
            (Command.runSlices o.maxSteps { cell := c }).cell.system.machine) else [] := rfl
    rw [hexecute, heq, hwritten]
    rfl

end Protocell
