import Protocell.Proofs.Runs.Step

/-!
# Proofs/Runs/Hosts — hosts that answer alike

A machine knows its host by its answers only.  If a function takes the states of one host to those
of another that gives the same answers (`Host.Respects`), then it takes every step and every run
against the one to a step and a run against the other (`step_mapHost`, `run_mapHost`).

So a run is not changed by what its host keeps besides: a record of the requests, or what was
written before.
-/

namespace Protocell

variable {σ : Type u} {τ : Type v}

/-- **A function takes a host to another that answers alike.** -/
def Host.Respects (h : Host σ) (h' : Host τ) (φ : σ → τ) : Prop :=
  ∀ r s, h'.ask r (φ s) = (h.ask r s).map id φ

/-- The system with another state of its host. -/
def System.mapHost (φ : σ → τ) (c : System σ) : System τ := ⟨c.machine, φ c.host⟩

namespace Processor

variable {h : Host σ} {h' : Host τ} {φ : σ → τ}

theorem charge_map (hφ : h.Respects h' φ) (p : Processor) (cost : UInt16) (s : σ) :
    p.charge h' cost (φ s) = φ (p.charge h cost s) := by
  rw [charge, charge]
  split
  · rw [hφ]
    rfl
  · rfl

theorem perform_map (hφ : h.Respects h' φ) (a : Action) (m : Machine) (s : σ) :
    a.perform h' (m, φ s) = (a.perform h (m, s)).map id φ := by
  cases a with
  | update e => rfl
  | request r =>
    rw [Action.perform, Action.perform, hφ]
    rfl

theorem execute_map (hφ : h.Respects h' φ) (p : Processor) (f : Form) (m : Machine) (s : σ) :
    p.execute h' f m (φ s) = (p.execute h f m s).map id φ := by
  rw [execute_eq, execute_eq, charge_map hφ, perform_map hφ]

/-- **A step does the same against hosts that answer alike.** -/
theorem step_mapHost (hφ : h.Respects h' φ) (p : Processor) (c : System σ) :
    p.step h' (c.mapHost φ) = (p.step h c).map id (System.mapHost φ) := by
  by_cases hend : c.machine.flags.ended = true
  · rw [step_of_ended hend, step_of_ended (c := c.mapHost φ) hend]
    rfl
  rw [Bool.not_eq_true] at hend
  by_cases hsleep : c.machine.sleep = 0
  · rcases hdecode : p.instructions.decode c.machine.fetch.1 with - | f
    · rw [step_of_unassigned hend hsleep hdecode,
        step_of_unassigned (c := c.mapHost φ) hend hsleep hdecode]
      rfl
    · rw [step_of_decoded hend hsleep hdecode,
        step_of_decoded (c := c.mapHost φ) hend hsleep hdecode]
      have hexecute : p.execute h' f (c.mapHost φ).machine.fetch.2 (c.mapHost φ).host = _ :=
        execute_map hφ p f c.machine.fetch.2 c.host
      rw [hexecute]
      rfl
  · rw [step_of_asleep hend hsleep, step_of_asleep (c := c.mapHost φ) hend hsleep]
    rfl

/-- **So does any number of steps.** -/
theorem after_mapHost (hφ : h.Respects h' φ) (p : Processor) (n : ℕ) (c : System σ) :
    p.after h' n (c.mapHost φ) = (p.after h n c).mapHost φ := by
  induction n generalizing c with
  | zero => rfl
  | succ n ih =>
    rw [after_succ, after_succ, step_mapHost hφ]
    exact ih _

theorem runFrom_mapHost (hφ : h.Respects h' φ) (p : Processor) (taken n : ℕ) (c : System σ) :
    p.runFrom h' taken n (c.mapHost φ) = (p.runFrom h taken n c).map id (System.mapHost φ) := by
  induction n generalizing taken c with
  | zero => rfl
  | succ n ih =>
    rw [runFrom_succ, runFrom_succ]
    change (if c.machine.flags.ended = true then _ else _) = _
    split
    · rfl
    · rw [step_mapHost hφ]
      exact ih _ _

/-- **So does a run**, which makes as many steps. -/
theorem run_mapHost (hφ : h.Respects h' φ) (p : Processor) (n : ℕ) (c : System σ) :
    p.run h' n (c.mapHost φ) = (p.run h n c).map id (System.mapHost φ) :=
  runFrom_mapHost hφ p 0 n c

end Processor

end Protocell
