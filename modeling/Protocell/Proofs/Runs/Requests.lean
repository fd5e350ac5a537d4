import Protocell.Proofs.Runs.Hosts

/-!
# Proofs/Runs/Requests — what a run asks of its host

A host that records what it is asked answers as it would without the record, so a run against it is
the run itself with a list added (`Processor.after_recorded`).  That list is what the run asked
(`Processor.requests`).
-/

namespace Protocell

/-- The system with an empty record added to its host. -/
def System.recording (c : System σ) : System (σ × List Request) := ⟨c.machine, (c.host, [])⟩

/-- The system without its host's record. -/
def System.forgetful (c : System (σ × List Request)) : System σ := ⟨c.machine, c.host.1⟩

/-- A host answers the same whether or not it records what it is asked. -/
theorem Host.respects_recorded (h : Host σ) : h.recorded.Respects h Prod.fst := fun _ _ => rfl

namespace Processor

variable {σ : Type u}

/-- **A run does the same whether or not its requests are recorded.** -/
theorem after_recorded (p : Processor) (h : Host σ) (n : ℕ) (c : System (σ × List Request)) :
    (p.after h.recorded n c).forgetful = p.after h n c.forgetful :=
  (after_mapHost h.respects_recorded p n c).symm

/-- **What the next `n` steps ask of the host**, first to last. -/
def requests (p : Processor) (h : Host σ) (n : ℕ) (c : System σ) : List Request :=
  (p.after h.recorded n c.recording).host.2

end Processor

end Protocell
