import Mathlib.Logic.Function.Iterate
import Protocell.Machine.Step

/-!
# Proofs/Access — everything that can be done to a processor

A processor's owner may load a program, make a step, or use any stack, control and memory operation
directly (`Access`), in any order.  `Processor.accesses` is a row of such dealings with the answers
they gave; a state that comes out of one which began with a new machine is a *reached* state.
`Processor.after` is the special case of steps alone.
-/

namespace Protocell

/-- One dealing with a processor. -/
inductive Access
  | load (program : Program)
  | step
  | push (v : UInt8)
  | pop
  | peek (depth : UInt8)
  | jump (offset : UInt8)
  | call (bank : UInt8)
  | ret
  | doze (n : UInt8)
  | localLoad (offset : UInt8)
  | localStore (offset v : UInt8)
  | remoteLoad (bank offset : UInt8)
  | remoteStore (bank offset v : UInt8)

/-- What a dealing is answered with. -/
inductive Answer
  | done
  | byte (v : UInt8)
  | stepped (s : Step)
deriving DecidableEq, Repr

namespace Processor

/-! ## The four kinds of steps -/

section Step

variable {p : Processor} {conduct : Conduct σ} {h : Host σ} {c : System σ}

theorem execute_eq (f : Form) (m : Machine) (s : σ) :
    p.execute h f m s =
      (f.operation.action (m.resolve f.slots).1).perform h
        ((m.resolve f.slots).2, p.charge h f.instruction.cost s) := rfl

theorem stepBy_of_ended (hend : c.machine.flags.ended = true) :
    p.stepBy conduct h c = (.idle, c) := by
  rw [stepBy, if_pos hend]

theorem stepBy_of_asleep (hend : c.machine.flags.ended = false) (hsleep : c.machine.sleep ≠ 0) :
    p.stepBy conduct h c =
      (.slept, { c with machine := { c.machine with sleep := c.machine.sleep - 1 } }) := by
  rw [stepBy, if_neg (Bool.eq_false_iff.mp hend), if_pos hsleep]

theorem stepBy_of_unassigned (hend : c.machine.flags.ended = false) (hsleep : c.machine.sleep = 0)
    (hdecode : p.instructions.decode c.machine.fetch.1 = none) :
    p.stepBy conduct h c =
      (.unassigned c.machine.fetch.1, { c with machine := c.machine.fetch.2.unwind }) := by
  rw [stepBy, if_neg (Bool.eq_false_iff.mp hend), if_neg (not_not_intro hsleep)]
  simp only [hdecode]

theorem stepBy_of_decoded {f : Form} (hend : c.machine.flags.ended = false)
    (hsleep : c.machine.sleep = 0) (hdecode : p.instructions.decode c.machine.fetch.1 = some f) :
    p.stepBy conduct h c =
      (.executed f.operation c.machine.fetch.1,
        ⟨(p.executeBy conduct h f c.machine.fetch.2 c.host).1.unwind,
          (p.executeBy conduct h f c.machine.fetch.2 c.host).2⟩) := by
  rw [stepBy, if_neg (Bool.eq_false_iff.mp hend), if_neg (not_not_intro hsleep)]
  simp only [hdecode]

theorem step_of_ended (hend : c.machine.flags.ended = true) : p.step h c = (.idle, c) :=
  stepBy_of_ended hend

theorem step_of_asleep (hend : c.machine.flags.ended = false) (hsleep : c.machine.sleep ≠ 0) :
    p.step h c =
      (.slept, { c with machine := { c.machine with sleep := c.machine.sleep - 1 } }) :=
  stepBy_of_asleep hend hsleep

theorem step_of_unassigned (hend : c.machine.flags.ended = false) (hsleep : c.machine.sleep = 0)
    (hdecode : p.instructions.decode c.machine.fetch.1 = none) :
    p.step h c =
      (.unassigned c.machine.fetch.1, { c with machine := c.machine.fetch.2.unwind }) :=
  stepBy_of_unassigned hend hsleep hdecode

theorem step_of_decoded {f : Form} (hend : c.machine.flags.ended = false)
    (hsleep : c.machine.sleep = 0) (hdecode : p.instructions.decode c.machine.fetch.1 = some f) :
    p.step h c =
      (.executed f.operation c.machine.fetch.1,
        ⟨(p.execute h f c.machine.fetch.2 c.host).1.unwind,
          (p.execute h f c.machine.fetch.2 c.host).2⟩) :=
  stepBy_of_decoded hend hsleep hdecode

end Step

/-! ## Rows of dealings -/

/-- One dealing with a processor. -/
def access (p : Processor) (h : Host σ) (c : System σ) : Access → Answer × System σ
  | .load program => (.done, { c with machine := .load program })
  | .step => ((p.step h c).map .stepped id)
  | .push v => (.done, { c with machine := c.machine.push v })
  | .pop => (.byte c.machine.pop.1, { c with machine := c.machine.pop.2 })
  | .peek depth => (.byte (c.machine.peek depth), c)
  | .jump offset => (.done, { c with machine := c.machine.jump offset })
  | .call bank => (.done, { c with machine := c.machine.call bank })
  | .ret => (.done, { c with machine := c.machine.ret })
  | .doze n => (.done, { c with machine := c.machine.doze n })
  | .localLoad offset => (.byte (c.machine.localLoad offset), c)
  | .localStore offset v => (.done, { c with machine := c.machine.localStore offset v })
  | .remoteLoad bank offset => (.byte (c.machine.remoteLoad bank offset), c)
  | .remoteStore bank offset v => (.done, { c with machine := c.machine.remoteStore bank offset v })

/-- A row of dealings, with the answers in order. -/
def accesses (p : Processor) (h : Host σ) : List Access → System σ → List Answer × System σ
  | [], c => ([], c)
  | a :: as, c =>
    let (answer, c) := p.access h c a
    let (answers, c) := p.accesses h as c
    (answer :: answers, c)

/-- The system after some steps. -/
def after (p : Processor) (h : Host σ) (n : ℕ) (c : System σ) : System σ :=
  (fun c => (p.step h c).2)^[n] c

end Processor

end Protocell
