import Protocell.Proofs.Runs.Step

/-!
# Proofs/Runs/Status — what holds between steps

Between steps a machine has ended just if it has halted, and one that has not is in a bank that is
there and returns to banks that are there (`settled_of_run`).

Within a step less is true.  While the instruction is read, the machine may have run off its bank
but still is in one that is there (`FrameMachine.Housed`).  After its change it may also be in an
absent bank, but then it is at its end (`FrameMachine.Grounded`); unwinding takes it from there to a
bank that is there or to a halt (`FrameMachine.Settled`).  A jump needs no check of its own because
it stays in its bank.
-/

namespace Protocell

/-- The banks in which the open calls go on, the last call's first. -/
def Frames.returnBanks : Frames → List UInt8
  | root _ => []
  | called caller _ pi _ => pi :: caller.returnBanks

@[simp] theorem Frames.returnBanks_withOperands (fs : Frames) (vs : List UInt8) :
    (fs.withOperands vs).returnBanks = fs.returnBanks := by cases fs <;> rfl

namespace FrameMachine

variable {m m' : FrameMachine} {o : Operation}

/-- All open calls go on in banks that are there. -/
def CanReturn (m : FrameMachine) : Prop :=
  ∀ bank ∈ m.frames.returnBanks, m.memory.resident bank = true

/-- **A machine that reads an instruction**: it has not halted, and it is in a bank that is there.
-/
structure Housed (m : FrameMachine) : Prop where
  running : m.flags.halted = false
  here : m.memory.resident m.pi = true
  returns : m.CanReturn

/-- **A machine at any time after its change**: in a bank that is there unless it is at its end, and
halted only in the root frame. -/
structure Grounded (m : FrameMachine) : Prop where
  here : m.flags.ended = false → m.memory.resident m.pi = true
  returns : m.CanReturn
  halted : m.flags.halted = true → m.flags.ended = true ∧ m.frames.start = 0

/-- **A machine between steps**: it has halted if it is at its end. -/
structure Settled (m : FrameMachine) : Prop extends Grounded m where
  ended : m.flags.ended = true → m.flags.halted = true

/-! ## Reading an instruction -/

theorem Settled.housed (h : m.Settled) (hend : m.flags.ended = false) : m.Housed where
  running := by
    rw [← Bool.not_eq_true]
    intro hhalted
    exact absurd (hend.symm.trans (h.halted hhalted).1) Bool.noConfusion
  here := h.here hend
  returns := h.returns

theorem Housed.fetch (h : m.Housed) : m.fetch.2.Housed := by
  rw [FrameMachine.fetch]
  split
  · exact h
  · exact ⟨h.running, h.here, h.returns⟩

theorem Housed.pop (h : m.Housed) : m.pop.2.Housed where
  running := h.running
  here := h.here
  returns bank hbank := h.returns bank (by rwa [FrameMachine.pop, Frames.pop,
    Frames.returnBanks_withOperands] at hbank)

theorem Housed.grounded (h : m.Housed) : m.Grounded where
  here _ := h.here
  returns := h.returns
  halted hhalted := absurd (h.running.symm.trans hhalted) Bool.noConfusion

/-! ## Changes and returns -/

theorem Grounded.ret (h : m.Grounded) (hrunning : m.flags.halted = false) : m.ret.Grounded := by
  have hreturns := h.returns
  cases hframes : m.frames with
  | root vs =>
    rw [ret_root hframes]
    refine ⟨fun hend => (nomatch hend), hreturns, fun _ => ⟨rfl, ?_⟩⟩
    change m.frames.start = 0
    rw [hframes, Frames.start]
  | called caller pc pi vs =>
    rw [CanReturn, hframes, Frames.returnBanks, List.forall_mem_cons] at hreturns
    obtain ⟨hpi, hcaller⟩ := hreturns
    rw [ret_called hframes]
    refine ⟨fun _ => hpi, hcaller, fun hhalted => ?_⟩
    exact absurd (hrunning.symm.trans hhalted) Bool.noConfusion

/-- **A change leaves the machine in a bank that is there, or at its end.**  A call is the one
change that goes to another bank, and it looks whether the bank is there. -/
theorem Change.grounded (hm : m.Housed) (h : Change o m m') : m'.Grounded := by
  have hrunning (hhalted : m.flags.halted = true) {P : Prop} : P :=
    absurd (hm.running.symm.trans hhalted) Bool.noConfusion
  rcases h with ⟨vs, overflowed⟩ | ⟨n⟩ | ⟨bank, offset, v⟩ | ⟨offset⟩ | ⟨bank⟩ | -
  · refine ⟨fun _ => hm.here, fun b hb => hm.returns b ?_, fun hhalted => hrunning hhalted⟩
    rwa [Frames.returnBanks_withOperands] at hb
  · exact ⟨fun _ => hm.here, hm.returns, fun hhalted => hrunning hhalted⟩
  · have hkept (b : UInt8) (hb : m.memory.resident b = true) :
        (m.memory.write bank offset v).resident b = true := by
      rw [Memory.resident_write, hb, Bool.or_true]
    exact ⟨fun _ => hkept _ hm.here, fun b hb => hkept b (hm.returns b hb),
      fun hhalted => hrunning hhalted⟩
  · exact ⟨fun _ => hm.here, hm.returns, fun hhalted => hrunning hhalted⟩
  · refine ⟨fun hend => ?_, ?_, fun hhalted => hrunning hhalted⟩
    · change (!m.memory.resident bank) = false at hend
      rwa [Bool.not_eq_false'] at hend
    · exact List.forall_mem_cons.mpr ⟨hm.here, hm.returns⟩
  · exact hm.grounded.ret hm.running

end FrameMachine

open FrameMachine

/-! ## Steps and runs -/

/-- **A step leaves a settled machine settled.** -/
theorem FrameMachine.Settled.step {c : FrameSystem σ} (hc : c.machine.Settled) (p : Processor)
    (h : Host σ) : (p.frameStep h c).2.machine.Settled := by
  by_cases hend : c.machine.flags.ended = true
  · rw [Processor.frameStep_of_ended hend]
    exact hc
  rw [Bool.not_eq_true] at hend
  by_cases hsleep : c.machine.sleep = 0
  · have hgrounded : (p.frameStep h c).2.machine.Grounded :=
      Processor.frameStep_induction hend hsleep (hc.housed hend).fetch (fun _ hm => hm.fetch)
        (fun _ hm => hm.pop) (fun _ hm => hm.grounded)
        (fun _ _ _ _ _ hm hchange => hchange.grounded hm) (fun _ hm _ hrunning => hm.ret hrunning)
    obtain ⟨m, hm⟩ := Processor.exists_frameStep_eq_unwind (p := p) (h := h) hend hsleep
    refine ⟨hgrounded, ?_⟩
    rw [hm]
    exact halted_unwind
  · rw [Processor.frameStep_of_asleep hend hsleep]
    exact ⟨⟨hc.here, hc.returns, hc.halted⟩, hc.ended⟩

/-- A program that was just loaded is settled. -/
theorem FrameMachine.settled_load (program : Program) : (FrameMachine.load program).Settled := by
  have hreturns : (FrameMachine.load program).CanReturn := fun bank hbank => nomatch hbank
  cases hhas : program.has 0 with
  | true =>
    have hflags : (FrameMachine.load program).flags = {} := by rw [FrameMachine.load, hhas]; rfl
    refine ⟨⟨fun _ => ?_, hreturns, ?_⟩, ?_⟩
    · change (Memory.ofProgram program).resident 0 = true
      rw [Memory.resident_ofProgram, hhas]
    · rw [hflags]
      exact fun hhalted => nomatch hhalted
    · rw [hflags]
      exact fun hend => nomatch hend
  | false =>
    have hflags : (FrameMachine.load program).flags = .stopped := by
      rw [FrameMachine.load, hhas]
      rfl
    refine ⟨⟨?_, hreturns, ?_⟩, ?_⟩
    · rw [hflags]
      exact fun hend => nomatch hend
    · rw [hflags]
      exact fun _ => ⟨rfl, rfl⟩
    · rw [hflags]
      exact fun _ => rfl

/-- **A settled machine stays settled for any number of steps.** -/
theorem FrameMachine.Settled.after {c : FrameSystem σ} (hc : c.machine.Settled) (p : Processor)
    (h : Host σ) (n : ℕ) : (p.frameAfter h n c).machine.Settled := by
  induction n with
  | zero => exact hc
  | succ n ih =>
    rw [Processor.frameAfter_succ']
    exact ih.step p h

/-- **What holds of a machine between steps.** -/
structure Machine.Settled (m : Machine) : Prop where
  /-- The end is reached just if the machine has halted. -/
  ended_eq : m.flags.ended = m.flags.halted
  /-- A halted machine is in its root frame. -/
  mark_eq : m.flags.halted = true → m.sm = 0
  /-- The active bank of a machine that has not halted is there. -/
  here : m.flags.ended = false → m.memory.resident m.pi = true
  /-- The return bank in the header of each open frame is there. -/
  returns : ∃ fs, m.Holds fs ∧ ∀ bank ∈ fs.returnBanks, m.memory.resident bank = true

theorem Machine.Represents.settled {m : Machine} {f : FrameMachine} (h : m.Represents f)
    (hf : f.Settled) : m.Settled where
  ended_eq := by
    rw [h.flags_eq, Bool.eq_iff_iff]
    exact ⟨hf.ended, fun hhalted => (hf.halted hhalted).1⟩
  mark_eq hhalted := by
    rw [h.flags_eq] at hhalted
    rw [← UInt8.toNat_inj, h.holds.mark_eq, (hf.halted hhalted).2]
    rfl
  here hend := by
    rw [h.flags_eq] at hend
    rw [h.memory_eq, h.pi_eq]
    exact hf.here hend
  returns := ⟨f.frames, h.holds, by rw [h.memory_eq]; exact hf.returns⟩

/-- **The status between steps.**  After any number of steps from a load, the end is reached just if
the machine has halted.  Then it is in its root frame, and every further step is idle and changes
nothing. Before that it is in a bank that is there and returns to such banks, so that no step reads
code of an absent bank. -/
theorem settled_of_run (p : Processor) (h : Host σ) (program : Program) (s : σ) (n : ℕ) :
    let c := p.after h n ⟨.load program, s⟩
    c.machine.Settled ∧
      (c.machine.flags.halted = true → ∀ k, p.step h (p.after h k c) = (.idle, c)) ∧
      ((p.step h c).1 ≠ .idle → c.machine.memory.resident c.machine.pi = true) := by
  intro c
  have hsettled : c.machine.Settled :=
    (System.represents_run p h program s n).machine.settled ((settled_load program).after p h n)
  refine ⟨hsettled, ?_, ?_⟩
  · intro hhalted k
    have hend : c.machine.flags.ended = true := hsettled.ended_eq.trans hhalted
    rw [p.after_of_ended h k hend, Processor.step_of_ended hend]
  · intro hactive
    refine hsettled.here ?_
    rw [← Bool.not_eq_true, ← Processor.step_fst_eq_idle_iff (p := p) (h := h)]
    exact hactive

end Protocell
