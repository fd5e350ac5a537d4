import Mathlib.Data.List.Iterate
import Protocell.Assembly.Draft
import Protocell.Proofs.Runs.Halting

/-!
# Proofs/Runs/Unwinding — the loop of returns at the end of a step

A step ends by leaving frames for as long as the end of the bank is reached and the machine has not
halted.  The loop has no counter of its own: each return takes the next mark off the stack.  That it
ends is due to the layout of the stack, on which every saved mark is the start of an earlier frame
with a header of three bytes above it.  So each return lowers the mark by three at least or halts
(`Holds.halted_or_lowered`), and at most 85 frames are open when the loop begins (`unwinding_ends`).
-/

namespace Protocell

namespace Machine

variable {m : Machine} {fs : Frames}

/-- **The condition of the loop**: the end is reached and the machine has not halted. -/
def RunOff (m : Machine) : Prop := m.flags.ended = true ∧ m.flags.halted = false

/-- **From a machine on, the loop makes `n` returns**: its condition holds before each of them and
not after the last, and each of them halts the machine or lowers its mark by the size of a
header. -/
structure UnwindsIn (m : Machine) (n : ℕ) : Prop where
  goes_on : ∀ k < n, (ret^[k] m).RunOff
  lowers : ∀ k < n, (ret^[k + 1] m).flags.halted = true ∨
    (ret^[k + 1] m).sm.toNat + 3 ≤ (ret^[k] m).sm.toNat
  stops : ¬(ret^[n] m).RunOff

/-- One return before a loop makes it longer by one. -/
theorem UnwindsIn.succ {n : ℕ} (hoff : m.RunOff)
    (hlowers : m.ret.flags.halted = true ∨ m.ret.sm.toNat + 3 ≤ m.sm.toNat)
    (h : m.ret.UnwindsIn n) : m.UnwindsIn (n + 1) where
  goes_on k hk := by
    cases k with
    | zero => exact hoff
    | succ k => exact h.goes_on k (Nat.lt_of_succ_lt_succ hk)
  lowers k hk := by
    cases k with
    | zero => exact hlowers
    | succ k => exact h.lowers k (Nat.lt_of_succ_lt_succ hk)
  stops := h.stops

/-- A return from a call lowers the mark below the call's header. -/
theorem Holds.sm_ret_called {caller : Frames} {pc pi : UInt8} {vs : List UInt8}
    (h : m.Holds (.called caller pc pi vs)) : m.ret.sm.toNat + 3 ≤ m.sm.toNat := by
  rw [h.ret_called.mark_eq, h.mark_eq, Frames.start]
  omega

/-- **A return halts or lowers the mark**, because the mark that it takes off the stack is the start
of the caller's frame. -/
theorem Holds.halted_or_lowered (h : m.Holds fs) :
    m.ret.flags.halted = true ∨ m.ret.sm.toNat + 3 ≤ m.sm.toNat := by
  cases fs with
  | root vs =>
    left
    rw [h.ret_root]
  | called caller pc pi vs => exact .inr h.sm_ret_called

/-- **The loop makes no more returns than there are open frames**, the root frame with them. -/
theorem Holds.exists_unwindsIn (h : m.Holds fs) : ∃ n ≤ fs.depth + 1, m.UnwindsIn n := by
  have hstopped {m : Machine} (hoff : ¬m.RunOff) : m.UnwindsIn 0 :=
    ⟨fun _ hk => absurd hk (Nat.not_lt_zero _), fun _ hk => absurd hk (Nat.not_lt_zero _), hoff⟩
  induction fs generalizing m with
  | root vs =>
    by_cases hoff : m.RunOff
    · have hhalted : ¬m.ret.RunOff := by
        rw [h.ret_root, RunOff]
        exact fun hret => Bool.noConfusion hret.2
      exact ⟨1, Nat.le_refl 1, (hstopped hhalted).succ hoff h.halted_or_lowered⟩
    · exact ⟨0, Nat.zero_le _, hstopped hoff⟩
  | called caller pc pi vs ih =>
    by_cases hoff : m.RunOff
    · obtain ⟨n, hn, hrest⟩ := ih h.ret_called
      exact ⟨n + 1, Nat.succ_le_succ hn, hrest.succ hoff h.halted_or_lowered⟩
    · exact ⟨0, Nat.zero_le _, hstopped hoff⟩

/-- **Unwinding is the loop**, if its bound is no smaller than the number of returns. -/
theorem UnwindsIn.unwindUpTo_eq {n bound : ℕ} (h : m.UnwindsIn n) (hn : n ≤ bound) :
    unwindUpTo bound m = ret^[n] m := by
  have hguard {m : Machine} : (m.flags.ended && !m.flags.halted) = true ↔ m.RunOff := by
    rw [Bool.and_eq_true, Bool.not_eq_true', RunOff]
  induction bound generalizing m n with
  | zero =>
    obtain rfl := Nat.le_zero.mp hn
    rfl
  | succ bound ih =>
    rw [unwindUpTo]
    cases n with
    | zero =>
      have hstops : ¬m.RunOff := h.stops
      rw [if_neg (mt hguard.mp hstops), Function.iterate_zero_apply]
    | succ n =>
      have hoff : m.RunOff := h.goes_on 0 (Nat.succ_pos n)
      have hrest : m.ret.UnwindsIn n :=
        ⟨fun k hk => h.goes_on (k + 1) (Nat.succ_lt_succ hk),
          fun k hk => h.lowers (k + 1) (Nat.succ_lt_succ hk), h.stops⟩
      rw [if_pos (hguard.mpr hoff), ih hrest (Nat.le_of_succ_le_succ hn),
        Function.iterate_succ_apply]

theorem Holds.exists_unwind_eq (h : m.Holds fs) :
    ∃ n ≤ fs.depth + 1, m.UnwindsIn n ∧ m.unwind = ret^[n] m := by
  obtain ⟨n, hn, hloop⟩ := h.exists_unwindsIn
  have hdepth := fs.depth_le_start
  refine ⟨n, hn, hloop, hloop.unwindUpTo_eq ?_⟩
  rw [h.mark_eq]
  omega

/-- Before the end of its bank a frame is not left. -/
theorem unwind_of_running (hend : m.flags.ended = false) : m.unwind = m := by
  rw [unwind, unwindUpTo, hend]
  rfl

/-- No return raises the mark. -/
theorem Holds.sm_iterate_ret_le (h : m.Holds fs) (n : ℕ) : (ret^[n] m).sm ≤ m.sm := by
  induction n generalizing m fs with
  | zero => exact UInt8.le_refl _
  | succ n ih =>
    cases fs with
    | root vs =>
      have hret := h.ret_root
      have hholds : m.ret.Holds (.root vs) := hret ▸ h.congr rfl rfl
      refine UInt8.le_trans (ih hholds) (UInt8.le_of_eq ?_)
      rw [hret]
    | called caller pc pi vs =>
      have hlower := h.sm_ret_called
      exact UInt8.le_trans (ih h.ret_called) (UInt8.le_iff_toNat_le.mpr (by omega))

/-- **A loop that makes returns leaves the frame**, or halts in the root frame. -/
theorem Holds.left_of_unwindsIn (h : m.Holds fs) {n : ℕ} (hloop : m.UnwindsIn n) (hn : 0 < n) :
    (m.sm = 0 → (ret^[n] m).flags.halted = true) ∧ (m.sm ≠ 0 → (ret^[n] m).sm < m.sm) := by
  obtain ⟨k, rfl⟩ : ∃ k, n = k + 1 := Nat.exists_eq_succ_of_ne_zero hn.ne'
  constructor
  · intro hroot
    have hhalted : m.ret.flags.halted = true := by
      refine h.halted_or_lowered.resolve_right fun hlowered => ?_
      rw [hroot] at hlowered
      exact absurd hlowered (Nat.not_succ_le_zero _)
    cases k with
    | zero => exact hhalted
    | succ k =>
      have hoff : m.ret.RunOff := hloop.goes_on 1 (Nat.succ_lt_succ (Nat.succ_pos k))
      exact absurd (hoff.2.symm.trans hhalted) Bool.noConfusion
  · intro hcalled
    cases fs with
    | root vs => exact absurd (UInt8.toNat_inj.mp h.mark_eq) hcalled
    | called caller pc pi vs =>
      have hlower := h.sm_ret_called
      exact UInt8.lt_of_le_of_lt (h.ret_called.sm_iterate_ret_le k)
        (UInt8.lt_iff_toNat_lt.mpr (by omega))

theorem Represents.iterate_ret {f : FrameMachine} (h : m.Represents f) (n : ℕ) :
    (Machine.ret^[n] m).Represents (FrameMachine.ret^[n] f) := by
  induction n generalizing m f with
  | zero => exact h
  | succ n ih => exact ih h.ret

end Machine

/-! ## Steps -/

namespace Processor

variable {σ : Type u} {p : Processor} {h : Host σ}

/-- **The system in which a step has done its work and has left no frame yet.** -/
def acted (p : Processor) (h : Host σ) (c : System σ) : System σ :=
  match p.instructions.decode c.machine.fetch.1 with
  | none => ⟨c.machine.fetch.2, c.host⟩
  | some f =>
    let (m, s) := p.execute h f c.machine.fetch.2 c.host
    ⟨m, s⟩

/-- **A step of a running machine ends with the loop.** -/
theorem machine_step_eq_unwind {c : System σ} (hend : c.machine.flags.ended = false)
    (hsleep : c.machine.sleep = 0) : (p.step h c).2.machine = (p.acted h c).machine.unwind := by
  rcases hdecode : p.instructions.decode c.machine.fetch.1 with - | f
  · rw [step_of_unassigned hend hsleep hdecode, acted, hdecode]
  · rw [step_of_decoded hend hsleep hdecode, acted, hdecode]

end Processor

/-- The machine that keeps its frames apart when a step has done its work and has left no frame. -/
def Processor.frameActed (p : Processor) (h : Host σ) (c : FrameSystem σ) : FrameMachine :=
  match p.instructions.decode c.machine.fetch.1 with
  | none => c.machine.fetch.2
  | some f => (p.frameExecute h f c.machine.fetch.2 c.host).1

/-- **When the loop begins, the stack still holds frames.** -/
theorem System.Represents.acted {x : System σ} {y : FrameSystem σ} (hrun : x.Represents y)
    (p : Processor) (h : Host σ) : (p.acted h x).machine.Represents (p.frameActed h y) := by
  have hfetched := hrun.machine.fetch_snd
  rw [Processor.acted, Processor.frameActed, hrun.machine.fetch_fst]
  rcases p.instructions.decode y.machine.fetch.1 with - | form
  · exact hfetched
  · have hsystem : System.Represents ⟨x.machine.fetch.2, x.host⟩ ⟨y.machine.fetch.2, y.host⟩ :=
      ⟨hfetched, hrun.host_eq⟩
    exact (hsystem.execute p h form).1

/-- **The loop of returns ends.**  Let a processor, after any dealings with it, be neither at its
end nor asleep.  Then the loop at the end of its next step makes 86 returns at most, each of which
halts the machine or lowers its mark by three or more, and the machine that it comes to is the one
after the step. -/
theorem unwinding_ends (p : Processor) (h : Host σ) (s : σ) (as : List Access) {c : System σ}
    (hc : (p.accesses h as ⟨{}, s⟩).2 = c) (hend : c.machine.flags.ended = false)
    (hsleep : c.machine.sleep = 0) :
    ∃ n ≤ 86, (p.acted h c).machine.UnwindsIn n ∧
      (p.step h c).2.machine = Machine.ret^[n] (p.acted h c).machine := by
  have hnew : System.Represents ⟨{}, s⟩ ⟨{}, s⟩ := ⟨Machine.represents_new, rfl⟩
  have hreached := (hnew.accesses p h as).2
  rw [hc] at hreached
  have hacted := hreached.acted p h
  obtain ⟨n, hn, hloop, heq⟩ := hacted.holds.exists_unwind_eq
  have hdepth := Frames.depth_le_of_size_lt hacted.holds.size_lt
  exact ⟨n, by omega, hloop, (Processor.machine_step_eq_unwind hend hsleep).trans heq⟩

/-- Calls from outside at offset zero open 85 frames whose callers count as run off, so that a step
which runs off the last one makes 86 returns. -/
theorem unwinding_makes_86_returns :
    ∃ program c, assemble .standard ".prg 0\n" = .ok program ∧
      ((⟨.standard, true⟩ : Processor).accesses .bare
        (.load program :: (List.replicate 85 (.call 0) ++ [.jump 255])) ⟨{}, 0⟩).2 = c ∧
      ((⟨.standard, true⟩ : Processor).acted .bare c).machine.UnwindsIn 86 ∧
      ((⟨.standard, true⟩ : Processor).step .bare c).2.machine
        = Machine.ret^[86] ((⟨.standard, true⟩ : Processor).acted .bare c).machine := by
  let p : Processor := ⟨.standard, true⟩
  let as (program : Program) : List Access :=
    .load program :: (List.replicate 85 (.call 0) ++ [.jump 255])
  let frames (program : Program) : FrameSystem UInt16 :=
    (p.frameAccesses .bare (as program) ⟨{}, 0⟩).2
  have hrun : (assemble .standard ".prg 0\n").toOption.map (fun program =>
      ((frames program).machine.flags.ended, (frames program).machine.sleep,
        (List.iterate FrameMachine.ret (p.frameActed .bare (frames program)) 86).map
          FrameMachine.flags))
      = some (false, 0, List.replicate 86 { ended := true }) := by decide +kernel
  obtain ⟨program, hassemble, hrun⟩ := Option.map_eq_some_iff.mp hrun
  simp only [Prod.mk.injEq] at hrun
  obtain ⟨hend, hsleep, hflags⟩ := hrun
  have hnew : System.Represents (σ := UInt16) ⟨{}, 0⟩ ⟨{}, 0⟩ := ⟨Machine.represents_new, rfl⟩
  have hreached := (hnew.accesses p .bare (as program)).2
  obtain ⟨c, hc⟩ : ∃ c, (p.accesses .bare (as program) ⟨{}, 0⟩).2 = c := ⟨_, rfl⟩
  rw [hc] at hreached
  obtain ⟨n, hn, hloop, hstep⟩ := unwinding_ends p .bare 0 (as program) hc
    (hreached.machine.flags_eq ▸ hend) (hreached.machine.sleep_eq.trans hsleep)
  -- Before each of 86 returns the condition of the loop holds, so that it cannot make fewer.
  obtain rfl : n = 86 := by
    refine Nat.le_antisymm hn (Nat.le_of_not_lt fun hlt => hloop.stops ?_)
    have hrepresents := (hreached.acted p .bare).iterate_ret n
    have hflag : (FrameMachine.ret^[n] (p.frameActed .bare (frames program))).flags
        = { ended := true } := by
      refine List.eq_of_mem_replicate (n := 86) ?_
      rw [← hflags]
      exact List.mem_map_of_mem (List.mem_iterate.mpr ⟨n, hlt, rfl⟩)
    rw [Machine.RunOff, hrepresents.flags_eq.trans hflag]
    exact ⟨rfl, rfl⟩
  exact ⟨program, c, toOption_eq_some_iff.mp hassemble, hc, hloop, hstep⟩

end Protocell
