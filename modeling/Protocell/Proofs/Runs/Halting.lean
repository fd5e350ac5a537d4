import Mathlib.Algebra.Group.Nat.Defs
import Protocell.Assembly.Draft
import Protocell.InstructionSet.Standard
import Protocell.Proofs.Runs.Status
import Protocell.Proofs.Success

/-!
# Proofs/Runs/Halting — programs without jumps halt

Without jumps the offset of a frame only grows, so each frame reads at most 256 bytes of code.  What
it can do with one byte is bounded too: sleep for 255 steps, or call.  Recursion does not break
this, because at most 85 calls can be open.

So a byte of code is worth the more steps the fewer calls are open (`byteWorth`), and the worth of
all code that the open frames have still to read, with the delay that is left, falls with every step
(`FrameMachine.potential`, `potential_frameStep_lt`).  What the first frame starts with is a bound
for all programs (`halted_of_no_jump`).
-/

namespace Protocell

/-- **The number of steps that a byte of code can cause** in a frame with so many open calls below
it. -/
def byteWorth (depth : ℕ) : ℕ := 257 ^ (86 - depth)

/-- A call leads to a frame with 256 bytes of code. -/
theorem byteWorth_eq {depth : ℕ} (h : depth ≤ 85) :
    byteWorth depth = 257 * byteWorth (depth + 1) := by
  rw [byteWorth, byteWorth, show 86 - depth = 86 - (depth + 1) + 1 by omega, Nat.pow_succ,
    Nat.mul_comm]

theorem byteWorth_pos (depth : ℕ) : 0 < byteWorth depth := Nat.pow_pos (by decide)

/-- A byte of code is worth more than the longest delay. -/
theorem lt_byteWorth {depth : ℕ} (h : depth ≤ 85) (n : UInt8) : n.toNat < byteWorth depth := by
  have hpos := byteWorth_pos (depth + 1)
  have hlt := n.toNat_lt
  rw [byteWorth_eq h]
  omega

/-- The number of bytes from a return offset to the end of the bank; offset zero is the end. -/
def bytesBehind (pc : UInt8) : ℕ := if pc = 0 then 0 else 256 - pc.toNat

namespace Frames

/-- What the code is worth that is left to the callers of the last frame. -/
def worth : Frames → ℕ
  | root _ => 0
  | called caller pc _ _ => bytesBehind pc * byteWorth caller.depth + caller.worth

@[simp] theorem worth_withOperands (fs : Frames) (vs : List UInt8) :
    (fs.withOperands vs).worth = fs.worth := by cases fs <;> rfl

/-- **At most 85 calls are open** on a stack of at most 255 bytes. -/
theorem depth_le_of_size_lt {fs : Frames} (h : fs.size < 256) : fs.depth ≤ 85 := by
  have hdepth := fs.depth_le_start
  have hstart := fs.start_le_size
  omega

end Frames

namespace FrameMachine

variable {m m' : FrameMachine} {o : Operation}

/-- The number of bytes that the last frame has still to read. -/
def bytesLeft (m : FrameMachine) : ℕ := if m.flags.ended then 0 else 256 - m.pc.toNat

/-- **The number of steps that a machine can still make without jumps**, at most: its delay, and the
worth of what its frames have still to read. -/
def potential (m : FrameMachine) : ℕ :=
  m.sleep.toNat + m.bytesLeft * byteWorth m.frames.depth + m.frames.worth

theorem bytesLeft_le (m : FrameMachine) : m.bytesLeft ≤ 256 := by
  rw [bytesLeft]
  split <;> omega

theorem potential_pos (hend : m.flags.ended = false) : 0 < m.potential := by
  have hlt := m.pc.toNat_lt
  have hleft : 0 < m.bytesLeft := by
    rw [bytesLeft, if_neg (Bool.eq_false_iff.mp hend)]
    omega
  have hworth := Nat.mul_pos hleft (byteWorth_pos m.frames.depth)
  rw [potential]
  omega

/-! ## Reading an instruction -/

/-- **A fetch costs the worth of a byte.** -/
theorem potential_fetch (hend : m.flags.ended = false) :
    m.fetch.2.potential + byteWorth m.frames.depth = m.potential := by
  have hleft : m.fetch.2.bytesLeft + 1 = m.bytesLeft := by
    have hlt := m.pc.toNat_lt
    rw [bytesLeft, bytesLeft, fetch, if_neg (Bool.eq_false_iff.mp hend),
      if_neg (Bool.eq_false_iff.mp hend)]
    change (if (m.pc == 255) = true then 0 else 256 - (m.pc + 1).toNat) + 1 = 256 - m.pc.toNat
    split
    · rename_i hlast
      rw [beq_iff_eq.mp hlast]
      rfl
    · rename_i hinner
      rw [beq_iff_eq, ← UInt8.toNat_inj] at hinner
      simp only [UInt8.reduceToNat] at hinner
      rw [UInt8.toNat_add]
      simp only [UInt8.reduceToNat]
      omega
  rw [potential, potential, frames_fetch, sleep_fetch, ← hleft, Nat.succ_mul]
  omega

/-- **A machine that reads an instruction**, within a step that began with `start` steps to go in a
frame of the given depth.  Its offset is zero only if it has reached the end, and the opcode is paid
for. -/
structure Reading (start depth : ℕ) (m : FrameMachine) : Prop where
  awake : m.sleep = 0
  ended_eq : m.flags.ended = (m.pc == 0)
  depth_eq : m.frames.depth = depth
  paid : m.potential + byteWorth depth ≤ start

theorem reading_fetch (hend : m.flags.ended = false) (hsleep : m.sleep = 0) :
    m.fetch.2.Reading m.potential m.frames.depth where
  awake := m.sleep_fetch.trans hsleep
  ended_eq := by
    rw [fetch, if_neg (Bool.eq_false_iff.mp hend), Bool.eq_iff_iff, beq_iff_eq, beq_iff_eq,
      ← UInt8.toNat_inj, ← UInt8.toNat_inj, UInt8.toNat_add]
    have hlt := m.pc.toNat_lt
    simp only [UInt8.reduceToNat]
    omega
  depth_eq := congrArg Frames.depth m.frames_fetch
  paid := Nat.le_of_eq (potential_fetch hend)

theorem Reading.fetch {start depth : ℕ} (h : m.Reading start depth) :
    m.fetch.2.Reading start depth := by
  by_cases hend : m.flags.ended = true
  · rw [FrameMachine.fetch, if_pos hend]
    exact h
  · rw [Bool.not_eq_true] at hend
    have hnext := reading_fetch hend h.awake
    refine { hnext with depth_eq := hnext.depth_eq.trans h.depth_eq, paid := ?_ }
    have hpaid := hnext.paid
    have := h.paid
    have := byteWorth_pos depth
    rw [h.depth_eq] at hpaid
    omega

theorem Reading.pop {start depth : ℕ} (h : m.Reading start depth) :
    m.pop.2.Reading start depth where
  awake := h.awake
  ended_eq := h.ended_eq
  depth_eq := by rw [FrameMachine.pop, Frames.pop, Frames.depth_withOperands]; exact h.depth_eq
  paid := by
    rw [FrameMachine.pop, Frames.pop, potential, Frames.depth_withOperands,
      Frames.worth_withOperands]
    exact h.paid

/-! ## Changes and returns -/

/-- **A return gains nothing**: the caller's code was counted before. -/
theorem potential_ret_le (m : FrameMachine) : m.ret.potential ≤ m.potential := by
  cases hframes : m.frames with
  | root vs =>
    rw [ret_root hframes, potential, potential]
    change m.sleep.toNat + 0 * byteWorth m.frames.depth + m.frames.worth ≤ _
    omega
  | called caller pc pi vs =>
    have hleft : m.ret.bytesLeft ≤ bytesBehind pc := by
      rw [ret_called hframes, bytesLeft, bytesBehind]
      change (if (pc == 0 || !m.memory.resident pi) = true then 0 else 256 - pc.toNat) ≤ _
      by_cases hzero : pc = 0
      · simp [hzero]
      · rw [if_neg hzero]
        split <;> omega
    have hworth := Nat.mul_le_mul_right (byteWorth caller.depth) hleft
    have hret : m.ret.potential
        = m.sleep.toNat + m.ret.bytesLeft * byteWorth caller.depth + caller.worth := by
      rw [potential, ret_called hframes]
    rw [hret, potential, hframes, Frames.worth]
    omega

/-- **A change gains less than the opcode has cost**, unless it is a jump.  A delay is shorter than
that, and a call leads to 256 bytes of code that are worth a 257th each. -/
theorem Change.potential_lt {start depth : ℕ} (hm : m.Reading start depth) (hdepth : depth ≤ 85)
    (hjump : o ≠ .jump) (hjpif : o ≠ .jpif) (h : Change o m m') : m'.potential < start := by
  have hpos := byteWorth_pos depth
  have hpaid := hm.paid
  have hdeep := hm.depth_eq
  rcases h with ⟨vs, overflowed⟩ | ⟨n⟩ | ⟨bank, offset, v⟩ | ⟨offset, ho⟩ | ⟨bank, -, hroom⟩ | -
  · refine Nat.lt_of_lt_of_le ?_ hpaid
    rw [potential, Frames.depth_withOperands, Frames.worth_withOperands]
    exact Nat.lt_add_of_pos_right hpos
  · have hdelay := lt_byteWorth hdepth n
    have hless : m.bytesLeft * byteWorth m.frames.depth + m.frames.worth ≤ m.potential := by
      rw [potential]
      omega
    change n.toNat + m.bytesLeft * byteWorth m.frames.depth + m.frames.worth < start
    omega
  · exact Nat.lt_of_lt_of_le (Nat.lt_add_of_pos_right hpos) hpaid
  · exact absurd ho (not_or.mpr ⟨hjump, hjpif⟩)
  · have hbehind : bytesBehind m.pc = m.bytesLeft := by
      rw [bytesBehind, bytesLeft, hm.ended_eq]
      simp only [beq_iff_eq]
    have hcalled := Nat.mul_le_mul_right (byteWorth (depth + 1))
      (bytesLeft_le ({ m with frames := .called m.frames m.pc m.pi [] }.enter bank 0))
    have hworth := byteWorth_eq hdepth
    have hnext := byteWorth_pos (depth + 1)
    rw [potential, hdeep] at hpaid
    rw [potential]
    change m.sleep.toNat + bytesLeft _ * byteWorth (m.frames.depth + 1)
      + (bytesBehind m.pc * byteWorth m.frames.depth + m.frames.worth) < start
    rw [hbehind, hdeep]
    omega
  · refine Nat.lt_of_le_of_lt (potential_ret_le m) ?_
    omega

end FrameMachine

/-! ## Steps and runs -/

namespace Processor

variable {σ : Type u} {p : Processor} {h : Host σ} {c : FrameSystem σ}

/-- **Every step that is no jump costs something.** -/
theorem potential_frameStep_lt (hend : c.machine.flags.ended = false)
    (hdepth : c.machine.frames.depth ≤ 85)
    (hjump : ∀ o b, (p.frameStep h c).1 = .executed o b → o ≠ .jump ∧ o ≠ .jpif) :
    (p.frameStep h c).2.machine.potential < c.machine.potential := by
  by_cases hsleep : c.machine.sleep = 0
  · have hpos := byteWorth_pos c.machine.frames.depth
    refine frameStep_induction (R := fun m => m.potential < c.machine.potential) hend hsleep
      (FrameMachine.reading_fetch hend hsleep) (fun _ hm => hm.fetch) (fun _ hm => hm.pop) ?_ ?_ ?_
    · intro m hm
      have hpaid := hm.paid
      omega
    · intro o b m m' hexecuted hm hchange
      obtain ⟨hnojump, hnojpif⟩ := hjump o b hexecuted
      exact hchange.potential_lt hm hdepth hnojump hnojpif
    · intro m hm _ _
      exact Nat.lt_of_le_of_lt (FrameMachine.potential_ret_le m) hm
  · have hless : (c.machine.sleep - 1).toNat < c.machine.sleep.toNat := by
      have hpos : 0 < c.machine.sleep.toNat := Nat.pos_of_ne_zero fun hzero =>
        hsleep (UInt8.toNat_inj.mp hzero)
      have hone : (1 : UInt8) ≤ c.machine.sleep := UInt8.le_iff_toNat_le.mpr hpos
      rw [UInt8.toNat_sub_of_le _ _ hone]
      exact Nat.sub_lt hpos Nat.one_pos
    rw [frameStep_of_asleep hend hsleep]
    exact Nat.add_lt_add_right (Nat.add_lt_add_right hless _) _

/-- **After `n` steps without jumps** the machine is at its end or has used up `n` of its
potential. -/
theorem ended_or_potential_le (hsize : ∀ k, (p.frameAfter h k c).machine.frames.size < 256) (n : ℕ)
    (hjump : ∀ k < n, ∀ o b, (p.frameStep h (p.frameAfter h k c)).1 = .executed o b →
      o ≠ .jump ∧ o ≠ .jpif) :
    (p.frameAfter h n c).machine.flags.ended = true ∨
      (p.frameAfter h n c).machine.potential + n ≤ c.machine.potential := by
  induction n with
  | zero => exact .inr (Nat.le_refl _)
  | succ n ih =>
    rw [frameAfter_succ']
    by_cases hend : (p.frameAfter h n c).machine.flags.ended = true
    · left
      rw [frameStep_of_ended hend]
      exact hend
    · rcases ih fun k hk => hjump k (Nat.lt_succ_of_lt hk) with hended | hle
      · exact absurd hended hend
      · right
        have hlt := potential_frameStep_lt (Bool.eq_false_iff.mpr hend)
          (Frames.depth_le_of_size_lt (hsize n)) (hjump n (Nat.lt_succ_self n))
        omega

end Processor

/-- **The number of steps within which every program without jumps halts.** -/
def stepBound : ℕ := 256 * byteWorth 0

theorem FrameMachine.potential_load_le (program : Program) :
    (FrameMachine.load program).potential ≤ stepBound := by
  have hleft := Nat.mul_le_mul_right (byteWorth 0) (FrameMachine.load program).bytesLeft_le
  change 0 + (FrameMachine.load program).bytesLeft * byteWorth 0 + 0 ≤ stepBound
  rw [stepBound]
  omega

/-- **Programs without jumps halt**, all of them within one number of steps: whatever the
instruction set, the program and the host are, a run of `stepBound` steps from a load that executes
no jump has halted at its end.  Calls, recursion, delays and stores into code are no exceptions. -/
theorem halted_of_no_jump (p : Processor) (h : Host σ) (program : Program) (s : σ)
    (hjump : ∀ k < stepBound, ∀ op b,
      (p.step h (p.after h k ⟨.load program, s⟩)).1 = .executed op b → op ≠ .jump ∧ op ≠ .jpif) :
    (p.after h stepBound ⟨.load program, s⟩).machine.flags.halted = true := by
  have hrun := System.represents_run p h program s
  have hsize (k : ℕ) : (p.frameAfter h k ⟨.load program, s⟩).machine.frames.size < 256 :=
    (hrun k).machine.holds.size_lt
  have hsettled : (p.frameAfter h stepBound ⟨.load program, s⟩).machine.Settled :=
    (FrameMachine.settled_load program).after p h stepBound
  rw [(hrun stepBound).machine.flags_eq]
  have hframe : ∀ k < stepBound, ∀ op b,
      (p.frameStep h (p.frameAfter h k ⟨.load program, s⟩)).1 = .executed op b →
        op ≠ .jump ∧ op ≠ .jpif := by
    intro k hk op b hexecuted
    rw [← ((hrun k).step p h).1] at hexecuted
    exact hjump k hk op b hexecuted
  rcases Processor.ended_or_potential_le hsize stepBound hframe with hend | hle
  · exact hsettled.ended hend
  · refine hsettled.ended ?_
    by_contra hend
    have hpos := FrameMachine.potential_pos (Bool.eq_false_iff.mpr hend)
    have hused := Nat.le_trans hle (FrameMachine.potential_load_le program)
    omega

/-- A program that calls itself without end: 85 calls open a frame, the next one finds no room, and
all frames return. -/
theorem halted_after_recursion :
    ∃ program, assemble .standard ".prg 0\nCALL 0\nRTN\n" = .ok program ∧
      (⟨.standard, true⟩ : Processor).results .bare 173 ⟨.load program, 0⟩
        = List.replicate 86 (.executed .call 16) ++
          List.replicate 86 (.executed .rtn 3) ++ [.idle] ∧
      ((⟨.standard, true⟩ : Processor).after .bare stepBound
        ⟨.load program, 0⟩).machine.flags.halted = true := by
  have hrun : (assemble .standard ".prg 0\nCALL 0\nRTN\n").toOption.map
      (fun program => (⟨.standard, true⟩ : Processor).frameResults .bare 173 ⟨.load program, 0⟩)
      = some (List.replicate 86 (.executed .call 16) ++ List.replicate 86 (.executed .rtn 3)
        ++ [.idle]) := by decide +kernel
  obtain ⟨program, hassemble, hresults⟩ := Option.map_eq_some_iff.mp hrun
  rw [← (System.represents_load program 0).results_eq] at hresults
  refine ⟨program, toOption_eq_some_iff.mp hassemble, hresults, ?_⟩
  refine halted_of_no_jump _ .bare program 0 ?_
  intro k _ op b hexecuted
  have hidle : .idle ∈ (⟨.standard, true⟩ : Processor).results .bare 173 ⟨.load program, 0⟩ := by
    rw [hresults]
    exact List.mem_append_right _ (List.mem_singleton_self _)
  have hmem := Processor.executed_mem_results hidle hexecuted
  rw [hresults] at hmem
  simp only [List.mem_append, List.mem_replicate, List.mem_singleton] at hmem
  rcases hmem with (⟨-, hcall⟩ | ⟨-, hrtn⟩) | hidle
  · cases hcall
    decide
  · cases hrtn
    decide
  · cases hidle

end Protocell
