import Protocell.Proofs.Runs.Step

/-!
# Proofs/Runs/Hiding — steps do not look below their frame

Hiding the operands of the first `d` frames puts zeros in their place (`FrameMachine.hide`).  As
long as at least `d` calls are open, an operation reads only operands that are not hidden, so hiding
first or last makes no difference to a step, to what it does and to what it asks
(`Processor.frameStep_hide`).  Returns may uncover hidden operands but do not read them.

So two runs whose states are the same with their first frames hidden stay so until such a frame is
active again (`Processor.hide_frameAfter`).
-/

namespace Protocell

namespace Frames

/-- **The frames with zeros for the operands of the first `d` of them.** -/
def hide (d : ℕ) : Frames → Frames
  | root vs => root (if 0 < d then List.replicate vs.length 0 else vs)
  | called caller pc pi vs =>
    called (caller.hide d) pc pi (if caller.depth + 1 < d then List.replicate vs.length 0 else vs)

variable {d : ℕ} {fs : Frames}

theorem operands_hide (d : ℕ) (fs : Frames) :
    (fs.hide d).operands =
      if fs.depth < d then List.replicate fs.operands.length 0 else fs.operands := by
  cases fs <;> rfl

/-- The operands of the later frames stay. -/
theorem operands_hide_of_le (h : d ≤ fs.depth) : (fs.hide d).operands = fs.operands := by
  rw [operands_hide, if_neg (Nat.not_lt.mpr h)]

@[simp] theorem length_operands_hide (d : ℕ) (fs : Frames) :
    (fs.hide d).operands.length = fs.operands.length := by
  rw [operands_hide]
  split
  · exact List.length_replicate
  · rfl

@[simp] theorem depth_hide (d : ℕ) (fs : Frames) : (fs.hide d).depth = fs.depth := by
  induction fs with
  | root vs => rfl
  | called caller pc pi vs ih => exact congrArg (· + 1) ih

@[simp] theorem start_hide (d : ℕ) (fs : Frames) : (fs.hide d).start = fs.start := by
  induction fs with
  | root vs => rfl
  | called caller pc pi vs ih => rw [hide, start, start, ih, length_operands_hide]

@[simp] theorem size_hide (d : ℕ) (fs : Frames) : (fs.hide d).size = fs.size := by
  rw [size, size, start_hide, length_operands_hide]

theorem hide_withOperands (h : d ≤ fs.depth) (vs : List UInt8) :
    (fs.withOperands vs).hide d = (fs.hide d).withOperands vs := by
  cases fs with
  | root ws =>
    have hd : ¬0 < d := Nat.not_lt.mpr h
    rw [withOperands, hide, if_neg hd]
    rfl
  | called caller pc pi ws =>
    have hd : ¬caller.depth + 1 < d := Nat.not_lt.mpr h
    rw [withOperands, hide, if_neg hd]
    rfl

theorem hide_called (h : d ≤ fs.depth + 1) (pc pi : UInt8) (vs : List UInt8) :
    (called fs pc pi vs).hide d = called (fs.hide d) pc pi vs := by
  rw [hide, if_neg (Nat.not_lt.mpr h)]

end Frames

namespace FrameMachine

/-- The machine with the operands of its first `d` frames hidden. -/
def hide (d : ℕ) (m : FrameMachine) : FrameMachine := { m with frames := m.frames.hide d }

variable {d : ℕ} {m : FrameMachine}

/-! ## Operations -/

theorem hide_push (hd : d ≤ m.frames.depth) (v : UInt8) :
    (m.hide d).push v = (m.push v).hide d := by
  rw [push, push]
  change (if (m.frames.hide d).size = 255 then _ else _) = _
  rw [Frames.size_hide]
  split
  · rfl
  · rw [hide, hide, Frames.push, Frames.push, Frames.operands_hide_of_le hd,
      Frames.hide_withOperands hd]

theorem hide_pop (hd : d ≤ m.frames.depth) : (m.hide d).pop = m.pop.map id (hide d) := by
  change ((m.frames.hide d).peek 0, { m with frames := (m.frames.hide d).pop }) =
    (m.frames.peek 0, { m with frames := m.frames.pop.hide d })
  rw [Frames.peek, Frames.peek, Frames.pop, Frames.pop, Frames.operands_hide_of_le hd,
    Frames.hide_withOperands hd]

theorem hide_peek (hd : d ≤ m.frames.depth) (depth : UInt8) :
    (m.hide d).peek depth = m.peek depth := by
  change (m.frames.hide d).peek depth.toNat = m.frames.peek depth.toNat
  rw [Frames.peek, Frames.peek, Frames.operands_hide_of_le hd]

theorem hide_call (hd : d ≤ m.frames.depth) (bank : UInt8) :
    (m.hide d).call bank = (m.call bank).hide d := by
  rw [call, call]
  change (if 252 < (m.frames.hide d).size then _ else _) = _
  rw [Frames.size_hide]
  split
  · rfl
  · rw [hide, hide, enter, enter, Frames.hide_called (Nat.le_succ_of_le hd)]

/-- A return reads the header of a frame and no operand. -/
theorem hide_ret (d : ℕ) (m : FrameMachine) : (m.hide d).ret = m.ret.hide d := by
  cases hframes : m.frames with
  | root vs =>
    obtain ⟨ws, hroot⟩ : ∃ ws, (m.hide d).frames = .root ws :=
      ⟨_, by rw [hide, hframes, Frames.hide]⟩
    rw [ret_root hroot, ret_root hframes]
    rfl
  | called caller pc pi vs =>
    obtain ⟨ws, hcalled⟩ : ∃ ws, (m.hide d).frames = .called (caller.hide d) pc pi ws :=
      ⟨_, by rw [hide, hframes, Frames.hide]⟩
    rw [ret_called hcalled, ret_called hframes]
    rfl

theorem hide_unwindUpTo (d n : ℕ) (m : FrameMachine) :
    unwindUpTo n (m.hide d) = (unwindUpTo n m).hide d := by
  induction n generalizing m with
  | zero => rfl
  | succ n ih =>
    rw [unwindUpTo, unwindUpTo, hide_ret, ih]
    exact (apply_ite (hide d) _ _ _).symm

theorem hide_unwind (d : ℕ) (m : FrameMachine) : (m.hide d).unwind = m.unwind.hide d := by
  rw [unwind, unwind, ← hide_unwindUpTo]
  change unwindUpTo ((m.frames.hide d).depth + 1) _ = _
  rw [Frames.depth_hide]

theorem hide_fetch (d : ℕ) (m : FrameMachine) : (m.hide d).fetch = m.fetch.map id (hide d) := by
  rw [fetch, fetch]
  change (if m.flags.ended = true then _ else _) = _
  split <;> rfl

/-! ## Instructions -/

theorem depth_resolve (m : FrameMachine) (slots : List Bool) :
    (m.resolve slots).2.frames.depth = m.frames.depth :=
  resolve_induction (P := fun n => n.frames.depth = m.frames.depth)
    (fun n hn => n.frames_fetch ▸ hn)
    (fun _ hn => (Frames.depth_withOperands _ _).trans hn) slots rfl

theorem hide_resolve (hd : d ≤ m.frames.depth) (slots : List Bool) :
    (m.hide d).resolve slots = (m.resolve slots).map id (hide d) := by
  induction slots generalizing m with
  | nil => rfl
  | cons inline slots ih =>
    rw [resolve, resolve]
    cases inline with
    | true =>
      have hrest := ih (m := m.fetch.2) (by rwa [frames_fetch])
      simp only [if_true, hide_fetch, Prod.map_fst, Prod.map_snd, hrest]
      rfl
    | false =>
      have hrest := ih (m := m.pop.2) (le_of_le_of_eq hd (Frames.depth_withOperands _ _).symm)
      simp only [Bool.false_eq_true, if_false, hide_pop hd, Prod.map_fst, Prod.map_snd, hrest]
      rfl

theorem hide_apply (hd : d ≤ m.frames.depth) (e : Effect) :
    (m.hide d).apply e = (m.apply e).hide d := by
  cases e with
  | push v => exact hide_push hd v
  | drop => exact congrArg Prod.snd (hide_pop hd)
  | copy depth =>
    rw [apply, apply, hide_peek hd]
    exact hide_push hd _
  | leave => exact hide_ret d m
  | call bank => exact hide_call hd bank
  | loadLocal offset => exact hide_push hd _
  | loadRemote bank offset => exact hide_push hd _
  | nothing | jump | doze | storeLocal | storeRemote => rfl

theorem hide_pushSome (hd : d ≤ m.frames.depth) (v : Option UInt8) :
    (m.hide d).pushSome v = (m.pushSome v).hide d := by
  cases v with
  | none => rfl
  | some v => exact hide_push hd v

theorem hide_perform (hd : d ≤ m.frames.depth) (h : Host σ) (a : Action) (s : σ) :
    perform h a (m.hide d, s) = (perform h a (m, s)).map (hide d) id := by
  cases a with
  | update e => exact congrArg (·, s) (hide_apply hd e)
  | request r => exact congrArg (·, (h.ask r s).2) (hide_pushSome hd _)

end FrameMachine

open FrameMachine

/-- The system with the operands of its machine's first `d` frames hidden. -/
def FrameSystem.hide (d : ℕ) (c : FrameSystem σ) : FrameSystem σ := ⟨c.machine.hide d, c.host⟩

namespace Processor

variable {σ : Type u} {p : Processor} {h : Host σ} {d : ℕ} {c c₁ c₂ : FrameSystem σ}

theorem frameExecute_hide {m : FrameMachine} (hd : d ≤ m.frames.depth) (f : Form) (s : σ) :
    p.frameExecute h f (m.hide d) s = (p.frameExecute h f m s).map (FrameMachine.hide d) id := by
  rw [frameExecute_eq, frameExecute_eq, hide_resolve hd]
  exact hide_perform (le_of_le_of_eq hd (m.depth_resolve f.slots).symm) h _ _

/-! ## Steps and runs -/

/-- **A step does the same whether or not operands below its frame are hidden.** -/
theorem frameStep_hide (hd : d ≤ c.machine.frames.depth) :
    p.frameStep h (c.hide d) = (p.frameStep h c).map id (FrameSystem.hide d) := by
  by_cases hend : c.machine.flags.ended = true
  · rw [frameStep_of_ended hend, frameStep_of_ended (c := c.hide d) hend]
    rfl
  rw [Bool.not_eq_true] at hend
  by_cases hsleep : c.machine.sleep = 0
  · have hfetch : (c.hide d).machine.fetch = c.machine.fetch.map id (FrameMachine.hide d) :=
      hide_fetch d c.machine
    rcases hdecode : p.instructions.decode c.machine.fetch.1 with - | f
    · rw [frameStep_of_unassigned hend hsleep hdecode,
        frameStep_of_unassigned (c := c.hide d) hend hsleep (by rw [hfetch]; exact hdecode), hfetch,
        Prod.map_snd, hide_unwind]
      rfl
    · rw [frameStep_of_decoded hend hsleep hdecode,
        frameStep_of_decoded (c := c.hide d) hend hsleep (by rw [hfetch]; exact hdecode), hfetch,
        Prod.map_snd, frameExecute_hide (by rwa [frames_fetch])]
      exact congrArg (fun m => (_, (⟨m, _⟩ : FrameSystem σ))) (hide_unwind d _)
  · rw [frameStep_of_asleep hend hsleep, frameStep_of_asleep (c := c.hide d) hend hsleep]
    rfl

/-- **Two states that are the same but for hidden operands do the same step.** -/
theorem frameStep_of_hide_eq (heq : c₁.hide d = c₂.hide d) (hd : d ≤ c₁.machine.frames.depth) :
    (p.frameStep h c₁).1 = (p.frameStep h c₂).1 ∧
      (p.frameStep h c₁).2.hide d = (p.frameStep h c₂).2.hide d := by
  have hdepth : c₁.machine.frames.depth = c₂.machine.frames.depth := by
    have := congrArg (fun c : FrameSystem σ => c.machine.frames.depth) heq
    simpa [FrameSystem.hide, FrameMachine.hide] using this
  have hstep := congrArg (p.frameStep h) heq
  rw [frameStep_hide hd, frameStep_hide (le_of_le_of_eq hd hdepth)] at hstep
  exact Prod.ext_iff.mp hstep

/-- **Two runs that begin the same but for the operands of their first `d` frames stay so**, for as
long as no step begins in one of these frames. -/
theorem hide_frameAfter (heq : c₁.hide d = c₂.hide d) (n : ℕ)
    (hdeep : ∀ i < n, d ≤ (p.frameAfter h i c₁).machine.frames.depth) :
    (p.frameAfter h n c₁).hide d = (p.frameAfter h n c₂).hide d := by
  induction n with
  | zero => exact heq
  | succ n ih =>
    rw [frameAfter_succ', frameAfter_succ']
    have hn := ih fun i hi => hdeep i (Nat.lt_succ_of_lt hi)
    exact (frameStep_of_hide_eq hn (hdeep n (Nat.lt_succ_self n))).2

end Processor

end Protocell
