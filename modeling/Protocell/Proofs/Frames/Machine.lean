import Protocell.Proofs.Access
import Protocell.Proofs.Frames.Basic

/-!
# Proofs/Frames/Machine — a machine that keeps its frames apart

The machine as its user thinks of it: where a byte machine has a row of bytes with a pointer and a
mark, this one has a stack of frames (`FrameMachine`).  A pop cannot reach the caller because the
caller is another frame, and a return cannot go astray because the return address is no operand.

It executes the same effects and requests under the same instruction sets, so the two machines can
be compared step for step (`Proofs/Frames/Refinement`).
-/

namespace Protocell

/-- **The state of a machine that keeps its frames apart.** -/
structure FrameMachine where
  pi : UInt8 := 0
  pc : UInt8 := 0
  frames : Frames := .root []
  flags : Flags := .stopped
  sleep : UInt8 := 0
  memory : Memory := .empty
deriving DecidableEq

namespace FrameMachine

/-- A machine at the start of bank 0 of a program; halted if that bank is absent. -/
def load (p : Program) : FrameMachine :=
  { flags := if p.has 0 then {} else .stopped
    memory := .ofProgram p }

/-- The machine after something was dropped for want of space. -/
def overflow (m : FrameMachine) : FrameMachine :=
  { m with flags := { m.flags with overflowed := true } }

/-- Appends a byte to the last frame, unless 255 bytes are there. -/
def push (m : FrameMachine) (v : UInt8) : FrameMachine :=
  if m.frames.size = 255 then m.overflow else { m with frames := m.frames.push v }

/-- Takes the last operand of the last frame; an empty frame gives zero. -/
def pop (m : FrameMachine) : UInt8 × FrameMachine :=
  (m.frames.peek 0, { m with frames := m.frames.pop })

/-- The operand `depth` below the top of the last frame, or zero. -/
def peek (m : FrameMachine) (depth : UInt8) : UInt8 := m.frames.peek depth.toNat

/-- Goes on at an offset of a bank; the end is reached at once if the bank is absent. -/
def enter (m : FrameMachine) (bank offset : UInt8) : FrameMachine :=
  { m with
    pi := bank
    pc := offset
    flags := { m.flags with ended := !m.memory.resident bank } }

/-- Goes on at an offset of the active bank. -/
def jump (m : FrameMachine) (offset : UInt8) : FrameMachine :=
  { m with pc := offset, flags := { m.flags with ended := false } }

/-- Opens an empty frame and enters a bank at its start, unless there is no room for three more
bytes. -/
def call (m : FrameMachine) (bank : UInt8) : FrameMachine :=
  if 252 < m.frames.size then m.overflow
  else { m with frames := .called m.frames m.pc m.pi [] }.enter bank 0

/-- Leaves the last frame and goes on where its call says; leaving the root frame halts the machine.
A return offset of zero says that the caller had run off its bank. -/
def ret (m : FrameMachine) : FrameMachine :=
  match m.frames with
  | .root _ => { m with flags := { m.flags with ended := true, halted := true } }
  | .called caller pc pi _ =>
    let m := { m with frames := caller }.enter pi pc
    if pc = 0 then { m with flags := { m.flags with ended := true } } else m

theorem ret_root {m : FrameMachine} {vs : List UInt8} (h : m.frames = .root vs) :
    m.ret = { m with flags := { m.flags with ended := true, halted := true } } := by
  rw [ret, h]

theorem ret_called {m : FrameMachine} {caller : Frames} {pc pi : UInt8} {vs : List UInt8}
    (h : m.frames = .called caller pc pi vs) :
    m.ret =
      { m with
        frames := caller
        pi := pi
        pc := pc
        flags := { m.flags with ended := pc == 0 || !m.memory.resident pi } } := by
  rw [ret, h]
  by_cases hzero : pc = 0 <;> simp [hzero, enter]

@[simp] theorem memory_ret (m : FrameMachine) : m.ret.memory = m.memory := by
  cases hframes : m.frames with
  | root vs => rw [ret_root hframes]
  | called caller pc pi vs => rw [ret_called hframes]

/-- Leaves frames for as long as the end is reached but the machine not halted, at most `n` of
them. -/
def unwindUpTo : ℕ → FrameMachine → FrameMachine
  | 0, m => m
  | n + 1, m => if m.flags.ended && !m.flags.halted then unwindUpTo n m.ret else m

theorem unwindUpTo_of_halted (n : ℕ) {m : FrameMachine} (h : m.flags.halted = true) :
    unwindUpTo n m = m := by
  cases n with
  | zero => rfl
  | succ n => simp [unwindUpTo, h]

/-- **Each return closes a call or halts**, so one more return than there are open calls is
enough. -/
theorem unwindUpTo_eq {m : FrameMachine} {n k : ℕ} (hn : m.frames.depth < n)
    (hk : m.frames.depth < k) : unwindUpTo n m = unwindUpTo k m := by
  induction n generalizing m k with
  | zero => exact absurd hn (Nat.not_lt_zero _)
  | succ n ih =>
    cases k with
    | zero => exact absurd hk (Nat.not_lt_zero _)
    | succ k =>
      rw [unwindUpTo, unwindUpTo]
      split
      · cases hframes : m.frames with
        | root vs =>
          have hhalted : m.ret.flags.halted = true := by rw [ret_root hframes]
          rw [unwindUpTo_of_halted n hhalted, unwindUpTo_of_halted k hhalted]
        | called caller pc pi vs =>
          have hdepth : m.ret.frames.depth = caller.depth := by rw [ret_called hframes]
          rw [hframes, Frames.depth] at hn hk
          exact ih (by omega) (by omega)
      · rfl

/-- Leaves all frames whose bank has been run off. -/
def unwind (m : FrameMachine) : FrameMachine := unwindUpTo (m.frames.depth + 1) m

theorem unwind_of_running {m : FrameMachine} (hend : m.flags.ended = false) : m.unwind = m := by
  rw [unwind, unwindUpTo, hend]
  rfl

/-- Reads the next byte and moves on. -/
def fetch (m : FrameMachine) : UInt8 × FrameMachine :=
  if m.flags.ended then (0, m)
  else
    (m.memory.read m.pi m.pc,
      { m with pc := m.pc + 1, flags := { m.flags with ended := m.pc == 255 } })

@[simp] theorem frames_fetch (m : FrameMachine) : m.fetch.2.frames = m.frames := by
  rw [fetch]
  split <;> rfl

@[simp] theorem sleep_fetch (m : FrameMachine) : m.fetch.2.sleep = m.sleep := by
  rw [fetch]
  split <;> rfl

@[simp] theorem memory_fetch (m : FrameMachine) : m.fetch.2.memory = m.memory := by
  rw [fetch]
  split <;> rfl

/-- Idles for the next `n` steps. -/
def doze (m : FrameMachine) (n : UInt8) : FrameMachine := { m with sleep := n }

/-- The byte at an offset of a bank. -/
def remoteLoad (m : FrameMachine) (bank offset : UInt8) : UInt8 := m.memory.read bank offset

/-- Stores a byte at an offset of a bank. -/
def remoteStore (m : FrameMachine) (bank offset value : UInt8) : FrameMachine :=
  { m with memory := m.memory.write bank offset value }

/-- The machine after an effect. -/
def apply (m : FrameMachine) : Effect → FrameMachine
  | .nothing => m
  | .push v => m.push v
  | .drop => m.pop.2
  | .copy depth => m.push (m.peek depth)
  | .leave => m.ret
  | .jump offset => m.jump offset
  | .call bank => m.call bank
  | .doze n => m.doze n
  | .loadLocal offset => m.push (m.remoteLoad m.pi offset)
  | .loadRemote bank offset => m.push (m.remoteLoad bank offset)
  | .storeLocal offset v => m.remoteStore m.pi offset v
  | .storeRemote bank offset v => m.remoteStore bank offset v

/-- Pushes a byte if there is one. -/
def pushSome (m : FrameMachine) : Option UInt8 → FrameMachine
  | some v => m.push v
  | none => m

/-- Carries out an action against a host. -/
def perform (h : Host σ) : Action → FrameMachine × σ → FrameMachine × σ
  | .update e, (m, s) => (m.apply e, s)
  | .request r, (m, s) =>
    let (reply, s) := h.ask r s
    (m.pushSome (Request.Reply.operand? r reply), s)

/-- Fills argument slots in order, an inline slot from the bytes behind the opcode and another from
the last frame. -/
def resolve : List Bool → FrameMachine → List UInt8 × FrameMachine
  | [], m => ([], m)
  | inline :: slots, m =>
    let (v, m) := if inline then m.fetch else m.pop
    let (vs, m) := m.resolve slots
    (v :: vs, m)

end FrameMachine

/-- A machine that keeps its frames apart, together with its host's state. -/
structure FrameSystem (σ : Type u) where
  machine : FrameMachine
  host : σ

namespace Processor

/-- Executes a decoded instruction whose opcode has been fetched. -/
def frameExecute (p : Processor) (h : Host σ) (f : Form) (m : FrameMachine) (s : σ) :
    FrameMachine × σ :=
  let (arguments, m) := m.resolve f.slots
  FrameMachine.perform h (f.operation.action arguments) (m, p.charge h f.instruction.cost s)

/-- Executes at most one instruction on a machine that keeps its frames apart. -/
def frameStep (p : Processor) (h : Host σ) (c : FrameSystem σ) : Step × FrameSystem σ :=
  let m := c.machine
  if m.flags.ended then
    (.idle, c)
  else if m.sleep ≠ 0 then
    (.slept, { c with machine := { m with sleep := m.sleep - 1 } })
  else
    let (opcode, m) := m.fetch
    match p.instructions.decode opcode with
    | none => (.unassigned opcode, { c with machine := m.unwind })
    | some f =>
      let (m, s) := p.frameExecute h f m c.host
      (.executed f.operation opcode, ⟨m.unwind, s⟩)

variable {p : Processor} {h : Host σ} {c : FrameSystem σ}

theorem frameExecute_eq (f : Form) (m : FrameMachine) (s : σ) :
    p.frameExecute h f m s =
      FrameMachine.perform h (f.operation.action (m.resolve f.slots).1)
        ((m.resolve f.slots).2, p.charge h f.instruction.cost s) := rfl

theorem frameStep_of_ended (hend : c.machine.flags.ended = true) :
    p.frameStep h c = (.idle, c) := by
  rw [frameStep, if_pos hend]

theorem frameStep_of_asleep (hend : c.machine.flags.ended = false) (hsleep : c.machine.sleep ≠ 0) :
    p.frameStep h c =
      (.slept, { c with machine := { c.machine with sleep := c.machine.sleep - 1 } }) := by
  rw [frameStep, if_neg (Bool.eq_false_iff.mp hend), if_pos hsleep]

theorem frameStep_of_unassigned (hend : c.machine.flags.ended = false)
    (hsleep : c.machine.sleep = 0)
    (hdecode : p.instructions.decode c.machine.fetch.1 = none) :
    p.frameStep h c =
      (.unassigned c.machine.fetch.1, { c with machine := c.machine.fetch.2.unwind }) := by
  rw [frameStep, if_neg (Bool.eq_false_iff.mp hend), if_neg (not_not_intro hsleep)]
  simp only [hdecode]

theorem frameStep_of_decoded {f : Form} (hend : c.machine.flags.ended = false)
    (hsleep : c.machine.sleep = 0) (hdecode : p.instructions.decode c.machine.fetch.1 = some f) :
    p.frameStep h c =
      (.executed f.operation c.machine.fetch.1,
        ⟨(p.frameExecute h f c.machine.fetch.2 c.host).1.unwind,
          (p.frameExecute h f c.machine.fetch.2 c.host).2⟩) := by
  rw [frameStep, if_neg (Bool.eq_false_iff.mp hend), if_neg (not_not_intro hsleep)]
  simp only [hdecode]

/-- One dealing with a machine that keeps its frames apart. -/
def frameAccess (p : Processor) (h : Host σ) (c : FrameSystem σ) : Access → Answer × FrameSystem σ
  | .load program => (.done, { c with machine := .load program })
  | .step => ((p.frameStep h c).map .stepped id)
  | .push v => (.done, { c with machine := c.machine.push v })
  | .pop => (.byte c.machine.pop.1, { c with machine := c.machine.pop.2 })
  | .peek depth => (.byte (c.machine.peek depth), c)
  | .jump offset => (.done, { c with machine := c.machine.jump offset })
  | .call bank => (.done, { c with machine := c.machine.call bank })
  | .ret => (.done, { c with machine := c.machine.ret })
  | .doze n => (.done, { c with machine := c.machine.doze n })
  | .localLoad offset => (.byte (c.machine.remoteLoad c.machine.pi offset), c)
  | .localStore offset v =>
    (.done, { c with machine := c.machine.remoteStore c.machine.pi offset v })
  | .remoteLoad bank offset => (.byte (c.machine.remoteLoad bank offset), c)
  | .remoteStore bank offset v => (.done, { c with machine := c.machine.remoteStore bank offset v })

/-- A row of dealings, with the answers in order. -/
def frameAccesses (p : Processor) (h : Host σ) :
    List Access → FrameSystem σ → List Answer × FrameSystem σ
  | [], c => ([], c)
  | a :: as, c =>
    let (answer, c) := p.frameAccess h c a
    let (answers, c) := p.frameAccesses h as c
    (answer :: answers, c)

/-- The system after some steps. -/
def frameAfter (p : Processor) (h : Host σ) (n : ℕ) (c : FrameSystem σ) : FrameSystem σ :=
  (fun c => (p.frameStep h c).2)^[n] c

theorem frameAfter_add (p : Processor) (h : Host σ) (m n : ℕ) (c : FrameSystem σ) :
    p.frameAfter h (m + n) c = p.frameAfter h n (p.frameAfter h m c) := by
  rw [frameAfter, Nat.add_comm, Function.iterate_add_apply]
  rfl

/-- The last step comes last. -/
theorem frameAfter_succ' (p : Processor) (h : Host σ) (n : ℕ) (c : FrameSystem σ) :
    p.frameAfter h (n + 1) c = (p.frameStep h (p.frameAfter h n c)).2 :=
  Function.iterate_succ_apply' _ n c

end Processor

end Protocell
