import Protocell.Proofs.Access
import Protocell.Proofs.Frames.Layout
import Protocell.Proofs.Frames.Machine

/-!
# Proofs/Frames/Refinement — bytes behave as frames

Whatever is done to a new machine, in any order, its stack goes on holding frames, and a machine
that keeps its frames apart gives the same answers to the same dealings (`accesses_refine_frames`).

`Machine.Represents` relates the two machines.  Each operation keeps it; a step is a row of
operations, so a step keeps it, and so does any row of dealings.  Only unwinding needs an argument
of its own: the byte machine bounds its returns by the mark and the other by the number of open
calls, and both bounds are more than enough (`FrameMachine.unwindUpTo_eq`).
-/

namespace Protocell

/-- A machine of bytes and a machine of frames are in the same state. -/
structure Machine.Represents (m : Machine) (f : FrameMachine) : Prop where
  pi_eq : m.pi = f.pi
  pc_eq : m.pc = f.pc
  flags_eq : m.flags = f.flags
  sleep_eq : m.sleep = f.sleep
  memory_eq : m.memory = f.memory
  holds : m.Holds f.frames

namespace Machine

theorem represents_load (p : Program) : (Machine.load p).Represents (.load p) :=
  ⟨rfl, rfl, rfl, rfl, rfl, rfl, rfl⟩

theorem represents_new : ({} : Machine).Represents {} := ⟨rfl, rfl, rfl, rfl, rfl, rfl, rfl⟩

namespace Represents

variable {m : Machine} {f : FrameMachine}

/-! ## Operations -/

theorem overflow (h : m.Represents f) : m.overflow.Represents f.overflow where
  pi_eq := h.pi_eq
  pc_eq := h.pc_eq
  flags_eq := by rw [Machine.overflow, FrameMachine.overflow, h.flags_eq]
  sleep_eq := h.sleep_eq
  memory_eq := h.memory_eq
  holds := h.holds.congr rfl rfl

theorem push (h : m.Represents f) (v : UInt8) : (m.push v).Represents (f.push v) := by
  rw [FrameMachine.push]
  split
  · rw [h.holds.push_of_full ‹_›]
    exact h.overflow
  · have heq := h.holds.push_eq ‹_› v
    refine ⟨?_, ?_, ?_, ?_, ?_, h.holds.push ‹_› v⟩
    all_goals rw [heq]
    exacts [h.pi_eq, h.pc_eq, h.flags_eq, h.sleep_eq, h.memory_eq]

theorem pop_fst (h : m.Represents f) : m.pop.1 = f.pop.1 := h.holds.pop_fst

theorem pop_snd (h : m.Represents f) : m.pop.2.Represents f.pop.2 := by
  have heq := h.holds.pop_snd_eq
  refine ⟨?_, ?_, ?_, ?_, ?_, h.holds.pop_snd⟩
  all_goals rw [heq]
  exacts [h.pi_eq, h.pc_eq, h.flags_eq, h.sleep_eq, h.memory_eq]

theorem peek (h : m.Represents f) (d : UInt8) : m.peek d = f.peek d := h.holds.peek d

theorem jump (h : m.Represents f) (offset : UInt8) :
    (m.jump offset).Represents (f.jump offset) where
  pi_eq := h.pi_eq
  pc_eq := rfl
  flags_eq := by rw [Machine.jump, FrameMachine.jump, h.flags_eq]
  sleep_eq := h.sleep_eq
  memory_eq := h.memory_eq
  holds := h.holds.congr rfl rfl

theorem doze (h : m.Represents f) (n : UInt8) : (m.doze n).Represents (f.doze n) :=
  { h with sleep_eq := rfl, holds := h.holds.congr rfl rfl }

theorem remoteLoad (h : m.Represents f) (bank offset : UInt8) :
    m.remoteLoad bank offset = f.remoteLoad bank offset := by
  rw [Machine.remoteLoad, FrameMachine.remoteLoad, h.memory_eq]

theorem remoteStore (h : m.Represents f) (bank offset v : UInt8) :
    (m.remoteStore bank offset v).Represents (f.remoteStore bank offset v) :=
  { h with
    memory_eq := by rw [Machine.remoteStore, FrameMachine.remoteStore, h.memory_eq]
    holds := h.holds.congr rfl rfl }

/-- A call pushes a header that the frames list as the call's own. -/
theorem call (h : m.Represents f) (bank : UInt8) : (m.call bank).Represents (f.call bank) := by
  rw [FrameMachine.call]
  split
  · rw [h.holds.call_of_full ‹_›]
    exact h.overflow
  · have hroom : f.frames.size ≤ 252 := Nat.not_lt.mp ‹_›
    have hholds := h.holds.call hroom bank
    obtain ⟨stack, sp, sm, heq⟩ := h.holds.exists_call_eq hroom bank
    rw [h.pc_eq, h.pi_eq] at hholds
    refine ⟨?_, ?_, ?_, ?_, ?_, hholds⟩
    all_goals rw [heq]
    exacts [rfl, rfl, by rw [h.flags_eq, h.memory_eq]; rfl, h.sleep_eq, h.memory_eq]

/-- A return reads off the stack what the frames list as the call's own. -/
theorem ret (h : m.Represents f) : m.ret.Represents f.ret := by
  have hholds := h.holds
  cases hframes : f.frames with
  | root vs =>
    rw [hframes] at hholds
    rw [hholds.ret_root, f.ret_root hframes]
    exact { h with flags_eq := by rw [h.flags_eq], holds := h.holds.congr rfl rfl }
  | called caller pc pi vs =>
    rw [hframes] at hholds
    have hcaller := hholds.ret_called
    rw [hholds.ret_called_eq] at hcaller ⊢
    rw [f.ret_called hframes]
    exact ⟨rfl, rfl, by rw [h.flags_eq, h.memory_eq], h.sleep_eq, h.memory_eq, hcaller⟩

theorem fetch_fst (h : m.Represents f) : m.fetch.1 = f.fetch.1 := by
  rw [Machine.fetch, FrameMachine.fetch, h.flags_eq, h.memory_eq, h.pi_eq, h.pc_eq]
  split <;> rfl

theorem fetch_snd (h : m.Represents f) : m.fetch.2.Represents f.fetch.2 := by
  rw [Machine.fetch, FrameMachine.fetch, h.flags_eq]
  split
  · exact h
  · exact
      { h with
        pc_eq := congrArg (· + 1) h.pc_eq
        flags_eq := by rw [h.pc_eq]
        holds := h.holds.congr rfl rfl }

/-! ## Steps -/

theorem unwindUpTo (h : m.Represents f) (n : ℕ) :
    (Machine.unwindUpTo n m).Represents (FrameMachine.unwindUpTo n f) := by
  induction n generalizing m f with
  | zero => exact h
  | succ n ih =>
    rw [Machine.unwindUpTo, FrameMachine.unwindUpTo, h.flags_eq]
    split
    · exact ih h.ret
    · exact h

/-- Each open call takes three bytes below the mark, so the mark bounds the returns. -/
theorem unwind (h : m.Represents f) : m.unwind.Represents f.unwind := by
  have hdepth : f.frames.depth < m.sm.toNat + 1 := by
    have := f.frames.depth_le_start
    rw [h.holds.mark_eq]
    omega
  rw [Machine.unwind, FrameMachine.unwind, FrameMachine.unwindUpTo_eq (Nat.lt_succ_self _) hdepth]
  exact h.unwindUpTo _

theorem resolve (h : m.Represents f) (slots : List Bool) :
    (Machine.resolve slots m).1 = (FrameMachine.resolve slots f).1 ∧
      (Machine.resolve slots m).2.Represents (FrameMachine.resolve slots f).2 := by
  induction slots generalizing m f with
  | nil => exact ⟨rfl, h⟩
  | cons inline slots ih =>
    rw [Machine.resolve, FrameMachine.resolve]
    cases inline with
    | true =>
      obtain ⟨hargs, hrest⟩ := ih h.fetch_snd
      exact ⟨congrArg₂ List.cons h.fetch_fst hargs, hrest⟩
    | false =>
      obtain ⟨hargs, hrest⟩ := ih h.pop_snd
      exact ⟨congrArg₂ List.cons h.pop_fst hargs, hrest⟩

theorem apply (h : m.Represents f) (e : Effect) : (m.apply e).Represents (f.apply e) := by
  cases e with
  | nothing => exact h
  | push v => exact h.push v
  | drop => exact h.pop_snd
  | copy depth =>
    rw [Machine.apply, FrameMachine.apply, h.peek]
    exact h.push _
  | leave => exact h.ret
  | jump offset => exact h.jump offset
  | call bank => exact h.call bank
  | doze n => exact h.doze n
  | loadLocal offset =>
    rw [Machine.apply, FrameMachine.apply, localLoad, h.pi_eq, h.remoteLoad]
    exact h.push _
  | loadRemote bank offset =>
    rw [Machine.apply, FrameMachine.apply, h.remoteLoad]
    exact h.push _
  | storeLocal offset v =>
    rw [Machine.apply, FrameMachine.apply, localStore, h.pi_eq]
    exact h.remoteStore _ offset v
  | storeRemote bank offset v => exact h.remoteStore bank offset v

theorem pushSome (h : m.Represents f) (v : Option UInt8) :
    (m.pushSome v).Represents (f.pushSome v) := by
  cases v with
  | none => exact h
  | some v => exact h.push v

theorem perform (h : m.Represents f) (o : Host σ) (a : Action) (s : σ) :
    (a.perform o (m, s)).1.Represents (FrameMachine.perform o a (f, s)).1 ∧
      (a.perform o (m, s)).2 = (FrameMachine.perform o a (f, s)).2 := by
  cases a with
  | update e => exact ⟨h.apply e, rfl⟩
  | request r => exact ⟨h.pushSome _, rfl⟩

end Represents

end Machine

/-- A system of bytes and a system of frames are in the same state. -/
structure System.Represents (x : System σ) (y : FrameSystem σ) : Prop where
  machine : x.machine.Represents y.machine
  host_eq : x.host = y.host

namespace System.Represents

variable {x : System σ} {y : FrameSystem σ}

theorem execute (h : x.Represents y) (p : Processor) (o : Host σ) (form : Form) :
    (p.execute o form x.machine x.host).1.Represents (p.frameExecute o form y.machine y.host).1 ∧
      (p.execute o form x.machine x.host).2 = (p.frameExecute o form y.machine y.host).2 := by
  obtain ⟨hargs, hresolved⟩ := h.machine.resolve form.slots
  rw [Processor.execute_eq, Processor.frameExecute_eq, hargs, h.host_eq]
  exact hresolved.perform o _ _

/-- **A step does the same to bytes and to frames.** -/
theorem step (h : x.Represents y) (p : Processor) (o : Host σ) :
    (p.step o x).1 = (p.frameStep o y).1 ∧
      (p.step o x).2.Represents (p.frameStep o y).2 := by
  have hm := h.machine
  have hfetch := hm.fetch_fst
  by_cases hend : y.machine.flags.ended = true
  · rw [Processor.step_of_ended (hm.flags_eq ▸ hend), Processor.frameStep_of_ended hend]
    exact ⟨rfl, h⟩
  rw [Bool.not_eq_true] at hend
  have hend' : x.machine.flags.ended = false := hm.flags_eq ▸ hend
  by_cases hsleep : y.machine.sleep = 0
  · have hsleep' : x.machine.sleep = 0 := hm.sleep_eq.trans hsleep
    cases hdecode : p.instructions.decode y.machine.fetch.1 with
    | none =>
      rw [Processor.step_of_unassigned hend' hsleep' (hfetch ▸ hdecode),
        Processor.frameStep_of_unassigned hend hsleep hdecode, hfetch]
      exact ⟨rfl, hm.fetch_snd.unwind, h.host_eq⟩
    | some form =>
      rw [Processor.step_of_decoded hend' hsleep' (hfetch ▸ hdecode),
        Processor.frameStep_of_decoded hend hsleep hdecode, hfetch]
      have hfetched : System.Represents ⟨x.machine.fetch.2, x.host⟩ ⟨y.machine.fetch.2, y.host⟩ :=
        ⟨hm.fetch_snd, h.host_eq⟩
      obtain ⟨hmachine, hhost⟩ := hfetched.execute p o form
      exact ⟨rfl, hmachine.unwind, hhost⟩
  · have hsleep' : x.machine.sleep ≠ 0 := hm.sleep_eq ▸ hsleep
    rw [Processor.step_of_asleep hend' hsleep', Processor.frameStep_of_asleep hend hsleep]
    have hawake : ({ x.machine with sleep := x.machine.sleep - 1 } : Machine).Represents
        { y.machine with sleep := y.machine.sleep - 1 } :=
      { hm with sleep_eq := congrArg (· - 1) hm.sleep_eq, holds := hm.holds.congr rfl rfl }
    exact ⟨rfl, hawake, h.host_eq⟩

/-! ## Dealings -/

/-- A change of the machine alone. -/
theorem withMachine {m : Machine} {f : FrameMachine} (h : x.Represents y) (hm : m.Represents f) :
    System.Represents { x with machine := m } { y with machine := f } := ⟨hm, h.host_eq⟩

theorem access (h : x.Represents y) (p : Processor) (o : Host σ) (a : Access) :
    (p.access o x a).1 = (p.frameAccess o y a).1 ∧
      (p.access o x a).2.Represents (p.frameAccess o y a).2 := by
  have hm := h.machine
  have hlocal (offset : UInt8) :
      x.machine.localLoad offset = y.machine.remoteLoad y.machine.pi offset := by
    rw [Machine.localLoad, hm.pi_eq, hm.remoteLoad]
  cases a with
  | load program => exact ⟨rfl, h.withMachine (Machine.represents_load program)⟩
  | step =>
    obtain ⟨hanswer, hrest⟩ := h.step p o
    exact ⟨congrArg Answer.stepped hanswer, hrest⟩
  | push v => exact ⟨rfl, h.withMachine (hm.push v)⟩
  | pop => exact ⟨congrArg Answer.byte hm.pop_fst, h.withMachine hm.pop_snd⟩
  | peek depth => exact ⟨congrArg Answer.byte (hm.peek depth), h⟩
  | jump offset => exact ⟨rfl, h.withMachine (hm.jump offset)⟩
  | call bank => exact ⟨rfl, h.withMachine (hm.call bank)⟩
  | ret => exact ⟨rfl, h.withMachine hm.ret⟩
  | doze n => exact ⟨rfl, h.withMachine (hm.doze n)⟩
  | localLoad offset => exact ⟨congrArg Answer.byte (hlocal offset), h⟩
  | localStore offset v =>
    refine ⟨rfl, h.withMachine ?_⟩
    rw [Machine.localStore, hm.pi_eq]
    exact hm.remoteStore _ offset v
  | remoteLoad bank offset => exact ⟨congrArg Answer.byte (hm.remoteLoad bank offset), h⟩
  | remoteStore bank offset v => exact ⟨rfl, h.withMachine (hm.remoteStore bank offset v)⟩

theorem accesses (h : x.Represents y) (p : Processor) (o : Host σ) (as : List Access) :
    (p.accesses o as x).1 = (p.frameAccesses o as y).1 ∧
      (p.accesses o as x).2.Represents (p.frameAccesses o as y).2 := by
  induction as generalizing x y with
  | nil => exact ⟨rfl, h⟩
  | cons a as ih =>
    obtain ⟨hanswer, hnext⟩ := h.access p o a
    obtain ⟨hanswers, hlast⟩ := ih hnext
    exact ⟨congrArg₂ List.cons hanswer hanswers, hlast⟩

theorem after (h : x.Represents y) (p : Processor) (o : Host σ) (n : ℕ) :
    (p.after o n x).Represents (p.frameAfter o n y) := by
  induction n generalizing x y with
  | zero => exact h
  | succ n ih => exact ih (h.step p o).2

end System.Represents

/-! ## What is held after any dealings -/

/-- **What the operations of a machine do to the frames it holds.** -/
structure Machine.ActsOnFrames (m : Machine) (fs : Frames) : Prop where
  /-- A push appends to the last frame. -/
  push (v : UInt8) : fs.size < 255 → (m.push v).Holds (fs.push v)
  /-- At 255 bytes a push only sets the flag. -/
  push_full (v : UInt8) : fs.size = 255 → m.push v = m.overflow
  /-- A pop takes the last operand of the last frame. -/
  pop : m.pop.1 = fs.peek 0 ∧ m.pop.2.Holds fs.pop
  /-- An empty frame gives zero and is left as it is. -/
  pop_empty : fs.operands = [] → m.pop = (0, m)
  /-- A peek gives the operand so deep below the top of the last frame, or zero. -/
  peek (depth : UInt8) : m.peek depth = fs.operands.reverse.getD depth.toNat 0
  /-- A call puts an empty frame on top, with the place it came from in its header. -/
  call (bank : UInt8) : fs.size ≤ 252 → (m.call bank).Holds (.called fs m.pc m.pi [])
  /-- With less than three bytes left a call only sets the flag. -/
  call_full (bank : UInt8) : 252 < fs.size → m.call bank = m.overflow
  /-- A return drops the last frame and goes on at the place in its header. -/
  ret {caller : Frames} {pc pi : UInt8} {vs : List UInt8} : fs = .called caller pc pi vs →
    m.ret.Holds caller ∧ m.ret.pc = pc ∧ m.ret.pi = pi
  /-- A return from the root frame halts and changes nothing else. -/
  ret_root {vs : List UInt8} : fs = .root vs →
    m.ret = { m with flags := { m.flags with ended := true, halted := true } }
  /-- Jumps, delays and stores leave the frames alone. -/
  other (offset n bank v : UInt8) :
    (m.jump offset).Holds fs ∧ (m.doze n).Holds fs ∧ (m.localStore offset v).Holds fs ∧
      (m.remoteStore bank offset v).Holds fs

theorem Machine.Holds.actsOnFrames {m : Machine} {fs : Frames} (h : m.Holds fs) :
    m.ActsOnFrames fs where
  push v hroom := h.push (Nat.ne_of_lt hroom) v
  push_full v hfull := h.push_of_full hfull v
  pop := ⟨h.pop_fst, h.pop_snd⟩
  pop_empty hempty := by
    have hle := h.sp_le_iff.mpr hempty
    have heq : m.sp = m.sm := UInt8.le_antisymm hle h.mark_le
    rw [Machine.pop, if_pos hle]
    exact congrArg (fun sp => (0, ({ m with sp } : Machine))) heq.symm
  peek depth := h.peek depth
  call bank hroom := h.call hroom bank
  call_full bank hfull := h.call_of_full hfull bank
  ret := by
    rintro caller pc pi vs rfl
    refine ⟨h.ret_called, ?_, ?_⟩ <;> rw [h.ret_called_eq]
  ret_root := by
    rintro vs rfl
    exact h.ret_root
  other offset n bank v :=
    ⟨h.congr rfl rfl, h.congr rfl rfl, h.congr rfl rfl, h.congr rfl rfl⟩

/-- **A byte stack with a pointer and a mark is a stack of frames.**  Whatever is done to a new
machine, its live bytes are those of the frames of a machine that keeps its frames apart and to
which the same was done, with the mark at the start of the last of them and 255 bytes at most; both
give the same answers; and every stack operation acts on these frames as on a list. -/
theorem accesses_refine_frames (p : Processor) (o : Host σ) (s : σ) (as : List Access) :
    let x := p.accesses o as ⟨{}, s⟩
    let y := p.frameAccesses o as ⟨{}, s⟩
    x.1 = y.1 ∧ x.2.Represents y.2 ∧ y.2.machine.frames.size ≤ 255 ∧
      x.2.machine.ActsOnFrames y.2.machine.frames := by
  have hnew : System.Represents ⟨{}, s⟩ ⟨{}, s⟩ := ⟨Machine.represents_new, rfl⟩
  obtain ⟨hanswers, hrest⟩ := hnew.accesses p o as
  have hholds := hrest.machine.holds
  exact ⟨hanswers, hrest, Nat.le_of_lt_succ hholds.size_lt, hholds.actsOnFrames⟩

end Protocell
