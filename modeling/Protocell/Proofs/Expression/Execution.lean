import Protocell.Proofs.Expression.Value
import Protocell.Proofs.Frames.Machine
import Protocell.Proofs.Opcodes

/-!
# Proofs/Expression/Execution — running the code of an expression

A machine that stands before the code of a complete expression, and is neither at its end nor
asleep, pushes the value of the expression with one step for each instruction (`frameAfter_code`).

The induction is on the tree.  The code of a node is that of its arguments that are no leaves,
highest slot first, so when the opcode is fetched their values lie on the stack with the lowest slot
on top (`stacked`).  The slots are then filled from the lowest on, each leaf from behind the opcode
and each other argument by a pop, and either way slot `k` gets the value of argument `k`
(`resolve_stacked`).
-/

namespace Protocell

/-- Bytes stand in a bank from an offset on. -/
def Memory.HoldsAt (m : Memory) (bank : UInt8) : UInt8 → List UInt8 → Prop
  | _, [] => True
  | offset, v :: vs => m.read bank offset = v ∧ m.HoldsAt bank (offset + 1) vs

theorem Memory.holdsAt_append {m : Memory} {bank offset : UInt8} {vs ws : List UInt8} :
    m.HoldsAt bank offset (vs ++ ws) ↔
      m.HoldsAt bank offset vs ∧ m.HoldsAt bank (offset + UInt8.ofNat vs.length) ws := by
  induction vs generalizing offset with
  | nil => simp [HoldsAt]
  | cons v vs ih =>
    rw [List.cons_append, HoldsAt, HoldsAt, ih, and_assoc, List.length_cons, UInt8.ofNat_add,
      UInt8.add_comm (UInt8.ofNat vs.length), ← UInt8.add_assoc]
    rfl

theorem Frames.peek_push (fs : Frames) (v : UInt8) : (fs.push v).peek 0 = v := by
  simp [Frames.peek]

theorem Frames.pop_push (fs : Frames) (v : UInt8) : (fs.push v).pop = fs := by
  simp [Frames.pop, Frames.push]

theorem toNat_add_ofNat {x : UInt8} {n : ℕ} (h : x.toNat + n < 256) :
    (x + UInt8.ofNat n).toNat = x.toNat + n := by
  rw [UInt8.toNat_add, UInt8.toNat_ofNat', Nat.mod_eq_of_lt (by omega : n < 2 ^ 8),
    Nat.mod_eq_of_lt h]

namespace FrameMachine

variable {m : FrameMachine}

theorem push_of_room (v : UInt8) (h : m.frames.size < 255) :
    m.push v = { m with frames := m.frames.push v } := by
  rw [push, if_neg (Nat.ne_of_lt h)]

theorem fetch_of_room (hend : m.flags.ended = false) (hpc : m.pc.toNat < 255) :
    m.fetch = (m.memory.read m.pi m.pc, { m with pc := m.pc + 1 }) := by
  have hne : (m.pc == 255) = false := by
    rw [beq_eq_false_iff_ne, ne_eq, ← UInt8.toNat_inj]
    exact Nat.ne_of_lt hpc
  have hflags : ({ m.flags with ended := false } : Flags) = m.flags := by rw [← hend]
  rw [fetch, if_neg (Bool.eq_false_iff.mp hend), hne, hflags]

/-- **An operation that yields a value pushes it**, if there is room. -/
theorem perform_of_yields {o : Operation} (ho : o.yields = true) (h : Host σ)
    (arguments : List UInt8) (s : σ) (hroom : m.frames.size < 255) :
    perform h (o.action arguments) (m, s)
      = ({ m with frames := m.frames.push (o.value m.memory m.pi arguments) }, s) := by
  rcases o.action_of_yields ho m.memory m.pi arguments with
    heq | ⟨offset, heq, hread⟩ | ⟨bank, offset, heq, hread⟩
  · rw [heq, perform, apply, push_of_room _ hroom]
  · rw [heq, perform, apply, remoteLoad, hread, push_of_room _ hroom]
  · rw [heq, perform, apply, remoteLoad, hread, push_of_room _ hroom]

end FrameMachine

open Assembly Assembly.Tree

/-! ## Filling the slots -/

/-- The frames with the values of those arguments on top that are no leaves, the lowest slot's on
top of all. -/
def stacked (value : Tree → UInt8) : List Tree → Frames → Frames
  | [], fs => fs
  | t :: ts, fs =>
    if t.literal?.isSome then stacked value ts fs else (stacked value ts fs).push (value t)

/-- **Each slot gets the value of its argument**, be it from behind the opcode or from the stack. -/
theorem resolve_stacked {ts : List Tree} {m : FrameMachine} {fs : Frames}
    (hend : m.flags.ended = false) (hframes : m.frames = stacked (Tree.value m.memory m.pi) ts fs)
    (hcode : m.memory.HoldsAt m.pi m.pc (ts.filterMap literal?))
    (hpc : m.pc.toNat + (ts.filterMap literal?).length ≤ 255) :
    FrameMachine.resolve (ts.map fun t => t.literal?.isSome) m =
      (values m.memory m.pi ts,
        { m with pc := m.pc + UInt8.ofNat (ts.filterMap literal?).length, frames := fs }) := by
  induction ts generalizing m with
  | nil =>
    obtain rfl : m.frames = fs := hframes
    simp [FrameMachine.resolve, values]
  | cons t ts ih =>
    rw [List.map_cons, FrameMachine.resolve]
    cases t with
    | leaf v =>
      have hcons : (leaf v :: ts).filterMap literal? = v :: ts.filterMap literal? := rfl
      rw [hcons] at hcode hpc ⊢
      rw [List.length_cons] at hpc
      have hnext : (m.pc + 1).toNat = m.pc.toNat + 1 := toNat_add_ofNat (n := 1) (by omega)
      have hfetch := FrameMachine.fetch_of_room hend (by omega : m.pc.toNat < 255)
      have hrest := ih (m := { m with pc := m.pc + 1 }) hend hframes hcode.2 (by rw [hnext]; omega)
      have hpc' : m.pc + UInt8.ofNat (v :: ts.filterMap literal?).length
          = m.pc + 1 + UInt8.ofNat (ts.filterMap literal?).length := by
        rw [List.length_cons, UInt8.ofNat_add, UInt8.add_assoc]
        exact congrArg _ (UInt8.add_comm _ _)
      simp only [literal?_leaf, Option.isSome_some, if_true, hfetch, hrest, hcode.1, hpc', values,
        Tree.value]
    | node i us =>
      have hpop : m.pop = (Tree.value m.memory m.pi (node i us),
          { m with frames := stacked (Tree.value m.memory m.pi) ts fs }) := by
        rw [FrameMachine.pop, hframes, stacked]
        simp [Frames.peek_push, Frames.pop_push]
      have hrest := ih (m := { m with frames := stacked (Tree.value m.memory m.pi) ts fs }) hend rfl
        hcode hpc
      have hcons : (node i us :: ts).filterMap literal? = ts.filterMap literal? := rfl
      simp only [literal?_node, Option.isSome_none, Bool.false_eq_true, if_false, hpop, hrest,
        values, hcons]

/-! ## One instruction -/

/-- The variant of a node's opcode tells its leaves from its other arguments. -/
theorem decode_opcode_leafBits {s : InstructionSet} (hs : s.Lawful) {i : Instruction}
    (hi : i ∈ s.instructions) {ts : List Tree} (hlen : ts.length = i.arity) :
    ∃ f, s.decode (i.opcode (UInt8.ofNat (leafBits ts))) = some f ∧ f.instruction = i ∧
      f.slots = ts.map fun t => t.literal?.isSome := by
  have hbits : leafBits ts = bitsToNat (ts.map fun t => t.literal?.isSome) := by
    rw [leafBits, sum_leafBits_zipIdx, Nat.pow_zero, Nat.one_mul]
  have hlen' : (ts.map fun t => t.literal?.isSome).length = i.arity := by
    rw [List.length_map, hlen]
  have harity := hs.arity_le i hi
  have hlt : (UInt8.ofNat (leafBits ts)).toNat < i.size := by
    have hpow := bitsToNat_lt (ts.map fun t => t.literal?.isSome)
    rw [hlen', ← Definition.size_eq] at hpow
    rw [hbits, UInt8.toNat_ofNat']
    exact Nat.lt_of_le_of_lt (Nat.mod_le _ _) hpow
  refine ⟨_, hs.decode_opcode hi hlt, rfl, ?_⟩
  rw [hbits]
  exact Form.slots_ofNat_bitsToNat hlen' harity

namespace FrameSystem

/-- The system some bytes further on in its bank, with other frames and another host. -/
def moved (c : FrameSystem σ) (n : ℕ) (fs : Frames) (s : σ) : FrameSystem σ :=
  ⟨{ c.machine with pc := c.machine.pc + UInt8.ofNat n, frames := fs }, s⟩

theorem moved_zero (c : FrameSystem σ) : c.moved 0 c.machine.frames c.host = c := by
  simp [moved]

theorem moved_moved (c : FrameSystem σ) (a b : ℕ) (fs gs : Frames) (s r : σ) :
    (c.moved a fs s).moved b gs r = c.moved (a + b) gs r := by
  simp only [moved, UInt8.ofNat_add, UInt8.add_assoc]

end FrameSystem

namespace Processor

variable {p : Processor} {h : Host σ}

/-- The host after some instructions were charged for. -/
def charged (p : Processor) (h : Host σ) (is : List Instruction) (s : σ) : σ :=
  is.foldl (fun s i => p.charge h i.cost s) s

/-- **One step executes an instruction whose arguments are in place.** -/
theorem frameStep_opcode (hs : p.instructions.Lawful) {i : Instruction}
    (hi : i ∈ p.instructions.instructions) (hyields : i.operation.yields = true) {ts : List Tree}
    (hlen : ts.length = i.arity) {c : FrameSystem σ} (fs : Frames)
    (hend : c.machine.flags.ended = false) (hsleep : c.machine.sleep = 0)
    (hframes : c.machine.frames = stacked (Tree.value c.machine.memory c.machine.pi) ts fs)
    (hroom : fs.size < 255)
    (hcode : c.machine.memory.HoldsAt c.machine.pi c.machine.pc
      (i.opcode (UInt8.ofNat (leafBits ts)) :: ts.filterMap literal?))
    (hpc : c.machine.pc.toNat + (1 + (ts.filterMap literal?).length) ≤ 255) :
    (p.frameStep h c).2 =
      c.moved (1 + (ts.filterMap literal?).length)
        (fs.push ((node i ts).value c.machine.memory c.machine.pi)) (p.charge h i.cost c.host) := by
  obtain ⟨f, hdecode, hinstruction, hslots⟩ := decode_opcode_leafBits hs hi hlen
  obtain ⟨hopcode, hliterals⟩ := hcode
  have hfetch := FrameMachine.fetch_of_room hend (by omega : c.machine.pc.toNat < 255)
  have hnext : (c.machine.pc + 1).toNat = c.machine.pc.toNat + 1 :=
    toNat_add_ofNat (n := 1) (by omega)
  have hresolve := resolve_stacked (m := { c.machine with pc := c.machine.pc + 1 }) hend hframes
    hliterals (by rw [hnext]; omega)
  rw [frameStep_of_decoded (f := f) hend hsleep (by rw [hfetch, hopcode]; exact hdecode),
    frameExecute_eq, hslots, hfetch, hresolve, Form.operation, hinstruction,
    FrameMachine.perform_of_yields hyields _ _ _ hroom,
    FrameMachine.unwind_of_running (by exact hend),
    FrameSystem.moved, UInt8.ofNat_add, ← UInt8.add_assoc]
  rfl

/-! ## Whole expressions -/

/-- Running the code of an expression pushes its value, with one step for each instruction. -/
def Evaluates (p : Processor) (h : Host σ) (t : Tree) : Prop :=
  ∀ c : FrameSystem σ, c.machine.flags.ended = false → c.machine.sleep = 0 →
    c.machine.memory.HoldsAt c.machine.pi c.machine.pc t.code →
    c.machine.pc.toNat + t.code.length ≤ 255 → c.machine.frames.size + t.steps.length ≤ 255 →
    p.frameAfter h t.steps.length c =
      c.moved t.code.length (c.machine.frames.push (t.value c.machine.memory c.machine.pi))
        (p.charged h t.steps c.host)

/-- Each argument on the stack takes a step at least. -/
theorem size_stacked_le (value : Tree → UInt8) (ts : List Tree) (fs : Frames) :
    (stacked value ts fs).size ≤ fs.size + (stepsOf ts).length := by
  induction ts with
  | nil => exact Nat.le_refl _
  | cons t ts ih =>
    cases t with
    | leaf v => simpa [stacked, stepsOf, steps] using ih
    | node i us =>
      simp only [stacked, stepsOf, steps, literal?_node, Option.isSome_none, Bool.false_eq_true,
        if_false, Frames.size_push, List.length_append, List.length_singleton]
      omega

/-- **Running the code of arguments stacks their values**, if each of them evaluates. -/
theorem frameAfter_nested {ts : List Tree}
    (hts : ∀ t ∈ ts, t.literal? = none → p.Evaluates h t) {c : FrameSystem σ}
    (hend : c.machine.flags.ended = false) (hsleep : c.machine.sleep = 0)
    (hcode : c.machine.memory.HoldsAt c.machine.pi c.machine.pc (nested ts))
    (hpc : c.machine.pc.toNat + (nested ts).length ≤ 255)
    (hsize : c.machine.frames.size + (stepsOf ts).length ≤ 255) :
    p.frameAfter h (stepsOf ts).length c =
      c.moved (nested ts).length
        (stacked (Tree.value c.machine.memory c.machine.pi) ts c.machine.frames)
        (p.charged h (stepsOf ts) c.host) := by
  induction ts with
  | nil => exact (FrameSystem.moved_zero c).symm
  | cons t ts ih =>
    obtain ⟨ht, hrest⟩ := List.forall_mem_cons.mp hts
    cases t with
    | leaf v =>
      have hnested : nested (leaf v :: ts) = nested ts := List.append_nil _
      have hsteps : stepsOf (leaf v :: ts) = stepsOf ts := List.append_nil _
      rw [hnested] at hcode hpc ⊢
      rw [hsteps] at hsize ⊢
      exact ih hrest hcode hpc hsize
    | node i us =>
      have hnested : nested (node i us :: ts) = nested ts ++ (node i us).code := rfl
      have hsteps : stepsOf (node i us :: ts) = stepsOf ts ++ (node i us).steps := rfl
      rw [hnested, Memory.holdsAt_append] at hcode
      rw [hnested, List.length_append] at hpc
      rw [hsteps, List.length_append] at hsize
      have hfirst := ih hrest hcode.1 (by omega) (by omega)
      have hstacked :=
        size_stacked_le (Tree.value c.machine.memory c.machine.pi) ts c.machine.frames
      have hnext : (c.machine.pc + UInt8.ofNat (nested ts).length).toNat
          = c.machine.pc.toNat + (nested ts).length := toNat_add_ofNat (by omega)
      have hlast := ht rfl (c.moved (nested ts).length
          (stacked (Tree.value c.machine.memory c.machine.pi) ts c.machine.frames)
          (p.charged h (stepsOf ts) c.host)) hend hsleep hcode.2
        (by rw [FrameSystem.moved, hnext]; omega) (by simp only [FrameSystem.moved]; omega)
      rw [hsteps, hnested, List.length_append, frameAfter_add, hfirst, hlast,
        FrameSystem.moved_moved, List.length_append, charged, charged, charged, List.foldl_append]
      rfl

/-- **A complete expression evaluates.** -/
theorem evaluates_of_isExpression (hs : p.instructions.Lawful) {t : Tree}
    (ht : t.IsExpression p.instructions) (hnode : t.literal? = none) : p.Evaluates h t := by
  induction ht with
  | leaf v => cases hnode
  | @node i ts hi hyields hlen _ ih =>
    intro c hend hsleep hcode hpc hsize
    have hcode' : (node i ts).code
        = nested ts ++ i.opcode (UInt8.ofNat (leafBits ts)) :: ts.filterMap literal? := rfl
    have hsteps : (node i ts).steps = stepsOf ts ++ [i] := rfl
    rw [hcode', Memory.holdsAt_append] at hcode
    rw [hcode', List.length_append, List.length_cons] at hpc
    rw [hsteps, List.length_append, List.length_singleton] at hsize
    have hargs := frameAfter_nested (p := p) (h := h) ih hend hsleep hcode.1 (by omega) (by omega)
    have hnext : (c.machine.pc + UInt8.ofNat (nested ts).length).toNat
        = c.machine.pc.toNat + (nested ts).length := toNat_add_ofNat (by omega)
    have hlast := frameStep_opcode (p := p) (h := h) hs hi hyields hlen
      (c := c.moved (nested ts).length
        (stacked (Tree.value c.machine.memory c.machine.pi) ts c.machine.frames)
        (p.charged h (stepsOf ts) c.host))
      c.machine.frames hend hsleep rfl (by omega) hcode.2
      (by rw [FrameSystem.moved, hnext]; omega)
    rw [hsteps, hcode', List.length_append, List.length_singleton, frameAfter_succ', hargs, hlast,
      FrameSystem.moved_moved, List.length_append, List.length_cons, Nat.add_comm 1, charged,
      charged, List.foldl_append]
    rfl

end Processor

end Protocell
