import Mathlib.Data.List.GetD
import Protocell.Assembly.Draft
import Protocell.Proofs.Frames.Refinement
import Protocell.Proofs.Runs.Step
import Protocell.Proofs.Variants

/-!
# Proofs/Runs/Arguments — where an instruction's arguments come from

While a machine fills argument slots it fetches bytes and pops operands in any order, but the two do
not get in each other's way: after `a` fetches and `b` pops it is the machine with `a` bytes of code
read and `b` operands taken (`Machine.taken`), whatever their order was.  So the byte or operand
that a slot gets depends only on how many slots before it are inline (`resolve_taken`).

Both sides run out softly.  A fetch past the end of the bank and a pop of an empty frame give zero,
and either may happen in the middle of an instruction, or both at once.
-/

namespace Protocell

namespace Machine

variable {m : Machine} {a b : ℕ}

/-- The byte of the active bank so far behind the offset; zero past the end of the bank. -/
def codeByte (m : Machine) (k : ℕ) : UInt8 :=
  if m.pc.toNat + k ≤ 255 then m.memory.read m.pi (UInt8.ofNat (m.pc.toNat + k)) else 0

/-- The operand so far below the top of the active frame; zero if the frame is shorter. -/
def operand (m : Machine) (k : ℕ) : UInt8 := m.frame.reverse.getD k 0

/-- **The machine that has read `a` bytes of code and taken `b` operands.** -/
def taken (m : Machine) (a b : ℕ) : Machine :=
  { m with
    pc := if m.pc.toNat + a ≤ 255 then UInt8.ofNat (m.pc.toNat + a) else 0
    sp := UInt8.ofNat (max m.sm.toNat (m.sp.toNat - b))
    flags := { m.flags with ended := decide (255 < m.pc.toNat + a) } }

theorem taken_zero (hend : m.flags.ended = false) (hmark : m.sm ≤ m.sp) : m.taken 0 0 = m := by
  have hpc := m.pc.toNat_lt
  have hlow : m.sm.toNat ≤ m.sp.toNat := UInt8.le_iff_toNat_le.mp hmark
  have hflags : ({ m.flags with ended := decide (255 < m.pc.toNat + 0) } : Flags) = m.flags := by
    rw [decide_eq_false (by omega), ← hend]
  rw [taken, hflags, if_pos (by omega), Nat.add_zero, Nat.sub_zero, Nat.max_eq_right hlow,
    UInt8.ofNat_toNat, UInt8.ofNat_toNat]

/-- **A fetch reads the next byte of code**, or zero past the end of the bank. -/
theorem fetch_taken (m : Machine) (a b : ℕ) :
    (m.taken a b).fetch = (m.codeByte a, m.taken (a + 1) b) := by
  rw [fetch, codeByte, taken, taken]
  rcases Nat.lt_trichotomy (m.pc.toNat + a) 255 with hlt | heq | hgt
  · have hto : (UInt8.ofNat (m.pc.toNat + a)).toNat = m.pc.toNat + a :=
      UInt8.toNat_ofNat_of_lt' (show m.pc.toNat + a < 256 by omega)
    have hlast : (UInt8.ofNat (m.pc.toNat + a) == 255) = false := by
      rw [beq_eq_false_iff_ne, ne_eq, ← UInt8.toNat_inj, hto]
      exact Nat.ne_of_lt hlt
    have hnext : UInt8.ofNat (m.pc.toNat + a) + 1 = UInt8.ofNat (m.pc.toNat + (a + 1)) :=
      (UInt8.ofNat_add _ 1).symm
    simp only [if_pos (Nat.le_of_lt hlt), if_pos (show m.pc.toNat + (a + 1) ≤ 255 by omega),
      decide_eq_false (show ¬255 < m.pc.toNat + a by omega),
      decide_eq_false (show ¬255 < m.pc.toNat + (a + 1) by omega), Bool.false_eq_true, if_false,
      hlast, hnext]
  · simp only [heq, ← Nat.add_assoc]
    rfl
  · simp only [if_neg (Nat.not_le.mpr hgt), if_neg (show ¬m.pc.toNat + (a + 1) ≤ 255 by omega),
      decide_eq_true hgt, decide_eq_true (show 255 < m.pc.toNat + (a + 1) by omega), if_true]

/-- An operand is a byte of the stack. -/
theorem operand_eq (hmark : m.sm ≤ m.sp) {k : ℕ} (hk : m.sm.toNat + k < m.sp.toNat) :
    m.operand k = m.stack.get (UInt8.ofNat (m.sp.toNat - 1 - k)) := by
  have hlow : m.sm.toNat ≤ m.sp.toNat := UInt8.le_iff_toNat_le.mp hmark
  have hlength : m.frame.length = m.sp.toNat - m.sm.toNat := by
    rw [frame, List.length_drop, length_live]
  have hindex : m.sm.toNat + (m.frame.length - 1 - k) = m.sp.toNat - 1 - k := by omega
  rw [operand, List.getD_eq_getElem?_getD, List.getElem?_reverse (by omega), frame,
    List.getElem?_drop, ← frame, hindex, getElem?_live, if_pos (by omega), Option.getD_some]

/-- Behind the frame's last operand there is nothing but zeros. -/
theorem operand_of_le {k : ℕ} (hk : m.sp.toNat ≤ m.sm.toNat + k) : m.operand k = 0 := by
  rw [operand, List.getD_eq_default]
  rw [List.length_reverse, frame, List.length_drop, length_live]
  omega

/-- **A pop takes the next operand**, or gives zero if there is none. -/
theorem pop_taken (hmark : m.sm ≤ m.sp) (a b : ℕ) :
    (m.taken a b).pop = (m.operand b, m.taken a (b + 1)) := by
  have hsp : m.sp.toNat < 256 := m.sp.toNat_lt
  have hsm : m.sm.toNat < 256 := m.sm.toNat_lt
  have hto (b : ℕ) : (UInt8.ofNat (max m.sm.toNat (m.sp.toNat - b))).toNat
      = max m.sm.toNat (m.sp.toNat - b) :=
    UInt8.toNat_ofNat_of_lt' (show max m.sm.toNat (m.sp.toNat - b) < 256 by omega)
  have hle : UInt8.ofNat (max m.sm.toNat (m.sp.toNat - b)) ≤ m.sm
      ↔ m.sp.toNat ≤ m.sm.toNat + b := by
    rw [UInt8.le_iff_toNat_le, hto]
    omega
  rw [pop, taken, taken]
  by_cases hempty : m.sp.toNat ≤ m.sm.toNat + b
  · have hsame : max m.sm.toNat (m.sp.toNat - (b + 1)) = m.sm.toNat := by omega
    rw [if_pos (hle.mpr hempty), operand_of_le hempty, hsame, UInt8.ofNat_toNat]
  · have hpred : UInt8.ofNat (max m.sm.toNat (m.sp.toNat - b)) - 1
        = UInt8.ofNat (max m.sm.toNat (m.sp.toNat - (b + 1))) := by
      have hone : (1 : UInt8) ≤ UInt8.ofNat (max m.sm.toNat (m.sp.toNat - b)) := by
        rw [UInt8.le_iff_toNat_le, hto]
        simp only [UInt8.reduceToNat]
        omega
      rw [← UInt8.toNat_inj, UInt8.toNat_sub_of_le _ _ hone, hto, hto]
      simp only [UInt8.reduceToNat]
      omega
    have hindex : max m.sm.toNat (m.sp.toNat - (b + 1)) = m.sp.toNat - 1 - b := by omega
    rw [if_neg (mt hle.mp hempty), operand_eq hmark (by omega)]
    simp only [hpred, hindex]

/-- **An argument slot gets the byte or the operand that the slots before it have left next.** -/
theorem resolve_taken (hmark : m.sm ≤ m.sp) (slots : List Bool) (a b : ℕ) :
    (m.taken a b).resolve slots =
      ((List.range slots.length).map fun i =>
          if slots.getD i false then m.codeByte (a + (slots.take i).count true)
          else m.operand (b + (slots.take i).count false),
        m.taken (a + slots.count true) (b + slots.count false)) := by
  induction slots generalizing a b with
  | nil => rfl
  | cons inline slots ih =>
    rw [resolve, List.length_cons, List.range_succ_eq_map, List.map_cons, List.map_map]
    cases inline with
    | true =>
      simp only [if_true, fetch_taken, ih]
      refine Prod.ext (congrArg (_ :: ·) (List.map_congr_left fun i _ => ?_)) ?_
      · simp [Nat.add_assoc, Nat.add_comm 1]
      · simp [Nat.add_assoc, Nat.add_comm 1]
    | false =>
      simp only [Bool.false_eq_true, if_false, pop_taken hmark, ih]
      refine Prod.ext (congrArg (_ :: ·) (List.map_congr_left fun i _ => ?_)) ?_
      · simp [Nat.add_assoc, Nat.add_comm 1]
      · simp [Nat.add_assoc, Nat.add_comm 1]

/-! ## Instructions -/

/-- **What slot `i` of a form gets** from a machine that stands before its opcode. -/
def argument (m : Machine) (f : Form) (i : ℕ) : UInt8 :=
  if f.variant.toNat.testBit i then m.codeByte (1 + bitCount true f.variant i)
  else m.operand (bitCount false f.variant i)

/-- The machine that has read a form and taken its operands. -/
def ready (m : Machine) (f : Form) : Machine :=
  m.taken (1 + popCount f.variant) (bitCount false f.variant f.instruction.arity)

/-- A running machine fetches the byte that it stands at. -/
theorem fetch_of_running (hend : m.flags.ended = false) (hmark : m.sm ≤ m.sp) :
    m.fetch = (m.memory.read m.pi m.pc, m.taken 1 0) := by
  have hpc : m.pc.toNat + 0 ≤ 255 := Nat.le_of_lt_succ m.pc.toNat_lt
  have hfetch := m.fetch_taken 0 0
  rw [taken_zero hend hmark, codeByte, if_pos hpc, Nat.add_zero, UInt8.ofNat_toNat] at hfetch
  exact hfetch

/-- **A decoded form's slots are filled from behind its opcode and from the top of the frame.** -/
theorem resolve_slots {s : InstructionSet} {opcode : UInt8} {f : Form} (hmark : m.sm ≤ m.sp)
    (hdecode : s.decode opcode = some f) :
    (m.taken 1 0).resolve f.slots =
      ((List.range f.instruction.arity).map (m.argument f), m.ready f) := by
  have hinline : f.slots.count true = popCount f.variant :=
    InstructionSet.literalCount_eq_popCount hdecode
  have hstacked : f.slots.count false = bitCount false f.variant f.instruction.arity := rfl
  rw [resolve_taken hmark, f.length_slots, hinline, hstacked, Nat.zero_add, ready]
  refine congrArg (·, _) (List.map_congr_left fun i hi => ?_)
  have hlt : i < f.instruction.arity := List.mem_range.mp hi
  have hbit : f.slots.getD i false = f.variant.toNat.testBit i := by
    rw [List.getD_eq_getElem _ _ (by rwa [f.length_slots])]
    simp [Form.slots]
  rw [argument, hbit, Form.count_take_slots (Nat.le_of_lt hlt),
    Form.count_take_slots (Nat.le_of_lt hlt), Nat.zero_add]

end Machine

/-- **The instruction that a running machine has at hand**, when the byte that it stands at decodes
to a form. -/
theorem Processor.pending?_of_decode {p : Processor} {m : Machine} {f : Form}
    (hend : m.flags.ended = false) (hsleep : m.sleep = 0) (hmark : m.sm ≤ m.sp)
    (hdecode : p.instructions.decode (m.memory.read m.pi m.pc) = some f) :
    p.pending? m = some ⟨f, (List.range f.instruction.arity).map (m.argument f), m.ready f⟩ := by
  have hfetch := Machine.fetch_of_running hend hmark
  refine pending?_eq_some_iff.mpr ⟨hend, hsleep, ?_, ?_⟩
  · rw [hfetch]
    exact hdecode
  · rw [hfetch]
    exact Machine.resolve_slots hmark hdecode

/-- **A step gives an instruction exactly the arguments of its slots.**  Let a machine, after any
dealings with it, be neither at its end nor asleep, and stand at an opcode that decodes to a form of
arity `n`.  Then the next step performs the form's operation on `n` arguments: for an inline slot
the byte behind the opcode after as many others as there are inline slots before it, or zero past
the end of the bank; for another slot the operand below as many others as there are such slots
before it, or zero below the frame.  It performs it on the machine that has read all those bytes and
dropped all those operands and is unchanged otherwise. -/
theorem step_gives_arguments (p : Processor) (h : Host σ) (s : σ) (as : List Access) {c : System σ}
    (hc : (p.accesses h as ⟨{}, s⟩).2 = c) {f : Form} (hend : c.machine.flags.ended = false)
    (hsleep : c.machine.sleep = 0)
    (hdecode : p.instructions.decode (c.machine.memory.read c.machine.pi c.machine.pc) = some f) :
    let arguments := (List.range f.instruction.arity).map (c.machine.argument f)
    let performed := (f.operation.action arguments).perform h
      (c.machine.ready f, p.charge h f.instruction.cost c.host)
    p.step h c =
      (.executed f.operation (c.machine.memory.read c.machine.pi c.machine.pc),
        ⟨performed.1.unwind, performed.2⟩) := by
  intro arguments performed
  have hnew : System.Represents ⟨{}, s⟩ ⟨{}, s⟩ := ⟨Machine.represents_new, rfl⟩
  have hmark : c.machine.sm ≤ c.machine.sp := by
    rw [← hc]
    exact (hnew.accesses p h as).2.machine.holds.mark_le
  have hfetch := Machine.fetch_of_running hend hmark
  rw [Processor.step_of_decoded (f := f) hend hsleep (by rw [hfetch]; exact hdecode),
    Processor.execute_eq, hfetch, Machine.resolve_slots hmark hdecode]

/-- A store at offset 254 with an inline slot, one off the empty frame and another inline one: the
first gets the last byte of the bank, and the others get zero. -/
theorem arguments_past_bank_and_frame :
    ∃ program c f,
      assemble .standard ".prg 0\nJUMP 254\n.org 254\n.dat 128\n.dat 9\n" = .ok program ∧
      ((⟨.standard, true⟩ : Processor).accesses .bare [.load program, .step] ⟨{}, 0⟩).2 = c ∧
      (c.machine.pc, c.machine.frame, f.slots) = (254, [], [true, false, true]) ∧
      ((⟨.standard, true⟩ : Processor).step .bare c).1 = .executed .rsto 128 ∧
      ((⟨.standard, true⟩ : Processor).step .bare c).2.machine
        = ((c.machine.ready f).remoteStore 9 0 0).unwind := by
  let p : Processor := ⟨.standard, true⟩
  let run (program : Program) : System UInt16 := (p.accesses .bare [.load program, .step] ⟨{}, 0⟩).2
  let opcode (program : Program) : UInt8 :=
    (run program).machine.memory.read (run program).machine.pi (run program).machine.pc
  have hrun : (assemble .standard ".prg 0\nJUMP 254\n.org 254\n.dat 128\n.dat 9\n").toOption.bind
      (fun program => (p.instructions.decode (opcode program)).map fun f =>
        (((run program).machine.flags.ended, (run program).machine.sleep, opcode program),
          ((run program).machine.pc, (run program).machine.frame, f.slots),
          f.operation, (List.range f.instruction.arity).map ((run program).machine.argument f)))
      = some ((false, 0, 128), (254, [], [true, false, true]), .rsto, [9, 0, 0]) := by
    decide +kernel
  obtain ⟨program, hassemble, hrun⟩ := Option.bind_eq_some_iff.mp hrun
  obtain ⟨f, hdecode, hrun⟩ := Option.map_eq_some_iff.mp hrun
  simp only [Prod.mk.injEq] at hrun
  obtain ⟨⟨hend, hsleep, hopcode⟩, hwhere, hoperation, harguments⟩ := hrun
  have hstep := step_gives_arguments p .bare 0 [.load program, .step] rfl hend hsleep hdecode
  rw [harguments, hoperation] at hstep
  refine ⟨program, run program, f, toOption_eq_some_iff.mp hassemble, rfl, ?_, ?_, ?_⟩
  · exact Prod.ext hwhere.1 (Prod.ext hwhere.2.1 hwhere.2.2)
  · exact (congrArg Prod.fst hstep).trans (congrArg (Step.executed .rsto) hopcode)
  · exact congrArg (fun r => r.2.machine) hstep

end Protocell
