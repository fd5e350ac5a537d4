import Protocell.Proofs.Runs.Arguments
import Protocell.Proofs.Runs.Stores
import Protocell.Proofs.Runs.Unwinding
import Protocell.Proofs.Tiling

/-!
# Proofs/Runs/Following — a run goes by the listing of its bank

The listing of a bank and a run through it find their way differently: the one counts positions in a
list, the other moves an offset of one byte that wraps, and ends when it does.  They come by the
same opcodes nevertheless, for as long as the run executes nothing that goes elsewhere or idles and
stores nothing into the bank (`run_follows_listing`).  Where no line of the listing does that, the
run comes to the end of the bank (`Processor.keepsTo_of_listing`).

What carries the induction is the place of the machine (`Machine.place`): with `pos` bytes of the
bank read it is `Place.behind bank mark pos`, whichever lines these bytes are on.  Behind position
255 that place is an ended one, and the step unwinds.
-/

namespace Protocell

variable {σ : Type u}

/-- Whether an operation may go on elsewhere than behind its instruction, or idle there. -/
def Operation.redirects : Operation → Bool
  | .jump | .jpif | .call | .rtn | .slp => true
  | _ => false

/-! ## The bytes of a bank -/

/-- The 256 bytes of a bank; zeros if the bank is absent. -/
def Memory.bytes (m : Memory) (bank : UInt8) : List UInt8 := allBytes.map (m.read bank)

theorem Memory.length_bytes (m : Memory) (bank : UInt8) : (m.bytes bank).length = bankSize := by
  rw [bytes, List.length_map, allBytes, List.length_map, List.length_range, bankSize]

theorem Memory.bytes_ofProgram (program : Program) (bank : UInt8) :
    (Memory.ofProgram program).bytes bank
      = allBytes.map fun offset => (program.byteAt? bank offset).getD 0 :=
  List.map_congr_left fun offset _ => Memory.read_ofProgram program bank offset

theorem Memory.getElem?_bytes (m : Memory) (bank : UInt8) (k : ℕ) :
    (m.bytes bank)[k]? = if k ≤ 255 then some (m.read bank (UInt8.ofNat k)) else none := by
  rw [bytes, allBytes, List.map_map]
  split
  · rw [List.getElem?_map, List.getElem?_range (by omega)]
    rfl
  · rw [List.getElem?_eq_none]
    rw [List.length_map, List.length_range]
    omega

theorem Memory.getElem?_bytes_eq_some_iff {m : Memory} {bank b : UInt8} {k : ℕ} :
    (m.bytes bank)[k]? = some b ↔ k ≤ 255 ∧ m.read bank (UInt8.ofNat k) = b := by
  rw [getElem?_bytes, Option.ite_none_right_eq_some, Option.some.injEq]

/-! ## Inline arguments -/

/-- The arguments of the inline slots, in order. -/
def Processor.Pending.literals (q : Processor.Pending) : List UInt8 :=
  (q.form.slots.zip q.arguments).filterMap fun a => if a.1 then some a.2 else none

/-- What is taken at the set bits of a byte and depends on the number of set bits below them is
taken for each number in turn. -/
theorem filterMap_testBit (v : UInt8) (g : ℕ → α) (n : ℕ) :
    ((List.range n).filterMap fun i =>
      if v.toNat.testBit i then some (g (bitCount true v i)) else none)
      = (List.range (bitCount true v n)).map g := by
  induction n with
  | zero => rfl
  | succ n ih =>
    rw [List.range_succ, List.filterMap_append, ih, bitCount_succ]
    cases hbit : v.toNat.testBit n with
    | true => simp [hbit, List.range_succ]
    | false => simp [hbit]

/-- **The inline arguments of an instruction are the bytes behind its opcode.** -/
theorem Machine.literals_pending (m m' : Machine) (f : Form) :
    (⟨f, (List.range f.instruction.arity).map (m.argument f), m'⟩ : Processor.Pending).literals
      = (List.range f.literalCount).map fun i => m.codeByte (1 + i) := by
  have hcount : f.literalCount = bitCount true f.variant f.instruction.arity := rfl
  rw [Processor.Pending.literals, Form.slots, List.zip_map', List.filterMap_map, hcount,
    ← filterMap_testBit]
  refine List.filterMap_congr fun i _ => ?_
  rw [Function.comp_apply, argument]
  split <;> rfl

/-! ## Places -/

/-- **Where a machine is**: in which bank, at which offset, in which frame, and whether it will go
on. -/
structure Place where
  pi : UInt8
  pc : UInt8
  sm : UInt8
  sleep : UInt8
  ended : Bool
  halted : Bool
deriving DecidableEq

/-- The place of a machine. -/
def Machine.place (m : Machine) : Place :=
  ⟨m.pi, m.pc, m.sm, m.sleep, m.flags.ended, m.flags.halted⟩

/-- The place of a machine that keeps its frames apart: the mark is the start of the last frame. -/
def FrameMachine.place (m : FrameMachine) : Place :=
  ⟨m.pi, m.pc, UInt8.ofNat m.frames.start, m.sleep, m.flags.ended, m.flags.halted⟩

/-- The place behind the first `pos` bytes of a bank, in a frame that starts at `mark`. -/
def Place.behind (bank mark : UInt8) (pos : ℕ) : Place :=
  ⟨bank, if pos ≤ 255 then UInt8.ofNat pos else 0, mark, 0, decide (255 < pos), false⟩

variable {m : Machine} {bank mark : UInt8} {pos : ℕ}

theorem Machine.Represents.place_eq {g : FrameMachine} (h : m.Represents g) :
    m.place = g.place := by
  have hmark : m.sm = UInt8.ofNat g.frames.start := by
    rw [← h.holds.mark_eq, UInt8.ofNat_toNat]
  rw [Machine.place, FrameMachine.place, h.pi_eq, h.pc_eq, h.flags_eq, h.sleep_eq, hmark]

namespace Machine

/-- Up to the last byte, the offset of a place is the number of bytes before it. -/
theorem toNat_pc_of_place (hplace : m.place = .behind bank mark pos) (hpos : pos ≤ 255) :
    m.pc.toNat = pos := by
  have hpc : m.pc = if pos ≤ 255 then UInt8.ofNat pos else 0 := congrArg Place.pc hplace
  rw [hpc, if_pos hpos]
  exact UInt8.toNat_ofNat_of_lt' (Nat.lt_succ_of_le hpos)

theorem ended_of_place (hplace : m.place = .behind bank mark pos) (hpos : pos ≤ 255) :
    m.flags.ended = false :=
  (congrArg Place.ended hplace).trans (decide_eq_false (Nat.not_lt.mpr hpos))

/-- A machine behind some bytes of a bank stands at the next one. -/
theorem read_of_place (hplace : m.place = .behind bank mark pos) {opcode : UInt8}
    (hbyte : (m.memory.bytes bank)[pos]? = some opcode) : m.memory.read m.pi m.pc = opcode := by
  obtain ⟨hpos, hread⟩ := Memory.getElem?_bytes_eq_some_iff.mp hbyte
  have hpi : m.pi = bank := congrArg Place.pi hplace
  rwa [hpi, ← UInt8.ofNat_toNat (x := m.pc), toNat_pc_of_place hplace hpos]

/-- The code behind its opcode is what the listing shows behind the opcode. -/
theorem codeByte_of_place (hplace : m.place = .behind bank mark pos) (hpos : pos ≤ 255) (i : ℕ) :
    m.codeByte (1 + i) = ((m.memory.bytes bank).drop (pos + 1)).getD i 0 := by
  have hpi : m.pi = bank := congrArg Place.pi hplace
  rw [codeByte, toNat_pc_of_place hplace hpos, hpi, ← Nat.add_assoc, List.getD_eq_getElem?_getD,
    List.getElem?_drop, Memory.getElem?_bytes]
  split <;> rfl

/-- **Reading `a` bytes moves a machine behind them**, however many operands it takes with them. -/
theorem place_taken (hplace : m.place = .behind bank mark pos) (hpos : pos ≤ 255) (a b : ℕ) :
    (m.taken a b).place = .behind bank mark (pos + a) := by
  have hat := toNat_pc_of_place hplace hpos
  simp only [place, Place.behind, Place.mk.injEq] at hplace
  obtain ⟨hpi, -, hsm, hsleep, -, hhalted⟩ := hplace
  simp only [place, taken, Place.behind, hpi, hsm, hsleep, hhalted, hat]

end Machine

/-- **A change that does not redirect leaves a machine where it is.** -/
theorem FrameMachine.Change.place_eq {o : Operation} {g g' : FrameMachine} (h : Change o g g')
    (ho : o.redirects = false) : g'.place = g.place := by
  cases h with
  | operands vs overflowed => rw [place, place, Frames.start_withOperands]
  | store bank offset v => rfl
  | doze n hslp => subst hslp; cases ho
  | jump offset hjump => rcases hjump with rfl | rfl <;> cases ho
  | call bank hcall => subst hcall; cases ho
  | leave hrtn => subst hrtn; cases ho

theorem Machine.Represents.place_perform {g : FrameMachine} (hm : m.Represents g) (h : Host σ)
    {o : Operation} (ho : o.redirects = false) (arguments : List UInt8) (s : σ) :
    ((o.action arguments).perform h (m, s)).1.place = m.place := by
  rw [(hm.perform h _ s).1.place_eq, hm.place_eq]
  exact (FrameMachine.perform_change h o arguments g s).place_eq ho

/-! ## Steps -/

namespace Processor

variable {p : Processor} {h : Host σ} {d : System σ} {y : FrameSystem σ}

/-- **A step keeps to a bank**: it executes no operation that redirects and stores nothing there. -/
structure KeepsTo (p : Processor) (h : Host σ) (bank : UInt8) (d : System σ) : Prop where
  straight : ∀ o b, (p.step h d).1 = .executed o b → o.redirects = false
  store : ∀ w, p.store? d.machine = some w → w.bank ≠ bank

/-- **A step goes by a line** of the listing of a bank: it reads the line's opcode at the line's
offset, and executes the line's form on the line's literals if it has one. -/
structure GoesBy (p : Processor) (h : Host σ) (bank : UInt8) (line : ListingLine) (d : System σ) :
    Prop where
  running : d.machine.flags.ended = false
  awake : d.machine.sleep = 0
  bank_eq : d.machine.pi = bank
  offset_eq : d.machine.pc = line.offset
  opcode_eq : d.machine.memory.read bank line.offset = line.opcode
  unassigned_iff : (p.step h d).1 = .unassigned line.opcode ↔ line.form = none
  executed : ∀ f, line.form = some f → (p.step h d).1 = .executed f.operation line.opcode ∧
    ∃ q s, p.pending? d.machine = some q ∧ q.form = f ∧ q.literals = line.literals ∧
      (p.acted h d).machine = ((f.operation.action q.arguments).perform h (q.machine, s)).1

/-- **A step leaves the frame** that starts at `mark` and is in a bank: its work done, it is still
there, but then its loop makes returns.  In the root frame it halts. -/
structure LeavesFrame (p : Processor) (h : Host σ) (bank mark : UInt8) (d : System σ) : Prop where
  bank_eq : (p.acted h d).machine.pi = bank
  mark_eq : (p.acted h d).machine.sm = mark
  returns : ∃ n, 0 < n ∧ (p.acted h d).machine.UnwindsIn n ∧
    (p.step h d).2.machine = Machine.ret^[n] (p.acted h d).machine
  halted : mark = 0 → (p.step h d).2.machine.flags.halted = true
  left : mark ≠ 0 → (p.step h d).2.machine.sm < mark

/-- A step that stores nothing at all and does not redirect keeps to every bank. -/
theorem keepsTo_of_step
    (hexecuted : ∀ o b, (p.step h d).1 = .executed o b →
      o.redirects = false ∧ o ≠ .lsto ∧ o ≠ .rsto) (bank : UInt8) : p.KeepsTo h bank d where
  straight o b hstep := (hexecuted o b hstep).1
  store w hw := by
    obtain ⟨b, hb | hb⟩ := (store?_isSome_iff h).mp (Option.isSome_of_mem hw)
    · exact absurd rfl (hexecuted _ _ hb).2.1
    · exact absurd rfl (hexecuted _ _ hb).2.2

/-- A step that keeps to a bank leaves the bytes of the bank alone. -/
theorem KeepsTo.bytes_step (hkeeps : p.KeepsTo h bank d) :
    (p.step h d).2.machine.memory.bytes bank = d.machine.memory.bytes bank := by
  refine List.map_congr_left fun offset _ => ?_
  rw [memory_step]
  cases hw : p.store? d.machine with
  | none => rfl
  | some w =>
    change (d.machine.memory.write w.bank w.offset w.value).read bank offset = _
    rw [Memory.read_write, if_neg fun hplace => hkeeps.store w hw hplace.1]

/-- What a decoded form does before any frame is left. -/
theorem acted_of_decode {f : Form} (hend : d.machine.flags.ended = false)
    (hmark : d.machine.sm ≤ d.machine.sp)
    (hdecode : p.instructions.decode (d.machine.memory.read d.machine.pi d.machine.pc) = some f) :
    (p.acted h d).machine =
      ((f.operation.action ((List.range f.instruction.arity).map (d.machine.argument f))).perform h
        (d.machine.ready f, p.charge h f.instruction.cost d.host)).1 := by
  rw [acted, Machine.fetch_of_running hend hmark]
  simp only [hdecode, execute_eq, Machine.resolve_slots hmark hdecode]

/-- **A machine behind some bytes of a bank goes by the line of the next one.** -/
theorem goesBy_of_place (hd : d.Represents y) (hplace : d.machine.place = .behind bank mark pos)
    {opcode : UInt8} (hbyte : (d.machine.memory.bytes bank)[pos]? = some opcode) :
    p.GoesBy h bank (.ofOpcode p.instructions pos opcode
      ((d.machine.memory.bytes bank).drop (pos + 1))) d := by
  obtain ⟨hpos, hbank⟩ := Memory.getElem?_bytes_eq_some_iff.mp hbyte
  have hread := Machine.read_of_place hplace hbyte
  have hend := Machine.ended_of_place hplace hpos
  have hsleep : d.machine.sleep = 0 := congrArg Place.sleep hplace
  have hmark := hd.machine.holds.mark_le
  have hfetch : d.machine.fetch.1 = opcode := by
    rw [Machine.fetch_of_running hend hmark, hread]
  have hexecuted (f : Form) (hdecode : p.instructions.decode opcode = some f) :
      (p.step h d).1 = .executed f.operation opcode := by
    rw [step_of_decoded hend hsleep (hfetch ▸ hdecode), hfetch]
  refine
    { running := hend
      awake := hsleep
      bank_eq := congrArg Place.pi hplace
      offset_eq := ?_
      opcode_eq := hbank
      unassigned_iff := ?_
      executed := fun f hdecode => ⟨hexecuted f hdecode, _, _,
        pending?_of_decode hend hsleep hmark (hread ▸ hdecode), rfl, ?_,
        acted_of_decode hend hmark (hread ▸ hdecode)⟩ }
  · rw [← UInt8.ofNat_toNat (x := d.machine.pc), Machine.toNat_pc_of_place hplace hpos]
    rfl
  · rcases hdecode : p.instructions.decode opcode with - | f
    · rw [step_of_unassigned hend hsleep (hfetch ▸ hdecode), hfetch]
      exact iff_of_true rfl hdecode
    · rw [hexecuted f hdecode]
      exact iff_of_false Step.noConfusion fun hnone => nomatch hdecode.symm.trans hnone
  · have hcount : (p.instructions.decode opcode).elim 0 Form.literalCount = f.literalCount :=
      congrArg (Option.elim · 0 Form.literalCount) hdecode
    rw [Machine.literals_pending, ListingLine.ofOpcode, hcount]
    exact List.map_congr_left fun i _ => Machine.codeByte_of_place hplace hpos i

/-- **A step that does not redirect moves behind its line.** -/
theorem place_acted (hd : d.Represents y) (hplace : d.machine.place = .behind bank mark pos)
    {opcode : UInt8} (hbyte : (d.machine.memory.bytes bank)[pos]? = some opcode)
    (hstraight : ∀ o b, (p.step h d).1 = .executed o b → o.redirects = false) :
    (p.acted h d).machine.place = .behind bank mark (pos + lineWidth p.instructions opcode) := by
  obtain ⟨hpos, -⟩ := Memory.getElem?_bytes_eq_some_iff.mp hbyte
  have hread := Machine.read_of_place hplace hbyte
  have hend := Machine.ended_of_place hplace hpos
  have hmark := hd.machine.holds.mark_le
  have hfetch := Machine.fetch_of_running hend hmark
  rw [hread] at hfetch
  rcases hdecode : p.instructions.decode opcode with - | f
  · rw [acted, hfetch, lineWidth, hdecode]
    exact Machine.place_taken hplace hpos 1 0
  · have hready := (hd.machine.fetch_snd.resolve f.slots).2
    rw [hfetch, Machine.resolve_slots hmark hdecode] at hready
    have hexecuted := ((goesBy_of_place (p := p) (h := h) hd hplace hbyte).executed f hdecode).1
    have hwidth : lineWidth p.instructions opcode = 1 + popCount f.variant := by
      rw [lineWidth, hdecode, ← InstructionSet.literalCount_eq_popCount hdecode]
      rfl
    rw [acted_of_decode hend hmark (hread ▸ hdecode),
      hready.place_perform h (hstraight _ _ hexecuted), hwidth]
    exact Machine.place_taken hplace hpos _ _

/-- If the bank goes on there, the step ends there. -/
theorem place_step (hend : d.machine.flags.ended = false) (hsleep : d.machine.sleep = 0)
    (hacted : (p.acted h d).machine.place = .behind bank mark pos) (hpos : pos ≤ 255) :
    (p.step h d).2.machine.place = .behind bank mark pos := by
  have hrunning : (p.acted h d).machine.flags.ended = false :=
    (congrArg Place.ended hacted).trans (decide_eq_false (Nat.not_lt.mpr hpos))
  rw [machine_step_eq_unwind hend hsleep, Machine.unwind_of_running hrunning, hacted]

/-- **A step that has come behind the last byte leaves its frame.** -/
theorem leavesFrame_of_place (hd : d.Represents y) (hend : d.machine.flags.ended = false)
    (hsleep : d.machine.sleep = 0) (hacted : (p.acted h d).machine.place = .behind bank mark pos)
    (hpos : 255 < pos) : p.LeavesFrame h bank mark d := by
  have hended : (p.acted h d).machine.flags.ended = true :=
    (congrArg Place.ended hacted).trans (decide_eq_true hpos)
  have hmark : (p.acted h d).machine.sm = mark := congrArg Place.sm hacted
  have hholds := (hd.acted p h).holds
  obtain ⟨n, -, hloop, hunwind⟩ := hholds.exists_unwind_eq
  have hn : 0 < n := by
    refine Nat.pos_of_ne_zero ?_
    rintro rfl
    exact hloop.stops ⟨hended, congrArg Place.halted hacted⟩
  have hstep := (machine_step_eq_unwind (p := p) (h := h) hend hsleep).trans hunwind
  have hleft := hholds.left_of_unwindsIn hloop hn
  rw [hmark, ← hstep] at hleft
  exact ⟨congrArg Place.pi hacted, hmark, ⟨n, hn, hloop, hstep⟩, hleft.1, hleft.2⟩

/-! ## Runs -/

/-- **Some lines later** a machine that has kept to its bank is behind these lines, and the bank is
as it was. -/
theorem place_after {c : System σ} (hc : c.Represents y)
    (hplace : c.machine.place = .behind bank mark 0) {earlier later : List ListingLine}
    {line : ListingLine}
    (hlines : listing p.instructions (c.machine.memory.bytes bank) = earlier ++ line :: later)
    (hkeeps : ∀ j < earlier.length, p.KeepsTo h bank (p.after h j c)) :
    (p.after h earlier.length c).machine.place = .behind bank mark (totalWidth earlier) ∧
      (p.after h earlier.length c).machine.memory.bytes bank = c.machine.memory.bytes bank := by
  induction earlier using List.reverseRecOn generalizing line later with
  | nil => exact ⟨hplace, rfl⟩
  | append_singleton earlier last ih =>
    rw [List.length_append, List.length_singleton] at hkeeps ⊢
    -- The last of the lines begins where the others end, and the line behind it at another byte.
    obtain ⟨next, hnext, -, -⟩ := exists_opcode_of_listing hlines
    rw [List.append_assoc, List.singleton_append] at hlines
    obtain ⟨hbefore, hsame⟩ := ih hlines fun j hj => hkeeps j (Nat.lt_succ_of_lt hj)
    obtain ⟨opcode, hbyte, rfl, -⟩ := exists_opcode_of_listing hlines
    rw [totalWidth_append, totalWidth_cons, length_bytes_ofOpcode] at hnext ⊢
    change (c.machine.memory.bytes bank)[totalWidth earlier + lineWidth p.instructions opcode]?
      = some next at hnext
    have hkept := hkeeps earlier.length (Nat.lt_succ_self _)
    have hreached := hc.after p h earlier.length
    rw [← hsame] at hbyte
    have hgoes := goesBy_of_place (p := p) (h := h) hreached hbefore hbyte
    have hacted := place_acted hreached hbefore hbyte hkept.straight
    have hinner := (List.getElem?_eq_some_iff.mp hnext).1
    rw [Memory.length_bytes] at hinner
    rw [after_succ', hkept.bytes_step, hsame]
    exact ⟨place_step hgoes.running hgoes.awake hacted (Nat.le_of_lt_succ hinner), rfl⟩

/-- **A machine that has kept to a bank from its start goes by the next line**, in the frame that it
was in.  The bank and the frame end with the last line and with no other. -/
theorem goesBy_behind {c : System σ} (hc : c.Represents y)
    (hplace : c.machine.place = .behind bank mark 0) {earlier later : List ListingLine}
    {line : ListingLine}
    (hlines : listing p.instructions (c.machine.memory.bytes bank) = earlier ++ line :: later)
    (hkeeps : ∀ j < earlier.length, p.KeepsTo h bank (p.after h j c)) :
    p.GoesBy h bank line (p.after h earlier.length c) ∧
      (p.after h earlier.length c).machine.sm = mark ∧
      (p.KeepsTo h bank (p.after h earlier.length c) →
        ((p.acted h (p.after h earlier.length c)).machine.flags.ended = true ↔ later = []) ∧
        (later = [] → p.LeavesFrame h bank mark (p.after h earlier.length c))) := by
  obtain ⟨hbefore, hsame⟩ := p.place_after hc hplace hlines hkeeps
  have hlast := eq_nil_iff_of_listing hlines
  obtain ⟨opcode, hbyte, hline, -⟩ := exists_opcode_of_listing hlines
  rw [← hsame] at hbyte hline
  have hthen := hc.after p h earlier.length
  have hgoes := goesBy_of_place (p := p) (h := h) hthen hbefore hbyte
  refine ⟨hline ▸ hgoes, congrArg Place.sm hbefore, fun hkept => ?_⟩
  have hacted := place_acted hthen hbefore hbyte hkept.straight
  have hended : (p.acted h (p.after h earlier.length c)).machine.flags.ended
      = decide (255 < totalWidth earlier + lineWidth p.instructions opcode) :=
    congrArg Place.ended hacted
  rw [Memory.length_bytes, hline, length_bytes_ofOpcode] at hlast
  refine ⟨?_, fun hnil => ?_⟩
  · rw [hended, decide_eq_true_iff, hlast]
    rfl
  · exact leavesFrame_of_place hthen hgoes.running hgoes.awake hacted (hlast.mp hnil)

/-- The same with lines by number. -/
theorem goesBy_after {c : System σ} (hc : c.Represents y)
    (hplace : c.machine.place = .behind bank mark 0) {k : ℕ} {line : ListingLine}
    (hline : (listing p.instructions (c.machine.memory.bytes bank))[k]? = some line)
    (hkeeps : ∀ j < k, p.KeepsTo h bank (p.after h j c)) :
    p.GoesBy h bank line (p.after h k c) ∧ (p.after h k c).machine.sm = mark ∧
      (p.KeepsTo h bank (p.after h k c) →
        ((p.acted h (p.after h k c)).machine.flags.ended = true ↔
          k + 1 = (listing p.instructions (c.machine.memory.bytes bank)).length) ∧
        (k + 1 = (listing p.instructions (c.machine.memory.bytes bank)).length →
          p.LeavesFrame h bank mark (p.after h k c))) := by
  generalize hlines : listing p.instructions (c.machine.memory.bytes bank) = lines at hline ⊢
  obtain ⟨hk, hget⟩ := List.getElem?_eq_some_iff.mp hline
  have hsplit : lines = lines.take k ++ line :: lines.drop (k + 1) := by
    rw [← hget, ← List.drop_eq_getElem_cons hk, List.take_append_drop]
  have hlength : (lines.take k).length = k := List.length_take_of_le (Nat.le_of_lt hk)
  have hnil : lines.drop (k + 1) = [] ↔ k + 1 = lines.length := by
    rw [List.drop_eq_nil_iff]
    omega
  have hgoes := goesBy_behind hc hplace (hlines.trans hsplit) (hlength.symm ▸ hkeeps)
  rwa [hlength, hnil] at hgoes

/-- **A bank whose lines neither redirect nor store is run through to its end.** -/
theorem keepsTo_of_listing {c : System σ} (hc : c.Represents y)
    (hplace : c.machine.place = .behind bank mark 0)
    (hlines : ∀ line ∈ listing p.instructions (c.machine.memory.bytes bank),
      ∀ f, line.form = some f →
        f.operation.redirects = false ∧ f.operation ≠ .lsto ∧ f.operation ≠ .rsto)
    {k : ℕ} (hk : k < (listing p.instructions (c.machine.memory.bytes bank)).length) :
    p.KeepsTo h bank (p.after h k c) := by
  induction k using Nat.strongRecOn with
  | ind k ih =>
    have hline := List.getElem?_eq_getElem hk
    obtain ⟨hgoes, -, -⟩ := goesBy_after (p := p) (h := h) hc hplace hline
      fun j hj => ih j hj (Nat.lt_trans hj hk)
    refine keepsTo_of_step (fun o b hstep => ?_) bank
    rcases hform : (listing p.instructions (c.machine.memory.bytes bank))[k].form with - | f
    · rw [hgoes.unassigned_iff.mpr hform] at hstep
      cases hstep
    · rw [(hgoes.executed f hform).1] at hstep
      cases hstep
      exact hlines _ (List.getElem_mem hk) f hform

end Processor

/-- Where a run is when a bank was entered. -/
theorem System.Represents.place_of_entered {c : System σ} {y : FrameSystem σ} (hc : c.Represents y)
    (hy : y.machine.Settled) (hend : c.machine.flags.ended = false) (hsleep : c.machine.sleep = 0)
    (hpc : c.machine.pc = 0) : c.machine.place = .behind c.machine.pi c.machine.sm 0 := by
  have hhalted : c.machine.flags.halted = false := by
    rw [← (hc.machine.settled hy).ended_eq, hend]
  rw [Machine.place, hpc, hsleep, hend, hhalted]
  rfl

/-- **A run goes by the listing of its bank.**  Let a run from a load be at the start of a bank,
running and awake, and list the bank as it is then.  As long as its steps keep to the bank, the next
step goes by the next line in the same frame; and just the step for the last line runs off the bank,
and leaves the frame. -/
theorem run_follows_listing (p : Processor) (h : Host σ) (program : Program) (s : σ) (n : ℕ)
    {c : System σ} (hc : p.after h n ⟨.load program, s⟩ = c) (hend : c.machine.flags.ended = false)
    (hsleep : c.machine.sleep = 0) (hpc : c.machine.pc = 0) :
    let bank := c.machine.pi
    let lines := listing p.instructions (c.machine.memory.bytes bank)
    ∀ k line, lines[k]? = some line → (∀ j < k, p.KeepsTo h bank (p.after h j c)) →
      let d := p.after h k c
      p.GoesBy h bank line d ∧ d.machine.sm = c.machine.sm ∧
        (p.KeepsTo h bank d →
          ((p.acted h d).machine.flags.ended = true ↔ k + 1 = lines.length) ∧
            (k + 1 = lines.length → p.LeavesFrame h bank c.machine.sm d)) := by
  intro bank lines k line hline hkeeps d
  have hreached : c.Represents (p.frameAfter h n ⟨.load program, s⟩) :=
    hc ▸ System.represents_run p h program s n
  have hplace := hreached.place_of_entered ((FrameMachine.settled_load program).after p h n) hend
    hsleep hpc
  exact Processor.goesBy_after hreached hplace hline hkeeps

/-- A called bank with a push in its last byte: the listing shows a literal there that is missing,
and the step that executes the push returns. -/
theorem listing_followed_to_last_byte :
    ∃ program c line,
      assemble .standard ".prg 0\nCALL 1\n.prg 1\n.org 255\n.dat 8\n" = .ok program ∧
      (⟨.standard, true⟩ : Processor).after .bare 1 ⟨.load program, 0⟩ = c ∧
      (listing .standard (c.machine.memory.bytes 1))[255]? = some line ∧ line.text = "PUSH $00" ∧
      (⟨.standard, true⟩ : Processor).GoesBy .bare 1 line
        ((⟨.standard, true⟩ : Processor).after .bare 255 c) ∧
      (⟨.standard, true⟩ : Processor).LeavesFrame .bare 1 3
        ((⟨.standard, true⟩ : Processor).after .bare 255 c) := by
  let p : Processor := ⟨.standard, true⟩
  let frames (program : Program) : FrameSystem UInt16 := p.frameAfter .bare 1 ⟨.load program, 0⟩
  let lines (program : Program) : List ListingLine :=
    listing .standard (allBytes.map fun offset => (program.byteAt? 1 offset).getD 0)
  have hrun : (assemble .standard ".prg 0\nCALL 1\n.prg 1\n.org 255\n.dat 8\n").toOption.bind
      (fun program => (lines program)[255]?.map fun line =>
        ((frames program).machine.place, p.frameResults .bare 1 ⟨.load program, 0⟩,
          (lines program).length, line.text,
          (lines program).all fun line => line.form.elim true fun f =>
            f.operation = .nop ∨ f.operation = .push))
      = some (.behind 1 3 0, [.executed .call 16], 256, "PUSH $00", true) := by decide +kernel
  obtain ⟨program, hassemble, hrun⟩ := Option.bind_eq_some_iff.mp hrun
  obtain ⟨line, hline, hrun⟩ := Option.map_eq_some_iff.mp hrun
  simp only [Prod.mk.injEq] at hrun
  obtain ⟨hplace, hresults, hlength, htext, hall⟩ := hrun
  obtain ⟨c, hc⟩ : ∃ c, p.after .bare 1 ⟨.load program, 0⟩ = c := ⟨_, rfl⟩
  have hreached : c.Represents (frames program) :=
    hc ▸ System.represents_run p .bare program 0 1
  rw [← hreached.machine.place_eq] at hplace
  -- The call stores nothing, so the bank is as it was loaded.
  have hlines : listing p.instructions (c.machine.memory.bytes 1) = lines program := by
    have hmemory : (frames program).machine.memory = .ofProgram program := by
      refine p.memory_of_run .bare program 0 (Nat.le_refl 1) fun o b hmem => ?_
      rw [(System.represents_load program 0).results_eq, hresults] at hmem
      cases List.mem_singleton.mp hmem
      decide
    rw [hreached.machine.memory_eq, hmemory, Memory.bytes_ofProgram]
  have hkeeps (j : ℕ) (hj : j < 256) : p.KeepsTo .bare 1 (p.after .bare j c) := by
    refine Processor.keepsTo_of_listing hreached hplace ?_ (by rwa [hlines, hlength])
    rw [hlines]
    intro line hmem f hform
    have hoperation := List.all_eq_true.mp hall line hmem
    rw [hform, Option.elim_some, decide_eq_true_iff] at hoperation
    rcases hoperation with hnop | hpush
    · rw [hnop]
      decide
    · rw [hpush]
      decide
  have hbank : c.machine.pi = 1 := congrArg Place.pi hplace
  have hfollows := run_follows_listing p .bare program 0 1 hc (congrArg Place.ended hplace)
    (congrArg Place.sleep hplace) (congrArg Place.pc hplace) 255 line
  rw [hbank, hlines] at hfollows
  obtain ⟨hgoes, -, hlast⟩ := hfollows hline fun j hj => hkeeps j (Nat.lt_succ_of_lt hj)
  have hmark : c.machine.sm = 3 := congrArg Place.sm hplace
  rw [hmark] at hlast
  exact ⟨program, c, line, toOption_eq_some_iff.mp hassemble, hc, hlines ▸ hline, htext, hgoes,
    (hlast (hkeeps 255 (by decide))).2 hlength.symm⟩

end Protocell
