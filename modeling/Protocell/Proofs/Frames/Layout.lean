import Protocell.Proofs.Frames.Basic
import Protocell.Proofs.Frames.Live

/-!
# Proofs/Frames/Layout — the byte stack holds frames

`Machine.Holds m fs` says that the live bytes of a machine are those of the frames `fs` and that its
mark is where the last of them starts.  Each stack operation of the machine is then an operation on
the frames: one lemma each for `push`, `pop`, `peek`, `call` and `ret`.

The one point where bytes decide is `ret`, which takes the new mark off the stack: what it finds is
the third header byte, hence the start of the caller's frame (`Holds.headerStart`).
-/

namespace Protocell.Machine

/-- **The stack of a machine is laid out as some frames are**, and its mark is the start of the last
of them. -/
structure Holds (m : Machine) (fs : Frames) : Prop where
  live_eq : m.live = fs.bytes
  mark_eq : m.sm.toNat = fs.start

/-- The machine with a call's header on its stack, before it goes to the bank called. -/
def framed (m : Machine) : Machine := ((m.push m.pc).push m.pi).push m.sm

theorem live_framed {m : Machine} (h : m.live.length ≤ 252) :
    m.framed.live = m.live ++ [m.pc, m.pi, m.sm] := by
  have h₁ := live_push m.pc (m := m) (by omega)
  have h₂ := live_push m.pi (m := m.push m.pc) (by rw [h₁]; simp; omega)
  have h₃ := live_push m.sm (m := (m.push m.pc).push m.pi) (by rw [h₂, h₁]; simp; omega)
  rw [framed, h₃, h₂, h₁, List.append_assoc, List.append_assoc]
  rfl

theorem exists_framed_eq {m : Machine} (h : m.live.length ≤ 252) :
    ∃ stack sp, m.framed = { m with stack, sp } := by
  have h₁ := live_push m.pc (m := m) (by omega)
  have h₂ := live_push m.pi (m := m.push m.pc) (by rw [h₁]; simp; omega)
  rw [framed, push_of_room m.sm (by rw [h₂, h₁]; simp; omega),
    push_of_room m.pi (by rw [h₁]; simp; omega), push_of_room m.pc (by omega)]
  exact ⟨_, _, rfl⟩

namespace Holds

variable {m : Machine} {fs caller : Frames} {pc pi : UInt8} {vs : List UInt8}

theorem sp_eq (h : m.Holds fs) : m.sp.toNat = fs.size := by
  rw [← length_live, h.live_eq, Frames.length_bytes]

theorem size_lt (h : m.Holds fs) : fs.size < 256 := h.sp_eq ▸ m.sp.toNat_lt

/-- **A machine holds one stack of frames only.** -/
theorem unique {gs : Frames} (hf : m.Holds fs) (hg : m.Holds gs) : fs = gs :=
  Frames.eq_of_bytes (hf.live_eq.symm.trans hg.live_eq) (hf.mark_eq.symm.trans hg.mark_eq)
    hf.size_lt

/-- Whether a machine holds frames is a matter of its stack and its mark alone. -/
theorem congr {m' : Machine} (h : m.Holds fs) (hlive : m'.live = m.live) (hmark : m'.sm = m.sm) :
    m'.Holds fs :=
  ⟨hlive.trans h.live_eq, hmark ▸ h.mark_eq⟩

theorem sp_le_iff (h : m.Holds fs) : m.sp ≤ m.sm ↔ fs.operands = [] := by
  rw [UInt8.le_iff_toNat_le, h.sp_eq, h.mark_eq, Frames.size, ← List.length_eq_zero_iff]
  omega

theorem mark_le (h : m.Holds fs) : m.sm ≤ m.sp := by
  rw [UInt8.le_iff_toNat_le, h.sp_eq, h.mark_eq, Frames.size]
  omega

/-- The number of operands in the last frame, as the machine computes it. -/
theorem toNat_sub_mark (h : m.Holds fs) : (m.sp - m.sm).toNat = fs.operands.length := by
  rw [UInt8.toNat_sub_of_le _ _ h.mark_le, h.sp_eq, h.mark_eq, Frames.size, Nat.add_sub_cancel_left]

theorem toNat_pred_sp (h : m.Holds fs) (hpos : 0 < fs.size) : (m.sp - 1).toNat = fs.size - 1 := by
  have hsp := h.sp_eq
  rw [UInt8.toNat_sub_of_le _ _ (by rw [UInt8.le_iff_toNat_le, hsp]; exact hpos), hsp]
  rfl

/-- Reading a byte of the stack is reading the layout. -/
theorem get_eq (h : m.Holds fs) {i : UInt8} (hi : i.toNat < fs.size) :
    m.stack.get i = fs.bytes.getD i.toNat 0 := by
  have hlt : i < m.sp := by rw [UInt8.lt_iff_toNat_lt, h.sp_eq]; exact hi
  rw [get_stack_eq hlt, h.live_eq]

/-! ## Operands -/

theorem push_of_full (h : m.Holds fs) (hfull : fs.size = 255) (v : UInt8) :
    m.push v = m.overflow :=
  Machine.push_of_full v (by rw [h.live_eq, Frames.length_bytes, hfull])

theorem length_live_lt (h : m.Holds fs) (hroom : fs.size ≠ 255) : m.live.length < 255 := by
  have := h.size_lt
  rw [h.live_eq, Frames.length_bytes]
  omega

theorem push_eq (h : m.Holds fs) (hroom : fs.size ≠ 255) (v : UInt8) :
    m.push v = { m with stack := m.stack.set m.sp v, sp := m.sp + 1 } :=
  push_of_room v (h.length_live_lt hroom)

/-- **A push appends to the last frame.** -/
theorem push (h : m.Holds fs) (hroom : fs.size ≠ 255) (v : UInt8) :
    (m.push v).Holds (fs.push v) where
  live_eq := by rw [live_push v (h.length_live_lt hroom), h.live_eq, Frames.bytes_push]
  mark_eq := by rw [h.push_eq hroom, Frames.start_push]; exact h.mark_eq

/-- **A peek looks into the last frame** and no deeper. -/
theorem peek (h : m.Holds fs) (d : UInt8) : m.peek d = fs.peek d.toNat := by
  have hlen : fs.size = fs.start + fs.operands.length := rfl
  rw [Machine.peek, Frames.peek]
  by_cases hd : m.sp - m.sm ≤ d
  · have hle : fs.operands.length ≤ d.toNat := by
      rw [← h.toNat_sub_mark]
      exact UInt8.le_iff_toNat_le.mp hd
    rw [if_pos hd, List.getD_eq_getElem?_getD,
      List.getElem?_eq_none (by rw [List.length_reverse]; exact hle), Option.getD_none]
  · have hlt : d.toNat < fs.operands.length := by
      rw [← h.toNat_sub_mark]
      exact Nat.lt_of_not_le fun hle => hd (UInt8.le_iff_toNat_le.mpr hle)
    have hone := h.toNat_pred_sp (by omega)
    have hidx : (m.sp - 1 - d).toNat = fs.size - 1 - d.toNat := by
      rw [UInt8.toNat_sub_of_le _ _ (by rw [UInt8.le_iff_toNat_le, hone]; omega), hone]
    rw [if_neg hd, h.get_eq (by omega), hidx, List.getD_eq_getElem?_getD,
      List.getD_eq_getElem?_getD, Frames.bytes,
      List.getElem?_append_right (by rw [Frames.length_lower]; omega), Frames.length_lower,
      List.getElem?_reverse hlt]
    congr 2
    omega

/-- **A pop takes the last operand of the last frame**, or gives zero. -/
theorem pop_fst (h : m.Holds fs) : m.pop.1 = fs.peek 0 := by
  have hpeek := h.peek 0
  rw [Machine.pop]
  by_cases hle : m.sp ≤ m.sm
  · rw [if_pos hle, Frames.peek, h.sp_le_iff.mp hle]
    rfl
  · have hzero : ¬ m.sp - m.sm ≤ 0 := by
      rw [UInt8.le_iff_toNat_le, h.toNat_sub_mark]
      intro hz
      exact hle (h.sp_le_iff.mpr (List.length_eq_zero_iff.mp (Nat.le_zero.mp hz)))
    rw [Machine.peek, if_neg hzero] at hpeek
    rw [if_neg hle]
    simpa using hpeek

/-- A pop moves the stack pointer down to the mark at most, and changes nothing else. -/
theorem pop_snd_eq (h : m.Holds fs) :
    m.pop.2 = { m with sp := UInt8.ofNat (max (fs.size - 1) fs.start) } := by
  have hmark := h.mark_eq
  have hsize : fs.size = fs.start + fs.operands.length := rfl
  rw [Machine.pop]
  by_cases hle : m.sp ≤ m.sm
  · have hops := List.length_eq_zero_iff.mpr (h.sp_le_iff.mp hle)
    rw [if_pos hle, show max (fs.size - 1) fs.start = m.sm.toNat by omega, UInt8.ofNat_toNat]
  · have hops : fs.operands.length ≠ 0 := fun h0 =>
      hle (h.sp_le_iff.mpr (List.length_eq_zero_iff.mp h0))
    have hone := h.toNat_pred_sp (by omega)
    rw [if_neg hle, show max (fs.size - 1) fs.start = (m.sp - 1).toNat by omega, UInt8.ofNat_toNat]

/-- **What a pop leaves is the last frame without its last operand.** -/
theorem pop_snd (h : m.Holds fs) : m.pop.2.Holds fs.pop := by
  have hsp := h.sp_eq
  have hlt := h.size_lt
  have hsize : fs.size = fs.start + fs.operands.length := rfl
  have hto : (UInt8.ofNat (max (fs.size - 1) fs.start)).toNat = max (fs.size - 1) fs.start := by
    rw [UInt8.toNat_ofNat', Nat.mod_eq_of_lt (by omega)]
  rw [h.pop_snd_eq]
  constructor
  · rw [live_lower (by rw [UInt8.le_iff_toNat_le, hto, hsp]; omega), hto, h.live_eq,
      Frames.bytes_pop]
  · rw [Frames.start_pop]
    exact h.mark_eq

/-! ## Calls and returns -/

/-- The guard of a call, which counts the bytes that are left. -/
theorem no_room_iff (h : m.Holds fs) : stackLimit - m.sp < headerSize ↔ 252 < fs.size := by
  have hlt := h.size_lt
  have hsp := h.sp_eq
  have hle : m.sp ≤ stackLimit := by
    rw [UInt8.le_iff_toNat_le, stackLimit, hsp]
    simp only [UInt8.reduceToNat]
    omega
  rw [UInt8.lt_iff_toNat_lt, UInt8.toNat_sub_of_le _ _ hle, hsp]
  simp only [stackLimit, headerSize, UInt8.reduceToNat]
  omega

theorem call_of_full (h : m.Holds fs) (hfull : 252 < fs.size) (bank : UInt8) :
    m.call bank = m.overflow := by
  rw [Machine.call, if_pos (h.no_room_iff.mpr hfull)]

theorem call_of_room (h : m.Holds fs) (hroom : fs.size ≤ 252) (bank : UInt8) :
    m.call bank = { m.framed with sm := m.framed.sp }.enter bank 0 := by
  rw [Machine.call, if_neg (fun hg => absurd (h.no_room_iff.mp hg) (Nat.not_lt.mpr hroom))]
  rfl

/-- The header of a call is its return offset, its return bank and the caller's start. -/
theorem live_framed (h : m.Holds fs) (hroom : fs.size ≤ 252) :
    m.framed.live = fs.bytes ++ [m.pc, m.pi, m.sm] := by
  rw [Machine.live_framed (by rw [h.live_eq, Frames.length_bytes]; exact hroom), h.live_eq]

/-- A call that is not refused changes the stack, its two pointers, and where the machine is. -/
theorem exists_call_eq (h : m.Holds fs) (hroom : fs.size ≤ 252) (bank : UInt8) :
    ∃ stack sp sm, m.call bank =
      { m with
        stack, sp, sm
        pi := bank
        pc := 0
        flags := { m.flags with ended := !m.memory.resident bank } } := by
  obtain ⟨stack, sp, heq⟩ :=
    exists_framed_eq (m := m) (by rw [h.live_eq, Frames.length_bytes]; exact hroom)
  refine ⟨stack, sp, sp, ?_⟩
  rw [h.call_of_room hroom, heq]
  rfl

/-- **A call opens an empty frame** whose header holds where it goes on. -/
theorem call (h : m.Holds fs) (hroom : fs.size ≤ 252) (bank : UInt8) :
    (m.call bank).Holds (.called fs m.pc m.pi []) := by
  have hlive := h.live_framed hroom
  have hmark : m.sm = UInt8.ofNat fs.start := by rw [← h.mark_eq, UInt8.ofNat_toNat]
  rw [h.call_of_room hroom]
  constructor
  · rw [Frames.bytes_called, List.append_nil, ← hmark]
    exact hlive
  · have hsp : m.framed.sp.toNat = fs.size + 3 := by
      rw [← length_live, hlive, List.length_append, Frames.length_bytes]
      rfl
    exact hsp

/-- Where the three header bytes below the mark of a called frame are. -/
theorem toNat_header (h : m.Holds (.called caller pc pi vs)) :
    (m.sm - 1).toNat = caller.size + 2 ∧ (m.sm - 1 - 1).toNat = caller.size + 1 ∧
      (m.sm - 1 - 1 - 1).toNat = caller.size := by
  have hmark : m.sm.toNat = caller.size + 3 := h.mark_eq
  have hpred (i : UInt8) (k : ℕ) (hi : i.toNat = k + 1) : (i - 1).toNat = k := by
    rw [UInt8.toNat_sub_of_le _ _ (by rw [UInt8.le_iff_toNat_le, hi]; simp), hi]
    rfl
  have h₁ := hpred _ _ hmark
  have h₂ := hpred _ _ h₁
  exact ⟨h₁, h₂, hpred _ _ h₂⟩

/-- What the header of a called frame says. -/
theorem header (h : m.Holds (.called caller pc pi vs)) :
    m.stack.get (m.sm - 1) = UInt8.ofNat caller.start ∧ m.stack.get (m.sm - 1 - 1) = pi ∧
      m.stack.get (m.sm - 1 - 1 - 1) = pc := by
  obtain ⟨h₁, h₂, h₃⟩ := h.toNat_header
  have hget (i : UInt8) (k : ℕ) (hi : i.toNat = caller.size + k) (hk : k < 3) :
      m.stack.get i = [pc, pi, UInt8.ofNat caller.start].getD k 0 := by
    rw [h.get_eq (by rw [Frames.size_called]; omega), hi, Frames.getD_bytes_called _ _ _ _ hk]
  exact ⟨hget _ 2 h₁ (by decide), hget _ 1 h₂ (by decide), hget _ 0 h₃ (by decide)⟩

/-- **What a return does to a called frame**: everything it needs is in the frame's header. -/
theorem ret_called_eq (h : m.Holds (.called caller pc pi vs)) :
    m.ret =
      { m with
        sp := UInt8.ofNat caller.size
        sm := UInt8.ofNat caller.start
        pi := pi
        pc := pc
        flags := { m.flags with ended := pc == 0 || !m.memory.resident pi } } := by
  obtain ⟨hstart, hpi, hpc⟩ := h.header
  obtain ⟨h₁, h₂, h₃⟩ := h.toNat_header
  have hmark : m.sm.toNat = caller.size + 3 := h.mark_eq
  have hne (i : UInt8) (k : ℕ) (hi : i.toNat = k + 1) : i ≠ 0 := by
    rintro rfl
    rw [UInt8.toNat_zero] at hi
    omega
  have hsp : m.sm - 1 - 1 - 1 = UInt8.ofNat caller.size := by rw [← h₃, UInt8.ofNat_toNat]
  rw [hsp] at hpc
  rw [Machine.ret, if_neg (hne _ _ hmark)]
  simp only [popHeader, if_neg (hne _ _ hmark), if_neg (hne _ _ h₁), if_neg (hne _ _ h₂), hstart,
    hpi, hsp, hpc, Machine.enter]
  by_cases hzero : pc = 0 <;> simp [hzero]

/-- **A return drops the last frame.** -/
theorem ret_called (h : m.Holds (.called caller pc pi vs)) : m.ret.Holds caller := by
  have hlt := h.size_lt
  have hsp := h.sp_eq
  have hle : caller.start ≤ caller.size := Nat.le_add_right _ _
  rw [Frames.size_called] at hlt hsp
  have hto : (UInt8.ofNat caller.size).toNat = caller.size := by
    rw [UInt8.toNat_ofNat', Nat.mod_eq_of_lt (by omega)]
  rw [h.ret_called_eq]
  constructor
  · have hlow : ({ m with sp := UInt8.ofNat caller.size } : Machine).live = caller.bytes := by
      rw [live_lower (by rw [UInt8.le_iff_toNat_le, hto, hsp]; omega), hto, h.live_eq,
        Frames.bytes_called, List.append_assoc, ← Frames.length_bytes, List.take_left]
    exact hlow
  · change (UInt8.ofNat caller.start).toNat = caller.start
    rw [UInt8.toNat_ofNat', Nat.mod_eq_of_lt (by omega)]

/-- **Leaving the root frame halts.** -/
theorem ret_root (h : m.Holds (.root vs)) :
    m.ret = { m with flags := { m.flags with ended := true, halted := true } } := by
  have hmark : m.sm = 0 := UInt8.toNat_inj.mp h.mark_eq
  rw [Machine.ret, if_pos hmark]

end Holds

end Protocell.Machine
