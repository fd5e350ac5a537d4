import Mathlib.Data.List.Basic
import Protocell.Machine.Basic

/-!
# Proofs/Frames/Basic — a stack of frames, and how it lies in bytes

A stack of frames is a root frame and, for each open call, where the call goes on and the operands
of the frame it opened (`Frames`).  It lies in one row of bytes: the root operands, and for each
call three header bytes — return offset, return bank, where the caller's frame starts — before the
operands (`Frames.bytes`).

The bytes together with the start of the last frame determine the frames (`Frames.eq_of_bytes`): the
starts in the headers are a chain that leads down to the root.
-/

namespace Protocell

/-- **A non-empty stack of frames.**  Operands are listed bottom first. -/
inductive Frames
  /-- The root frame alone. -/
  | root (operands : List UInt8)
  /-- A frame on top of its caller's, which goes on at an offset of a bank. -/
  | called (caller : Frames) (pc pi : UInt8) (operands : List UInt8)
deriving DecidableEq, Repr

namespace Frames

/-- The operands of the last frame. -/
def operands : Frames → List UInt8
  | root vs => vs
  | called _ _ _ vs => vs

/-- The frames with other operands in the last one. -/
def withOperands : Frames → List UInt8 → Frames
  | root _, vs => root vs
  | called caller pc pi _, vs => called caller pc pi vs

/-- The number of calls that are open. -/
def depth : Frames → ℕ
  | root _ => 0
  | called caller _ _ _ => caller.depth + 1

/-- The number of bytes below the operands of the last frame. -/
def start : Frames → ℕ
  | root _ => 0
  | called caller _ _ _ => caller.start + caller.operands.length + 3

/-- The number of bytes. -/
def size (fs : Frames) : ℕ := fs.start + fs.operands.length

/-- The bytes below the operands of the last frame. -/
def lower : Frames → List UInt8
  | root _ => []
  | called caller pc pi _ =>
    caller.lower ++ caller.operands ++ [pc, pi, UInt8.ofNat caller.start]

/-- **The bytes of the frames**, bottom first. -/
def bytes (fs : Frames) : List UInt8 := fs.lower ++ fs.operands

/-- The frames with a byte on top of the last one. -/
def push (fs : Frames) (v : UInt8) : Frames := fs.withOperands (fs.operands ++ [v])

/-- The frames less the top operand of the last one; an empty frame stays. -/
def pop (fs : Frames) : Frames := fs.withOperands fs.operands.dropLast

/-- The operand so deep below the top of the last frame, or zero. -/
def peek (fs : Frames) (depth : ℕ) : UInt8 := fs.operands.reverse.getD depth 0

/-! ## The last frame's operands -/

@[simp] theorem operands_withOperands (fs : Frames) (vs : List UInt8) :
    (fs.withOperands vs).operands = vs := by cases fs <;> rfl

@[simp] theorem start_withOperands (fs : Frames) (vs : List UInt8) :
    (fs.withOperands vs).start = fs.start := by cases fs <;> rfl

@[simp] theorem lower_withOperands (fs : Frames) (vs : List UInt8) :
    (fs.withOperands vs).lower = fs.lower := by cases fs <;> rfl

@[simp] theorem depth_withOperands (fs : Frames) (vs : List UInt8) :
    (fs.withOperands vs).depth = fs.depth := by cases fs <;> rfl

@[simp] theorem withOperands_withOperands (fs : Frames) (vs ws : List UInt8) :
    (fs.withOperands vs).withOperands ws = fs.withOperands ws := by cases fs <;> rfl

@[simp] theorem withOperands_operands (fs : Frames) : fs.withOperands fs.operands = fs := by
  cases fs <;> rfl

@[simp] theorem operands_push (fs : Frames) (v : UInt8) :
    (fs.push v).operands = fs.operands ++ [v] := by simp [push]

@[simp] theorem operands_pop (fs : Frames) : fs.pop.operands = fs.operands.dropLast := by
  simp [pop]

@[simp] theorem start_push (fs : Frames) (v : UInt8) : (fs.push v).start = fs.start := by
  simp [push]

@[simp] theorem start_pop (fs : Frames) : fs.pop.start = fs.start := by simp [pop]

@[simp] theorem size_push (fs : Frames) (v : UInt8) : (fs.push v).size = fs.size + 1 := by
  simp [size, Nat.add_assoc]

@[simp] theorem size_called (caller : Frames) (pc pi : UInt8) (vs : List UInt8) :
    (called caller pc pi vs).size = caller.size + 3 + vs.length := rfl

/-! ## Bytes -/

theorem length_lower (fs : Frames) : fs.lower.length = fs.start := by
  induction fs with
  | root vs => rfl
  | called caller pc pi vs ih =>
    rw [lower, start, List.length_append, List.length_append, ih]
    rfl

theorem length_bytes (fs : Frames) : fs.bytes.length = fs.size := by
  rw [bytes, List.length_append, length_lower, size]

theorem bytes_called (caller : Frames) (pc pi : UInt8) (vs : List UInt8) :
    (called caller pc pi vs).bytes
      = caller.bytes ++ [pc, pi, UInt8.ofNat caller.start] ++ vs := rfl

/-- The header of the last call lies right above its caller's bytes. -/
theorem getD_bytes_called (caller : Frames) (pc pi : UInt8) (vs : List UInt8) {j : ℕ} (hj : j < 3) :
    (called caller pc pi vs).bytes.getD (caller.size + j) 0 =
      [pc, pi, UInt8.ofNat caller.start].getD j 0 := by
  rw [bytes_called, List.append_assoc, ← length_bytes, List.getD_eq_getElem?_getD,
    List.getElem?_append_right (Nat.le_add_right _ _), Nat.add_sub_cancel_left,
    List.getElem?_append_left hj, List.getD_eq_getElem?_getD]

theorem bytes_push (fs : Frames) (v : UInt8) : (fs.push v).bytes = fs.bytes ++ [v] := by
  rw [bytes, bytes, operands_push, push, lower_withOperands, List.append_assoc]

theorem bytes_pop (fs : Frames) : fs.pop.bytes = fs.bytes.take (max (fs.size - 1) fs.start) := by
  rw [bytes, operands_pop, pop, lower_withOperands, bytes, List.take_append, length_lower, size,
    List.take_of_length_le (by rw [length_lower]; omega), List.dropLast_eq_take]
  congr 2
  omega

/-- The operands are the bytes from the start of the last frame on. -/
theorem drop_bytes (fs : Frames) : fs.bytes.drop fs.start = fs.operands := by
  rw [bytes, ← length_lower, List.drop_left]

/-- Each open call takes three bytes at least. -/
theorem depth_le_start (fs : Frames) : 3 * fs.depth ≤ fs.start := by
  induction fs with
  | root vs => exact Nat.le_refl 0
  | called caller pc pi vs ih =>
    rw [depth, start]
    omega

theorem start_le_size (fs : Frames) : fs.start ≤ fs.size := Nat.le_add_right _ _

/-- The start of the last frame fits in a byte if the frames do. -/
theorem start_eq_of_ofNat_eq {fs gs : Frames} (hfs : fs.size < 256) (hgs : gs.size < 256)
    (h : UInt8.ofNat fs.start = UInt8.ofNat gs.start) : fs.start = gs.start := by
  have hle := fs.start_le_size
  have hle' := gs.start_le_size
  have hnat := congrArg UInt8.toNat h
  rw [UInt8.toNat_ofNat', UInt8.toNat_ofNat'] at hnat
  omega

/-- **The frames are determined by their bytes and the start of the last one.** -/
theorem eq_of_bytes {fs gs : Frames} (hb : fs.bytes = gs.bytes) (hs : fs.start = gs.start)
    (hsize : fs.size < 256) : fs = gs := by
  induction fs generalizing gs with
  | root vs =>
    cases gs with
    | root ws => exact congrArg root hb
    | called caller pc pi ws =>
      rw [start, start] at hs
      omega
  | called caller pc pi vs ih =>
    cases gs with
    | root ws =>
      rw [start, start] at hs
      omega
    | called caller' pc' pi' ws =>
      rw [size_called] at hsize
      rw [start, start] at hs
      have hlen : caller.bytes.length = caller'.bytes.length := by
        rw [length_bytes, length_bytes, size, size]
        omega
      rw [bytes_called, bytes_called, List.append_assoc, List.append_assoc] at hb
      obtain ⟨hcaller, hrest⟩ := List.append_inj hb hlen
      simp only [List.cons_append, List.nil_append, List.cons.injEq] at hrest
      obtain ⟨hpc, hpi, hmark, hops⟩ := hrest
      -- The third header byte is the caller's start.
      have hsizes : caller.size = caller'.size := by rw [← length_bytes, hlen, length_bytes]
      have hstart : caller.start = caller'.start :=
        start_eq_of_ofNat_eq (by omega) (by omega) hmark
      rw [ih hcaller hstart (by omega), hpc, hpi, hops]

end Frames

end Protocell
