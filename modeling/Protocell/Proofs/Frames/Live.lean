import Mathlib.Data.List.Basic
import Protocell.Machine.Basic

/-!
# Proofs/Frames/Live — the live stack as a list

`Machine.live` lists the `sp` bytes on the stack.  Reading the stack below `sp` is reading that list
(`get_stack_eq`), a push appends to it (`live_push`), and lowering `sp` takes a part from its bottom
(`live_lower`).  From here on nothing needs to look at the byte table.
-/

namespace Protocell.Machine

variable {m : Machine}

theorem length_live (m : Machine) : m.live.length = m.sp.toNat := by
  have h : m.sp.toNat < 256 := m.sp.toNat_lt
  simp only [live, ByteTable.toList, List.length_take, Vector.length_toList]
  omega

theorem getElem?_live (m : Machine) (k : ℕ) :
    m.live[k]? = if k < m.sp.toNat then some (m.stack.get (UInt8.ofNat k)) else none := by
  have h : m.sp.toNat < 256 := m.sp.toNat_lt
  rw [live, List.getElem?_take, ByteTable.toList]
  split
  · have hk : k < 256 := by omega
    have hk' : k % 256 = k := Nat.mod_eq_of_lt hk
    simp [ByteTable.get, hk, hk']
  · rfl

/-- **Reading the stack below the pointer is reading the list.** -/
theorem get_stack_eq {i : UInt8} (h : i < m.sp) : m.stack.get i = m.live.getD i.toNat 0 := by
  rw [List.getD_eq_getElem?_getD, getElem?_live, if_pos (UInt8.lt_iff_toNat_lt.mp h),
    UInt8.ofNat_toNat, Option.getD_some]

/-- **Lowering the pointer keeps the bytes at the bottom.** -/
theorem live_lower {s : UInt8} (h : s ≤ m.sp) :
    ({ m with sp := s } : Machine).live = m.live.take s.toNat := by
  have hs : s.toNat ≤ m.sp.toNat := UInt8.le_iff_toNat_le.mp h
  rw [live, live, List.take_take, Nat.min_eq_left hs]

theorem sp_ne_limit_iff : m.sp ≠ stackLimit ↔ m.live.length < 255 := by
  have h : m.sp.toNat < 256 := m.sp.toNat_lt
  rw [length_live, ne_eq, ← UInt8.toNat_inj, stackLimit]
  simp only [UInt8.reduceToNat]
  omega

theorem push_of_full (v : UInt8) (h : m.live.length = 255) : m.push v = m.overflow := by
  have hsp : m.sp = stackLimit := by
    by_contra hne
    have := sp_ne_limit_iff.mp hne
    omega
  rw [push, if_pos hsp]

theorem push_of_room (v : UInt8) (h : m.live.length < 255) :
    m.push v = { m with stack := m.stack.set m.sp v, sp := m.sp + 1 } := by
  rw [push, if_neg (sp_ne_limit_iff.mpr h)]

theorem toNat_succ_sp (h : m.live.length < 255) : (m.sp + 1).toNat = m.sp.toNat + 1 := by
  rw [length_live] at h
  rw [UInt8.toNat_add]
  simp only [UInt8.reduceToNat]
  omega

/-- **A push appends.** -/
theorem live_push (v : UInt8) (h : m.live.length < 255) : (m.push v).live = m.live ++ [v] := by
  have hlen : m.live.length = m.sp.toNat := m.length_live
  refine List.ext_getElem? fun k => ?_
  rw [push_of_room v h, getElem?_live]
  simp only [toNat_succ_sp h]
  rcases Nat.lt_trichotomy k m.sp.toNat with hk | hk | hk
  · have hne : m.sp ≠ UInt8.ofNat k := by
      rw [ne_eq, ← UInt8.toNat_inj, UInt8.toNat_ofNat', Nat.mod_eq_of_lt (by omega)]
      omega
    rw [if_pos (by omega), ByteTable.get_set_ne _ _ hne, List.getElem?_append_left (by omega),
      getElem?_live, if_pos hk]
  · subst hk
    rw [if_pos (by omega), UInt8.ofNat_toNat, ByteTable.get_set_self,
      List.getElem?_append_right (by omega), hlen, Nat.sub_self]
    rfl
  · rw [if_neg (by omega), List.getElem?_eq_none]
    simp only [List.length_append, List.length_singleton]
    omega

/-- **A push appends where there is room**, and drops its byte where there is none. -/
theorem live_push_eq (m : Machine) (v : UInt8) :
    (m.push v).live = if m.live.length < 255 then m.live ++ [v] else m.live := by
  split
  · exact live_push v ‹_›
  · have hfull : m.live.length = 255 := by
      have := m.length_live
      have := m.sp.toNat_lt
      omega
    rw [push_of_full v hfull]
    rfl

end Protocell.Machine
