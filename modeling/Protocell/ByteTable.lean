/-!
# ByteTable — one entry for every byte

A `ByteTable α` answers at all 256 byte indices, so reading it never fails and two tables are equal
as soon as they answer alike (`ByteTable.ext`).  Writing changes the answer at one index and no
other (`get_set`).  Memory banks, the processor stack, the slots of a program and the location sets
of the flow analysis are all byte tables.
-/

namespace Protocell

/-- All bytes in increasing order. -/
def allBytes : List UInt8 := (List.range 256).map UInt8.ofNat

theorem mem_allBytes (b : UInt8) : b ∈ allBytes := by
  refine List.mem_map.2 ⟨b.toNat, List.mem_range.2 b.toNat_lt, UInt8.ofNat_toNat⟩

theorem pairwise_allBytes : allBytes.Pairwise (· < ·) := by
  rw [allBytes, List.pairwise_map]
  refine List.pairwise_lt_range.imp_of_mem fun {i j} hi hj hlt => ?_
  rw [UInt8.lt_iff_toNat_lt, UInt8.toNat_ofNat_of_lt' (List.mem_range.mp hi),
    UInt8.toNat_ofNat_of_lt' (List.mem_range.mp hj)]
  exact hlt

/-- A total function from bytes to `α`, stored as 256 entries. -/
structure ByteTable (α : Type u) where
  /-- The entries, in index order. -/
  entries : Vector α 256
deriving DecidableEq

namespace ByteTable

variable {α : Type u}

/-- The entry at index `i`. -/
def get (t : ByteTable α) (i : UInt8) : α :=
  have : i.toNat < 256 := i.toNat_lt
  t.entries[i.toNat]

/-- The table with the entry at index `i` replaced. -/
def set (t : ByteTable α) (i : UInt8) (a : α) : ByteTable α := ⟨t.entries.set i.toNat a i.toNat_lt⟩

/-- The table that answers `a` everywhere. -/
def fill (a : α) : ByteTable α := ⟨Vector.replicate 256 a⟩

/-- The table of a function. -/
def ofFn (f : UInt8 → α) : ByteTable α := ⟨Vector.ofFn fun i => f (UInt8.ofNat i)⟩

/-- The entries in index order. -/
def toList (t : ByteTable α) : List α := t.entries.toList

/-- The indices whose entry passes `p`, in increasing order. -/
def indices (t : ByteTable α) (p : α → Bool) : List UInt8 := allBytes.filter fun i => p (t.get i)

@[simp] theorem get_set (t : ByteTable α) (i j : UInt8) (a : α) :
    (t.set i a).get j = if i = j then a else t.get j := by
  simp only [get, set, Vector.getElem_set, UInt8.toNat_inj]

theorem get_set_self (t : ByteTable α) (i : UInt8) (a : α) : (t.set i a).get i = a := by simp

theorem get_set_ne (t : ByteTable α) {i j : UInt8} (a : α) (h : i ≠ j) :
    (t.set i a).get j = t.get j := by simp [h]

@[simp] theorem get_fill (a : α) (i : UInt8) : (fill a).get i = a := by
  simp [get, fill]

@[simp] theorem get_ofFn (f : UInt8 → α) (i : UInt8) : (ofFn f).get i = f i := by
  simp [get, ofFn]

/-- **Tables are their answers.** -/
@[ext] theorem ext {t u : ByteTable α} (h : ∀ i, t.get i = u.get i) : t = u := by
  obtain ⟨t⟩ := t
  obtain ⟨u⟩ := u
  refine congrArg mk (Vector.ext fun i hi => ?_)
  simpa [get, Nat.mod_eq_of_lt hi] using h (UInt8.ofNat i)

theorem mem_indices {t : ByteTable α} {p : α → Bool} {i : UInt8} :
    i ∈ t.indices p ↔ p (t.get i) = true := by
  simp [indices, mem_allBytes]

end ByteTable

/-- A set of bytes, as the table of its membership test. -/
abbrev ByteSet := ByteTable Bool

namespace ByteSet

/-- The empty set. -/
def empty : ByteSet := .fill false

/-- The set with `b` added. -/
def insert (s : ByteSet) (b : UInt8) : ByteSet := s.set b true

/-- The members in increasing order. -/
def members (s : ByteSet) : List UInt8 := s.indices id

theorem get_insert (s : ByteSet) (b c : UInt8) : (s.insert b).get c = (b == c || s.get c) := by
  by_cases h : b = c <;> simp [insert, h]

end ByteSet

end Protocell
