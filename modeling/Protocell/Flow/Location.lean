import Protocell.ByteTable

/-!
# Flow/Location — places in a program

A location is an offset of a bank.  Tables and sets of locations answer at every location and list
their members bank by bank.
-/

namespace Protocell.Flow

/-- An offset of a bank. -/
structure Location where
  bank : UInt8
  offset : UInt8
deriving DecidableEq, Repr

/-- All locations, bank by bank. -/
def allLocations : List Location :=
  allBytes.flatMap fun bank => allBytes.map fun offset => ⟨bank, offset⟩

theorem mem_allLocations (l : Location) : l ∈ allLocations :=
  List.mem_flatMap.2 ⟨l.bank, mem_allBytes _, List.mem_map.2 ⟨l.offset, mem_allBytes _, rfl⟩⟩

/-- The location `n` bytes behind `l` in the same bank, if the bank reaches that far. -/
def Location.advance (l : Location) (n : Nat) : Option Location :=
  if l.offset.toNat + n < 256 then some ⟨l.bank, UInt8.ofNat (l.offset.toNat + n)⟩ else none

/-- A total function from locations to `α`, stored as a row for each bank. -/
structure LocationTable (α : Type u) where
  rows : ByteTable (ByteTable α)

namespace LocationTable

variable {α : Type u}

/-- The entry at a location. -/
def get (t : LocationTable α) (l : Location) : α := (t.rows.get l.bank).get l.offset

/-- The table with the entry at a location replaced. -/
def set (t : LocationTable α) (l : Location) (a : α) : LocationTable α :=
  ⟨t.rows.set l.bank ((t.rows.get l.bank).set l.offset a)⟩

/-- The table that answers `a` everywhere. -/
def fill (a : α) : LocationTable α := ⟨.fill (.fill a)⟩

@[simp] theorem get_fill (a : α) (l : Location) : (fill a).get l = a := by simp [get, fill]

@[simp] theorem get_set (t : LocationTable α) (l l' : Location) (a : α) :
    (t.set l a).get l' = if l = l' then a else t.get l' := by
  obtain ⟨b, o⟩ := l
  obtain ⟨b', o'⟩ := l'
  by_cases hb : b = b'
  · subst hb
    by_cases ho : o = o' <;> simp [get, set, ho]
  · simp [get, set, hb]

end LocationTable

/-- A set of locations, as the table of its membership test. -/
abbrev LocationSet := LocationTable Bool

namespace LocationSet

/-- The empty set. -/
def empty : LocationSet := .fill false

/-- The set with `l` added. -/
def insert (s : LocationSet) (l : Location) : LocationSet := s.set l true

/-- The set of the locations in a list. -/
def ofList (ls : List Location) : LocationSet := ls.foldl insert empty

/-- The members, bank by bank. -/
def members (s : LocationSet) : List Location := allLocations.filter s.get

theorem get_insert (s : LocationSet) (l l' : Location) :
    (s.insert l).get l' = (decide (l = l') || s.get l') := by
  by_cases h : l = l' <;> simp [insert, h]

theorem get_foldl_insert (ls : List Location) (s : LocationSet) (l : Location) :
    (ls.foldl insert s).get l = true ↔ l ∈ ls ∨ s.get l = true := by
  induction ls generalizing s with
  | nil => simp
  | cons m ls ih => rw [List.foldl_cons, ih, get_insert, List.mem_cons]; grind

/-- **The set of a list has the members of the list.** -/
theorem get_ofList {ls : List Location} {l : Location} : (ofList ls).get l = true ↔ l ∈ ls := by
  simp [ofList, get_foldl_insert, empty]

theorem mem_members {s : LocationSet} {l : Location} : l ∈ s.members ↔ s.get l = true := by
  simp [members, mem_allLocations]

end LocationSet

end Protocell.Flow
