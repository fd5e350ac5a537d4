import Protocell.Program.Basic

/-!
# Memory — the banked memory of a processor

Each of 256 banks is absent or a full page of 256 bytes.  An absent bank reads as zeros; the first
write to it makes it present.
-/

namespace Protocell

/-- The 256 bytes of a present bank. -/
abbrev Page := ByteTable UInt8

/-- The page that starts with `bytes` and goes on with zeros. -/
def Page.ofBytes (bytes : List UInt8) : Page := .ofFn fun i => bytes.getD i.toNat 0

/-- The memory of a processor. -/
structure Memory where
  pages : ByteTable (Option Page)
deriving DecidableEq

namespace Memory

/-- The memory without banks. -/
def empty : Memory := ⟨.fill none⟩

/-- The memory that holds the banks of a program, padded with zeros, and nothing else. -/
def ofProgram (p : Program) : Memory := ⟨.ofFn fun b => (p.get? b).map Page.ofBytes⟩

/-- The page of a bank, if the bank is present. -/
def page? (m : Memory) (bank : UInt8) : Option Page := m.pages.get bank

/-- Whether a bank is present. -/
def resident (m : Memory) (bank : UInt8) : Bool := (m.page? bank).isSome

/-- The byte at an offset of a bank; zero where the bank is absent. -/
def read (m : Memory) (bank offset : UInt8) : UInt8 :=
  match m.page? bank with
  | some page => page.get offset
  | none => 0

/-- Stores a byte; an absent bank becomes present, zero elsewhere. -/
def write (m : Memory) (bank offset value : UInt8) : Memory :=
  ⟨m.pages.set bank (some (((m.page? bank).getD (.fill 0)).set offset value))⟩

/-- The numbers of the present banks, in increasing order. -/
def residents (m : Memory) : List UInt8 := m.pages.indices Option.isSome

/-- A memory as text: which banks are present. -/
def describe (m : Memory) : String :=
  "Memory \x7b resident: [" ++ ", ".intercalate (m.residents.map fun b => toString b.toNat) ++
    "] \x7d"

theorem read_write (m : Memory) (bank offset value bank' offset' : UInt8) :
    (m.write bank offset value).read bank' offset' =
      if bank = bank' ∧ offset = offset' then value else m.read bank' offset' := by
  by_cases hb : bank = bank'
  · subst hb
    cases hp : m.page? bank <;> by_cases ho : offset = offset' <;>
      simp_all [read, write, page?]
  · simp [read, write, page?, hb]

theorem resident_write (m : Memory) (bank offset value bank' : UInt8) :
    (m.write bank offset value).resident bank' = (bank == bank' || m.resident bank') := by
  by_cases hb : bank = bank' <;> simp [resident, write, page?, hb]

theorem read_ofProgram (p : Program) (bank offset : UInt8) :
    (ofProgram p).read bank offset = (p.byteAt? bank offset).getD 0 := by
  cases h : p.get? bank <;> simp [read, page?, ofProgram, Program.byteAt?, Page.ofBytes, h]

theorem resident_ofProgram (p : Program) (bank : UInt8) :
    (ofProgram p).resident bank = p.has bank := by
  simp [resident, page?, ofProgram, Program.has]

end Memory

end Protocell
