import Protocell.ByteTable

/-!
# Program/Basic — compiled programs

A program is what the assembler makes and a processor loads: up to 256 banks of at most 256 bytes
each.  Banks are kept as long as they were written; padding is the processor's business.
-/

namespace Protocell

/-- The largest number of bytes in a bank. -/
def bankSize : Nat := 256

/-- The number of bank slots of a program. -/
def bankCount : Nat := 256

/-- The bytes of one bank. -/
structure Bank where
  bytes : List UInt8
  length_le : bytes.length ≤ bankSize
deriving DecidableEq

/-- **A compiled program**: a bank or nothing in each of its slots. -/
structure Program where
  slots : ByteTable (Option Bank)
deriving DecidableEq

namespace Program

/-- Why some bytes make no program. -/
inductive Error
  /-- A bank has more bytes than fit. -/
  | oversized (bank : UInt8) (size : Nat)
  /-- There are more slots than bank numbers. -/
  | tooManySlots (count : Nat)
deriving DecidableEq, Repr

/-- The text of an error. -/
def Error.message : Error → String
  | oversized bank size =>
    "bank " ++ toString bank.toNat ++ " holds " ++ toString size ++ " bytes, the limit is " ++
      toString bankSize
  | tooManySlots count => toString count ++ " bank slots, the limit is " ++ toString bankCount

/-- The program without banks. -/
def empty : Program := ⟨.fill none⟩

/-- The bytes of bank `i`, if it is present. -/
def get? (p : Program) (i : UInt8) : Option (List UInt8) := (p.slots.get i).map Bank.bytes

/-- Whether bank `i` is present. -/
def has (p : Program) (i : UInt8) : Bool := (p.get? i).isSome

/-- The byte at `offset` of bank `i`, if the bank is present and that long. -/
def byteAt? (p : Program) (i offset : UInt8) : Option UInt8 :=
  (p.get? i).bind fun bytes => bytes[offset.toNat]?

/-- Puts `bytes` into slot `i`, in place of what is there. -/
def insert (p : Program) (i : UInt8) (bytes : List UInt8) : Except Error Program :=
  if h : bytes.length ≤ bankSize then .ok ⟨p.slots.set i (some ⟨bytes, h⟩)⟩
  else .error (.oversized i bytes.length)

/-- The numbers of the present banks, in increasing order. -/
def indices (p : Program) : List UInt8 := p.slots.indices Option.isSome

/-- The present banks with their numbers, in increasing order. -/
def banks (p : Program) : List (UInt8 × List UInt8) :=
  p.indices.filterMap fun i => (p.get? i).map fun bytes => (i, bytes)

/-- The number of present banks. -/
def count (p : Program) : Nat := p.indices.length

/-- Puts the banks of a list into the slots from `first` on. -/
def insertSlots (p : Program) (first : Nat) : List (Option (List UInt8)) → Except Error Program
  | [] => .ok p
  | none :: rest => p.insertSlots (first + 1) rest
  | some bytes :: rest => do
    let p ← p.insert (UInt8.ofNat first) bytes
    p.insertSlots (first + 1) rest

/-- The program with the given slots, the first of them for bank 0; slots past the list are
empty. -/
def ofSlots (slots : List (Option (List UInt8))) : Except Error Program :=
  if bankCount < slots.length then .error (.tooManySlots slots.length)
  else empty.insertSlots 0 slots

/-- The program with the given banks, put in one after the other. -/
def ofBanks (banks : List (UInt8 × List UInt8)) : Except Error Program :=
  banks.foldlM (fun p b => p.insert b.1 b.2) empty

theorem exists_insert_eq_ok (p : Program) (i : UInt8) {bytes : List UInt8}
    (h : bytes.length ≤ bankSize) : ∃ q, p.insert i bytes = .ok q := ⟨_, dif_pos h⟩

theorem get?_insert {p q : Program} {i : UInt8} {bytes : List UInt8}
    (h : p.insert i bytes = .ok q) (j : UInt8) :
    q.get? j = if i = j then some bytes else p.get? j := by
  rw [insert] at h
  split at h
  · obtain rfl := Except.ok.inj h
    by_cases hij : i = j <;> simp [get?, hij]
  · cases h

theorem length_le_of_get? {p : Program} {i : UInt8} {bytes : List UInt8}
    (h : p.get? i = some bytes) : bytes.length ≤ bankSize := by
  obtain ⟨bank, -, rfl⟩ := Option.map_eq_some_iff.mp h
  exact bank.length_le

/-- **A program has the banks that it lists.** -/
theorem mem_banks {p : Program} {i : UInt8} {bytes : List UInt8} :
    (i, bytes) ∈ p.banks ↔ p.get? i = some bytes := by
  rw [banks, List.mem_filterMap]
  constructor
  · rintro ⟨k, -, hk⟩
    obtain ⟨bytes', hbytes, heq⟩ := Option.map_eq_some_iff.mp hk
    obtain ⟨rfl, rfl⟩ := Prod.mk.inj heq
    exact hbytes
  · intro hbytes
    refine ⟨i, ByteTable.mem_indices.mpr ?_, by rw [hbytes]; rfl⟩
    obtain ⟨bank, hbank, -⟩ := Option.map_eq_some_iff.mp hbytes
    rw [hbank]
    rfl

/-- Banks are listed in increasing order, each of them once. -/
theorem pairwise_banks (p : Program) : p.banks.Pairwise fun b c => b.1 < c.1 := by
  have hindices : p.indices.Pairwise (· < ·) :=
    pairwise_allBytes.filter fun i => (p.slots.get i).isSome
  rw [banks, List.pairwise_filterMap]
  refine hindices.imp ?_
  intro i j hlt b hb c hc
  obtain ⟨_, -, rfl⟩ := Option.map_eq_some_iff.mp hb
  obtain ⟨_, -, rfl⟩ := Option.map_eq_some_iff.mp hc
  exact hlt

@[ext] theorem ext {p q : Program} (h : ∀ i, p.get? i = q.get? i) : p = q := by
  obtain ⟨p⟩ := p
  obtain ⟨q⟩ := q
  refine congrArg mk (ByteTable.ext fun i => ?_)
  have hi : (p.get i).map Bank.bytes = (q.get i).map Bank.bytes := h i
  cases hp : p.get i with
  | none => cases hq : q.get i with
    | none => rfl
    | some b => simp [hp, hq] at hi
  | some a => cases hq : q.get i with
    | none => simp [hp, hq] at hi
    | some b =>
      obtain ⟨x, hx⟩ := a
      obtain ⟨y, hy⟩ := b
      obtain rfl : x = y := by simpa [hp, hq] using hi
      rfl

end Program

end Protocell
