import Mathlib.Data.Nat.Bitwise
import Protocell.InstructionSet.Basic
import Protocell.Machine.Action
import Protocell.Proofs.Folding.Tree

/-!
# Proofs/Expression/Value — what an expression is worth

The value of an expression is defined by recursion on the tree, with arithmetic on numbers that is
cut down to a byte at the end of each operation (`Operation.number`, `Tree.value`).  There is no
stack and no code in it.

That the byte operations of the processor compute these numbers is `result?_eq_number`.  Shifts and
rotations need a word: a rotation puts together two shifts that have no bit in common, so that their
sum is their disjunction (`rotate_eq`).
-/

namespace Protocell

namespace Operation

/-- Whether an operation does nothing but push a value that its arguments and memory determine. -/
def yields : Operation → Bool
  | push | inc | dec | neg | not | llod | and | or | xor | add | sub | mul | div | lsft | rsft
  | llop | rlop | equl | grt | lst | rlod => true
  | _ => false

/-- **The value of an operation as a number**, where `x` is slot 0, the right operand, and `y` is
slot 1, the left one.  Only its remainder modulo 256 matters. -/
def number (memory : Memory) (bank : UInt8) (o : Operation) (x y : ℕ) : ℕ :=
  match o with
  | push => x
  | inc => x + 1
  | dec => x + 255
  | neg => 256 - x
  | not => 255 - x
  | llod => (memory.read bank (UInt8.ofNat x)).toNat
  | and => y &&& x
  | or => y ||| x
  | xor => y ^^^ x
  | add => y + x
  | sub => y + 256 - x
  | mul => y * x
  | div => y / x
  | lsft => y * 2 ^ (x % 8)
  | rsft => y / 2 ^ (x % 8)
  | llop => y * 2 ^ (x % 8) + y / 2 ^ (8 - x % 8)
  | rlop => y / 2 ^ (x % 8) + y * 2 ^ (8 - x % 8)
  | equl => if y = x then 1 else 0
  | grt => if y > x then 1 else 0
  | lst => if y < x then 1 else 0
  | rlod => (memory.read (UInt8.ofNat x) (UInt8.ofNat y)).toNat
  | _ => 0

/-- The value of an operation on given arguments, slot 0 first. -/
def value (memory : Memory) (bank : UInt8) (o : Operation) (arguments : List UInt8) : UInt8 :=
  UInt8.ofNat (o.number memory bank (arguments.getD 0 0).toNat (arguments.getD 1 0).toNat)

end Operation

namespace Assembly.Tree

mutual

/-- **The value of an expression** that is evaluated in a bank of a memory. -/
def value (memory : Memory) (bank : UInt8) : Tree → UInt8
  | leaf v => v
  | node i ts => i.operation.value memory bank (values memory bank ts)

/-- The values of arguments. -/
def values (memory : Memory) (bank : UInt8) : List Tree → List UInt8
  | [] => []
  | t :: ts => value memory bank t :: values memory bank ts

end

mutual

/-- The instructions of an expression in the order in which they are executed. -/
def steps : Tree → List Instruction
  | leaf _ => []
  | node i ts => stepsOf ts ++ [i]

/-- The instructions of arguments, the highest slot first. -/
def stepsOf : List Tree → List Instruction
  | [] => []
  | t :: ts => stepsOf ts ++ steps t

end

/-- **A complete expression** in the instructions of a set: each of them yields a value and has all
its arguments. -/
inductive IsExpression (s : InstructionSet) : Tree → Prop
  | leaf (v : UInt8) : IsExpression s (leaf v)
  | node {i : Instruction} {ts : List Tree} : i ∈ s.instructions → i.operation.yields = true →
      ts.length = i.arity → (∀ t ∈ ts, IsExpression s t) → IsExpression s (node i ts)

end Assembly.Tree

/-! ## Byte operations compute these numbers -/

/-- Two parts of a byte, one shifted up and one shifted down past each other, have no bit in
common. -/
theorem rotate_eq {y k : ℕ} (hy : y < 256) (hk : k ≤ 8) :
    y * 2 ^ k % 256 ||| y / 2 ^ (8 - k) = (y * 2 ^ k + y / 2 ^ (8 - k)) % 256 := by
  have hpow : 2 ^ (8 - k) * 2 ^ k = 256 := by
    rw [← Nat.pow_add, Nat.sub_add_cancel hk]
  have hhigh : y * 2 ^ k % 256 = (y % 2 ^ (8 - k)) * 2 ^ k := by
    rw [← hpow, Nat.mul_mod_mul_right]
  have hlow : y / 2 ^ (8 - k) < 2 ^ k := by
    rw [Nat.div_lt_iff_lt_mul (Nat.two_pow_pos _), Nat.mul_comm, hpow]
    exact hy
  have hsum : (y % 2 ^ (8 - k)) * 2 ^ k + y / 2 ^ (8 - k) < 256 := by
    have hle : (y % 2 ^ (8 - k) + 1) * 2 ^ k ≤ 2 ^ (8 - k) * 2 ^ k :=
      Nat.mul_le_mul_right _ (Nat.mod_lt _ (Nat.two_pow_pos _))
    rw [hpow, Nat.add_mul, Nat.one_mul] at hle
    omega
  rw [Nat.add_mod, hhigh, Nat.mod_eq_of_lt (Nat.lt_of_le_of_lt (Nat.div_le_self _ _) hy),
    Nat.mod_eq_of_lt hsum, ← Nat.shiftLeft_eq, Nat.shiftLeft_add_eq_or_of_lt hlow]

/-- A shift by the distance to eight, as the processor computes it. -/
theorem toNat_eight_sub (x : UInt8) : (8 - x).toNat % 8 = (8 - x.toNat % 8) % 8 := by
  have hx : x.toNat < 256 := x.toNat_lt
  rw [UInt8.toNat_sub]
  simp only [UInt8.reduceToNat]
  omega

theorem toNat_rotateLeft (y x : UInt8) :
    (rotateLeft y x).toNat
      = (y.toNat * 2 ^ (x.toNat % 8) + y.toNat / 2 ^ (8 - x.toNat % 8)) % 256 := by
  have hy : y.toNat < 256 := y.toNat_lt
  rw [rotateLeft, UInt8.toNat_or, UInt8.toNat_shiftLeft, UInt8.toNat_shiftRight, toNat_eight_sub,
    Nat.shiftLeft_eq, Nat.shiftRight_eq_div_pow]
  rcases Nat.eq_zero_or_pos (x.toNat % 8) with hk | hk
  · -- Both shifts are by nothing, and eight places down there is nothing left.
    have hzero : y.toNat / 256 = 0 := Nat.div_eq_of_lt hy
    simp [hk, hzero, Nat.mod_eq_of_lt hy]
  · rw [Nat.mod_eq_of_lt (by omega : 8 - x.toNat % 8 < 8)]
    exact rotate_eq hy (by omega)

theorem toNat_rotateRight (y x : UInt8) :
    (rotateRight y x).toNat
      = (y.toNat / 2 ^ (x.toNat % 8) + y.toNat * 2 ^ (8 - x.toNat % 8)) % 256 := by
  have hy : y.toNat < 256 := y.toNat_lt
  rw [rotateRight, UInt8.toNat_or, UInt8.toNat_shiftLeft, UInt8.toNat_shiftRight, toNat_eight_sub,
    Nat.shiftLeft_eq, Nat.shiftRight_eq_div_pow]
  rcases Nat.eq_zero_or_pos (x.toNat % 8) with hk | hk
  · simp [hk, Nat.mod_eq_of_lt hy]
  · have hrotate := rotate_eq hy (by omega : 8 - x.toNat % 8 ≤ 8)
    rw [Nat.sub_sub_self (by omega)] at hrotate
    rw [Nat.mod_eq_of_lt (by omega : 8 - x.toNat % 8 < 8), Nat.lor_comm, Nat.add_comm]
    exact hrotate

theorem toNat_flagByte (c : Prop) [Decidable c] :
    (flagByte (decide c)).toNat = (if c then 1 else 0) % 256 := by
  by_cases hc : c <;> simp [flagByte, hc]

/-- **What the processor computes is the number**, cut down to a byte. -/
theorem result?_eq_number (memory : Memory) (bank : UInt8) {o : Operation} {x y v : UInt8}
    (h : o.result? x y = some v) : v = UInt8.ofNat (o.number memory bank x.toNat y.toNat) := by
  have hx : x.toNat < 256 := x.toNat_lt
  have hy : y.toNat < 256 := y.toNat_lt
  rw [← UInt8.toNat_inj, UInt8.toNat_ofNat']
  cases o with
  | push =>
    obtain rfl := Option.some.inj h
    exact (Nat.mod_eq_of_lt hx).symm
  | inc =>
    obtain rfl := Option.some.inj h
    exact UInt8.toNat_add x 1
  | dec =>
    obtain rfl := Option.some.inj h
    rw [UInt8.toNat_sub, Operation.number]
    exact congrArg (· % 256) (Nat.add_comm _ _)
  | neg =>
    obtain rfl := Option.some.inj h
    exact UInt8.toNat_neg x
  | not =>
    obtain rfl := Option.some.inj h
    exact (UInt8.toNat_not x).trans (Nat.mod_eq_of_lt (Nat.lt_succ_of_le (Nat.sub_le _ _))).symm
  | and =>
    obtain rfl := Option.some.inj h
    rw [UInt8.toNat_and, Operation.number,
      Nat.mod_eq_of_lt (Nat.and_lt_two_pow y.toNat (n := 8) hx)]
  | or =>
    obtain rfl := Option.some.inj h
    rw [UInt8.toNat_or, Operation.number, Nat.mod_eq_of_lt (Nat.or_lt_two_pow (n := 8) hy hx)]
  | xor =>
    obtain rfl := Option.some.inj h
    rw [UInt8.toNat_xor, Operation.number, Nat.mod_eq_of_lt (Nat.xor_lt_two_pow (n := 8) hy hx)]
  | add =>
    obtain rfl := Option.some.inj h
    exact UInt8.toNat_add y x
  | sub =>
    obtain rfl := Option.some.inj h
    rw [UInt8.toNat_sub, Operation.number]
    omega
  | mul =>
    obtain rfl := Option.some.inj h
    exact UInt8.toNat_mul y x
  | div =>
    obtain rfl := Option.some.inj h
    rw [UInt8.toNat_div, Operation.number,
      Nat.mod_eq_of_lt (Nat.lt_of_le_of_lt (Nat.div_le_self _ _) hy)]
  | lsft =>
    obtain rfl := Option.some.inj h
    rw [UInt8.toNat_shiftLeft, Operation.number, Nat.shiftLeft_eq]
  | rsft =>
    obtain rfl := Option.some.inj h
    rw [UInt8.toNat_shiftRight, Operation.number, Nat.shiftRight_eq_div_pow,
      Nat.mod_eq_of_lt (Nat.lt_of_le_of_lt (Nat.div_le_self _ _) hy)]
  | llop =>
    obtain rfl := Option.some.inj h
    exact toNat_rotateLeft y x
  | rlop =>
    obtain rfl := Option.some.inj h
    exact toNat_rotateRight y x
  | equl =>
    obtain rfl := Option.some.inj h
    simp only [Operation.number, UInt8.toNat_inj]
    exact toNat_flagByte (y = x)
  | grt =>
    obtain rfl := Option.some.inj h
    exact toNat_flagByte (x < y)
  | lst =>
    obtain rfl := Option.some.inj h
    exact toNat_flagByte (y < x)
  | _ => cases h

/-- **An operation that yields a value does so by one change of the machine**: it pushes the value
or loads it from memory. -/
theorem Operation.action_of_yields {o : Operation} (h : o.yields = true) (memory : Memory)
    (bank : UInt8) (arguments : List UInt8) :
    (o.action arguments = .update (.push (o.value memory bank arguments))) ∨
      (∃ offset, o.action arguments = .update (.loadLocal offset) ∧
        memory.read bank offset = o.value memory bank arguments) ∨
      (∃ bank' offset, o.action arguments = .update (.loadRemote bank' offset) ∧
        memory.read bank' offset = o.value memory bank arguments) := by
  cases hresult : o.result? (arguments.getD 0 0) (arguments.getD 1 0) with
  | some v =>
    left
    simp only [Operation.action, hresult, result?_eq_number memory bank hresult]
    rfl
  | none =>
    right
    cases o with
    | llod =>
      refine .inl ⟨arguments.getD 0 0, rfl, ?_⟩
      rw [Operation.value, Operation.number, UInt8.ofNat_toNat, UInt8.ofNat_toNat]
    | rlod =>
      refine .inr ⟨arguments.getD 0 0, arguments.getD 1 0, rfl, ?_⟩
      rw [Operation.value, Operation.number, UInt8.ofNat_toNat, UInt8.ofNat_toNat,
        UInt8.ofNat_toNat]
    | _ => simp_all [Operation.result?, Operation.yields]

end Protocell
