import Mathlib.Algebra.Ring.Nat
import Mathlib.Data.List.Basic
import Protocell.Assembly.Fold

/-!
# Proofs/Folding/Tree — code as a forest of expressions

A row of atoms is read left to right with a stack of trees: a byte is a leaf, and an instruction
takes as many trees off the top as it has slots, fewer if there are no more (`Tree.absorb`).  What
is on the stack in the end is the forest of the row.

A tree is written out as the code of its arguments that are no leaves, highest slot first, then its
opcode, then the literals of its leaves (`Tree.code`).  Nothing in these two definitions looks
backwards; `Folding/Forest` shows that folding does the same.
-/

namespace Protocell.Assembly

/-- **An expression**: a literal, or an instruction with the arguments it found, slot 0 first. -/
inductive Tree
  | leaf (v : UInt8)
  | node (i : Instruction) (arguments : List Tree)

namespace Tree

/-- Induction on trees, where a node may assume the claim for all of its arguments. -/
@[elab_as_elim, induction_eliminator]
theorem inductionOn {motive : Tree → Prop} (leaf : ∀ v, motive (.leaf v))
    (node : ∀ i ts, (∀ t ∈ ts, motive t) → motive (.node i ts)) : ∀ t, motive t
  | .leaf v => leaf v
  | .node i ts => node i ts fun t _ => inductionOn leaf node t

/-- The literal that a leaf is. -/
def literal? : Tree → Option UInt8
  | leaf v => some v
  | node _ _ => none

@[simp] theorem literal?_leaf (v : UInt8) : (leaf v).literal? = some v := rfl

@[simp] theorem literal?_node (i : Instruction) (ts : List Tree) :
    (node i ts).literal? = none := rfl

mutual

/-- The atoms of a tree in execution order. -/
def row : Tree → List Atom
  | leaf v => [.byte v]
  | node i ts => rows ts ++ [.instruction i]

/-- The atoms of arguments in execution order, the highest slot first. -/
def rows : List Tree → List Atom
  | [] => []
  | t :: ts => rows ts ++ row t

end

/-- The sum of `2 ^ k` over the slots `k` that hold a leaf. -/
def leafBits (ts : List Tree) : ℕ :=
  ((ts.zipIdx.filter fun t => t.1.literal?.isSome).map fun t => 2 ^ t.2).sum

mutual

/-- **The bytes of a tree.** -/
def code : Tree → List UInt8
  | leaf v => [v]
  | node i ts => nested ts ++ i.opcode (UInt8.ofNat (leafBits ts)) :: ts.filterMap literal?

/-- The code of those arguments that are no leaves, the highest slot first. -/
def nested : List Tree → List UInt8
  | [] => []
  | t :: ts => nested ts ++ if t.literal?.isSome then [] else code t

end

/-- The stack of trees after one more atom, top first. -/
def absorb (stack : List Tree) : Atom → List Tree
  | .byte v => leaf v :: stack
  | .instruction i => node i (stack.take i.arity) :: stack.drop i.arity

/-- **The forest of a row of atoms**, in order. -/
def forest (atoms : List Atom) : List Tree := (atoms.foldl absorb []).reverse

/-! ## Rows -/

theorem rows_eq (ts : List Tree) : rows ts = ts.reverse.flatMap row := by
  induction ts with
  | nil => rfl
  | cons t ts ih => rw [rows, ih, List.reverse_cons, List.flatMap_append, List.flatMap_singleton]

theorem row_node (i : Instruction) (ts : List Tree) :
    (node i ts).row = ts.reverse.flatMap row ++ [.instruction i] := by rw [row, rows_eq]

/-- Reading an atom puts it behind what the stack spells. -/
theorem flatMap_row_absorb (stack : List Tree) (a : Atom) :
    (absorb stack a).reverse.flatMap row = stack.reverse.flatMap row ++ [a] := by
  cases a with
  | byte v =>
    rw [absorb, List.reverse_cons, List.flatMap_append, List.flatMap_singleton, row]
  | instruction i =>
    have hsplit : stack.reverse = (stack.drop i.arity).reverse ++ (stack.take i.arity).reverse := by
      rw [← List.reverse_append, List.take_append_drop]
    rw [absorb, List.reverse_cons, List.flatMap_append, List.flatMap_singleton, row_node, hsplit,
      List.flatMap_append, List.append_assoc]

theorem flatMap_row_foldl_absorb (atoms : List Atom) (stack : List Tree) :
    (atoms.foldl absorb stack).reverse.flatMap row = stack.reverse.flatMap row ++ atoms := by
  induction atoms generalizing stack with
  | nil => rw [List.foldl_nil, List.append_nil]
  | cons a atoms ih =>
    rw [List.foldl_cons, ih, flatMap_row_absorb, List.append_assoc, List.singleton_append]

/-- **The forest spells the row**: each atom stands in one place of one tree. -/
theorem flatMap_row_forest (atoms : List Atom) : (forest atoms).flatMap row = atoms := by
  rw [forest, flatMap_row_foldl_absorb]
  rfl

/-! ## Variants -/

/-- Slots counted from `n` on weigh `2 ^ n` times as much. -/
theorem sum_leafBits_zipIdx (ts : List Tree) (n : ℕ) :
    (((ts.zipIdx n).filter fun t => t.1.literal?.isSome).map fun t => 2 ^ t.2).sum
      = 2 ^ n * bitsToNat (ts.map fun t => t.literal?.isSome) := by
  induction ts generalizing n with
  | nil => rfl
  | cons t ts ih =>
    rw [List.zipIdx_cons, List.filter_cons, List.map_cons, bitsToNat, Nat.mul_add]
    cases hleaf : t.literal?.isSome with
    | true =>
      simp only [if_true, List.map_cons, List.sum_cons, ih, Bool.toNat_true, Nat.mul_one]
      rw [Nat.pow_succ, Nat.mul_assoc]
    | false =>
      simp only [Bool.false_eq_true, if_false, ih, Bool.toNat_false, Nat.mul_zero, Nat.zero_add]
      rw [Nat.pow_succ, Nat.mul_assoc]

theorem variantOf_map_literal? (ts : List Tree) :
    variantOf (ts.map literal?) = UInt8.ofNat (leafBits ts) := by
  rw [variantOf, leafBits, sum_leafBits_zipIdx, Nat.pow_zero, Nat.one_mul, List.map_map]
  rfl

end Tree

end Protocell.Assembly
