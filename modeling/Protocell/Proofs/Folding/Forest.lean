import Protocell.Proofs.Folding.Tree

/-!
# Proofs/Folding/Forest — folding a row writes its forest out

`fold` keeps the atoms in their places and looks backwards for arguments, over the spans of what it
finds.  The invariant is that the places behind it are those of the stack of trees, one tree after
another (`foldl_place`): a tree not yet taken ends with a raw literal or with an opcode whose span
is the whole tree, so the search goes from tree to tree and never sees the inside of one.

From this come the three facts of `fold_eq_code_forest`: the bytes are those of the forest, the
forest spells the row, and no span reaches below the start of the row.
-/

namespace Protocell.Assembly

namespace Tree

mutual

/-- A tree in its places, the last one first. -/
def placed : Tree → List Placed
  | leaf v => [⟨1, .raw v⟩]
  | node i ts =>
    ⟨1 + (rows ts).length,
      .encoded (i.opcode (variantOf (ts.map literal?))) (ts.filterMap literal?)⟩ :: taken ts

/-- Arguments in their places once they are taken, the lowest slot first.  Where a leaf was, nothing
is left to emit. -/
def taken : List Tree → List Placed
  | [] => []
  | t :: ts => (if t.literal?.isSome then [⟨1, .folded⟩] else placed t) ++ taken ts

end

theorem taken_cons_leaf (v : UInt8) (ts : List Tree) :
    taken (leaf v :: ts) = ⟨1, .folded⟩ :: taken ts := rfl

theorem taken_cons_node (i : Instruction) (us ts : List Tree) :
    taken (node i us :: ts) = (node i us).placed ++ taken ts := rfl

/-- Taken arguments fill as many places as they have atoms, if each of them does. -/
theorem length_taken {ts : List Tree} (h : ∀ t ∈ ts, t.placed.length = t.row.length) :
    (taken ts).length = (rows ts).length := by
  induction ts with
  | nil => rfl
  | cons t ts ih =>
    obtain ⟨ht, hts⟩ := List.forall_mem_cons.mp h
    rw [taken, rows, List.length_append, List.length_append, ih hts, Nat.add_comm]
    congr 1
    cases t with
    | leaf v => rfl
    | node i us => exact ht

theorem length_placed (t : Tree) : t.placed.length = t.row.length := by
  induction t with
  | leaf v => rfl
  | node i ts ih =>
    rw [placed, row, List.length_cons, List.length_append, length_taken ih]
    rfl

/-- Taken arguments emit the code of those that are no leaves, if each of them does. -/
theorem flatMap_bytes_taken {ts : List Tree}
    (h : ∀ t ∈ ts, t.placed.reverse.flatMap (fun p => p.emission.bytes) = t.code) :
    (taken ts).reverse.flatMap (fun p => p.emission.bytes) = nested ts := by
  induction ts with
  | nil => rfl
  | cons t ts ih =>
    obtain ⟨ht, hts⟩ := List.forall_mem_cons.mp h
    rw [taken, nested, List.reverse_append, List.flatMap_append, ih hts]
    congr 1
    cases t with
    | leaf v => rfl
    | node i us => exact ht

/-- **What the places of a tree emit is its code.** -/
theorem flatMap_bytes_placed (t : Tree) :
    t.placed.reverse.flatMap (fun p => p.emission.bytes) = t.code := by
  induction t with
  | leaf v => rfl
  | node i ts ih =>
    rw [placed, code, List.reverse_cons, List.flatMap_append, flatMap_bytes_taken ih,
      List.flatMap_singleton, variantOf_map_literal?, Emission.bytes]

end Tree

open Protocell.Assembly.Tree

/-! ## The search for arguments -/

/-- **The search goes from tree to tree**: over the places of a stack of trees it finds the literals
of the topmost ones and passes all their atoms. -/
theorem gather_placed (n : ℕ) (stack : List Tree) :
    gather n (stack.flatMap placed) =
      ⟨(stack.take n).map literal?, (rows (stack.take n)).length,
        taken (stack.take n) ++ (stack.drop n).flatMap placed⟩ := by
  induction n generalizing stack with
  | zero => rfl
  | succ n ih =>
    cases stack with
    | nil => rfl
    | cons t stack =>
      cases t with
      | leaf v =>
        have hcons : (leaf v :: stack).flatMap placed
            = ⟨1, .raw v⟩ :: stack.flatMap placed := rfl
        rw [hcons, gather]
        simp only [ih, List.take_succ_cons, List.drop_succ_cons, List.map_cons, taken_cons_leaf,
          rows, List.length_append]
        refine congrArg₂ (fun a b => Gathered.mk a b _) rfl (Nat.add_comm _ _)
      | node i ts =>
        have hlen : (taken ts).length = (rows ts).length := length_taken fun t _ => length_placed t
        have hcons : (node i ts :: stack).flatMap placed
            = ⟨1 + (rows ts).length, .encoded (i.opcode (variantOf (ts.map literal?)))
                (ts.filterMap literal?)⟩ :: (taken ts ++ stack.flatMap placed) := rfl
        -- The span less one is what lies between the opcode and the next tree.
        have hdrop : (taken ts ++ stack.flatMap placed).drop (1 + (rows ts).length - 1)
            = stack.flatMap placed := by
          rw [Nat.add_sub_cancel_left, ← hlen, List.drop_left]
        have htake : (taken ts ++ stack.flatMap placed).take (1 + (rows ts).length - 1)
            = taken ts := by
          rw [Nat.add_sub_cancel_left, ← hlen, List.take_left]
        rw [hcons, gather]
        simp only [hdrop, htake, ih, List.take_succ_cons, List.drop_succ_cons, List.map_cons,
          taken_cons_node, rows, row, List.length_append, placed, List.cons_append,
          List.append_assoc, List.length_singleton]
        refine congrArg₂ (fun a b => Gathered.mk a b _) rfl ?_
        omega

theorem place_placed (stack : List Tree) (a : Atom) :
    place (stack.flatMap placed) a = (absorb stack a).flatMap placed := by
  cases a with
  | byte v => rfl
  | instruction i =>
    have hliterals (ts : List Tree) : (ts.map literal?).reduceOption = ts.filterMap literal? :=
      List.filterMap_map
    rw [place, absorb, gather_placed, List.flatMap_cons, placed]
    simp only [List.cons_append, hliterals]

/-- **The places behind the search are those of the stack of trees.** -/
theorem foldl_place (atoms : List Atom) (stack : List Tree) :
    atoms.foldl place (stack.flatMap placed) = (atoms.foldl absorb stack).flatMap placed := by
  induction atoms generalizing stack with
  | nil => rfl
  | cons a atoms ih => rw [List.foldl_cons, List.foldl_cons, place_placed, ih]

theorem foldl_place_nil (atoms : List Atom) :
    atoms.foldl place [] = (atoms.foldl absorb []).flatMap placed := foldl_place atoms []

theorem fold_eq_flatMap_code (atoms : List Atom) : fold atoms = (forest atoms).flatMap code := by
  rw [fold, foldl_place_nil, forest, List.reverse_flatMap, List.flatMap_assoc]
  simp only [Function.comp_def, flatMap_bytes_placed]

/-! ## Spans stay within the row -/

/-- No span in a list of places, the last one first, reaches past the end of the list. -/
def SpansFit : List Placed → Prop
  | [] => True
  | p :: back => p.span ≤ back.length + 1 ∧ SpansFit back

theorem SpansFit.of_append {front back : List Placed} (h : SpansFit (front ++ back)) :
    SpansFit back := by
  induction front with
  | nil => exact h
  | cons p front ih => exact ih h.2

theorem spansFit_taken {ts : List Tree} {back : List Placed}
    (h : ∀ t ∈ ts, ∀ back, SpansFit back → SpansFit (t.placed ++ back)) (hback : SpansFit back) :
    SpansFit (taken ts ++ back) := by
  induction ts with
  | nil => exact hback
  | cons t ts ih =>
    obtain ⟨ht, hts⟩ := List.forall_mem_cons.mp h
    cases t with
    | leaf v => exact ⟨Nat.le_add_left _ _, ih hts⟩
    | node i us =>
      rw [taken_cons_node, List.append_assoc]
      exact ht _ (ih hts)

theorem spansFit_placed (t : Tree) {back : List Placed} (hback : SpansFit back) :
    SpansFit (t.placed ++ back) := by
  induction t generalizing back with
  | leaf v => exact ⟨Nat.le_add_left _ _, hback⟩
  | node i ts ih =>
    have hlen : (taken ts).length = (rows ts).length := length_taken fun t _ => length_placed t
    rw [placed, List.cons_append]
    refine ⟨?_, spansFit_taken (fun t ht back hb => ih t ht hb) hback⟩
    change 1 + (rows ts).length ≤ (taken ts ++ back).length + 1
    rw [List.length_append, hlen]
    omega

theorem spansFit_foldl_place (atoms : List Atom) : SpansFit (atoms.foldl place []) := by
  rw [foldl_place_nil]
  induction atoms.foldl absorb [] with
  | nil => trivial
  | cons t stack ih => exact spansFit_placed t ih

/-- **Folding is reading a forest and writing it out.**  The bytes of a row are the code of its
forest; the forest spells the row, so that no literal is lost and none is taken twice; and at each
point of the row every span ends where there is still an atom, so that the search never leaves the
row. -/
theorem fold_eq_code_forest (atoms : List Atom) :
    fold atoms = (forest atoms).flatMap code ∧
      (forest atoms).flatMap row = atoms ∧
      ∀ n front p back, (atoms.take n).foldl place [] = front ++ p :: back →
        p.span ≤ back.length + 1 := by
  refine ⟨fold_eq_flatMap_code atoms, flatMap_row_forest atoms, ?_⟩
  intro n front p back hsplit
  have hfit := spansFit_foldl_place (atoms.take n)
  rw [hsplit] at hfit
  exact hfit.of_append.1

end Protocell.Assembly
