import Mathlib.Data.List.Forall2
import Protocell.Proofs.Folding.Forest

/-!
# Proofs/Folding/Settle — what later atoms leave alone

An atom that comes later can take literals that stand before it, and that is all it does to them
(`foldl_place_settles`).  A complete tree that is no mere literal has none left to take, so that its
places stay as they are whatever follows (`foldl_place_row`).  This is why code can be told apart by
the lines it was written in.
-/

namespace Protocell.Assembly

/-- A place as it was or, if it held a literal, with the literal taken. -/
inductive Placed.Settles : Placed → Placed → Prop
  | same (p : Placed) : Settles p p
  | taken (n : ℕ) (v : UInt8) : Settles ⟨n, .raw v⟩ ⟨n, .folded⟩

theorem Placed.Settles.trans {p q r : Placed} (hpq : p.Settles q) (hqr : q.Settles r) :
    p.Settles r := by
  cases hpq with
  | same => exact hqr
  | taken n v =>
    cases hqr
    exact .taken n v

/-- What is no literal settles to nothing else. -/
theorem Placed.Settles.eq {p q : Placed} (h : p.Settles q) (hp : ∀ v, p.emission ≠ .raw v) :
    q = p := by
  cases h with
  | same => rfl
  | taken n v => exact absurd rfl (hp v)

theorem settles_refl (back : List Placed) : List.Forall₂ Placed.Settles back back :=
  List.forall₂_same.mpr fun p _ => .same p

theorem settles_trans {xs ys zs : List Placed} (hxy : List.Forall₂ Placed.Settles xs ys)
    (hyz : List.Forall₂ Placed.Settles ys zs) : List.Forall₂ Placed.Settles xs zs := by
  induction hxy generalizing zs with
  | nil => exact hyz
  | cons hxy _ ih =>
    cases hyz with
    | cons hyz hyzs => exact .cons (hxy.trans hyz) (ih hyzs)

theorem eq_of_settles {xs ys : List Placed} (h : List.Forall₂ Placed.Settles xs ys)
    (hxs : ∀ p ∈ xs, ∀ v, p.emission ≠ .raw v) : ys = xs := by
  induction h with
  | nil => rfl
  | cons h _ ih =>
    obtain ⟨hx, hxs⟩ := List.forall_mem_cons.mp hxs
    rw [h.eq hx, ih hxs]

/-- **A search settles what it passes.** -/
theorem gather_settles (n : ℕ) (back : List Placed) :
    List.Forall₂ Placed.Settles back (gather n back).back := by
  induction n generalizing back with
  | zero => exact settles_refl back
  | succ n ih =>
    cases back with
    | nil => exact .nil
    | cons p back =>
      obtain ⟨span, emission⟩ := p
      have hpass : List.Forall₂ Placed.Settles (⟨span, emission⟩ :: back)
          (⟨span, emission⟩ :: back.take (span - 1) ++ (gather n (back.drop (span - 1))).back) := by
        have hrest : List.Forall₂ Placed.Settles (back.take (span - 1) ++ back.drop (span - 1))
            (back.take (span - 1) ++ (gather n (back.drop (span - 1))).back) :=
          List.rel_append (settles_refl _) (ih _)
        rw [List.take_append_drop] at hrest
        exact .cons (.same _) hrest
      cases emission with
      | raw v => exact .cons (.taken span v) (ih back)
      | folded => exact hpass
      | encoded opcode literals => exact hpass

theorem place_settles (back : List Placed) (a : Atom) :
    ∃ p back', place back a = p :: back' ∧ List.Forall₂ Placed.Settles back back' := by
  cases a with
  | byte v => exact ⟨_, _, rfl, settles_refl back⟩
  | instruction i => exact ⟨_, _, rfl, gather_settles i.arity back⟩

/-- **Later atoms settle what is there**, and each of them adds one place. -/
theorem foldl_place_settles (atoms : List Atom) (back : List Placed) :
    ∃ front back', atoms.foldl place back = front ++ back' ∧ front.length = atoms.length ∧
      List.Forall₂ Placed.Settles back back' := by
  induction atoms generalizing back with
  | nil => exact ⟨[], back, rfl, rfl, settles_refl back⟩
  | cons a atoms ih =>
    obtain ⟨p, back₁, hplace, hsettles⟩ := place_settles back a
    obtain ⟨front, back₂, hrest, hlen, hrests⟩ := ih (p :: back₁)
    rw [List.foldl_cons, hplace, hrest]
    cases hrests with
    | @cons _ q _ back₃ _ htail =>
      refine ⟨front ++ [q], back₃, ?_, ?_, settles_trans hsettles htail⟩
      · rw [List.append_assoc, List.singleton_append]
      · rw [List.length_append, List.length_singleton, List.length_cons, hlen]

theorem length_foldl_place (atoms : List Atom) (back : List Placed) :
    (atoms.foldl place back).length = atoms.length + back.length := by
  obtain ⟨front, back', hrest, hlen, hsettles⟩ := foldl_place_settles atoms back
  rw [hrest, List.length_append, hlen, hsettles.length_eq]

namespace Tree

/-! ## Complete trees -/

/-- Every instruction of a tree has all its arguments. -/
inductive IsComplete : Tree → Prop
  | leaf (v : UInt8) : IsComplete (leaf v)
  | node {i : Instruction} {ts : List Tree} : ts.length = i.arity → (∀ t ∈ ts, IsComplete t) →
      IsComplete (node i ts)

theorem foldl_absorb_rows {ts : List Tree}
    (h : ∀ t ∈ ts, ∀ stack, t.row.foldl absorb stack = t :: stack) (stack : List Tree) :
    (rows ts).foldl absorb stack = ts ++ stack := by
  induction ts with
  | nil => rfl
  | cons t ts ih =>
    obtain ⟨ht, hts⟩ := List.forall_mem_cons.mp h
    rw [rows, List.foldl_append, ih hts, ht]
    rfl

/-- **A complete tree is read off its row**, whatever stands before it. -/
theorem IsComplete.foldl_absorb_row {t : Tree} (ht : t.IsComplete) (stack : List Tree) :
    t.row.foldl absorb stack = t :: stack := by
  induction ht generalizing stack with
  | leaf v => rfl
  | @node i ts hlen _ ih =>
    rw [row, List.foldl_append, foldl_absorb_rows ih, List.foldl_cons, List.foldl_nil, absorb,
      List.take_left' hlen, List.drop_left' hlen]

theorem not_raw_of_mem_taken {ts : List Tree}
    (h : ∀ t ∈ ts, t.literal? = none → ∀ p ∈ t.placed, ∀ v, p.emission ≠ .raw v) :
    ∀ p ∈ taken ts, ∀ v, p.emission ≠ .raw v := by
  induction ts with
  | nil => exact fun p hp => nomatch hp
  | cons t ts ih =>
    obtain ⟨ht, hts⟩ := List.forall_mem_cons.mp h
    intro p hp v
    cases t with
    | leaf w =>
      rw [taken_cons_leaf] at hp
      rcases List.mem_cons.mp hp with rfl | hp
      · exact Emission.noConfusion
      · exact ih hts p hp v
    | node i us =>
      rw [taken_cons_node] at hp
      rcases List.mem_append.mp hp with hp | hp
      · exact ht rfl p hp v
      · exact ih hts p hp v

/-- **A tree that is no literal leaves none to be taken.** -/
theorem not_raw_of_mem_placed {t : Tree} (hnode : t.literal? = none) :
    ∀ p ∈ t.placed, ∀ v, p.emission ≠ .raw v := by
  induction t with
  | leaf v => cases hnode
  | node i ts ih =>
    intro p hp v
    rw [placed] at hp
    rcases List.mem_cons.mp hp with rfl | hp
    · exact Emission.noConfusion
    · exact not_raw_of_mem_taken ih p hp v

end Tree

open Protocell.Assembly.Tree

/-- **The places of a complete tree in a row** are its own: what stands before the tree is not in
them, and what comes after does not change them. -/
theorem foldl_place_row {t : Tree} (ht : t.IsComplete) (hnode : t.literal? = none)
    (before after : List Atom) :
    ∃ front back, (before ++ t.row ++ after).foldl place [] = front ++ t.placed ++ back ∧
      front.length = after.length ∧ back.length = before.length := by
  have hbefore := foldl_place before []
  rw [List.flatMap_nil] at hbefore
  have htree := foldl_place t.row (before.foldl absorb [])
  rw [ht.foldl_absorb_row, List.flatMap_cons] at htree
  obtain ⟨front, back, hafter, hfront, hsettles⟩ :=
    foldl_place_settles after (t.placed ++ (before.foldl absorb []).flatMap placed)
  have hlength := length_foldl_place before []
  rw [hbefore, List.length_nil, Nat.add_zero] at hlength
  have hown : back.take t.placed.length = t.placed := by
    have htake := List.forall₂_take t.placed.length hsettles
    rw [List.take_left] at htake
    exact eq_of_settles htake (not_raw_of_mem_placed hnode)
  have hrest := (List.forall₂_drop t.placed.length hsettles).length_eq
  rw [List.drop_left, hlength] at hrest
  refine ⟨front, back.drop t.placed.length, ?_, hfront, hrest.symm⟩
  rw [List.foldl_append, List.foldl_append, hbefore, htree, hafter, List.append_assoc]
  congr 1
  conv_lhs => rw [← List.take_append_drop t.placed.length back, hown]

end Protocell.Assembly
