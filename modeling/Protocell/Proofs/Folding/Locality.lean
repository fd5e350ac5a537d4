import Mathlib.Data.List.Induction
import Protocell.Proofs.Folding.Applied

/-!
# Proofs/Folding/Locality — rows that need nothing from before them

Each atom of a row becomes one byte (`length_fold`): a literal is written once, in its place or
behind the opcode that took it, and so is an opcode.

A row is closed if each of its instructions finds all its arguments among the atoms of the row.
What stands before a closed row then stays under its trees, untouched (`IsClosed.foldl_absorb`), so
that the two can be folded apart (`fold_append`).
-/

namespace Protocell.Assembly

namespace Tree

/-- Arguments that are no leaves and the literals of those that are make up as many bytes as all of
them have atoms, if each of them has as many bytes as atoms. -/
theorem length_nested_add {ts : List Tree} (h : ∀ t ∈ ts, t.code.length = t.row.length) :
    (nested ts).length + (ts.filterMap literal?).length = (rows ts).length := by
  induction ts with
  | nil => rfl
  | cons t ts ih =>
    obtain ⟨ht, hts⟩ := List.forall_mem_cons.mp h
    have hrest := ih hts
    rw [nested, rows, List.length_append, List.length_append]
    cases t with
    | leaf v =>
      change (nested ts).length + 0 + ((ts.filterMap literal?).length + 1) = (rows ts).length + 1
      omega
    | node i us =>
      change (nested ts).length + (node i us).code.length + (ts.filterMap literal?).length = _
      omega

/-- **A tree has as many bytes as atoms.** -/
theorem length_code (t : Tree) : t.code.length = t.row.length := by
  induction t with
  | leaf v => rfl
  | node i ts ih =>
    have hargs := length_nested_add ih
    rw [code, row, List.length_append, List.length_append, List.length_cons, List.length_singleton]
    omega

end Tree

/-- **Each atom becomes one byte.** -/
theorem length_fold (atoms : List Atom) : (fold atoms).length = atoms.length := by
  have hrow := congrArg List.length (Tree.flatMap_row_forest atoms)
  rw [List.length_flatMap] at hrow
  rw [fold_eq_flatMap_code, List.length_flatMap, ← hrow]
  exact congrArg List.sum (List.map_congr_left fun t _ => t.length_code)

/-- **A row that needs nothing from before it**: looking for its arguments in the row alone, each of
its instructions finds one for every slot. -/
def IsClosed (atoms : List Atom) : Prop :=
  ∀ before i after, atoms = before ++ .instruction i :: after →
    (gather i.arity (before.foldl place [])).arguments.length = i.arity

/-- The same, place by place. -/
theorem isClosed_iff_forall_lt {atoms : List Atom} :
    IsClosed atoms ↔ ∀ k < atoms.length, ∀ i ∈ atoms[k]?.bind Atom.instruction?,
      (gather i.arity ((atoms.take k).foldl place [])).arguments.length = i.arity := by
  have hatom (a : Atom) (i : Instruction) : a.instruction? = some i ↔ a = .instruction i := by
    cases a with
    | byte v => exact iff_of_false (by rintro ⟨⟩) (by rintro ⟨⟩)
    | instruction j => rw [Atom.instruction?, Option.some.injEq, Atom.instruction.injEq]
  constructor
  · intro h k hk i hi
    obtain ⟨a, ha, hi⟩ := Option.bind_eq_some_iff.mp hi
    obtain rfl := (hatom a i).mp hi
    refine h (atoms.take k) i (atoms.drop (k + 1)) ?_
    rw [← (List.getElem?_eq_some_iff.mp ha).2, ← List.drop_eq_getElem_cons hk,
      List.take_append_drop]
  · rintro h before i after rfl
    have hlt : before.length < (before ++ .instruction i :: after).length := by
      rw [List.length_append, List.length_cons]
      omega
    have hget : (before ++ Atom.instruction i :: after)[before.length]?
        = some (.instruction i) := by
      rw [List.getElem?_append_right (Nat.le_refl _), Nat.sub_self, List.getElem?_cons_zero]
    have hfound := h before.length hlt i (Option.mem_def.mpr (by rw [hget]; rfl))
    rwa [List.take_left] at hfound

instance (atoms : List Atom) : Decidable (IsClosed atoms) :=
  decidable_of_iff _ isClosed_iff_forall_lt.symm

/-- The search finds an argument for each tree that is there. -/
theorem length_arguments_gather (n : ℕ) (atoms : List Atom) :
    (gather n (atoms.foldl place [])).arguments.length
      = min n (atoms.foldl Tree.absorb []).length := by
  rw [foldl_place_nil, gather_placed, List.length_map, List.length_take]

theorem IsClosed.of_append {xs ys : List Atom} (h : IsClosed (xs ++ ys)) : IsClosed xs := by
  rintro before i after rfl
  exact h before i (after ++ ys) (by rw [List.append_assoc, List.cons_append])

/-- **A closed row is read the same on top of anything.** -/
theorem IsClosed.foldl_absorb {atoms : List Atom} (h : IsClosed atoms) (stack : List Tree) :
    atoms.foldl Tree.absorb stack = atoms.foldl Tree.absorb [] ++ stack := by
  induction atoms using List.reverseRecOn with
  | nil => rfl
  | append_singleton atoms a ih =>
    rw [List.foldl_append, List.foldl_append, ih h.of_append]
    cases a with
    | byte v => rfl
    | instruction i =>
      have hfound := h atoms i [] rfl
      rw [length_arguments_gather] at hfound
      have hle : i.arity ≤ (atoms.foldl Tree.absorb []).length := by omega
      simp only [List.foldl_cons, List.foldl_nil, Tree.absorb, List.take_append_of_le_length hle,
        List.drop_append_of_le_length hle, List.cons_append]

/-- **Each atom of a closed row, and each before it, comes to the place that it has when the two
rows are apart.** -/
theorem foldl_place_append (xs : List Atom) {ys : List Atom} (hys : IsClosed ys) :
    (xs ++ ys).foldl place [] = ys.foldl place [] ++ xs.foldl place [] := by
  rw [foldl_place_nil, List.foldl_append, hys.foldl_absorb, List.flatMap_append, ← foldl_place_nil,
    ← foldl_place_nil]

/-- **A closed row is folded apart from what stands before it.** -/
theorem fold_append (xs : List Atom) {ys : List Atom} (hys : IsClosed ys) :
    fold (xs ++ ys) = fold xs ++ fold ys := by
  rw [fold, foldl_place_append xs hys, List.reverse_append, List.flatMap_append, fold, fold]

end Protocell.Assembly
