import Mathlib.Data.List.Perm.Basic
import Protocell.InstructionSet.Standard
import Protocell.Proofs.Source.Stacking

/-!
# Proofs/Source/Order — the order of the banks in a source does not matter

A source of several banks is read bank by bank, and its draft is that of the banks one over the
other, which are apart from each other in banks and names (`readLines?_flatten`).  Both the draft up
to order and the condition are the same for any order of the banks, and the order of its sections
and names does not show in the program that a draft becomes (`Yields.of_perm`).
-/

namespace Protocell.Assembly

namespace Draft

variable {s : InstructionSet}

/-! ## Bank by bank -/

/-- Drafts one over the other, the first on top. -/
def join (ds : List Draft) : Draft := ds.foldr above {}

theorem sections_join (ds : List Draft) : (join ds).sections = ds.flatMap sections := by
  induction ds with
  | nil => rfl
  | cons d ds ih => exact congrArg (d.sections ++ ·) ih

theorem constants_join (ds : List Draft) : (join ds).constants = ds.flatMap constants := by
  induction ds with
  | nil => rfl
  | cons d ds ih => exact congrArg (d.constants ++ ·) ih

theorem apart_join_iff {d : Draft} {ds : List Draft} :
    d.Apart (join ds) ↔ ∀ e ∈ ds, d.Apart e := by
  induction ds with
  | nil => exact ⟨fun _ e he => (nomatch he), fun _ => ⟨fun _ _ c hc => (nomatch hc),
      fun _ _ y hy => (nomatch hy)⟩⟩
  | cons e ds ih =>
    rw [List.forall_mem_cons, ← ih]
    constructor
    · intro h
      have := apart_above_iff.mp h.symm
      exact ⟨this.1.symm, this.2.symm⟩
    · rintro ⟨he, hds⟩
      exact (apart_above_iff.mpr ⟨he.symm, hds.symm⟩).symm

/-- **A source is read bank by bank**: each on its own, and one over the other in the end. -/
theorem readLines?_flatten {parts : List (List (List Char))} {c : Draft}
    (hparts : ∀ part ∈ parts, ∃ line ∈ part.head?, BeginsBank line) (es : List Draft)
    (hes : es.Pairwise Apart) :
    readLines? s (join es) parts.flatten = some c ↔
      ∃ ds, List.Forall₂ (fun part d => readLines? s {} part = some d) parts ds ∧
        (ds.reverse ++ es).Pairwise Apart ∧ c = join (ds.reverse ++ es) := by
  induction parts generalizing es with
  | nil =>
    simp only [List.forall₂_nil_left_iff, exists_eq_left, List.reverse_nil, List.nil_append, hes,
      true_and, List.flatten_nil]
    exact ⟨fun h => (Option.some.inj h).symm, fun h => congrArg some h.symm⟩
  | cons part parts ih =>
    obtain ⟨hpart, hparts⟩ := List.forall_mem_cons.mp hparts
    have hsplit : readLines? s (join es) (part :: parts).flatten
        = (readLines? s (join es) part).bind fun c₁ => readLines? s c₁ parts.flatten := by
      rw [List.flatten_cons, readLines?_append]
    have hstack (d : Draft) (ds : List Draft) :
        (d :: ds).reverse ++ es = ds.reverse ++ d :: es := by
      rw [List.reverse_cons, List.append_assoc, List.singleton_append]
    rw [hsplit, Option.bind_eq_some_iff]
    constructor
    · rintro ⟨c₁, h₁, h⟩
      obtain ⟨d, hd, hapart, rfl⟩ := (readLines?_eq_some_iff hpart).mp h₁
      have hes' : (d :: es).Pairwise Apart := List.pairwise_cons.mpr ⟨apart_join_iff.mp hapart, hes⟩
      obtain ⟨ds, hds, hpairwise, rfl⟩ := (ih hparts _ hes').mp h
      exact ⟨d :: ds, .cons hd hds, (hstack d ds).symm ▸ hpairwise, by rw [hstack]⟩
    · rintro ⟨_, hds, hpairwise, hc⟩
      obtain ⟨d, ds, hd, hrest, rfl⟩ := List.forall₂_cons_left_iff.mp hds
      rw [hstack] at hpairwise hc
      have hes' := (List.pairwise_append.mp hpairwise).2.1
      have hapart := apart_join_iff.mpr (List.pairwise_cons.mp hes').1
      exact ⟨join (d :: es), (readLines?_eq_some_iff hpart).mpr ⟨d, hd, hapart, rfl⟩,
        (ih hparts _ hes').mpr ⟨ds, hrest, hpairwise, hc⟩⟩

/-- **The same banks in another order make the same draft**, up to the order of banks and names. -/
theorem readLines?_perm {parts parts' : List (List (List Char))} {c : Draft}
    (hparts : ∀ part ∈ parts, ∃ line ∈ part.head?, BeginsBank line) (hperm : parts.Perm parts')
    (h : readLines? s {} parts.flatten = some c) :
    ∃ c', readLines? s {} parts'.flatten = some c' ∧ c.sections.Perm c'.sections ∧
      c.constants.Perm c'.constants := by
  have hparts' : ∀ part ∈ parts', ∃ line ∈ part.head?, BeginsBank line := fun part hpart =>
    hparts part (hperm.mem_iff.mpr hpart)
  obtain ⟨ds, hds, hpairwise, rfl⟩ := (readLines?_flatten hparts [] .nil).mp h
  obtain ⟨ds', hds', hperm'⟩ := List.perm_comp_forall₂ hperm.symm hds
  have hstack : (ds.reverse ++ []).Perm (ds'.reverse ++ []) := by
    rw [List.append_nil, List.append_nil]
    exact (ds.reverse_perm.trans hperm'.symm).trans ds'.reverse_perm.symm
  refine ⟨join (ds'.reverse ++ []), (readLines?_flatten hparts' [] .nil).mpr
    ⟨ds', hds', hstack.pairwise hpairwise fun h => h.symm, rfl⟩, ?_, ?_⟩
  · rw [sections_join, sections_join]
    exact hstack.flatMap_right _
  · rw [constants_join, constants_join]
    exact hstack.flatMap_right _

/-! ## What a draft becomes -/

/-- The names of a draft are different. -/
theorem nodup_names_of_readLines? {d d' : Draft} {lines : List (List Char)}
    (h : readLines? s d lines = some d') (hd : (d.constants.map Prod.fst).Nodup) :
    (d'.constants.map Prod.fst).Nodup := by
  induction lines generalizing d with
  | nil =>
    obtain rfl := Option.some.inj h
    exact hd
  | cons line lines ih =>
    rw [readLines?, List.foldlM_cons] at h
    obtain ⟨d₁, h₁, h⟩ := Option.bind_eq_some_iff.mp h
    refine ih h ?_
    rcases readLine?_eq_some h₁ with rfl | ⟨b, b', bs, -, -, rfl⟩ | ⟨bank, name, hbegin⟩
    · exact hd
    · exact hd
    · obtain ⟨-, hname, rfl⟩ := begin_eq_ok_iff.mp hbegin
      cases name with
      | none => exact hd
      | some k =>
        refine List.nodup_cons.mpr ⟨fun hk => ?_, hd⟩
        obtain ⟨x, hx, heq⟩ := List.mem_map.mp hk
        exact hname k rfl x hx heq

end Draft

/-- A name stands for the same byte in any order of different names. -/
theorem lookup_eq_of_perm {xs ys : List (String × UInt8)} (h : xs.Perm ys)
    (hxs : (xs.map Prod.fst).Nodup) (k : String) : xs.lookup k = ys.lookup k := by
  induction h with
  | nil => rfl
  | cons x _ ih => rw [List.lookup_cons, List.lookup_cons, ih (List.nodup_cons.mp hxs).2]
  | swap x y l =>
    rw [List.map_cons, List.map_cons, List.nodup_cons] at hxs
    have hne : y.1 ≠ x.1 := fun heq => hxs.1 (heq ▸ List.mem_cons_self)
    rw [List.lookup_cons, List.lookup_cons, List.lookup_cons, List.lookup_cons]
    cases hx : k == x.1 with
    | false => rfl
    | true =>
      have hy : (k == y.1) = false :=
        beq_eq_false_iff_ne.mpr fun hy => hne (hy.symm.trans (beq_iff_eq.mp hx))
      rw [hy]
  | trans h₁ _ ih₁ ih₂ => exact (ih₁ hxs).trans (ih₂ ((h₁.map Prod.fst).nodup_iff.mp hxs))

theorem Section.atoms_congr {constants constants' : List (String × UInt8)}
    (h : ∀ k, constants.lookup k = constants'.lookup k) (b : Section) :
    b.atoms constants = b.atoms constants' := by
  have hresolve : b.resolve constants = b.resolve constants' := by
    funext t
    obtain ⟨t, n⟩ := t
    cases t with
    | instruction i => rfl
    | literal l =>
      cases l with
      | value v => rfl
      | symbol name => rw [resolve, resolve, lookup, lookup, h]
  rw [atoms, atoms, hresolve]

namespace Draft

/-- **The order of banks and names does not show in a program.** -/
theorem Yields.of_perm {d d' : Draft} {p : Program} (h : d.Yields p)
    (hsections : d.sections.Perm d'.sections) (hconstants : d.constants.Perm d'.constants)
    (hnames : (d.constants.map Prod.fst).Nodup) : d'.Yields p where
  bank b hb := by
    rw [← b.atoms_congr (lookup_eq_of_perm hconstants hnames)]
    exact h.bank b (hsections.mem_iff.mpr hb)
  other i hi := h.other i fun b hb => hi b (hsections.mem_iff.mp hb)

end Draft

end Protocell.Assembly

namespace Protocell

open Assembly Draft

/-- **The order of the banks does not matter.**  Let a source consist of parts that begin with a
bank line each, with nothing but blank and comment lines before them.  If it assembles, then so does
every source that has the same parts in another order, to the same program.  (A part may hold
further bank lines, which then move with it.) -/
theorem assemble_perm {s : InstructionSet} {source source' : String} {p : Program}
    {preamble : List (List Char)} {parts parts' : List (List (List Char))}
    (hsource : Text.lines source.toList = preamble ++ parts.flatten)
    (hsource' : Text.lines source'.toList = preamble ++ parts'.flatten)
    (hpreamble : ∀ line ∈ preamble, IsBlank line)
    (hparts : ∀ part ∈ parts, ∃ line ∈ part.head?, BeginsBank line)
    (hperm : parts.Perm parts') (h : assemble s source = .ok p) : assemble s source' = .ok p := by
  obtain ⟨d, hd, hfinish⟩ := bind_eq_ok_iff.mp h
  have hskip (rest : List (List Char)) :
      readLines? s {} (preamble ++ rest) = readLines? s {} rest := by
    rw [readLines?_append, readLines?_of_isBlank hpreamble]
    rfl
  -- What the lines say, less their numbers.
  have hread : readLines? s {} parts.flatten = some d.unnumbered := by
    rw [← hskip, ← hsource, readLines?_eq_ofLines, hd]
    rfl
  obtain ⟨c, hc, hsections, hconstants⟩ := readLines?_perm hparts hperm hread
  rw [← hskip, ← hsource', readLines?_eq_ofLines] at hc
  obtain ⟨d', hd', rfl⟩ := Option.map_eq_some_iff.mp hc
  rw [toOption_eq_some_iff] at hd'
  have hyields := (finish_eq_ok_iff (nodup_of_ofLines hd)).mp hfinish
  refine bind_eq_ok_iff.mpr ⟨d', hd', (finish_eq_ok_iff (nodup_of_ofLines hd')).mpr ?_⟩
  exact yields_unnumbered_iff.mp ((yields_unnumbered_iff.mpr hyields).of_perm hsections hconstants
    (nodup_names_of_readLines? hread List.nodup_nil))

/-- Two banks change places.  The first names the second, which is not begun yet, and the second has
a label that hides the name of the first. -/
theorem assemble_two_banks_turned_round :
    ∃ p, assemble .standard "; two\n.prg 3 aux\nCALL @main\n.prg 0 main\n:aux\nJUMP @aux\n"
        = .ok p ∧
      assemble .standard "; two\n.prg 0 main\n:aux\nJUMP @aux\n.prg 3 aux\nCALL @main\n"
        = .ok p := by
  have hok : (assemble .standard
      "; two\n.prg 3 aux\nCALL @main\n.prg 0 main\n:aux\nJUMP @aux\n").toOption.isSome = true := by
    decide +kernel
  obtain ⟨p, hp⟩ := Option.isSome_iff_exists.mp hok
  rw [toOption_eq_some_iff] at hp
  let preamble : List (List Char) := ["; two".toList]
  let aux : List (List Char) := [".prg 3 aux".toList, "CALL @main".toList]
  let main : List (List Char) := [".prg 0 main".toList, ":aux".toList, "JUMP @aux".toList]
  have hsource : Text.lines "; two\n.prg 3 aux\nCALL @main\n.prg 0 main\n:aux\nJUMP @aux\n".toList
      = preamble ++ [aux, main].flatten := by decide +kernel
  have hsource' : Text.lines "; two\n.prg 0 main\n:aux\nJUMP @aux\n.prg 3 aux\nCALL @main\n".toList
      = preamble ++ [main, aux].flatten := by decide +kernel
  exact ⟨p, hp, assemble_perm hsource hsource' (by decide +kernel) (by decide +kernel)
    (.swap main aux []) hp⟩

end Protocell
