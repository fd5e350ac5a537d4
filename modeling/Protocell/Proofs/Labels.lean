import Protocell.Proofs.Folding.Locality
import Protocell.Proofs.Source.Parts

/-!
# Proofs/Labels — what labels address

A label stands for the number of tokens before it, which is taken before any literal has moved.
Folding keeps the number of bytes, so that what stands before the label alone would end right there
(`length_fold`).  If the code behind the label needs nothing from before it, then it begins there
too.
-/

namespace Protocell

open Assembly

/-- **Labels address code.**  If each instruction of a row finds all its arguments in the row, then
the row is folded apart from whatever stands before it.  Hence, in every source that assembles: a
label stands for the number of bytes that what is written before it makes up, if the bank ended
there; and if what is written behind it needs nothing from before it, then these bytes come first in
the bank, every atom in the place that it has there, and behind them what the code behind the label
is on its own. -/
theorem label_addresses_code (s : InstructionSet) :
    (∀ xs ys, IsClosed ys → fold (xs ++ ys) = fold xs ++ fold ys) ∧
    ∀ source p, assemble s source = .ok p →
      ∀ part ∈ parts s (Text.lines source.toList), ∀ before l after name,
        part.body = before ++ l :: after → label? s l.1 = some name →
        ∃ v xs ys, part.value? s (parts s (Text.lines source.toList)) name = some v ∧
          part.atoms s (parts s (Text.lines source.toList)) 0 before = .ok xs ∧
          part.atoms s (parts s (Text.lines source.toList)) v.toNat after = .ok ys ∧
          p.get? part.bank = some (fold (xs ++ ys)) ∧ (fold xs).length = v.toNat ∧
          (IsClosed ys →
            (xs ++ ys).foldl place [] = ys.foldl place [] ++ xs.foldl place [] ∧
              p.get? part.bank = some (fold xs ++ fold ys)) := by
  refine ⟨fun xs ys => fold_append xs, fun source p h part hpart before l after name hbody hl => ?_⟩
  obtain ⟨d, hd, hfinish⟩ := bind_eq_ok_iff.mp h
  obtain ⟨v, hv, hoffset⟩ := Draft.value?_of_label? hd hpart hbody hl
  obtain ⟨as, has, hbank⟩ := ((Draft.finish_eq_ok_iff_parts hd).mp hfinish).1 part hpart
  rw [hbody, Part.atoms_append_eq_ok_iff] at has
  obtain ⟨xs, ys, hxs, hys, rfl⟩ := has
  have hrest : part.atoms s (parts s (Text.lines source.toList)) v.toNat after = .ok ys := by
    rwa [Part.atoms, tokensFrom, tokensAt_of_label? hl, List.map_nil, List.nil_append, Nat.zero_add,
      ← hoffset] at hys
  refine ⟨v, xs, ys, hv, hxs, hrest, hbank, ?_, fun hclosed => ⟨foldl_place_append xs hclosed, ?_⟩⟩
  · rw [length_fold, length_of_mapM_eq_ok hxs, hoffset]
  · rw [hbank, fold_append xs hclosed]

/-- Neither the lone argument of `ADD` nor the data behind it is taken by the code behind the
label. -/
theorem loop_behind_loose_data :
    ∃ p xs ys, assemble .standard ".prg 0\nADD 1\n.dat 7 8\n:loop\nOUTB INC 41\nJUMP @loop\n"
        = .ok p ∧
      IsClosed ys ∧ p.get? 0 = some (fold xs ++ fold ys) ∧ fold xs = [64, 1, 7, 8] ∧
        fold ys = [18, 41, 39, 14, 4] := by
  let source := ".prg 0\nADD 1\n.dat 7 8\n:loop\nOUTB INC 41\nJUMP @loop\n"
  let part : Part := ⟨(".prg 0".toList, 1), 0, none, [("ADD 1".toList, 2), (".dat 7 8".toList, 3),
    (":loop".toList, 4), ("OUTB INC 41".toList, 5), ("JUMP @loop".toList, 6)]⟩
  have hparts : parts .standard (Text.lines source.toList) = [part] := by decide +kernel
  have hok : (assemble .standard source).toOption.isSome = true := by decide +kernel
  obtain ⟨p, hp⟩ := Option.isSome_iff_exists.mp hok
  rw [toOption_eq_some_iff] at hp
  obtain ⟨v, xs, ys, hv, hxs, hys, -, -, hlocal⟩ :=
    (label_addresses_code .standard).2 source p hp part
    (hparts ▸ List.mem_singleton_self part) [("ADD 1".toList, 2), (".dat 7 8".toList, 3)]
    (":loop".toList, 4) [("OUTB INC 41".toList, 5), ("JUMP @loop".toList, 6)] "loop" rfl
    (by decide +kernel)
  rw [hparts] at hv hxs hys
  obtain rfl : v = 4 := Option.some.inj (hv.symm.trans (by decide +kernel))
  have hbefore : (part.atoms .standard [part] 0
      [("ADD 1".toList, 2), (".dat 7 8".toList, 3)]).toOption.map fold = some [64, 1, 7, 8] := by
    decide +kernel
  have hafter : (part.atoms .standard [part] 4
      [("OUTB INC 41".toList, 5), ("JUMP @loop".toList, 6)]).toOption.map
        (fun ys => (fold ys, decide (IsClosed ys))) = some ([18, 41, 39, 14, 4], true) := by
    decide +kernel
  rw [hxs] at hbefore
  rw [show (4 : UInt8).toNat = 4 from rfl] at hys
  rw [hys] at hafter
  obtain ⟨hfold, hclosed⟩ := Prod.mk.inj (Option.some.inj hafter)
  rw [decide_eq_true_eq] at hclosed
  exact ⟨p, xs, ys, hp, hclosed, (hlocal hclosed).2, Option.some.inj hbefore, hfold⟩

end Protocell
