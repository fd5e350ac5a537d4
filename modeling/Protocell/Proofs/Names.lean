import Protocell.Proofs.Capacity
import Protocell.Proofs.Source.Respelling

/-!
# Proofs/Names — what names stand for

A name in a bank stands for the label of that name there, wherever in the bank, and else for the
bank so called, wherever in the source.  Names are resolved token by token when all lines are in, so
that resolving fails at the first name that stands for nothing (`finish_eq_error_iff_stream`).

If it does not fail, the names could as well have been written as numbers (`finish_of_replaced`),
just if no quote in a name keeps a semicolon from beginning a comment (`exists_namesReplaced_iff`).
-/

namespace Protocell.Assembly

/-! ## Known names -/

/-- **The tokens of all banks**, in the order in which the banks are begun, each with its bank and
its line. -/
def stream (s : InstructionSet) (ps : List Part) : List (Part × Token × ℕ) :=
  ps.flatMap fun p => (p.tokens s).map fun t => (p, t)

/-- **A bank knows a name**: one of its lines is a label of that name, or some bank is called so. -/
def Part.Knows (s : InstructionSet) (ps : List Part) (p : Part) (name : String) : Prop :=
  (∃ l ∈ p.body, label? s l.1 = some name) ∨ ∃ q ∈ ps, q.name = some name

namespace Part

variable {s : InstructionSet} {ps : List Part} {p : Part} {name : String}

/-- **A name stands for a number just where it is known.** -/
theorem value?_eq_none_iff : p.value? s ps name = none ↔ ¬ p.Knows s ps name := by
  have hconstants : (∃ v, (name, v) ∈ ps.filterMap constant?) ↔ ∃ q ∈ ps, q.name = some name := by
    simp only [List.mem_filterMap, constant?, Option.map_eq_some_iff, Prod.mk.injEq]
    constructor
    · rintro ⟨v, q, hq, k, hk, rfl, -⟩
      exact ⟨q, hq, hk⟩
    · rintro ⟨q, hq, hk⟩
      exact ⟨q.bank, q, hq, name, hk, rfl, rfl⟩
  rw [value?, Option.or_eq_none_iff, lookup_eq_none_iff_forall, lookup_eq_none_iff_forall, labels,
    exists_mem_labelsFrom_iff, hconstants, ← not_or, Knows]

end Part

namespace Draft

variable {s : InstructionSet} {lines : List (List Char)} {d : Draft} {p : Part}

/-- A token cannot be resolved if it is a name that its bank does not know. -/
theorem resolve_part_eq_error_iff (h : ofLines s lines = .ok d) (hp : p ∈ parts s lines)
    {t : Token × ℕ} {e : Error} :
    (p.toSection s).resolve d.constants t = .error e ↔
      ∃ name, t.1 = .literal (.symbol name) ∧ ¬ p.Knows s (parts s lines) name ∧
        e = ⟨t.2, .unresolvedName p.bank name⟩ := by
  rw [Section.resolve_eq_error_iff]
  simp only [lookup_toSection h hp, Part.value?_eq_none_iff]
  rfl

theorem resolve_part_eq_ok_iff (h : ofLines s lines = .ok d) (hp : p ∈ parts s lines)
    {t : Token × ℕ} :
    (∃ a, (p.toSection s).resolve d.constants t = .ok a) ↔
      ∀ name, t.1 = .literal (.symbol name) → p.Knows s (parts s lines) name := by
  rw [exists_eq_ok_iff]
  constructor
  · intro hok name hname
    by_contra hknows
    exact hok _ ((resolve_part_eq_error_iff h hp).mpr ⟨name, hname, hknows, rfl⟩)
  · intro hknows e he
    obtain ⟨name, hname, hnot, -⟩ := (resolve_part_eq_error_iff h hp).mp he
    exact hnot (hknows name hname)

/-- Finishing a draft fails as resolving its tokens one after another does. -/
theorem finish_eq_error_iff_mapM (h : ofLines s lines = .ok d) {e : Error} :
    d.finish = .error e ↔ (stream s (parts s lines)).mapM
      (fun x => (x.1.toSection s).resolve d.constants x.2) = .error e := by
  rw [finish_eq_error_iff fun b hb => offset_le h hb, ← mapM_eq_error_iff, stream,
    mapM_flatMap_eq_error_iff]
  have hsections : d.sections.reverse = (parts s lines).map (Part.toSection s) := by
    rw [eq_ofParts h, ofParts, List.reverse_reverse]
  rw [hsections, List.mapM_map]
  simp only [List.mapM_map]
  rfl

theorem mem_parts_of_mem_stream {ps : List Part} {x : Part × Token × ℕ} (hx : x ∈ stream s ps) :
    x.1 ∈ ps := by
  obtain ⟨p, hp, hx⟩ := List.mem_flatMap.mp hx
  obtain ⟨t, -, rfl⟩ := List.mem_map.mp hx
  exact hp

/-- **Resolving fails at the first name that its bank does not know.** -/
theorem finish_eq_error_iff_stream (h : ofLines s lines = .ok d) {e : Error} :
    d.finish = .error e ↔ ∃ before p n name after,
      stream s (parts s lines) = before ++ (p, .literal (.symbol name), n) :: after ∧
      (∀ q m k, (q, .literal (.symbol k), m) ∈ before → q.Knows s (parts s lines) k) ∧
      ¬ p.Knows s (parts s lines) name ∧ e = ⟨n, .unresolvedName p.bank name⟩ := by
  have hparts {before after : List (Part × Token × ℕ)} {x : Part × Token × ℕ}
      (hsplit : stream s (parts s lines) = before ++ x :: after) :
      (∀ y ∈ before, y.1 ∈ parts s lines) ∧ x.1 ∈ parts s lines := by
    refine ⟨fun y hy => mem_parts_of_mem_stream (s := s) ?_, mem_parts_of_mem_stream (s := s) ?_⟩
    · rw [hsplit]
      exact List.mem_append_left _ hy
    · rw [hsplit]
      exact List.mem_append_right _ List.mem_cons_self
  rw [finish_eq_error_iff_mapM h, mapM_eq_error_iff]
  constructor
  · rintro ⟨before, x, after, hsplit, hbefore, hx⟩
    obtain ⟨hpast, hhere⟩ := hparts hsplit
    obtain ⟨p, t, n⟩ := x
    obtain ⟨name, rfl, hknows, rfl⟩ := (resolve_part_eq_error_iff h hhere).mp hx
    refine ⟨before, p, n, name, after, hsplit, fun q m k hmem => ?_, hknows, rfl⟩
    exact (resolve_part_eq_ok_iff h (hpast _ hmem)).mp (hbefore _ hmem) k rfl
  · rintro ⟨before, p, n, name, after, hsplit, hbefore, hknows, rfl⟩
    obtain ⟨hpast, hhere⟩ := hparts hsplit
    refine ⟨before, _, after, hsplit, fun y hy => ?_, ?_⟩
    · refine (resolve_part_eq_ok_iff h (hpast y hy)).mpr fun k hk => hbefore y.1 y.2.2 k ?_
      rw [← hk]
      exact hy
    · exact (resolve_part_eq_error_iff h hhere).mpr ⟨name, rfl, hknows, rfl⟩

/-- **Resolving succeeds if all names are known where they are used.** -/
theorem exists_finish_iff (h : ofLines s lines = .ok d) :
    (∃ q, d.finish = .ok q) ↔
      ∀ p n name, (p, .literal (.symbol name), n) ∈ stream s (parts s lines) →
        p.Knows s (parts s lines) name := by
  rw [exists_eq_ok_iff, forall_congr' fun e => not_congr (finish_eq_error_iff_mapM h),
    ← exists_eq_ok_iff, exists_mapM_eq_ok_iff]
  constructor
  · intro hok p n name hmem
    exact (resolve_part_eq_ok_iff h (mem_parts_of_mem_stream hmem)).mp (hok _ hmem) name rfl
  · intro hknows x hx
    refine (resolve_part_eq_ok_iff h (mem_parts_of_mem_stream hx)).mpr fun name hname => ?_
    refine hknows x.1 x.2.2 name ?_
    rw [← hname]
    exact hx

end Draft

end Protocell.Assembly

namespace Protocell

open Assembly

/-- **Names are resolved exactly.**  Let the lines of a source have no fault on their own.

A label stands for the number of tokens before it in its bank, and a name that is no label of a bank
for the bank so called.  The source assembles if and only if each name is one that the bank using it
knows.  Then every source in which each name is replaced by its number becomes the same program, and
there is such a source just if in the code each semicolon is between quotes without the names.  Else
the error is that of the first name, bank by bank in the order in which they are begun and token by
token, that its bank does not know. -/
theorem names_are_resolved_exactly {s : InstructionSet} {source : String} {d : Draft}
    (h : Draft.ofLines s (Text.lines source.toList) = .ok d) :
    (∀ part ∈ parts s (Text.lines source.toList),
      (∀ before l after name, part.body = before ++ l :: after → label? s l.1 = some name →
        ∃ v, part.value? s (parts s (Text.lines source.toList)) name = some v ∧
          v.toNat = (tokensFrom s 0 before).length) ∧
      ∀ other ∈ parts s (Text.lines source.toList), ∀ name, other.name = some name →
        (∀ l ∈ part.body, label? s l.1 ≠ some name) →
        part.value? s (parts s (Text.lines source.toList)) name = some other.bank) ∧
    ((∃ p, assemble s source = .ok p) ↔ ∀ part n name,
      (part, .literal (.symbol name), n) ∈ stream s (parts s (Text.lines source.toList)) →
        part.Knows s (parts s (Text.lines source.toList)) name) ∧
    (∀ p, assemble s source = .ok p →
      (∀ source', NamesReplaced s (Text.lines source.toList) (Text.lines source'.toList) →
        assemble s source' = .ok p) ∧
      ((∃ source' : String,
          NamesReplaced s (Text.lines source.toList) (Text.lines source'.toList)) ↔
        ∀ part ∈ parts s (Text.lines source.toList), ∀ l ∈ part.body,
          CoversSemicolons s l.1)) ∧
    ∀ e, assemble s source = .error e ↔ ∃ before part n name after,
      stream s (parts s (Text.lines source.toList))
          = before ++ (part, .literal (.symbol name), n) :: after ∧
        (∀ q m k, (q, .literal (.symbol k), m) ∈ before →
          q.Knows s (parts s (Text.lines source.toList)) k) ∧
        ¬ part.Knows s (parts s (Text.lines source.toList)) name ∧
        e = ⟨n, .unresolvedName part.bank name⟩ := by
  have hfinish : assemble s source = d.finish := by
    rw [assemble, h]
    rfl
  rw [hfinish]
  refine ⟨fun part hpart => ⟨fun before l after name hbody hl => ?_, fun other hother name => ?_⟩,
    Draft.exists_finish_iff h, fun p hp => ⟨fun source' hreplaced => ?_, ?_⟩,
    fun e => Draft.finish_eq_error_iff_stream h⟩
  · exact Draft.value?_of_label? h hpart hbody hl
  · exact Draft.value?_of_name h hother
  · obtain ⟨d', hd'⟩ := Draft.exists_ofLines_of_replaced h hreplaced
    exact bind_eq_ok_iff.mpr ⟨d', hd', Draft.finish_of_replaced h hreplaced hd' hp⟩
  · refine exists_namesReplaced_iff h fun part hpart name n hname => ?_
    rw [Option.isSome_iff_ne_none, ne_eq, Part.value?_eq_none_iff, not_not]
    refine (Draft.exists_finish_iff h).mp ⟨p, hp⟩ part n name ?_
    exact List.mem_flatMap.mpr ⟨part, hpart, List.mem_map.mpr ⟨_, hname, rfl⟩⟩

/-- A name is used before its label, which hides the name of a bank, and another bank is called by
its name. -/
theorem label_hides_bank_name :
    let source :=
      ".prg 3 aux\nCALL @main\n.prg 0 main\nJPIF LESS 3 PEEK @aux\n:aux\n.dat @main @aux 7\n"
    let source' :=
      ".prg 3 aux\nCALL 0\n.prg 0 main\nJPIF LESS 3 PEEK $05\n:aux\n.dat 0 5 7\n"
    ∃ p, assemble .standard source = .ok p ∧ assemble .standard source' = .ok p ∧
      ∃ plain : String,
        NamesReplaced .standard (Text.lines source.toList) (Text.lines plain.toList) := by
  intro source source'
  have hok : (assemble .standard source).toOption.isSome = true := by decide +kernel
  obtain ⟨p, hp⟩ := Option.isSome_iff_exists.mp hok
  rw [toOption_eq_some_iff] at hp
  obtain ⟨d, hd, -⟩ := bind_eq_ok_iff.mp hp
  have hreplaced :
      NamesReplaced .standard (Text.lines source.toList) (Text.lines source'.toList) := by
    decide +kernel
  have hcovers : ∀ part ∈ parts .standard (Text.lines source.toList), ∀ l ∈ part.body,
      CoversSemicolons .standard l.1 := by decide +kernel
  obtain ⟨hsame, hexists⟩ := (names_are_resolved_exactly hd).2.2.1 p hp
  exact ⟨p, hp, hsame source' hreplaced, hexists.mpr hcovers⟩

/-- **A number cannot always stand where a name stands.**  The quote in the name of a label keeps
the semicolon in the name of an instruction behind it from beginning a comment, and the number that
the label stands for does not. -/
theorem semicolon_uncovered :
    ∃ s program, InstructionSet.build [⟨.nop, "A;B", 0, 1⟩] [] = .ok s ∧
      assemble s ".prg 0\n:x\"\n@x\" A;B\n" = .ok program ∧
      (let ps := parts s (Text.lines ".prg 0\n:x\"\n@x\" A;B\n".toList)
       ps.map fun part => part.value? s ps "x\"") = [some 0] ∧
      assemble s ".prg 0\n:x\"\n0 A;B\n" = .error ⟨3, .unknownInstruction "A"⟩ := by
  refine ⟨⟨[⟨⟨.nop, "A;B", 0, 1⟩, 0⟩], []⟩, ?_⟩
  have hok : (assemble ⟨[⟨⟨.nop, "A;B", 0, 1⟩, 0⟩], []⟩ ".prg 0\n:x\"\n@x\" A;B\n").toOption.isSome
      = true := by decide +kernel
  obtain ⟨program, hprogram⟩ := Option.isSome_iff_exists.mp hok
  exact ⟨program, rfl, toOption_eq_some_iff.mp hprogram, by decide +kernel, by rfl⟩

end Protocell
