import Protocell.Proofs.Source.Sections

/-!
# Proofs/Source/Numbering — line numbers matter to errors alone

A section keeps the number of its line with each token, for the sake of errors.  Where there is no
error the numbers are as good as forgotten: every change of a section commutes with forgetting them
(`Draft.add_unnumbered`), so that a source can be read without numbers (`readLines?_unnumbered`) and
becomes the same program (`yields_unnumbered_iff`).
-/

namespace Protocell.Assembly

/-- A section less the numbers of its lines. -/
def Section.unnumbered (b : Section) : Section :=
  { b with line := 0, tokens := b.tokens.map fun t => (t.1, 0) }

/-- A draft less the numbers of its lines. -/
def Draft.unnumbered (d : Draft) : Draft := { d with sections := d.sections.map Section.unnumbered }

namespace Section

theorem offset_unnumbered (b : Section) : b.unnumbered.offset = b.offset := List.length_map _

theorem extend_unnumbered (b : Section) (n : ℕ) (ts : List Token) :
    b.unnumbered.extend 0 ts = (b.extend n ts).map unnumbered := by
  rw [extend, extend, offset_unnumbered]
  split
  · rfl
  · simp only [Except.map, unnumbered, List.map_append, List.map_map, Function.comp_def]

theorem define_unnumbered (b : Section) (name : String) :
    b.unnumbered.define name = (b.define name).map unnumbered := by
  have hlabels : b.unnumbered.labels = b.labels := rfl
  rw [define, define, offset_unnumbered, hlabels]
  split
  · rfl
  · by_cases hname : (b.labels.lookup name).isSome = true
    · rw [if_pos hname, if_pos hname]
      rfl
    · rw [if_neg hname, if_neg hname]
      rfl

theorem advance_unnumbered (b : Section) (n : ℕ) (origin : UInt8) :
    b.unnumbered.advance 0 origin = (b.advance n origin).map unnumbered := by
  rw [advance, advance, offset_unnumbered]
  split
  · rfl
  · exact b.extend_unnumbered n _

/-- What a token stands for does not depend on its line. -/
theorem resolve_unnumbered {constants : List (String × UInt8)} {b : Section} {t : Token} {n : ℕ}
    {a : Atom} : b.unnumbered.resolve constants (t, 0) = .ok a ↔
      b.resolve constants (t, n) = .ok a := by
  cases t with
  | instruction i => exact Iff.rfl
  | literal l =>
    cases l with
    | value v => exact Iff.rfl
    | symbol name =>
      have hlookup : b.unnumbered.lookup constants name = b.lookup constants name := rfl
      rw [resolve, resolve, hlookup]
      cases b.lookup constants name with
      | some v => exact Iff.rfl
      | none => exact ⟨fun h => (nomatch h), fun h => (nomatch h)⟩

theorem atoms_unnumbered {constants : List (String × UInt8)} {b : Section} {as : List Atom} :
    b.unnumbered.atoms constants = .ok as ↔ b.atoms constants = .ok as := by
  rw [atoms, atoms, mapM_eq_ok_iff, mapM_eq_ok_iff, unnumbered, List.forall₂_map_left_iff]
  exact ⟨List.Forall₂.imp fun _ _ => resolve_unnumbered.mp,
    List.Forall₂.imp fun _ _ => resolve_unnumbered.mpr⟩

end Section

namespace Draft

theorem add_unnumbered (d : Draft) (n : ℕ) (statement : Statement) :
    d.unnumbered.add 0 statement = (d.add n statement).map unnumbered := by
  cases statement with
  | bank index name => exact d.begin_mapSections name (fun _ => rfl) rfl
  | label name => exact modifyCurrent_mapSections fun b => b.define_unnumbered name
  | tokens ts => exact modifyCurrent_mapSections fun b => b.extend_unnumbered n ts
  | origin offset => exact modifyCurrent_mapSections fun b => b.advance_unnumbered n offset

/-- The draft after one more line, if the line has no fault. -/
def readLine? (s : InstructionSet) (d : Draft) (line : List Char) : Option Draft :=
  match Statement.parse? s line with
  | .error _ => none
  | .ok none => some d
  | .ok (some statement) => (d.add 0 statement).toOption

/-- The draft after some more lines, if none of them has a fault. -/
def readLines? (s : InstructionSet) (d : Draft) (lines : List (List Char)) : Option Draft :=
  lines.foldlM (readLine? s) d

theorem readLines?_append (s : InstructionSet) (d : Draft) (xs ys : List (List Char)) :
    readLines? s d (xs ++ ys) = (readLines? s d xs).bind fun d => readLines? s d ys := by
  rw [readLines?, List.foldlM_append]
  rfl

theorem readLine?_unnumbered (s : InstructionSet) (d : Draft) (l : List Char × ℕ) :
    readLine? s d.unnumbered l.1 = (addLine s d l).toOption.map unnumbered := by
  rw [readLine?, addLine]
  cases Statement.parse? s l.1 with
  | error e => rfl
  | ok statement? =>
    cases statement? with
    | none => rfl
    | some statement =>
      simp only [d.add_unnumbered l.2]
      cases d.add l.2 statement with
      | error e => rfl
      | ok d' => rfl

/-- **Line numbers matter to errors alone.** -/
theorem readLines?_unnumbered (s : InstructionSet) (d : Draft) (lines : List (List Char × ℕ)) :
    readLines? s d.unnumbered (lines.map Prod.fst)
      = (lines.foldlM (addLine s) d).toOption.map unnumbered := by
  induction lines generalizing d with
  | nil => rfl
  | cons l lines ih =>
    rw [readLines?, List.map_cons, List.foldlM_cons, List.foldlM_cons, readLine?_unnumbered]
    cases addLine s d l with
    | error e => rfl
    | ok d' => exact ih d'

theorem readLines?_eq_ofLines (s : InstructionSet) (lines : List (List Char)) :
    readLines? s {} lines = (ofLines s lines).toOption.map unnumbered := by
  have h := readLines?_unnumbered s {} (lines.zipIdx 1)
  rw [List.zipIdx_map_fst] at h
  exact h

/-- **Line numbers do not show in a program.** -/
theorem yields_unnumbered_iff {d : Draft} {p : Program} : d.unnumbered.Yields p ↔ d.Yields p := by
  have hbank (b : Section) : b.unnumbered.bank = b.bank := rfl
  constructor
  · intro h
    refine ⟨fun b hb => ?_, fun i hi => h.other i (List.forall_mem_map.mpr hi)⟩
    obtain ⟨as, has, hget⟩ := h.bank _ (List.mem_map_of_mem hb)
    exact ⟨as, Section.atoms_unnumbered.mp has, hget⟩
  · intro h
    refine ⟨List.forall_mem_map.mpr fun b hb => ?_,
      fun i hi => h.other i fun b hb => hi b.unnumbered (List.mem_map_of_mem hb)⟩
    obtain ⟨as, has, hget⟩ := h.bank b hb
    exact ⟨as, Section.atoms_unnumbered.mpr has, hget⟩

end Draft

end Protocell.Assembly
