import Protocell.Proofs.Source.Numbering

/-!
# Proofs/Source/Shape — what reading a source sees of its tokens

While lines are read, tokens are counted and not looked at.  So every change of a section commutes
with making all its tokens zeros (`Draft.add_shape`), and sources that differ in tokens alone are
read alike: with drafts of one shape, or with the same error (`foldlM_addLine_shape`).
-/

namespace Protocell.Assembly

/-- A section with zeros for its tokens. -/
def Section.shape (b : Section) : Section :=
  { b with tokens := b.tokens.map fun t => (Token.byte 0, t.2) }

/-- A draft with zeros for its tokens. -/
def Draft.shape (d : Draft) : Draft := d.mapSections Section.shape

/-- A statement with zeros for its tokens. -/
def Statement.shape : Statement → Statement
  | .tokens ts => .tokens (ts.map fun _ => Token.byte 0)
  | st => st

namespace Section

theorem offset_shape (b : Section) : b.shape.offset = b.offset := List.length_map _

theorem extend_shape (b : Section) (n : ℕ) (ts : List Token) :
    b.shape.extend n (ts.map fun _ => Token.byte 0) = (b.extend n ts).map shape := by
  rw [extend, extend, offset_shape, List.length_map]
  split
  · rfl
  · simp only [Except.map, shape, List.map_append, List.map_map, Function.comp_def]

theorem define_shape (b : Section) (name : String) :
    b.shape.define name = (b.define name).map shape := by
  have hlabels : b.shape.labels = b.labels := rfl
  rw [define, define, offset_shape, hlabels]
  split
  · rfl
  · split
    · rfl
    · rfl

theorem advance_shape (b : Section) (n : ℕ) (origin : UInt8) :
    b.shape.advance n origin = (b.advance n origin).map shape := by
  rw [advance, advance, offset_shape]
  split
  · rfl
  · rw [← extend_shape, List.map_replicate]

end Section

namespace Draft

theorem add_shape (d : Draft) (n : ℕ) (statement : Statement) :
    d.shape.add n statement.shape = (d.add n statement).map shape := by
  cases statement with
  | bank index name => exact d.begin_mapSections name (fun _ => rfl) rfl
  | label name => exact modifyCurrent_mapSections fun b => b.define_shape name
  | tokens ts => exact modifyCurrent_mapSections fun b => b.extend_shape n ts
  | origin offset => exact modifyCurrent_mapSections fun b => b.advance_shape n offset

/-- Takes what is read off a line. -/
def take (d : Draft) (n : ℕ) : Except Cause (Option Statement) → Except Error Draft
  | .error c => .error ⟨n, c⟩
  | .ok none => .ok d
  | .ok (some statement) =>
    match d.add n statement with
    | .error c => .error ⟨n, c⟩
    | .ok d => .ok d

theorem addLine_eq_take (s : InstructionSet) (d : Draft) (l : List Char × ℕ) :
    addLine s d l = d.take l.2 (Statement.parse? s l.1) := rfl

theorem take_shape (d : Draft) (n : ℕ) (r : Except Cause (Option Statement)) :
    d.shape.take n (r.map (Option.map Statement.shape)) = (d.take n r).map shape := by
  cases r with
  | error c => rfl
  | ok st =>
    cases st with
    | none => rfl
    | some st =>
      change (match d.shape.add n st.shape with | .error c => _ | .ok d => _) = _
      rw [add_shape]
      change _ = Except.map shape (match d.add n st with | .error c => _ | .ok d => _)
      cases d.add n st with
      | error c => rfl
      | ok d' => rfl

/-- **Lines of one shape are read alike.** -/
theorem foldlM_addLine_shape {s : InstructionSet} {ls ms : List (List Char × ℕ)}
    (h : List.Forall₂ (fun l m => l.2 = m.2 ∧
      (Statement.parse? s l.1).map (Option.map Statement.shape)
        = (Statement.parse? s m.1).map (Option.map Statement.shape)) ls ms)
    {d e : Draft} (hd : d.shape = e.shape) :
    (ls.foldlM (addLine s) d).map shape = (ms.foldlM (addLine s) e).map shape := by
  induction h generalizing d e with
  | nil => exact congrArg Except.ok hd
  | @cons l m ls ms hlm _ ih =>
    have hline : (addLine s d l).map shape = (addLine s e m).map shape := by
      rw [addLine_eq_take, addLine_eq_take, ← take_shape, ← take_shape, hd, hlm.1, hlm.2]
    rw [List.foldlM_cons, List.foldlM_cons]
    cases hl : addLine s d l with
    | error x =>
      cases hm : addLine s e m with
      | error y =>
        rw [hl, hm] at hline
        exact congrArg Except.error (Except.error.inj hline)
      | ok e' =>
        rw [hl, hm] at hline
        cases hline
    | ok d' =>
      cases hm : addLine s e m with
      | error y =>
        rw [hl, hm] at hline
        cases hline
      | ok e' =>
        rw [hl, hm] at hline
        exact ih (Except.ok.inj hline)

end Draft

end Protocell.Assembly
