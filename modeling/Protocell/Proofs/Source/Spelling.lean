import Protocell.Proofs.Source.LineCode

/-!
# Proofs/Source/Spelling — lines that spell expressions

Code is written in prefix order, and a line is read last word first, so that the atoms of the words
come to stand in execution order (`Draft.mapM_resolve_of_spells`).  A line is read as code unless it
begins with a dot or a colon (`parse?_of_codeWords`).
-/

namespace Protocell

namespace Assembly

namespace Tree

mutual

/-- The atoms of an expression in prefix order: an instruction stands before its arguments, slot 0
first. -/
def prefixed : Tree → List Atom
  | leaf v => [.byte v]
  | node i ts => .instruction i :: prefixes ts

/-- The atoms of arguments in prefix order, slot 0 first. -/
def prefixes : List Tree → List Atom
  | [] => []
  | t :: ts => prefixed t ++ prefixes ts

end

theorem reverse_prefixes {ts : List Tree} (h : ∀ t ∈ ts, t.prefixed.reverse = t.row) :
    (prefixes ts).reverse = rows ts := by
  induction ts with
  | nil => rfl
  | cons t ts ih =>
    obtain ⟨ht, hts⟩ := List.forall_mem_cons.mp h
    rw [prefixes, rows, List.reverse_append, ht, ih hts]

/-- **Prefix order is execution order read backwards.** -/
theorem reverse_prefixed (t : Tree) : t.prefixed.reverse = t.row := by
  induction t with
  | leaf v => rfl
  | node i ts ih => rw [prefixed, row, List.reverse_cons, reverse_prefixes ih]

end Tree

/-! ## Words of a line -/

/-- The words of a code line. -/
def codeWords (line : List Char) : List (List Char) := Text.words (Text.trim (stripComment line))

/-- Whether a line is code: not blank, no directive and no label. -/
def isCode (line : List Char) : Bool :=
  match Text.trim (stripComment line) with
  | [] | '.' :: _ | ':' :: _ => false
  | _ => true

/-- What a word of line `n` stands for, with the names that are known in the bank of the line. -/
def Draft.atomOf? (s : InstructionSet) (d : Draft) (n : ℕ) (word : List Char) : Option Atom := do
  let b ← d.sectionOf? n
  let t ← (Token.parse s word).toOption
  (b.resolve d.constants (t, n)).toOption

/-- **Line `n` spells an expression**: its words stand for the atoms of the expression in prefix
order. -/
def Draft.Spells (s : InstructionSet) (d : Draft) (n : ℕ) (line : List Char) (t : Tree) : Prop :=
  (codeWords line).map (d.atomOf? s n) = t.prefixed.map some

theorem Draft.atomOf?_eq_some {s : InstructionSet} {d : Draft} {n : ℕ} {word : List Char} {a : Atom}
    (h : d.atomOf? s n word = some a) :
    ∃ b t, d.sectionOf? n = some b ∧ Token.parse s word = .ok t ∧
      b.resolve d.constants (t, n) = .ok a := by
  obtain ⟨b, hb, h⟩ := Option.bind_eq_some_iff.mp h
  obtain ⟨t, ht, h⟩ := Option.bind_eq_some_iff.mp h
  exact ⟨b, t, hb, toOption_eq_some_iff.mp ht, toOption_eq_some_iff.mp h⟩

/-- **Read last word first, a line that spells an expression is the row of the expression.** -/
theorem Draft.mapM_resolve_of_spells {s : InstructionSet} {d : Draft} {n : ℕ} {line : List Char}
    {t : Tree} {b : Section} (h : d.Spells s n line t) (hb : d.sectionOf? n = some b) :
    ∃ ts, (codeWords line).mapM (Token.parse s) = .ok ts ∧
      ts.reverse.mapM (fun u => b.resolve d.constants (u, n)) = .ok t.row := by
  have hatoms : List.Forall₂ (fun w a => d.atomOf? s n w = some a) (codeWords line) t.prefixed := by
    rw [Spells, ← List.forall₂_eq_eq_eq, List.forall₂_map_left_iff, List.forall₂_map_right_iff] at h
    exact h
  have htokens (words : List (List Char)) (atoms : List Atom)
      (h : List.Forall₂ (fun w a => d.atomOf? s n w = some a) words atoms) :
      ∃ ts, List.Forall₂ (fun w t => Token.parse s w = .ok t) words ts ∧
        List.Forall₂ (fun t a => b.resolve d.constants (t, n) = .ok a) ts atoms := by
    induction h with
    | nil => exact ⟨[], .nil, .nil⟩
    | cons hw _ ih =>
      obtain ⟨ts, hparse, hresolve⟩ := ih
      obtain ⟨b', t, hb', ht, ha⟩ := atomOf?_eq_some hw
      obtain rfl := Option.some.inj (hb.symm.trans hb')
      exact ⟨t :: ts, .cons ht hparse, .cons ha hresolve⟩
  obtain ⟨ts, hparse, hresolve⟩ := htokens _ _ hatoms
  refine ⟨ts, mapM_eq_ok_iff.mpr hparse, mapM_eq_ok_iff.mpr ?_⟩
  rw [← t.reverse_prefixed]
  exact List.rel_reverse hresolve

/-- Only a token of an instruction stands for one. -/
theorem Section.eq_of_resolve_instruction {constants : List (String × UInt8)} {b : Section}
    {u : Token} {n : ℕ} {i : Instruction} (h : b.resolve constants (u, n) = .ok (.instruction i)) :
    u = .instruction i := by
  cases u with
  | instruction j =>
    obtain rfl := Atom.instruction.inj (Except.ok.inj h)
    rfl
  | literal l =>
    cases l with
    | value v => cases h
    | symbol name =>
      rw [resolve] at h
      split at h
      · cases h
      · cases h

/-- Only a name of an instruction is read as one. -/
theorem Token.lookup_of_parse {s : InstructionSet} {word : List Char} {i : Instruction}
    (h : parse s word = .ok (.instruction i)) : s.lookup (.ofList word) = some i := by
  rw [parse] at h
  split at h
  · rename_i j hj
    obtain rfl := Token.instruction.inj (Except.ok.inj h)
    exact hj
  · split at h
    · cases hliteral : Literal.parse word with
      | error e =>
        rw [hliteral] at h
        cases h
      | ok l =>
        rw [hliteral] at h
        cases h
    · cases h

/-- **A line that spells an expression begins with the name of its instruction.** -/
theorem Draft.Spells.exists_lookup {s : InstructionSet} {d : Draft} {n : ℕ} {line : List Char}
    {i : Instruction} {ts : List Tree} (h : d.Spells s n line (.node i ts)) :
    ∃ w ws b, codeWords line = w :: ws ∧ s.lookup (.ofList w) = some i ∧
      d.sectionOf? n = some b := by
  rw [Spells, Tree.prefixed, List.map_cons] at h
  obtain ⟨w, ws, hwords, hw, -⟩ := List.map_eq_cons_iff.mp h
  obtain ⟨b, u, hb, hparse, hresolve⟩ := atomOf?_eq_some hw
  obtain rfl := Section.eq_of_resolve_instruction hresolve
  exact ⟨w, ws, b, hwords, Token.lookup_of_parse hparse, hb⟩

/-! ## Which lines are code -/

/-- A word that has begun goes on. -/
theorem wordsFrom_of_ne_nil {word : List Char} (h : word ≠ []) (cs : List Char) :
    ∃ tail ws, Text.wordsFrom word cs = (word.reverse ++ tail) :: ws := by
  induction cs generalizing word with
  | nil =>
    refine ⟨[], [], ?_⟩
    rw [Text.wordsFrom, if_neg (by simpa using h), List.append_nil]
  | cons c cs ih =>
    rw [Text.wordsFrom]
    split
    · exact ⟨[], _, by rw [if_neg (by simpa using h), List.append_nil]⟩
    · obtain ⟨tail, ws, hrest⟩ := ih (List.cons_ne_nil c word)
      exact ⟨c :: tail, ws, by rw [hrest, List.reverse_cons, List.append_assoc]; rfl⟩

/-- The first word of a text begins as the text does. -/
theorem words_cons {c : Char} (h : Text.isBlank c = false) (cs : List Char) :
    ∃ tail ws, Text.words (c :: cs) = (c :: tail) :: ws := by
  obtain ⟨tail, ws, hwords⟩ := wordsFrom_of_ne_nil (List.cons_ne_nil c []) cs
  refine ⟨tail, ws, ?_⟩
  rw [Text.words, Text.wordsFrom, if_neg (Bool.eq_false_iff.mp h), hwords]
  rfl

/-- **What does not begin with a dot or a colon is code.** -/
theorem parse?_of_codeWords {s : InstructionSet} {line w : List Char} {ws : List (List Char)}
    (hwords : codeWords line = w :: ws) (hdot : w.head? ≠ some '.') (hcolon : w.head? ≠ some ':') :
    Statement.parse? s line
      = (Statement.parseCode s (Text.trim (stripComment line))).map some := by
  rw [codeWords] at hwords
  rw [Statement.parse?]
  split
  · rename_i htext
    rw [htext] at hwords
    cases hwords
  · rename_i text htext
    obtain ⟨tail, vs, hvs⟩ := words_cons (c := '.') (by decide) text
    rw [htext, hvs] at hwords
    obtain ⟨rfl, rfl⟩ := List.cons.inj hwords
    exact absurd rfl hdot
  · rename_i text htext
    obtain ⟨tail, vs, hvs⟩ := words_cons (c := ':') (by decide) text
    rw [htext, hvs] at hwords
    obtain ⟨rfl, rfl⟩ := List.cons.inj hwords
    exact absurd rfl hcolon
  · rfl

/-- **The tokens of a code line are its words, the last one first.** -/
theorem parse?_of_isCode {line : List Char} (h : isCode line = true) (s : InstructionSet) :
    Statement.parse? s line
      = ((codeWords line).mapM (Token.parse s)).map fun ts => some (.tokens ts.reverse) := by
  have hcode : Statement.parse? s line
      = (Statement.parseCode s (Text.trim (stripComment line))).map some := by
    rw [isCode] at h
    rw [Statement.parse?]
    split
    · rename_i htext
      rw [htext] at h
      cases h
    · rename_i htext
      rw [htext] at h
      cases h
    · rename_i htext
      rw [htext] at h
      cases h
    · rfl
  rw [hcode, Statement.parseCode, codeWords]
  cases (Text.words (Text.trim (stripComment line))).mapM (Token.parse s) with
  | error c => rfl
  | ok ts => rfl

end Assembly

end Protocell
