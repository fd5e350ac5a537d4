import Protocell.Assembly.Draft
import Protocell.Proofs.Success

/-!
# Proofs/Source/Reading — what reading a line on its own tells

How many bytes a line puts into its bank is seen from its text and the offset alone: one for each
word of a code line, each operand of `.dat` and each zero of `.org`, and for `.str` the bytes of the
text and a zero (`Statement.size_of_parse?`).  What can be wrong with a line on its own is its
syntax; names and sizes are a matter of the lines around it (`Statement.isSyntax_of_parse?`).
-/

namespace Protocell.Assembly

/-! ## The bytes of a line -/

/-- The number of zeros that `.org` puts in, if the next offset is `n`. -/
def originSize (n : ℕ) : List (List Char) → ℕ
  | [] => 0
  | operand :: _ =>
    match Literal.parse operand with
    | .ok (.value origin) => origin.toNat - n
    | _ => 0

/-- The number of bytes that `.str` puts in: those of the text in UTF-8 and a zero. -/
def textSize (operand : List Char) : ℕ :=
  match unquote? operand with
  | some text => (text.flatMap String.utf8EncodeChar).length + 1
  | none => 0

/-- The number of bytes that the directive with `text` behind its dot puts in. -/
def directiveSize (n : ℕ) (text : List Char) : ℕ :=
  match Text.words text with
  | [] => 0
  | word :: operands =>
    if word = "prg".toList then 0
    else if word = "dat".toList then operands.length
    else if word = "org".toList then originSize n operands
    else if word = "str".toList then textSize (Text.trim ((Text.trimStart text).drop 3))
    else 0

/-- **The number of bytes that a line puts into its bank**, if the next offset is `n`. -/
def byteCount (n : ℕ) (line : List Char) : ℕ :=
  match Text.trim (stripComment line) with
  | [] => 0
  | '.' :: text => directiveSize n text
  | ':' :: _ => 0
  | text => (Text.words text).length

namespace Statement

/-- The number of tokens that a statement puts into a bank whose next offset is `n`. -/
def size (n : ℕ) : Statement → ℕ
  | .bank _ _ | .label _ => 0
  | .tokens ts => ts.length
  | .origin offset => offset.toNat - n

variable {st : Statement} {text : List Char} {ws : List (List Char)}

theorem size_of_parseBank (h : parseBank ws = .ok st) (n : ℕ) : st.size n = 0 := by
  rw [parseBank.eq_def] at h
  split at h
  · cases h
  · split at h
    · obtain rfl := Except.ok.inj h
      rfl
    · cases h

theorem size_of_parseData (h : parseData ws = .ok st) (n : ℕ) : st.size n = ws.length := by
  obtain ⟨ls, hls, hst⟩ := bind_eq_ok_iff.mp h
  obtain rfl := Except.ok.inj hst
  exact (List.length_map _).trans (length_of_mapM_eq_ok hls)

theorem size_of_parseOrigin (h : parseOrigin ws = .ok st) (n : ℕ) :
    st.size n = originSize n ws := by
  rw [parseOrigin.eq_def] at h
  split at h
  · cases h
  · split at h
    · rename_i hparse
      obtain rfl := Except.ok.inj h
      simp only [originSize, hparse]
      rfl
    · cases h
    · cases h

theorem size_of_parseText (h : parseText text = .ok st) (n : ℕ) : st.size n = textSize text := by
  rw [parseText] at h
  split at h
  · rename_i cs hcs
    obtain rfl := Except.ok.inj h
    simp only [textSize, hcs]
    rw [size, List.length_map, List.length_append, List.length_singleton]
  · cases h

theorem size_of_parseDirective (h : parseDirective text = .ok st) (n : ℕ) :
    st.size n = directiveSize n text := by
  rw [parseDirective] at h
  split at h
  · cases h
  · rename_i word operands hwords
    simp only [directiveSize, hwords]
    split_ifs at h ⊢
    · exact size_of_parseBank h n
    · exact size_of_parseData h n
    · exact size_of_parseOrigin h n
    · exact size_of_parseText h n

theorem size_of_parseLabel (h : parseLabel text = .ok st) (n : ℕ) : st.size n = 0 := by
  rw [parseLabel] at h
  split at h
  · cases h
  · obtain rfl := Except.ok.inj h
    rfl

theorem size_of_parseCode {s : InstructionSet} (h : parseCode s text = .ok st) (n : ℕ) :
    st.size n = (Text.words text).length := by
  obtain ⟨ts, hts, hst⟩ := bind_eq_ok_iff.mp h
  obtain rfl := Except.ok.inj hst
  exact List.length_reverse.trans (length_of_mapM_eq_ok hts)

/-- **A line puts in as many tokens as its text has bytes.** -/
theorem size_of_parse? {s : InstructionSet} {line : List Char} {st? : Option Statement}
    (h : parse? s line = .ok st?) (n : ℕ) : st?.elim 0 (size n) = byteCount n line := by
  rw [parse?] at h
  split at h
  · rename_i htext
    obtain rfl := Except.ok.inj h
    simp only [byteCount, htext]
    rfl
  · rename_i htext
    obtain ⟨st, hst, rfl⟩ := map_eq_ok_iff.mp h
    simp only [byteCount, htext]
    exact size_of_parseDirective hst n
  · rename_i htext
    obtain ⟨st, hst, rfl⟩ := map_eq_ok_iff.mp h
    simp only [byteCount, htext]
    exact size_of_parseLabel hst n
  · rename_i hblank hdot hcolon
    obtain ⟨st, hst, rfl⟩ := map_eq_ok_iff.mp h
    rw [byteCount]
    split
    · exact absurd ‹_› hblank
    · exact absurd ‹_› (hdot _)
    · exact absurd ‹_› (hcolon _)
    · exact size_of_parseCode hst n

end Statement

/-! ## Errors of a line on its own -/

/-- Whether a cause is one that a line can have on its own. -/
def Cause.IsSyntax : Cause → Prop
  | badDecimal _ | badHex _ | invalidLiteral _ | emptySymbol | unknownInstruction _
  | missingBankIndex | invalidBankIndex _ | unknownDirective _ | missingOperand _ | badString =>
    True
  | unresolvedName _ _ | bankOverflow _ | duplicateBank _ | duplicateName _ | noActiveBank
  | originBehind _ _ => False

theorem Literal.isSyntax_of_parse {word : List Char} {c : Cause} (h : parse word = .error c) :
    c.IsSyntax := by
  have helim {o : Option Literal} {c' : Cause}
      (h : o.elim (Except.error c') Except.ok = Except.error c)
      (hc' : c'.IsSyntax) : c.IsSyntax := by
    cases o with
    | none =>
      obtain rfl := Except.error.inj h
      exact hc'
    | some l => cases h
  rw [parse.eq_def] at h
  split at h
  · obtain rfl := Except.error.inj h
    trivial
  · split_ifs at h
    · exact helim h trivial
    · obtain rfl := Except.error.inj h
      trivial
    · exact helim h trivial
    · obtain rfl := Except.error.inj h
      trivial

theorem Token.isSyntax_of_parse {s : InstructionSet} {word : List Char} {c : Cause}
    (h : parse s word = .error c) : c.IsSyntax := by
  rw [parse] at h
  split at h
  · cases h
  · split_ifs at h
    · exact Literal.isSyntax_of_parse (map_eq_error_iff.mp h)
    · obtain rfl := Except.error.inj h
      trivial

namespace Statement

variable {text : List Char} {ws : List (List Char)} {c : Cause}

theorem isSyntax_of_parseBank (h : parseBank ws = .error c) : c.IsSyntax := by
  rw [parseBank.eq_def] at h
  split at h
  · obtain rfl := Except.error.inj h
    trivial
  · split at h
    · cases h
    · obtain rfl := Except.error.inj h
      trivial

theorem isSyntax_of_parseData (h : parseData ws = .error c) : c.IsSyntax := by
  obtain h | ⟨ls, -, hls⟩ := bind_eq_error_iff.mp h
  · obtain ⟨-, word, -, -, -, hword⟩ := mapM_eq_error_iff.mp h
    exact Literal.isSyntax_of_parse hword
  · cases hls

theorem isSyntax_of_parseOrigin (h : parseOrigin ws = .error c) : c.IsSyntax := by
  rw [parseOrigin.eq_def] at h
  split at h
  · obtain rfl := Except.error.inj h
    trivial
  · split at h
    · cases h
    · obtain rfl := Except.error.inj h
      trivial
    · rename_i hparse
      obtain rfl := Except.error.inj h
      exact Literal.isSyntax_of_parse hparse

theorem isSyntax_of_parseText (h : parseText text = .error c) : c.IsSyntax := by
  rw [parseText] at h
  split at h
  · cases h
  · obtain rfl := Except.error.inj h
    trivial

theorem isSyntax_of_parseDirective (h : parseDirective text = .error c) : c.IsSyntax := by
  rw [parseDirective] at h
  split at h
  · obtain rfl := Except.error.inj h
    trivial
  · split_ifs at h
    · exact isSyntax_of_parseBank h
    · exact isSyntax_of_parseData h
    · exact isSyntax_of_parseOrigin h
    · exact isSyntax_of_parseText h
    · obtain rfl := Except.error.inj h
      trivial

theorem isSyntax_of_parseLabel (h : parseLabel text = .error c) : c.IsSyntax := by
  rw [parseLabel] at h
  split at h
  · obtain rfl := Except.error.inj h
    trivial
  · cases h

theorem isSyntax_of_parseCode {s : InstructionSet} (h : parseCode s text = .error c) :
    c.IsSyntax := by
  obtain h | ⟨ts, -, hts⟩ := bind_eq_error_iff.mp h
  · obtain ⟨-, word, -, -, -, hword⟩ := mapM_eq_error_iff.mp h
    exact Token.isSyntax_of_parse hword
  · cases hts

/-- **What is wrong with a line on its own is its syntax.** -/
theorem isSyntax_of_parse? {s : InstructionSet} {line : List Char} (h : parse? s line = .error c) :
    c.IsSyntax := by
  rw [parse?] at h
  split at h
  · cases h
  · exact isSyntax_of_parseDirective (map_eq_error_iff.mp h)
  · exact isSyntax_of_parseLabel (map_eq_error_iff.mp h)
  · exact isSyntax_of_parseCode (map_eq_error_iff.mp h)

end Statement

end Protocell.Assembly
