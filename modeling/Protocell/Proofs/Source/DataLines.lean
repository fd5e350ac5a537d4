import Protocell.Proofs.Source.Respelling

/-!
# Proofs/Source/DataLines — lines that spell bytes

A byte is spelled in decimal or in hexadecimal, with any number of zeros before it, and a text
between double quotes spells its own bytes.  Blanks may stand before and behind, and a comment at
the end, but a semicolon in a text is one of its characters.

Which bytes a line spells is said of its text (`DataLine`), apart from how lines are read, and a
line is read as the bytes that it spells (`DataLine.parse?`).
-/

namespace Protocell

namespace Text

/-! ## Blanks -/

/-- Blanks, or nothing. -/
def IsBlanks (cs : List Char) : Prop := ∀ c ∈ cs, isBlank c = true

instance : DecidablePred IsBlanks := fun cs => List.decidableBAll (fun c => isBlank c = true) cs

/-- What may stand between words. -/
def IsGap (cs : List Char) : Prop := cs ≠ [] ∧ IsBlanks cs

theorem words_append_of_isBlanks {bs : List Char} (h : IsBlanks bs) (cs : List Char) :
    words (bs ++ cs) = words cs := by
  induction bs with
  | nil => rfl
  | cons b bs ih =>
    obtain ⟨hb, hbs⟩ := List.forall_mem_cons.mp h
    rw [List.cons_append, words, wordsFrom_blank hb, ih hbs]
    rfl

/-- A gap ends the word before it. -/
theorem IsGap.wordsFrom {gap : List Char} (h : IsGap gap) (word cs : List Char) :
    wordsFrom word (gap ++ cs) = wordsFrom word [] ++ words cs := by
  cases gap with
  | nil => exact absurd rfl h.1
  | cons b bs =>
    obtain ⟨hb, hbs⟩ := List.forall_mem_cons.mp h.2
    rw [List.cons_append, wordsFrom_blank hb, words_append_of_isBlanks hbs]

theorem trimStart_append {lead : List Char} (h : IsBlanks lead) (cs : List Char) :
    trimStart (lead ++ cs) = trimStart cs := List.dropWhile_append_of_pos h

theorem trimEnd_append {tail : List Char} (h : IsBlanks tail) (cs : List Char) :
    trimEnd (cs ++ tail) = trimEnd cs := by
  rw [trimEnd, List.reverse_append,
    List.dropWhile_append_of_pos fun c hc => h c (List.mem_reverse.mp hc), trimEnd]

theorem trim_eq_nil {cs : List Char} (h : IsBlanks cs) : trim cs = [] := by
  have hstart : trimStart cs = [] := by
    rw [← List.append_nil cs, trimStart_append h]
    rfl
  rw [trim, hstart]
  rfl

/-- Only the blanks before and behind a text are trimmed. -/
theorem trim_append {lead tail : List Char} (hlead : IsBlanks lead) (htail : IsBlanks tail)
    {c : Char} (hc : isBlank c = false) (cs : List Char) :
    trim (lead ++ (c :: cs ++ tail)) = c :: trimEnd cs := by
  rw [trim, trimStart_append hlead, ← trim, List.cons_append, trim_cons hc, trimEnd_append htail]

theorem trimEnd_concat {c : Char} (hc : isBlank c = false) (cs : List Char) :
    trimEnd (cs ++ [c]) = cs ++ [c] := by
  rw [trimEnd, List.reverse_concat, List.dropWhile_cons, if_neg (Bool.eq_false_iff.mp hc),
    List.reverse_cons, List.reverse_reverse]

end Text

namespace Assembly

/-! ## Comments -/

theorem isBare_of_isBlanks {bs : List Char} (h : Text.IsBlanks bs) : IsBare bs :=
  isBare_of_forall (by decide) (by decide) h

/-- **What may end a line**: blanks, and a comment behind them. -/
inductive EndsLine : List Char → Prop
  | blanks {bs : List Char} : Text.IsBlanks bs → EndsLine bs
  | comment {bs : List Char} (text : List Char) : Text.IsBlanks bs → EndsLine (bs ++ ';' :: text)

theorem EndsLine.exists_blanks {tail : List Char} (h : EndsLine tail) :
    ∃ bs, Text.IsBlanks bs ∧ stripCommentFrom false tail = bs := by
  cases h with
  | blanks hbs =>
    refine ⟨tail, hbs, ?_⟩
    conv => lhs; rw [← List.append_nil tail]
    rw [stripCommentFrom_append (isBare_of_isBlanks hbs)]
    exact List.append_nil tail
  | @comment bs text hbs =>
    refine ⟨bs, hbs, ?_⟩
    rw [stripCommentFrom_append (isBare_of_isBlanks hbs), stripCommentFrom, if_pos ⟨rfl, rfl⟩,
      List.append_nil]

theorem EndsLine.isBlank {line : List Char} (h : EndsLine line) : IsBlank line := by
  obtain ⟨bs, hbs, hstrip⟩ := h.exists_blanks
  rw [IsBlank, stripComment, hstrip, Text.trim_eq_nil hbs]

/-! ## Bytes -/

/-- **A spelling of a byte**: in decimal, or behind `$` in hexadecimal with letters of either case,
and with any number of zeros before it. -/
inductive SpellsByte (v : UInt8) : List Char → Prop
  | decimal (k : ℕ) : SpellsByte v (padded k v.toNat)
  | hex {digits : List Char} (k : ℕ) :
      digits.map Char.toLower = List.replicate k '0' ++ Nat.toDigits 16 v.toNat →
      SpellsByte v ('$' :: digits)

theorem hexNumber_of_map_toLower {digits : List Char} {k n : ℕ}
    (h : digits.map Char.toLower = List.replicate k '0' ++ Nat.toDigits 16 n) :
    Text.hexNumber digits = n := by
  rw [← Text.hexNumber_map_toLower, h]
  clear h
  induction k with
  | zero => exact Text.hexNumber_toDigits n
  | succ k ih => exact ih

theorem isHexDigit_of_map_toLower {digits : List Char} {k n : ℕ}
    (h : digits.map Char.toLower = List.replicate k '0' ++ Nat.toDigits 16 n) {c : Char}
    (hc : c ∈ digits) : Text.isHexDigit c = true := by
  have hlower : c.toLower ∈ List.replicate k '0' ++ Nat.toDigits 16 n := h ▸ List.mem_map_of_mem hc
  have hdigit : Text.isHexDigit c.toLower = true := by
    rcases List.mem_append.mp hlower with hzero | hdigit
    · rw [List.eq_of_mem_replicate hzero]
      rfl
    · exact Text.isHexDigit_of_mem_toDigits hdigit
  rwa [Text.isHexDigit, Text.hexValue?_toLower] at hdigit

namespace SpellsByte

variable {v : UInt8} {w : List Char}

/-- **A spelling of a byte is read as the byte.** -/
theorem parse (h : SpellsByte v w) : Literal.parse w = .ok (.value v) := by
  cases h with
  | decimal k => exact parse_padded k v
  | @hex digits k h =>
    have hne : digits ≠ [] := by
      rintro rfl
      exact absurd h.symm (List.append_ne_nil_of_right_ne_nil _ Nat.toDigits_ne_nil)
    have hhex : Literal.hex? digits = some (.value v) := by
      have hdigits : (!digits.isEmpty && digits.all Text.isHexDigit) = true := by
        rw [Bool.and_eq_true, List.all_eq_true]
        exact ⟨by simpa using hne, fun c => isHexDigit_of_map_toLower h⟩
      rw [Literal.hex?, if_pos hdigits, hexNumber_of_map_toLower h, Literal.ofNat?,
        if_pos v.toNat_lt, UInt8.ofNat_toNat]
    rw [Literal.parse, if_pos rfl, hhex]
    rfl

theorem isWord (h : SpellsByte v w) : Text.IsWord w := by
  cases h with
  | decimal k => exact isWord_of_digits (padded_ne_nil _ _) fun c => isDigit_of_mem_padded
  | hex k h =>
    refine ⟨List.cons_ne_nil _ _, List.forall_mem_cons.mpr ⟨by decide, fun c hc => ?_⟩⟩
    exact isBlank_eq_false_of_isHexDigit (isHexDigit_of_map_toLower h hc)

theorem isBare (h : SpellsByte v w) : IsBare w := by
  cases h with
  | decimal k =>
    exact isBare_of_forall (by decide) (by decide) fun c => isDigit_of_mem_padded
  | hex k h =>
    refine List.forall_mem_cons.mpr ⟨by decide, ?_⟩
    exact isBare_of_forall (by decide) (by decide) fun c => isHexDigit_of_map_toLower h

end SpellsByte

/-- **Bytes that are spelled one after another**, each behind a gap. -/
inductive SpellsBytes : List Char → List UInt8 → Prop
  | nil : SpellsBytes [] []
  | cons {gap w rest : List Char} {v : UInt8} {vs : List UInt8} : Text.IsGap gap → SpellsByte v w →
      SpellsBytes rest vs → SpellsBytes (gap ++ (w ++ rest)) (v :: vs)

namespace SpellsBytes

variable {operands : List Char} {vs : List UInt8}

theorem isBare (h : SpellsBytes operands vs) : IsBare operands := by
  induction h with
  | nil => exact fun c hc => absurd hc List.not_mem_nil
  | cons hgap hw _ ih => exact (isBare_of_isBlanks hgap.2).append (hw.isBare.append ih)

/-- **Bytes that are spelled one after another are words of the line.** -/
theorem exists_words (h : SpellsBytes operands vs) :
    ∃ ws, List.Forall₂ SpellsByte vs ws ∧
      ∀ word, Text.wordsFrom word operands = Text.wordsFrom word [] ++ ws := by
  induction h with
  | nil => exact ⟨[], .nil, fun word => (List.append_nil _).symm⟩
  | @cons gap w rest v vs hgap hw _ ih =>
    obtain ⟨ws, hws, hrest⟩ := ih
    refine ⟨w :: ws, .cons hw hws, fun word => ?_⟩
    rw [hgap.wordsFrom, Text.words, Text.wordsFrom_append hw.isWord.2, hrest, List.append_nil,
      Text.wordsFrom_nil hw.isWord.1, List.singleton_append]

end SpellsBytes

/-! ## Lines -/

/-- **A directive and the bytes behind it.** -/
inductive SpellsDirective (name : List Char) : List Char → List UInt8 → Prop
  | intro (lead operands tail : List Char) {vs : List UInt8} : Text.IsBlanks lead →
      SpellsBytes operands vs → EndsLine tail →
      SpellsDirective name (lead ++ ('.' :: (name ++ operands) ++ tail)) vs

/-- What stands behind the dot of a line with a text. -/
def textDirective (gap text : List Char) : List Char :=
  "str".toList ++ (gap ++ '"' :: text) ++ ['"']

/-- **A line of data**, for a bank whose next offset is `n`, and the bytes that it spells: none,
those behind `.dat`, zeros up to the offset behind `.org`, or those of the text behind `.str` and a
zero. -/
inductive DataLine (n : ℕ) : List Char → List UInt8 → Prop
  | skip {line : List Char} : EndsLine line → DataLine n line []
  | bytes {line : List Char} {vs : List UInt8} : SpellsDirective "dat".toList line vs →
      DataLine n line vs
  | origin {line : List Char} {v : UInt8} : SpellsDirective "org".toList line [v] → n ≤ v.toNat →
      DataLine n line (List.replicate (v.toNat - n) 0)
  | text (lead gap text tail : List Char) : Text.IsBlanks lead → Text.IsGap gap → '"' ∉ text →
      EndsLine tail →
      DataLine n (lead ++ ('.' :: textDirective gap text ++ tail))
        (text.flatMap String.utf8EncodeChar ++ [0])

namespace SpellsDirective

variable {line : List Char} {v : UInt8} {vs : List UInt8}

/-- The words of a directive are its name and the spellings. -/
theorem exists_words {name : List Char} (h : SpellsDirective name line vs)
    (hname : Text.IsWord name)
    (hbare : IsBare name) :
    ∃ text ws, Text.trim (stripComment line) = '.' :: text ∧ Text.words text = name :: ws ∧
      List.Forall₂ SpellsByte vs ws := by
  cases h with
  | intro lead operands tail hlead hoperands htail =>
    obtain ⟨bs, hbs, hstrip⟩ := htail.exists_blanks
    obtain ⟨ws, hws, hwords⟩ := hoperands.exists_words
    have hdirective : IsBare ('.' :: (name ++ operands)) :=
      List.forall_mem_cons.mpr ⟨by decide, hbare.append hoperands.isBare⟩
    refine ⟨Text.trimEnd (name ++ operands), ws, ?_, ?_, hws⟩
    · rw [stripComment, stripCommentFrom_append (isBare_of_isBlanks hlead),
        stripCommentFrom_append hdirective, hstrip, Text.trim_append hlead hbs (by decide)]
    · rw [Text.words_trimEnd, Text.words, Text.wordsFrom_append hname.2, hwords, List.append_nil,
        Text.wordsFrom_nil hname.1, List.singleton_append]

/-- **A directive is read by its name and its words.** -/
theorem exists_parse? {name : List Char} (h : SpellsDirective name line vs)
    (hname : Text.IsWord name ∧ IsBare name) (s : InstructionSet) :
    ∃ text ws, Statement.parse? s line = (Statement.parseDirective text).map some ∧
      Text.words text = name :: ws ∧ List.Forall₂ SpellsByte vs ws := by
  obtain ⟨text, ws, htext, hwords, hws⟩ := h.exists_words hname.1 hname.2
  refine ⟨text, ws, ?_, hwords, hws⟩
  rw [Statement.parse?, htext]
  rfl

theorem parse?_bank (h : SpellsDirective "prg".toList line [v]) (s : InstructionSet) :
    Statement.parse? s line = .ok (some (.bank v none)) := by
  obtain ⟨text, ws, hparse, hwords, hws⟩ := h.exists_parse? (by decide) s
  obtain ⟨w, _, hw, ⟨⟩, rfl⟩ := List.forall₂_cons_left_iff.mp hws
  rw [hparse, Statement.parseDirective, hwords]
  simp only [if_true, Statement.parseBank, hw.parse]
  rfl

theorem parse?_origin (h : SpellsDirective "org".toList line [v]) (s : InstructionSet) :
    Statement.parse? s line = .ok (some (.origin v)) := by
  obtain ⟨text, ws, hparse, hwords, hws⟩ := h.exists_parse? (by decide) s
  obtain ⟨w, _, hw, ⟨⟩, rfl⟩ := List.forall₂_cons_left_iff.mp hws
  rw [hparse, Statement.parseDirective, hwords]
  simp only [reduceIte, Statement.parseOrigin, hw.parse]
  rfl

theorem parse?_data (h : SpellsDirective "dat".toList line vs) (s : InstructionSet) :
    Statement.parse? s line = .ok (some (.tokens (vs.map Token.byte))) := by
  obtain ⟨text, ws, hparse, hwords, hws⟩ := h.exists_parse? (by decide) s
  have hliterals : ws.mapM Literal.parse = .ok (vs.map Literal.value) := by
    rw [mapM_eq_ok_iff, List.forall₂_map_right_iff]
    exact hws.flip.imp fun w v hw => hw.parse
  have hbytes : (vs.map Literal.value).map Token.literal = vs.map Token.byte := List.map_map
  rw [hparse, Statement.parseDirective, hwords, ← hbytes]
  simp only [reduceIte, Statement.parseData, hliterals]
  rfl

end SpellsDirective

/-! ## Texts -/

section Texts

variable {lead gap text tail : List Char}

theorem unquote?_quoted (h : '"' ∉ text) : unquote? ('"' :: (text ++ ['"'])) = some text := by
  rw [unquote?, List.dropLast_concat, List.getLast?_concat, if_pos ⟨rfl, h⟩]

/-- Neither blanks nor semicolons of a text are cut off. -/
theorem trim_stripComment_text (hlead : Text.IsBlanks lead) (hgap : Text.IsGap gap)
    (htext : '"' ∉ text) (htail : EndsLine tail) :
    Text.trim (stripComment (lead ++ ('.' :: textDirective gap text ++ tail)))
      = '.' :: textDirective gap text := by
  obtain ⟨bs, hbs, hstrip⟩ := htail.exists_blanks
  have hfront : IsBare ('.' :: ("str".toList ++ gap)) :=
    List.forall_mem_cons.mpr ⟨by decide, IsBare.append (by decide) (isBare_of_isBlanks hgap.2)⟩
  have hquoted := stripCommentFrom_append hfront false ('"' :: text ++ '"' :: tail)
  rw [stripCommentFrom_quoted htext, hstrip] at hquoted
  have hcut : stripCommentFrom false ('.' :: textDirective gap text ++ tail)
      = '.' :: textDirective gap text ++ bs := by
    simpa only [textDirective, List.cons_append, List.append_assoc, List.nil_append] using hquoted
  rw [stripComment, stripCommentFrom_append (isBare_of_isBlanks hlead), hcut,
    Text.trim_append hlead hbs (by decide), textDirective, Text.trimEnd_concat (by decide)]

theorem words_textDirective (hgap : Text.IsGap gap) (text : List Char) :
    Text.words (textDirective gap text) = "str".toList :: Text.words ('"' :: text ++ ['"']) := by
  have hword : Text.IsWord "str".toList := by decide
  rw [textDirective, List.append_assoc, List.append_assoc, Text.words,
    Text.wordsFrom_append hword.2, hgap.wordsFrom, List.append_nil, Text.wordsFrom_nil hword.1,
    List.singleton_append]

/-- The operand of a text line is the text in its quotes. -/
theorem trim_drop_textDirective (hgap : Text.IsGap gap) (text : List Char) :
    Text.trim ((Text.trimStart (textDirective gap text)).drop 3) = '"' :: (text ++ ['"']) := by
  have hnone : Text.IsBlanks [] := by rintro c ⟨⟩
  have hquotes := Text.trim_append hgap.2 hnone (c := '"') (by decide) (text ++ ['"'])
  rw [List.append_nil, Text.trimEnd_concat (by decide)] at hquotes
  rw [← hquotes, textDirective, List.append_assoc, List.append_assoc]
  rfl

/-- **A text is read with all of its blanks and semicolons.** -/
theorem parse?_text (hlead : Text.IsBlanks lead) (hgap : Text.IsGap gap) (htext : '"' ∉ text)
    (htail : EndsLine tail) (s : InstructionSet) :
    Statement.parse? s (lead ++ ('.' :: textDirective gap text ++ tail))
      = .ok (some (.tokens ((text.flatMap String.utf8EncodeChar ++ [0]).map Token.byte))) := by
  rw [Statement.parse?, trim_stripComment_text hlead hgap htext htail]
  simp only [Statement.parseDirective, words_textDirective hgap, trim_drop_textDirective hgap,
    Statement.parseText, unquote?_quoted htext]
  rfl

end Texts

end Assembly

end Protocell
