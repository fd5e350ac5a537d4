import Protocell.Proofs.Names

/-!
# Proofs/ErrorLines — errors point at the first bad line

Lines are read one after another, and reading stops at the first one with a fault.  An error of a
line has to do with the lines up to there and no others (`Draft.of_ofLines_eq_error`).  Only names
wait until all lines are in.  Hence a source becomes a program or has a name that stands for nothing
just if all of its lines are read (`readsThrough_iff`), and a name is reported only if no line has
another fault.

What is reported is a line of the source.  In the case of a name it has the name's symbol among its
words (`mem_words_of_mem_tokensAt`).
-/

namespace Protocell

namespace Text

/-! ## Beginnings of a text -/

/-- A text can be cut behind any of its lines. -/
theorem exists_append_linesFrom (back cs : List Char) {n : ℕ} (hn : n ≠ 0 ∨ back = []) :
    ∃ xs ys, cs = xs ++ ys ∧ linesFrom back xs = (linesFrom back cs).take n := by
  induction cs generalizing back n with
  | nil =>
    refine ⟨[], [], rfl, ?_⟩
    rw [linesFrom]
    split
    · rw [List.take_nil]
    · rename_i hback
      have hpos : n ≠ 0 := hn.resolve_right fun h => hback (h ▸ rfl)
      rw [List.take_of_length_le (Nat.one_le_iff_ne_zero.mpr hpos)]
  | cons c cs ih =>
    rcases Nat.eq_zero_or_eq_succ_pred n with hzero | hsucc
    · obtain rfl := hn.resolve_left (not_not_intro hzero)
      exact ⟨[], c :: cs, rfl, by rw [hzero]; rfl⟩
    · by_cases hc : c = '\n'
      · obtain ⟨xs, ys, rfl, hlines⟩ := ih [] (n := n - 1) (.inr rfl)
        refine ⟨c :: xs, ys, rfl, ?_⟩
        rw [linesFrom, linesFrom, if_pos hc, if_pos hc, hlines, hsucc, List.take_succ_cons]
        rfl
      · obtain ⟨xs, ys, rfl, hlines⟩ := ih (c :: back) (.inl (hsucc ▸ Nat.succ_ne_zero _))
        refine ⟨c :: xs, ys, rfl, ?_⟩
        rw [linesFrom, linesFrom, if_neg hc, if_neg hc, hlines]

/-- **The first lines of a text are the lines of a beginning of it.** -/
theorem exists_append_lines_eq_take (text : String) (n : ℕ) :
    ∃ first rest : String, text = first ++ rest ∧
      lines first.toList = (lines text.toList).take n := by
  obtain ⟨xs, ys, htext, hlines⟩ := exists_append_linesFrom [] text.toList (n := n) (.inr rfl)
  refine ⟨.ofList xs, .ofList ys, ?_, ?_⟩
  · rw [← String.toList_inj, String.toList_append, String.toList_ofList, String.toList_ofList,
      htext]
  · rw [String.toList_ofList]
    exact hlines

/-- All words but the first of a text are words of any text that ends with it. -/
theorem mem_wordsFrom_of_mem_tail {cs word x : List Char} (hx : x ∈ (wordsFrom word cs).tail)
    (word' : List Char) : x ∈ wordsFrom word' cs := by
  induction cs generalizing word word' with
  | nil =>
    rw [wordsFrom] at hx
    split at hx
    · cases hx
    · cases hx
  | cons c cs ih =>
    by_cases hc : isBlank c = true
    · rw [wordsFrom_blank hc, List.mem_append]
      rw [wordsFrom, if_pos hc] at hx
      split at hx
      · exact .inr (List.mem_of_mem_tail hx)
      · exact .inr hx
    · rw [wordsFrom, if_neg hc] at hx ⊢
      exact ih hx (c :: word')

end Text

namespace Assembly

/-! ## Names in a line -/

theorem Literal.eq_of_parse_symbol {w : List Char} {name : String}
    (h : parse w = .ok (.symbol name)) : w = '@' :: name.toList := by
  have hnumber {l : Option Literal} {c : Cause}
      (h : l.elim (Except.error c) Except.ok = .ok (symbol name)) :
      l = some (symbol name) := by
    cases l with
    | none => cases h
    | some l => exact congrArg some (Except.ok.inj h)
  have hofNat (n : ℕ) : ofNat? n ≠ some (symbol name) := by
    rw [ofNat?]
    split
    · rintro ⟨⟩
    · rintro ⟨⟩
  cases w with
  | nil => cases h
  | cons c rest =>
    rw [parse] at h
    split_ifs at h with hhex hsymbol hempty hdigit
    · have hsome := hnumber h
      rw [hex?] at hsome
      split at hsome
      · exact absurd hsome (hofNat _)
      · cases hsome
    · obtain rfl := symbol.inj (Except.ok.inj h)
      rw [hsymbol, String.toList_ofList]
    · have hsome := hnumber h
      rw [decimal?] at hsome
      split at hsome
      · exact absurd hsome (hofNat _)
      · cases hsome

theorem Token.eq_of_parse_symbol {s : InstructionSet} {w : List Char} {name : String}
    (h : parse s w = .ok (.literal (.symbol name))) : w = '@' :: name.toList := by
  rw [parse] at h
  split at h
  · cases h
  · split at h
    · obtain ⟨l, hl, hliteral⟩ := map_eq_ok_iff.mp h
      obtain rfl := Token.literal.inj hliteral
      exact Literal.eq_of_parse_symbol hl
    · cases h

/-- The operands of a `.dat` line are words of the line. -/
theorem mem_words_of_dataWords? {line w : List Char} {ws : List (List Char)}
    (h : dataWords? line = some ws) (hw : w ∈ ws) : w ∈ Text.words (stripComment line) := by
  rw [dataWords?] at h
  split at h
  · rename_i text htext
    split at h
    · cases h
    · rename_i word operands hwords
      split at h
      · obtain rfl := Option.some.inj h
        rw [← Text.words_trim, htext]
        have htail : w ∈ (Text.words text).tail := by
          rw [hwords]
          exact hw
        exact Text.mem_wordsFrom_of_mem_tail htail ['.']
      · cases h
  · cases h

/-- **A line that uses a name has the name's symbol among its words.** -/
theorem mem_words_of_mem_tokensAt {s : InstructionSet} {n : ℕ} {line : List Char} {name : String}
    (h : .literal (.symbol name) ∈ tokensAt s n line) :
    '@' :: name.toList ∈ Text.words (stripComment line) := by
  rw [tokensAt] at h
  split at h
  · rename_i ts hparse
    cases hcode : isCode line with
    | true =>
      rw [parse?_of_isCode hcode] at hparse
      obtain ⟨us, hus, htokens⟩ := map_eq_ok_iff.mp hparse
      obtain rfl := Statement.tokens.inj (Option.some.inj htokens)
      obtain ⟨w, hw, hword⟩ := exists_of_mapM_eq_ok hus (List.mem_reverse.mp h)
      rw [codeWords, Text.words_trim] at hw
      rwa [← Token.eq_of_parse_symbol hword]
    | false =>
      cases hdata : dataWords? line with
      | some ws =>
        rw [Statement.parse?_of_dataWords? hdata, Statement.parseData_eq] at hparse
        obtain ⟨_, hmap, htokens⟩ := map_eq_ok_iff.mp hparse
        obtain ⟨us, hus, rfl⟩ := map_eq_ok_iff.mp hmap
        obtain rfl := Statement.tokens.inj (Option.some.inj htokens)
        obtain ⟨w, hw, hword⟩ := exists_of_mapM_eq_ok hus h
        obtain ⟨l, hl, hliteral⟩ := map_eq_ok_iff.mp hword
        obtain rfl := Token.literal.inj hliteral
        rw [← Literal.eq_of_parse_symbol hl]
        exact mem_words_of_dataWords? hdata hw
      | none =>
        obtain ⟨v, hv⟩ := Statement.exists_byte_of_parse? hcode hdata hparse _ h
        cases hv
  · cases List.eq_of_mem_replicate h
  · cases h

theorem exists_mem_of_mem_tokensFrom {s : InstructionSet} {n m : ℕ} {ls : List (List Char × ℕ)}
    {t : Token} (h : (t, m) ∈ tokensFrom s n ls) :
    ∃ line k, (line, m) ∈ ls ∧ t ∈ tokensAt s k line := by
  induction ls generalizing n with
  | nil => cases h
  | cons l ls ih =>
    rw [tokensFrom, List.mem_append] at h
    rcases h with h | h
    · obtain ⟨u, hu, heq⟩ := List.mem_map.mp h
      obtain ⟨rfl, rfl⟩ := Prod.mk.inj heq
      exact ⟨l.1, n, List.mem_cons_self, hu⟩
    · obtain ⟨line, k, hline, ht⟩ := ih h
      exact ⟨line, k, List.mem_cons_of_mem _ hline, ht⟩

/-- The tokens of a source have the numbers of their lines. -/
theorem exists_getElem?_of_mem_stream {s : InstructionSet} {lines : List (List Char)} {p : Part}
    {t : Token} {n : ℕ} (h : (p, t, n) ∈ stream s (parts s lines)) :
    ∃ line k, 1 ≤ n ∧ lines[n - 1]? = some line ∧ t ∈ tokensAt s k line := by
  obtain ⟨q, hq, h⟩ := List.mem_flatMap.mp h
  obtain ⟨_, htoken, heq⟩ := List.mem_map.mp h
  obtain ⟨rfl, rfl⟩ := Prod.mk.inj heq
  obtain ⟨line, k, hline, ht⟩ := exists_mem_of_mem_tokensFrom htoken
  have hall : (line, n) ∈ lines.zipIdx 1 := by
    rw [← split_append s (lines.zipIdx 1)]
    exact List.mem_append_right _ (List.mem_flatMap.mpr ⟨q, hq, List.mem_cons_of_mem _ hline⟩)
  obtain ⟨hle, hline⟩ := List.mk_mem_zipIdx_iff_le_and_getElem?_sub.mp hall
  exact ⟨line, k, hle, hline, ht⟩

/-! ## Faults in a line -/

namespace Section

variable {b : Section} {bank : UInt8} {name : String}

theorem extend_ne_unresolved {n : ℕ} {ts : List Token} :
    b.extend n ts ≠ .error (.unresolvedName bank name) := by
  rw [extend]
  split
  · rintro ⟨⟩
  · rintro ⟨⟩

theorem define_ne_unresolved {label : String} :
    b.define label ≠ .error (.unresolvedName bank name) := by
  rw [define]
  split
  · rintro ⟨⟩
  · split
    · rintro ⟨⟩
    · rintro ⟨⟩

theorem advance_ne_unresolved {n : ℕ} {origin : UInt8} :
    b.advance n origin ≠ .error (.unresolvedName bank name) := by
  rw [advance]
  split
  · rintro ⟨⟩
  · exact extend_ne_unresolved

end Section

namespace Draft

variable {s : InstructionSet} {d : Draft}

theorem modifyCurrent_ne_unresolved {change : Section → Except Cause Section} {bank : UInt8}
    {name : String} (h : ∀ b, change b ≠ .error (.unresolvedName bank name)) :
    d.modifyCurrent change ≠ .error (.unresolvedName bank name) := by
  rw [modifyCurrent]
  split
  · rintro ⟨⟩
  · exact fun hchange => h _ (map_eq_error_iff.mp hchange)

theorem begin_ne_unresolved {n : ℕ} {index bank : UInt8} {called : Option String} {name : String} :
    d.begin n index called ≠ .error (.unresolvedName bank name) := by
  rw [begin.eq_def]
  split
  · rintro ⟨⟩
  · split
    · rintro ⟨⟩
    · split
      · rintro ⟨⟩
      · rintro ⟨⟩

/-- **Reading never fails at a name.** -/
theorem add_ne_unresolved {n : ℕ} {st : Statement} {bank : UInt8} {name : String} :
    d.add n st ≠ .error (.unresolvedName bank name) := by
  cases st with
  | bank index called => exact begin_ne_unresolved
  | label called => exact modifyCurrent_ne_unresolved fun b => Section.define_ne_unresolved
  | tokens ts => exact modifyCurrent_ne_unresolved fun b => Section.extend_ne_unresolved
  | origin offset => exact modifyCurrent_ne_unresolved fun b => Section.advance_ne_unresolved

/-- **A fault of a line has the line's number**, and is not that a name stands for nothing. -/
theorem error_of_addLine {l : List Char × ℕ} {e : Error} (h : addLine s d l = .error e) :
    e.line = l.2 ∧ ∀ bank name, e.cause ≠ .unresolvedName bank name := by
  rw [addLine] at h
  split at h
  · rename_i c hparse
    obtain rfl := Except.error.inj h
    refine ⟨rfl, ?_⟩
    rintro bank name (rfl : c = _)
    exact Statement.isSyntax_of_parse? hparse
  · cases h
  · split at h
    · rename_i c hadd
      obtain rfl := Except.error.inj h
      refine ⟨rfl, ?_⟩
      rintro bank name (rfl : c = _)
      exact add_ne_unresolved hadd
    · cases h

/-- Lines are read behind those before them. -/
theorem ofLines_append (s : InstructionSet) (xs ys : List (List Char)) :
    ofLines s (xs ++ ys)
      = ofLines s xs >>= fun d => (ys.zipIdx (1 + xs.length)).foldlM (addLine s) d := by
  rw [ofLines, List.zipIdx_append, List.foldlM_append, ofLines]

/-- A fault stays the first one, whatever lines follow. -/
theorem ofLines_append_eq_error {xs : List (List Char)} {e : Error} (h : ofLines s xs = .error e)
    (ys : List (List Char)) : ofLines s (xs ++ ys) = .error e := by
  rw [ofLines_append, h]
  rfl

theorem exists_ofLines_take {lines : List (List Char)} (h : ofLines s lines = .ok d) (n : ℕ) :
    ∃ d', ofLines s (lines.take n) = .ok d' := by
  rw [← List.take_append_drop n lines, ofLines_append] at h
  obtain ⟨d', hd', -⟩ := bind_eq_ok_iff.mp h
  exact ⟨d', hd'⟩

/-- **Reading stops at the first line with a fault.**  The lines up to it have the fault on their
own, and the lines before it have none. -/
theorem of_ofLines_eq_error {lines : List (List Char)} {e : Error}
    (h : ofLines s lines = .error e) :
    (1 ≤ e.line ∧ e.line ≤ lines.length) ∧ (∀ bank name, e.cause ≠ .unresolvedName bank name) ∧
      ofLines s (lines.take e.line) = .error e ∧
      ∃ d, ofLines s (lines.take (e.line - 1)) = .ok d := by
  obtain ⟨before, line, after, d, rfl, hbefore, hline⟩ := ofLines_eq_error_iff.mp h
  obtain ⟨hnumber, hcause⟩ := error_of_addLine hline
  have hsplit : before ++ line :: after = (before ++ [line]) ++ after := by
    rw [List.append_assoc, List.singleton_append]
  have hlength : (before ++ [line]).length = e.line := by
    rw [hnumber, List.length_append, List.length_singleton]
  refine ⟨⟨?_, ?_⟩, hcause, ?_, d, ?_⟩
  · rw [hnumber]
    exact Nat.le_add_left 1 _
  · rw [hsplit, List.length_append, hlength]
    exact Nat.le_add_right _ _
  · rw [hsplit, List.take_left' hlength]
    exact ofLines_eq_error_iff.mpr ⟨before, line, [], d, rfl, hbefore, hline⟩
  · rw [hnumber, Nat.add_sub_cancel, List.take_left' rfl]
    exact hbefore

end Draft

end Assembly

open Assembly

/-- **A source is read to its end**: it becomes a program, or a name in it stands for nothing. -/
def ReadsThrough (s : InstructionSet) (source : String) : Prop :=
  (∃ p, assemble s source = .ok p) ∨
    ∃ n bank name, assemble s source = .error ⟨n, .unresolvedName bank name⟩

/-- **A source is read to its end just if no line of it has a fault.** -/
theorem readsThrough_iff {s : InstructionSet} {source : String} :
    ReadsThrough s source ↔ ∃ d, Draft.ofLines s (Text.lines source.toList) = .ok d := by
  constructor
  · rintro (⟨p, h⟩ | ⟨n, bank, name, h⟩)
    · obtain ⟨d, hd, -⟩ := bind_eq_ok_iff.mp h
      exact ⟨d, hd⟩
    · rcases bind_eq_error_iff.mp h with h | ⟨d, hd, -⟩
      · exact absurd rfl ((Draft.of_ofLines_eq_error h).2.1 bank name)
      · exact ⟨d, hd⟩
  · rintro ⟨d, hd⟩
    cases hfinish : d.finish with
    | ok p => exact .inl ⟨p, bind_eq_ok_iff.mpr ⟨d, hd, hfinish⟩⟩
    | error e =>
      obtain ⟨_, p, n, name, _, -, -, -, rfl⟩ := (Draft.finish_eq_error_iff_stream hd).mp hfinish
      exact .inr ⟨n, p.bank, name, bind_eq_error_iff.mpr (.inr ⟨d, hd, hfinish⟩)⟩

/-- **An error points at the first bad line.**

The line is one of the source, of which any number of first lines are a source as well.  An error
that is not about a name has to do with the lines up to there alone: every source that begins with
these lines has the same error, and the lines before it are read to their end.  A name that stands
for nothing is among the words of the line, and is reported only if no line of the source has
another fault, so that any number of first lines are read to their end. -/
theorem error_points_at_first_bad_line {s : InstructionSet} {source : String} {e : Assembly.Error}
    (h : assemble s source = .error e) :
    (1 ≤ e.line ∧ e.line ≤ (Text.lines source.toList).length) ∧
    (∀ n, ∃ first rest : String, source = first ++ rest ∧
      Text.lines first.toList = (Text.lines source.toList).take n) ∧
    ((∀ bank name, e.cause ≠ .unresolvedName bank name) →
      (∀ source', (Text.lines source.toList).take e.line <+: Text.lines source'.toList →
        assemble s source' = .error e) ∧
      ∀ source', Text.lines source'.toList = (Text.lines source.toList).take (e.line - 1) →
        ReadsThrough s source') ∧
    ∀ bank name, e.cause = .unresolvedName bank name →
      (∃ line, (Text.lines source.toList)[e.line - 1]? = some line ∧
        '@' :: name.toList ∈ Text.words (stripComment line)) ∧
      (∃ d, Draft.ofLines s (Text.lines source.toList) = .ok d) ∧
      ∀ n source', Text.lines source'.toList = (Text.lines source.toList).take n →
        ReadsThrough s source' := by
  have htake := Text.exists_append_lines_eq_take source
  rcases bind_eq_error_iff.mp h with hread | ⟨d, hd, hfinish⟩
  · obtain ⟨hline, hcause, hfirst, d, hd⟩ := Draft.of_ofLines_eq_error hread
    refine ⟨hline, htake, fun _ => ⟨?_, fun source' hsource' => ?_⟩, fun bank name hname => ?_⟩
    · rintro source' ⟨rest, hrest⟩
      refine bind_eq_error_iff.mpr (.inl ?_)
      rw [← hrest]
      exact Draft.ofLines_append_eq_error hfirst rest
    · exact readsThrough_iff.mpr ⟨d, hsource' ▸ hd⟩
    · exact absurd hname (hcause bank name)
  · obtain ⟨before, p, n, name, after, hstream, -, -, rfl⟩ :=
      (Draft.finish_eq_error_iff_stream hd).mp hfinish
    have hmem : (p, .literal (.symbol name), n) ∈ stream s (parts s (Text.lines source.toList)) :=
      hstream ▸ List.mem_append_right before List.mem_cons_self
    obtain ⟨line, k, hone, hline, htoken⟩ := exists_getElem?_of_mem_stream hmem
    obtain ⟨hlt, -⟩ := List.getElem?_eq_some_iff.mp hline
    refine ⟨⟨hone, Nat.le_of_pred_lt hlt⟩, htake, fun hcause => absurd rfl (hcause p.bank name), ?_⟩
    intro bank name' hcause
    obtain ⟨-, rfl⟩ := Cause.unresolvedName.inj hcause
    refine ⟨⟨line, hline, mem_words_of_mem_tokensAt htoken⟩, ⟨d, hd⟩, fun m source' hsource' => ?_⟩
    rw [readsThrough_iff, hsource']
    exact Draft.exists_ofLines_take hd m

/-- A number too large in line 3 is reported, whatever stands behind it, and not that `x` stands for
nothing up to there; `z` is reported where it is used. -/
theorem error_behind_unknown_name :
    (∀ source',
      [".prg 0".toList, "JUMP @x".toList, ".dat 256".toList] <+: Text.lines source'.toList →
      assemble .standard source' = .error ⟨3, .badDecimal "256"⟩) ∧
    ReadsThrough .standard ".prg 0\nJUMP @x\n" ∧
    ReadsThrough .standard ".prg 0\nJUMP @x\n:x\nADD @z 1 ; y\n" := by
  have hnumber : assemble .standard ".prg 0\nJUMP @x\n.dat 256\n:x\n.dat 300\n"
      = .error ⟨3, .badDecimal "256"⟩ := by decide +kernel
  have hname : assemble .standard ".prg 0\nJUMP @x\n:x\nADD @z 1 ; y\n.prg 1\n.dat @y\n"
      = .error ⟨4, .unresolvedName 0 "z"⟩ := by decide +kernel
  obtain ⟨hsame, hbefore⟩ := (error_points_at_first_bad_line hnumber).2.2.1 (by rintro bank name ⟨⟩)
  have hends := ((error_points_at_first_bad_line hname).2.2.2 0 "z" rfl).2.2
  refine ⟨fun source' hsource' => hsame source' ?_, hbefore _ (by decide +kernel), ?_⟩
  · have hlines : (Text.lines ".prg 0\nJUMP @x\n.dat 256\n:x\n.dat 300\n".toList).take 3
        = [".prg 0".toList, "JUMP @x".toList, ".dat 256".toList] := by decide +kernel
    exact hlines ▸ hsource'
  · exact hends 4 _ (by decide +kernel)

end Protocell
