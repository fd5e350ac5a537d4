import Protocell.Proofs.Source.DataLines

/-!
# Proofs/DataSource — sources of bytes alone

A source without instructions and names gives the bytes of each bank as they are: it says which
banks there are and spells their bytes, line by line (`IsDataSource`).  Such a source becomes just
the program whose banks it gives, whatever the instruction set and the order of the banks.

Reading keeps the bytes of the bank begun last (`Draft.readLine?_of_dataLine`), and folding leaves
bytes that no instruction takes in their places (`fold_bytes`).  Every program has a source of this
kind (`exists_isDataSource`).
-/

namespace Protocell

namespace Assembly

/-! ## Sources -/

/-- **Lines of data**, for a bank whose next offset is `n`, and the bytes that they spell. -/
inductive DataLines : ℕ → List (List Char) → List UInt8 → Prop
  | nil (n : ℕ) : DataLines n [] []
  | cons {n : ℕ} {line : List Char} {lines : List (List Char)} {vs ws : List UInt8} :
      DataLine n line vs → DataLines (n + vs.length) lines ws →
        DataLines n (line :: lines) (vs ++ ws)

/-- **Banks given by their bytes**: each begins with a line that says which bank it is. -/
inductive DataBanks : List (List Char) → List (UInt8 × List UInt8) → Prop
  | nil : DataBanks [] []
  | cons {line : List Char} {body rest : List (List Char)} {i : UInt8} {bytes : List UInt8}
      {banks : List (UInt8 × List UInt8)} : SpellsDirective "prg".toList line [i] →
      DataLines 0 body bytes → DataBanks rest banks →
      DataBanks (line :: (body ++ rest)) ((i, bytes) :: banks)

/-- **Lines that give the banks of a program by their bytes**, in any order. -/
def IsDataSource (p : Program) (lines : List (List Char)) : Prop :=
  ∃ preamble rest banks, lines = preamble ++ rest ∧ (∀ line ∈ preamble, EndsLine line) ∧
    DataBanks rest banks ∧ banks.Perm p.banks

/-! ## Reading -/

/-- What a source of bytes alone says of a bank, less line numbers. -/
def Section.ofBytes (bank : UInt8) (bytes : List UInt8) : Section :=
  { bank, line := 0, tokens := bytes.map fun v => (Token.byte v, 0) }

namespace Section

variable {i : UInt8} {bytes vs : List UInt8}

theorem offset_ofBytes : (ofBytes i bytes).offset = bytes.length := List.length_map _

theorem extend_ofBytes (h : bytes.length + vs.length ≤ bankSize) :
    (ofBytes i bytes).extend 0 (vs.map Token.byte) = .ok (ofBytes i (bytes ++ vs)) := by
  rw [extend, offset_ofBytes, List.length_map, if_neg (Nat.not_lt.mpr h), ofBytes, ofBytes,
    List.map_map, List.map_append]
  rfl

theorem advance_ofBytes {v : UInt8} (h : bytes.length ≤ v.toNat) :
    (ofBytes i bytes).advance 0 v
      = .ok (ofBytes i (bytes ++ List.replicate (v.toNat - bytes.length) 0)) := by
  have hv := v.toNat_lt
  have hzeros : List.replicate (v.toNat - bytes.length) (Token.byte 0)
      = (List.replicate (v.toNat - bytes.length) (0 : UInt8)).map Token.byte :=
    List.map_replicate.symm
  rw [advance, offset_ofBytes, if_neg (Nat.not_lt.mpr h), hzeros, extend_ofBytes]
  rw [List.length_replicate, bankSize]
  omega

theorem atoms_ofBytes (constants : List (String × UInt8)) :
    (ofBytes i bytes).atoms constants = .ok (bytes.map Atom.byte) := by
  rw [atoms, mapM_eq_ok_iff, ofBytes, List.forall₂_map_left_iff, List.forall₂_map_right_iff]
  exact List.forall₂_same.mpr fun v _ => rfl

end Section

namespace Draft

variable {s : InstructionSet} {i : UInt8} {bytes vs : List UInt8} {bs : List Section}

/-- **A line of data adds its bytes to the bank begun last.** -/
theorem readLine?_of_dataLine {line : List Char} (h : DataLine bytes.length line vs)
    (hfit : bytes.length + vs.length ≤ bankSize) :
    readLine? s ⟨.ofBytes i bytes :: bs, []⟩ line
      = some ⟨.ofBytes i (bytes ++ vs) :: bs, []⟩ := by
  cases h with
  | skip hline => rw [readLine?_of_isBlank hline.isBlank, List.append_nil]
  | bytes hline =>
    rw [readLine?, hline.parse?_data]
    simp only [add, modifyCurrent, Section.extend_ofBytes hfit]
    rfl
  | origin hline hle =>
    rw [readLine?, hline.parse?_origin]
    simp only [add, modifyCurrent, Section.advance_ofBytes hle]
    rfl
  | text lead gap text tail hlead hgap htext htail =>
    rw [readLine?, parse?_text hlead hgap htext htail]
    simp only [add, modifyCurrent, Section.extend_ofBytes hfit]
    rfl

theorem readLines?_of_dataLines {n : ℕ} {lines : List (List Char)} (h : DataLines n lines vs)
    (hn : bytes.length = n) (hfit : n + vs.length ≤ bankSize) :
    readLines? s ⟨.ofBytes i bytes :: bs, []⟩ lines
      = some ⟨.ofBytes i (bytes ++ vs) :: bs, []⟩ := by
  induction h generalizing bytes with
  | nil n =>
    rw [List.append_nil]
    rfl
  | @cons n line lines vs ws hline _ ih =>
    subst hn
    rw [List.length_append] at hfit
    rw [readLines?, List.foldlM_cons, readLine?_of_dataLine hline (by omega), ← List.append_assoc]
    exact ih List.length_append (by omega)

/-- **Banks given by their bytes are read as they are**, the last one first. -/
theorem readLines?_of_dataBanks {lines : List (List Char)} {banks : List (UInt8 × List UInt8)}
    (h : DataBanks lines banks) (hfit : ∀ b ∈ banks, b.2.length ≤ bankSize)
    (hbanks : (banks.map Prod.fst).Nodup) (hnew : ∀ c ∈ bs, ∀ b ∈ banks, c.bank ≠ b.1) :
    readLines? s ⟨bs, []⟩ lines
      = some ⟨(banks.map fun b => Section.ofBytes b.1 b.2).reverse ++ bs, []⟩ := by
  induction h generalizing bs with
  | nil => rfl
  | @cons line body rest i bytes banks hline hbody _ ih =>
    obtain ⟨hbytes, hfit⟩ := List.forall_mem_cons.mp hfit
    rw [List.map_cons, List.nodup_cons] at hbanks
    have hfree : begin ⟨bs, []⟩ 0 i none = .ok ⟨.ofBytes i [] :: bs, []⟩ :=
      begin_eq_ok_iff.mpr ⟨fun c hc => hnew c hc _ List.mem_cons_self, by rintro k ⟨⟩, rfl⟩
    have hbegin : readLine? s ⟨bs, []⟩ line = some ⟨.ofBytes i [] :: bs, []⟩ := by
      rw [readLine?, hline.parse?_bank]
      simp only [add, hfree]
      rfl
    have hread : readLines? s ⟨.ofBytes i [] :: bs, []⟩ body = some ⟨.ofBytes i bytes :: bs, []⟩ :=
      readLines?_of_dataLines hbody rfl (by rw [Nat.zero_add]; exact hbytes)
    have hnew' : ∀ c ∈ Section.ofBytes i bytes :: bs, ∀ b ∈ banks, c.bank ≠ b.1 := by
      refine List.forall_mem_cons.mpr ⟨fun b hb heq => hbanks.1 ?_, fun c hc b hb => ?_⟩
      · exact List.mem_map.mpr ⟨b, hb, heq.symm⟩
      · exact hnew c hc b (List.mem_cons_of_mem _ hb)
    rw [List.map_cons, List.reverse_cons, List.append_assoc, List.singleton_append,
      ← ih hfit hbanks.2 hnew']
    rw [readLines?, List.foldlM_cons, hbegin]
    change readLines? s _ (body ++ rest) = _
    rw [readLines?_append, hread]
    rfl

end Draft

/-! ## Programs -/

/-- **Bytes that no instruction takes stay where they are.** -/
theorem fold_bytes (vs : List UInt8) : fold (vs.map Atom.byte) = vs := by
  have hplace (back : List Placed) : (vs.map Atom.byte).foldl place back
      = (vs.map fun v => ⟨1, .raw v⟩).reverse ++ back := by
    induction vs generalizing back with
    | nil => rfl
    | cons v vs ih =>
      rw [List.map_cons, List.foldl_cons, ih, List.map_cons, List.reverse_cons, List.append_assoc]
      rfl
  rw [fold, hplace, List.append_nil, List.reverse_reverse, List.flatMap_map]
  exact List.flatMap_singleton' vs

namespace Draft

variable {s : InstructionSet} {p : Program}

/-- A source of bytes alone is read without a fault. -/
theorem readLines?_of_isDataSource {preamble rest : List (List Char)}
    {banks : List (UInt8 × List UInt8)} (hpreamble : ∀ line ∈ preamble, EndsLine line)
    (hrest : DataBanks rest banks) (hbanks : banks.Perm p.banks) :
    readLines? s {} (preamble ++ rest)
      = some ⟨(banks.map fun b => Section.ofBytes b.1 b.2).reverse, []⟩ := by
  have hskip : readLines? s {} preamble = some {} :=
    readLines?_of_isBlank (fun line hline => (hpreamble line hline).isBlank) s {}
  have hfit : ∀ b ∈ banks, b.2.length ≤ bankSize := fun b hb =>
    Program.length_le_of_get? (Program.mem_banks.mp (hbanks.mem_iff.mp hb))
  have hnodup : (banks.map Prod.fst).Nodup := by
    rw [(hbanks.map Prod.fst).nodup_iff, List.Nodup, List.pairwise_map]
    refine p.pairwise_banks.imp ?_
    intro b c hlt heq
    rw [heq] at hlt
    exact UInt8.lt_irrefl _ hlt
  have hnew : ∀ c ∈ ([] : List Section), ∀ b ∈ banks, c.bank ≠ b.1 := by rintro c ⟨⟩
  have hread := readLines?_of_dataBanks (s := s) hrest hfit hnodup hnew
  rw [List.append_nil] at hread
  rw [readLines?_append, hskip]
  exact hread

/-- **The banks that a source of bytes alone gives are those of its program.** -/
theorem yields_of_perm_banks {banks : List (UInt8 × List UInt8)} (h : banks.Perm p.banks) :
    Yields ⟨(banks.map fun b => Section.ofBytes b.1 b.2).reverse, []⟩ p where
  bank := by
    intro b hb
    obtain ⟨⟨i, bytes⟩, hmem, rfl⟩ := List.mem_map.mp (List.mem_reverse.mp hb)
    refine ⟨_, Section.atoms_ofBytes _, ?_⟩
    rw [fold_bytes]
    exact Program.mem_banks.mp (h.mem_iff.mp hmem)
  other := by
    intro i hi
    rw [Option.eq_none_iff_forall_ne_some]
    intro bytes hbytes
    have hmem := h.mem_iff.mpr (Program.mem_banks.mpr hbytes)
    exact hi _ (List.mem_reverse.mpr (List.mem_map_of_mem hmem)) rfl

end Draft

/-! ## Every program has a source -/

/-- A directive with bytes in decimal behind it. -/
def decimalLine (name : List Char) (vs : List UInt8) : List Char :=
  '.' :: (name ++ Text.spaced (vs.map fun v => padded 0 v.toNat))

/-- The lines of some banks, with the bytes of each of them in one line. -/
def decimalLines (banks : List (UInt8 × List UInt8)) : List (List Char) :=
  banks.flatMap fun b => [decimalLine "prg".toList [b.1], decimalLine "dat".toList b.2]

theorem spellsDirective_decimalLine (name : List Char) (vs : List UInt8) :
    SpellsDirective name (decimalLine name vs) vs := by
  have hgap : Text.IsGap [' '] := ⟨List.cons_ne_nil _ _, by decide⟩
  have hnone : Text.IsBlanks [] := by rintro c ⟨⟩
  have hoperands (vs : List UInt8) :
      SpellsBytes (Text.spaced (vs.map fun v => padded 0 v.toNat)) vs := by
    induction vs with
    | nil => exact .nil
    | cons v vs ih => exact .cons hgap (.decimal 0) ih
  have hline : SpellsDirective name ([] ++ (decimalLine name vs ++ [])) vs :=
    .intro [] _ [] hnone (hoperands vs) (.blanks hnone)
  rwa [List.append_nil] at hline

theorem dataBanks_decimalLines (banks : List (UInt8 × List UInt8)) :
    DataBanks (decimalLines banks) banks := by
  induction banks with
  | nil => exact .nil
  | cons b banks ih =>
    have hbody : DataLines 0 [decimalLine "dat".toList b.2] (b.2 ++ []) :=
      .cons (.bytes (spellsDirective_decimalLine _ _)) (.nil _)
    rw [List.append_nil] at hbody
    exact .cons (spellsDirective_decimalLine _ _) hbody ih

theorem newline_not_mem_decimalLine {name : List Char} (hname : '\n' ∉ name) (vs : List UInt8) :
    '\n' ∉ decimalLine name vs := by
  have hwords : ∀ w ∈ vs.map fun v => padded 0 v.toNat, Text.IsWord w := by
    refine List.forall_mem_map.mpr fun v _ => ?_
    exact isWord_of_digits (padded_ne_nil _ _) fun c => isDigit_of_mem_padded
  rw [decimalLine, List.mem_cons, List.mem_append, not_or, not_or]
  exact ⟨by decide, hname, newline_not_mem_spaced hwords⟩

/-- **Every program has a source of bytes alone.** -/
theorem exists_isDataSource (p : Program) :
    ∃ source : String, IsDataSource p (Text.lines source.toList) := by
  have hplain : ∀ line ∈ decimalLines p.banks, '\n' ∉ line := by
    intro line hline
    obtain ⟨b, -, hline⟩ := List.mem_flatMap.mp hline
    rcases List.mem_cons.mp hline with rfl | hline
    · exact newline_not_mem_decimalLine (by decide) _
    · obtain rfl := List.mem_singleton.mp hline
      exact newline_not_mem_decimalLine (by decide) _
  refine ⟨.ofList ((decimalLines p.banks).flatMap fun line => line ++ ['\r', '\n']), ?_⟩
  rw [String.toList_ofList, Text.lines_flatMap hplain]
  exact ⟨[], _, _, rfl, by rintro line ⟨⟩, dataBanks_decimalLines _, .refl _⟩

end Assembly

open Assembly

/-- **Data sources assemble verbatim.**  A source that gives each bank of a program once, in any
order, by lines that spell its bytes becomes just that program, with any instruction set.  Every
program has such a source. -/
theorem data_sources_assemble_verbatim (s : InstructionSet) (p : Program) :
    (∃ source : String, IsDataSource p (Text.lines source.toList)) ∧
    ∀ source : String, IsDataSource p (Text.lines source.toList) → assemble s source = .ok p := by
  refine ⟨exists_isDataSource p, ?_⟩
  rintro source ⟨preamble, rest, banks, hlines, hpreamble, hrest, hbanks⟩
  have hread := Draft.readLines?_of_isDataSource (s := s) hpreamble hrest hbanks
  rw [← hlines, Draft.readLines?_eq_ofLines, Option.map_eq_some_iff] at hread
  obtain ⟨d, hd, hdraft⟩ := hread
  rw [toOption_eq_some_iff] at hd
  refine bind_eq_ok_iff.mpr ⟨d, hd, (Draft.finish_eq_ok_iff (Draft.nodup_of_ofLines hd)).mpr ?_⟩
  rw [← Draft.yields_unnumbered_iff, hdraft]
  exact Draft.yields_of_perm_banks hbanks

/-- Two banks of which one is empty, with a comment before them and a semicolon in a text. -/
theorem two_banks_of_data :
    ∃ p, p.banks = [(0, [1, 255, 3, 97, 59, 32, 98, 0, 0, 0, 0]), (7, [])] ∧
      assemble .standard ("; data\n.prg 7 ; empty\n\n\t.prg 000\n.dat 1 $fF 003 ; three\n" ++
        ".str \"a; b\" ; text\n  .org $0a\n.str \"\"\n") = .ok p := by
  let bytes : List UInt8 := [1, 255, 3, 97, 59, 32, 98, 0, 0, 0, 0]
  let p : Program :=
    ⟨((ByteTable.fill none).set 0 (some ⟨bytes, by decide⟩)).set 7 (some ⟨[], by decide⟩)⟩
  have hbanks : p.banks = [(0, bytes), (7, [])] := by decide +kernel
  have hnone : Text.IsBlanks [] := by decide
  have hgap : Text.IsGap [' '] := ⟨by decide, by decide⟩
  have hspace : Text.IsBlanks [' '] := by decide
  have hzeros : SpellsByte 0 ['0', '0', '0'] := .decimal 2
  have hseven : SpellsByte 7 ['7'] := .decimal 0
  have hone : SpellsByte 1 ['1'] := .decimal 0
  have hlast : SpellsByte 255 ['$', 'f', 'F'] := .hex 0 (by decide +kernel)
  have hthree : SpellsByte 3 ['0', '0', '3'] := .decimal 2
  have hten : SpellsByte 10 ['$', '0', 'a'] := .hex 1 (by decide +kernel)
  have hfirst : SpellsDirective "prg".toList _ [7] :=
    .intro [] _ _ hnone (.cons hgap hseven .nil) (.comment " empty".toList hspace)
  have hsecond : SpellsDirective "prg".toList _ [0] :=
    .intro ['\t'] _ [] (by decide) (.cons hgap hzeros .nil) (.blanks hnone)
  have hdata : DataLine 0 _ [1, 255, 3] :=
    .bytes (.intro [] _ _ hnone (.cons hgap hone (.cons hgap hlast (.cons hgap hthree .nil)))
      (.comment " three".toList hspace))
  have htext : DataLine 3 _ [97, 59, 32, 98, 0] :=
    .text [] [' '] "a; b".toList _ hnone hgap (by decide) (.comment " text".toList hspace)
  have horigin : DataLine 8 _ [0, 0] :=
    .origin (.intro [' ', ' '] _ [] (by decide) (.cons hgap hten .nil) (.blanks hnone)) (by decide)
  have hquotes : DataLine 10 _ [0] := .text [] [' '] [] [] hnone hgap (by decide) (.blanks hnone)
  have hsource := DataBanks.cons hfirst (.cons (.skip (.blanks hnone)) (.nil _))
    (.cons hsecond (.cons hdata (.cons htext (.cons horigin (.cons hquotes (.nil _))))) .nil)
  refine ⟨p, hbanks, (data_sources_assemble_verbatim .standard p).2 _ ?_⟩
  refine ⟨["; data".toList], _, _, ?_, ?_, hsource, ?_⟩
  · decide +kernel
  · refine List.forall_mem_singleton.mpr ?_
    exact .comment " data".toList hnone
  · rw [hbanks]
    exact .swap _ _ _

end Protocell
