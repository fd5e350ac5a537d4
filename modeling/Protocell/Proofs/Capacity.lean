import Protocell.Proofs.Folding.Locality
import Protocell.Proofs.Source.Parts
import Protocell.Proofs.Source.Reading

/-!
# Proofs/Capacity — how many bytes a bank has

The size of a bank can be told from its lines, before any literal has moved (`Part.size`).  A bank
takes a line only if it does not go past 256 bytes, and folding keeps their number.  So what comes
out of a bank always fits: finishing a draft fails at unresolved names alone
(`finish_eq_error_iff`), and only lines can be too much (`ofLines_eq_overflow_iff`).
-/

namespace Protocell.Assembly

/-! ## Sizes -/

/-- **The number of bytes that the lines of a bank put in.** -/
def Part.size (p : Part) : ℕ := p.body.foldl (fun n l => n + byteCount n l.1) 0

/-- **A line is too much for a bank of `n` bytes**: it takes the bank past 256 bytes, or it is a
label for the offset behind the last of them. -/
def Overflows (s : InstructionSet) (n : ℕ) (line : List Char) : Prop :=
  ∃ st, Statement.parse? s line = .ok (some st) ∧
    (bankSize < n + byteCount n line ∨ (∃ name, st = .label name) ∧ n = bankSize)

theorem length_tokensAt {s : InstructionSet} {line : List Char} {st : Option Statement}
    (h : Statement.parse? s line = .ok st) (n : ℕ) :
    (tokensAt s n line).length = byteCount n line := by
  rw [← Statement.size_of_parse? h, tokensAt, h]
  cases st with
  | none => rfl
  | some st =>
    cases st with
    | bank index name => rfl
    | label name => rfl
    | tokens ts => rfl
    | origin offset => exact List.length_replicate

theorem Takes.length_le {s : InstructionSet} {n : ℕ} {line : List Char} (h : Takes s n line)
    (hn : n ≤ bankSize) : n + (tokensAt s n line).length ≤ bankSize := by
  rw [Takes] at h
  split at h
  · rename_i hparse
    simp only [tokensAt, hparse]
    exact hn
  · rename_i hparse
    simpa only [tokensAt, hparse] using h
  · rename_i origin hparse
    have horigin := origin.toNat_lt
    simp only [tokensAt, hparse, List.length_replicate, bankSize]
    omega
  · rename_i hparse
    simp only [tokensAt, hparse]
    exact hn
  · exact h.elim
  · exact h.elim

theorem TakesAll.length_le {s : InstructionSet} {n : ℕ} {ls : List (List Char × ℕ)}
    (h : TakesAll s n ls) (hn : n ≤ bankSize) : n + (tokensFrom s n ls).length ≤ bankSize := by
  induction ls generalizing n with
  | nil => exact hn
  | cons l ls ih =>
    have hrest := ih h.2 (h.1.length_le hn)
    rw [tokensFrom, List.length_append, List.length_map]
    omega

/-- **One token is one byte of a line.** -/
theorem TakesAll.foldl_byteCount {s : InstructionSet} {n : ℕ} {ls : List (List Char × ℕ)}
    (h : TakesAll s n ls) :
    ls.foldl (fun n l => n + byteCount n l.1) n = n + (tokensFrom s n ls).length := by
  induction ls generalizing n with
  | nil => rfl
  | cons l ls ih =>
    obtain ⟨st, hst⟩ := h.1.exists_parse?
    have hrest := ih h.2
    rw [length_tokensAt hst] at hrest
    rw [List.foldl_cons, hrest, tokensFrom, List.length_append, List.length_map,
      length_tokensAt hst, Nat.add_assoc]

namespace Draft

variable {s : InstructionSet} {lines : List (List Char)} {d : Draft} {p : Part}

theorem length_tokens (h : ofLines s lines = .ok d) (hp : p ∈ parts s lines) :
    (p.tokens s).length = p.size := by
  rw [Part.size, (takesAll_of_mem_parts h hp).foldl_byteCount, Nat.zero_add, Part.tokens]

theorem size_le (h : ofLines s lines = .ok d) (hp : p ∈ parts s lines) : p.size ≤ bankSize := by
  rw [← length_tokens h hp, Part.tokens, ← Nat.zero_add (tokensFrom s 0 p.body).length]
  exact (takesAll_of_mem_parts h hp).length_le (Nat.zero_le _)

/-- **A bank has at most 256 tokens.** -/
theorem offset_le (h : ofLines s lines = .ok d) {b : Section} (hb : b ∈ d.sections) :
    b.offset ≤ bankSize := by
  obtain ⟨p, hp, rfl⟩ := (mem_sections_iff h).mp hb
  rw [Section.offset, Part.toSection, length_tokens h hp]
  exact size_le h hp

end Draft

/-! ## Putting banks into a program -/

theorem Section.resolve_eq_error_iff {constants : List (String × UInt8)} {b : Section}
    {t : Token × ℕ} {e : Error} : b.resolve constants t = .error e ↔
      ∃ name, t.1 = .literal (.symbol name) ∧ b.lookup constants name = none ∧
        e = ⟨t.2, .unresolvedName b.bank name⟩ := by
  obtain ⟨t, n⟩ := t
  cases t with
  | instruction i => exact iff_of_false (by rintro ⟨⟩) (by rintro ⟨_, ⟨⟩, _⟩)
  | literal l =>
    cases l with
    | value v => exact iff_of_false (by rintro ⟨⟩) (by rintro ⟨_, ⟨⟩, _⟩)
    | symbol name =>
      rw [resolve]
      cases hlookup : b.lookup constants name with
      | some v =>
        refine iff_of_false (by rintro ⟨⟩) ?_
        rintro ⟨_, ⟨⟩, hnone, -⟩
        rw [hlookup] at hnone
        cases hnone
      | none =>
        constructor
        · intro h
          exact ⟨name, rfl, hlookup, (Except.error.inj h).symm⟩
        · rintro ⟨_, ⟨⟩, -, rfl⟩
          rfl

namespace Draft

variable {constants : List (String × UInt8)} {bs : List Section}

/-- **What comes out of a bank always fits.** -/
theorem exists_insert_of_atoms {b : Section} {as : List Atom} (hb : b.offset ≤ bankSize)
    (has : b.atoms constants = .ok as) (q : Program) :
    ∃ q', q.insert b.bank (fold as) = .ok q' := by
  refine q.exists_insert_eq_ok b.bank ?_
  rw [length_fold, length_of_mapM_eq_ok has]
  exact hb

/-- Only an unresolved name keeps a bank out of a program. -/
theorem emit_eq_error_iff {b : Section} (hb : b.offset ≤ bankSize) {q : Program} {e : Error} :
    emit constants q b = .error e ↔ b.atoms constants = .error e := by
  rw [emit, bind_eq_error_iff]
  refine or_iff_left ?_
  rintro ⟨as, has, h⟩
  obtain ⟨q', hq'⟩ := exists_insert_of_atoms hb has q
  rw [hq'] at h
  cases h

theorem exists_foldlM_emit_iff (hbs : ∀ b ∈ bs, b.offset ≤ bankSize) (q : Program) :
    (∃ q', bs.foldlM (emit constants) q = .ok q') ↔ ∀ b ∈ bs, ∃ as, b.atoms constants = .ok as := by
  induction bs generalizing q with
  | nil => exact iff_of_true ⟨q, rfl⟩ fun b hb => absurd hb List.not_mem_nil
  | cons b bs ih =>
    obtain ⟨hb, hbs⟩ := List.forall_mem_cons.mp hbs
    rw [List.forall_mem_cons, List.foldlM_cons]
    constructor
    · rintro ⟨q', h⟩
      obtain ⟨q₁, hemit, h⟩ := bind_eq_ok_iff.mp h
      obtain ⟨as, has, -⟩ := emit_eq_ok_iff.mp hemit
      exact ⟨⟨as, has⟩, (ih hbs q₁).mp ⟨q', h⟩⟩
    · rintro ⟨⟨as, has⟩, h⟩
      obtain ⟨q₁, hq₁⟩ := exists_insert_of_atoms hb has q
      obtain ⟨q', hq'⟩ := (ih hbs q₁).mpr h
      exact ⟨q', bind_eq_ok_iff.mpr ⟨q₁, emit_eq_ok_iff.mpr ⟨as, has, hq₁⟩, hq'⟩⟩

/-- **Finishing a draft fails at the first bank that has an unresolved name.** -/
theorem finish_eq_error_iff {d : Draft} (hd : ∀ b ∈ d.sections, b.offset ≤ bankSize) {e : Error} :
    d.finish = .error e ↔ ∃ before b after, d.sections.reverse = before ++ b :: after ∧
      (∀ c ∈ before, ∃ as, c.atoms d.constants = .ok as) ∧ b.atoms d.constants = .error e := by
  have hsizes {before after : List Section} {b : Section}
      (hsplit : d.sections.reverse = before ++ b :: after) :
      (∀ c ∈ before, c.offset ≤ bankSize) ∧ b.offset ≤ bankSize := by
    refine ⟨fun c hc => hd c (List.mem_reverse.mp ?_), hd b (List.mem_reverse.mp ?_)⟩
    · rw [hsplit]
      exact List.mem_append_left _ hc
    · rw [hsplit]
      exact List.mem_append_right _ List.mem_cons_self
  rw [finish, foldlM_eq_error_iff]
  refine exists_congr fun before => exists_congr fun b => exists_congr fun after => ?_
  constructor
  · rintro ⟨q, hsplit, hbefore, hb⟩
    obtain ⟨hsmall, hsize⟩ := hsizes hsplit
    exact ⟨hsplit, (exists_foldlM_emit_iff hsmall _).mp ⟨q, hbefore⟩,
      (emit_eq_error_iff hsize).mp hb⟩
  · rintro ⟨hsplit, hbefore, hb⟩
    obtain ⟨hsmall, hsize⟩ := hsizes hsplit
    obtain ⟨q, hq⟩ := (exists_foldlM_emit_iff hsmall _).mpr hbefore
    exact ⟨q, hsplit, hq, (emit_eq_error_iff hsize).mpr hb⟩

end Draft

/-! ## Lines that are too much -/

namespace Section

variable {b : Section} {i : UInt8}

theorem extend_eq_overflow_iff {n : ℕ} {ts : List Token} :
    b.extend n ts = .error (.bankOverflow i) ↔ bankSize < b.offset + ts.length ∧ b.bank = i := by
  rw [extend]
  split
  · rename_i hsize
    simp only [Except.error.injEq, Cause.bankOverflow.injEq, hsize, true_and]
  · rename_i hsize
    exact iff_of_false (by rintro ⟨⟩) fun h => hsize h.1

theorem define_eq_overflow_iff {name : String} :
    b.define name = .error (.bankOverflow i) ↔ 255 < b.offset ∧ b.bank = i := by
  rw [define]
  split
  · rename_i hsize
    simp only [Except.error.injEq, Cause.bankOverflow.injEq, hsize, true_and]
  · rename_i hsize
    split
    · exact iff_of_false (by rintro ⟨⟩) fun h => hsize h.1
    · exact iff_of_false (by rintro ⟨⟩) fun h => hsize h.1

/-- An origin is an offset of a bank, and zeros up to it fit. -/
theorem advance_ne_overflow {n : ℕ} {origin : UInt8} :
    b.advance n origin ≠ .error (.bankOverflow i) := by
  rw [advance]
  split
  · rintro ⟨⟩
  · intro h
    have hsize := (extend_eq_overflow_iff.mp h).1
    have horigin := origin.toNat_lt
    rw [List.length_replicate, bankSize] at hsize
    omega

end Section

namespace Draft

variable {s : InstructionSet} {d : Draft} {i : UInt8}

theorem modifyCurrent_eq_overflow_iff {change : Section → Except Cause Section} :
    d.modifyCurrent change = .error (.bankOverflow i) ↔
      ∃ b ∈ d.sections.head?, change b = .error (.bankOverflow i) := by
  rw [modifyCurrent]
  split
  · rename_i hsections
    rw [hsections]
    exact iff_of_false (by rintro ⟨⟩) (by rintro ⟨_, ⟨⟩, _⟩)
  · rename_i b bs hsections
    rw [hsections, map_eq_error_iff]
    exact ⟨fun h => ⟨b, rfl, h⟩, by rintro ⟨_, ⟨⟩, h⟩; exact h⟩

theorem begin_ne_overflow {n : ℕ} {bank : UInt8} {name : Option String} :
    d.begin n bank name ≠ .error (.bankOverflow i) := by
  rw [begin.eq_def]
  split
  · rintro ⟨⟩
  · split
    · rintro ⟨⟩
    · split
      · rintro ⟨⟩
      · rintro ⟨⟩

/-- **A statement is too much** if its tokens take the bank past its size, or if it is a label for
the offset behind the last one. -/
theorem add_eq_overflow_iff (hd : ∀ b ∈ d.sections, b.offset ≤ bankSize) {n : ℕ} {st : Statement} :
    d.add n st = .error (.bankOverflow i) ↔ ∃ b ∈ d.sections.head?, b.bank = i ∧
      (bankSize < b.offset + st.size b.offset ∨
        (∃ name, st = .label name) ∧ b.offset = bankSize) := by
  have hhead {b : Section} (hb : b ∈ d.sections.head?) : b.offset ≤ bankSize :=
    hd b (List.mem_of_mem_head? hb)
  cases st with
  | bank index name =>
    refine iff_of_false begin_ne_overflow ?_
    rintro ⟨b, hb, -, hlt | ⟨⟨_, ⟨⟩⟩, -⟩⟩
    exact Nat.not_lt.mpr (hhead hb) hlt
  | label name =>
    rw [add, modifyCurrent_eq_overflow_iff]
    refine exists_congr fun b => and_congr_right fun hb => ?_
    have hle := hhead hb
    rw [Section.define_eq_overflow_iff, and_comm]
    simp only [Statement.size, Statement.label.injEq, exists_eq', true_and, bankSize] at hle ⊢
    exact and_congr_right fun _ => by omega
  | tokens ts =>
    rw [add, modifyCurrent_eq_overflow_iff]
    refine exists_congr fun b => and_congr_right fun _ => ?_
    rw [Section.extend_eq_overflow_iff, and_comm]
    simp only [Statement.size, reduceCtorEq, exists_false, false_and, or_false]
  | origin offset =>
    rw [add, modifyCurrent_eq_overflow_iff]
    refine exists_congr fun b => and_congr_right fun hb => ?_
    have hle := hhead hb
    have hoffset := offset.toNat_lt
    refine iff_of_false Section.advance_ne_overflow ?_
    rintro ⟨-, hlt | ⟨⟨_, ⟨⟩⟩, -⟩⟩
    rw [Statement.size, bankSize] at *
    omega

theorem addLine_eq_overflow_iff (hd : ∀ b ∈ d.sections, b.offset ≤ bankSize) {line : List Char}
    {n m : ℕ} : addLine s d (line, n) = .error ⟨m, .bankOverflow i⟩ ↔
      m = n ∧ ∃ b ∈ d.sections.head?, b.bank = i ∧ Overflows s b.offset line := by
  rw [addLine]
  split
  · rename_i c hparse
    refine iff_of_false (fun h => ?_) ?_
    · obtain ⟨-, rfl⟩ := Error.mk.inj (Except.error.inj h)
      exact Statement.isSyntax_of_parse? hparse
    · rintro ⟨-, b, -, -, st, hst, -⟩
      rw [hparse] at hst
      cases hst
  · rename_i hparse
    refine iff_of_false (by rintro ⟨⟩) ?_
    rintro ⟨-, b, -, -, st, hst, -⟩
    rw [hparse] at hst
    cases hst
  · rename_i st hparse
    have hover (b : Section) : Overflows s b.offset line ↔
        (bankSize < b.offset + st.size b.offset ∨
          (∃ name, st = .label name) ∧ b.offset = bankSize) := by
      have hsize := Statement.size_of_parse? hparse b.offset
      simp only [Overflows, hparse, Except.ok.injEq, Option.some.injEq, exists_eq_left', ← hsize]
      rfl
    simp only [hover, ← add_eq_overflow_iff (i := i) hd (n := n)]
    split
    · rename_i c hadd
      rw [hadd]
      simp only [Except.error.injEq, Error.mk.injEq, eq_comm (a := n)]
    · rename_i hadd
      rw [hadd]
      exact iff_of_false (by rintro ⟨⟩) (by rintro ⟨-, ⟨⟩⟩)

/-- The bank begun last is the last part of the lines read. -/
theorem head?_sections {lines : List (List Char)} (h : ofLines s lines = .ok d) :
    d.sections.head? = (parts s lines).getLast?.map (Part.toSection s) := by
  rw [eq_ofParts h, ofParts, List.head?_reverse, List.getLast?_map]

/-- **Reading fails at the first line that has a fault behind those before it.** -/
theorem ofLines_eq_error_iff {lines : List (List Char)} {e : Error} :
    ofLines s lines = .error e ↔ ∃ before line after d, lines = before ++ line :: after ∧
      ofLines s before = .ok d ∧ addLine s d (line, before.length + 1) = .error e := by
  rw [ofLines, foldlM_eq_error_iff]
  constructor
  · rintro ⟨before, l, after, d, hsplit, hbefore, hl⟩
    have hlines : lines = before.map Prod.fst ++ l.1 :: after.map Prod.fst := by
      rw [← List.map_cons, ← List.map_append, ← hsplit, List.zipIdx_map_fst]
    have hlength : ((before.map Prod.fst).zipIdx 1).length = before.length := by
      rw [List.length_zipIdx, List.length_map]
    rw [hlines, List.zipIdx_append, List.zipIdx_cons] at hsplit
    obtain ⟨hfirst, hrest⟩ := List.append_inj hsplit hlength
    obtain ⟨hline, -⟩ := List.cons.inj hrest
    refine ⟨before.map Prod.fst, l.1, after.map Prod.fst, d, hlines, ?_, ?_⟩
    · rw [ofLines, hfirst, hbefore]
    · rw [Nat.add_comm, hline, hl]
  · rintro ⟨before, line, after, d, rfl, hbefore, hline⟩
    rw [List.zipIdx_append, List.zipIdx_cons]
    exact ⟨_, _, _, d, rfl, hbefore, by rw [Nat.add_comm]; exact hline⟩

/-- **The line pass reports an overflow just at a line that is too much for its bank.** -/
theorem ofLines_eq_overflow_iff {lines : List (List Char)} {n : ℕ} :
    ofLines s lines = .error ⟨n, .bankOverflow i⟩ ↔ ∃ before line after,
      lines = before ++ line :: after ∧ n = before.length + 1 ∧
        (∃ d, ofLines s before = .ok d) ∧
        ∃ part ∈ (parts s before).getLast?, part.bank = i ∧ Overflows s part.size line := by
  have hline {before : List (List Char)} {line : List Char} {d : Draft}
      (h : ofLines s before = .ok d) :
      addLine s d (line, before.length + 1) = .error ⟨n, .bankOverflow i⟩ ↔ n = before.length + 1 ∧
        ∃ part ∈ (parts s before).getLast?, part.bank = i ∧ Overflows s part.size line := by
    rw [addLine_eq_overflow_iff fun b hb => offset_le h hb, head?_sections h]
    refine and_congr_right fun _ => ?_
    constructor
    · rintro ⟨b, hb, hi, hover⟩
      obtain ⟨part, hpart, rfl⟩ := Option.map_eq_some_iff.mp hb
      refine ⟨part, hpart, hi, ?_⟩
      rwa [← length_tokens h (List.mem_of_mem_getLast? hpart)]
    · rintro ⟨part, hpart, hi, hover⟩
      refine ⟨part.toSection s, Option.map_eq_some_iff.mpr ⟨part, hpart, rfl⟩, hi, ?_⟩
      rwa [← length_tokens h (List.mem_of_mem_getLast? hpart)] at hover
  rw [ofLines_eq_error_iff]
  constructor
  · rintro ⟨before, line, after, d, rfl, hbefore, h⟩
    obtain ⟨hn, hpart⟩ := (hline hbefore).mp h
    exact ⟨before, line, after, rfl, hn, ⟨d, hbefore⟩, hpart⟩
  · rintro ⟨before, line, after, rfl, hn, ⟨d, hbefore⟩, hpart⟩
    exact ⟨before, line, after, d, rfl, hbefore, (hline hbefore).mpr ⟨hn, hpart⟩⟩

theorem finish_ne_overflow (hd : ∀ b ∈ d.sections, b.offset ≤ bankSize) {n : ℕ} :
    d.finish ≠ .error ⟨n, .bankOverflow i⟩ := by
  intro h
  obtain ⟨-, b, -, -, -, hb⟩ := (finish_eq_error_iff hd).mp h
  obtain ⟨-, t, -, -, -, ht⟩ := mapM_eq_error_iff.mp hb
  obtain ⟨name, -, -, ⟨⟩⟩ := Section.resolve_eq_error_iff.mp ht

end Draft

end Protocell.Assembly

namespace Protocell

open Assembly

/-- **One token is one byte, and the limit is exact.**  Folding keeps the number of atoms.  Hence,
of every source: what comes out of a bank can always be put into a program; if the source assembles,
the banks of the program are those that it declares, each as long as its lines put bytes in; and the
line pass reports an overflow at a line just if no line before it has a fault and the line takes its
bank past 256 bytes or is a label for offset 256.  No other overflow is ever reported. -/
theorem size_limit_is_exact (s : InstructionSet) :
    (∀ atoms, (fold atoms).length = atoms.length) ∧
    ∀ source : String,
      (∀ d, Draft.ofLines s (Text.lines source.toList) = .ok d → ∀ b ∈ d.sections, ∀ as,
        b.atoms d.constants = .ok as → ∀ q : Program, ∃ q', q.insert b.bank (fold as) = .ok q') ∧
      (∀ p, assemble s source = .ok p →
        (∀ i, p.has i = true ↔ ∃ part ∈ parts s (Text.lines source.toList), part.bank = i) ∧
        ∀ part ∈ parts s (Text.lines source.toList),
          ∃ bytes, p.get? part.bank = some bytes ∧ bytes.length = part.size) ∧
      (∀ n i, Draft.ofLines s (Text.lines source.toList) = .error ⟨n, .bankOverflow i⟩ ↔
        ∃ before line after, Text.lines source.toList = before ++ line :: after ∧
          n = before.length + 1 ∧ (∃ d, Draft.ofLines s before = .ok d) ∧
          ∃ part ∈ (parts s before).getLast?, part.bank = i ∧ Overflows s part.size line) ∧
      ∀ n i, assemble s source = .error ⟨n, .bankOverflow i⟩ ↔
        Draft.ofLines s (Text.lines source.toList) = .error ⟨n, .bankOverflow i⟩ := by
  refine ⟨length_fold, fun source => ⟨?_, ?_, fun n i => Draft.ofLines_eq_overflow_iff, ?_⟩⟩
  · intro d hd b hb as has q
    exact Draft.exists_insert_of_atoms (Draft.offset_le hd hb) has q
  · intro p h
    obtain ⟨d, hd, hfinish⟩ := bind_eq_ok_iff.mp h
    obtain ⟨hbanks, hother⟩ := (Draft.finish_eq_ok_iff_parts hd).mp hfinish
    refine ⟨fun i => ⟨fun hi => ?_, ?_⟩, fun part hpart => ?_⟩
    · by_contra hnone
      rw [Program.has, hother i fun part hpart heq => hnone ⟨part, hpart, heq⟩] at hi
      cases hi
    · rintro ⟨part, hpart, rfl⟩
      obtain ⟨as, -, hget⟩ := hbanks part hpart
      rw [Program.has, hget]
      rfl
    · obtain ⟨as, has, hget⟩ := hbanks part hpart
      refine ⟨fold as, hget, ?_⟩
      rw [length_fold, length_of_mapM_eq_ok has, ← Draft.length_tokens hd hpart, Part.tokens]
  · intro n i
    rw [assemble, bind_eq_error_iff]
    refine or_iff_left ?_
    rintro ⟨d, hd, hfinish⟩
    exact Draft.finish_ne_overflow (fun b hb => Draft.offset_le hd hb) hfinish

/-- The last byte of a bank can have a label, and what is behind it cannot. -/
theorem full_bank_takes_no_label :
    (∃ p bytes, assemble .standard ".prg 3\n.org 255\n:last\nNOP\n" = .ok p ∧
      p.get? 3 = some bytes ∧ bytes.length = 256) ∧
    assemble .standard ".prg 3\n.org 255\n:last\nNOP\n:end\n" = .error ⟨5, .bankOverflow 3⟩ := by
  let lines : List (List Char) := [".prg 3".toList, ".org 255".toList, ":last".toList, "NOP".toList]
  let part : Part := ⟨(".prg 3".toList, 1), 3, none,
    [(".org 255".toList, 2), (":last".toList, 3), ("NOP".toList, 4)]⟩
  have hparts : parts .standard lines = [part] := by decide +kernel
  have hsize : part.size = 256 := by decide +kernel
  have hread : (Draft.ofLines .standard lines).toOption.isSome = true := by decide +kernel
  constructor
  · have hok : (assemble .standard ".prg 3\n.org 255\n:last\nNOP\n").toOption.isSome = true := by
      decide +kernel
    obtain ⟨p, hp⟩ := Option.isSome_iff_exists.mp hok
    rw [toOption_eq_some_iff] at hp
    have hlines : Text.lines ".prg 3\n.org 255\n:last\nNOP\n".toList = lines := by decide +kernel
    obtain ⟨-, hbanks⟩ := ((size_limit_is_exact .standard).2 _).2.1 p hp
    rw [hlines, hparts] at hbanks
    obtain ⟨bytes, hbytes, hlength⟩ := hbanks part (List.mem_singleton_self part)
    exact ⟨p, bytes, hp, hbytes, hlength.trans hsize⟩
  · obtain ⟨-, -, hlines, hall⟩ :=
      (size_limit_is_exact .standard).2 ".prg 3\n.org 255\n:last\nNOP\n:end\n"
    obtain ⟨d, hd⟩ := Option.isSome_iff_exists.mp hread
    rw [toOption_eq_some_iff] at hd
    refine (hall 5 3).mpr ((hlines 5 3).mpr
      ⟨lines, ":end".toList, [], by decide +kernel, rfl, ⟨d, hd⟩,
      part, by rw [hparts]; rfl, rfl, .label "end", rfl, .inr ⟨⟨"end", rfl⟩, hsize⟩⟩)

end Protocell
