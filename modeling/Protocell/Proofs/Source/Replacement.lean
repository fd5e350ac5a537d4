import Protocell.Proofs.Source.Parts
import Protocell.Proofs.Source.Shape
import Protocell.Proofs.Source.Spelling

/-!
# Proofs/Source/Replacement — sources with numbers in the place of names

In a code line and behind `.dat`, a word that reads as a name may give way to any word that reads as
the number the name stands for in its bank (`Part.ReplacesWord`).  All else stays, line by line
(`NamesReplaced`).

A line in which names are replaced reads as a line with as many tokens, so that the whole source is
read as before (`exists_ofLines_of_replaced`).  And each of its tokens stands for what the token in
its place stands for (`atoms_of_replaced`).
-/

namespace Protocell.Assembly

/-- Reads an operand of `.dat`. -/
def Token.parseOperand (word : List Char) : Except Cause Token := (Literal.parse word).map literal

/-- The operands of a `.dat` line. -/
def dataWords? (line : List Char) : Option (List (List Char)) :=
  match Text.trim (stripComment line) with
  | '.' :: text =>
    match Text.words text with
    | [] => none
    | word :: operands => if word = "dat".toList then some operands else none
  | _ => none

namespace Part

variable (s : InstructionSet) (ps : List Part) (p : Part)

/-- **A word and what stands in its place**: where names are known, a word that reads as a name
gives way to one that reads as its number. -/
inductive ReplacesWord (read : List Char → Except Cause Token) : List Char → List Char → Prop
  | name {w w' : List Char} {name : String} {v : UInt8} : read w = .ok (.literal (.symbol name)) →
      p.value? s ps name = some v → read w' = .ok (.literal (.value v)) → ReplacesWord read w w'
  /-- All other words stay. -/
  | other {w : List Char} : (∀ name, read w ≠ .ok (.literal (.symbol name))) → ReplacesWord read w w

/-- **A line and what stands in its place.** -/
inductive ReplacesLine : List Char → List Char → Prop
  | code {line line' : List Char} : isCode line = true → isCode line' = true →
      List.Forall₂ (p.ReplacesWord s ps (Token.parse s)) (codeWords line) (codeWords line') →
      ReplacesLine line line'
  | data {line line' : List Char} {ws ws' : List (List Char)} : dataWords? line = some ws →
      dataWords? line' = some ws' →
      List.Forall₂ (p.ReplacesWord s ps Token.parseOperand) ws ws' → ReplacesLine line line'
  /-- Other lines use no names. -/
  | other {line : List Char} : isCode line = false → dataWords? line = none → ReplacesLine line line

/-- **A bank and what stands in its place**: line by line, with the same line at its beginning. -/
structure Replaces (p' : Part) : Prop where
  head : p'.head = p.head
  bank : p'.bank = p.bank
  name : p'.name = p.name
  body : List.Forall₂ (fun l l' => l'.2 = l.2 ∧ p.ReplacesLine s ps l.1 l'.1) p.body p'.body

end Part

/-- **Each name in a source is replaced by a number that it stands for**: bank by bank, with the
same lines before the first one. -/
structure NamesReplaced (s : InstructionSet) (lines lines' : List (List Char)) : Prop where
  preamble : (split s (lines'.zipIdx 1)).1 = (split s (lines.zipIdx 1)).1
  parts : List.Forall₂ (Part.Replaces s (parts s lines)) (parts s lines) (parts s lines')

section Decidable

variable {s : InstructionSet} {ps : List Part} {p : Part}

theorem Part.replacesWord_iff {read : List Char → Except Cause Token} {w w' : List Char} :
    p.ReplacesWord s ps read w w' ↔
      match read w with
      | .ok (.literal (.symbol name)) =>
        ∃ v ∈ p.value? s ps name, read w' = .ok (.literal (.value v))
      | _ => w' = w := by
  constructor
  · rintro (⟨hname, hv, hvalue⟩ | hother)
    · rw [hname]
      exact ⟨_, hv, hvalue⟩
    · split
      · exact absurd ‹_› (hother _)
      · rfl
  · intro h
    split at h
    · obtain ⟨v, hv, hvalue⟩ := h
      exact .name ‹_› hv hvalue
    · rename_i hother
      rw [h]
      exact .other hother

instance (read : List Char → Except Cause Token) (w w' : List Char) :
    Decidable (p.ReplacesWord s ps read w w') := by
  refine @decidable_of_iff _ _ Part.replacesWord_iff.symm ?_
  split
  · infer_instance
  · infer_instance

theorem Part.replacesLine_iff {line line' : List Char} :
    p.ReplacesLine s ps line line' ↔
      (isCode line = true ∧ isCode line' = true ∧
        List.Forall₂ (p.ReplacesWord s ps (Token.parse s)) (codeWords line) (codeWords line')) ∨
      (∃ ws ∈ dataWords? line, ∃ ws' ∈ dataWords? line',
        List.Forall₂ (p.ReplacesWord s ps Token.parseOperand) ws ws') ∨
      isCode line = false ∧ dataWords? line = none ∧ line' = line := by
  constructor
  · rintro (⟨hcode, hcode', hwords⟩ | ⟨hdata, hdata', hwords⟩ | ⟨hcode, hdata⟩)
    · exact .inl ⟨hcode, hcode', hwords⟩
    · exact .inr (.inl ⟨_, hdata, _, hdata', hwords⟩)
    · exact .inr (.inr ⟨hcode, hdata, rfl⟩)
  · rintro (⟨hcode, hcode', hwords⟩ | ⟨ws, hdata, ws', hdata', hwords⟩ | ⟨hcode, hdata, rfl⟩)
    · exact .code hcode hcode' hwords
    · exact .data hdata hdata' hwords
    · exact .other hcode hdata

instance (line line' : List Char) : Decidable (p.ReplacesLine s ps line line') :=
  decidable_of_iff _ Part.replacesLine_iff.symm

instance (p' : Part) : Decidable (p.Replaces s ps p') :=
  decidable_of_iff (p'.head = p.head ∧ p'.bank = p.bank ∧ p'.name = p.name ∧
      List.Forall₂ (fun l l' => l'.2 = l.2 ∧ p.ReplacesLine s ps l.1 l'.1) p.body p'.body)
    ⟨fun ⟨hhead, hbank, hname, hbody⟩ => ⟨hhead, hbank, hname, hbody⟩,
      fun ⟨hhead, hbank, hname, hbody⟩ => ⟨hhead, hbank, hname, hbody⟩⟩

instance (lines lines' : List (List Char)) : Decidable (NamesReplaced s lines lines') :=
  decidable_of_iff ((split s (lines'.zipIdx 1)).1 = (split s (lines.zipIdx 1)).1 ∧
      List.Forall₂ (Part.Replaces s (parts s lines)) (parts s lines) (parts s lines'))
    ⟨fun ⟨hpreamble, hparts⟩ => ⟨hpreamble, hparts⟩, fun ⟨hpreamble, hparts⟩ => ⟨hpreamble, hparts⟩⟩

end Decidable

/-! ## Lines -/

namespace Statement

variable {s : InstructionSet} {line : List Char}

theorem parseData_eq (ws : List (List Char)) :
    parseData ws = (ws.mapM Token.parseOperand).map tokens := by
  have hmap : ws.mapM Token.parseOperand = (ws.mapM Literal.parse).map (List.map Token.literal) :=
    map_mapM.symm
  rw [hmap, parseData]
  cases ws.mapM Literal.parse with
  | error c => rfl
  | ok ls => rfl

theorem parse?_of_dataWords? {ws : List (List Char)} (h : dataWords? line = some ws) :
    parse? s line = (parseData ws).map some := by
  rw [dataWords?] at h
  split at h
  · rename_i text htext
    split at h
    · cases h
    · rename_i word operands hwords
      split at h
      · rename_i hword
        obtain rfl := Option.some.inj h
        have hprg : ¬ word = "prg".toList := by
          rintro rfl
          exact absurd hword (by decide)
        simp only [parse?, htext, parseDirective, hwords, if_neg hprg, if_pos hword]
      · cases h
  · cases h

/-- The tokens of a line that uses no names are bytes. -/
theorem exists_byte_of_parse? {ts : List Token} (hcode : isCode line = false)
    (hdata : dataWords? line = none) (h : parse? s line = .ok (some (.tokens ts))) :
    ∀ t ∈ ts, ∃ v, t = .byte v := by
  rw [parse?] at h
  split at h
  · cases h
  · rename_i text htext
    obtain ⟨st, hst, hsome⟩ := map_eq_ok_iff.mp h
    obtain rfl := Option.some.inj hsome
    rw [parseDirective] at hst
    split at hst
    · cases hst
    · rename_i word operands hwords
      split_ifs at hst with hprg hdat horg hstr
      · rw [parseBank.eq_def] at hst
        split at hst
        · cases hst
        · split at hst
          · cases hst
          · cases hst
      · simp only [dataWords?, htext, hwords, if_pos hdat] at hdata
        cases hdata
      · rw [parseOrigin.eq_def] at hst
        split at hst
        · cases hst
        · split at hst
          · cases hst
          · cases hst
          · cases hst
      · rw [parseText] at hst
        split at hst
        · obtain rfl := Statement.tokens.inj (Except.ok.inj hst)
          intro t ht
          obtain ⟨v, -, rfl⟩ := List.mem_map.mp ht
          exact ⟨v, rfl⟩
        · cases hst
  · obtain ⟨st, hst, hsome⟩ := map_eq_ok_iff.mp h
    obtain rfl := Option.some.inj hsome
    rw [parseLabel] at hst
    split at hst
    · cases hst
    · cases hst
  · rename_i hblank hdot hcolon
    rw [isCode] at hcode
    split at hcode
    · exact absurd ‹_› hblank
    · exact absurd ‹_› (hdot _)
    · exact absurd ‹_› (hcolon _)
    · cases hcode

end Statement

namespace Part

variable {s : InstructionSet} {ps : List Part} {p : Part}

/-- A token and what stands in its place. -/
inductive ReplacesToken (s : InstructionSet) (ps : List Part) (p : Part) : Token → Token → Prop
  | name {name : String} {v : UInt8} : p.value? s ps name = some v →
      ReplacesToken s ps p (.literal (.symbol name)) (.literal (.value v))
  | other {t : Token} : (∀ name, t ≠ .literal (.symbol name)) → ReplacesToken s ps p t t

/-- What is read off a line, and what is read off the line in its place. -/
inductive ReplacesStatement (s : InstructionSet) (ps : List Part) (p : Part) :
    Option Statement → Option Statement → Prop
  | tokens {ts ts' : List Token} : List.Forall₂ (p.ReplacesToken s ps) ts ts' →
      ReplacesStatement s ps p (some (.tokens ts)) (some (.tokens ts'))
  | other {st : Option Statement} : (∀ ts, st ≠ some (.tokens ts)) → ReplacesStatement s ps p st st

/-- **Words in the place of others read as tokens in the place of theirs.** -/
theorem mapM_of_replacesWord {read : List Char → Except Cause Token} {ws ws' : List (List Char)}
    {ts : List Token} (h : List.Forall₂ (p.ReplacesWord s ps read) ws ws')
    (hts : ws.mapM read = .ok ts) :
    ∃ ts', ws'.mapM read = .ok ts' ∧ List.Forall₂ (p.ReplacesToken s ps) ts ts' := by
  simp only [mapM_eq_ok_iff] at hts ⊢
  induction h generalizing ts with
  | nil =>
    cases hts
    exact ⟨[], .nil, .nil⟩
  | cons hw _ ih =>
    cases hts with
    | cons ht hts =>
      obtain ⟨ts', hts', hreplaces⟩ := ih hts
      cases hw with
      | name hname hv hvalue =>
        obtain rfl := Except.ok.inj (hname.symm.trans ht)
        exact ⟨_, .cons hvalue hts', .cons (.name hv) hreplaces⟩
      | other hother =>
        refine ⟨_, .cons ht hts', .cons (.other fun name heq => hother name ?_) hreplaces⟩
        rw [ht, heq]

/-- **A line in the place of another reads as it does, but for names.** -/
theorem ReplacesLine.exists_parse? {line line' : List Char} {st : Option Statement}
    (h : p.ReplacesLine s ps line line') (hst : Statement.parse? s line = .ok st) :
    ∃ st', Statement.parse? s line' = .ok st' ∧ p.ReplacesStatement s ps st st' := by
  cases h with
  | code hcode hcode' hwords =>
    rw [parse?_of_isCode hcode] at hst
    obtain ⟨ts, hts, rfl⟩ := map_eq_ok_iff.mp hst
    obtain ⟨ts', hts', hreplaces⟩ := mapM_of_replacesWord hwords hts
    rw [parse?_of_isCode hcode', hts']
    exact ⟨_, rfl, .tokens (List.rel_reverse hreplaces)⟩
  | data hdata hdata' hwords =>
    rw [Statement.parse?_of_dataWords? hdata, Statement.parseData_eq] at hst
    obtain ⟨_, hmap, rfl⟩ := map_eq_ok_iff.mp hst
    obtain ⟨ts, hts, rfl⟩ := map_eq_ok_iff.mp hmap
    obtain ⟨ts', hts', hreplaces⟩ := mapM_of_replacesWord hwords hts
    rw [Statement.parse?_of_dataWords? hdata', Statement.parseData_eq, hts']
    exact ⟨_, rfl, .tokens hreplaces⟩
  | other hcode hdata =>
    refine ⟨st, hst, ?_⟩
    by_cases htokens : ∃ ts, st = some (.tokens ts)
    · obtain ⟨ts, rfl⟩ := htokens
      refine .tokens (List.forall₂_same.mpr fun t ht => .other fun name heq => ?_)
      obtain ⟨v, rfl⟩ := Statement.exists_byte_of_parse? hcode hdata hst t ht
      cases heq
    · exact .other fun ts heq => htokens ⟨ts, heq⟩

/-- Two lines of one number that read alike but for names. -/
def ReadsAlike (s : InstructionSet) (ps : List Part) (p : Part) (l l' : List Char × ℕ) : Prop :=
  l'.2 = l.2 ∧ ∃ st st', Statement.parse? s l.1 = .ok st ∧ Statement.parse? s l'.1 = .ok st' ∧
    p.ReplacesStatement s ps st st'

theorem ReplacesStatement.map_shape {st st' : Option Statement}
    (h : p.ReplacesStatement s ps st st') : st.map Statement.shape = st'.map Statement.shape := by
  cases h with
  | tokens hts => simp only [Option.map_some, Statement.shape, List.map_const', hts.length_eq]
  | other _ => rfl

/-- Such lines have tokens in the place of each other's. -/
theorem ReadsAlike.forall₂_tokensAt {l l' : List Char × ℕ} (h : p.ReadsAlike s ps l l') (n : ℕ) :
    List.Forall₂ (p.ReplacesToken s ps) (tokensAt s n l.1) (tokensAt s n l'.1) := by
  obtain ⟨-, st, st', hst, hst', hreplaces⟩ := h
  rw [tokensAt, tokensAt, hst, hst']
  cases hreplaces with
  | tokens hts => exact hts
  | other hother =>
    split
    · exact absurd ‹_› fun heq => hother _ (Except.ok.inj heq)
    · refine List.forall₂_same.mpr fun t ht => .other fun name heq => ?_
      rw [heq] at ht
      cases List.eq_of_mem_replicate ht
    · exact .nil

theorem forall₂_tokensFrom {ls ls' : List (List Char × ℕ)}
    (h : List.Forall₂ (p.ReadsAlike s ps) ls ls') (n : ℕ) :
    List.Forall₂ (fun t t' => t'.2 = t.2 ∧ p.ReplacesToken s ps t.1 t'.1) (tokensFrom s n ls)
      (tokensFrom s n ls') := by
  induction h generalizing n with
  | nil => exact .nil
  | cons hl _ ih =>
    have htokens := hl.forall₂_tokensAt n
    rw [tokensFrom, tokensFrom, htokens.length_eq]
    refine List.rel_append ?_ (ih _)
    rw [List.forall₂_map_left_iff, List.forall₂_map_right_iff]
    exact htokens.imp fun _ _ ht => ⟨hl.1, ht⟩

/-- Lines that are taken read, and so do the lines in their place. -/
theorem forall₂_readsAlike {ls ls' : List (List Char × ℕ)}
    (h : List.Forall₂ (fun l l' => l'.2 = l.2 ∧ p.ReplacesLine s ps l.1 l'.1) ls ls') {n : ℕ}
    (htakes : TakesAll s n ls) : List.Forall₂ (p.ReadsAlike s ps) ls ls' := by
  induction h generalizing n with
  | nil => exact .nil
  | cons hl _ ih =>
    obtain ⟨st, hst⟩ := htakes.1.exists_parse?
    obtain ⟨st', hst', hreplaces⟩ := hl.2.exists_parse? hst
    exact .cons ⟨hl.1, st, st', hst, hst', hreplaces⟩ (ih htakes.2)

end Part

/-! ## Sources -/

namespace Draft

variable {s : InstructionSet} {lines lines' : List (List Char)} {d d' : Draft}

/-- **A source in which names are replaced is read without a fault** if the source itself is. -/
theorem exists_ofLines_of_replaced (h : ofLines s lines = .ok d)
    (hreplaced : NamesReplaced s lines lines') : ∃ d', ofLines s lines' = .ok d' := by
  have hshapes : List.Forall₂ (fun l l' => l.2 = l'.2 ∧
      (Statement.parse? s l.1).map (Option.map Statement.shape)
        = (Statement.parse? s l'.1).map (Option.map Statement.shape))
      (lines.zipIdx 1) (lines'.zipIdx 1) := by
    rw [← split_append s (lines.zipIdx 1), ← split_append s (lines'.zipIdx 1), hreplaced.preamble]
    refine List.rel_append (List.forall₂_same.mpr fun _ _ => ⟨rfl, rfl⟩) ?_
    have hparts : List.Forall₂ (fun p p' => p ∈ parts s lines ∧ p.Replaces s (parts s lines) p')
        (parts s lines) (parts s lines') :=
      (List.forall₂_and_left _ _).mpr ⟨fun _ => id, hreplaced.parts⟩
    refine List.rel_flatMap hparts fun p p' ⟨hp, hp'⟩ => ?_
    rw [Part.lines, Part.lines, hp'.head]
    refine .cons ⟨rfl, rfl⟩ ((Part.forall₂_readsAlike hp'.body (takesAll_of_mem_parts h hp)).imp ?_)
    rintro l l' ⟨hn, st, st', hst, hst', hreplaces⟩
    rw [hst, hst']
    exact ⟨hn.symm, congrArg Except.ok hreplaces.map_shape⟩
  have hread := foldlM_addLine_shape (d := {}) hshapes rfl
  rw [← ofLines, ← ofLines, h] at hread
  obtain ⟨d', hd', -⟩ := map_eq_ok_iff.mp hread.symm
  exact ⟨d', hd'⟩

/-- **A bank in which names are replaced has the same atoms.** -/
theorem atoms_of_replaced (h : ofLines s lines = .ok d) {p p' : Part} (hp : p ∈ parts s lines)
    (hp' : p.Replaces s (parts s lines) p') {ps' : List Part} {as : List Atom}
    (has : p.atoms s (parts s lines) 0 p.body = .ok as) : p'.atoms s ps' 0 p'.body = .ok as := by
  have htokens := Part.forall₂_tokensFrom
    (Part.forall₂_readsAlike hp'.body (takesAll_of_mem_parts h hp)) 0
  rw [Part.atoms, mapM_eq_ok_iff] at has ⊢
  generalize tokensFrom s 0 p.body = ts at has htokens
  generalize tokensFrom s 0 p'.body = ts' at htokens
  induction htokens generalizing as with
  | nil =>
    cases has
    exact .nil
  | @cons t t' _ _ ht _ ih =>
    cases has with
    | cons ha has =>
      refine .cons ?_ (ih has)
      obtain ⟨u, n⟩ := t
      obtain ⟨u', n'⟩ := t'
      obtain ⟨-, hreplaces⟩ := ht
      cases hreplaces with
      | name hv =>
        rw [← lookup_toSection h hp] at hv
        rw [← congrArg Draft.constants (eq_ofParts h), Section.resolve, hv] at ha
        exact ha
      | other hother =>
        cases u with
        | instruction i => exact ha
        | literal l =>
          cases l with
          | value v => exact ha
          | symbol name => exact absurd rfl (hother name)

/-- **Replacing names does not show in a program.** -/
theorem finish_of_replaced (h : ofLines s lines = .ok d) (hreplaced : NamesReplaced s lines lines')
    (h' : ofLines s lines' = .ok d') {q : Program} (hfinish : d.finish = .ok q) :
    d'.finish = .ok q := by
  obtain ⟨hbanks, hother⟩ := (finish_eq_ok_iff_parts h).mp hfinish
  refine (finish_eq_ok_iff_parts h').mpr ⟨fun p' hp' => ?_, fun i hi => hother i fun p hp => ?_⟩
  · obtain ⟨p, hp, hreplaces⟩ := exists_of_mem_right hreplaced.parts hp'
    obtain ⟨as, has, hget⟩ := hbanks p hp
    exact ⟨as, atoms_of_replaced h hp hreplaces has, hreplaces.bank.symm ▸ hget⟩
  · obtain ⟨p', hp', hreplaces⟩ := exists_of_mem_left hreplaced.parts hp
    exact hreplaces.bank ▸ hi p' hp'

end Draft

end Protocell.Assembly
