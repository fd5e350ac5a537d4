import Mathlib.Data.Set.Finite.Basic
import Protocell.Proofs.Faults
import Protocell.Proofs.Source.Comments
import Protocell.Proofs.Source.Replacement

/-!
# Proofs/Source/Respelling — numbers can stand in the place of names

A number has spellings with any number of zeros before it, too many to be names of instructions all
of them (`exists_lookup_padded_eq_none`).  Words with such spellings among them are written into a
line with a blank before each, and read back (`codeWords_spaced`, `dataWords?_spaced`).

Line by line, the names of a source give way to numbers in this way.  What can come between is a
semicolon in the name of an instruction.  It begins a comment but for quotes before it, and these
may stand in a name that gives way.  So there are numbers for the names just if each semicolon is
between quotes without them (`CoversSemicolons`, `exists_namesReplaced_iff`).
-/

namespace Protocell.Assembly

/-! ## Spellings of numbers -/

/-- A number in decimal with `k` zeros before it. -/
def padded (k n : ℕ) : List Char := List.replicate k '0' ++ Text.decimal n

theorem padded_ne_nil (k n : ℕ) : padded k n ≠ [] :=
  List.append_ne_nil_of_right_ne_nil _ Nat.toDigits_ne_nil

theorem isDigit_of_mem_padded {k n : ℕ} {c : Char} (h : c ∈ padded k n) : c.isDigit = true := by
  rcases List.mem_append.mp h with h | h
  · rw [List.eq_of_mem_replicate h]
    rfl
  · exact Text.isDigit_of_mem_decimal h

theorem decimalNumber_padded (k n : ℕ) : Text.decimalNumber (padded k n) = n := by
  induction k with
  | zero => exact Text.decimalNumber_decimal n
  | succ k ih =>
    have hzero : padded (k + 1) n = '0' :: padded k n := rfl
    rw [hzero, Text.decimalNumber, Nat.ofDigitChars_cons]
    exact ih

/-- **Zeros before a number do not change it.** -/
theorem parse_padded (k : ℕ) (v : UInt8) :
    Literal.parse (padded k v.toNat) = .ok (.value v) := by
  have hdecimal : Literal.decimal? (padded k v.toNat) = some (.value v) := by
    have hdigits : (!(padded k v.toNat).isEmpty && (padded k v.toNat).all Char.isDigit) = true := by
      rw [Bool.and_eq_true, List.all_eq_true]
      exact ⟨by simpa using padded_ne_nil k v.toNat, fun c => isDigit_of_mem_padded⟩
    rw [Literal.decimal?, if_pos hdigits, decimalNumber_padded, Literal.ofNat?,
      if_pos v.toNat_lt, UInt8.ofNat_toNat]
  cases hword : padded k v.toNat with
  | nil => exact absurd hword (padded_ne_nil _ _)
  | cons c rest =>
    have hc : c.isDigit = true := isDigit_of_mem_padded (hword ▸ List.mem_cons_self)
    have hother {x : Char} (hx : x.isDigit = false) : c ≠ x := by
      rintro rfl
      exact absurd hc (Bool.eq_false_iff.mp hx)
    rw [Literal.parse, if_neg (hother (by decide)), if_neg (hother (by decide)), if_pos hc, ← hword,
      hdecimal]
    rfl

/-- **No instruction set has all spellings of a number as names.** -/
theorem exists_lookup_padded_eq_none (s : InstructionSet) (n : ℕ) :
    ∃ k, s.lookup (.ofList (padded k n)) = none := by
  have hinj : Function.Injective fun k => String.ofList (padded k n) := by
    intro j k h
    have hlength := congrArg String.length h
    simp only [String.length_ofList, padded, List.length_append, List.length_replicate] at hlength
    omega
  obtain ⟨_, ⟨k, rfl⟩, hk⟩ :=
    (Set.infinite_range_of_injective hinj).exists_notMem_finset s.names.toFinset
  refine ⟨k, Option.not_isSome_iff_eq_none.mp fun hsome => hk ?_⟩
  exact List.mem_toFinset.mpr (InstructionSet.lookup_isSome_iff.mp hsome)

/-! ## Words without semicolons and quotes -/

theorem isBlank_eq_false_of_isHexDigit {c : Char} (h : Text.isHexDigit c = true) :
    Text.isBlank c = false := by
  have hrange : 48 ≤ c.toNat ∧ c.toNat ≤ 102 := by
    rw [Text.isHexDigit, Text.hexValue?] at h
    split_ifs at h with hdigit hlower hupper
    · rw [Char.isDigit, Bool.and_eq_true, decide_eq_true_eq, decide_eq_true_eq, ge_iff_le,
        UInt32.le_iff_toNat_le, UInt32.le_iff_toNat_le] at hdigit
      have hlow : 48 ≤ c.toNat := hdigit.1
      have hhigh : c.toNat ≤ 57 := hdigit.2
      omega
    · have hlow : 97 ≤ c.toNat := hlower.1
      have hhigh : c.toNat ≤ 102 := hlower.2
      omega
    · have hlow : 65 ≤ c.toNat := hupper.1
      have hhigh : c.toNat ≤ 70 := hupper.2
      omega
    · cases h
  have hranges : ∀ r ∈ Text.blankRanges, r.2 < 48 ∨ 102 < r.1 := by decide
  rw [Text.isBlank, List.any_eq_false]
  intro r hr
  have hr := hranges r hr
  simp only [Bool.and_eq_true, decide_eq_true_eq]
  omega

theorem isBlank_eq_false_of_isDigit {c : Char} (h : c.isDigit = true) : Text.isBlank c = false := by
  refine isBlank_eq_false_of_isHexDigit ?_
  rw [Text.isHexDigit, Text.hexValue?, if_pos h]
  rfl

theorem isWord_of_digits {w : List Char} (hw : w ≠ []) (h : ∀ c ∈ w, c.isDigit = true) :
    Text.IsWord w := ⟨hw, fun c hc => isBlank_eq_false_of_isDigit (h c hc)⟩

theorem isBare_of_parse {w : List Char} {v : UInt8} (h : Literal.parse w = .ok (.value v)) :
    IsBare w := by
  cases w with
  | nil => rintro c ⟨⟩
  | cons c rest =>
    rw [Literal.parse] at h
    split_ifs at h with hhex hsymbol hempty hdigit
    · cases hdigits : Literal.hex? rest with
      | none =>
        rw [hdigits] at h
        cases h
      | some l =>
        rw [Literal.hex?] at hdigits
        split_ifs at hdigits with hall
        rw [Bool.and_eq_true, List.all_eq_true] at hall
        refine List.forall_mem_cons.mpr ⟨hhex ▸ by decide, ?_⟩
        exact isBare_of_forall (by decide) (by decide) hall.2
    · cases h
    · cases hdigits : Literal.decimal? (c :: rest) with
      | none =>
        rw [hdigits] at h
        cases h
      | some l =>
        rw [Literal.decimal?] at hdigits
        split_ifs at hdigits with hall
        rw [Bool.and_eq_true, List.all_eq_true] at hall
        exact isBare_of_forall (by decide) (by decide) hall.2

/-- **Words in which numbers can stand in the place of names**, as a reader takes them: each number
has a spelling of digits, and no number has one with semicolons or quotes. -/
structure Spells (read : List Char → Except Cause Token) : Prop where
  number : ∀ v, ∃ w, w ≠ [] ∧ (∀ c ∈ w, c.isDigit = true) ∧ read w = .ok (.literal (.value v))
  bare : ∀ w v, read w = .ok (.literal (.value v)) → IsBare w

theorem spells_parseOperand : Spells Token.parseOperand where
  number v := ⟨padded 0 v.toNat, padded_ne_nil _ _, fun _ => isDigit_of_mem_padded, by
    rw [Token.parseOperand, parse_padded]
    rfl⟩
  bare w v hw := by
    obtain ⟨l, hl, heq⟩ := map_eq_ok_iff.mp hw
    obtain rfl := Token.literal.inj heq
    exact isBare_of_parse hl

theorem spells_parse (s : InstructionSet) : Spells (Token.parse s) where
  number v := by
    obtain ⟨k, hk⟩ := exists_lookup_padded_eq_none s v.toNat
    refine ⟨padded k v.toNat, padded_ne_nil _ _, fun _ => isDigit_of_mem_padded, ?_⟩
    have hhead :
        (padded k v.toNat).head?.any (fun c => c.isDigit || c == '$' || c == '@') = true := by
      cases hword : padded k v.toNat with
      | nil => exact absurd hword (padded_ne_nil _ _)
      | cons c rest =>
        have hc : c.isDigit = true := isDigit_of_mem_padded (hword ▸ List.mem_cons_self)
        rw [List.head?_cons, Option.any_some, hc]
        rfl
    rw [Token.parse, hk]
    simp only [if_pos hhead, parse_padded]
    rfl
  bare w v hw := by
    rw [Token.parse] at hw
    split at hw
    · cases hw
    · split at hw
      · exact spells_parseOperand.bare w v hw
      · cases hw

/-! ## Words that stay -/

/-- Whether a reader takes a word for a name. -/
def isName (read : List Char → Except Cause Token) (w : List Char) : Bool :=
  match read w with
  | .ok (.literal (.symbol _)) => true
  | _ => false

/-- The words that stay when names give way. -/
def kept (read : List Char → Except Cause Token) (ws : List (List Char)) : List (List Char) :=
  ws.filter fun w => !isName read w

/-- **A line whose code covers its semicolons without its names**: with the names taken out, each
semicolon is still between quotes. -/
def CoversSemicolons (s : InstructionSet) (line : List Char) : Prop :=
  isCode line = true → IsWhole false (Text.spaced (kept (Token.parse s) (codeWords line)))

instance (s : InstructionSet) : DecidablePred (CoversSemicolons s) := fun line =>
  inferInstanceAs (Decidable (isCode line = true →
    IsWhole false (Text.spaced (kept (Token.parse s) (codeWords line)))))

/-- The code of a line has no comment. -/
theorem isWhole_codeWords (line : List Char) :
    IsWhole false (Text.spaced (codeWords line)) := by
  rw [codeWords, Text.words_trim, isWhole_spaced_words_iff]
  exact isWhole_stripCommentFrom false line

/-- Operands have no comment, and have none without their names. -/
theorem isWhole_kept_parseOperand {ws : List (List Char)} {ts : List Token}
    (hts : ws.mapM Token.parseOperand = .ok ts) :
    IsWhole false (Text.spaced (kept Token.parseOperand ws)) := by
  refine isWhole_spaced_of_bare fun w hw => ?_
  obtain ⟨hmem, hname⟩ := List.mem_filter.mp hw
  obtain ⟨_, -, ht⟩ := exists_of_mem_left (mapM_eq_ok_iff.mp hts) hmem
  obtain ⟨l, hl, rfl⟩ := map_eq_ok_iff.mp ht
  cases l with
  | value v => exact isBare_of_parse hl
  | symbol name =>
    rw [isName, ht] at hname
    cases hname

/-- **Numbers in the place of names make no difference to comments**, but as the names are gone. -/
theorem Part.isWhole_iff_of_replaces {s : InstructionSet} {ps : List Part} {p : Part}
    {read : List Char → Except Cause Token} (hread : Spells read) {ws ws' : List (List Char)}
    (h : List.Forall₂ (p.ReplacesWord s ps read) ws ws') (quoted : Bool) :
    IsWhole quoted (Text.spaced ws') ↔ IsWhole quoted (Text.spaced (kept read ws)) := by
  induction h generalizing quoted with
  | nil => exact Iff.rfl
  | @cons w w' ws ws' hw _ ih =>
    rw [isWhole_spaced_cons_iff, kept, List.filter_cons]
    cases hw with
    | name hname _ hvalue =>
      have hw : isName read w = true := by rw [isName, hname]
      rw [isWhole_bare_append_iff (hread.bare _ _ hvalue), ih, hw]
      rfl
    | other hother =>
      have hw : isName read w = false := by
        rw [isName]
        split
        · exact absurd ‹_› (hother _)
        · rfl
      rw [hw, if_pos (by rfl), isWhole_spaced_cons_iff, isWhole_append_iff, isWhole_append_iff, ih]
      rfl

/-! ## Lines of words -/

theorem newline_not_mem_spaced {ws : List (List Char)} (h : ∀ w ∈ ws, Text.IsWord w) :
    '\n' ∉ Text.spaced ws := by
  intro hmem
  obtain ⟨w, hw, hmem⟩ := List.mem_flatMap.mp hmem
  rcases List.mem_cons.mp hmem with heq | hmem
  · exact absurd heq (by decide)
  · exact absurd ((h w hw).2 _ hmem) (by decide)

section WholeWords

variable {ws : List (List Char)} (h : ∀ w ∈ ws, Text.IsWord w)
  (hwhole : IsWhole false (Text.spaced ws))

include h hwhole

/-- **Words are the words of the line that they are written into**, if no comment begins there. -/
theorem codeWords_spaced : codeWords (Text.spaced ws) = ws := by
  rw [codeWords, stripComment, hwhole, Text.words_trim, Text.words_spaced h]

theorem dataWords?_spaced : dataWords? (".dat".toList ++ Text.spaced ws) = some ws := by
  have hstrip :
      stripComment (".dat".toList ++ Text.spaced ws) = ".dat".toList ++ Text.spaced ws := by
    rw [stripComment, stripCommentFrom_append (by decide), hwhole]
  have htrim : Text.trim (".dat".toList ++ Text.spaced ws)
      = '.' :: Text.trimEnd ("dat".toList ++ Text.spaced ws) := Text.trim_cons (by decide) _
  have hwords :
      Text.words (Text.trimEnd ("dat".toList ++ Text.spaced ws)) = "dat".toList :: ws := by
    have hdat : Text.words "dat".toList = ["dat".toList] := by decide
    have hword : Text.IsWord "dat".toList :=
      Text.isWord_of_mem_words (hdat.symm ▸ List.mem_singleton_self "dat".toList)
    rw [Text.words_trimEnd, Text.words_append_spaced hword h]
  rw [dataWords?, hstrip, htrim]
  simp only [hwords, if_true]

end WholeWords

theorem isCode_spaced {w : List Char} {ws : List (List Char)} (hw : Text.IsWord w)
    (hwhole : IsWhole false (Text.spaced (w :: ws))) (hdot : w.head? ≠ some '.')
    (hcolon : w.head? ≠ some ':') :
    isCode (Text.spaced (w :: ws)) = true := by
  cases w with
  | nil => exact absurd rfl hw.1
  | cons c w =>
    have htrim : Text.trim (Text.spaced ((c :: w) :: ws))
        = c :: Text.trimEnd (w ++ Text.spaced ws) := Text.trim_cons (hw.2 c List.mem_cons_self) _
    rw [isCode, stripComment, hwhole, htrim]
    split
    · rename_i heq
      cases heq
    · rename_i heq
      exact absurd (congrArg some (List.cons.inj heq).1) hdot
    · rename_i heq
      exact absurd (congrArg some (List.cons.inj heq).1) hcolon
    · rfl

theorem isWord_of_mem_dataWords? {line w : List Char} {ws : List (List Char)}
    (h : dataWords? line = some ws) (hw : w ∈ ws) : Text.IsWord w := by
  rw [dataWords?] at h
  split at h
  · split at h
    · cases h
    · rename_i word operands hwords
      split at h
      · obtain rfl := Option.some.inj h
        exact Text.isWord_of_mem_words (hwords ▸ List.mem_cons_of_mem _ hw)
      · cases h
  · cases h

/-- The first word of a code line begins with neither a dot nor a colon. -/
theorem exists_codeWords_of_isCode {line : List Char} (h : isCode line = true) :
    ∃ c w ws, codeWords line = (c :: w) :: ws ∧ c ≠ '.' ∧ c ≠ ':' := by
  cases htext : Text.trim (stripComment line) with
  | nil =>
    rw [isCode, htext] at h
    cases h
  | cons c rest =>
    obtain ⟨w, ws, hwords⟩ := words_cons (Text.isBlank_of_trim_eq_cons htext) rest
    refine ⟨c, w, ws, by rw [codeWords, htext, hwords], ?_, ?_⟩
    · rintro rfl
      rw [isCode, htext] at h
      cases h
    · rintro rfl
      rw [isCode, htext] at h
      cases h

namespace Part

variable {s : InstructionSet} {ps : List Part} {p : Part} {read : List Char → Except Cause Token}

/-- A word gives way to another, which begins as it does or with a digit. -/
structure Respells (s : InstructionSet) (ps : List Part) (p : Part)
    (read : List Char → Except Cause Token) (w w' : List Char) : Prop where
  replaces : p.ReplacesWord s ps read w w'
  isWord : Text.IsWord w'
  head : w' = w ∨ ∀ c ∈ w', c.isDigit = true

/-- What gives way to a word begins with a mark only if the word does. -/
theorem Respells.head?_ne {c x : Char} {w w' : List Char} (h : p.Respells s ps read (c :: w) w')
    (hc : c ≠ x) (hx : x.isDigit = false) : w'.head? ≠ some x := by
  intro hhead
  rcases h.head with rfl | hdigits
  · exact hc (Option.some.inj hhead)
  · exact absurd (hdigits x (List.mem_of_head? hhead)) (Bool.eq_false_iff.mp hx)

theorem exists_respells (hread : Spells read) {w : List Char} {t : Token} (hw : Text.IsWord w)
    (ht : read w = .ok t)
    (hknown : ∀ name, t = .literal (.symbol name) → (p.value? s ps name).isSome = true) :
    ∃ w', p.Respells s ps read w w' := by
  by_cases hname : ∃ name, t = .literal (.symbol name)
  · obtain ⟨name, rfl⟩ := hname
    obtain ⟨v, hv⟩ := Option.isSome_iff_exists.mp (hknown name rfl)
    obtain ⟨w', hne, hdigits, hw'⟩ := hread.number v
    exact ⟨w', .name ht hv hw', isWord_of_digits hne hdigits, .inr hdigits⟩
  · exact ⟨w, .other fun name heq => hname ⟨name, Except.ok.inj (ht.symm.trans heq)⟩, hw, .inl rfl⟩

/-- **Words give way to others**, if the names among them are known, **and no comment begins** where
none does without the names. -/
theorem exists_forall₂_respells (hread : Spells read) {ws : List (List Char)} {ts : List Token}
    (hws : ∀ w ∈ ws, Text.IsWord w) (hts : ws.mapM read = .ok ts)
    (hknown : ∀ name, .literal (.symbol name) ∈ ts → (p.value? s ps name).isSome = true)
    (hkept : IsWhole false (Text.spaced (kept read ws))) :
    ∃ ws', List.Forall₂ (p.Respells s ps read) ws ws' ∧ (∀ w ∈ ws', Text.IsWord w) ∧
      IsWhole false (Text.spaced ws') := by
  have hwords : ∃ ws', List.Forall₂ (p.Respells s ps read) ws ws' := by
    refine exists_forall₂ fun w hw => ?_
    obtain ⟨t, ht, hwt⟩ := exists_of_mem_left (mapM_eq_ok_iff.mp hts) hw
    refine exists_respells hread (hws w hw) hwt fun name hname => hknown name ?_
    rw [← hname]
    exact ht
  obtain ⟨ws', hws'⟩ := hwords
  refine ⟨ws', hws', fun w' hw' => ?_, ?_⟩
  · obtain ⟨_, -, hrespells⟩ := exists_of_mem_right hws' hw'
    exact hrespells.isWord
  · exact (isWhole_iff_of_replaces hread (hws'.imp fun _ _ h => h.replaces) false).mpr hkept

/-- **A line gives way to one without names**, if its names are known and it covers its semicolons
without them. -/
theorem exists_replacesLine {line : List Char} {st : Option Statement}
    (hs : CoversSemicolons s line) (hline : '\n' ∉ line) (hst : Statement.parse? s line = .ok st)
    (hknown : ∀ ts, st = some (.tokens ts) → ∀ name, .literal (.symbol name) ∈ ts →
      (p.value? s ps name).isSome = true) :
    ∃ line', '\n' ∉ line' ∧ p.ReplacesLine s ps line line' := by
  cases hcode : isCode line with
  | true =>
    rw [parse?_of_isCode hcode] at hst
    obtain ⟨ts, hts, rfl⟩ := map_eq_ok_iff.mp hst
    have hcodeWords : ∀ w ∈ codeWords line, Text.IsWord w := fun w => Text.isWord_of_mem_words
    obtain ⟨ws', hws', hwords, hwhole⟩ := exists_forall₂_respells (spells_parse s) hcodeWords hts
      (fun name hname => hknown _ rfl name (List.mem_reverse.mpr hname)) (hs hcode)
    refine ⟨Text.spaced ws', newline_not_mem_spaced hwords, .code hcode ?_ ?_⟩
    · obtain ⟨c, w, ws, hfirst, hdot, hcolon⟩ := exists_codeWords_of_isCode hcode
      rw [hfirst] at hws'
      cases hws' with
      | cons hw _ =>
        exact isCode_spaced hw.isWord hwhole (hw.head?_ne hdot (by decide))
          (hw.head?_ne hcolon (by decide))
    · rw [codeWords_spaced hwords hwhole]
      exact hws'.imp fun _ _ h => h.replaces
  | false =>
    cases hdata : dataWords? line with
    | none => exact ⟨line, hline, .other hcode hdata⟩
    | some ws =>
      rw [Statement.parse?_of_dataWords? hdata, Statement.parseData_eq] at hst
      obtain ⟨_, hmap, rfl⟩ := map_eq_ok_iff.mp hst
      obtain ⟨ts, hts, rfl⟩ := map_eq_ok_iff.mp hmap
      obtain ⟨ws', hws', hwords, hwhole⟩ := exists_forall₂_respells spells_parseOperand
        (fun w => isWord_of_mem_dataWords? hdata) hts (hknown _ rfl)
        (isWhole_kept_parseOperand hts)
      refine ⟨".dat".toList ++ Text.spaced ws', ?_, .data hdata (dataWords?_spaced hwords hwhole)
        (hws'.imp fun _ _ h => h.replaces)⟩
      rw [List.mem_append, not_or]
      exact ⟨by decide, newline_not_mem_spaced hwords⟩

/-- **A bank gives way to one without names**, if its lines do. -/
theorem exists_replaces (hs : ∀ l ∈ p.body, CoversSemicolons s l.1)
    (hbody : ∀ l ∈ p.body, '\n' ∉ l.1) (htakes : TakesAll s 0 p.body)
    (hknown : ∀ name n, (.literal (.symbol name), n) ∈ p.tokens s →
      (p.value? s ps name).isSome = true) :
    ∃ p', p.Replaces s ps p' ∧ ∀ l ∈ p'.body, '\n' ∉ l.1 := by
  have hlines : ∃ body' : List (List Char × ℕ), List.Forall₂ (fun l l' => '\n' ∉ l'.1 ∧
      l'.2 = l.2 ∧ p.ReplacesLine s ps l.1 l'.1) p.body body' := by
    refine exists_forall₂ fun l hl => ?_
    obtain ⟨st, hst⟩ := htakes.exists_parse? hl
    obtain ⟨line', hline', hreplaces⟩ := exists_replacesLine (hs l hl) (hbody l hl) hst
      fun ts hts name hname => hknown name l.2 (mem_tokensFrom hl (hts ▸ hst) hname)
    exact ⟨(line', l.2), hline', rfl, hreplaces⟩
  obtain ⟨body', hbody'⟩ := hlines
  refine ⟨{ p with body := body' }, ⟨rfl, rfl, rfl, hbody'.imp fun _ _ h => h.2⟩, fun l hl => ?_⟩
  obtain ⟨_, -, hl', -⟩ := exists_of_mem_right hbody' hl
  exact hl'

/-- What stands in the place of a bank is one. -/
theorem Replaces.isCut {p' : Part} (h : p.Replaces s ps p') (htakes : TakesAll s 0 p.body)
    (hp : p.IsCut s) : p'.IsCut s := by
  refine ⟨by rw [h.head, h.bank, h.name]; exact hp.1, fun l' hl' bank name hbank => ?_⟩
  obtain ⟨l, hl, -, st, st', hst, hst', hreplaces⟩ :=
    exists_of_mem_right (forall₂_readsAlike h.body htakes) hl'
  rw [hst'] at hbank
  obtain rfl := Except.ok.inj hbank
  cases hreplaces with
  | other _ => exact hp.2 l hl bank name hst

end Part

/-! ## Sources -/

/-- Lines with their numbers are known by the lines. -/
theorem zipIdx_map_fst_of_forall₂ {lines : List (List Char)} {ls : List (List Char × ℕ)} {n : ℕ}
    (h : List.Forall₂ (fun l l' => l'.2 = l.2) (lines.zipIdx n) ls) :
    (ls.map Prod.fst).zipIdx n = ls := by
  induction lines generalizing n ls with
  | nil =>
    cases h
    rfl
  | cons line lines ih =>
    rw [List.zipIdx_cons] at h
    cases h with
    | @cons _ l' _ ls hl hls =>
      rw [List.map_cons, List.zipIdx_cons, ih hls]
      obtain ⟨line', m⟩ := l'
      obtain rfl : m = n := hl
      rfl

/-- A line of data is no code. -/
theorem isCode_of_dataWords? {line : List Char} {ws : List (List Char)}
    (h : dataWords? line = some ws) : isCode line = false := by
  rw [dataWords?] at h
  split at h
  · rename_i text htext
    rw [isCode, htext]
    rfl
  · cases h

/-- **Where names have given way, the code covers its semicolons without them.** -/
theorem coversSemicolons_of_replaced {s : InstructionSet} {lines lines' : List (List Char)}
    (h : NamesReplaced s lines lines') :
    ∀ p ∈ parts s lines, ∀ l ∈ p.body, CoversSemicolons s l.1 := by
  intro p hp l hl hcode
  obtain ⟨p', -, hreplaces⟩ := exists_of_mem_left h.parts hp
  obtain ⟨l', -, -, hline⟩ := exists_of_mem_left hreplaces.body hl
  generalize l.1 = line, l'.1 = line' at hcode hline ⊢
  cases hline with
  | code _ _ hwords =>
    exact (Part.isWhole_iff_of_replaces (spells_parse s) hwords false).mp (isWhole_codeWords _)
  | data hdata =>
    rw [isCode_of_dataWords? hdata] at hcode
    cases hcode
  | other hother =>
    rw [hother] at hcode
    cases hcode

/-- **All names of a source can give way to numbers**, if they are known and the code covers its
semicolons without them. -/
theorem exists_namesReplaced {s : InstructionSet} {source : String} {d : Draft}
    (hs : ∀ p ∈ parts s (Text.lines source.toList), ∀ l ∈ p.body, CoversSemicolons s l.1)
    (h : Draft.ofLines s (Text.lines source.toList) = .ok d)
    (hknown : ∀ p ∈ parts s (Text.lines source.toList), ∀ name n,
      (.literal (.symbol name), n) ∈ p.tokens s →
        (p.value? s (parts s (Text.lines source.toList)) name).isSome = true) :
    ∃ source' : String, NamesReplaced s (Text.lines source.toList) (Text.lines source'.toList) := by
  have hnewline : ∀ line ∈ Text.lines source.toList, '\n' ∉ line := fun line =>
    Text.newline_not_mem_of_mem_lines
  generalize Text.lines source.toList = lines at *
  have hcut := isCut_of_split s (lines.zipIdx 1)
  have happend := split_append s (lines.zipIdx 1)
  have hmem {l : List Char × ℕ} (hl : l ∈ (split s (lines.zipIdx 1)).1 ∨
      ∃ p ∈ parts s lines, l ∈ p.lines) : l.1 ∈ lines := by
    rw [← List.mem_flatMap, ← List.mem_append, parts, happend] at hl
    exact List.fst_mem_of_mem_zipIdx hl
  have hparts : ∃ ps', List.Forall₂ (fun p p' => p.Replaces s (parts s lines) p' ∧ p'.IsCut s ∧
      ∀ l ∈ p'.body, '\n' ∉ l.1) (parts s lines) ps' := by
    refine exists_forall₂ fun p hp => ?_
    have htakes := Draft.takesAll_of_mem_parts h hp
    obtain ⟨p', hreplaces, hbody⟩ := Part.exists_replaces (hs p hp)
      (fun l hl => hnewline _ (hmem (.inr ⟨p, hp, List.mem_cons_of_mem _ hl⟩))) htakes
      (hknown p hp)
    exact ⟨p', hreplaces, hreplaces.isCut htakes (hcut.2 p hp), hbody⟩
  obtain ⟨ps', hps'⟩ := hparts
  have hsplit : split s ((split s (lines.zipIdx 1)).1 ++ ps'.flatMap Part.lines)
      = ((split s (lines.zipIdx 1)).1, ps') :=
    split_eq_of_isCut hcut.1 fun p' hp' => (exists_of_mem_right hps' hp').elim fun _ h => h.2.2.1
  have hnumbers : List.Forall₂ (fun l l' => l'.2 = l.2)
      ((split s (lines.zipIdx 1)).1 ++ (parts s lines).flatMap Part.lines)
      ((split s (lines.zipIdx 1)).1 ++ ps'.flatMap Part.lines) := by
    have hpreamble : List.Forall₂ (fun l l' => l'.2 = l.2) (split s (lines.zipIdx 1)).1
        (split s (lines.zipIdx 1)).1 := List.forall₂_same.mpr fun _ _ => rfl
    refine List.rel_append hpreamble (List.rel_flatMap hps' fun p p' hp' => ?_)
    exact .cons (congrArg Prod.snd hp'.1.head) (hp'.1.body.imp fun _ _ hl => hl.1)
  rw [parts, happend] at hnumbers
  have hzip := zipIdx_map_fst_of_forall₂ hnumbers
  generalize hls : (split s (lines.zipIdx 1)).1 ++ ps'.flatMap Part.lines = ls at hsplit hzip
  have hplain : ∀ line ∈ ls.map Prod.fst, '\n' ∉ line := by
    intro line hline
    obtain ⟨l, hl, rfl⟩ := List.mem_map.mp hline
    rw [← hls, List.mem_append, List.mem_flatMap] at hl
    rcases hl with hl | ⟨p', hp', hl⟩
    · exact hnewline _ (hmem (.inl hl))
    · obtain ⟨p, hp, hreplaces, -, hbody⟩ := exists_of_mem_right hps' hp'
      rcases List.mem_cons.mp hl with rfl | hl
      · rw [hreplaces.head]
        exact hnewline _ (hmem (.inr ⟨p, hp, List.mem_cons_self⟩))
      · exact hbody l hl
  refine ⟨.ofList ((ls.map Prod.fst).flatMap fun line => line ++ ['\r', '\n']), ?_⟩
  rw [String.toList_ofList, Text.lines_flatMap hplain]
  refine ⟨by rw [hzip, hsplit], ?_⟩
  change List.Forall₂ _ _ (split s ((ls.map Prod.fst).zipIdx 1)).2
  rw [hzip, hsplit]
  exact hps'.imp fun _ _ hp' => hp'.1

/-- **There are numbers for the known names of a source just if its code covers its semicolons
without them.** -/
theorem exists_namesReplaced_iff {s : InstructionSet} {source : String} {d : Draft}
    (h : Draft.ofLines s (Text.lines source.toList) = .ok d)
    (hknown : ∀ p ∈ parts s (Text.lines source.toList), ∀ name n,
      (.literal (.symbol name), n) ∈ p.tokens s →
        (p.value? s (parts s (Text.lines source.toList)) name).isSome = true) :
    (∃ source' : String,
      NamesReplaced s (Text.lines source.toList) (Text.lines source'.toList)) ↔
      ∀ p ∈ parts s (Text.lines source.toList), ∀ l ∈ p.body, CoversSemicolons s l.1 :=
  ⟨fun ⟨_, hreplaced⟩ => coversSemicolons_of_replaced hreplaced,
    fun hs => exists_namesReplaced hs h hknown⟩

end Protocell.Assembly
