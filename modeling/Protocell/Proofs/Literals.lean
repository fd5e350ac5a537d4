import Mathlib.Data.List.Forall2
import Mathlib.Data.Nat.Digits.Defs
import Protocell.Proofs.Mnemonics
import Protocell.Proofs.Source.Spelling

/-!
# Proofs/Literals — the words of code, and what they stand for

A literal is a numeral in decimal, or one in hexadecimal behind `$`, or a name behind `@`.  This
grammar is said apart from the reader (`Numeral`, `IsLiteral`): a numeral is a row of digits, as
long as it likes, and its number is that of the row in its base.  The reader takes just these words,
and what else it is given it refuses by its first character (`Literal.parse_eq_ok_iff`,
`Literal.parse_eq_error_iff`).

In a line of code the names of instructions come first, whatever else they look like, and of the
other words just those are taken for literals that begin as one (`literal_grammar_exact`).
-/

namespace Protocell

namespace Assembly

/-! ## Numerals -/

/-- The digits in the order of their values, letters in lower case. -/
def lowerDigits : List Char := "0123456789abcdef".toList

/-- The digits in the order of their values, letters in upper case. -/
def upperDigits : List Char := "0123456789ABCDEF".toList

/-- **A digit of a base, and its value.** -/
def IsDigit (base : ℕ) (c : Char) (d : ℕ) : Prop :=
  d < base ∧ (lowerDigits[d]? = some c ∨ upperDigits[d]? = some c)

instance (base : ℕ) (c : Char) (d : ℕ) : Decidable (IsDigit base c d) :=
  inferInstanceAs (Decidable (d < base ∧ (lowerDigits[d]? = some c ∨ upperDigits[d]? = some c)))

/-- **A numeral of a base, and its number**: one digit or more, with any number of zeros before. -/
def Numeral (base : ℕ) (word : List Char) (n : ℕ) : Prop :=
  word ≠ [] ∧ ∃ ds, List.Forall₂ (IsDigit base) word ds ∧ n = Nat.ofDigits base ds.reverse

theorem isDigit_ten_iff {c : Char} {d : ℕ} :
    IsDigit 10 c d ↔ c.isDigit = true ∧ c.toNat - '0'.toNat = d := by
  constructor
  · rintro ⟨hd, hc⟩
    have hten : ∀ d < 10, lowerDigits[d]? = upperDigits[d]? ∧
        lowerDigits[d]?.map (fun c => (c.isDigit, c.toNat - '0'.toNat)) = some (true, d) := by
      decide
    obtain ⟨hcase, hdigit⟩ := hten d hd
    rw [← hcase, or_self] at hc
    rw [hc] at hdigit
    exact Prod.mk.inj (Option.some.inj hdigit)
  · rintro ⟨hc, rfl⟩
    have hten : ∀ n < 58, 48 ≤ n →
        n - '0'.toNat < 10 ∧ lowerDigits[n - '0'.toNat]? = some (Char.ofNat n) := by decide
    obtain ⟨hlow, hhigh⟩ := Char.isDigit_iff_toNat.mp hc
    obtain ⟨hlt, hget⟩ := hten c.toNat (Nat.lt_succ_of_le hhigh) hlow
    rw [Char.ofNat_toNat] at hget
    exact ⟨hlt, .inl hget⟩

theorem isDigit_sixteen_iff {c : Char} {d : ℕ} : IsDigit 16 c d ↔ Text.hexValue? c = some d := by
  constructor
  · rintro ⟨hd, hc⟩
    have hsixteen : ∀ d < 16, lowerDigits[d]?.bind Text.hexValue? = some d ∧
        upperDigits[d]?.bind Text.hexValue? = some d := by decide
    obtain ⟨hlower, hupper⟩ := hsixteen d hd
    rcases hc with hc | hc
    · rwa [hc] at hlower
    · rwa [hc] at hupper
  · intro hc
    have hascii : ∀ n < 128, ∀ d ∈ Text.hexValue? (Char.ofNat n), d < 16 ∧
        (lowerDigits[d]? = some (Char.ofNat n) ∨ upperDigits[d]? = some (Char.ofNat n)) := by decide
    have hlt : c.toNat < 128 := by
      rw [Text.hexValue?] at hc
      split_ifs at hc with hdigit hlower hupper
      · exact Nat.lt_of_le_of_lt (Char.isDigit_iff_toNat.mp hdigit).2 (by decide)
      · exact Nat.lt_of_le_of_lt hlower.2 (by decide)
      · exact Nat.lt_of_le_of_lt hupper.2 (by decide)
    rw [← Char.ofNat_toNat c] at hc ⊢
    exact hascii c.toNat hlt d hc

/-- Reading digits from the left gives the number of their row. -/
theorem foldl_eq_ofDigits (base : ℕ) (value : Char → ℕ) (word : List Char) :
    word.foldl (fun n c => base * n + value c) 0 = Nat.ofDigits base (word.map value).reverse := by
  induction word using List.reverseRecOn with
  | nil => rfl
  | append_singleton word c ih =>
    rw [List.foldl_append, ih, List.foldl_cons, List.foldl_nil, List.map_append,
      List.reverse_append, List.map_singleton, List.reverse_singleton, List.singleton_append,
      Nat.ofDigits_cons, Nat.add_comm]

/-- A numeral is known by a test for digits and their values. -/
theorem numeral_iff {base : ℕ} {test : Char → Bool} {value : Char → ℕ}
    (hdigit : ∀ c d, IsDigit base c d ↔ test c = true ∧ value c = d) {word : List Char} {n : ℕ} :
    Numeral base word n ↔ (!word.isEmpty && word.all test) = true ∧
      word.foldl (fun n c => base * n + value c) 0 = n := by
  have hrow (ds : List ℕ) : List.Forall₂ (IsDigit base) word ds ↔
      (∀ c ∈ word, test c = true) ∧ word.map value = ds := by
    have hdigits : IsDigit base = fun c d => test c = true ∧ value c = d := by
      funext c d
      exact propext (hdigit c d)
    rw [hdigits, List.forall₂_and_left, ← List.forall₂_eq_eq_eq, List.forall₂_map_left_iff]
  have hne : word ≠ [] ↔ (!word.isEmpty) = true := by simp
  simp only [Numeral, hrow, foldl_eq_ofDigits, Bool.and_eq_true, List.all_eq_true, ← hne]
  constructor
  · rintro ⟨hword, _, ⟨htest, rfl⟩, rfl⟩
    exact ⟨⟨hword, htest⟩, rfl⟩
  · rintro ⟨⟨hword, htest⟩, rfl⟩
    exact ⟨hword, _, ⟨htest, rfl⟩, rfl⟩

theorem numeral_ten_iff {word : List Char} {n : ℕ} :
    Numeral 10 word n ↔
      (!word.isEmpty && word.all Char.isDigit) = true ∧ Text.decimalNumber word = n :=
  numeral_iff fun _ _ => isDigit_ten_iff

theorem numeral_sixteen_iff {word : List Char} {n : ℕ} :
    Numeral 16 word n ↔
      (!word.isEmpty && word.all Text.isHexDigit) = true ∧ Text.hexNumber word = n := by
  refine numeral_iff fun c d => ?_
  rw [isDigit_sixteen_iff, Text.isHexDigit]
  cases Text.hexValue? c <;> simp

/-! ## Literals -/

/-- **The words that are literals.**  The number of a numeral fits in a byte. -/
inductive IsLiteral : List Char → Literal → Prop
  | decimal {word : List Char} {v : UInt8} (h : Numeral 10 word v.toNat) : IsLiteral word (.value v)
  | hex {digits : List Char} {v : UInt8} (h : Numeral 16 digits v.toNat) :
      IsLiteral ('$' :: digits) (.value v)
  | symbol {name : List Char} (h : name ≠ []) : IsLiteral ('@' :: name) (.symbol (.ofList name))

/-- **Which error a word gives that is no literal**, by its first character. -/
inductive LiteralFault : List Char → Cause → Prop
  | hex (rest : List Char) : LiteralFault ('$' :: rest) (.badHex (.ofList ('$' :: rest)))
  | symbol : LiteralFault ['@'] .emptySymbol
  | decimal {c : Char} {d : ℕ} (hc : IsDigit 10 c d) (rest : List Char) :
      LiteralFault (c :: rest) (.badDecimal (.ofList (c :: rest)))
  | other {word : List Char} (h : ∀ c ∈ word.head?, c ≠ '$' ∧ c ≠ '@' ∧ ∀ d, ¬ IsDigit 10 c d) :
      LiteralFault word (.invalidLiteral (.ofList word))

namespace Literal

theorem ofNat?_eq_some_iff {n : ℕ} {l : Literal} :
    ofNat? n = some l ↔ ∃ v : UInt8, v.toNat = n ∧ l = value v := by
  rw [ofNat?]
  constructor
  · intro h
    split_ifs at h with hlt
    exact ⟨UInt8.ofNat n, UInt8.toNat_ofNat_of_lt' hlt, (Option.some.inj h).symm⟩
  · rintro ⟨v, rfl, rfl⟩
    rw [if_pos v.toNat_lt, UInt8.ofNat_toNat]

theorem hex?_eq_some_iff {digits : List Char} {l : Literal} :
    hex? digits = some l ↔ ∃ v : UInt8, Numeral 16 digits v.toNat ∧ l = value v := by
  rw [hex?, Option.ite_none_right_eq_some, ofNat?_eq_some_iff]
  simp only [numeral_sixteen_iff, eq_comm (b := UInt8.toNat _), and_assoc, exists_and_left]

theorem decimal?_eq_some_iff {digits : List Char} {l : Literal} :
    decimal? digits = some l ↔ ∃ v : UInt8, Numeral 10 digits v.toNat ∧ l = value v := by
  rw [decimal?, Option.ite_none_right_eq_some, ofNat?_eq_some_iff]
  simp only [numeral_ten_iff, eq_comm (b := UInt8.toNat _), and_assoc, exists_and_left]

theorem isDigit_head_of_numeral {c : Char} {rest : List Char} {n : ℕ}
    (h : Numeral 10 (c :: rest) n) :
    c.isDigit = true := by
  rw [numeral_ten_iff, Bool.and_eq_true, List.all_cons, Bool.and_eq_true] at h
  exact h.1.2.1

theorem not_numeral_nil {base n : ℕ} : ¬ Numeral base [] n := fun h => h.1 rfl

/-- **The reader takes just the literals.** -/
theorem parse_eq_ok_iff {word : List Char} {l : Literal} :
    parse word = .ok l ↔ IsLiteral word l := by
  have helim (e : Cause) (o : Option Literal) :
      o.elim (.error e) .ok = (.ok l : Except Cause Literal) ↔ o = some l := by
    cases o <;> simp
  rw [parse.eq_def]
  cases word with
  | nil =>
    refine iff_of_false (by rintro ⟨⟩) ?_
    rintro (h | _ | _)
    exact not_numeral_nil h
  | cons c rest =>
    simp only
    split_ifs with hhex hsymbol hempty hdigit
    · subst c
      rw [helim, hex?_eq_some_iff]
      constructor
      · rintro ⟨v, hv, rfl⟩
        exact .hex hv
      · rintro (h | h | _)
        · exact absurd (isDigit_head_of_numeral h) (by decide)
        · exact ⟨_, h, rfl⟩
    · subst c
      refine iff_of_false (by rintro ⟨⟩) ?_
      rintro (h | _ | h)
      · exact absurd (isDigit_head_of_numeral h) (by decide)
      · exact h (List.isEmpty_iff.mp hempty)
    · subst c
      rw [Except.ok.injEq]
      constructor
      · rintro rfl
        exact .symbol (mt List.isEmpty_iff.mpr hempty)
      · rintro (h | _ | _)
        · exact absurd (isDigit_head_of_numeral h) (by decide)
        · rfl
    · rw [helim, decimal?_eq_some_iff]
      constructor
      · rintro ⟨v, hv, rfl⟩
        exact .decimal hv
      · rintro (h | _ | _)
        · exact ⟨_, h, rfl⟩
        · exact absurd rfl hhex
        · exact absurd rfl hsymbol
    · refine iff_of_false (by rintro ⟨⟩) ?_
      rintro (h | _ | _)
      · exact hdigit (isDigit_head_of_numeral h)
      · exact hhex rfl
      · exact hsymbol rfl

theorem isDigit_iff_exists {c : Char} : c.isDigit = true ↔ ∃ d, IsDigit 10 c d := by
  simp [isDigit_ten_iff]

/-- What the reader refuses it refuses by the first character. -/
theorem fault_of_parse {word : List Char} {e : Cause} (h : parse word = .error e) :
    LiteralFault word e := by
  have helim {e' : Cause} {o : Option Literal}
      (h : o.elim (.error e') .ok = (.error e : Except Cause Literal)) : e' = e := by
    cases o with
    | none => exact Except.error.inj h
    | some l => cases h
  rw [parse.eq_def] at h
  cases word with
  | nil =>
    obtain rfl := Except.error.inj h
    exact .other nofun
  | cons c rest =>
    simp only at h
    split_ifs at h with hhex hsymbol hempty hdigit
    · subst c
      obtain rfl := helim h
      exact .hex rest
    · subst c
      obtain rfl := List.isEmpty_iff.mp hempty
      obtain rfl := Except.error.inj h
      exact .symbol
    · obtain ⟨d, hd⟩ := isDigit_iff_exists.mp hdigit
      obtain rfl := helim h
      exact .decimal hd rest
    · obtain rfl := Except.error.inj h
      refine .other fun c' hc' => ?_
      obtain rfl := Option.some.inj hc'
      exact ⟨hhex, hsymbol, fun d hd => hdigit (isDigit_iff_exists.mpr ⟨d, hd⟩)⟩

end Literal

/-- A word has one error. -/
theorem LiteralFault.unique {word : List Char} {e e' : Cause} (h : LiteralFault word e)
    (h' : LiteralFault word e') : e = e' := by
  have hhex (d : ℕ) : ¬ IsDigit 10 '$' d :=
    not_exists.mp (mt Literal.isDigit_iff_exists.mpr (by decide)) d
  have hsymbol (d : ℕ) : ¬ IsDigit 10 '@' d :=
    not_exists.mp (mt Literal.isDigit_iff_exists.mpr (by decide)) d
  cases h with
  | hex rest =>
    rcases h' with _ | _ | hc | hother
    · rfl
    · exact absurd hc (hhex _)
    · exact absurd rfl (hother _ rfl).1
  | symbol =>
    rcases h' with _ | _ | hc | hother
    · rfl
    · exact absurd hc (hsymbol _)
    · exact absurd rfl (hother _ rfl).2.1
  | decimal hc rest =>
    rcases h' with _ | _ | _ | hother
    · exact absurd hc (hhex _)
    · exact absurd hc (hsymbol _)
    · rfl
    · exact absurd hc ((hother _ rfl).2.2 _)
  | other hother =>
    rcases h' with _ | _ | hc | _
    · exact absurd rfl (hother _ rfl).1
    · exact absurd rfl (hother _ rfl).2.1
    · exact absurd hc ((hother _ rfl).2.2 _)
    · rfl

/-- **The reader refuses all other words**, each with its error. -/
theorem Literal.parse_eq_error_iff {word : List Char} {e : Cause} :
    parse word = .error e ↔ (∀ l, ¬ IsLiteral word l) ∧ LiteralFault word e := by
  constructor
  · intro h
    refine ⟨fun l hl => ?_, fault_of_parse h⟩
    rw [parse_eq_ok_iff.mpr hl] at h
    cases h
  · rintro ⟨hnone, hfault⟩
    cases h : parse word with
    | ok l => exact absurd (parse_eq_ok_iff.mp h) (hnone l)
    | error e' => rw [(fault_of_parse h).unique hfault]

/-! ## Words of code -/

/-- **A word begins as a literal does.** -/
def BeginsLiteral (word : List Char) : Prop :=
  ∃ c ∈ word.head?, c = '$' ∨ c = '@' ∨ ∃ d, IsDigit 10 c d

theorem beginsLiteral_iff {word : List Char} : BeginsLiteral word ↔
    (word.head?.any fun c => c.isDigit || c == '$' || c == '@') = true := by
  rw [BeginsLiteral, Option.any_eq_true]
  refine exists_congr fun c => and_congr_right fun _ => ?_
  rw [← Literal.isDigit_iff_exists, Bool.or_eq_true, Bool.or_eq_true, beq_iff_eq, beq_iff_eq,
    or_comm (a := c.isDigit = true), or_assoc, or_comm (b := c = '@')]

namespace Token

variable {s : InstructionSet} {word : List Char}

theorem parse_of_lookup {i : Instruction} (h : s.lookup (.ofList word) = some i) :
    parse s word = .ok (.instruction i) := by
  rw [parse, h]

theorem parse_of_beginsLiteral (h : s.lookup (.ofList word) = none) (hword : BeginsLiteral word) :
    parse s word = (Literal.parse word).map literal := by
  rw [parse, h]
  exact if_pos (beginsLiteral_iff.mp hword)

theorem parse_of_not_beginsLiteral (h : s.lookup (.ofList word) = none)
    (hword : ¬ BeginsLiteral word) :
    parse s word = .error (.unknownInstruction (.ofList word)) := by
  rw [parse, h]
  exact if_neg (mt beginsLiteral_iff.mpr hword)

/-- **A word that is no name is an unknown instruction just if it does not begin as a literal.** -/
theorem parse_eq_unknown_iff (h : s.lookup (.ofList word) = none) {text : String} :
    parse s word = .error (.unknownInstruction text) ↔
      ¬ BeginsLiteral word ∧ text = .ofList word := by
  by_cases hword : BeginsLiteral word
  · refine iff_of_false (fun hparse => ?_) fun hnot => hnot.1 hword
    rw [parse_of_beginsLiteral h hword, map_eq_error_iff] at hparse
    cases Literal.fault_of_parse hparse
  · rw [parse_of_not_beginsLiteral h hword, and_iff_right hword, Except.error.injEq,
      Cause.unknownInstruction.injEq, eq_comm]

end Token

/-- **How words of code are read** with an instruction set that is built from definitions and
aliases. -/
structure ReadsCode (s : InstructionSet) (ds : List Definition) (as : List (String × String)) :
    Prop where
  /-- A name is the instruction that it stands for, whatever else it looks like. -/
  name : ∀ word d, InstructionSet.Registered ds as (.ofList word) d →
    ∃ i, i.toDefinition = d ∧ Token.parse s word = .ok (.instruction i)
  /-- Another word that begins as a literal is read as one. -/
  literal : ∀ word, (∀ d, ¬ InstructionSet.Registered ds as (.ofList word) d) →
    BeginsLiteral word → Token.parse s word = (Literal.parse word).map .literal
  /-- Another word is an unknown instruction just if it does not begin as a literal. -/
  unknown : ∀ word, (∀ d, ¬ InstructionSet.Registered ds as (.ofList word) d) → ∀ text,
    Token.parse s word = .error (.unknownInstruction text) ↔
      ¬ BeginsLiteral word ∧ text = .ofList word
  /-- A line of code is its words, the last one first. -/
  line : ∀ text, isCode text = true → ∀ ts, Statement.parse? s text = .ok (some (.tokens ts)) ↔
    List.Forall₂ (fun word t => Token.parse s word = .ok t) (codeWords text) ts.reverse
  /-- Its error is that of the first word that has one. -/
  line_error : ∀ text, isCode text = true → ∀ e, Statement.parse? s text = .error e ↔
    ∃ before word after, codeWords text = before ++ word :: after ∧
      (∀ w ∈ before, ∃ t, Token.parse s w = .ok t) ∧ Token.parse s word = .error e

theorem readsCode_of_build {ds : List Definition} {as : List (String × String)} {s : InstructionSet}
    (h : InstructionSet.build ds as = .ok s) : ReadsCode s ds as := by
  have hnone {word : List Char}
      (hword : ∀ d, ¬ InstructionSet.Registered ds as (.ofList word) d) :
      s.lookup (.ofList word) = none := by
    refine Option.eq_none_iff_forall_ne_some.mpr fun i hi => ?_
    exact hword _ ((InstructionSet.registered_iff_lookup h).mpr ⟨i, hi, rfl⟩)
  refine ⟨fun word d hd => ?_, fun word hword => Token.parse_of_beginsLiteral (hnone hword),
    fun word hword text => Token.parse_eq_unknown_iff (hnone hword), fun text hcode ts => ?_,
    fun text hcode e => ?_⟩
  · obtain ⟨i, hi, hdefinition⟩ := (InstructionSet.registered_iff_lookup h).mp hd
    exact ⟨i, hdefinition, Token.parse_of_lookup hi⟩
  · rw [parse?_of_isCode hcode, map_eq_ok_iff]
    constructor
    · rintro ⟨us, hus, hts⟩
      obtain rfl := Statement.tokens.inj (Option.some.inj hts)
      rw [List.reverse_reverse]
      exact mapM_eq_ok_iff.mp hus
    · intro hts
      exact ⟨ts.reverse, mapM_eq_ok_iff.mpr hts, by rw [List.reverse_reverse]⟩
  · rw [parse?_of_isCode hcode, map_eq_error_iff, mapM_eq_error_iff]

/-- **The grammar of literals is exact.**  A word is read as a byte just if it is a decimal numeral,
or `$` and a hexadecimal one, whose number is that byte, and as a symbol just if it is `@` and a
name, which is the symbol's; any other word gives the error that its first character tells.  In a
line of code a name is always its instruction, and another word is an unknown instruction just if it
begins with none of a digit, `$` and `@`. -/
theorem literal_grammar_exact :
    (∀ word l, Literal.parse word = .ok l ↔ IsLiteral word l) ∧
    (∀ word e, Literal.parse word = .error e ↔
      (∀ l, ¬ IsLiteral word l) ∧ LiteralFault word e) ∧
    ∀ ds as s, InstructionSet.build ds as = .ok s → ReadsCode s ds as :=
  ⟨fun _ _ => Literal.parse_eq_ok_iff, fun _ _ => Literal.parse_eq_error_iff,
    fun _ _ _ => readsCode_of_build⟩

/-- An instruction that is called by a digit, and an alias of it that looks like a symbol, in a line
with a numeral of the same number; a numeral behind a sign; a number one too large. -/
theorem digit_as_mnemonic :
    ∃ s i, InstructionSet.build [⟨.nop, "7", 0, 1⟩] [("@x", "7")] = .ok s ∧
      i.toDefinition = ⟨.nop, "7", 0, 1⟩ ∧
      Statement.parse? s "7 @x 007 ; $".toList =
        .ok (some (.tokens [.literal (.value 7), .instruction i, .instruction i])) ∧
      Statement.parse? s "7 +7 256".toList = .error (.unknownInstruction "+7") ∧
      Literal.parse "$00fF".toList = .ok (.value 255) ∧
      Literal.parse "256".toList = .error (.badDecimal "256") := by
  obtain ⟨hok, herror, hcode⟩ := literal_grammar_exact
  have hbuild : InstructionSet.build [⟨.nop, "7", 0, 1⟩] [("@x", "7")]
      = .ok ⟨[⟨⟨.nop, "7", 0, 1⟩, 0⟩], [("@x", ⟨⟨.nop, "7", 0, 1⟩, 0⟩)]⟩ := rfl
  have hreads := hcode _ _ _ hbuild
  refine ⟨_, ⟨⟨.nop, "7", 0, 1⟩, 0⟩, hbuild, rfl, ?_, ?_, ?_, ?_⟩
  · refine (hreads.line _ (by decide) _).mpr ?_
    exact .cons rfl (.cons rfl (.cons rfl .nil))
  · refine (hreads.line_error _ (by decide) _).mpr
      ⟨["7".toList], "+7".toList, ["256".toList], by decide, ?_, rfl⟩
    exact List.forall_mem_singleton.mpr ⟨_, rfl⟩
  · have hnumeral : Numeral 16 ['0', '0', 'f', 'F'] (255 : UInt8).toNat :=
      ⟨List.cons_ne_nil _ _, [0, 0, 15, 15],
        .cons (by decide) (.cons (by decide) (.cons (by decide) (.cons (by decide) .nil))), rfl⟩
    exact (hok _ _).mpr (.hex hnumeral)
  · refine (herror _ _).mpr ⟨fun l hl => ?_, .decimal (d := 2) (by decide) "56".toList⟩
    cases hl with
    | decimal h => exact absurd (numeral_ten_iff.mp h).2 (Nat.ne_of_gt (UInt8.toNat_lt _))

end Assembly

end Protocell
