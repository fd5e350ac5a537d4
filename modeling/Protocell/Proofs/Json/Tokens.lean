import Mathlib.Data.List.Basic
import Protocell.Json.Decode
import Protocell.Json.Parser

/-!
# Proofs/Json/Tokens — the tokens of a value that is written

A value has a row of tokens, whatever blanks it is written with (`Json.row`), and a text that lays
out these tokens is cut into just these (`LaysOut.tokens_eq`).  The compact form of a value lays out
its tokens (`laysOut_compact`).

What a text may look like is said apart from the scanner: by the grammar of string bodies
(`Quotable`), by values whose literals keep to the grammar (`WellFormed`), and by the tokens that
stand in a text (`LaysOut`).  The scanner ends a word only at what stands behind it, so a word is
laid out in front of something that ends it; in a string body it meets no quote that is not marked
(`scanFrom_quotable`).
-/

namespace Protocell.Json

/-- **What may stand between the quotes of a string literal**: plain characters, escapes, and code
units by their numbers. -/
inductive Quotable : List Char → Prop
  | nil : Quotable []
  | plain {c : Char} {rest : List Char} (hcontrol : 0x20 ≤ c.toNat) (hquote : c ≠ '"')
      (hslash : c ≠ '\\') (hrest : Quotable rest) : Quotable (c :: rest)
  | escape {e : Char} {rest : List Char} (he : (simpleEscape? e).isSome = true)
      (hrest : Quotable rest) : Quotable ('\\' :: e :: rest)
  | unit {a b c d : Char} {rest : List Char} (hhex : [a, b, c, d].all Text.isHexDigit = true)
      (hrest : Quotable rest) : Quotable ('\\' :: 'u' :: a :: b :: c :: d :: rest)

/-- **A value of JSON**: the number literals and string bodies in it, and its keys, keep to the
grammar. -/
inductive WellFormed : Json → Prop
  | null : WellFormed .null
  | bool (b : Bool) : WellFormed (.bool b)
  | num {literal : List Char} (hnumber : isNumber literal = true) : WellFormed (.num literal)
  | str {body : List Char} (hbody : Quotable body) : WellFormed (.str body)
  | arr {items : List Json} (hitems : ∀ v ∈ items, WellFormed v) : WellFormed (.arr items)
  | obj {fields : List (List Char × Json)} (hkeys : ∀ f ∈ fields, Quotable f.1)
      (hvalues : ∀ f ∈ fields, WellFormed f.2) : WellFormed (.obj fields)

mutual

/-- **The tokens of a value.** -/
def row : Json → List Token
  | null => [.word "null".toList]
  | bool true => [.word "true".toList]
  | bool false => [.word "false".toList]
  | num literal => [.word literal]
  | str body => [.str body]
  | arr items => .openArr :: (rowItems items ++ [.closeArr])
  | obj fields => .openObj :: (rowFields fields ++ [.closeObj])

/-- The tokens of the items of a list. -/
def rowItems : List Json → List Token
  | [] => []
  | [v] => v.row
  | v :: rest => v.row ++ .comma :: rowItems rest

/-- The tokens of the fields of an object. -/
def rowFields : List (List Char × Json) → List Token
  | [] => []
  | [(k, v)] => .str k :: .colon :: v.row
  | (k, v) :: rest => .str k :: .colon :: (v.row ++ .comma :: rowFields rest)

end

/-! ## Scanning -/

/-- Where a scanner gets on a text. -/
def scanFrom (x : List Token × Scan) (text : List Char) : List Token × Scan :=
  text.foldl (fun x c => scan x.1 c x.2) x

theorem scanFrom_cons (x : List Token × Scan) (c : Char) (text : List Char) :
    scanFrom x (c :: text) = scanFrom (scan x.1 c x.2) text := rfl

theorem scanFrom_append (x : List Token × Scan) (text more : List Char) :
    scanFrom x (text ++ more) = scanFrom (scanFrom x text) more := List.foldl_append

/-- The tokens of a text at whose end a scanner stands. -/
def finish : List Token × Scan → List Token
  | (done, .between) => done.reverse
  | (done, .word back) => (.word back.reverse :: done).reverse
  | (done, .str _ _) => (.unclosed :: done).reverse

theorem tokens_eq (text : List Char) : tokens text = finish (scanFrom ([], .between) text) := rfl

/-- Whether a word ends in front of `c`. -/
def endsWord (c : Char) : Bool := isBlank c || c == '"' || (mark? c).isSome

/-- Whether a word ends in front of a text. -/
def EndsWord (rest : List Char) : Prop := ∀ c ∈ rest.head?, endsWord c = true

/-- **A text lays out tokens**: they stand in it one behind the other, and what stands between them
is blank.  A word stands in front of what ends it. -/
inductive LaysOut : List Char → List Token → Prop
  | nil : LaysOut [] []
  | blank {c : Char} {text : List Char} {ts : List Token} (hc : isBlank c = true)
      (htext : LaysOut text ts) : LaysOut (c :: text) ts
  | mark {c : Char} {t : Token} {text : List Char} {ts : List Token} (hc : mark? c = some t)
      (htext : LaysOut text ts) : LaysOut (c :: text) (t :: ts)
  | str {body text : List Char} {ts : List Token} (hbody : Quotable body)
    (htext : LaysOut text ts) :
      LaysOut (quoted body ++ text) (.str body :: ts)
  | word {word text : List Char} {ts : List Token} (hne : word ≠ [])
      (hplain : ∀ c ∈ word, endsWord c = false) (hend : EndsWord text) (htext : LaysOut text ts) :
      LaysOut (word ++ text) (.word word :: ts)

variable {text more word body : List Char} {ts us : List Token}

/-! ## Scanning what is laid out -/

theorem scan_of_mark (done : List Token) {c : Char} {t : Token} (hc : mark? c = some t) :
    scan done c .between = (t :: done, .between) := by
  rw [mark?] at hc
  iterate 6
    split at hc
    · obtain rfl := Option.some.inj hc
      subst c
      rfl
  cases hc

theorem scan_word (done : List Token) (c : Char) (back : List Char) :
    scan done c (.word back) =
      if endsWord c then scanOutside (.word back.reverse :: done) c
      else (done, .word (c :: back)) :=
  rfl

theorem scan_between_of_plain (done : List Token) {c : Char} (hc : endsWord c = false) :
    scan done c .between = (done, .word [c]) := by
  simp only [endsWord, Bool.or_eq_false_iff, beq_eq_false_iff_ne, Option.isSome_eq_false_iff,
    Option.isNone_iff_eq_none] at hc
  obtain ⟨⟨hblank, hquote⟩, hmark⟩ := hc
  simp [scan, scanOutside, hblank, hquote, hmark]

theorem scanFrom_word_of_plain (done : List Token) (back : List Char)
    (hplain : ∀ c ∈ word, endsWord c = false) :
    scanFrom (done, .word back) word = (done, .word (word.reverse ++ back)) := by
  induction word generalizing back with
  | nil => rfl
  | cons c word ih =>
    obtain ⟨hc, hplain⟩ := List.forall_mem_cons.mp hplain
    rw [scanFrom_cons, scan_word, hc, if_neg Bool.false_ne_true, ih _ hplain, List.reverse_cons,
      List.append_assoc, List.singleton_append]

/-- Behind a word that something ends, a scanner has the word and stands as between tokens. -/
theorem finish_scanFrom_word (done : List Token) (hne : word ≠ [])
    (hplain : ∀ c ∈ word, endsWord c = false) (hend : EndsWord text) :
    finish (scanFrom (done, .between) (word ++ text)) =
      finish (scanFrom (.word word :: done, .between) text) := by
  obtain ⟨first, more, rfl⟩ := List.exists_cons_of_ne_nil hne
  obtain ⟨hfirst, hmore⟩ := List.forall_mem_cons.mp hplain
  rw [List.cons_append, scanFrom_cons, scan_between_of_plain done hfirst, scanFrom_append,
    scanFrom_word_of_plain _ _ hmore]
  cases text with
  | nil => simp [scanFrom, finish]
  | cons c text =>
    rw [scanFrom_cons, scan_word, if_pos (hend c rfl), List.reverse_append, List.reverse_reverse]
    rfl

/-- Characters that are neither a quote nor a backslash go into a string literal as they are. -/
theorem scanFrom_str_of_plain (done : List Token) (back : List Char) {cs : List Char}
    (hplain : ∀ c ∈ cs, c ≠ '"' ∧ c ≠ '\\') :
    scanFrom (done, .str back false) cs = (done, .str (cs.reverse ++ back) false) := by
  induction cs generalizing back with
  | nil => rfl
  | cons c cs ih =>
    obtain ⟨⟨hquote, hslash⟩, hplain⟩ := List.forall_mem_cons.mp hplain
    have hscan : scan done c (.str back false) = (done, .str (c :: back) false) := by
      simp [scan, hquote, hslash]
    rw [scanFrom_cons, hscan, ih _ hplain, List.reverse_cons, List.append_assoc,
      List.singleton_append]

/-- **In a string body a scanner meets no quote that is not marked.** -/
theorem scanFrom_quotable (hbody : Quotable body) (done : List Token) (back : List Char) :
    scanFrom (done, .str back false) body = (done, .str (body.reverse ++ back) false) := by
  induction hbody generalizing back with
  | nil => rfl
  | @plain c rest _ hquote hslash _ ih =>
    have hplain := scanFrom_str_of_plain done back (List.forall_mem_singleton.mpr ⟨hquote, hslash⟩)
    rw [← List.singleton_append, scanFrom_append, hplain, ih, List.reverse_append,
      List.append_assoc]
  | @escape e rest _ _ ih =>
    have hmark : scanFrom (done, .str back false) ['\\', e] =
        (done, .str (['\\', e].reverse ++ back) false) := rfl
    have hsplit : '\\' :: e :: rest = ['\\', e] ++ rest := rfl
    rw [hsplit, scanFrom_append, hmark, ih, List.reverse_append, List.append_assoc]
  | @unit a b c d rest hhex _ ih =>
    have hmark : scanFrom (done, .str back false) ['\\', 'u'] =
        (done, .str (['\\', 'u'].reverse ++ back) false) := rfl
    have hplain : ∀ x ∈ [a, b, c, d], x ≠ '"' ∧ x ≠ '\\' := by
      intro x hx
      constructor <;> rintro rfl <;> exact absurd (List.all_eq_true.mp hhex _ hx) (by decide)
    have hsplit : '\\' :: 'u' :: a :: b :: c :: d :: rest
        = ['\\', 'u'] ++ ([a, b, c, d] ++ rest) := rfl
    rw [hsplit, scanFrom_append, hmark, scanFrom_append, scanFrom_str_of_plain done _ hplain, ih]
    simp only [List.reverse_append, List.append_assoc]

theorem scanFrom_quoted (hbody : Quotable body) (done : List Token) (text : List Char) :
    scanFrom (done, .between) (quoted body ++ text) =
      scanFrom (.str body :: done, .between) text := by
  have hopen : scan done '"' .between = (done, .str [] false) := rfl
  have hclose (back : List Char) :
      scan done '"' (.str back false) = (.str back.reverse :: done, .between) := rfl
  rw [quoted, List.cons_append, scanFrom_cons, hopen, List.append_assoc, scanFrom_append,
    scanFrom_quotable hbody, List.append_nil, List.singleton_append, scanFrom_cons, hclose,
    List.reverse_reverse]

theorem LaysOut.finish_scanFrom (htext : LaysOut text ts) (done : List Token) :
    finish (scanFrom (done, .between) text) = done.reverse ++ ts := by
  induction htext generalizing done with
  | nil => exact (List.append_nil _).symm
  | blank hc _ ih =>
    have hscan : scan done _ .between = (done, .between) := if_pos hc
    rw [scanFrom_cons, hscan, ih]
  | mark hc _ ih =>
    rw [scanFrom_cons, scan_of_mark done hc, ih, List.reverse_cons, List.append_assoc,
      List.singleton_append]
  | str hbody _ ih =>
    rw [scanFrom_quoted hbody, ih, List.reverse_cons, List.append_assoc, List.singleton_append]
  | word hne hplain hend _ ih =>
    rw [finish_scanFrom_word done hne hplain hend, ih, List.reverse_cons, List.append_assoc,
      List.singleton_append]

/-- **A text is cut into the tokens that it lays out.** -/
theorem LaysOut.tokens_eq (htext : LaysOut text ts) : tokens text = ts := by
  rw [Json.tokens_eq, htext.finish_scanFrom, List.reverse_nil, List.nil_append]

/-! ## Laying out values -/

/-- Texts one behind the other lay out the tokens of both. -/
theorem LaysOut.append (htext : LaysOut text ts) (hmore : LaysOut more us) (hend : EndsWord more) :
    LaysOut (text ++ more) (ts ++ us) := by
  induction htext with
  | nil => exact hmore
  | blank hc _ ih => exact .blank hc ih
  | mark hc _ ih => exact .mark hc ih
  | str hbody _ ih =>
    rw [List.append_assoc]
    exact .str hbody ih
  | @word word text ts hne hplain htextEnd _ ih =>
    rw [List.append_assoc]
    refine .word hne hplain ?_ ih
    cases text with
    | nil => exact hend
    | cons c text => exact htextEnd

theorem laysOut_word (hne : word ≠ []) (hplain : ∀ c ∈ word, endsWord c = false) :
    LaysOut word [.word word] := by
  have h : LaysOut (word ++ []) [.word word] := .word hne hplain nofun .nil
  rwa [List.append_nil] at h

theorem laysOut_quoted (hbody : Quotable body) : LaysOut (quoted body) [.str body] := by
  have h : LaysOut (quoted body ++ []) [.str body] := .str hbody .nil
  rwa [List.append_nil] at h

/-- What begins with a mark ends the word before it. -/
theorem endsWord_of_mark {c : Char} {t : Token} (hc : mark? c = some t) (text : List Char) :
    EndsWord (c :: text) := by
  intro c' hc'
  obtain rfl := Option.some.inj hc'
  simp [endsWord, hc]

theorem laysOut_compactItems {items : List Json} (hitems : ∀ v ∈ items, LaysOut v.compact v.row) :
    LaysOut (compactItems items) (rowItems items) := by
  induction items with
  | nil => exact .nil
  | cons v items ih =>
    obtain ⟨hv, hitems⟩ := List.forall_mem_cons.mp hitems
    cases items with
    | nil => exact hv
    | cons w items => exact hv.append (.mark rfl (ih hitems)) (endsWord_of_mark rfl _)

theorem laysOut_compactFields {fields : List (List Char × Json)}
    (hkeys : ∀ f ∈ fields, Quotable f.1) (hvalues : ∀ f ∈ fields, LaysOut f.2.compact f.2.row) :
    LaysOut (compactFields fields) (rowFields fields) := by
  induction fields with
  | nil => exact .nil
  | cons f fields ih =>
    obtain ⟨k, v⟩ := f
    obtain ⟨hk, hkeys⟩ := List.forall_mem_cons.mp hkeys
    obtain ⟨hv, hvalues⟩ := List.forall_mem_cons.mp hvalues
    cases fields with
    | nil => exact .str hk (.mark rfl hv)
    | cons g fields =>
      exact .str hk (.mark rfl
        (hv.append (.mark rfl (ih hkeys hvalues)) (endsWord_of_mark rfl _)))

/-- Letters and digits do not end a word. -/
theorem endsWord_eq_false_of_isAlphanum {c : Char} (hc : c.isAlphanum = true) :
    endsWord c = false := by
  have hne (d : Char) (hd : d.isAlphanum = false) : c ≠ d := by
    rintro rfl
    exact absurd hc (Bool.eq_false_iff.mp hd)
  simp (disch := decide) [endsWord, isBlank, mark?, hne]

theorem plain_of_alphanum (hword : word.all Char.isAlphanum = true) :
    ∀ c ∈ word, endsWord c = false :=
  fun c hc => endsWord_eq_false_of_isAlphanum (List.all_eq_true.mp hword c hc)

/-! The characters of a number are digits, signs, a point and an `e`. -/

theorem plain_of_digits {digits : List Char} (hdigits : digits.all Char.isDigit = true) :
    ∀ c ∈ digits, endsWord c = false := fun c hc =>
  endsWord_eq_false_of_isAlphanum (by simp [Char.isAlphanum, List.all_eq_true.mp hdigits c hc])

theorem plain_of_isExponent {cs : List Char} (h : isExponent cs = true) :
    ∀ c ∈ cs, endsWord c = false := by
  cases cs with
  | nil => nofun
  | cons e rest =>
    unfold isExponent at h
    rw [Bool.and_eq_true, Bool.and_eq_true, Bool.or_eq_true, beq_iff_eq, beq_iff_eq] at h
    obtain ⟨⟨he, -⟩, hdigits⟩ := h
    refine List.forall_mem_cons.mpr ⟨by rcases he with rfl | rfl <;> rfl, ?_⟩
    split at hdigits
    · exact List.forall_mem_cons.mpr ⟨rfl, plain_of_digits hdigits⟩
    · exact List.forall_mem_cons.mpr ⟨rfl, plain_of_digits hdigits⟩
    · exact plain_of_digits hdigits

/-- Behind digits the rest of a number is judged on its own. -/
theorem plain_of_dropWhile {cs : List Char}
    (h : ∀ c ∈ cs.dropWhile Char.isDigit, endsWord c = false) : ∀ c ∈ cs, endsWord c = false := by
  rw [← List.takeWhile_append_dropWhile (p := Char.isDigit) (l := cs)]
  exact List.forall_mem_append.mpr ⟨plain_of_digits List.all_takeWhile, h⟩

theorem plain_of_isFraction {cs : List Char} (h : isFraction cs = true) :
    ∀ c ∈ cs, endsWord c = false := by
  unfold isFraction at h
  split at h
  · rw [Bool.and_eq_true] at h
    exact List.forall_mem_cons.mpr ⟨rfl, plain_of_dropWhile (plain_of_isExponent h.2)⟩
  · exact plain_of_isExponent h

theorem plain_of_isUnsignedNumber {cs : List Char} (h : isUnsignedNumber cs = true) :
    ∀ c ∈ cs, endsWord c = false := by
  unfold isUnsignedNumber at h
  split at h
  · cases h
  · rw [Bool.and_eq_true] at h
    exact plain_of_dropWhile (plain_of_isFraction h.2)

theorem plain_of_isNumber {literal : List Char} (h : isNumber literal = true) :
    ∀ c ∈ literal, endsWord c = false := by
  unfold isNumber at h
  split at h
  · exact List.forall_mem_cons.mpr ⟨rfl, plain_of_isUnsignedNumber h⟩
  · exact plain_of_isUnsignedNumber h

theorem ne_nil_of_isNumber {literal : List Char} (h : isNumber literal = true) : literal ≠ [] := by
  rintro rfl
  cases h

/-- **The compact form of a value lays out its tokens.** -/
theorem laysOut_compact {v : Json} (hv : v.WellFormed) : LaysOut v.compact v.row := by
  induction hv with
  | null => exact laysOut_word (by decide) (plain_of_alphanum rfl)
  | bool b => cases b <;> exact laysOut_word (by decide) (plain_of_alphanum rfl)
  | num hnumber => exact laysOut_word (ne_nil_of_isNumber hnumber) (plain_of_isNumber hnumber)
  | str hbody => exact laysOut_quoted hbody
  | arr _ ih =>
    exact .mark rfl ((laysOut_compactItems ih).append (.mark rfl .nil) (endsWord_of_mark rfl _))
  | obj hkeys _ ih =>
    exact .mark rfl
      ((laysOut_compactFields hkeys ih).append (.mark rfl .nil) (endsWord_of_mark rfl _))

end Protocell.Json
