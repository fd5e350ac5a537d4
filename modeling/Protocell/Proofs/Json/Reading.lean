import Mathlib.Data.List.Forall2
import Mathlib.Data.List.TakeWhile
import Protocell.Proofs.Json.Tokens

/-!
# Proofs/Json/Reading — a value comes back from its text

`parse?_of_laysOut`: a text that lays out the tokens of a value is read as that value.

The literals come first: a string body has code units (`isBody_of_quotable`).  Those of a written
text are its characters (`units?_encodeBody`), so every text comes back from its body, and a number
in decimal is a literal without a needless zero (`isNumber_decimal`).  The reader is judged in front
of any tokens and below any open lists and objects (`Reads`), as a value stands within others.

What a value means as data is said here apart from the functions that read it (`IsByte`, `IsField`).
-/

namespace Protocell.Json

/-! ## Literals -/

/-- **The units of a written character** are the number of that character. -/
theorem units?_escapeChar (c : Char) (rest : List Char) :
    units? (escapeChar c ++ rest) = (c.toNat :: ·) <$> units? rest := by
  by_cases hslash : c = '\\'
  · subst c
    rfl
  rw [escapeChar, if_neg hslash]
  iterate 6
    split
    · subst c
      rfl
  split
  next hcontrol =>
    have hhex : ∀ n < 0x20,
        let ds := '0' :: '0' :: Text.lowerHex (UInt8.ofNat n)
        ds.all Text.isHexDigit = true ∧ Text.hexNumber ds = n := by decide
    obtain ⟨hall, hnumber⟩ := hhex _ hcontrol
    exact (if_pos hall).trans (congrArg (fun u => (u :: ·) <$> units? rest) hnumber)
  next hcontrol =>
    rw [List.singleton_append,
      units?.eq_4 _ _ (fun _ _ _ _ _ h _ => hslash h) fun _ _ h _ => hslash h]
    exact if_neg (by simp [hcontrol, hslash])

/-- **The units of a written text** are its characters. -/
theorem units?_encodeBody (text : List Char) :
    units? (encodeBody text) = some (text.map Char.toNat) := by
  induction text with
  | nil => rfl
  | cons c text ih => rw [encodeBody, List.flatMap_cons, units?_escapeChar, ← encodeBody, ih]; rfl

/-- **A string body has code units**, whatever is written in it. -/
theorem isBody_of_quotable {body : List Char} (hbody : Quotable body) : isBody body = true := by
  rw [isBody]
  induction hbody with
  | nil => rfl
  | @plain c rest hcontrol _ hslash _ ih =>
    rw [units?.eq_4 _ _ (fun _ _ _ _ _ h _ => hslash h) fun _ _ h _ => hslash h,
      if_neg (by simp [hslash, hcontrol]), Option.map_eq_map, Option.isSome_map, ih]
  | @escape e rest he _ ih =>
    obtain ⟨c, hc⟩ := Option.isSome_iff_exists.mp he
    have hunit : e ≠ 'u' := by
      rintro rfl
      cases hc
    rw [units?.eq_3 _ _ fun _ _ _ _ _ h _ => hunit h, hc, Option.bind_eq_bind, Option.bind_some,
      Option.map_eq_map, Option.isSome_map, ih]
  | @unit a b c d rest hhex _ ih =>
    rw [units?, if_pos hhex, Option.map_eq_map, Option.isSome_map, ih]

/-- **The body of a written text** may stand between quotes. -/
theorem quotable_escapeChar (c : Char) {rest : List Char} (hrest : Quotable rest) :
    Quotable (escapeChar c ++ rest) := by
  have hhex : ∀ n < 0x20,
      ('0' :: '0' :: Text.lowerHex (UInt8.ofNat n)).all Text.isHexDigit = true := by decide
  rw [escapeChar]
  iterate 7
    split
    · exact .escape rfl hrest
  split
  next hcontrol => exact .unit (hhex _ hcontrol) hrest
  next hquote hslash _ _ _ _ _ hcontrol =>
    exact .plain (Nat.le_of_not_lt hcontrol) hquote hslash hrest

theorem quotable_encodeBody (text : List Char) : Quotable (encodeBody text) := by
  induction text with
  | nil => exact .nil
  | cons c text ih =>
    rw [encodeBody, List.flatMap_cons]
    exact quotable_escapeChar c ih

/-- No character is half a pair. -/
theorem joinUnits?_toNat_cons (c : Char) (us : List ℕ) :
    joinUnits? (c.toNat :: us) = (c :: ·) <$> joinUnits? us := by
  have hvalid : c.toNat < 0xD800 ∨ 0xDFFF < c.toNat ∧ c.toNat < 0x110000 := c.valid
  have hlead : isLead c.toNat = false := by simp [isLead]; omega
  have htrail : isTrail c.toNat = false := by simp [isTrail]; omega
  cases us <;> simp [joinUnits?, hlead, htrail]

/-- **A text comes back from its string body.** -/
theorem decodeBody?_encodeBody (text : List Char) : decodeBody? (encodeBody text) = some text := by
  have hjoin : joinUnits? (text.map Char.toNat) = some text := by
    induction text with
    | nil => rfl
    | cons c text ih => rw [List.map_cons, joinUnits?_toNat_cons, ih]; rfl
  rw [decodeBody?, units?_encodeBody]
  exact hjoin

/-- A number that is not zero has no leading zero. -/
theorem head?_decimal {n : ℕ} (hn : n ≠ 0) : (Text.decimal n).head? ≠ some '0' := by
  have hdigit : ∀ d < 10, d ≠ 0 → Nat.digitChar d ≠ '0' := by decide
  induction n using Nat.strongRecOn with
  | ind n ih =>
    rw [Text.decimal]
    rcases Nat.lt_or_ge n 10 with hlt | hge
    · rw [Nat.toDigits_of_lt_base hlt]
      exact fun h => hdigit n hlt hn (Option.some.inj h)
    · have hhigh := ih (n / 10) (Nat.div_lt_self (by omega) (by decide)) (by omega)
      rwa [Nat.toDigits_of_base_le (by decide) hge,
        List.head?_append_of_ne_nil _ (List.ne_nil_of_length_pos Nat.length_toDigits_pos)]

theorem isUnsignedNumber_of_digits {first : Char} {more : List Char}
    (hdigits : ∀ c ∈ first :: more, c.isDigit = true) (hzero : first ≠ '0') :
    isUnsignedNumber (first :: more) = true := by
  rw [isUnsignedNumber, List.takeWhile_eq_self_iff.mpr hdigits,
    List.dropWhile_eq_nil_iff.mpr hdigits]
  simp [hzero, isFraction, isExponent]

/-- **A number in decimal is a number literal.** -/
theorem isNumber_decimal (n : ℕ) : isNumber (Text.decimal n) = true := by
  rcases eq_or_ne n 0 with rfl | hn
  · rfl
  · obtain ⟨first, more, hcons⟩ : ∃ first more, Text.decimal n = first :: more :=
      List.exists_cons_of_ne_nil (List.ne_nil_of_length_pos Nat.length_toDigits_pos)
    have hdigits (c) (hc : c ∈ first :: more) : c.isDigit = true :=
      Text.isDigit_of_mem_decimal (hcons ▸ hc)
    have hzero : first ≠ '0' := fun h => head?_decimal hn (by rw [hcons, List.head?_cons, h])
    have hsign : first ≠ '-' := by
      rintro rfl
      exact absurd (hdigits _ List.mem_cons_self) (by decide)
    rw [hcons, isNumber.eq_2 _ fun _ h => hsign (List.cons.inj h).1]
    exact isUnsignedNumber_of_digits hdigits hzero

/-- A number literal is the word of a number. -/
theorem word?_of_isNumber {literal : List Char} (h : isNumber literal = true) :
    word? literal = some (.num literal) := by
  have hne (word : List Char) (hword : isNumber word = false) : literal ≠ word := by
    rintro rfl
    exact Bool.false_ne_true (hword.symm.trans h)
  rw [word?, if_neg (hne _ rfl), if_neg (hne _ rfl), if_neg (hne _ rfl), if_pos h]

/-! ## Values -/

/-- **A reader gets behind a value** with its tokens, below any open lists and objects. -/
def Reads (v : Json) : Prop :=
  ∀ fs ts, (Reader.value fs).first? (v.row ++ ts) = (Reader.after fs v).first? ts

theorem first?_cons {r r' : Reader} {t : Token} (hnext : r.next t = some r') (ts : List Token) :
    r.first? (t :: ts) = r'.first? ts := by
  have hopen (v : Json) : r ≠ .after [] v := by
    rintro rfl
    simp [Reader.next] at hnext
  rw [Reader.first?.eq_3 _ _ _ hopen, hnext]
  rfl

theorem reads_word {text : List Char} {v : Json} (hrow : v.row = [.word text])
    (hword : word? text = some v) : Reads v := by
  intro fs ts
  have hnext : (Reader.value fs).next (.word text) = some (.after fs v) :=
    congrArg (Option.map (Reader.after fs)) hword
  rw [hrow, List.singleton_append, first?_cons hnext]

/-- The items of a list are read onto those before them. -/
theorem first?_rowItems {v : Json} {items : List Json} (hitems : ∀ w ∈ v :: items, Reads w)
    (done : List Json) (fs : List Frame) (ts : List Token) :
    (Reader.value (.arr done :: fs)).first? (rowItems (v :: items) ++ .closeArr :: ts) =
      (Reader.after fs (.arr (done.reverse ++ v :: items))).first? ts := by
  induction items generalizing v done with
  | nil =>
    rw [rowItems, hitems v List.mem_cons_self, first?_cons rfl, List.reverse_cons]
  | cons w items ih =>
    obtain ⟨hv, hitems⟩ := List.forall_mem_cons.mp hitems
    rw [rowItems, List.append_assoc, hv, List.cons_append, first?_cons rfl, ih hitems,
      List.reverse_cons, List.append_assoc, List.singleton_append]
    exact List.cons_ne_nil _ _

/-- A reader gets behind the value of a key. -/
theorem first?_field {k : List Char} {v : Json} (hk : isBody k = true) (hv : Reads v)
    (done : List (List Char × Json)) (fs : List Frame) (ts : List Token) :
    (Reader.key fs done).first? (.str k :: .colon :: (v.row ++ ts)) =
      (Reader.after (.obj done k :: fs) v).first? ts := by
  have hkey : (Reader.key fs done).next (.str k) = some (.colon fs done k) := if_pos hk
  rw [first?_cons hkey, first?_cons rfl, hv]

/-- The fields of an object are read onto those before them. -/
theorem first?_rowFields {f : List Char × Json} {fields : List (List Char × Json)}
    (hkeys : ∀ g ∈ f :: fields, isBody g.1 = true) (hvalues : ∀ g ∈ f :: fields, Reads g.2)
    (done : List (List Char × Json)) (fs : List Frame) (ts : List Token) :
    (Reader.key fs done).first? (rowFields (f :: fields) ++ .closeObj :: ts) =
      (Reader.after fs (.obj (done.reverse ++ f :: fields))).first? ts := by
  obtain ⟨k, v⟩ := f
  induction fields generalizing k v done with
  | nil =>
    rw [rowFields, List.cons_append, List.cons_append,
      first?_field (hkeys _ List.mem_cons_self) (hvalues _ List.mem_cons_self), first?_cons rfl,
      List.reverse_cons]
  | cons g fields ih =>
    obtain ⟨hk, hkeys⟩ := List.forall_mem_cons.mp hkeys
    obtain ⟨hv, hvalues⟩ := List.forall_mem_cons.mp hvalues
    rw [rowFields, List.cons_append, List.cons_append, List.append_assoc, first?_field hk hv,
      List.cons_append, first?_cons rfl, ih _ _ _ hkeys hvalues, List.reverse_cons,
      List.append_assoc, List.singleton_append]
    exact List.cons_ne_nil _ _

/-- **A value is read from its tokens.** -/
theorem reads_of_wellFormed {v : Json} (hv : v.WellFormed) : Reads v := by
  induction hv with
  | null => exact reads_word rfl rfl
  | bool b => cases b <;> exact reads_word rfl rfl
  | num hnumber => exact reads_word rfl (word?_of_isNumber hnumber)
  | @str body hbody =>
    intro fs ts
    have hnext : (Reader.value fs).next (.str body) = some (.after fs (.str body)) :=
      if_pos (isBody_of_quotable hbody)
    exact first?_cons hnext ts
  | @arr items _ ih =>
    intro fs ts
    cases items with
    | nil => rfl
    | cons v items =>
      rw [row, List.cons_append, first?_cons rfl, List.append_assoc, List.singleton_append]
      exact first?_rowItems ih [] fs ts
  | @obj fields hkeys _ ih =>
    intro fs ts
    cases fields with
    | nil => rfl
    | cons f fields =>
      have hbodies (g) (hg : g ∈ f :: fields) : isBody g.1 = true := isBody_of_quotable (hkeys g hg)
      rw [row, List.cons_append, first?_cons rfl, List.append_assoc, List.singleton_append]
      exact first?_rowFields hbodies ih [] fs ts

/-- **A value is read from any text that lays out its tokens.** -/
theorem parse?_of_laysOut {text : List Char} {v : Json} (hv : v.WellFormed)
    (htext : LaysOut text v.row) : parse? text = some v := by
  have hread := reads_of_wellFormed hv [] []
  rw [List.append_nil, ← htext.tokens_eq] at hread
  rw [parse?, first?, hread]
  rfl

/-- **A value comes back from its compact form.** -/
theorem parse?_compact {v : Json} (hv : v.WellFormed) : parse? v.compact = some v :=
  parse?_of_laysOut hv (laysOut_compact hv)

/-- A text that is read has nothing behind its value. -/
theorem first?_of_parse? {text : List Char} {v : Json} (h : parse? text = some v) :
    first? text = some (v, []) := by
  rw [parse?] at h
  split at h
  · next hfirst => rw [hfirst, Option.some.inj h]
  · cases h

/-! ## Data -/

/-- **A value is a byte**: it is written in digits, which denote the byte. -/
inductive IsByte : Json → UInt8 → Prop
  | num {literal : List Char} {b : UInt8} (hdigits : ∀ c ∈ literal, c.isDigit = true)
      (hvalue : Text.decimalNumber literal = b.toNat) : IsByte (.num literal) b

/-- Bytes are written as such. -/
theorem forall₂_isByte_ofByte (bytes : List UInt8) :
    List.Forall₂ IsByte (bytes.map ofByte) bytes := by
  rw [List.forall₂_map_left_iff, List.forall₂_same]
  exact fun b _ => .num (fun _ => Text.isDigit_of_mem_decimal) (Text.decimalNumber_decimal _)

theorem IsByte.byte?_eq {v : Json} {b : UInt8} (h : IsByte v b) : v.byte? = some b := by
  cases h with
  | @num literal _ hdigits hvalue =>
    have hlt : Text.decimalNumber literal < 256 := hvalue ▸ b.toNat_lt
    rw [byte?, nat?, if_pos (by simpa [hlt] using hdigits), hvalue, Option.map_some,
      UInt8.ofNat_toNat]

theorem wellFormed_ofNat (n : ℕ) : WellFormed (ofNat n) := .num (isNumber_decimal n)

theorem wellFormed_ofText (s : String) : WellFormed (ofText s) := .str (quotable_encodeBody _)

theorem wellFormed_ofBytes (bytes : List UInt8) : WellFormed (ofBytes bytes) := by
  refine .arr fun v hv => ?_
  obtain ⟨b, -, rfl⟩ := List.mem_map.mp hv
  exact wellFormed_ofNat b.toNat

theorem mapM_eq_some_of_forall₂ {α β : Type u} {f : α → Option β} {xs : List α} {ys : List β}
    (h : List.Forall₂ (fun x y => f x = some y) xs ys) : xs.mapM f = some ys := by
  induction h with
  | nil => rfl
  | cons hx _ ih => rw [List.mapM_cons, hx, ih]; rfl

theorem bytes?_eq_of_forall₂ {items : List Json} {bytes : List UInt8}
    (h : List.Forall₂ IsByte items bytes) : bytes? (.arr items) = some bytes :=
  mapM_eq_some_of_forall₂ (h.imp fun _ _ => IsByte.byte?_eq)

/-- **A field of an object** with its key as a text. -/
def IsField (f : List Char × Json) (n : String × Json) : Prop :=
  decodeBody? f.1 = some n.1.toList ∧ f.2 = n.2

/-- A record is written with its fields. -/
theorem forall₂_isField_record (fields : List (String × Json)) :
    List.Forall₂ IsField (fields.map fun f => (encodeBody f.1.toList, f.2)) fields := by
  rw [List.forall₂_map_left_iff, List.forall₂_same]
  exact fun f _ => ⟨decodeBody?_encodeBody _, rfl⟩

theorem wellFormed_record {fields : List (String × Json)} (h : ∀ f ∈ fields, WellFormed f.2) :
    WellFormed (record fields) :=
  .obj (List.forall_mem_map.mpr fun _ _ => quotable_encodeBody _) (List.forall_mem_map.mpr h)

/-- **The fields of an object are looked up by their keys as texts.** -/
theorem fields?_obj {fields : List (List Char × Json)} {named : List (String × Json)}
    (h : List.Forall₂ IsField fields named) (names : List String) :
    fields? names (.obj fields) = names.mapM (field? named) := by
  have hnamed : fields.mapM (fun f => (decodeBody? f.1).map fun k => (String.ofList k, f.2)) =
      some named := by
    refine mapM_eq_some_of_forall₂ (h.imp fun f n ⟨hkey, hvalue⟩ => ?_)
    rw [hkey, hvalue, Option.map_some, String.ofList_toList]
  rw [fields?, hnamed]
  rfl

/-- A key that stands once has its value. -/
theorem field?_of_once {before after : List (String × Json)} {name : String} (v : Json)
    (hothers : ∀ f ∈ before ++ after, f.1 ≠ name) :
    field? (before ++ (name, v) :: after) name = some (some v) := by
  have hnone {fields : List (String × Json)} (h : ∀ f ∈ fields, f.1 ≠ name) :
      fields.filter (fun f => f.1 == name) = [] :=
    List.filter_eq_nil_iff.mpr fun f hf => by simpa using h f hf
  obtain ⟨hbefore, hafter⟩ := List.forall_mem_append.mp hothers
  rw [field?, List.filter_append, hnone hbefore, List.filter_cons_of_pos (by simp),
    hnone hafter]
  rfl

end Protocell.Json
