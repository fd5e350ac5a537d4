import Protocell.Proofs.Json.Reading

/-!
# Proofs/Json/Records — the fields of records are found by their names

A record that is written with distinct names gives the value of each (`fields?_record`).  In an
object that someone else wrote, a field may also be missing, and others may stand around it in any
order: what an object says of one name (`Gives`) decides what a reader with a default value makes of
it (`Gives.exists_field?`).
-/

namespace Protocell.Json

variable {fields : List (String × Json)} {names : List String} {values : List Json} {name : String}
  {v : Json}

/-! ## Written records -/

/-- Where names are distinct, a field stands among others with other names. -/
theorem exists_split_of_nodup (hnodup : (fields.map Prod.fst).Nodup) (hmem : (name, v) ∈ fields) :
    ∃ before after, fields = before ++ (name, v) :: after ∧ ∀ f ∈ before ++ after, f.1 ≠ name := by
  obtain ⟨before, after, rfl⟩ := List.append_of_mem hmem
  rw [List.map_append, List.map_cons, List.perm_middle.nodup_iff, List.nodup_cons,
    ← List.map_append] at hnodup
  exact ⟨before, after, rfl, fun f hf h => hnodup.1 (List.mem_map.mpr ⟨f, hf, h⟩)⟩

/-- **A record with distinct names gives all its values.** -/
theorem fields?_record (hnodup : names.Nodup) (hlen : names.length = values.length) :
    fields? names (record (names.zip values)) = some (values.map some) := by
  have hkeys : ((names.zip values).map Prod.fst).Nodup := by
    rwa [List.map_fst_zip hlen.le]
  have hfound : List.Forall₂ (fun name v => field? (names.zip values) name = some (some v)) names
      values := by
    refine List.forall₂_iff_zip.mpr ⟨hlen, fun {name v} hmem => ?_⟩
    obtain ⟨before, after, hsplit, hothers⟩ := exists_split_of_nodup hkeys hmem
    rw [hsplit]
    exact field?_of_once v hothers
  rw [record, fields?_obj (forall₂_isField_record _)]
  exact mapM_eq_some_of_forall₂ ((List.forall₂_map_right_iff).mpr hfound)

theorem wellFormed_record_zip (h : ∀ v ∈ values, WellFormed v) :
    WellFormed (record (names.zip values)) :=
  wellFormed_record fun f hf => h f.2 (List.of_mem_zip hf).2

/-! ## Given fields -/

/-- **A value is an object** with given fields, whose keys are taken as texts. -/
inductive IsObject : Json → List (String × Json) → Prop
  | obj {fields : List (List Char × Json)} {named : List (String × Json)}
      (h : List.Forall₂ IsField fields named) : IsObject (.obj fields) named

theorem isObject_record (fields : List (String × Json)) : IsObject (record fields) fields :=
  .obj (forall₂_isField_record fields)

/-- **A value is a number**: it is written in digits, which denote the number. -/
inductive IsNumber : Json → ℕ → Prop
  | num {literal : List Char} (hdigits : ∀ c ∈ literal, c.isDigit = true) :
      IsNumber (.num literal) (Text.decimalNumber literal)

theorem isNumber_ofNat (n : ℕ) : IsNumber (ofNat n) n := by
  have h : IsNumber (ofNat n) (Text.decimalNumber (Text.decimal n)) :=
    .num fun _ => Text.isDigit_of_mem_decimal
  rwa [Text.decimalNumber_decimal] at h

theorem IsNumber.nat?_eq {n bound : ℕ} (h : IsNumber v n) (hlt : n < bound) :
    v.nat? bound = some n := by
  cases h with
  | num hdigits => exact if_pos (by simpa [hlt] using hdigits)

variable {α : Type u} {Means : Json → α → Prop}

/-- **What fields give for a name**: nothing if no field has it, and what its value means if one
has. -/
inductive Gives (Means : Json → α → Prop) (fields : List (String × Json)) (name : String) :
    Option α → Prop
  | absent (hnone : ∀ f ∈ fields, f.1 ≠ name) : Gives Means fields name none
  | present {before after : List (String × Json)} {v : Json} {x : α}
      (hfields : fields = before ++ (name, v) :: after)
      (hothers : ∀ f ∈ before ++ after, f.1 ≠ name)
      (hvalue : Means v x) : Gives Means fields name (some x)

/-- Among fields with distinct names, whatever their order, each gives its value. -/
theorem Gives.of_mem {x : α} (hnodup : (fields.map Prod.fst).Nodup) (hmem : (name, v) ∈ fields)
    (hvalue : Means v x) : Gives Means fields name (some x) := by
  obtain ⟨before, after, hsplit, hothers⟩ := exists_split_of_nodup hnodup hmem
  exact .present hsplit hothers hvalue

/-- **A reader with a default value gets what is given**, and the default value if nothing is. -/
theorem Gives.exists_field? {given : Option α} (h : Gives Means fields name given) :
    ∃ x, field? fields name = some x ∧ ∀ (read : Json → Option β) (toData : α → β) (fallback : β),
      (∀ v a, Means v a → read v = some (toData a)) →
        orElse? read fallback x = some ((given.map toData).getD fallback) := by
  cases h with
  | absent hnone =>
    have hfilter : fields.filter (fun f => f.1 == name) = [] :=
      List.filter_eq_nil_iff.mpr fun f hf => by simpa using hnone f hf
    refine ⟨none, ?_, fun _ _ _ _ => rfl⟩
    rw [field?, hfilter]
  | present hfields hothers hvalue =>
    subst hfields
    exact ⟨some _, field?_of_once _ hothers, fun _ _ _ hread => hread _ _ hvalue⟩

end Protocell.Json
